import Rumahl.Runtime.SecretTarget

/-!
# What deliveries and removals of secret files do

Deliveries and removals may stop between any two calls of the file system, and any call may fail
after a part of its effect. `deliverOidcClientSecret_spec` and `removeForInstallation_spec` say what
they leave behind however they end, and what their answers mean.
-/

namespace Rumahl

open Effect Disk Tree

/-- A directory of the process that nobody else can write to. -/
def OwnDirectory (me : Process) (t : Tree) (p : Path) : Prop :=
  ∃ n, t.get p = some n ∧ n.type = .directory ∧ n.uid = me.uid ∧ nonOwnerWrite n.mode = 0

/-- A file of the process that nobody else can write to. -/
structure OwnFile (me : Process) (n : Disk.Node) : Prop where
  type : n.type = .file
  uid : n.uid = me.uid
  mode : nonOwnerWrite n.mode = 0

theorem OwnDirectory.isDirectory (h : OwnDirectory me t p) : t.isDirectory p = true := by
  obtain ⟨n, hn, htype, -⟩ := h
  simp [Tree.isDirectory, hn, htype]

/-- The umask only takes permissions away. -/
theorem nonOwnerWrite_ldiff (h : nonOwnerWrite mode = 0) (umask : Nat) :
    nonOwnerWrite (Nat.ldiff mode umask) = 0 := by
  refine Nat.eq_of_testBit_eq fun i => ?_
  have hbit := congrArg (Nat.testBit · i) h
  simp only [nonOwnerWrite, Nat.testBit_land, Nat.zero_testBit] at hbit ⊢
  rw [Nat.testBit_ldiff]
  revert hbit
  cases mode.testBit i <;> cases umask.testBit i <;> simp

namespace NamespaceRuntimeSecretTarget

variable {T : NamespaceRuntimeSecretTarget} {H : Handler Disk.Call Disk.Answer I Tree}
  {faulty : Prop} {K : Tree → Prop} {t : Tree} {id id' : InstallationId}

/-! ## The parts -/

theorem validateDirectory_spec (hH : Serves T.me faulty H) (hx : faulty ∨ OwnDirectory T.me t p)
    (hK : K t) (hQ : OwnDirectory T.me t p → Q () t) :
    Completes H faulty K (T.validateDirectory p) Q t := by
  refine call_spec hH hK ?_ fun hf n => ?_
  · cases hn : t.get p with
    | none =>
      have hresp : t.respond T.me (.metadata p) = (.error .notFound, t) := by
        simp [respond, apply, hn]
      rw [hresp]
      refine Completes.throw (hx.resolve_right ?_) hK
      rintro ⟨n, hn', -⟩
      cases hn.symm.trans hn'
    | some n =>
      have hresp : t.respond T.me (.metadata p) = (.ok n.toMetadata, t) := by
        simp [respond, apply, hn]
      rw [hresp]
      have hbad : ¬(n.type = .directory ∧ n.uid = T.me.uid ∧ nonOwnerWrite n.mode = 0) →
          faulty := by
        refine fun hnot => hx.resolve_right ?_
        rintro ⟨n', hn', hown⟩
        cases hn.symm.trans hn'
        exact hnot hown
      change Completes H faulty K (ite _ _ _) Q t
      split
      · next h => exact Completes.throw (hbad fun hc => h hc.1) hK
      split
      · next h => exact Completes.throw (hbad fun hc => h hc.2.1) hK
      split
      · next h => exact Completes.throw (hbad fun hc => h hc.2.2) hK
      next h1 h2 h3 =>
      exact hQ ⟨n, hn, not_not.mp h1, not_not.mp h2, not_not.mp h3⟩
  · rw [disturb_of_looks (c := .metadata p) trivial]
    exact Completes.throw hf hK

theorem validateDirectory_bind (hH : Serves T.me faulty H) (hx : faulty ∨ OwnDirectory T.me t p)
    (hK : K t) (hf : OwnDirectory T.me t p → Completes H faulty K (f ()) Q t) :
    Completes H faulty K (T.validateDirectory p >>= f) Q t := by
  exact Completes.seq (validateDirectory_spec hH hx hK hf)

/-- What opening a path tells, if a file there is the process's own. -/
inductive Opened (faulty : Prop) (t : Tree) (p : Path) :
    Except NamespaceRuntimeSecretTargetError Unit → Prop where
  | missing (h : t.get p = none) : Opened faulty t p (.error (.openFailed .notFound))
  | own (h : t.get p = some n) : Opened faulty t p (.ok ())
  | disturbed (h : faulty) : Opened faulty t p (.error (.openFailed .other))

theorem openChecked_spec (hH : Serves T.me faulty H) (hown : ∀ n ∈ t.get p, OwnFile T.me n)
    (hK : K t) :
    Completes H faulty K ((T.openChecked p).attempt : SecretProgram _)
      (fun r t' => Opened faulty t p r ∧ t' = t) t := by
  refine call_spec hH hK ?_ fun hf n => ?_
  · cases hn : t.get p with
    | none =>
      have hresp : t.respond T.me (.openFile p) = (.error .notFound, t) := by
        simp [respond, apply, hn]
      rw [hresp]
      exact ⟨.missing hn, rfl⟩
    | some n =>
      have h := hown n hn
      have hresp : t.respond T.me (.openFile p) = (.ok n.toMetadata, t) := by
        simp [respond, apply, hn, h.type]
      rw [hresp]
      change Completes H faulty K ((ite _ _ _ : SecretProgram Unit).attempt : SecretProgram _) _ t
      rw [if_neg (not_not.mpr h.type), if_neg (not_not.mpr h.uid), if_neg (not_not.mpr h.mode)]
      exact ⟨.own hn, rfl⟩
  · rw [disturb_of_looks (c := .openFile p) trivial]
    exact ⟨.disturbed hf, rfl⟩

theorem readOptional_spec (hH : Serves T.me faulty H) (hown : ∀ n ∈ t.get p, OwnFile T.me n)
    (hlen : ∀ n ∈ t.get p, n.content.length ≤ maximum) (hK : K t)
    (hQ : Q ((t.get p).map Node.content) t) :
    Completes H faulty K (T.readOptional p maximum) Q t := by
  refine Completes.bind (openChecked_spec hH hown hK) ?_
  rintro r t' ⟨hr, ht⟩
  subst t'
  cases hr with
  | missing hn =>
    rw [hn] at hQ
    exact hQ
  | @own n hn =>
    have hle := hlen n hn
    have htake : n.content.take (maximum + 1) = n.content := List.take_of_length_le (by omega)
    refine Completes.bind_eq (look_spec hH trivial (r := n.content) ?_ hK ⟨rfl, rfl⟩) ?_
    · simp [apply, hn, (hown n hn).type, htake]
    · rw [hn] at hQ
      change Completes H faulty K (ite _ _ _) Q t
      rw [if_neg (Nat.not_lt.mpr hle)]
      exact hQ
  | disturbed hf => exact Completes.throw hf hK

theorem removeOptional_spec (hH : Serves T.me faulty H) (hown : ∀ n ∈ t.get p, OwnFile T.me n)
    (hK : K t) (hK' : K (t.erase p)) (hnone : t.get p = none → Q false t)
    (hsome : (t.get p).isSome → Q true (t.erase p)) :
    Completes H faulty K (T.removeOptional p) Q t := by
  refine Completes.bind (openChecked_spec hH hown hK) ?_
  rintro r t' ⟨hr, ht⟩
  subst t'
  cases hr with
  | missing hn => exact Completes.ret (hnone hn)
  | own hn =>
    have happly : t.apply T.me (.removeFile p) = .ok ((), t.erase p) := by
      simp [apply, hn, (hown _ hn).type]
    exact Completes.bind_eq (effect_spec hH trivial happly hK hK' ⟨rfl, rfl⟩)
      (hsome (by rw [hn]; rfl))
  | disturbed hf => exact Completes.throw hf hK

/-! ## Writing a file -/

/-- Only what stands at `p` has changed. -/
def ChangedAt (p : Path) (t t' : Tree) : Prop := ∀ q, q ≠ p → t'.get q = t.get q

theorem ChangedAt.refl : ChangedAt p t t := fun _ _ => rfl

theorem ChangedAt.erase (h : ChangedAt p t t') : ChangedAt p t (t'.erase p) := by
  intro q hq
  rw [get_erase, if_neg hq, h q hq]

theorem ChangedAt.set (h : ChangedAt p t t') (n : Disk.Node) : ChangedAt p t (t'.set p n) := by
  intro q hq
  rw [get_set, if_neg hq, h q hq]

theorem ChangedAt.isDirectory (h : ChangedAt (d ++ [name]) t t') :
    t'.isDirectory d = t.isDirectory d := by
  have hne : d ≠ d ++ [name] := fun heq => by simpa using congrArg List.length heq
  rw [Tree.isDirectory, Tree.isDirectory, h d hne]

/-- A file is built under the temporary name `p`. -/
structure Building (me : Process) (p : Path) (t t' : Tree) : Prop where
  changed : ChangedAt p t t'
  own : ∀ n ∈ t'.get p, OwnFile me n

/-- The file is there, with these bytes and this mode. -/
def BuiltFile (me : Process) (p : Path) (bytes : List UInt8) (mode : Nat) (t t' : Tree) : Prop :=
  ChangedAt p t t' ∧ t'.get p = some ⟨⟨.file, me.uid, mode⟩, bytes⟩

theorem BuiltFile.building {me : Process} (h : BuiltFile me p bytes mode t t')
    (hmode : nonOwnerWrite mode = 0) : Building me p t t' := by
  refine ⟨h.1, fun n hn => ?_⟩
  rw [h.2] at hn
  cases hn
  exact ⟨rfl, rfl, hmode⟩

theorem writeAtomic_spec (hH : Serves T.me faulty H) (hdir : t.isDirectory d = true)
    (hfinal : t.get (d ++ [name]) = none) (hname : tempName name ≠ name)
    (hown : ∀ n ∈ t.get (d ++ [tempName name]), OwnFile T.me n) (hmode : nonOwnerWrite mode = 0)
    (hK : ∀ t', Building T.me (d ++ [tempName name]) t t' → K t')
    (hdone : ∀ t', (∀ q, q ≠ d ++ [tempName name] → q ≠ d ++ [name] → t'.get q = t.get q) →
      t'.get (d ++ [tempName name]) = none →
      t'.get (d ++ [name]) = some ⟨⟨.file, T.me.uid, mode⟩, value⟩ → K t' ∧ Q () t') :
    Completes H faulty K (T.writeAtomic d name value mode) Q t := by
  unfold writeAtomic
  dsimp only
  have hparent : (d ++ [tempName name]).dropLast = d := List.dropLast_concat
  have hpn : d ++ [name] ≠ d ++ [tempName name] := fun h => hname (by simpa using h.symm)
  have hisdir : ∀ {t'}, ChangedAt (d ++ [tempName name]) t t' → t'.isDirectory d = true :=
    fun h => h.isDirectory.trans hdir
  generalize d ++ [tempName name] = p at *
  -- the old temporary file goes
  refine Completes.bind (removeOptional_spec (Q := fun _ t1 => ChangedAt p t t1 ∧ t1.get p = none)
    hH hown (hK t ⟨.refl, hown⟩) (hK _ ⟨ChangedAt.refl.erase, by simp⟩) (fun h => ⟨.refl, h⟩)
    fun _ => ⟨ChangedAt.refl.erase, by simp⟩) ?_
  rintro _ t1 ⟨hchanged1, hnone⟩
  -- an empty one is created
  have h600 : nonOwnerWrite (Nat.ldiff 0o600 T.me.umask) = 0 := nonOwnerWrite_ldiff (by decide) _
  have hcreate : t1.apply T.me (.createNew p 0o600) =
      .ok ((), t1.set p ⟨⟨.file, T.me.uid, Nat.ldiff 0o600 T.me.umask⟩, []⟩) := by
    simp [apply, hnone, hparent, hisdir hchanged1]
  generalize Nat.ldiff 0o600 T.me.umask = m at *
  have hcreated : BuiltFile T.me p [] m t (t1.set p ⟨⟨.file, T.me.uid, m⟩, []⟩) :=
    ⟨hchanged1.set _, by simp⟩
  refine Completes.seq (effect_spec hH trivial hcreate (hK t1 ⟨hchanged1, by simp [hnone]⟩)
    (hK _ (hcreated.building h600)) ?_)
  generalize t1.set p _ = t2 at hcreated
  have h2 := hcreated
  obtain ⟨hchanged2, hget2⟩ := id h2
  have hwrite : ∀ bytes, t2.apply T.me (.writeAll p bytes) =
      .ok ((), t2.set p ⟨⟨.file, T.me.uid, m⟩, bytes⟩) := by
    simp [apply, hget2]
  have hwritten : ∀ bytes, BuiltFile T.me p bytes m t
      (t2.set p ⟨⟨.file, T.me.uid, m⟩, bytes⟩) := fun bytes => ⟨hchanged2.set _, by simp⟩
  refine Completes.bind (writeAll_spec (Q := fun _ t3 => BuiltFile T.me p value m t t3) hH hwrite
    (hK t2 (h2.building h600)) (fun bytes => hK _ ((hwritten bytes).building h600))
    (hwritten value)) ?_
  rintro _ t3 h3
  obtain ⟨hchanged3, hget3⟩ := id h3
  refine Completes.bind_eq (look_spec hH trivial rfl (hK t3 (h3.building h600)) ⟨rfl, rfl⟩) ?_
  have hchmod : t3.apply T.me (.setPermissions p mode) =
      .ok ((), t3.set p ⟨⟨.file, T.me.uid, mode⟩, value⟩) := by
    simp [apply, hget3]
  have hset : BuiltFile T.me p value mode t (t3.set p ⟨⟨.file, T.me.uid, mode⟩, value⟩) :=
    ⟨hchanged3.set _, by simp⟩
  refine Completes.bind (effect_spec (Q := fun _ t4 => BuiltFile T.me p value mode t t4) hH trivial
    hchmod (hK t3 (h3.building h600)) (hK _ (hset.building hmode)) hset) ?_
  rintro _ t4 h4
  obtain ⟨hchanged4, hget4⟩ := id h4
  -- the rename makes it the final file
  have hfinal4 : t4.get (d ++ [name]) = none := by rw [hchanged4 _ hpn, hfinal]
  have hnd : t4.isDirectory (d ++ [name]) = false := by simp [isDirectory, hfinal4]
  have hrename : t4.apply T.me (.rename p (d ++ [name])) =
      .ok ((), (t4.erase p).set (d ++ [name]) ⟨⟨.file, T.me.uid, mode⟩, value⟩) := by
    simp [apply, hget4, hnd, hisdir hchanged4]
  obtain ⟨hKend, hQend⟩ := hdone ((t4.erase p).set (d ++ [name]) ⟨⟨.file, T.me.uid, mode⟩, value⟩)
    (fun q hq hq' => by rw [get_set, if_neg hq', get_erase, if_neg hq, hchanged4 q hq])
    (by rw [get_set, if_neg (Ne.symm hpn), get_erase, if_pos rfl])
    (by rw [get_set, if_pos rfl])
  exact effect_spec hH trivial hrename (hK t4 (h4.building hmode)) hKend hQend

/-! ## The places of the files -/

/-- A final or a temporary file. -/
def slot (T : NamespaceRuntimeSecretTarget) (id : InstallationId) : SecretFile × Bool → Path
  | (file, false) => T.path id file
  | (file, true) => T.temporary id file

theorem slot_injective (T : NamespaceRuntimeSecretTarget) (s s' : SecretFile × Bool)
    (h : T.slot id s = T.slot id' s') : id = id' ∧ s = s' := by
  obtain ⟨file, tmp⟩ := s
  obtain ⟨file', tmp'⟩ := s'
  have hid : id.text = id'.text ∧ (file, tmp) = (file', tmp') := by
    cases file <;> cases tmp <;> cases file' <;> cases tmp' <;>
      simp [slot, path, temporary, directory, secretRoot, installationRoot, SecretFile.name,
        tempName] at h ⊢ <;> exact h
  exact ⟨InstallationId.text_injective hid.1, hid.2⟩

theorem mem_secretPaths : q ∈ T.secretPaths id ↔ ∃ s, q = T.slot id s := by
  constructor
  · intro h
    simp only [secretPaths, List.mem_cons, List.not_mem_nil, or_false] at h
    rcases h with rfl | rfl | rfl | rfl | rfl | rfl
    · exact ⟨(.clientSecret, false), rfl⟩
    · exact ⟨(.clientId, false), rfl⟩
    · exact ⟨(.replay, false), rfl⟩
    · exact ⟨(.clientSecret, true), rfl⟩
    · exact ⟨(.clientId, true), rfl⟩
    · exact ⟨(.replay, true), rfl⟩
  · rintro ⟨⟨file, tmp⟩, rfl⟩
    cases file <;> cases tmp <;> simp [secretPaths, slot]

/-- The directories of the namespace are in order. -/
structure Housed (T : NamespaceRuntimeSecretTarget) (id : InstallationId) (t : Tree) : Prop where
  root : OwnDirectory T.me t T.runtimeRoot
  installation : OwnDirectory T.me t (T.installationRoot id)
  secrets : OwnDirectory T.me t (T.secretRoot id)

theorem Housed.directory (h : Housed T id t) (file : SecretFile) :
    t.isDirectory (T.directory id file) = true := by
  cases file with
  | clientSecret | clientId => exact h.secrets.isDirectory
  | replay => exact h.installation.isDirectory

/-- Files that are there are the process's own, and final ones are not too long. -/
structure Orderly (T : NamespaceRuntimeSecretTarget) (id : InstallationId) (t : Tree) : Prop where
  own : ∀ s, ∀ n ∈ t.get (T.slot id s), OwnFile T.me n
  short : ∀ file, ∀ n ∈ t.get (T.path id file), n.content.length ≤ file.maximum

/-- The file as a delivery writes it. -/
def node (T : NamespaceRuntimeSecretTarget) (r : RuntimeOidcClientSecret) (file : SecretFile) :
    Disk.Node :=
  ⟨⟨.file, T.me.uid, file.mode⟩, T.material r file⟩

/-! ## Deliveries -/

/-- How far a delivery that started from `t` has come: a final file is as it was, or it was missing
and is written. -/
structure Delivering (T : NamespaceRuntimeSecretTarget) (r : RuntimeOidcClientSecret)
    (t t' : Tree) : Prop where
  frame : ∀ q, (∀ s, q ≠ T.slot r.installationId s) → t'.get q = t.get q
  final : ∀ file, t'.get (T.path r.installationId file) = t.get (T.path r.installationId file) ∨
    t.get (T.path r.installationId file) = none ∧
      t'.get (T.path r.installationId file) = some (T.node r file)
  temporary : ∀ file, ∀ n ∈ t'.get (T.temporary r.installationId file), OwnFile T.me n

/-- The files of the list are written, the others as they were. -/
structure Written (T : NamespaceRuntimeSecretTarget) (r : RuntimeOidcClientSecret)
    (files : List SecretFile) (t t' : Tree) : Prop extends Delivering T r t t' where
  written : ∀ file ∈ files, t'.get (T.path r.installationId file) =
    some ((t.get (T.path r.installationId file)).getD (T.node r file))
  waiting : ∀ file, file ∉ files →
    t'.get (T.path r.installationId file) = t.get (T.path r.installationId file)

variable {r : RuntimeOidcClientSecret}

theorem Written.refl (h : Orderly T r.installationId t) : Written T r [] t t where
  frame _ _ := rfl
  final _ := .inl rfl
  temporary file := h.own (file, true)
  written _ h := nomatch h
  waiting _ _ := rfl

theorem runtimeRoot_ne_slot (s : SecretFile × Bool) : T.runtimeRoot ≠ T.slot id s := by
  obtain ⟨file, tmp⟩ := s
  cases file <;> cases tmp <;>
    simp [slot, path, temporary, directory, secretRoot, installationRoot]

theorem installationRoot_ne_slot (s : SecretFile × Bool) :
    T.installationRoot id ≠ T.slot id' s := by
  obtain ⟨file, tmp⟩ := s
  cases file <;> cases tmp <;>
    simp [slot, path, temporary, directory, secretRoot, installationRoot]

theorem secretRoot_ne_slot (s : SecretFile × Bool) : T.secretRoot id ≠ T.slot id' s := by
  obtain ⟨file, tmp⟩ := s
  cases file <;> cases tmp <;>
    simp [slot, path, temporary, directory, secretRoot, installationRoot, secretDirectory,
      SecretFile.name, tempName]

/-- A namespace stays in order when only files of secrets change. -/
theorem Housed.mono (h : Housed T id t)
    (hframe : ∀ q, (∀ i s, q ≠ T.slot i s) → t'.get q = t.get q) : Housed T id t' := by
  have hown : ∀ q, (∀ i s, q ≠ T.slot i s) → OwnDirectory T.me t q → OwnDirectory T.me t' q := by
    rintro q hq ⟨n, hn, hown⟩
    exact ⟨n, (hframe q hq).trans hn, hown⟩
  exact ⟨hown _ (fun _ => runtimeRoot_ne_slot) h.root,
    hown _ (fun _ => installationRoot_ne_slot) h.installation,
    hown _ (fun _ => secretRoot_ne_slot) h.secrets⟩

theorem path_ne_temporary (g file : SecretFile) : T.path id g ≠ T.temporary id file := fun h =>
  nomatch (T.slot_injective (g, false) (file, true) h).2

theorem path_ne (hg : g ≠ file) : T.path id g ≠ T.path id file := fun h =>
  hg (congrArg Prod.fst (T.slot_injective (g, false) (file, false) h).2)

theorem temporary_ne (hg : g ≠ file) : T.temporary id g ≠ T.temporary id file := fun h =>
  hg (congrArg Prod.fst (T.slot_injective (g, true) (file, true) h).2)

theorem Delivering.building (h : Delivering T r t t')
    (hb : Building T.me (T.temporary r.installationId file) t' t1) : Delivering T r t t1 where
  frame q hq := (hb.changed q (hq (file, true))).trans (h.frame q hq)
  final g := by
    rw [hb.changed _ (path_ne_temporary g file)]
    exact h.final g
  temporary g := by
    by_cases hg : g = file
    · subst hg
      exact hb.own
    · rw [hb.changed _ (temporary_ne hg)]
      exact h.temporary g

theorem Written.add (h : Written T r files t t') (hfile : file ∉ files)
    (hold : t.get (T.path r.installationId file) = none)
    (hframe : ∀ q, q ≠ T.temporary r.installationId file → q ≠ T.path r.installationId file →
      t1.get q = t'.get q)
    (hgone : t1.get (T.temporary r.installationId file) = none)
    (hnew : t1.get (T.path r.installationId file) = some (T.node r file)) :
    Written T r (file :: files) t t1 := by
  have hother : ∀ g, g ≠ file →
      t1.get (T.path r.installationId g) = t'.get (T.path r.installationId g) :=
    fun g hg => hframe _ (path_ne_temporary g file) (path_ne hg)
  refine ⟨⟨fun q hq => ?_, fun g => ?_, fun g => ?_⟩, fun g hg => ?_, fun g hg => ?_⟩
  · exact (hframe q (hq (file, true)) (hq (file, false))).trans (h.frame q hq)
  · by_cases hg : g = file
    · subst hg
      exact .inr ⟨hold, hnew⟩
    · rw [hother g hg]
      exact h.final g
  · by_cases hg : g = file
    · subst hg
      intro n hn
      cases hgone.symm.trans hn
    · rw [hframe _ (temporary_ne hg) (Ne.symm (path_ne_temporary file g))]
      exact h.temporary g
  · obtain rfl | hg := List.mem_cons.mp hg
    · rw [hold]
      exact hnew
    · rw [hother g fun he => hfile (he ▸ hg)]
      exact h.written g hg
  · rw [hother g fun he => hg (he ▸ List.mem_cons_self)]
    exact h.waiting g fun hg' => hg (List.mem_cons_of_mem _ hg')

theorem writeMissing_spec (file : SecretFile) (hH : Serves T.me faulty H)
    (hhoused : Housed T r.installationId t)
    (hfile : file ∉ files) (h : Written T r files t t') :
    Completes H faulty (Delivering T r t)
      (T.writeMissing r file ((t.get (T.path r.installationId file)).map Node.content))
      (fun _ => Written T r (file :: files) t) t' := by
  have hsame := h.waiting file hfile
  cases hold : t.get (T.path r.installationId file) with
  | some n =>
    refine Completes.ret ⟨h.toDelivering, fun g hg => ?_, fun g hg => h.waiting g ?_⟩
    · obtain rfl | hg := List.mem_cons.mp hg
      · rw [hsame, hold]
        rfl
      · exact h.written g hg
    · exact fun hg' => hg (List.mem_cons_of_mem _ hg')
  | none =>
    have hdir : t'.isDirectory (T.directory r.installationId file) = true :=
      (hhoused.mono fun q hq => h.frame q (hq _)).directory file
    have hname : tempName file.name ≠ file.name := by cases file <;> decide
    have hmode : nonOwnerWrite file.mode = 0 := by cases file <;> decide
    refine writeAtomic_spec hH hdir (hsame.trans hold) hname (h.temporary file) hmode
      (fun t1 ht1 => h.building ht1) fun t1 hframe hgone hnew => ?_
    have hwritten := h.add hfile hold hframe hgone hnew
    exact ⟨hwritten.toDelivering, hwritten⟩

/-- Every file that is there passes for the material of the request. -/
def Agrees (T : NamespaceRuntimeSecretTarget) (r : RuntimeOidcClientSecret) (t : Tree) : Prop :=
  ∀ file, ∀ n ∈ t.get (T.path r.installationId file), T.accepts r file n.content = true

private theorem any_refused (o : Option Disk.Node) (p : List UInt8 → Bool) :
    (o.map Node.content).any (fun bytes => !p bytes) = true ↔ ∃ n ∈ o, p n.content = false := by
  cases o <;> simp

/-- What a delivery leaves behind, however it ends. -/
def Left (T : NamespaceRuntimeSecretTarget) (r : RuntimeOidcClientSecret) (t t' : Tree) : Prop :=
  t' = t ∨ Housed T r.installationId t ∧ Agrees T r t ∧ Delivering T r t t'

/-- What the answers of a delivery mean. -/
inductive Answered (T : NamespaceRuntimeSecretTarget) (r : RuntimeOidcClientSecret) (t : Tree) :
    RuntimeSecretTargetOutcome → Tree → Prop where
  | conflict (hagree : ¬Agrees T r t) : Answered T r t .conflict t
  | written (hhoused : Housed T r.installationId t) (hagree : Agrees T r t)
    (ho : o = .applied ∨ o = .alreadyApplied)
    (hw : Written T r [.replay, .clientId, .clientSecret] t t') : Answered T r t o t'

theorem Answered.left (h : Answered T r t o t') : Left T r t t' := by
  cases h with
  | conflict => exact .inl rfl
  | written hhoused hagree _ hw => exact .inr ⟨hhoused, hagree, hw.toDelivering⟩

theorem deliverOidcClientSecret_spec (hH : Serves T.me faulty H)
    (hx : faulty ∨ Housed T r.installationId t) (ho : Orderly T r.installationId t) :
    Completes H faulty (Left T r t) (T.deliverOidcClientSecret r) (Answered T r t) t := by
  refine validateDirectory_bind hH (hx.imp_right Housed.root) (.inl rfl) fun hroot => ?_
  refine validateDirectory_bind hH (hx.imp_right Housed.installation) (.inl rfl)
    fun hinstallation => ?_
  refine validateDirectory_bind hH (hx.imp_right Housed.secrets) (.inl rfl) fun hsecrets => ?_
  have hhoused : Housed T r.installationId t := ⟨hroot, hinstallation, hsecrets⟩
  have hread : ∀ file, Completes H faulty (Left T r t) (T.readExisting r.installationId file)
      (fun bytes t' =>
        bytes = (t.get (T.path r.installationId file)).map Node.content ∧ t' = t) t := fun file =>
    readOptional_spec hH (ho.own (file, false)) (ho.short file) (.inl rfl) ⟨rfl, rfl⟩
  refine Completes.bind_eq (hread .clientSecret) (Completes.bind_eq (hread .clientId)
    (Completes.bind_eq (hread .replay) ?_))
  by_cases hagree : Agrees T r t
  · have hnone : ∀ file, ((t.get (T.path r.installationId file)).map Node.content).any
        (fun bytes => !T.accepts r file bytes) = false := by
      intro file
      rw [← Bool.not_eq_true, any_refused]
      rintro ⟨n, hn, hrefused⟩
      rw [hagree file n hn] at hrefused
      cases hrefused
    rw [hnone, hnone, hnone, if_neg Bool.false_ne_true, Bool.or_false, if_neg Bool.false_ne_true]
    have hleft : ∀ t', Delivering T r t t' → Left T r t t' := fun t' h => .inr ⟨hhoused, hagree, h⟩
    refine Completes.bind ((writeMissing_spec .clientSecret hH hhoused (by simp)
      (Written.refl ho)).mono hleft fun _ _ h => h) fun _ t1 h1 => ?_
    refine Completes.bind ((writeMissing_spec .clientId hH hhoused (by simp) h1).mono
      hleft fun _ _ h => h) fun _ t2 h2 => ?_
    refine Completes.bind ((writeMissing_spec .replay hH hhoused (by simp) h2).mono
      hleft fun _ _ h => h) fun _ t3 h3 => ?_
    refine Completes.ret (.written hhoused hagree ?_ h3)
    split
    · exact .inr rfl
    · exact .inl rfl
  · have hsome : ∃ file, ((t.get (T.path r.installationId file)).map Node.content).any
        (fun bytes => !T.accepts r file bytes) = true := by
      unfold Agrees at hagree
      push Not at hagree
      obtain ⟨file, n, hn, hrefused⟩ := hagree
      exact ⟨file, (any_refused _ _).mpr ⟨n, hn, by simpa using hrefused⟩⟩
    split
    · exact Completes.ret (.conflict hagree)
    next hfirst =>
    rw [if_pos]
    · exact Completes.ret (.conflict hagree)
    obtain ⟨file, hfile⟩ := hsome
    cases file with
    | clientSecret => exact absurd hfile hfirst
    | clientId => rw [hfile, Bool.true_or]
    | replay => rw [hfile, Bool.or_true]

/-! ## Removals -/

/-- How far a removal has come: only these paths are touched, and each is as it was or empty. -/
structure Removing (paths : List Path) (t t' : Tree) : Prop where
  frame : ∀ q, q ∉ paths → t'.get q = t.get q
  rest : ∀ q, t'.get q = t.get q ∨ t'.get q = none

theorem Removing.refl : Removing paths t t := ⟨fun _ _ => rfl, fun _ => .inl rfl⟩

theorem Removing.erase (h : Removing paths t t') (hp : p ∈ paths) :
    Removing paths t (t'.erase p) where
  frame q hq := by
    rw [get_erase, if_neg fun he : q = p => hq (he ▸ hp)]
    exact h.frame q hq
  rest q := by
    rw [get_erase]
    split
    · exact .inr rfl
    · exact h.rest q

theorem removePaths_spec (hH : Serves T.me faulty H) (hps : ∀ p ∈ ps, p ∈ paths)
    (hown : ∀ p ∈ paths, ∀ n ∈ t.get p, OwnFile T.me n) (h : Removing paths t t') :
    Completes H faulty (Removing paths t) (T.removePaths ps)
      (fun _ t1 => Removing paths t t1 ∧ ∀ p, p ∈ ps ∨ t'.get p = none → t1.get p = none) t' := by
  induction ps generalizing t' with
  | nil => exact Completes.ret ⟨h, fun p hp => hp.resolve_left fun hp => nomatch hp⟩
  | cons p ps ih =>
    have hp : p ∈ paths := hps p List.mem_cons_self
    have hown' : ∀ n ∈ t'.get p, OwnFile T.me n := by
      intro n hn
      obtain hsame | hnone := h.rest p
      · exact hown p hp n (hsame ▸ hn)
      · rw [hnone] at hn
        cases hn
    refine Completes.bind (removeOptional_spec (Q := fun _ t1 => Removing paths t t1 ∧
      ∀ q, q = p ∨ t'.get q = none → t1.get q = none) hH hown' h (h.erase hp) (fun hnone =>
      ⟨h, fun q hq => ?_⟩) fun _ => ⟨h.erase hp, fun q hq => ?_⟩) ?_
    · obtain rfl | hq := hq
      · exact hnone
      · exact hq
    · rw [get_erase]
      split
      · rfl
      · exact hq.resolve_left ‹_›
    rintro _ t1 ⟨h1, hgone⟩
    refine Completes.bind (ih (fun q hq => hps q (List.mem_cons_of_mem _ hq)) h1) ?_
    rintro _ t2 ⟨h2, hgone2⟩
    refine Completes.ret ⟨h2, fun q hq => hgone2 q ?_⟩
    rw [List.mem_cons, or_assoc, or_left_comm] at hq
    exact hq.imp_right (hgone q)

/-- A namespace that can be cleared: it is in order, or there is none. -/
def Clearable (T : NamespaceRuntimeSecretTarget) (id : InstallationId) (t : Tree) : Prop :=
  OwnDirectory T.me t T.runtimeRoot ∧ (t.get (T.installationRoot id) = none ∨
      OwnDirectory T.me t (T.installationRoot id) ∧ OwnDirectory T.me t (T.secretRoot id))

theorem removeForInstallation_spec (hH : Serves T.me faulty H) (hx : faulty ∨ Clearable T id t)
    (hown : ∀ s, ∀ n ∈ t.get (T.slot id s), OwnFile T.me n)
    (hempty : t.get (T.installationRoot id) = none → ∀ s, t.get (T.slot id s) = none) :
    Completes H faulty (Removing (T.secretPaths id) t) (T.removeForInstallation id)
      (fun _ t' => Removing (T.secretPaths id) t t' ∧ ∀ s, t'.get (T.slot id s) = none) t := by
  refine validateDirectory_bind hH (hx.imp_right And.left) .refl fun _ => ?_
  have hmaterial : (t.get (T.installationRoot id) ≠ none) →
      Completes H faulty (Removing (T.secretPaths id) t) (T.removeMaterial id)
        (fun _ t' => Removing (T.secretPaths id) t t' ∧ ∀ s, t'.get (T.slot id s) = none) t := by
    intro hthere
    have hdirs := hx.imp_right fun h => h.2.resolve_left hthere
    refine validateDirectory_bind hH (hdirs.imp_right And.left) .refl fun _ => ?_
    refine validateDirectory_bind hH (hdirs.imp_right And.right) .refl fun _ => ?_
    refine Completes.bind (removePaths_spec hH (fun _ h => h) ?_ .refl) ?_
    · intro p hp
      obtain ⟨s, rfl⟩ := mem_secretPaths.mp hp
      exact hown s
    rintro _ t' ⟨h, hgone⟩
    exact Completes.ret ⟨h, fun s => hgone _ (.inl (mem_secretPaths.mpr ⟨s, rfl⟩))⟩
  refine call_spec hH .refl ?_ fun hf n => ?_
  · cases hn : t.get (T.installationRoot id) with
    | none =>
      have hresp : t.respond T.me (.metadata (T.installationRoot id)) = (.error .notFound, t) := by
        simp [respond, apply, hn]
      rw [hresp]
      exact Completes.ret ⟨.refl, hempty hn⟩
    | some n =>
      have hresp : t.respond T.me (.metadata (T.installationRoot id)) = (.ok n.toMetadata, t) := by
        simp [respond, apply, hn]
      rw [hresp]
      exact hmaterial (by simp [hn])
  · rw [disturb_of_looks (c := .metadata (T.installationRoot id)) trivial]
    exact Completes.throw hf .refl

end NamespaceRuntimeSecretTarget

end Rumahl
