import Rumahl.Runtime.SecretFiles

/-!
# Secret files are crash-consistent

The trees that deliveries and removals can lead to, each of them stopped or disturbed at any point
(`Reached`). `secret_files` says what the answers mean there, that a delivery which was cut short
can be completed, and that a removal leaves nothing behind.
-/

namespace Rumahl

open Effect Disk List

theorem OidcClientSecret.byteLength_encode (secret : OidcClientSecret) :
    byteLength secret.encode.toList ≤ 64 := by
  rw [encode, String.toList_ofList, byteLength]
  have h := Base64.utf8Size_encode_le secret.bytes.1
  rwa [secret.bytes.2] at h

theorem OidcClientId.byteLength_text (h : OidcClientId.parse clientId.text = .ok clientId) :
    byteLength clientId.text.toList ≤ 52 := by
  rw [parse] at h
  split at h
  · next encoded heq =>
    split at h
    · cases h
    next decoded hdecoded =>
    split at h
    · cases h
    next hlen =>
    split at h
    · cases h
    next hcanonical =>
    have hsize := Base64.utf8Size_encode_le decoded
    rw [not_not.mp hlen, not_not.mp hcanonical] at hsize
    have hfour : ('r'.utf8Size, 'm'.utf8Size, 'h'.utf8Size, '_'.utf8Size) = (1, 1, 1, 1) := rfl
    simp only [Prod.mk.injEq] at hfour
    rw [heq, byteLength]
    simp only [map_cons, sum_cons, hfour]
    omega
  · cases h

namespace NamespaceRuntimeSecretTarget

variable {T : NamespaceRuntimeSecretTarget} {t t0 : Tree} {id : InstallationId}
  {r : RuntimeOidcClientSecret}

theorem byteLength_expectedMetadata (T : NamespaceRuntimeSecretTarget)
    (r : RuntimeOidcClientSecret) : byteLength (T.expectedMetadata r).toList ≤ 2048 := by
  have hop : byteLength r.operationId.text.toList = 36 :=
    InstallationId.byteLength_text r.operationId_lt
  have happ : byteLength r.appId.value.toList ≤ 255 := checkDotted_length r.appId.valid
  have hpublisher : byteLength r.publisherId.value.toList ≤ 255 :=
    checkDotted_length r.publisherId.valid
  have hclient := OidcClientId.byteLength_text r.clientId_parsed
  have hhex : byteLength (Hex.encode (T.digest r.clientSecret).1) = 64 := by
    rw [byteLength_eq_length (Hex.utf8Size_encode _), Hex.length_encode,
      (T.digest r.clientSecret).2]
  have hconst : byteLength "RSM1\n".toList = 5 ∧ byteLength "\n".toList = 1 := by decide
  simp only [expectedMetadata, String.toList_append, byteLength_append, String.toList_ofList, hop,
    hhex, hconst]
  omega

theorem length_material (T : NamespaceRuntimeSecretTarget) (r : RuntimeOidcClientSecret)
    (file : SecretFile) : (T.material r file).length ≤ file.maximum := by
  cases file with
  | clientSecret =>
    rw [material, length_textBytes]
    exact r.clientSecret.byteLength_encode.trans (by decide)
  | clientId =>
    rw [material, length_textBytes]
    exact (OidcClientId.byteLength_text r.clientId_parsed).trans (by decide)
  | replay =>
    rw [material, length_textBytes]
    exact T.byteLength_expectedMetadata r

theorem accepts_material (T : NamespaceRuntimeSecretTarget) (r : RuntimeOidcClientSecret)
    (file : SecretFile) : T.accepts r file (T.material r file) = true := by
  cases file with
  | clientSecret =>
    simp [accepts, verifies, material, fromUTF8_textBytes, OidcClientSecret.parse_encode]
  | clientId | replay => simp [accepts]

/-- Where no two secrets share a digest, only the same material passes. -/
theorem accepts_iff (hdigest : T.digest r'.clientSecret = T.digest r.clientSecret →
      r'.clientSecret = r.clientSecret) (file : SecretFile) :
    T.accepts r file (T.material r' file) = true ↔ T.material r' file = T.material r file := by
  refine ⟨fun h => ?_, fun h => by rw [h, accepts_material]⟩
  cases file with
  | clientSecret =>
    simp only [accepts, verifies, material, fromUTF8_textBytes, OidcClientSecret.parse_encode,
      decide_eq_true_eq] at h
    rw [material, material, hdigest h]
  | clientId | replay => simpa [accepts] using h

theorem path_ne_slot (h : id ≠ id') (s : SecretFile × Bool) :
    T.path id file ≠ T.slot id' s := fun he =>
  h (T.slot_injective (file, false) s he).1

/-! ## Histories -/

inductive SecretEvent where
  | deliver (request : RuntimeOidcClientSecret)
  | remove (id : InstallationId)

namespace SecretEvent

def program (T : NamespaceRuntimeSecretTarget) :
    SecretEvent → SecretProgram RuntimeSecretTargetOutcome
  | deliver request => T.deliverOidcClientSecret request
  | remove id => T.removeForInstallation id

def installation : SecretEvent → InstallationId
  | deliver request => request.installationId
  | remove id => id

/-- The delivery that an event starts, if it is one. -/
def request? : SecretEvent → Option RuntimeOidcClientSecret
  | deliver request => some request
  | remove _ => none

end SecretEvent

/-- One event, with what becomes of its calls. -/
def step (T : NamespaceRuntimeSecretTarget) (e : SecretEvent × List Fate) (t : Tree) : Tree :=
  (exec (handler T.me) (e.1.program T) e.2 t).2

/-- The deliveries that were started. -/
def requests (es : List (SecretEvent × List Fate)) : List RuntimeOidcClientSecret :=
  es.filterMap fun e => e.1.request?

/-- What is true of every tree that a history leads to from `t0`, if it started these deliveries. -/
structure Reached (T : NamespaceRuntimeSecretTarget) (t0 : Tree)
    (started : List RuntimeOidcClientSecret) (t : Tree) : Prop where
  frame : ∀ q, (∀ id s, q ≠ T.slot id s) → t.get q = t0.get q
  own : ∀ id s, ∀ n ∈ t.get (T.slot id s), OwnFile T.me n ∧ Housed T id t0
  material : ∀ id file, ∀ n ∈ t.get (T.path id file),
    ∃ r ∈ started, r.installationId = id ∧ n = T.node r file

namespace Reached

variable {started : List RuntimeOidcClientSecret}

theorem init (h : ∀ id s, t0.get (T.slot id s) = none) : Reached T t0 [] t0 where
  frame _ _ := rfl
  own id s n hn := by
    rw [h] at hn
    cases hn
  material id file n hn := by
    rw [show t0.get (T.path id file) = none from h id (file, false)] at hn
    cases hn

section

variable (h : Reached T t0 started t)
include h

theorem orderly (id : InstallationId) : Orderly T id t where
  own s n hn := (h.own id s n hn).1
  short file n hn := by
    obtain ⟨r, -, -, rfl⟩ := h.material id file n hn
    exact T.length_material r file

theorem housed (hhoused : Housed T id t0) : Housed T id t :=
  hhoused.mono h.frame

theorem of_housed (hhoused : Housed T id t) : Housed T id t0 :=
  hhoused.mono fun q hq => (h.frame q hq).symm

theorem mono (hsub : started ⊆ started') : Reached T t0 started' t where
  frame := h.frame
  own := h.own
  material id file n hn := by
    obtain ⟨r, hr, hid⟩ := h.material id file n hn
    exact ⟨r, hsub hr, hid⟩

theorem delivering (hhoused : Housed T r.installationId t) (hd : Delivering T r t t')
    (hr : r ∈ started) : Reached T t0 started t' where
  frame q hq := (hd.frame q (hq _)).trans (h.frame q hq)
  own id s n hn := by
    by_cases hid : id = r.installationId
    · subst hid
      refine ⟨?_, h.of_housed hhoused⟩
      obtain ⟨file, tmp⟩ := s
      cases tmp with
      | true => exact hd.temporary file n hn
      | false =>
        obtain hsame | ⟨-, hnew⟩ := hd.final file
        · exact (h.own _ (file, false) n (hsame ▸ hn)).1
        · cases hnew.symm.trans hn
          have hmode : nonOwnerWrite file.mode = 0 := by cases file <;> decide
          exact ⟨rfl, rfl, hmode⟩
    · refine h.own id s n ?_
      rw [← hd.frame _ fun s' he => hid (T.slot_injective s s' he).1]
      exact hn
  material id file n hn := by
    by_cases hid : id = r.installationId
    · subst hid
      obtain hsame | ⟨-, hnew⟩ := hd.final file
      · exact h.material _ file n (hsame ▸ hn)
      · exact ⟨r, hr, rfl, (Option.some.inj (hnew.symm.trans hn)).symm⟩
    · refine h.material id file n ?_
      rw [← hd.frame _ (path_ne_slot hid)]
      exact hn

theorem removing (hd : Removing (T.secretPaths id) t t') : Reached T t0 started t' := by
  have hsome : ∀ q, ∀ n ∈ t'.get q, n ∈ t.get q := by
    intro q n hn
    obtain hsame | hnone := hd.rest q
    · exact hsame ▸ hn
    · rw [hnone] at hn
      cases hn
  refine ⟨fun q hq => (hd.frame q fun hmem => ?_).trans (h.frame q hq),
    fun id s n hn => h.own id s n (hsome _ n hn),
    fun id file n hn => h.material id file n (hsome _ n hn)⟩
  obtain ⟨s, rfl⟩ := mem_secretPaths.mp hmem
  exact hq id s rfl

theorem slot_eq_none (hnone : t.get (T.installationRoot id) = none) (s : SecretFile × Bool) :
    t.get (T.slot id s) = none := by
  cases hs : t.get (T.slot id s) with
  | none => rfl
  | some n =>
    obtain ⟨m, hm, -⟩ := (h.housed (h.own id s n hs).2).installation
    cases hnone.symm.trans hm

/-- Where no two secrets share a digest, a delivery takes exactly its own material for its own. -/
theorem agrees_iff (hdigest : ∀ r' ∈ started, T.digest r'.clientSecret = T.digest r.clientSecret →
      r'.clientSecret = r.clientSecret) :
    Agrees T r t ↔ ∀ file, ∀ n ∈ t.get (T.path r.installationId file),
      n.content = T.material r file := by
  refine forall₃_congr fun file n hn => ?_
  obtain ⟨r', hr', -, rfl⟩ := h.material _ file n hn
  exact accepts_iff (hdigest r' hr') file

end

end Reached

/-! ## Events -/

section

variable (h : Reached T t0 started t)
include h

theorem deliver_left (r : RuntimeOidcClientSecret) (fates : List Fate) :
    Left T r t (step T (.deliver r, fates) t) :=
  (deliverOidcClientSecret_spec (handler_serves T.me) (.inl trivial) (h.orderly _)).leaves
    (fun _ _ h => h.left) fates

theorem remove_removing (id : InstallationId) (fates : List Fate) :
    Removing (T.secretPaths id) t (step T (.remove id, fates) t) :=
  (removeForInstallation_spec (handler_serves T.me) (.inl trivial) (h.orderly id).own
    h.slot_eq_none).leaves (fun _ _ h => h.1) fates

theorem Reached.step (e : SecretEvent × List Fate) (he : ∀ r, e.1.request? = some r → r ∈ started) :
    Reached T t0 started (step T e t) := by
  obtain ⟨e, fates⟩ := e
  cases e with
  | deliver r =>
    obtain hsame | ⟨hhoused, -, hd⟩ := deliver_left h r fates
    · rw [hsame]
      exact h
    · exact h.delivering hhoused hd (he r rfl)
  | remove id => exact h.removing (remove_removing h id fates)

theorem Reached.after (es : List (SecretEvent × List Fate)) (hes : requests es ⊆ started) :
    Reached T t0 started (after (NamespaceRuntimeSecretTarget.step T) es t) := by
  induction es generalizing t with
  | nil => exact h
  | cons e es ih =>
    refine ih (h.step e fun r hr => hes ?_) fun r hr => hes ?_
    · exact mem_filterMap.mpr ⟨e, mem_cons_self, hr⟩
    · obtain ⟨e', he', hr⟩ := mem_filterMap.mp hr
      exact mem_filterMap.mpr ⟨e', mem_cons_of_mem _ he', hr⟩

/-- An event touches only the files of its own installation. -/
theorem step_frame (e : SecretEvent × List Fate) (hq : ∀ s, q ≠ T.slot e.1.installation s) :
    (step T e t).get q = t.get q := by
  obtain ⟨e, fates⟩ := e
  cases e with
  | deliver r =>
    obtain hsame | ⟨-, -, hd⟩ := deliver_left h r fates
    · rw [hsame]
    · exact hd.frame q hq
  | remove id =>
    refine (remove_removing h id fates).frame q fun hmem => ?_
    obtain ⟨s, rfl⟩ := mem_secretPaths.mp hmem
    exact hq s rfl

end

/-- Deliveries of the same material do not make files that speak against it. -/
theorem Agrees.step (hagree : Agrees T r t) (h : Reached T t0 started t)
    (e : SecretEvent × List Fate) (he : e.1.installation = r.installationId → e.1 = .deliver r) :
    Agrees T r (step T e t) := by
  obtain ⟨e, fates⟩ := e
  intro file n hn
  by_cases hid : e.installation = r.installationId
  · cases he hid
    obtain hsame | ⟨-, -, hd⟩ := deliver_left h r fates
    · rw [hsame] at hn
      exact hagree file n hn
    · obtain hsame | ⟨-, hnew⟩ := hd.final file
      · exact hagree file n (hsame ▸ hn)
      · cases hnew.symm.trans hn
        exact T.accepts_material r file
  · rw [step_frame h (e, fates) (path_ne_slot (Ne.symm hid))] at hn
    exact hagree file n hn

theorem Agrees.after (hagree : Agrees T r t) (h : Reached T t0 started t)
    (es : List (SecretEvent × List Fate))
    (hes : ∀ e ∈ es, e.1.installation = r.installationId → e.1 = .deliver r) :
    Agrees T r (after (NamespaceRuntimeSecretTarget.step T) es t) := by
  induction es generalizing t started with
  | nil => exact hagree
  | cons e es ih =>
    have hmono : Reached T t0 (started ++ requests (e :: es)) t :=
      h.mono (subset_append_left _ _)
    have hstep := hmono.step e fun r' hr' =>
      mem_append_right _ (mem_filterMap.mpr ⟨e, mem_cons_self, hr'⟩)
    exact ih (hagree.step h e (hes e mem_cons_self)) hstep fun e' he' =>
      hes e' (mem_cons_of_mem _ he')

/-! ## The namespace after a removal -/

/-- There is nothing in the namespace but its two directories. -/
structure Bare (T : NamespaceRuntimeSecretTarget) (id : InstallationId) (t : Tree) : Prop where
  installation : ∀ n ∈ t.get (T.installationRoot id), n.type = .directory
  secrets : ∀ n ∈ t.get (T.secretRoot id), n.type = .directory
  only : ∀ name, name ≠ secretDirectory → t.get (T.installationRoot id ++ [name]) = none
  empty : ∀ name, t.get (T.secretRoot id ++ [name]) = none

theorem removeDirIfPresent_spec {me : Process} (hH : Serves me False H)
    (hdir : ∀ n ∈ t.get p, n.type = .directory) (hempty : ∀ name, t.get (p ++ [name]) = none) :
    Completes H False (fun _ => True) (removeDirIfPresent p)
      (fun _ t' => ∀ q, t'.get q = if q = p then none else t.get q) t := by
  refine call_spec hH trivial ?_ fun hf => hf.elim
  cases hn : t.get p with
  | none =>
    have hresp : t.respond me (.removeDir p) = (.error .notFound, t) := by
      simp [Tree.respond, Tree.apply, hn]
    rw [hresp]
    refine Completes.ret fun q => ?_
    split
    · next hq => rw [hq, hn]
    · rfl
  | some n =>
    have hresp : t.respond me (.removeDir p) = (.ok (), t.erase p) := by
      simp [Tree.respond, Tree.apply, hn, hdir n hn, Tree.isEmpty_iff.mpr hempty]
    rw [hresp]
    exact Completes.ret fun q => t.get_erase p q

theorem removeNamespaceIfEmpty_spec (hH : Serves T.me False H) (h : Bare T id t) :
    Completes H False (fun _ => True) (removeNamespaceIfEmpty (T.installationRoot id))
      (fun _ _ => True) t := by
  have hne : T.installationRoot id ≠ T.installationRoot id ++ [secretDirectory] := by simp
  refine Completes.bind (removeDirIfPresent_spec hH h.secrets h.empty) fun _ t1 h1 => ?_
  refine (removeDirIfPresent_spec hH ?_ fun name => ?_).mono (fun _ h => h) fun _ _ _ => trivial
  · rw [h1, if_neg hne]
    exact h.installation
  · rw [h1]
    split
    · rfl
    · next hname => exact h.only name fun he => hname (by rw [he])

/-- What lies below the namespace of an installation and is a secret file is its own. -/
theorem slot_below (h : T.slot id' s = T.installationRoot id ++ name :: rest) : id' = id := by
  obtain ⟨file, tmp⟩ := s
  have htext : id'.text = id.text := by
    cases file <;> cases tmp <;>
      simp [slot, path, temporary, directory, secretRoot, installationRoot] at h <;> exact h.1
  exact InstallationId.text_injective htext

/-- A removal leaves a namespace bare that had nothing of its own. -/
theorem Reached.bare (h : Reached T t0 started t) (hbare : Bare T id t0)
    (hgone : ∀ s, t.get (T.slot id s) = none) : Bare T id t := by
  have hnone : ∀ name rest, t0.get (T.installationRoot id ++ name :: rest) = none →
      t.get (T.installationRoot id ++ name :: rest) = none := by
    intro name rest hq
    by_cases hslot : ∃ i s, T.installationRoot id ++ name :: rest = T.slot i s
    · obtain ⟨i, s, hs⟩ := hslot
      cases slot_below hs.symm
      rw [hs]
      exact hgone s
    · push Not at hslot
      rw [h.frame _ hslot, hq]
  have hsecret : ∀ name, T.secretRoot id ++ [name] =
      T.installationRoot id ++ secretDirectory :: [name] := fun name => by
    rw [secretRoot, append_assoc]
    rfl
  refine ⟨?_, ?_, fun name hname => hnone name [] (hbare.only name hname), fun name => ?_⟩
  · rw [h.frame _ fun _ => installationRoot_ne_slot]
    exact hbare.installation
  · rw [h.frame _ fun _ => secretRoot_ne_slot]
    exact hbare.secrets
  · rw [hsecret]
    exact hnone _ _ (hsecret name ▸ hbare.empty name)

/-! ## The result -/

/-- A file of the installation denotes other material than the request. -/
def Differs (T : NamespaceRuntimeSecretTarget) (r : RuntimeOidcClientSecret) (t : Tree) : Prop :=
  ∃ file, ∃ n ∈ t.get (T.path r.installationId file), n.content ≠ T.material r file

/-- No two of these deliveries have secrets that share a digest. -/
def DigestsTell (T : NamespaceRuntimeSecretTarget) (rs : List RuntimeOidcClientSecret) : Prop :=
  ∀ a ∈ rs, ∀ b ∈ rs, T.digest a.clientSecret = T.digest b.clientSecret →
    a.clientSecret = b.clientSecret

/-- In whatever state a history of deliveries and removals, each stopped or disturbed at any call,
has left the tree: an answer means that the files hold the material, other material is left alone
and told as a conflict, an interrupted delivery that found no other material can be completed, a
removal leaves no file behind, and only files of the installation are touched. -/
theorem secret_files (T : NamespaceRuntimeSecretTarget) (t0 : Tree)
    (hnew : ∀ id s, t0.get (T.slot id s) = none) (es : List (SecretEvent × List Fate))
    (r : RuntimeOidcClientSecret) (hdigests : DigestsTell T (r :: requests es)) :
    let t := after (step T) es t0
    (∀ fates o t', exec (handler T.me) (T.deliverOidcClientSecret r) fates t = (.done o, t') →
      o = .applied ∨ o = .alreadyApplied → ∀ file,
        (t'.get (T.path r.installationId file)).map Node.content = some (T.material r file)) ∧
    (Differs T r t → (∀ fates, (exec (handler T.me) (T.deliverOidcClientSecret r) fates t).2 = t ∧
        ∀ o, (exec (handler T.me) (T.deliverOidcClientSecret r) fates t).1 = .done o →
          o = .conflict) ∧
      (exec (handler T.me) (T.deliverOidcClientSecret r) [] t).1 = .done .conflict) ∧
    (Housed T r.installationId t0 → ¬Differs T r t → ∀ es' : List (SecretEvent × List Fate),
        (∀ e ∈ es', e.1.installation = r.installationId → e.1 = .deliver r) →
        ∃ o, (o = .applied ∨ o = .alreadyApplied) ∧
          (exec (handler T.me) (T.deliverOidcClientSecret r) [] (after (step T) es' t)).1 =
            .done o) ∧
    (∀ id fates o t', exec (handler T.me) (T.removeForInstallation id) fates t = (.done o, t') →
      (∀ s, t'.get (T.slot id s) = none) ∧ (Bare T id t0 →
          (exec (handler T.me) (removeNamespaceIfEmpty (T.installationRoot id)) [] t').1 =
            .done ())) ∧
    (∀ e q, (∀ s, q ≠ T.slot e.1.installation s) → (step T e t).get q = t.get q) := by
  intro t
  have h : Reached T t0 (r :: requests es) t :=
    ((Reached.init hnew).mono (nil_subset _)).after es (subset_cons_self _ _)
  have hagree := h.agrees_iff fun r' hr' => hdigests r' hr' r mem_cons_self
  have hdiffers : Differs T r t ↔ ¬Agrees T r t := by
    rw [hagree, Differs]
    push Not
    rfl
  have hspec : ∀ {fates o t'}, exec (handler T.me) (T.deliverOidcClientSecret r) fates t =
      (.done o, t') → Answered T r t o t' := fun hexec =>
    (deliverOidcClientSecret_spec (handler_serves T.me) (.inl trivial) (h.orderly _)).done hexec
  have hquiet : ∀ {started t}, Reached T t0 started t → Housed T r.installationId t →
      ∃ o t', exec (handler T.me) (T.deliverOidcClientSecret r) [] t = (.done o, t') ∧
        Answered T r t o t' := fun h hhoused =>
    returns_undisturbed (deliverOidcClientSecret_spec (undisturbed_serves T.me) (.inr hhoused)
      (h.orderly _))
  refine ⟨fun fates o t' hexec ho file => ?_, fun hd => ⟨fun fates => ⟨?_, fun o hexit => ?_⟩, ?_⟩,
    fun hhoused hd es' hes' => ?_, fun id fates o t' hexec => ?_, fun e q hq => step_frame h e hq⟩
  · cases hspec hexec with
    | conflict => rcases ho with ho | ho <;> cases ho
    | written _ hag _ hw =>
      rw [hw.written file (by cases file <;> simp)]
      cases hn : t.get (T.path r.installationId file) with
      | none => rfl
      | some n => exact congrArg some (hagree.mp hag file n hn)
  · obtain hsame | ⟨-, hag, -⟩ := deliver_left h r fates
    · exact hsame
    · exact absurd hag (hdiffers.mp hd)
  · cases hexec : exec (handler T.me) (T.deliverOidcClientSecret r) fates t with
    | mk exit t' =>
      rw [hexec] at hexit
      cases hexit
      cases hspec hexec with
      | conflict => rfl
      | written _ hag => exact absurd hag (hdiffers.mp hd)
  · obtain ⟨file, n, hn, -⟩ := id hd
    have hhoused := h.housed (h.own _ (file, false) n hn).2
    obtain ⟨o, t', hexec, ho⟩ := hquiet h hhoused
    rw [hexec]
    cases ho with
    | conflict => rfl
    | written _ hag => exact absurd hag (hdiffers.mp hd)
  · have hag : Agrees T r t := not_not.mp fun hnot => hd (hdiffers.mpr hnot)
    have h' : Reached T t0 ((r :: requests es) ++ requests es') (after (step T) es' t) :=
      (h.mono (subset_append_left _ _)).after es' (subset_append_right _ _)
    obtain ⟨o, t', hexec, ho⟩ := hquiet h' (h'.housed hhoused)
    refine ⟨o, ?_, by rw [hexec]⟩
    cases ho with
    | conflict hnot => exact absurd (hag.after h es' hes') hnot
    | written _ _ ho => exact ho
  · have hremoved := (removeForInstallation_spec (handler_serves T.me) (.inl trivial)
      (h.orderly id).own h.slot_eq_none).done hexec
    refine ⟨hremoved.2, fun hbare => ?_⟩
    obtain ⟨_, _, hexec', -⟩ := returns_undisturbed (removeNamespaceIfEmpty_spec
      (undisturbed_serves T.me) ((h.removing hremoved.1).bare hbare hremoved.2))
    rw [hexec']

/-! ## A namespace with two deliveries -/

def notesTarget : NamespaceRuntimeSecretTarget where
  runtimeRoot := ["run"]
  me := ⟨1000, 0o022⟩
  sha256 := paddedDigest

/-- A delivery to one app, with a secret of equal bytes. -/
def notesDelivery (byte : UInt8) : RuntimeOidcClientSecret where
  operationId := ⟨7⟩
  installationId := ⟨1⟩
  appId := AppManifest.notes.appId
  publisherId := AppManifest.notes.publisherId
  clientId := .generate (ByteVector.fill 24 0)
  clientSecret := ⟨ByteVector.fill 32 byte⟩
  operationId_lt := by decide
  clientId_parsed := by decide +kernel

/-- The namespace as it is made for a container. -/
def notesTree : Tree :=
  ⟨[(notesTarget.runtimeRoot, ⟨⟨.directory, 1000, 0o755⟩, []⟩),
    (notesTarget.installationRoot ⟨1⟩, ⟨⟨.directory, 1000, 0o700⟩, []⟩),
    (notesTarget.secretRoot ⟨1⟩, ⟨⟨.directory, 1000, 0o755⟩, []⟩)]⟩

theorem notesTree_slot (id : InstallationId) (s : SecretFile × Bool) :
    notesTree.get (notesTarget.slot id s) = none := by
  rw [Tree.get_eq_none]
  intro e he
  simp only [notesTree, mem_cons, not_mem_nil, or_false] at he
  rcases he with rfl | rfl | rfl
  · exact runtimeRoot_ne_slot s
  · exact installationRoot_ne_slot s
  · exact secretRoot_ne_slot s

theorem notesTree_housed : Housed notesTarget ⟨1⟩ notesTree where
  root := ⟨⟨⟨.directory, 1000, 0o755⟩, []⟩, by decide +kernel⟩
  installation := ⟨⟨⟨.directory, 1000, 0o700⟩, []⟩, by decide +kernel⟩
  secrets := ⟨⟨⟨.directory, 1000, 0o755⟩, []⟩, by decide +kernel⟩

/-- A delivery that is stopped while it writes the client id is completed when it is repeated. -/
theorem interrupted_delivery_completed : ∃ o, (o = .applied ∨ o = .alreadyApplied) ∧
      (exec (handler notesTarget.me) (notesTarget.deliverOidcClientSecret (notesDelivery 1)) []
        (after (step notesTarget)
          [(.deliver (notesDelivery 1), List.replicate 14 .done ++ [.failed 3, .stopped])]
          notesTree)).1 = .done o := by
  refine (secret_files notesTarget notesTree notesTree_slot [] (notesDelivery 1) ?_).2.2.1
    notesTree_housed ?_ _ ?_
  · intro a ha b hb _
    rw [mem_singleton.mp ha, mem_singleton.mp hb]
  · rintro ⟨file, n, hn, -⟩
    have hnone := notesTree_slot ⟨1⟩ (file, false)
    cases hnone.symm.trans hn
  · intro e he _
    rw [mem_singleton.mp he]

/-- A delivery that is stopped in a namespace with another secret ends in a conflict when it is
repeated. -/
theorem interrupted_delivery_conflicts :
    (exec (handler notesTarget.me) (notesTarget.deliverOidcClientSecret (notesDelivery 2))
        [.done, .done, .stopped]
        (after (step notesTarget) [(.deliver (notesDelivery 1), [])] notesTree)).1 = .stopped ∧
      (exec (handler notesTarget.me) (notesTarget.deliverOidcClientSecret (notesDelivery 2)) []
        (after (step notesTarget) [(.deliver (notesDelivery 1), []),
          (.deliver (notesDelivery 2), [.done, .done, .stopped])] notesTree)).1 =
        .done .conflict := by
  decide +kernel

end NamespaceRuntimeSecretTarget

end Rumahl
