import Rumahl.Effect.CrashLogic

/-!
# A file system and a process that may stop

A `Tree` holds the nodes of a file system under their paths. A process makes calls, one at a time;
`Tree.apply` is what a call does when nothing disturbs it, and `Disk.handler` lets every call be
carried out, fail after a part of its effect, or never be made because the process stops.

`call_spec` is the rule for one call, `invoke_spec` the one for a call that succeeds unless it is
disturbed.
-/

namespace Disk

open Effect

/-- The components of a path. -/
abbrev Path := List String

inductive FileType where
  | directory | file | symlink | special
  deriving DecidableEq

structure Metadata where
  type : FileType
  uid : Nat
  mode : Nat
  deriving DecidableEq

/-- Only a regular file has content. -/
structure Node extends Metadata where
  content : List UInt8 := []
  deriving DecidableEq

structure Tree where
  nodes : List (Path × Node) := []

namespace Tree

def find (p : Path) : List (Path × Node) → Option Node
  | [] => none
  | e :: nodes => if e.1 = p then some e.2 else find p nodes

def get (t : Tree) (p : Path) : Option Node := find p t.nodes

def erase (t : Tree) (p : Path) : Tree := ⟨t.nodes.filter fun e => e.1 ≠ p⟩

def set (t : Tree) (p : Path) (n : Node) : Tree := ⟨(p, n) :: (t.erase p).nodes⟩

/-- Nothing lies directly below the path. -/
def isEmpty (t : Tree) (p : Path) : Bool := t.nodes.all fun e => e.1 = [] ∨ e.1.dropLast ≠ p

def isDirectory (t : Tree) (p : Path) : Bool := (t.get p).any fun n => n.type = .directory

theorem get_eq_none {t : Tree} : t.get p = none ↔ ∀ e ∈ t.nodes, e.1 ≠ p := by
  unfold get
  induction t.nodes with
  | nil => simp [find]
  | cons e l ih =>
    rw [find, List.forall_mem_cons, ← ih]
    split
    · next h => simp [h]
    · next h => simp [h]

@[simp] theorem get_erase (t : Tree) (p q : Path) :
    (t.erase p).get q = if q = p then none else t.get q := by
  unfold erase get
  induction t.nodes with
  | nil => simp [find]
  | cons e l ih =>
    by_cases he : e.1 = p
    · rw [List.filter_cons_of_neg (by simpa using he), ih, find, he]
      by_cases hq : p = q
      · simp [hq]
      · simp [hq]
    · rw [List.filter_cons_of_pos (by simpa using he), find, find, ih]
      by_cases hq : e.1 = q
      · rw [if_pos hq, if_pos hq, if_neg (hq ▸ he)]
      · rw [if_neg hq, if_neg hq]

@[simp] theorem get_set (t : Tree) (p q : Path) (n : Node) :
    (t.set p n).get q = if q = p then some n else t.get q := by
  change (if p = q then some n else (t.erase p).get q) = _
  rw [get_erase]
  by_cases hq : q = p
  · simp [hq]
  · rw [if_neg (Ne.symm hq), if_neg hq, if_neg hq]

theorem isEmpty_iff {t : Tree} : t.isEmpty p = true ↔ ∀ name, t.get (p ++ [name]) = none := by
  simp only [isEmpty, List.all_eq_true, decide_eq_true_eq, get_eq_none]
  constructor
  · intro h name e he heq
    have hchild := h e he
    rw [heq] at hchild
    simp at hchild
  · intro h e he
    by_contra hne
    obtain ⟨hnil, hlast⟩ := not_or.mp hne
    have hlast := not_not.mp hlast
    exact h (e.1.getLast hnil) e he (by rw [← hlast, List.dropLast_concat_getLast])

end Tree

/-! ## Calls -/

inductive IoError where
  | notFound | alreadyExists | other
  deriving DecidableEq

inductive Call where
  | metadata (p : Path)
  | createDir (p : Path)
  | setPermissions (p : Path) (mode : Nat)
  | removeDir (p : Path)
  | openFile (p : Path)
  | read (p : Path) (limit : Nat)
  | createNew (p : Path) (mode : Nat)
  | writeAll (p : Path) (bytes : List UInt8)
  | syncAll (p : Path)
  | rename (source target : Path)
  | removeFile (p : Path)

@[reducible] def Result : Call → Type
  | .metadata _ | .openFile _ => Metadata
  | .read .. => List UInt8
  | _ => Unit

@[reducible] def Answer (c : Call) : Type := Except IoError (Result c)

/-- What the file system knows of the process. -/
structure Process where
  uid : Nat
  umask : Nat

namespace Tree

variable (me : Process)

/-- What a call does when nothing disturbs it. A link is never followed, and the process may read
and change what is its own. -/
def apply (t : Tree) : (c : Call) → Except IoError (Result c × Tree)
  | .metadata p =>
    match t.get p with
    | some n => .ok (n.toMetadata, t)
    | none => .error .notFound
  | .createDir p =>
    if (t.get p).isSome then .error .alreadyExists
    else if t.isDirectory p.dropLast then
      .ok ((), t.set p ⟨⟨.directory, me.uid, Nat.ldiff 0o777 me.umask⟩, []⟩)
    else .error .notFound
  | .setPermissions p mode =>
    match t.get p with
    | some n => if n.type = .symlink then .error .other else .ok ((), t.set p { n with mode })
    | none => .error .notFound
  | .removeDir p =>
    match t.get p with
    | some n =>
      if n.type = .directory ∧ t.isEmpty p = true then .ok ((), t.erase p) else .error .other
    | none => .error .notFound
  | .openFile p =>
    match t.get p with
    | some n => if n.type = .symlink then .error .other else .ok (n.toMetadata, t)
    | none => .error .notFound
  | .read p limit =>
    match t.get p with
    | some n => if n.type = .file then .ok (n.content.take limit, t) else .error .other
    | none => .error .notFound
  | .createNew p mode =>
    if (t.get p).isSome then .error .alreadyExists
    else if t.isDirectory p.dropLast then
      .ok ((), t.set p ⟨⟨.file, me.uid, Nat.ldiff mode me.umask⟩, []⟩)
    else .error .notFound
  | .writeAll p bytes =>
    match t.get p with
    | some n =>
      if n.type = .file then .ok ((), t.set p { n with content := n.content ++ bytes })
      else .error .other
    | none => .error .notFound
  | .syncAll _ => .ok ((), t)
  | .rename source target =>
    match t.get source with
    | some n =>
      if t.isDirectory target ∨ t.isDirectory target.dropLast = false then .error .other
      else .ok ((), (t.erase source).set target n)
    | none => .error .notFound
  | .removeFile p =>
    match t.get p with
    | some n => if n.type = .directory then .error .other else .ok ((), t.erase p)
    | none => .error .notFound

def respond (t : Tree) (c : Call) : Answer c × Tree :=
  match t.apply me c with
  | .ok (r, t') => (.ok r, t')
  | .error e => (.error e, t)

/-- What a call that failed has done: a part of the bytes is written, or all of it is done. -/
def disturb (progress : Nat) (t : Tree) (c : Call) : Tree :=
  if progress = 0 then t
  else match c with
    | .writeAll p bytes => (t.respond me (.writeAll p (bytes.take progress))).2
    | c => (t.respond me c).2

end Tree

/-- What becomes of a call. -/
inductive Fate where
  | done
  | failed (progress : Nat)
  | stopped

instance : Inhabited Fate := ⟨.done⟩

def handler (me : Process) : Handler Call Answer Fate Tree where
  step c fate t :=
    match fate with
    | .done => some (t.respond me c)
    | .failed progress => some (.error .other, t.disturb me progress c)
    | .stopped => none

/-! ## Specifications -/

/-- One call, its error wrapped. -/
def invoke (wrap : IoError → ε) (c : Call) : Prog Call Answer ε (Result c) := do
  let answer ← Prog.perform c
  Prog.ofExcept wrap answer

/-- The environment carries calls out, and disturbs them only if it is faulty. -/
def Serves (me : Process) (faulty : Prop) (H : Handler Call Answer I Tree) : Prop :=
  ∀ c i t a t', H.step c i t = some (a, t') → (a, t') = t.respond me c ∨
    faulty ∧ a = .error .other ∧ ∃ n, t' = t.disturb me n c

theorem handler_serves (me : Process) : Serves me True (handler me) := by
  intro c fate t a t' hstep
  cases fate with
  | done => exact .inl (Option.some.inj hstep).symm
  | failed n =>
    obtain ⟨rfl, rfl⟩ := Prod.mk.inj (Option.some.inj hstep)
    exact .inr ⟨trivial, rfl, n, rfl⟩
  | stopped => cases hstep

theorem undisturbed_serves (me : Process) :
    Serves me False ((handler me).comap fun _ : Unit => default) := by
  intro c _ t a t' hstep
  exact .inl (Option.some.inj hstep).symm

section

variable {me : Process} {H : Handler Call Answer I Tree} {faulty : Prop} {K : Tree → Prop}
  {t t' : Tree} {c : Call} {ε α : Type} {Q : α → Tree → Prop}

/-- A program that only fails where it is disturbed returns when it is not. -/
theorem returns_undisturbed
    (h : Completes ((handler me).comap fun _ : Unit => default) False K p Q t) :
    ∃ a t', exec (handler me) p [] t = (.done a, t') ∧ Q a t' := by
  have hreturns := h.returns (fun _ _ _ => rfl) []
  rwa [exec_comap (handler me) (f := fun _ : Unit => default) rfl] at hreturns

theorem call_spec (hH : Serves me faulty H) (hK : K t)
    (hdone : Completes H faulty K (k (t.respond me c).1) Q (t.respond me c).2)
    (hfailed : faulty → ∀ n, Completes H faulty K (k (.error .other)) Q (t.disturb me n c)) :
    Completes H faulty K (.call c k) Q t := by
  refine ⟨trivial, fun hf => ⟨hf rfl, hK⟩, fun i a t' hstep _ => ?_⟩
  obtain heq | ⟨hf, rfl, n, rfl⟩ := hH c i t a t' hstep
  · rw [← heq] at hdone
    exact hdone
  · exact hfailed hf n

theorem invoke_spec {Q : Result c → Tree → Prop} (hH : Serves me faulty H)
    (happly : t.apply me c = .ok (r, t')) (hK : ∀ n, K (t.disturb me n c)) (hQ : Q r t') :
    Completes H faulty K (invoke wrap c) Q t := by
  refine call_spec hH (by simpa [Tree.disturb] using hK 0) ?_ fun hf n => ⟨hf, hf, hK n⟩
  rw [Tree.respond, happly]
  exact hQ

/-- A call that fails with all of its effect or with none. -/
def Call.Atomic : Call → Prop
  | .writeAll .. => False
  | _ => True

theorem effect_spec {Q : Result c → Tree → Prop} (hH : Serves me faulty H) (hc : c.Atomic)
    (happly : t.apply me c = .ok (r, t')) (hK : K t) (hK' : K t') (hQ : Q r t') :
    Completes H faulty K (invoke wrap c) Q t := by
  refine invoke_spec hH happly (fun n => ?_) hQ
  have hdone : K (t.respond me c).2 := by rwa [Tree.respond, happly]
  unfold Tree.disturb
  split
  · exact hK
  · cases c <;> first | exact hc.elim | exact hdone

theorem writeAll_spec {Q : Unit → Tree → Prop} {f : List UInt8 → Tree} (hH : Serves me faulty H)
    (happly : ∀ bytes, t.apply me (.writeAll p bytes) = .ok ((), f bytes)) (hK : K t)
    (hK' : ∀ bytes, K (f bytes)) (hQ : Q () (f bytes)) :
    Completes H faulty K (invoke wrap (.writeAll p bytes)) Q t := by
  refine invoke_spec hH (happly bytes) (fun n => ?_) hQ
  unfold Tree.disturb
  split
  · exact hK
  · dsimp only
    rw [Tree.respond, happly]
    exact hK' _

/-- A call that only looks. -/
def Call.Looks : Call → Prop
  | .metadata _ | .openFile _ | .read .. | .syncAll _ => True
  | _ => False

theorem Tree.apply_of_looks (hc : c.Looks) (h : t.apply me c = .ok (r, t')) : t' = t := by
  cases c with
  | metadata p =>
    simp only [Tree.apply] at h
    split at h <;> cases h
    rfl
  | openFile p | read p limit =>
    simp only [Tree.apply] at h
    split at h
    · split at h <;> cases h
      rfl
    · cases h
  | syncAll p => cases h; rfl
  | _ => exact hc.elim

theorem Tree.respond_of_looks (hc : c.Looks) (t : Tree) : (t.respond me c).2 = t := by
  unfold Tree.respond
  split
  · next h => exact Tree.apply_of_looks hc h
  · rfl

theorem Tree.disturb_of_looks (hc : c.Looks) (n : Nat) : t.disturb me n c = t := by
  unfold Tree.disturb
  split
  · rfl
  · cases c <;> first | exact Tree.respond_of_looks hc t | exact hc.elim

theorem look_spec {Q : Result c → Tree → Prop} (hH : Serves me faulty H) (hc : c.Looks)
    (happly : t.apply me c = .ok (r, t)) (hK : K t) (hQ : Q r t) :
    Completes H faulty K (invoke wrap c) Q t :=
  invoke_spec hH happly (fun n => by rwa [Tree.disturb_of_looks hc]) hQ

end

end Disk
