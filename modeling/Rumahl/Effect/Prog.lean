import Mathlib

/-!
# Programs over an environment

A program is a tree of calls. Every call has a type of answers, and the tree continues from
whichever answer the environment gives. An environment is a `Handler`: at every call it is handed
an external decision, and either answers and changes the world or stops the process, in which case
the rest of the program never runs.

Main definitions:
* `Prog`: the tree, a monad with errors;
* `exec`: the exit and the world of one run under a schedule of decisions;
* `trace`: the calls of that run, each with the world it was made in and the answer it got.
-/

namespace Effect

/-- Programs making calls `c : C` answered in `A c`, failing with `ε` or returning `α`. -/
inductive Prog (C : Type) (A : C → Type) (ε α : Type) : Type where
  | ret (a : α)
  | throw (e : ε)
  | call (c : C) (k : A c → Prog C A ε α)

namespace Prog

variable {C : Type} {A : C → Type} {ε ε' α β γ : Type}

protected def bind : Prog C A ε α → (α → Prog C A ε β) → Prog C A ε β
  | .ret a, f => f a
  | .throw e, _ => .throw e
  | .call c k, f => .call c fun a => (k a).bind f

instance : Monad (Prog C A ε) where
  pure := .ret
  bind := Prog.bind

@[simp] theorem pure_def (a : α) : (pure a : Prog C A ε α) = .ret a := rfl
@[simp] theorem ret_bind (a : α) (f : α → Prog C A ε β) : (Prog.ret a >>= f) = f a := rfl
@[simp] theorem throw_bind (e : ε) (f : α → Prog C A ε β) : (Prog.throw e >>= f) = .throw e := rfl
@[simp] theorem call_bind (c : C) (k : A c → Prog C A ε α) (f : α → Prog C A ε β) :
    (Prog.call c k >>= f) = .call c fun a => k a >>= f := rfl

/-- One call, returning its answer. -/
def perform (c : C) : Prog C A ε (A c) := .call c .ret

/-- A pure fallible computation, its error wrapped. -/
def ofExcept (wrap : ε' → ε) : Except ε' α → Prog C A ε α
  | .ok a => .ret a
  | .error e => .throw (wrap e)

/-- The program with its error replaced. -/
def mapError (f : ε' → ε) : Prog C A ε' α → Prog C A ε α
  | .ret a => .ret a
  | .throw e => .throw (f e)
  | .call c k => .call c fun a => (k a).mapError f

/-- The program with its error caught and returned. -/
def attempt : Prog C A ε α → Prog C A ε' (Except ε α)
  | .ret a => .ret (.ok a)
  | .throw e => .ret (.error e)
  | .call c k => .call c fun a => (k a).attempt

/-- What the program has returned or failed with, when it has no calls left. -/
def result? : Prog C A ε α → Option (Except ε α)
  | .ret a => some (.ok a)
  | .throw e => some (.error e)
  | .call _ _ => none

theorem result?_eq_ok {p : Prog C A ε α} : p.result? = some (.ok a) ↔ p = .ret a := by
  cases p <;> simp [result?]

end Prog

/-- How a run ends. -/
inductive Exit (ε α : Type) where
  | stopped
  | failed (e : ε)
  | done (a : α)
  deriving DecidableEq

/-- An environment with decisions `I` and worlds `W`. No answer means that the process stops at
the call, before the call has any effect. -/
structure Handler (C : Type) (A : C → Type) (I W : Type) where
  step : (c : C) → I → W → Option (A c × W)

/-- The environment with its decisions chosen through `f`. -/
def Handler.comap {C : Type} {A : C → Type} {I J W : Type} (H : Handler C A I W) (f : J → I) :
    Handler C A J W where
  step c j w := H.step c (f j) w

/-- A call as the environment sees it. -/
structure Event (C : Type) (A : C → Type) (W : Type) where
  call : C
  before : W
  answer : Option (A call)

section
variable {C : Type} {A : C → Type} {I W ε ε' α β : Type} [Inhabited I] (H : Handler C A I W)

/-- Run a program. A schedule that has run out goes on with the default decision. -/
def exec : Prog C A ε α → List I → W → Exit ε α × W
  | .ret a, _, w => (.done a, w)
  | .throw e, _, w => (.failed e, w)
  | .call c k, is, w =>
    match H.step c (is.headD default) w with
    | none => (.stopped, w)
    | some (a, w') => exec (k a) is.tail w'

/-- The calls of a run, in order. -/
def trace : Prog C A ε α → List I → W → List (Event C A W)
  | .ret _, _, _ => []
  | .throw _, _, _ => []
  | .call c k, is, w =>
    match H.step c (is.headD default) w with
    | none => [⟨c, w, none⟩]
    | some (a, w') => ⟨c, w, some a⟩ :: trace (k a) is.tail w'

theorem exec_mapError (h : exec H p is w = (.done a, w')) :
    exec H (p.mapError g) is w = (.done a, w') := by
  induction p generalizing is w with
  | ret b => cases h; rfl
  | throw e => cases h
  | call c k ih =>
    rw [exec] at h
    rw [Prog.mapError, exec]
    split at h
    · cases h
    · exact ih _ h

theorem exists_unanswered (h : (exec H p is w).1 = .stopped) :
    ∃ e ∈ trace H p is w, e.answer = none := by
  induction p generalizing is w with
  | ret a => cases h
  | throw e => cases h
  | call c k ih =>
    rw [exec] at h
    rw [trace]
    split at h
    · exact ⟨_, List.mem_singleton_self _, rfl⟩
    · next a w' hstep =>
      obtain ⟨e, he, hn⟩ := ih a h
      exact ⟨e, List.mem_cons_of_mem _ he, hn⟩

theorem answer_isSome (hH : ∀ c i w, (H.step c i w).isSome) (p : Prog C A ε α) (is : List I)
    (w : W) : ∀ e ∈ trace H p is w, e.answer.isSome := by
  induction p generalizing is w with
  | ret a => exact fun e he => nomatch he
  | throw e => exact fun e he => nomatch he
  | call c k ih =>
    rw [trace]
    split
    · next hstep =>
      have hsome := hH c (is.headD default) w
      rw [hstep] at hsome
      cases hsome
    · next a w' hstep =>
      intro e he
      rcases List.mem_cons.mp he with rfl | he
      · rfl
      · exact ih a _ _ e he

theorem exec_comap [Inhabited J] (hf : f default = default) (p : Prog C A ε α)
    (js : List J) (w : W) :
    exec (H.comap f) p js w = exec H p (js.map f) w := by
  induction p generalizing js w with
  | ret a => rfl
  | throw e => rfl
  | call c k ih =>
    have hhead : (js.map f).headD default = f (js.headD default) := by
      cases js with
      | nil => exact hf.symm
      | cons j js => rfl
    simp only [exec, Handler.comap, hhead, ← List.map_tail]
    split
    · rfl
    · exact ih _ _ _

end

/-! ## Sequences of steps -/

section
variable {E W : Type} (step : E → W → W)

/-- The world after a sequence of steps. -/
def after : List E → W → W
  | [], w => w
  | e :: es, w => after es (step e w)

/-- Every step of the sequence meets `C` in the world it starts from. -/
def Along (C : E → W → Prop) : List E → W → Prop
  | [], _ => True
  | e :: es, w => C e w ∧ Along C es (step e w)

variable {step} {C : E → W → Prop}

theorem after_append (es es' : List E) (w : W) :
    after step (es ++ es') w = after step es' (after step es w) := by
  induction es generalizing w with
  | nil => rfl
  | cons e es ih => exact ih _

/-- What every step under the condition preserves holds after the sequence. -/
theorem Along.invariant {P : W → Prop} (hstep : ∀ e w, P w → C e w → P (step e w))
    (h : Along step C es w) (hw : P w) : P (after step es w) := by
  induction es generalizing w with
  | nil => exact hw
  | cons e es ih => exact ih h.2 (hstep e w hw h.1)

theorem Along.append :
    Along step C (es ++ es') w ↔ Along step C es w ∧ Along step C es' (after step es w) := by
  induction es generalizing w with
  | nil => simp [Along, after]
  | cons e es ih => simp [Along, after, ih, and_assoc]

theorem Along.of_forall (h : ∀ e w, C e w) (es : List E) (w : W) : Along step C es w := by
  induction es generalizing w with
  | nil => trivial
  | cons e es ih => exact ⟨h e w, ih _⟩

end

end Effect
