import Rumahl.Effect.Refine

/-!
# Runs of a sequence

A run of `p >>= f` is a run of `p` and, if that returns, a run of `f` under the rest of the schedule
(`exec_bind`, `trace_bind`).
-/

open List

namespace Effect

namespace Prog

variable {C : Type} {A : C → Type} {ε α β γ : Type}

theorem bind_assoc (p : Prog C A ε α) (f : α → Prog C A ε β) (g : β → Prog C A ε γ) :
    (p >>= f) >>= g = p >>= fun a => f a >>= g := by
  induction p with
  | ret a => rfl
  | throw e => rfl
  | call c k ih => exact congrArg (Prog.call c) (funext ih)

theorem bind_ret (p : Prog C A ε α) : (p >>= .ret) = p := by
  induction p with
  | ret a => rfl
  | throw e => rfl
  | call c k ih => exact congrArg (Prog.call c) (funext ih)

theorem attempt_bind_ofExcept (p : Prog C A ε α) :
    ((p.attempt : Prog C A ε _) >>= ofExcept id) = p := by
  induction p with
  | ret a => rfl
  | throw e => rfl
  | call c k ih => exact congrArg (Prog.call c) (funext ih)

end Prog

section
variable {C : Type} {A : C → Type} {I W ε ε' α β : Type} [Inhabited I] (H : Handler C A I W)

/-- The part of the schedule that a run leaves over. -/
def remaining (p : Prog C A ε α) (is : List I) (w : W) : List I := is.drop (trace H p is w).length

/-- What becomes of a run that another program follows. -/
def andThen (f : α → W → γ) (failed : ε → W → γ) (stopped : W → γ) : Exit ε α × W → γ
  | (.done a, w) => f a w
  | (.failed e, w) => failed e w
  | (.stopped, w) => stopped w

theorem remaining_call (hstep : H.step c (is.headD default) w = some (a, w')) :
    remaining H (.call c k) is w = remaining H (k a) is.tail w' := by
  rw [remaining, trace]
  simp only [hstep]
  rw [length_cons, ← drop_tail]
  rfl

theorem exec_bind (p : Prog C A ε α) (f : α → Prog C A ε β) (is : List I) (w : W) :
    exec H (p >>= f) is w = andThen (fun a w' => exec H (f a) (remaining H p is w) w')
      (fun e w' => (.failed e, w')) (fun w' => (.stopped, w')) (exec H p is w) := by
  induction p generalizing is w with
  | ret a => rfl
  | throw e => rfl
  | call c k ih =>
    rw [Prog.call_bind, exec, exec]
    split
    · rfl
    · next a w' hstep =>
      rw [ih a, remaining_call H hstep]

theorem trace_bind (p : Prog C A ε α) (f : α → Prog C A ε β) (is : List I) (w : W) :
    trace H (p >>= f) is w = trace H p is w ++ andThen
      (fun a w' => trace H (f a) (remaining H p is w) w') (fun _ _ => []) (fun _ => [])
      (exec H p is w) := by
  induction p generalizing is w with
  | ret a => rfl
  | throw e => rfl
  | call c k ih =>
    rw [Prog.call_bind, exec, trace, trace]
    split
    · rfl
    · next a w' hstep =>
      rw [ih a, remaining_call H hstep]
      rfl

theorem trace_attempt (p : Prog C A ε α) (is : List I) (w : W) :
    trace H (p.attempt : Prog C A ε' _) is w = trace H p is w := by
  induction p generalizing is w with
  | ret a => rfl
  | throw e => rfl
  | call c k ih =>
    rw [Prog.attempt, trace, trace]
    split
    · rfl
    · next a w' hstep => rw [ih a]

theorem remaining_attempt (p : Prog C A ε α) (is : List I) (w : W) :
    remaining H (p.attempt : Prog C A ε' _) is w = remaining H p is w := by
  rw [remaining, trace_attempt, remaining]

theorem exec_attempt (p : Prog C A ε α) (is : List I) (w : W) :
    exec H (p.attempt : Prog C A ε' _) is w = andThen (fun a w' => (.done (.ok a), w'))
      (fun e w' => (.done (.error e), w')) (fun w' => (.stopped, w')) (exec H p is w) := by
  induction p generalizing is w with
  | ret a => rfl
  | throw e => rfl
  | call c k ih =>
    rw [Prog.attempt, exec, exec]
    split
    · rfl
    · next a w' hstep => rw [ih a]

/-- With nothing left in the schedule the parts of a sequence run under the default decision. -/
theorem exec_bind_nil (h : exec H p [] w = (.done a, w')) :
    exec H (p >>= f) [] w = exec H (f a) [] w' := by
  rw [exec_bind, h]
  simp only [andThen, remaining, drop_nil]

/-- A program whose error is caught, under the rest of the schedule. -/
theorem exec_attempt_bind (h : exec H p is w = (.failed e, w')) :
    exec H (p.attempt >>= f) is w = exec H (f (.error e)) (remaining H p is w) w' ∧
      trace H (f (.error e)) (remaining H p is w) w' ⊆ trace H (p.attempt >>= f) is w := by
  rw [exec_bind, trace_bind, remaining_attempt, exec_attempt, h]
  exact ⟨rfl, subset_append_right _ _⟩

end

end Effect
