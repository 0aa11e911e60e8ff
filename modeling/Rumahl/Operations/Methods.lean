import Rumahl.Operations.Operation
import Rumahl.Effect.InPlace

/-!
# Transitions in place

The transitions of an `AppOperation` are methods on `&mut self`: one that fails leaves behind what
it has written until then. `AppOperation.call_eq` says that none of them has written anything: a
call either makes the transition of `AppOperation.transition` or leaves the operation as it was.
-/

namespace Rumahl

open Effect.InPlace

namespace AppOperation

/-- A method on `&mut self`. It returns or fails, and leaves an operation behind either way. -/
abbrev Method := EStateM AppOperationError AppOperation

namespace Method

def advance (time : UnixTimestamp) : Method Unit := do
  if time < (← get).updatedAt then throw .timestampMovedBackwards
  if 2 ^ 64 ≤ (← get).revision + 1 then throw .revisionExhausted
  modify fun op => { op with revision := op.revision + 1 }
  modify fun op => { op with updatedAt := time }

def beginResource (resource : AppOperationResource) (time : UnixTimestamp) : Method Unit := do
  check (requirePhase · .applying)
  let index ← check (stepIndex · resource)
  if ((← get).steps.take index).any fun step => step.state ≠ .applied then
    throw (.resourceOutOfOrder resource)
  check (requireResourceState · resource index .pending)
  advance time
  modify (setState · index .applying)

def completeResource (resource : AppOperationResource) (time : UnixTimestamp) : Method Unit := do
  check (requirePhase · .applying)
  let index ← check (stepIndex · resource)
  check (requireResourceState · resource index .applying)
  advance time
  modify (setState · index .applied)

def commit (time : UnixTimestamp) : Method Unit := do
  check (requirePhase · .applying)
  if (← get).steps.any fun step => step.state ≠ .applied then throw .resourcesNotApplied
  advance time
  modify fun op => { op with phase := .committed }

def beginCompensation (time : UnixTimestamp) : Method Unit := do
  check (requirePhase · .applying)
  advance time
  modify fun op => { op with
    steps := op.steps.map fun step => { step with state := compensationState step.state } }
  modify fun op => { op with phase := .compensating }

def beginResourceCompensation (resource : AppOperationResource) (time : UnixTimestamp) :
    Method Unit := do
  check (requirePhase · .compensating)
  let index ← check (stepIndex · resource)
  if ((← get).steps.drop (index + 1)).any fun step =>
      step.state = .compensationPending || step.state = .compensating then
    throw (.resourceOutOfOrder resource)
  check (requireResourceState · resource index .compensationPending)
  advance time
  modify (setState · index .compensating)

def completeResourceCompensation (resource : AppOperationResource) (time : UnixTimestamp) :
    Method Unit := do
  check (requirePhase · .compensating)
  let index ← check (stepIndex · resource)
  check (requireResourceState · resource index .compensating)
  advance time
  modify (setState · index .compensated)

def finishCompensation (time : UnixTimestamp) : Method Unit := do
  check (requirePhase · .compensating)
  if (← get).steps.any fun step => step.state ≠ .pending && step.state ≠ .compensated then
    throw .compensationIncomplete
  advance time
  modify fun op => { op with phase := .compensated }

def transition (time : UnixTimestamp) : Transition → Method Unit
  | .beginResource r => beginResource r time
  | .completeResource r => completeResource r time
  | .commit => commit time
  | .beginCompensation => beginCompensation time
  | .beginResourceCompensation r => beginResourceCompensation r time
  | .completeResourceCompensation r => completeResourceCompensation r time
  | .finishCompensation => finishCompensation time

/-! ## No method fails after it has written -/

/-- What a method does that computes its result first and then writes it. -/
def outcome (op : AppOperation) :
    Except AppOperationError AppOperation → EStateM.Result AppOperationError AppOperation Unit
  | .ok op' => .ok () op'
  | .error e => .error e op

theorem check_bind (h : ∀ a, (k a).run op = outcome op (g a)) :
    (check f >>= k).run op = outcome op (f op >>= g) := by
  rw [run_check_bind]
  cases f op with
  | error e => rfl
  | ok a => exact h a

theorem guard_bind [DecidablePred p] {k : Method Unit} {x : Except AppOperationError AppOperation}
    (h : k.run op = outcome op x) :
    (get >>= fun self => if p self then (throw e >>= fun _ : PUnit => k) else k).run op =
      outcome op (if p op then (throw e >>= fun _ : PUnit => x) else x) := by
  rw [EStateM.run_bind, EStateM.run_get]
  by_cases hp : p op
  · simp only [if_pos hp, EStateM.run_bind, EStateM.run_throw]
    rfl
  · simp [hp, h]

/-- The last check is that of `advance`; from then on a method only writes. -/
theorem advance_bind {change : AppOperation → AppOperation}
    (h : ∀ op, k.run op = .ok () (change op)) : (advance time >>= fun _ => k).run op =
      outcome op (op.advance time >>= fun op' => pure (change op')) := by
  have hrun : (advance time).run op = outcome op (op.advance time) := by
    simp only [advance, EStateM.run_bind, EStateM.run_get]
    by_cases ht : time < op.updatedAt
    · rw [AppOperation.advance, if_pos ht, if_pos ht, EStateM.run_bind, EStateM.run_throw]
      rfl
    rw [AppOperation.advance, if_neg ht, if_neg ht, EStateM.run_bind, EStateM.run_get]
    by_cases hr : 2 ^ 64 ≤ op.revision + 1
    · simp only [if_pos hr, if_neg (Nat.not_lt.mpr hr), EStateM.run_bind, EStateM.run_throw]
      rfl
    · simp only [if_neg hr, if_pos (Nat.not_le.mp hr), EStateM.run_bind, EStateM.run_modify]
      rfl
  rw [EStateM.run_bind, hrun]
  cases op.advance time with
  | error e => rfl
  | ok op' => exact h op'

end Method

/-- A transition called on an operation. -/
def call (op : AppOperation) (time : UnixTimestamp) (transition : Transition) :
    EStateM.Result AppOperationError AppOperation Unit :=
  (Method.transition time transition).run op

theorem call_eq (op : AppOperation) (time : UnixTimestamp) (transition : Transition) :
    op.call time transition = Method.outcome op (op.transition time transition) := by
  cases transition with
  | beginResource r | beginResourceCompensation r =>
    exact Method.check_bind fun _ => Method.check_bind fun index => Method.guard_bind <|
      Method.check_bind fun _ => Method.advance_bind fun _ => rfl
  | completeResource r | completeResourceCompensation r =>
    exact Method.check_bind fun _ => Method.check_bind fun index =>
      Method.check_bind fun _ => Method.advance_bind fun _ => rfl
  | commit | finishCompensation =>
    exact Method.check_bind fun _ => Method.guard_bind <| Method.advance_bind fun _ => rfl
  | beginCompensation =>
    exact Method.check_bind fun _ => Method.advance_bind fun _ => rfl

end AppOperation

end Rumahl
