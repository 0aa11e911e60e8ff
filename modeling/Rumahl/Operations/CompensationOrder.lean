import Rumahl.Operations.Plans

/-!
# The order of compensation

An operation that turns back undoes what it has begun, the last resource first. Each call checks
only the steps behind its own, so the order is a property of whole runs: `Undone` gives the
resources whose compensation has been begun at every progress, `Undone.step` keeps it for one call,
and `compensation_order` draws the conclusion for whatever is called, in whatever order, from the
moment on at which an operation turns back.
-/

namespace Rumahl

open Progress List

/-- The resource whose compensation the transition begins. -/
def Transition.undoes : Transition → List AppOperationResource
  | .beginResourceCompensation r => [r]
  | _ => []

namespace AppOperation

/-- The resources that have been begun, in the order of the plan. -/
def begunResources (op : AppOperation) : List AppOperationResource :=
  (op.steps.filter fun step => step.state = .applying || step.state = .applied).map
    AppOperationStep.resource

/-- Calls one after the other, whether they succeed or fail: the operation that they leave behind,
and the resources that have passed `begin_resource_compensation`, in this order. -/
def continued (op : AppOperation) :
    List (UnixTimestamp × Transition) → AppOperation × List AppOperationResource
  | [] => (op, [])
  | (time, transition) :: calls =>
    match op.call time transition with
    | .ok _ op' => ((continued op' calls).1, transition.undoes ++ (continued op' calls).2)
    | .error _ op' => continued op' calls

/-! ## What has been undone -/

/-- An operation that was turned back at `p` has begun to undo these resources. -/
inductive Undone (plan : List AppOperationResource) (p : Nat) :
    Progress → List AppOperationResource → Prop
  | compensating : Undone plan p (.compensating p q)
      ((plan.take (Progress.begun p)).reverse.take ((q + 1) / 2))
  | compensated : Undone plan p (.compensated p) (plan.take (Progress.begun p)).reverse

namespace Undone

variable {plan : List AppOperationResource} {p : Nat} {st st' : Progress}
  {passed : List AppOperationResource}

private theorem begun_le (hp : p ≤ 2 * plan.length) : begun p ≤ plan.length := by
  rw [begun]
  omega

/-- The next resource is the one in front of those already passed. -/
private theorem reverse_getElem? (hi : i < b) (hb : b ≤ plan.length) :
    (plan.take b).reverse[b - 1 - i]? = plan[i]? := by
  rw [List.getElem?_reverse (by simp; omega), length_take, Nat.min_eq_left hb,
    List.getElem?_take_of_lt (by omega), show b - 1 - (b - 1 - i) = i by omega]

section

variable (h : Undone plan p st passed)
include h

theorem step (hp : p ≤ 2 * plan.length) (hstep : Progress.Step plan tr st st') :
    Undone plan p st' (passed ++ tr.undoes) := by
  have hb := begun_le hp
  cases h with
  | compensated => cases hstep
  | compensating =>
    cases hstep with
    | @beginResourceCompensation i r _ hr hi =>
      have hnext : ((plan.take (begun p)).reverse.take ((2 * (begun p - 1 - i) + 1) / 2)) ++ [r] =
          (plan.take (begun p)).reverse.take ((2 * (begun p - 1 - i) + 1 + 1) / 2) := by
        rw [show (2 * (begun p - 1 - i) + 1) / 2 = begun p - 1 - i by omega,
          show (2 * (begun p - 1 - i) + 1 + 1) / 2 = begun p - 1 - i + 1 by omega,
          take_add_one, reverse_getElem? hi hb, hr, Option.toList_some]
      rw [show Transition.undoes (.beginResourceCompensation r) = [r] from rfl, hnext]
      exact .compensating
    | @completeResourceCompensation i r _ hr hi =>
      rw [show Transition.undoes (.completeResourceCompensation r) = [] from rfl, append_nil,
        show (2 * (begun p - 1 - i) + 1 + 1) / 2 = (2 * (begun p - 1 - i) + 2 + 1) / 2 by omega]
      exact .compensating
    | finishCompensation =>
      rw [show Transition.undoes .finishCompensation = [] from rfl, append_nil,
        take_of_length_le (by simp; omega)]
      exact .compensated

theorem isPrefix : passed <+: (plan.take (begun p)).reverse := by
  cases h with
  | compensating => exact take_prefix _ _
  | compensated => exact prefix_rfl

theorem phase : st.phase = .compensating ∨ st.phase = .compensated := by
  cases h with
  | compensating => exact .inl rfl
  | compensated => exact .inr rfl

theorem pending (hk : begun p ≤ k) : st.state k = .pending := by
  cases h with
  | compensating => exact compensating_pending hk
  | compensated => rw [state, if_neg (by omega)]

end

/-- Everything that was begun is undone. -/
def Complete (p : Nat) (st : Progress) : Prop :=
  ∀ k < Progress.begun p, st.state k = .compensated

theorem eq_of_complete (h : Undone plan p st passed) (hc : Complete p st) :
    passed = (plan.take (begun p)).reverse := by
  cases h with
  | compensated => rfl
  | @compensating q =>
    refine take_of_length_le ?_
    rcases Nat.eq_zero_or_pos (begun p) with hb | hb
    · simp [hb]
    · have := (compensating_eq_compensated.mp (hc 0 hb)).2
      rw [length_reverse, length_take]
      omega

theorem finish_iff (h : Undone plan p st passed) (hst : st.Reachable plan.length) :
    (∃ st', Progress.Step plan .finishCompensation st st') ↔
      st.phase = .compensating ∧ Complete p st := by
  cases h with
  | compensated => exact ⟨fun ⟨_, hstep⟩ => (nomatch hstep), fun h => (nomatch h.1)⟩
  | @compensating q =>
    constructor
    · rintro ⟨_, hstep⟩
      cases hstep
      exact ⟨rfl, fun k hk => compensating_compensated hk (by omega)⟩
    · rintro ⟨-, hc⟩
      obtain ⟨hp, hq⟩ : p ≤ 2 * plan.length ∧ q ≤ 2 * begun p := hst
      obtain rfl : q = 2 * begun p := by
        rcases Nat.eq_zero_or_pos (begun p) with hb | hb
        · omega
        · have := (compensating_eq_compensated.mp (hc 0 hb)).2
          omega
      exact ⟨_, .finishCompensation⟩

end Undone

theorem At.continued (hat : At plan st op) (hp : p ≤ 2 * plan.length)
    (h : Undone plan p st passed) (calls : List (UnixTimestamp × Transition)) :
    ∃ st', At plan st' (op.continued calls).1 ∧
      Undone plan p st' (passed ++ (op.continued calls).2) := by
  induction calls generalizing op st passed with
  | nil => exact ⟨st, hat, by simpa [AppOperation.continued] using h⟩
  | cons c calls ih =>
    obtain ⟨t, tr⟩ := c
    rw [AppOperation.continued]
    rcases op.call_cases t tr with ⟨e, he⟩ | ⟨op', hok, -⟩
    · rw [he]
      exact ih hat h
    · rw [hok]
      obtain ⟨-, st', hstep, hat'⟩ := hat.call_ok hok
      obtain ⟨st'', hat'', h''⟩ := ih hat' (h.step hp hstep)
      exact ⟨st'', hat'', by simpa using h''⟩

/-! ## What had been begun -/

theorem At.begunResources (h : At plan (.applying p) op) :
    op.begunResources = plan.take (begun p) := by
  rw [AppOperation.begunResources, h.steps]
  exact filter_begun (f := fun s => s = .applying || s = .applied) rfl rfl rfl p 0 plan

theorem At.mem_steps (h : At plan st op) :
    step ∈ op.steps ↔ ∃ k, plan[k]? = some step.resource ∧ step.state = st.state k := by
  rw [h.steps, Progress.mem_steps]
  constructor
  · rintro ⟨k, r, hr, rfl⟩
    exact ⟨k, hr, rfl⟩
  · rintro ⟨k, hr, hs⟩
    exact ⟨k, _, hr, by rw [← hs]⟩

theorem At.complete_iff (h : At plan st op) (hp : p ≤ 2 * plan.length) :
    (∀ r ∈ plan.take (begun p), (⟨r, .compensated⟩ : AppOperationStep) ∈ op.steps) ↔
      Undone.Complete p st := by
  have hb : begun p ≤ plan.length := by
    rw [begun]
    omega
  constructor
  · intro hall k hk
    have hlt : k < plan.length := by omega
    have hmem : plan[k] ∈ plan.take (begun p) :=
      mem_iff_getElem?.mpr ⟨k, by
        rw [List.getElem?_take_of_lt hk, List.getElem?_eq_getElem hlt]⟩
    obtain ⟨k', hk', hs⟩ := h.mem_steps.mp (hall _ hmem)
    obtain ⟨hlt', he⟩ := List.getElem?_eq_some_iff.mp hk'
    obtain rfl := (h.nodup.getElem_inj_iff).mp he
    exact hs.symm
  · intro hc r hr
    obtain ⟨k, hk⟩ := mem_iff_getElem?.mp hr
    rw [List.getElem?_take] at hk
    split at hk
    · next hlt => exact h.mem_steps.mpr ⟨k, hk, (hc k hlt).symm⟩
    · cases hk

/-- From the moment on at which an operation turns back, whatever is called in whatever order: the
resources that pass `begin_resource_compensation` are those that had been begun, each once, the last
one first, and all of them by the time the compensation is complete. Resources that had not been
begun stay pending. The compensation can be finished, once, exactly when every resource that had
been begun is compensated. -/
theorem compensation_order (hr : Reached op) (hb : op.call t0 .beginCompensation = .ok () op1)
    (calls : List (UnixTimestamp × Transition)) :
    (op1.continued calls).2 <+: op.begunResources.reverse ∧
    (op1.continued calls).2.Nodup ∧
    ((∀ r ∈ op.begunResources,
        (⟨r, .compensated⟩ : AppOperationStep) ∈ (op1.continued calls).1.steps) →
      (op1.continued calls).2 = op.begunResources.reverse) ∧
    (∀ step ∈ op.steps, step.state = .pending → step ∈ (op1.continued calls).1.steps) ∧
    ((op1.continued calls).1.phase = .compensating ∨ (op1.continued calls).1.phase = .compensated) ∧
    ∀ t, (op1.continued calls).1.updatedAt ≤ t →
      ((∃ op', (op1.continued calls).1.call t .finishCompensation = .ok () op') ↔
        (op1.continued calls).1.phase = .compensating ∧ ∀ r ∈ op.begunResources,
          (⟨r, .compensated⟩ : AppOperationStep) ∈ (op1.continued calls).1.steps) := by
  obtain ⟨plan, st, hat⟩ := hr.progress
  obtain ⟨-, st1, hstep, hat1⟩ := hat.call_ok hb
  cases hstep with
  | @beginCompensation p =>
  have hp : p ≤ 2 * plan.length := hat.reachable
  have hstart : Undone plan p (.compensating p 0) [] := .compensating
  obtain ⟨st', hat', h'⟩ := hat1.continued hp hstart calls
  rw [nil_append] at h'
  rw [hat.begunResources, hat'.complete_iff hp]
  refine ⟨h'.isPrefix, ?_, h'.eq_of_complete, fun step hstep hpending => ?_,
    hat'.phase ▸ h'.phase, fun t ht => ?_⟩
  · exact (h'.isPrefix.sublist.nodup (nodup_reverse.mpr (hat.nodup.sublist (take_sublist _ _))))
  · obtain ⟨k, hk, hs⟩ := hat.mem_steps.mp hstep
    have hidle := Progress.applying_eq_pending.mp (hs.symm.trans hpending)
    refine hat'.mem_steps.mpr ⟨k, hk, ?_⟩
    rw [hpending, h'.pending (by rw [Progress.begun]; omega)]
  · rw [hat'.phase, ← h'.finish_iff hat'.reachable]
    constructor
    · rintro ⟨op', hok⟩
      obtain ⟨-, st'', hstep, -⟩ := hat'.call_ok hok
      exact ⟨st'', hstep⟩
    · rintro ⟨st'', hstep⟩
      obtain ⟨op', hok, -⟩ := hat'.call_of_step hstep ht
      exact ⟨op', hok⟩

/-- The install turns back with two of its three resources begun. -/
def notesTurned : AppOperation := notesInstall.moved notesPlan (.compensating 3 0) ⟨6⟩

/-- Both are compensated. -/
def notesUndoing : List (UnixTimestamp × Transition) :=
  [(⟨6⟩, .beginResourceCompensation .runtimeActivation),
    (⟨7⟩, .completeResourceCompensation .runtimeActivation),
    (⟨7⟩, .beginResourceCompensation .runtimeInstance),
    (⟨7⟩, .completeResourceCompensation .runtimeInstance)]

theorem notes_undone : (notesTurned.continued notesUndoing).2 = notesBegun.begunResources.reverse :=
  (compensation_order notesBegun_reached (show notesBegun.call ⟨6⟩ .beginCompensation =
    .ok () notesTurned from rfl) _).2.2.1 (by decide)

/-- Everything is compensated, but a compensation that was finished is not finished again. -/
theorem finished_not_finished_again :
    ∃ op op1 calls, Reached op ∧ op.call ⟨6⟩ .beginCompensation = .ok () op1 ∧
      (∀ r ∈ op.begunResources,
        (⟨r, .compensated⟩ : AppOperationStep) ∈ (op1.continued calls).1.steps) ∧
      (op1.continued calls).1.updatedAt ≤ ⟨8⟩ ∧
      ∀ op', (op1.continued calls).1.call ⟨8⟩ .finishCompensation ≠ .ok () op' := by
  refine ⟨notesBegun, notesTurned, notesUndoing ++ [(⟨7⟩, .finishCompensation)],
    notesBegun_reached, rfl, by decide, by decide, fun op' h => ?_⟩
  cases h

end AppOperation

end Rumahl
