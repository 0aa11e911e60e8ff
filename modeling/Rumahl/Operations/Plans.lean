import Rumahl.Operations.Methods
import Rumahl.Operations.Progress

/-!
# Operations along their plans

Whatever is called on an operation in whatever order, the calls that succeed are the moves of its
plan: `AppOperation.step_of_transition` is the converse of `transition_of_step`. An operation that
was built by `new` or `for_app` and changed by calls is therefore always at one `Progress`
(`Reached.progress`), and what holds of every run can be read off the moves.
-/

namespace Rumahl

open Progress List Except

namespace Progress

theorem applying_eq_applied : (applying p).state i = .applied ↔ 2 * i + 2 ≤ p := by
  rw [state]
  split_ifs <;> simp [*]

theorem applying_eq_applying : (applying p).state i = .applying ↔ 2 * i + 1 = p := by
  rw [state]
  split_ifs <;> simp <;> omega

theorem applying_eq_pending : (applying p).state i = .pending ↔ p ≤ 2 * i := by
  rw [state]
  split_ifs <;> simp <;> omega

theorem compensating_eq_compensationPending :
    (compensating p q).state i = .compensationPending ↔ q + 1 < 2 * (begun p - i) := by
  rw [state]
  split_ifs <;> simp <;> omega

theorem compensating_eq_compensating :
    (compensating p q).state i = .compensating ↔ 2 * (begun p - i) = q + 1 := by
  rw [state]
  split_ifs <;> simp <;> omega

theorem compensating_eq_compensated :
    (compensating p q).state i = .compensated ↔ i < begun p ∧ 2 * (begun p - i) ≤ q := by
  rw [state]
  split_ifs <;> simp <;> omega

theorem compensating_eq_pending : (compensating p q).state i = .pending ↔ begun p ≤ i := by
  rw [state]
  split_ifs <;> simp <;> omega

end Progress

namespace AppOperation

/-! ## Calls that succeed -/

theorem requirePhase_eq_ok {op : AppOperation} : op.requirePhase ph = .ok () ↔ op.phase = ph := by
  rw [requirePhase]
  split <;> simp [*]

theorem le_of_advance {op : AppOperation} (h : op.advance t = .ok op') : op.updatedAt ≤ t := by
  rw [advance] at h
  split at h
  · cases h
  · next ht => exact UnixTimestamp.not_lt.mp ht

section Moves

variable {op op' : AppOperation} {plan : List AppOperationResource} {st : Progress}
  {u t : UnixTimestamp}

private theorem applying_of_phase (h : (op.moved plan st u).requirePhase .applying = .ok ()) :
    ∃ p, st = .applying p := by
  have h := requirePhase_eq_ok.mp h
  cases st with
  | applying p => exact ⟨p, rfl⟩
  | _ => cases h

private theorem compensating_of_phase
    (h : (op.moved plan st u).requirePhase .compensating = .ok ()) :
    ∃ p q, st = .compensating p q := by
  have h := requirePhase_eq_ok.mp h
  cases st with
  | compensating p q => exact ⟨p, q, rfl⟩
  | _ => cases h

theorem beginResource_move (hn : plan.Nodup)
    (h : (op.moved plan st u).beginResource r t = .ok op') :
    u ≤ t ∧ ∃ st', Progress.Step plan (.beginResource r) st st' := by
  obtain ⟨_, hphase, h⟩ := bind_eq_ok.mp h
  obtain ⟨p, rfl⟩ := applying_of_phase hphase
  obtain ⟨i, hi, h⟩ := bind_eq_ok.mp h
  have hr := (stepIndex_moved hn).mp hi
  have hlt := (List.getElem?_eq_some_iff.mp hr).1
  split at h
  · cases h
  next hearlier =>
  obtain ⟨_, hs, h⟩ := bind_eq_ok.mp h
  obtain ⟨_, ha, -⟩ := bind_eq_ok.mp h
  -- the steps in front are applied and this one is pending
  have hearlier := (op.any_take_moved (.applying p) u hlt.le).mp (Bool.eq_false_iff.mpr hearlier)
  have hpending := applying_eq_pending.mp ((requireResourceState_moved hr).mp hs)
  obtain rfl : p = 2 * i := by
    rcases Nat.eq_zero_or_pos i with rfl | hpos
    · omega
    · have := applying_eq_applied.mp (hearlier (i - 1) (by omega))
      omega
  exact ⟨le_of_advance ha, _, .beginResource hr⟩

theorem completeResource_move (hn : plan.Nodup)
    (h : (op.moved plan st u).completeResource r t = .ok op') :
    u ≤ t ∧ ∃ st', Progress.Step plan (.completeResource r) st st' := by
  obtain ⟨_, hphase, h⟩ := bind_eq_ok.mp h
  obtain ⟨p, rfl⟩ := applying_of_phase hphase
  obtain ⟨i, hi, h⟩ := bind_eq_ok.mp h
  have hr := (stepIndex_moved hn).mp hi
  obtain ⟨_, hs, h⟩ := bind_eq_ok.mp h
  obtain ⟨_, ha, -⟩ := bind_eq_ok.mp h
  obtain rfl := applying_eq_applying.mp ((requireResourceState_moved hr).mp hs)
  exact ⟨le_of_advance ha, _, .completeResource hr⟩

theorem commit_move (hne : plan ≠ []) (hst : st.Reachable plan.length)
    (h : (op.moved plan st u).commit t = .ok op') :
    u ≤ t ∧ ∃ st', Progress.Step plan .commit st st' := by
  obtain ⟨_, hphase, h⟩ := bind_eq_ok.mp h
  obtain ⟨p, rfl⟩ := applying_of_phase hphase
  split at h
  · cases h
  next hall =>
  obtain ⟨_, ha, -⟩ := bind_eq_ok.mp h
  have hall := (op.any_moved plan (.applying p) u (p := fun s => s ≠ .applied)).mp
    (Bool.eq_false_iff.mpr hall)
  have hpos := length_pos_iff.mpr hne
  have hlast : (applying p).state (plan.length - 1) = .applied := by
    simpa using hall (plan.length - 1) (by omega)
  obtain rfl : p = 2 * plan.length := by
    have := applying_eq_applied.mp hlast
    have : p ≤ 2 * plan.length := hst
    omega
  exact ⟨le_of_advance ha, _, .commit⟩

theorem beginCompensation_move (h : (op.moved plan st u).beginCompensation t = .ok op') :
    u ≤ t ∧ ∃ st', Progress.Step plan .beginCompensation st st' := by
  obtain ⟨_, hphase, h⟩ := bind_eq_ok.mp h
  obtain ⟨p, rfl⟩ := applying_of_phase hphase
  obtain ⟨_, ha, -⟩ := bind_eq_ok.mp h
  exact ⟨le_of_advance ha, _, .beginCompensation⟩

theorem beginResourceCompensation_move (hn : plan.Nodup) (hst : st.Reachable plan.length)
    (h : (op.moved plan st u).beginResourceCompensation r t = .ok op') :
    u ≤ t ∧ ∃ st', Progress.Step plan (.beginResourceCompensation r) st st' := by
  obtain ⟨_, hphase, h⟩ := bind_eq_ok.mp h
  obtain ⟨p, q, rfl⟩ := compensating_of_phase hphase
  obtain ⟨i, hi, h⟩ := bind_eq_ok.mp h
  have hr := (stepIndex_moved hn).mp hi
  split at h
  · cases h
  next hlater =>
  obtain ⟨_, hs, h⟩ := bind_eq_ok.mp h
  obtain ⟨_, ha, -⟩ := bind_eq_ok.mp h
  -- this step waits for its compensation and those behind it do not
  have hlater := (op.any_drop_moved plan (.compensating p q) u i
    (p := fun s => s = .compensationPending || s = .compensating)).mp (Bool.eq_false_iff.mpr hlater)
  have hwaits := compensating_eq_compensationPending.mp ((requireResourceState_moved hr).mp hs)
  have hbegun : begun p ≤ plan.length := by
    have : p ≤ 2 * plan.length := hst.1
    rw [begun]
    omega
  obtain rfl : q = 2 * (begun p - 1 - i) := by
    by_cases hb : i + 1 < begun p
    · have hnext := hlater (i + 1) (by omega) (by omega)
      rw [Bool.or_eq_false_iff, decide_eq_false_iff_not, decide_eq_false_iff_not,
        compensating_eq_compensationPending, compensating_eq_compensating] at hnext
      omega
    · omega
  exact ⟨le_of_advance ha, _, .beginResourceCompensation hr (by omega)⟩

theorem completeResourceCompensation_move (hn : plan.Nodup)
    (h : (op.moved plan st u).completeResourceCompensation r t = .ok op') :
    u ≤ t ∧ ∃ st', Progress.Step plan (.completeResourceCompensation r) st st' := by
  obtain ⟨_, hphase, h⟩ := bind_eq_ok.mp h
  obtain ⟨p, q, rfl⟩ := compensating_of_phase hphase
  obtain ⟨i, hi, h⟩ := bind_eq_ok.mp h
  have hr := (stepIndex_moved hn).mp hi
  obtain ⟨_, hs, h⟩ := bind_eq_ok.mp h
  obtain ⟨_, ha, -⟩ := bind_eq_ok.mp h
  have hbusy := compensating_eq_compensating.mp ((requireResourceState_moved hr).mp hs)
  obtain rfl : q = 2 * (begun p - 1 - i) + 1 := by omega
  exact ⟨le_of_advance ha, _, .completeResourceCompensation hr (by omega)⟩

theorem finishCompensation_move (hst : st.Reachable plan.length)
    (h : (op.moved plan st u).finishCompensation t = .ok op') :
    u ≤ t ∧ ∃ st', Progress.Step plan .finishCompensation st st' := by
  obtain ⟨_, hphase, h⟩ := bind_eq_ok.mp h
  obtain ⟨p, q, rfl⟩ := compensating_of_phase hphase
  split at h
  · cases h
  next hall =>
  obtain ⟨_, ha, -⟩ := bind_eq_ok.mp h
  have hall := (op.any_moved plan (.compensating p q) u
    (p := fun s => s ≠ .pending && s ≠ .compensated)).mp (Bool.eq_false_iff.mpr hall)
  obtain ⟨hp, hq⟩ : p ≤ 2 * plan.length ∧ q ≤ 2 * begun p := hst
  obtain rfl : q = 2 * begun p := by
    rcases Nat.eq_zero_or_pos (begun p) with hb | hb
    · omega
    · have hfirst := hall 0 (by rw [begun] at hb; omega)
      have hdone : (compensating p q).state 0 = .compensated := by
        have hne : (compensating p q).state 0 ≠ .pending := fun hp' => by
          have := compensating_eq_pending.mp hp'
          omega
        simpa [hne] using hfirst
      have := (compensating_eq_compensated.mp hdone).2
      omega
  exact ⟨le_of_advance ha, _, .finishCompensation⟩

/-- A call succeeds only as a move of the plan, at a time that is not before the last one. -/
theorem step_of_transition (hn : plan.Nodup) (hne : plan ≠ []) (hst : st.Reachable plan.length)
    (h : (op.moved plan st u).transition t tr = .ok op') :
    u ≤ t ∧ ∃ st', Progress.Step plan tr st st' ∧ op' = op.moved plan st' t := by
  have hmove : u ≤ t ∧ ∃ st', Progress.Step plan tr st st' := by
    cases tr with
    | beginResource r => exact beginResource_move hn h
    | completeResource r => exact completeResource_move hn h
    | commit => exact commit_move hne hst h
    | beginCompensation => exact beginCompensation_move h
    | beginResourceCompensation r => exact beginResourceCompensation_move hn hst h
    | completeResourceCompensation r => exact completeResourceCompensation_move hn h
    | finishCompensation => exact finishCompensation_move hst h
  obtain ⟨ht, st', hstep⟩ := hmove
  refine ⟨ht, st', hstep, ?_⟩
  rw [op.transition_of_step hn hst hstep ht] at h
  exact (Except.ok.inj h).symm

end Moves

/-! ## Plans that are accepted -/

theorem firstDuplicate_eq_none : firstDuplicate seen rs = none ↔ rs.Nodup ∧ ∀ r ∈ rs, r ∉ seen := by
  induction rs generalizing seen with
  | nil => simp [firstDuplicate]
  | cons r rs ih =>
    rw [firstDuplicate]
    split
    · next h => simp [h]
    · next h =>
      rw [ih, nodup_cons, forall_mem_cons]
      constructor
      · rintro ⟨hn, hr⟩
        exact ⟨⟨fun hm => hr r hm mem_cons_self, hn⟩, h,
          fun a ha hs => hr a ha (mem_cons_of_mem _ hs)⟩
      · rintro ⟨⟨hm, hn⟩, -, hs⟩
        refine ⟨hn, fun a ha hseen => ?_⟩
        rcases mem_cons.mp hseen with rfl | hseen
        · exact hm ha
        · exact hs a ha hseen

theorem validatePlan_congr {steps steps' : List AppOperationStep}
    (h : steps'.map AppOperationStep.resource = steps.map AppOperationStep.resource) :
    validatePlan steps' = validatePlan steps := by
  have hempty : steps'.isEmpty = steps.isEmpty := by
    rw [← isEmpty_map, h, isEmpty_map]
  have hlength : steps'.length = steps.length := by
    rw [← length_map, h, length_map]
  have hfind : ∀ l : List AppOperationStep,
      l.findIdx? (fun step => step.resource = .platformSnapshot) =
        (l.map AppOperationStep.resource).findIdx? (· = .platformSnapshot) := fun l => by
    rw [List.findIdx?_map]
    rfl
  rw [validatePlan, validatePlan, hempty, hlength, hfind, hfind, h]

theorem nodup_of_validatePlan {steps : List AppOperationStep} (h : validatePlan steps = .ok ()) :
    (steps.map AppOperationStep.resource).Nodup ∧ steps.map AppOperationStep.resource ≠ [] := by
  rw [validatePlan] at h
  split at h
  · cases h
  next hempty =>
  split at h
  · cases h
  next hdup =>
  refine ⟨(firstDuplicate_eq_none.mp hdup).1, fun hnil => hempty ?_⟩
  rw [map_eq_nil_iff.mp hnil]
  rfl

private theorem any_target {target : Option InstalledApp} :
    target.any (fun app => app.installationId ≠ i) = false ↔
      ∀ app ∈ target, app.installationId = i := by
  cases target <;> simp

theorem restoreWithTarget_ok_iff {op op' : AppOperation} :
    op.restoreWithTarget = .ok op' ↔ op' = op ∧ validatePlan op.steps = .ok () ∧
      op.startedAt ≤ op.updatedAt ∧ phaseMatchesSteps op.phase op.steps = true ∧
      ∀ app ∈ op.targetApp, app.installationId = op.installationId := by
  constructor
  · intro h
    obtain ⟨_, hv, h⟩ := bind_eq_ok.mp h
    dsimp only at h
    split at h
    · cases h
    next ht =>
    split at h
    · cases h
    next hp =>
    split at h
    · cases h
    next ha =>
    cases h
    exact ⟨rfl, hv, UnixTimestamp.not_lt.mp ht, by simpa using hp,
      any_target.mp (Bool.eq_false_iff.mpr ha)⟩
  · rintro ⟨rfl, hv, ht, hp, ha⟩
    simp only [restoreWithTarget, hv, ok_bind, UnixTimestamp.not_lt.mpr ht, hp, any_target.mpr ha]
    rfl

/-! ## Operations that were reached -/

/-- The operation a call leaves behind. -/
def Method.left : EStateM.Result AppOperationError AppOperation Unit → AppOperation
  | .ok _ op => op
  | .error _ op => op

/-- An operation that was built with a plan or for an app, and then called any number of times. -/
inductive Reached : AppOperation → Prop
  | new : AppOperation.new i installation k resources time = .ok op → Reached op
  | forApp : AppOperation.forApp i app k time = .ok op → Reached op
  | call (time : UnixTimestamp) (transition : Transition) :
      Reached op → Reached (Method.left (op.call time transition))

/-- The operation is at a progress along a plan that is accepted. -/
structure At (plan : List AppOperationResource) (st : Progress) (op : AppOperation) : Prop where
  valid : validatePlan (plan.map (⟨·, .pending⟩)) = .ok ()
  reachable : st.Reachable plan.length
  eq : op = op.moved plan st op.updatedAt
  times : op.startedAt ≤ op.updatedAt
  target : ∀ app ∈ op.targetApp, app.installationId = op.installationId

theorem map_pending (plan : List AppOperationResource) :
    plan.map (⟨·, .pending⟩) = (applying 0).steps 0 plan := by
  refine ext_getElem? fun k => ?_
  rw [steps_getElem?, List.getElem?_map]
  simp [state]

theorem new_eq_ok (h : new i installation k resources time = .ok op) :
    At resources (.applying 0) op ∧ op.installationId = installation ∧ op.targetApp = none := by
  obtain ⟨rfl, hvalid, -⟩ := restoreWithTarget_ok_iff.mp h
  refine ⟨⟨hvalid, Nat.zero_le _, ?_, UnixTimestamp.le_refl _, fun _ h => ?_⟩, rfl, rfl⟩
  · rw [moved, ← map_pending]
    rfl
  · simp at h

theorem forApp_eq_ok (h : forApp i app k time = .ok op) :
    At (resourcesFor app k) (.applying 0) op := by
  obtain ⟨op0, hnew, h⟩ := bind_eq_ok.mp h
  cases h
  obtain ⟨hat, hid, -⟩ := new_eq_ok hnew
  refine ⟨hat.valid, hat.reachable, ?_, hat.times, fun a ha => ?_⟩
  · have heq := hat.eq
    simp only [moved] at heq ⊢
    rw [heq]
  · cases ha
    exact hid.symm

namespace At

variable {plan : List AppOperationResource} {st : Progress} {op op' : AppOperation}

section

variable (h : At plan st op)
include h

theorem nodup : plan.Nodup := by
  simpa [Function.comp_def] using (nodup_of_validatePlan h.valid).1

theorem ne_nil : plan ≠ [] := by
  simpa using (nodup_of_validatePlan h.valid).2

theorem steps : op.steps = st.steps 0 plan :=
  congrArg AppOperation.steps h.eq

theorem phase : op.phase = st.phase :=
  congrArg AppOperation.phase h.eq

theorem revision : op.revision = st.revision plan.length :=
  congrArg AppOperation.revision h.eq

theorem transition (ht : op.transition t tr = .ok op') :
    op.updatedAt ≤ t ∧ ∃ st', Progress.Step plan tr st st' ∧ At plan st' op' := by
  have hmoved := ht
  rw [h.eq] at hmoved
  obtain ⟨hle, st', hstep, heq⟩ := step_of_transition h.nodup h.ne_nil h.reachable hmoved
  have hprec := transition_precedes ht
  have hupd := transition_updatedAt ht
  refine ⟨hle, st', hstep, h.valid, hstep.reachable h.reachable, ?_, ?_, ?_⟩
  · rw [hupd, heq]
    rfl
  · rw [hprec.startedAt, hupd]
    exact UnixTimestamp.le_trans h.times hle
  · rw [hprec.targetApp, hprec.installationId]
    exact h.target

/-- A move can be made at every time that is not before the last one. -/
theorem call_of_step (hstep : Progress.Step plan tr st st') (ht : op.updatedAt ≤ t) :
    ∃ op', op.call t tr = .ok () op' ∧ At plan st' op' := by
  have htr := op.transition_of_step h.nodup h.reachable hstep ht
  rw [← h.eq] at htr
  obtain ⟨-, st'', hstep', hat⟩ := h.transition htr
  refine ⟨op.moved plan st' t, by rw [call_eq, htr]; rfl, hat.valid,
    hstep.reachable h.reachable, rfl, hat.times, hat.target⟩

theorem call_ok (hc : op.call t tr = .ok () op') :
    op.updatedAt ≤ t ∧ ∃ st', Progress.Step plan tr st st' ∧ At plan st' op' := by
  rw [call_eq] at hc
  cases htr : op.transition t tr with
  | error e => rw [htr] at hc; cases hc
  | ok op1 =>
    rw [htr] at hc
    cases hc
    exact h.transition htr

end

end At

/-- A call that fails leaves the operation as it was; one that succeeds raises its revision by
one. -/
theorem call_cases (op : AppOperation) (t : UnixTimestamp) (tr : Transition) :
    (∃ e, op.call t tr = .error e op) ∨
      ∃ op', op.call t tr = .ok () op' ∧ op.transition t tr = .ok op' ∧ op.Precedes op' := by
  rw [call_eq]
  cases htr : op.transition t tr with
  | error e => exact .inl ⟨e, rfl⟩
  | ok op' => exact .inr ⟨op', rfl, rfl, transition_precedes htr⟩

theorem Reached.progress (h : Reached op) : ∃ plan st, At plan st op := by
  induction h with
  | new hnew => exact ⟨_, _, (new_eq_ok hnew).1⟩
  | forApp happ => exact ⟨_, _, forApp_eq_ok happ⟩
  | @call op t tr _ ih =>
    obtain ⟨plan, st, hat⟩ := ih
    rcases op.call_cases t tr with ⟨e, he⟩ | ⟨op', hok, -⟩
    · rw [he]
      exact ⟨plan, st, hat⟩
    · rw [hok]
      obtain ⟨-, st', -, hat'⟩ := hat.call_ok hok
      exact ⟨plan, st', hat'⟩

/-! ## What was reached can be restored -/

/-- Ranks that never fall, with one at most once, pass the scan. -/
private theorem ranksOrdered_steps {st : Progress} {f : Nat → Nat}
    (hrank : ∀ i, rank (st.state i) = some (f i)) (hmono : ∀ i, f i ≤ f (i + 1))
    (hone : ∀ i, f i = 1 → f (i + 1) ≠ 1) (rs : List AppOperationResource) (hlast : last ≤ f i)
    (hbusy : busy = 0 ∨ busy = 1 ∧ 2 ≤ f i) :
    ranksOrdered rank (st.steps i rs) last busy = true := by
  induction rs generalizing i last busy with
  | nil => rfl
  | cons r rs ih =>
    have hm := hmono i
    have h1 := hone i
    rw [Progress.steps, ranksOrdered]
    simp only [hrank]
    by_cases hf : f i = 1
    · have hnext : ranksOrdered rank (st.steps (i + 1) rs) 1 (busy + 1) = true :=
        ih (by omega) (by omega)
      simp only [hf, if_true, hnext]
      simp
      omega
    · have hnext : ranksOrdered rank (st.steps (i + 1) rs) (f i) busy = true :=
        ih hm (by omega)
      simp only [hf, if_false, hnext]
      simp
      omega

private theorem compensated_steps (p : Nat) (rs : List AppOperationResource) (i : Nat)
    (seen : Bool) (h : seen = true → begun p ≤ i) :
    compensatedStepsAreOrdered ((compensated p).steps i rs) seen = true := by
  induction rs generalizing i seen with
  | nil => rfl
  | cons r rs ih =>
    rw [Progress.steps, compensatedStepsAreOrdered]
    by_cases hi : i < begun p
    · have hseen : seen = false := by
        cases seen with
        | false => rfl
        | true => exact absurd (h rfl) (by omega)
      simp [state, hi, hseen, ih (i + 1) false (by simp)]
    · simp [state, hi, ih (i + 1) true fun _ => by omega]

theorem phaseMatchesSteps_progress (st : Progress) (plan : List AppOperationResource) :
    phaseMatchesSteps st.phase (st.steps 0 plan) = true := by
  cases st with
  | applying p =>
    refine ranksOrdered_steps (f := fun i => if 2 * i + 2 ≤ p then 0 else if 2 * i + 1 = p then 1
      else 2) (fun i => ?_) (fun i => ?_) (fun i => ?_) plan (Nat.zero_le _) (.inl rfl)
    · rw [state]
      split_ifs <;> rfl
    · split_ifs <;> omega
    · intro hbusy
      split_ifs at hbusy ⊢ <;> omega
  | committed =>
    rw [Progress.phase, phaseMatchesSteps, all_eq_true]
    intro step hstep
    obtain ⟨k, r, -, rfl⟩ := Progress.mem_steps.mp hstep
    rfl
  | compensating p q =>
    refine ranksOrdered_steps (f := fun i => if begun p ≤ i then 3
      else if 2 * (begun p - i) ≤ q then 2
      else if 2 * (begun p - i) = q + 1 then 1 else 0)
      (fun i => ?_) (fun i => ?_) (fun i => ?_) plan (Nat.zero_le _) (.inl rfl)
    · rw [state]
      split_ifs <;> rfl
    · split_ifs <;> omega
    · intro hbusy
      split_ifs at hbusy ⊢ <;> omega
  | compensated p => exact compensated_steps p plan 0 false (by simp)

theorem At.restores (h : At plan st op) : op.restoreWithTarget = .ok op := by
  refine restoreWithTarget_ok_iff.mpr ⟨rfl, ?_, h.times, ?_, h.target⟩
  · rw [← h.valid, h.steps]
    exact validatePlan_congr (by simp [Function.comp_def])
  · rw [h.phase, h.steps]
    exact phaseMatchesSteps_progress st plan

/-! ## Every run ends -/

/-- The calls all succeed, one after the other, and end in the operation. -/
def run (op : AppOperation) : List (UnixTimestamp × Transition) → Option AppOperation
  | [] => some op
  | (time, transition) :: calls =>
    match op.call time transition with
    | .ok _ op' => run op' calls
    | .error _ _ => none

theorem Progress.revision_le (h : st.Reachable n) : Progress.revision n st ≤ 4 * n + 2 := by
  cases st <;> simp only [Progress.Reachable, Progress.revision, begun] at h ⊢ <;> omega

theorem run_append (h : run op calls = some op') : run op (calls ++ more) = run op' more := by
  induction calls generalizing op with
  | nil =>
    cases h
    rfl
  | cons c calls ih =>
    rw [cons_append, run]
    rw [run] at h
    split at h
    · exact ih h
    · cases h

theorem run_revision (h : run op calls = some op') : op'.revision = op.revision + calls.length := by
  induction calls generalizing op with
  | nil =>
    cases h
    rfl
  | cons c calls ih =>
    rw [run] at h
    rcases op.call_cases c.1 c.2 with ⟨e, he⟩ | ⟨op1, hok, -, hprec⟩
    · rw [he] at h
      cases h
    · rw [hok] at h
      rw [ih h, hprec.revision, length_cons]
      omega

theorem At.run (hat : At plan st op) (h : run op calls = some op') : ∃ st', At plan st' op' := by
  induction calls generalizing op st with
  | nil =>
    cases h
    exact ⟨st, hat⟩
  | cons c calls ih =>
    rw [AppOperation.run] at h
    split at h
    · next hok =>
      obtain ⟨-, st1, -, hat1⟩ := hat.call_ok hok
      exact ih hat1 h
    · cases h

/-- As long as an operation is not at its end there is a move to make. -/
theorem At.exists_step (h : At plan st op) (hend : op.isTerminal = false) :
    ∃ tr st', Progress.Step plan tr st st' := by
  rw [isTerminal, h.phase] at hend
  cases st with
  | applying p => exact ⟨_, _, .beginCompensation⟩
  | committed => cases hend
  | compensated p => cases hend
  | compensating p q =>
    obtain ⟨hp, hq⟩ : p ≤ 2 * plan.length ∧ q ≤ 2 * begun p := h.reachable
    have hbegun : begun p ≤ plan.length := by
      rw [begun]
      omega
    rcases Nat.lt_or_eq_of_le hq with hq | rfl
    · -- the next resource to undo is `q / 2` in front of the last one begun
      have hi : begun p - 1 - q / 2 < plan.length := by omega
      have hr := List.getElem?_eq_getElem hi
      rcases Nat.even_or_odd' q with ⟨c, rfl | rfl⟩
      · have hstep := Progress.Step.beginResourceCompensation (p := p) hr (by omega)
        rw [show 2 * (begun p - 1 - (begun p - 1 - 2 * c / 2)) = 2 * c by omega] at hstep
        exact ⟨_, _, hstep⟩
      · have hstep := Progress.Step.completeResourceCompensation (p := p) hr (by omega)
        rw [show 2 * (begun p - 1 - (begun p - 1 - (2 * c + 1) / 2)) + 1 =
          2 * c + 1 by omega] at hstep
        exact ⟨_, _, hstep⟩
    · exact ⟨_, _, .finishCompensation⟩

theorem At.not_step_of_terminal (h : At plan st op) (hend : op.isTerminal = true) :
    ¬Progress.Step plan tr st st' := by
  rw [isTerminal, h.phase] at hend
  intro hstep
  cases hstep <;> cases hend

/-- The operation was built with a plan of `n` resources. -/
def Built (n : Nat) (op : AppOperation) : Prop :=
  (∃ id installationId kind resources time,
    new id installationId kind resources time = .ok op ∧ resources.length = n) ∨
  ∃ id app kind time, forApp id app kind time = .ok op ∧ (resourcesFor app kind).length = n

theorem Built.at (h : Built n op) : ∃ plan, At plan (.applying 0) op ∧ plan.length = n := by
  rcases h with ⟨_, _, _, _, _, hnew, hlen⟩ | ⟨_, _, _, _, happ, hlen⟩
  · exact ⟨_, (new_eq_ok hnew).1, hlen⟩
  · exact ⟨_, forApp_eq_ok happ, hlen⟩

/-- An operation that is not at its end has a transition that every later time allows, one at its
end has none; a run of successful transitions of an operation with `n` resources has at most
`4 * n + 2` of them and can be extended until it ends. A call that fails changes nothing, one that
succeeds raises the revision by one. -/
theorem operation_progress : (∀ op, Reached op → op.isTerminal = false →
      ∃ tr, ∀ t, op.updatedAt ≤ t → ∃ op', op.call t tr = .ok () op') ∧
    (∀ n op, Built n op → ∀ calls op', run op calls = some op' → calls.length ≤ 4 * n + 2 ∧
      ((∀ t tr, op'.updatedAt ≤ t → run op (calls ++ [(t, tr)]) = none) →
        op'.phase = .committed ∨ op'.phase = .compensated)) ∧
    (∀ op, Reached op → op.isTerminal = true → ∀ t tr, ∃ e, op.call t tr = .error e op) ∧
    ∀ (op : AppOperation) t tr, (∀ e op', op.call t tr = .error e op' → op' = op) ∧
      ∀ op', op.call t tr = .ok () op' → op'.revision = op.revision + 1 := by
  have hnext : ∀ plan st op, At plan st op → op.isTerminal = false →
      ∃ tr, ∀ t, op.updatedAt ≤ t → ∃ op', op.call t tr = .ok () op' := by
    intro plan st op hat hend
    obtain ⟨tr, st', hstep⟩ := hat.exists_step hend
    refine ⟨tr, fun t ht => ?_⟩
    obtain ⟨op', hok, -⟩ := hat.call_of_step hstep ht
    exact ⟨op', hok⟩
  refine ⟨fun op hr hend => ?_, fun n op hb calls op' hrun => ?_, fun op hr hend t tr => ?_,
    fun op t tr => ⟨fun e op' he => ?_, fun op' hok => ?_⟩⟩
  · obtain ⟨plan, st, hat⟩ := hr.progress
    exact hnext plan st op hat hend
  · obtain ⟨plan, hat, rfl⟩ := hb.at
    obtain ⟨st', hat'⟩ := hat.run hrun
    have hrev := run_revision hrun
    rw [hat.revision, hat'.revision] at hrev
    have hle := Progress.revision_le hat'.reachable
    have hzero : (applying 0).revision plan.length = 0 := rfl
    refine ⟨by omega, fun hmax => ?_⟩
    by_contra hphase
    obtain ⟨tr, hok⟩ := hnext plan st' op' hat' (by simpa [isTerminal] using hphase)
    obtain ⟨op'', hok⟩ := hok op'.updatedAt (UnixTimestamp.le_refl _)
    have hnone := hmax op'.updatedAt tr (UnixTimestamp.le_refl _)
    rw [run_append hrun, run, hok] at hnone
    cases hnone
  · obtain ⟨plan, st, hat⟩ := hr.progress
    rcases op.call_cases t tr with he | ⟨op', hok, -⟩
    · exact he
    · obtain ⟨-, st', hstep, -⟩ := hat.call_ok hok
      exact absurd hstep (hat.not_step_of_terminal hend)
  · rcases op.call_cases t tr with ⟨e', he'⟩ | ⟨op1, hok, -⟩
    · rw [he'] at he
      cases he
      rfl
    · rw [hok] at he
      cases he
  · rcases op.call_cases t tr with ⟨e', he'⟩ | ⟨op1, hok1, -, hprec⟩
    · rw [he'] at hok
      cases hok
    · rw [hok1] at hok
      cases hok
      exact hprec.revision

/-- The notes app under an installation of its own. -/
def notesApp : InstalledApp where
  identity := ⟨AppManifest.notes.appId, ⟨2⟩, AppManifest.notes.publisherId⟩
  manifest := .notes
  valid := by rfl
  appId_eq := rfl
  publisherId_eq := rfl

def notesPlan : List AppOperationResource :=
  [.runtimeInstance, .runtimeActivation, .platformSnapshot]

/-- The install of the notes app. -/
def notesInstall : AppOperation where
  id := ⟨1⟩
  installationId := ⟨2⟩
  kind := .install
  phase := .applying
  steps := notesPlan.map (⟨·, .pending⟩)
  revision := 0
  startedAt := ⟨5⟩
  updatedAt := ⟨5⟩
  targetApp := some notesApp

theorem notesInstall_eq : forApp ⟨1⟩ notesApp .install ⟨5⟩ = .ok notesInstall := rfl

/-- One resource is applied, a second one is begun and a third one is pending. -/
def notesBegun : AppOperation := notesInstall.moved notesPlan (.applying 3) ⟨6⟩

theorem notesBegun_reached : Reached notesBegun :=
  .call ⟨6⟩ (.beginResource .runtimeActivation) (.call ⟨6⟩ (.completeResource .runtimeInstance)
    (.call ⟨6⟩ (.beginResource .runtimeInstance) (.forApp notesInstall_eq)))

theorem notesBegun_moves : ∃ tr op', notesBegun.call ⟨7⟩ tr = .ok () op' := by
  obtain ⟨tr, h⟩ := operation_progress.1 notesBegun notesBegun_reached rfl
  exact ⟨tr, h ⟨7⟩ (by decide)⟩

end AppOperation

end Rumahl
