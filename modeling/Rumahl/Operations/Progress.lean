import Rumahl.Operations.Operation

/-!
# The states of an operation along a run

An operation starts with every step pending and is only changed by transitions in plan order, so
its state is a `Header` that never changes together with a `Progress`: how many half steps of the
plan are done, and how many of them are undone again. `Header.operation` is the operation with
that progress. Each transition of the runner moves the progress by one; the theorems
`Header.beginResource`, ..., `Header.finishCompensation` are those moves.
-/

open List Except

namespace Rumahl

open AppOperation

/-- The part of an operation that no transition changes. -/
structure Header where
  id : AppOperationId
  kind : AppOperationKind
  startedAt : UnixTimestamp
  app : InstalledApp

/-- How far an operation is: `applying p` has made `p` transitions on its steps, two for each;
`compensating p q` was turned back at `p` and has made `q` transitions since. -/
inductive Progress where
  | applying (p : Nat)
  | committed
  | compensating (p q : Nat)
  | compensated (p : Nat)

open Progress

namespace Progress

/-- The number of steps that `p` transitions have begun. -/
def begun (p : Nat) : Nat := (p + 1) / 2

def phase : Progress → AppOperationPhase
  | applying _ => .applying
  | committed => .committed
  | compensating _ _ => .compensating
  | compensated _ => .compensated

/-- The state of the step with index `i`. -/
def state : Progress → Nat → AppOperationResourceState
  | applying p, i =>
    if 2 * i + 2 ≤ p then .applied else if 2 * i + 1 = p then .applying else .pending
  | committed, _ => .applied
  | compensating p q, i =>
    if begun p ≤ i then .pending
    else if 2 * (begun p - i) ≤ q then .compensated
    else if 2 * (begun p - i) = q + 1 then .compensating
    else .compensationPending
  | compensated p, i => if i < begun p then .compensated else .pending

theorem applying_applied (h : 2 * i + 2 ≤ p) : (applying p).state i = .applied := by
  rw [state, if_pos h]

theorem applying_applying (i : Nat) : (applying (2 * i + 1)).state i = .applying := by
  rw [state, if_neg (by omega), if_pos rfl]

theorem applying_pending (h : p ≤ 2 * i) : (applying p).state i = .pending := by
  rw [state, if_neg (by omega), if_neg (by omega)]

theorem applying_congr (h : p / 2 ≠ k) : (applying p).state k = (applying (p + 1)).state k := by
  rcases Nat.lt_or_gt_of_ne h with h | h
  · rw [applying_pending (by omega), applying_pending (by omega)]
  · rw [applying_applied (by omega), applying_applied (by omega)]

theorem compensating_pending (h : begun p ≤ i) : (compensating p q).state i = .pending := by
  rw [state, if_pos h]

theorem compensating_compensated (hi : i < begun p) (h : 2 * (begun p - i) ≤ q) :
    (compensating p q).state i = .compensated := by
  rw [state, if_neg (by omega), if_pos h]

theorem compensating_compensating (hi : i < begun p) (h : 2 * (begun p - i) = q + 1) :
    (compensating p q).state i = .compensating := by
  rw [state, if_neg (by omega), if_neg (by omega), if_pos h]

theorem compensating_compensationPending (h : q + 1 < 2 * (begun p - i)) :
    (compensating p q).state i = .compensationPending := by
  rw [state, if_neg (by omega), if_neg (by omega), if_neg (by omega)]

theorem compensating_congr (h : begun p - 1 - q / 2 ≠ k) (hq : q < 2 * begun p) :
    (compensating p q).state k = (compensating p (q + 1)).state k := by
  by_cases hk : begun p ≤ k
  · rw [compensating_pending hk, compensating_pending hk]
  rcases Nat.lt_or_gt_of_ne h with h | h
  · rw [compensating_compensated (by omega) (by omega),
      compensating_compensated (by omega) (by omega)]
  · rw [compensating_compensationPending (by omega), compensating_compensationPending (by omega)]

/-- Turning back leaves what was not begun pending and marks the rest. -/
theorem compensationState_applying (p k : Nat) :
    compensationState ((applying p).state k) = (compensating p 0).state k := by
  rcases Nat.lt_trichotomy (2 * k + 1) p with h | h | h
  · rw [applying_applied (by omega), compensating_compensationPending (by rw [begun]; omega)]
    rfl
  · subst h
    rw [applying_applying, compensating_compensationPending (by rw [begun]; omega)]
    rfl
  · rw [applying_pending (by omega), compensating_pending (by rw [begun]; omega)]
    rfl

/-- The number of transitions made, for a plan of `n` steps. -/
def revision (n : Nat) : Progress → Nat
  | applying p => p
  | committed => 2 * n + 1
  | compensating p q => p + 1 + q
  | compensated p => p + 1 + 2 * begun p + 1

/-- The progress can be reached with a plan of `n` steps. -/
def Reachable (n : Nat) : Progress → Prop
  | applying p => p ≤ 2 * n
  | committed => True
  | compensating p q => p ≤ 2 * n ∧ q ≤ 2 * begun p
  | compensated p => p ≤ 2 * n

/-- The steps of a plan, numbered from `i`. -/
def steps (st : Progress) : Nat → List AppOperationResource → List AppOperationStep
  | _, [] => []
  | i, r :: rs => ⟨r, st.state i⟩ :: st.steps (i + 1) rs

theorem steps_getElem? (st : Progress) (i : Nat) (rs : List AppOperationResource) (k : Nat) :
    (st.steps i rs)[k]? = rs[k]?.map (⟨·, st.state (i + k)⟩) := by
  induction rs generalizing i k with
  | nil => rfl
  | cons r rs ih =>
    cases k with
    | zero => rfl
    | succ k => simp [steps, ih, Nat.add_comm, Nat.add_left_comm]

@[simp] theorem steps_length (st : Progress) (i : Nat) (rs : List AppOperationResource) :
    (st.steps i rs).length = rs.length := by
  induction rs generalizing i with
  | nil => rfl
  | cons r rs ih => simp [steps, ih]

@[simp] theorem steps_resources (st : Progress) (i : Nat) (rs : List AppOperationResource) :
    (st.steps i rs).map AppOperationStep.resource = rs := by
  induction rs generalizing i with
  | nil => rfl
  | cons r rs ih => simp [steps, ih]

theorem filter_begun {f : AppOperationResourceState → Bool} (happlied : f .applied = true)
    (happlying : f .applying = true) (hpending : f .pending = false) (p i : Nat)
    (rs : List AppOperationResource) :
    (((applying p).steps i rs).filter (f ·.state)).map AppOperationStep.resource =
      rs.take (begun p - i) := by
  induction rs generalizing i with
  | nil => simp [steps]
  | cons r rs ih =>
    rw [steps, filter_cons]
    by_cases hi : i < begun p
    · have hstate : f ((applying p).state i) = true := by
        rw [begun] at hi
        rw [state]
        split
        · exact happlied
        · rwa [if_pos (by omega)]
      rw [if_pos hstate, map_cons, ih, show begun p - i = begun p - (i + 1) + 1 by omega,
        take_succ_cons]
    · have hidle : (applying p).state i = .pending := applying_pending (by rw [begun] at hi; omega)
      rw [if_neg (by simp [hidle, hpending]), ih, show begun p - (i + 1) = 0 by omega,
        show begun p - i = 0 by omega, take_zero, take_zero]

theorem mem_steps {st : Progress} {s : AppOperationStep} :
    s ∈ st.steps 0 rs ↔ ∃ k r, rs[k]? = some r ∧ s = ⟨r, st.state k⟩ := by
  simp only [mem_iff_getElem?, steps_getElem?, Nat.zero_add, Option.map_eq_some_iff]
  exact exists_congr fun k => exists_congr fun r => and_congr_right fun _ => eq_comm

theorem steps_congr {st st' : Progress} (h : ∀ k, k < rs.length → st.state k = st'.state k) :
    st.steps 0 rs = st'.steps 0 rs := by
  refine ext_getElem? fun k => ?_
  rw [steps_getElem?, steps_getElem?, Nat.zero_add]
  by_cases hk : k < rs.length
  · rw [h k hk]
  · rw [List.getElem?_eq_none (Nat.le_of_not_lt hk), Option.map_none, Option.map_none]

theorem steps_modify (st st' : Progress) (rs : List AppOperationResource) (hi : st'.state i = s)
    (h : ∀ k, k < rs.length → k ≠ i → st.state k = st'.state k) :
    (st.steps 0 rs).modify i (fun step => { step with state := s }) = st'.steps 0 rs := by
  refine ext_getElem? fun k => ?_
  rw [List.getElem?_modify, steps_getElem?, steps_getElem?, Nat.zero_add]
  by_cases hk : k < rs.length
  · rw [List.getElem?_eq_getElem hk]
    by_cases hki : i = k
    · subst hki; simp [hi]
    · simp [hki, h k hk (Ne.symm hki)]
  · rw [List.getElem?_eq_none (Nat.le_of_not_lt hk)]
    simp

end Progress

/-! ## Plans -/

namespace AppOperation

theorem resourcesFor_nodup (app : InstalledApp) (kind : AppOperationKind) :
    (resourcesFor app kind).Nodup := by
  cases kind <;> simp only [resourcesFor] <;> split <;> split <;> (try split) <;> decide

theorem validatePlan_resourcesFor (app : InstalledApp) (kind : AppOperationKind) :
    validatePlan ((resourcesFor app kind).map (⟨·, .pending⟩)) = .ok () := by
  cases kind <;> simp only [resourcesFor] <;> split <;> split <;> (try split) <;> rfl

/-- The last resource is the snapshot, and no other is. -/
theorem resourcesFor_getElem?_snapshot {kind : AppOperationKind} {i : Nat} :
    (resourcesFor app kind)[i]? = some .platformSnapshot ↔
      i + 1 = (resourcesFor app kind).length := by
  have hlast : ∀ l : List AppOperationResource, l ++ [.platformSnapshot] = resourcesFor app kind →
      .platformSnapshot ∉ l → ((resourcesFor app kind)[i]? = some .platformSnapshot ↔
        i + 1 = (resourcesFor app kind).length) := by
    intro l hl hmem
    rw [← hl, length_append, length_singleton, Nat.add_right_cancel_iff]
    constructor
    · intro h
      rcases Nat.lt_trichotomy i l.length with hi | hi | hi
      · rw [List.getElem?_append_left hi] at h
        exact absurd (mem_of_getElem? h) hmem
      · exact hi
      · rw [List.getElem?_eq_none (by simp; omega)] at h
        cases h
    · rintro rfl
      simp
  cases kind <;> refine hlast _ rfl ?_ <;> split <;> split <;> (try split) <;> decide

end AppOperation

/-! ## Moving along a plan -/

/-- The moves of a plan: what each transition makes of the progress. -/
inductive Progress.Step (plan : List AppOperationResource) : Transition → Progress → Progress → Prop
  | beginResource : plan[i]? = some r →
      Step plan (.beginResource r) (.applying (2 * i)) (.applying (2 * i + 1))
  | completeResource : plan[i]? = some r →
      Step plan (.completeResource r) (.applying (2 * i + 1)) (.applying (2 * i + 2))
  | commit : Step plan .commit (.applying (2 * plan.length)) .committed
  | beginCompensation : Step plan .beginCompensation (.applying p) (.compensating p 0)
  | beginResourceCompensation : plan[i]? = some r → i < begun p →
      Step plan (.beginResourceCompensation r) (.compensating p (2 * (begun p - 1 - i)))
        (.compensating p (2 * (begun p - 1 - i) + 1))
  | completeResourceCompensation : plan[i]? = some r → i < begun p →
      Step plan (.completeResourceCompensation r) (.compensating p (2 * (begun p - 1 - i) + 1))
        (.compensating p (2 * (begun p - 1 - i) + 2))
  | finishCompensation :
      Step plan .finishCompensation (.compensating p (2 * begun p)) (.compensated p)

theorem Progress.Step.reachable (h : Step plan tr st st')
    (hst : st.Reachable plan.length) : st'.Reachable plan.length := by
  cases h with
  | beginResource hr | completeResource hr =>
    have hi := (List.getElem?_eq_some_iff.mp hr).1
    simp only [Reachable]
    omega
  | commit => trivial
  | beginCompensation => exact ⟨hst, Nat.zero_le _⟩
  | beginResourceCompensation hr hi | completeResourceCompensation hr hi =>
    exact ⟨hst.1, by omega⟩
  | finishCompensation => exact hst.1

namespace AppOperation

/-- There are five resources, so a plan without repetitions has at most five steps. -/
theorem plan_length_le_five {plan : List AppOperationResource} (hn : plan.Nodup) :
    plan.length ≤ 5 := by
  have hsub : plan ⊆ [.appDatabases, .runtimeInstance, .oidcClient, .runtimeActivation,
      .platformSnapshot] := fun r _ => by cases r <;> simp
  exact (subperm_of_subset hn hsub).length_le

/-- The operation with another progress along a plan. -/
def moved (op : AppOperation) (plan : List AppOperationResource) (st : Progress)
    (updatedAt : UnixTimestamp) : AppOperation :=
  { op with
    phase := st.phase
    steps := st.steps 0 plan
    revision := st.revision plan.length
    updatedAt }

section Moves

variable {op : AppOperation} {plan : List AppOperationResource} {st : Progress}
  {u t : UnixTimestamp} {r : AppOperationResource} {i : Nat}

theorem stepIndex_moved (hn : plan.Nodup) :
    (op.moved plan st u).stepIndex r = .ok i ↔ plan[i]? = some r := by
  have hfind : (st.steps 0 plan).findIdx? (fun step => step.resource = r) =
    plan.findIdx? (· = r) := by
    rw [← st.steps_resources 0 plan, List.findIdx?_map]
    simp [Function.comp_def]
  have hidx : plan.findIdx? (· = r) = some i ↔ plan[i]? = some r := by
    rw [List.findIdx?_eq_some_iff_getElem, List.getElem?_eq_some_iff]
    refine exists_congr fun hi => ⟨fun h => by simpa using h.1, fun h => ⟨by simpa using h, ?_⟩⟩
    intro j hj
    have hne : plan[j] ≠ plan[i] := fun he =>
      Nat.ne_of_lt hj ((hn.getElem_inj_iff).mp he)
    simpa [h] using hne
  rw [stepIndex, moved, hfind]
  cases hf : plan.findIdx? (· = r) with
  | none =>
    rw [hf] at hidx
    exact ⟨nofun, fun h => nomatch hidx.mpr h⟩
  | some k =>
    rw [hf] at hidx
    rw [← hidx]
    simp

theorem requireResourceState_moved (hr : plan[i]? = some r) :
    (op.moved plan st u).requireResourceState r i s = .ok () ↔ st.state i = s := by
  simp only [requireResourceState, moved, steps_getElem?, hr, Option.map_some,
    Nat.zero_add]
  split <;> simp [*]

theorem revision_lt_of_reachable (hn : plan.Nodup) (hst : st.Reachable plan.length) :
    st.revision plan.length + 1 < 2 ^ 63 := by
  have hle := plan_length_le_five hn
  cases st <;> simp only [Progress.Reachable, Progress.revision, begun] at hst ⊢ <;> omega

theorem advance_moved (hn : plan.Nodup) (hst : st.Reachable plan.length) (ht : u ≤ t) :
    (op.moved plan st u).advance t =
      .ok { op.moved plan st t with revision := st.revision plan.length + 1 } := by
  have hlt : ¬t < u := UnixTimestamp.not_lt.mpr ht
  have hrev : st.revision plan.length + 1 < 2 ^ 64 :=
    Nat.lt_trans (revision_lt_of_reachable hn hst) (by decide)
  simp only [advance, moved, hlt, hrev, if_true, if_false]

theorem any_take_moved (op : AppOperation) (st : Progress) (u : UnixTimestamp)
    (hi : i ≤ plan.length) :
    (((op.moved plan st u).steps.take i).any fun step => step.state ≠ s) = false ↔
      ∀ k < i, st.state k = s := by
  rw [any_eq_false]
  constructor
  · intro h k hk
    have hmem : (⟨plan[k], st.state k⟩ : AppOperationStep) ∈ (st.steps 0 plan).take i := by
      refine mem_iff_getElem?.mpr ⟨k, ?_⟩
      rw [List.getElem?_take_of_lt hk, steps_getElem?,
        List.getElem?_eq_getElem (Nat.lt_of_lt_of_le hk hi), Nat.zero_add]
      rfl
    simpa using h _ hmem
  · intro hs step hstep
    obtain ⟨k, hk⟩ := mem_iff_getElem?.mp hstep
    rw [List.getElem?_take] at hk
    split at hk
    · next hki =>
      rw [moved, steps_getElem?, Nat.zero_add] at hk
      obtain ⟨_, -, rfl⟩ := Option.map_eq_some_iff.mp hk
      simp [hs k hki]
    · cases hk

theorem any_drop_moved (op : AppOperation) (plan : List AppOperationResource) (st : Progress)
    (u : UnixTimestamp) (i : Nat) {p : AppOperationResourceState → Bool} :
    (((op.moved plan st u).steps.drop (i + 1)).any fun step => p step.state) = false ↔
      ∀ k, i < k → k < plan.length → p (st.state k) = false := by
  rw [any_eq_false]
  constructor
  · intro h k hk hlt
    have hmem : (⟨plan[k], st.state k⟩ : AppOperationStep) ∈ (st.steps 0 plan).drop (i + 1) := by
      refine mem_iff_getElem?.mpr ⟨k - (i + 1), ?_⟩
      rw [List.getElem?_drop, show i + 1 + (k - (i + 1)) = k by omega, steps_getElem?,
        List.getElem?_eq_getElem hlt, Nat.zero_add]
      rfl
    simpa using h _ hmem
  · intro hs step hstep
    obtain ⟨k, hk⟩ := mem_iff_getElem?.mp hstep
    rw [List.getElem?_drop, moved, steps_getElem?, Nat.zero_add] at hk
    obtain ⟨_, hr, rfl⟩ := Option.map_eq_some_iff.mp hk
    simp [hs (i + 1 + k) (by omega) (List.getElem?_eq_some_iff.mp hr).1]

theorem any_moved (op : AppOperation) (plan : List AppOperationResource) (st : Progress)
    (u : UnixTimestamp) {p : AppOperationResourceState → Bool} :
    ((op.moved plan st u).steps.any fun step => p step.state) = false ↔
      ∀ k, k < plan.length → p (st.state k) = false := by
  rw [any_eq_false]
  constructor
  · intro h k hk
    simpa using h _ (Progress.mem_steps.mpr ⟨k, _, List.getElem?_eq_getElem hk, rfl⟩)
  · intro hs step hstep
    obtain ⟨k, r, hk, rfl⟩ := Progress.mem_steps.mp hstep
    simp [hs k (List.getElem?_eq_some_iff.mp hk).1]

theorem moved_beginResource (op : AppOperation) (hn : plan.Nodup) (hr : plan[i]? = some r)
    (ht : u ≤ t) :
    (op.moved plan (.applying (2 * i)) u).beginResource r t =
      .ok (op.moved plan (.applying (2 * i + 1)) t) := by
  have hi : i < plan.length := (List.getElem?_eq_some_iff.mp hr).1
  have hearlier := (op.any_take_moved (.applying (2 * i)) u hi.le).mpr fun k hk =>
    applying_applied (by omega)
  have hpending : (applying (2 * i)).state i = .pending := applying_pending le_rfl
  have hst : (applying (2 * i)).Reachable plan.length := by
    simp only [Progress.Reachable]
    omega
  have hsteps := steps_modify (.applying (2 * i)) (.applying (2 * i + 1))
    plan (applying_applying i) fun k _ hk => applying_congr (by omega)
  have hphase : (op.moved plan (.applying (2 * i)) u).requirePhase .applying = .ok () := rfl
  simp only [beginResource, hphase, (stepIndex_moved hn).mpr hr, hearlier,
    (requireResourceState_moved hr).mpr hpending, advance_moved hn hst ht, ok_bind,
    pure_eq_ok]
  simp only [setState, moved, hsteps]
  rfl

theorem moved_completeResource (op : AppOperation) (hn : plan.Nodup) (hr : plan[i]? = some r)
    (ht : u ≤ t) :
    (op.moved plan (.applying (2 * i + 1)) u).completeResource r t =
      .ok (op.moved plan (.applying (2 * i + 2)) t) := by
  have hi : i < plan.length := (List.getElem?_eq_some_iff.mp hr).1
  have hst : (applying (2 * i + 1)).Reachable plan.length := by
    simp only [Progress.Reachable]
    omega
  have hsteps := steps_modify (.applying (2 * i + 1)) (.applying (2 * i + 2))
    plan (applying_applied le_rfl)
    fun k _ hk => applying_congr (by omega)
  have hphase : (op.moved plan (.applying (2 * i + 1)) u).requirePhase .applying = .ok () := rfl
  simp only [completeResource, hphase, (stepIndex_moved hn).mpr hr,
    (requireResourceState_moved hr).mpr (applying_applying i), advance_moved hn hst ht,
    ok_bind, pure_eq_ok]
  simp only [setState, moved, hsteps]
  rfl

theorem moved_commit (op : AppOperation) (hn : plan.Nodup) (ht : u ≤ t) :
    (op.moved plan (.applying (2 * plan.length)) u).commit t =
      .ok (op.moved plan .committed t) := by
  have hall := (op.any_moved plan (.applying (2 * plan.length)) u
    (p := fun s => s ≠ .applied)).mpr fun k hk => by rw [applying_applied (by omega)]; rfl
  have hst : (applying (2 * plan.length)).Reachable plan.length := le_rfl
  have hphase : (op.moved plan (.applying (2 * plan.length)) u).requirePhase .applying = .ok () :=
    rfl
  have hsteps : (applying (2 * plan.length)).steps 0 plan =
      Progress.committed.steps 0 plan :=
    steps_congr fun k hk => applying_applied (by omega)
  simp only [commit, hphase, hall, advance_moved hn hst ht, ok_bind, pure_eq_ok]
  simp only [moved, hsteps]
  rfl

theorem moved_beginCompensation (op : AppOperation) (hn : plan.Nodup) (hp : p ≤ 2 * plan.length)
    (ht : u ≤ t) :
    (op.moved plan (.applying p) u).beginCompensation t =
      .ok (op.moved plan (.compensating p 0) t) := by
  have hst : (applying p).Reachable plan.length := hp
  have hphase : (op.moved plan (.applying p) u).requirePhase .applying = .ok () := rfl
  have hsteps : ((applying p).steps 0 plan).map
      (fun step => { step with state := compensationState step.state }) =
      (compensating p 0).steps 0 plan := by
    refine ext_getElem? fun k => ?_
    rw [List.getElem?_map, steps_getElem?, steps_getElem?, Option.map_map]
    simp only [Function.comp_def, compensationState_applying]
  simp only [beginCompensation, hphase, advance_moved hn hst ht, ok_bind, pure_eq_ok]
  simp only [moved, hsteps]
  rfl

theorem moved_beginResourceCompensation (op : AppOperation) (hn : plan.Nodup)
    (hp : p ≤ 2 * plan.length)
    (hr : plan[i]? = some r) (hi : i < begun p) (ht : u ≤ t) :
    (op.moved plan (.compensating p (2 * (begun p - 1 - i))) u).beginResourceCompensation
      r t = .ok (op.moved plan (.compensating p (2 * (begun p - 1 - i) + 1)) t) := by
  set q := 2 * (begun p - 1 - i) with hq
  have hlater := (op.any_drop_moved plan (.compensating p q) u i
    (p := fun s => s = .compensationPending || s = .compensating)).mpr fun k hk _ => by
      by_cases hb : begun p ≤ k
      · rw [compensating_pending hb]; rfl
      · rw [compensating_compensated (by omega) (by omega)]; rfl
  have hpending : (compensating p q).state i = .compensationPending :=
    compensating_compensationPending (by omega)
  have hst : (compensating p q).Reachable plan.length := ⟨hp, by omega⟩
  have hsteps := steps_modify (.compensating p q) (.compensating p (q + 1))
    plan (compensating_compensating hi (by omega))
    fun k _ hk => compensating_congr (by omega) (by omega)
  have hphase : (op.moved plan (.compensating p q) u).requirePhase .compensating = .ok () := rfl
  simp only [beginResourceCompensation, hphase, (stepIndex_moved hn).mpr hr, hlater,
    (requireResourceState_moved hr).mpr hpending, advance_moved hn hst ht, ok_bind,
    pure_eq_ok]
  simp only [setState, moved, hsteps]
  rfl

theorem moved_completeResourceCompensation (op : AppOperation) (hn : plan.Nodup)
    (hp : p ≤ 2 * plan.length)
    (hr : plan[i]? = some r) (hi : i < begun p) (ht : u ≤ t) :
    (op.moved plan (.compensating p
      (2 * (begun p - 1 - i) + 1)) u).completeResourceCompensation r t =
        .ok (op.moved plan (.compensating p (2 * (begun p - 1 - i) + 2)) t) := by
  set q := 2 * (begun p - 1 - i) with hq
  have hbusy : (compensating p (q + 1)).state i = .compensating :=
    compensating_compensating hi (by omega)
  have hst : (compensating p (q + 1)).Reachable plan.length := ⟨hp, by omega⟩
  have hsteps := steps_modify (.compensating p (q + 1)) (.compensating p (q + 2)) plan
    (compensating_compensated hi (by omega))
    fun k _ hk => compensating_congr (by omega) (by omega)
  have hphase : (op.moved plan (.compensating p (q + 1)) u).requirePhase .compensating = .ok () :=
    rfl
  simp only [completeResourceCompensation, hphase, (stepIndex_moved hn).mpr hr,
    (requireResourceState_moved hr).mpr hbusy, advance_moved hn hst ht, ok_bind,
    pure_eq_ok]
  simp only [setState, moved, hsteps]
  rfl

theorem moved_finishCompensation (op : AppOperation) (hn : plan.Nodup) (hp : p ≤ 2 * plan.length)
    (ht : u ≤ t) :
    (op.moved plan (.compensating p (2 * begun p)) u).finishCompensation t =
      .ok (op.moved plan (.compensated p) t) := by
  have hstate : ∀ k, (compensating p (2 * begun p)).state k =
      (compensated p).state k := by
    intro k
    by_cases hk : k < begun p
    · rw [compensating_compensated hk (by omega), state, if_pos hk]
    · rw [compensating_pending (by omega), state, if_neg hk]
  have hall := (op.any_moved plan (.compensating p (2 * begun p)) u
    (p := fun s => s ≠ .pending && s ≠ .compensated)).mpr fun k _ => by
      rw [hstate, state]
      split <;> rfl
  have hst : (compensating p (2 * begun p)).Reachable plan.length := ⟨hp, le_rfl⟩
  have hphase : (op.moved plan (.compensating p (2 * begun p)) u).requirePhase
      .compensating = .ok () := rfl
  have hsteps : (compensating p (2 * begun p)).steps 0 plan =
      (compensated p).steps 0 plan := steps_congr fun k _ => hstate k
  simp only [finishCompensation, hphase, hall, advance_moved hn hst ht, ok_bind,
    pure_eq_ok]
  simp only [moved, hsteps]
  rfl

theorem transition_of_step (op : AppOperation) (hn : plan.Nodup)
    (hst : st.Reachable plan.length) (h : Progress.Step plan tr st st') (ht : u ≤ t) :
    (op.moved plan st u).transition t tr = .ok (op.moved plan st' t) := by
  cases h with
  | beginResource hr => exact op.moved_beginResource hn hr ht
  | completeResource hr => exact op.moved_completeResource hn hr ht
  | commit => exact op.moved_commit hn ht
  | beginCompensation => exact op.moved_beginCompensation hn hst ht
  | beginResourceCompensation hr hi => exact op.moved_beginResourceCompensation hn hst.1 hr hi ht
  | completeResourceCompensation hr hi =>
      exact op.moved_completeResourceCompensation hn hst.1 hr hi ht
  | finishCompensation => exact op.moved_finishCompensation hn hst.1 ht

end Moves

end AppOperation

/-! ## Operations on apps -/

namespace Header

/-- The resources of the operation, in the order of its steps. -/
def plan (h : Header) : List AppOperationResource := resourcesFor h.app h.kind

def operation (h : Header) (st : Progress) (updatedAt : UnixTimestamp) : AppOperation where
  id := h.id
  installationId := h.app.installationId
  kind := h.kind
  phase := st.phase
  steps := st.steps 0 h.plan
  revision := st.revision h.plan.length
  startedAt := h.startedAt
  updatedAt := updatedAt
  targetApp := some h.app

theorem plan_length_pos (h : Header) : 0 < h.plan.length := by
  rw [plan]
  cases h.kind <;> simp [resourcesFor]

theorem plan_getElem?_snapshot {h : Header} :
    h.plan[i]? = some .platformSnapshot ↔ i + 1 = h.plan.length :=
  resourcesFor_getElem?_snapshot

theorem forApp (h : Header) : forApp h.id h.app h.kind h.startedAt =
      .ok (h.operation (.applying 0) h.startedAt) := by
  have hsteps : (resourcesFor h.app h.kind).map (⟨·, .pending⟩) =
      (applying 0).steps 0 h.plan := by
    refine ext_getElem? fun k => ?_
    rw [steps_getElem?, List.getElem?_map]
    simp [state, plan]
  have hphase : phaseMatchesSteps .applying
      ((resourcesFor h.app h.kind).map (⟨·, .pending⟩)) = true := by
    cases h.kind <;> simp only [resourcesFor] <;> split <;> split <;>
      (try split) <;> rfl
  have hlt : ¬h.startedAt < h.startedAt := UnixTimestamp.not_lt.mpr (UnixTimestamp.le_refl _)
  simp only [AppOperation.forApp, AppOperation.new, restoreWithTarget,
    validatePlan_resourcesFor, hphase, hlt]
  simp only [operation, ← hsteps]
  rfl

theorem plan_nodup (h : Header) : h.plan.Nodup :=
  resourcesFor_nodup h.app h.kind

end Header

end Rumahl
