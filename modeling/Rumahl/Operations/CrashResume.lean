import Rumahl.Operations.WriteAhead

/-!
# An interrupted operation ends as an uninterrupted one

One operation is entered and interrupted any number of times, each time followed by a new process
that loads the snapshot and recovers. `UnderWay` is what holds between the attempts: the operation
is at some position and the snapshot is the old one or the one it stores. From either it stages the
same platform, so the attempt that goes through ends where the uninterrupted call does
(`crash_resume`).
-/

namespace Rumahl

open Effect AppOperationRunner World Command

/-- Recoveries, each of which ends somehow and is followed by a new process. -/
def attempts : List (List Decision) → World → World
  | [], w => w
  | is :: iss, w => attempts iss (exec handler recoverIncomplete is w).2.reload

/-! ## Between two attempts -/

/-- The operation `h`, entered in `w0`, is on the way to `T`. -/
inductive UnderWay (w0 : World) (h : Header) (T : Platform) (ids : List Nat) (w : World) : Prop
  | applying (p : Nat) (u : UnixTimestamp) (sound : w.Sound)
      (journal : w.journal = w0.journal ++ [h.operation (.applying p) u])
      (le : p ≤ 2 * h.plan.length) (issued : w.issued = ids)
      (snapshot : w.snapshot = w0.snapshot ∨ w.snapshot = some T.snapshot)
      (applied : p = 2 * h.plan.length → w.snapshot = some T.snapshot)
  | committed (u : UnixTimestamp) (sound : w.Sound)
      (journal : w.journal = w0.journal ++ [h.operation .committed u]) (issued : w.issued = ids)
      (snapshot : w.snapshot = some T.snapshot)

/-- The operation has ended in `T`, which is both the stored and the live platform. -/
structure Arrived (w0 : World) (h : Header) (T : Platform) (ids : List Nat) (w : World) : Prop where
  journal : ∃ u, w.journal = w0.journal ++ [h.operation .committed u]
  issued : w.issued = ids
  snapshot : w.snapshot = some T.snapshot
  state : w.state = T.state
  grants : w.grants = T.grants

section

variable {w0 w w' : World} {h : Header} {P T : Platform} {ids : List Nat}

theorem World.Sound.put_last (hw : w.Sound) (hj : w.journal = w0.journal ++ [h.operation st u])
    (st' : Progress) (t : UnixTimestamp) :
    Table.put AppOperation.id w.journal (h.operation st' t) =
      w0.journal ++ [h.operation st' t] := by
  have hkeyed := hw.keyed
  rw [hj, Table.keyed_append] at hkeyed
  rw [hj]
  exact Table.put_append hkeyed.2 rfl

theorem World.Sound.find_last (hw : w.Sound) (hj : w.journal = w0.journal ++ [h.operation st u]) :
    Journal.find w.journal h.id = some (h.operation st u) :=
  hw.find (show h.operation st u ∈ w.journal by simp [hj])

theorem UnderWay.of_interrupted (hw : w.Sound) (hkind : h.kind ≠ .update)
    (hj : w.journal = w0.journal ++ [h.operation (.applying p) u]) (hle : p ≤ 2 * h.plan.length)
    (hids : w.issued = ids) (hs : w.snapshot = w0.snapshot ∨ w.snapshot = some T.snapshot)
    (ha : p = 2 * h.plan.length → w.snapshot = some T.snapshot)
    (hi : Interrupted h T.snapshot p w w') : UnderWay w0 h T ids w' := by
  have hsound := hw.interrupted hkind hi
  cases hi with
  | within q t hq =>
    refine .applying q t hsound (hq.journal.trans (hw.put_last hj _ t)) hq.le_plan
      (hq.issued.trans hids) ?_ fun he => ?_
    · rcases hq.snapshot_or with hsame | hnew
      · rw [hsame]; exact hs
      · exact .inr hnew
    · rcases Nat.lt_or_ge p (2 * h.plan.length) with hp | hp
      · exact hq.snapshot_new hp he.ge
      · rw [hq.snapshot_same (.inr hp)]
        exact ha (by have := hq.le; omega)
  | committed t hc =>
    refine .committed t hsound (hc.journal.trans (hw.put_last hj _ t)) (hc.issued.trans hids) ?_
    rw [hc.snapshot]
    split
    · rfl
    · next hp => exact ha (by omega)

theorem Arrived.of_committed (hw : w.Sound)
    (hj : w.journal = w0.journal ++ [h.operation (.applying p) u]) (hle : p ≤ 2 * h.plan.length)
    (hids : w.issued = ids) (ha : p = 2 * h.plan.length → w.snapshot = some T.snapshot)
    (hc : Committed h T.snapshot p t w w') (hs : w'.state = T.state) (hg : w'.grants = T.grants) :
    Arrived w0 h T ids w' where
  journal := ⟨t, hc.journal.trans (hw.put_last hj _ t)⟩
  issued := hc.issued.trans hids
  snapshot := by
    rw [hc.snapshot]
    split
    · rfl
    · next hp => exact ha (by omega)
  state := hs
  grants := hg

theorem Arrived.underWay (hw : w.Sound) (ha : Arrived w0 h T ids w) : UnderWay w0 h T ids w := by
  obtain ⟨u, hj⟩ := ha.journal
  exact .committed u hw hj ha.issued ha.snapshot

/-- The operation is under way in a process that can take it up. -/
def Ready (w0 : World) (h : Header) (T : Platform) (ids : List Nat) (w : World) : Prop :=
  UnderWay w0 h T ids w ∧ ∃ S, w.state = S.state ∧ w.grants = S.grants ∧ Staged S h T ∧
    (w.snapshot = some T.snapshot → S = T)

theorem UnderWay.reload (hP : Stored w0.snapshot P) (hT : Staged P h T)
    (hw : UnderWay w0 h T ids w) : Ready w0 h T ids w.reload := by
  have hstored : ∃ S, Stored w.snapshot S ∧ Staged S h T ∧
      (w.snapshot = some T.snapshot → S = T) := by
    have hnew : w.snapshot = some T.snapshot → ∃ S, Stored w.snapshot S ∧ Staged S h T ∧
        (w.snapshot = some T.snapshot → S = T) := fun hs => ⟨T, .inl hs, hT.again, fun _ => rfl⟩
    by_cases hs : w.snapshot = some T.snapshot
    · exact hnew hs
    · cases hw with
      | applying p u _ _ _ _ hor =>
        exact ⟨P, (hor.resolve_right hs) ▸ hP, hT, fun h => absurd h hs⟩
      | committed u _ _ _ h => exact absurd h hs
  obtain ⟨S, hS, hST, heq⟩ := hstored
  have he : w.reload = { w with state := S.state, grants := S.grants } := by
    rw [World.reload, hS.load]
  rw [he]
  refine ⟨?_, S, rfl, rfl, hST, heq⟩
  cases hw with
  | applying p u hsound hj hle hi hs ha =>
    exact .applying p u (hsound.mono rfl fun _ h => h) hj hle hi hs ha
  | committed u hsound hj hi hs => exact .committed u (hsound.mono rfl fun _ h => h) hj hi hs

section

variable (hidle : Journal.listIncomplete w0.journal = [])
include hidle

/-- With nothing else incomplete, the recovery works on this operation only. -/
theorem listIncomplete_append (op : AppOperation) : Journal.listIncomplete (w0.journal ++ [op]) =
      if op.isTerminal then [] else [op] := by
  have hnil : (w0.journal.filter fun op => !op.isTerminal) = [] := by
    rw [List.filter_eq_nil_iff]
    intro o ho ht
    have hmem : o ∈ Journal.listIncomplete w0.journal :=
      Journal.mem_listIncomplete.mpr ⟨ho, by simpa using ht⟩
    rw [hidle] at hmem
    cases hmem
  rw [Journal.listIncomplete, List.filter_append, hnil, List.nil_append]
  cases ht : op.isTerminal <;> simp [ht]

/-- An attempt keeps the operation under way, and one that returns has brought it to its end. -/
theorem recoverIncomplete_underWay (hw : UnderWay w0 h T ids w) (hs : w.state = S.state)
    (hg : w.grants = S.grants) (hT : Staged S h T) (hend : w.snapshot = some T.snapshot → S = T) :
    Spec anyAnswer (UnderWay w0 h T ids) recoverIncomplete
      (fun _ w' => w'.Sound ∧ Arrived w0 h T ids w') w := by
  refine Spec.seq (listIncomplete_spec hw ?_)
  cases hw with
  | committed u hsound hj hi hsnap =>
    rw [hj, listIncomplete_append hidle]
    refine Spec.ret ⟨hsound, ⟨u, hj⟩, hi, hsnap, ?_, ?_⟩
    · rw [hs, hend hsnap]
    · rw [hg, hend hsnap]
  | applying p u hsound hj hle hi hor ha =>
    rw [hj, listIncomplete_append hidle]
    have hf := hsound.find_last hj
    refine Spec.bind (recoverOperation_spec hsound hs hg hf hle hT.ne_update (.inl faulty_anyAnswer)
        (.applying p u hsound hj hle hi hor ha) ?_ ?_) fun _ _ h => Spec.ret h
    · intro T' hT' w' hint
      obtain rfl := hT.unique hT'
      exact .of_interrupted hsound hT.ne_update hj hle hi hor ha hint
    · intro T' hT' t w' hc hs' hg'
      obtain rfl := hT.unique hT'
      exact ⟨hsound.committed hT.ne_update hc, .of_committed hsound hj hle hi ha hc hs' hg'⟩

theorem Ready.attempts (hP : Stored w0.snapshot P) (hT : Staged P h T) (iss : List (List Decision))
    (hw : Ready w0 h T ids w) : Ready w0 h T ids (attempts iss w) := by
  induction iss generalizing w with
  | nil => exact hw
  | cons is iss ih =>
    obtain ⟨hu, S, hs, hg, hS, hend⟩ := hw
    refine ih (UnderWay.reload hP hT ?_)
    have hpost : Post.holds _ _ (exec handler recoverIncomplete is w).1 :=
      wp_exec (recoverIncomplete_underWay hidle hu hs hg hS hend) fun _ _ => trivial
    cases hx : (exec handler recoverIncomplete is w).1 with
    | stopped =>
      rw [hx] at hpost
      exact hpost
    | failed e =>
      rw [hx] at hpost
      exact hpost.2
    | done report =>
      rw [hx] at hpost
      exact hpost.2.underWay hpost.1

/-! ## The call that enters the operation -/

end

/-- It enters nothing, or an operation that is then under way. -/
theorem Command.entering_spec (hc : c.Opens) (hw : w.Sound) (hs : w.state = P.state)
    (hg : w.grants = P.grants) : Spec anyAnswer (fun w' => w'.journal = w.journal ∨
        ∃ h T w1, Entered P w h w1 c T ∧ UnderWay w h T w1.issued w')
      c.program
      (fun _ w' => ∃ h T w1, Entered P w h w1 c T ∧ w'.Sound ∧ Arrived w h T w1.issued w') w := by
  refine c.opens_spec hc hw hs hg faulty_anyAnswer (fun _ _ => .inl rfl) ?_ ?_
  · intro h T w1 he w' hi
    have hpos := h.plan_length_pos
    exact .inr ⟨h, T, w1, he, .of_interrupted (he.sound hw) he.staged.ne_update he.opening.journal
      (Nat.zero_le _) rfl (.inl he.opening.snapshot) (fun h0 => by omega) hi⟩
  · intro h T w1 he u w' hcom hs' hg'
    have hpos := h.plan_length_pos
    exact ⟨h, T, w1, he, (he.sound hw).committed he.staged.ne_update hcom,
      .of_committed (he.sound hw) he.opening.journal (Nat.zero_le _) rfl (fun h0 => by omega) hcom
        hs' hg'⟩

/-- Calls that drew the same ids entered the same operation, but for its time. -/
theorem Entered.same (he : Entered P w h w1 c T) (he' : Entered P w h' w1' c T')
    (hi : w1.issued = w1'.issued) : h.id = h'.id ∧ h.kind = h'.kind ∧ h.app = h'.app ∧ T = T' := by
  cases he with
  | install hin _ hA =>
    cases he' with
    | install hin' _ hA' =>
      have hids := hi
      rw [hin.issued_eq, hin'.issued_eq] at hids
      obtain ⟨hid, happ, -⟩ : h.id.value = h'.id.value ∧
          h.app.installationId.value = h'.app.installationId.value ∧ True := by
        simpa using hids
      have hinst : h.app.installationId = h'.app.installationId :=
        congrArg InstallationId.mk happ
      have hst := hin.staged_eq
      rw [hinst, hin'.staged_eq] at hst
      have heq : h.app = h'.app := (Prod.mk.inj (Except.ok.inj hst)).1.symm
      refine ⟨congrArg AppOperationId.mk hid, hin.kind_eq.trans hin'.kind_eq.symm, heq, ?_⟩
      congr 1
  | uninstall hun hmem hS =>
    generalize hj : h.app.installationId = j at he'
    cases he' with
    | uninstall hun' hmem' hS' =>
      have hids := hi
      rw [hun.issued_eq, hun'.issued_eq] at hids
      have hid : h.id.value = h'.id.value := by simpa using hids
      have heq : h.app = h'.app := P.coexist.eq_of_installationId hmem hmem' hj
      refine ⟨congrArg AppOperationId.mk hid, hun.kind_eq.trans hun'.kind_eq.symm, heq, ?_⟩
      congr 1

end

/-! ## The two ways to the end -/

/-- What is compared of an operation: everything but its times. -/
def AppOperation.standing (op : AppOperation) :
    AppOperationId × AppOperationPhase × List AppOperationStep :=
  (op.id, op.phase, op.steps)

/-- A call that enters an operation and is interrupted any number of times, each time followed by a
new process that loads the snapshot and recovers, ends as the uninterrupted call that draws the same
ids: the same stored snapshot, live state and grants, phases and steps. -/
theorem crash_resume (w : World) (hw : w.Sound)
    (hload : loadPlatform w.snapshot = .ok (w.state, w.grants))
    (hidle : Journal.listIncomplete w.journal = []) (c : Command) (hc : c.Opens)
    (direct : List Decision) (hdirect : (exec handler c.program direct w).1 = .done ())
    (first : List Decision)
    (hentered : (exec handler c.program first w).2.journal ≠ w.journal)
    (hids : (exec handler c.program first w).2.issued =
      (exec handler c.program direct w).2.issued)
    (iss : List (List Decision)) (last : List Decision) (report : AppOperationRecoveryReport)
    (hlast : (exec handler recoverIncomplete last
      (attempts iss (exec handler c.program first w).2.reload)).1 = .done report) :
    let resumed := (exec handler recoverIncomplete last
      (attempts iss (exec handler c.program first w).2.reload)).2
    let uninterrupted := (exec handler c.program direct w).2
    resumed.snapshot = uninterrupted.snapshot ∧ resumed.state = uninterrupted.state ∧
      resumed.grants = uninterrupted.grants ∧
      resumed.journal.map AppOperation.standing =
        uninterrupted.journal.map AppOperation.standing := by
  obtain ⟨P, hP, hs, hg⟩ := loadPlatform_eq_ok.mp hload
  have hspec := c.entering_spec hc hw hs hg
  -- the uninterrupted call
  have hpost : Post.holds _ _ (exec handler c.program direct w).1 :=
    wp_exec hspec fun _ _ => trivial
  rw [hdirect] at hpost
  obtain ⟨h', T', w1', he', -, harr'⟩ := hpost
  -- the interrupted one
  have hpost : Post.holds _ _ (exec handler c.program first w).1 :=
    wp_exec hspec fun _ _ => trivial
  have hunder : ∃ h T w1, Entered P w h w1 c T ∧
      UnderWay w h T w1.issued (exec handler c.program first w).2 := by
    cases hx : (exec handler c.program first w).1 with
    | stopped =>
      rw [hx] at hpost
      exact hpost.resolve_left hentered
    | failed e =>
      rw [hx] at hpost
      exact hpost.2.resolve_left hentered
    | done a =>
      rw [hx] at hpost
      obtain ⟨h, T, w1, he, hsound, harr⟩ := hpost
      exact ⟨h, T, w1, he, harr.underWay hsound⟩
  obtain ⟨h, T, w1, he, hu⟩ := hunder
  have hissued : w1.issued = w1'.issued := by
    have hi : (exec handler c.program first w).2.issued = w1.issued := by
      cases hu with
      | applying p u _ _ _ hi => exact hi
      | committed u _ _ hi => exact hi
    rw [← hi, hids, harr'.issued]
  obtain ⟨hid, hkind, happ, rfl⟩ := he.same he' hissued
  -- its recovery
  obtain ⟨hu', S, hs', hg', hS, hend⟩ :=
    Ready.attempts hidle hP he.staged iss (hu.reload hP he.staged)
  have hpost : Post.holds _ _ (exec handler recoverIncomplete last
      (attempts iss (exec handler c.program first w).2.reload)).1 :=
    wp_exec (recoverIncomplete_underWay hidle hu' hs' hg' hS hend) fun _ _ => trivial
  rw [hlast] at hpost
  obtain ⟨-, harr⟩ := hpost
  refine ⟨harr.snapshot.trans harr'.snapshot.symm, harr.state.trans harr'.state.symm,
    harr.grants.trans harr'.grants.symm, ?_⟩
  obtain ⟨u, hj⟩ := harr.journal
  obtain ⟨u', hj'⟩ := harr'.journal
  have hplan : h.plan = h'.plan := by rw [Header.plan, Header.plan, hkind, happ]
  rw [hj, hj', List.map_append, List.map_append]
  simp only [List.map_cons, List.map_nil, AppOperation.standing, Header.operation, hid, hplan]

/-- A schedule that stops an install while its first resource is prepared. -/
def stoppedEarly : List Decision := List.replicate 7 (.ok 0) ++ [.stop]

/-- A schedule that stops the recovery of it after the snapshot was stored. -/
def stoppedLate : List Decision := List.replicate 13 (.ok 0) ++ [.stop]

theorem crash_resume_stopped_twice :
    (exec handler recoverIncomplete [] (attempts [stoppedLate]
      (exec handler (Command.install .notes).program stoppedEarly {}).2.reload)).2.snapshot =
      (exec handler (Command.install .notes).program [] {}).2.snapshot := by
  have hdirect : (exec handler (Command.install .notes).program [] {}).1 = .done () := by
    decide +kernel
  have hentered : (exec handler (Command.install .notes).program stoppedEarly {}).2.journal ≠
      ({} : World).journal := by decide +kernel
  have hids : (exec handler (Command.install .notes).program stoppedEarly {}).2.issued =
      (exec handler (Command.install .notes).program [] {}).2.issued := by decide +kernel
  have hlast : (exec handler recoverIncomplete [] (attempts [stoppedLate]
      (exec handler (Command.install .notes).program stoppedEarly {}).2.reload)).1 =
        .done ⟨1, 1, 0⟩ := by decide +kernel
  obtain ⟨hs, -⟩ := crash_resume {} (.of_empty rfl) rfl rfl (.install .notes) trivial [] hdirect
    stoppedEarly hentered hids [stoppedLate] [] ⟨1, 1, 0⟩ hlast
  exact hs

end Rumahl
