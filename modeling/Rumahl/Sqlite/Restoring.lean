import Rumahl.Sqlite.Journal

/-!
# Operations that are stored and loaded

`AppOperation::restore` checks what it is given by scans that were written independently of the
transitions. Every operation that can be built and changed passes them (`AppOperation.At.restores`),
so an operation whose states are written to the SQLite journal one after the other is read back as
it was (`lived_restores`). What SQLite cannot hold is a time beyond its signed integers.
-/

open List

namespace Rumahl

open Journal StoredOperation

namespace AppOperation

/-- The states of an operation, the newest first: it was built, and then called any number of
times. -/
inductive Lived : List AppOperation → Prop
  | built : Built n op → Lived [op]
  | moved : Lived (op :: ops) → op.call t tr = .ok () op' → Lived (op' :: op :: ops)
  | failed : Lived (op :: ops) → op.call t tr = .error e op' → Lived (op' :: ops)

theorem Lived.at (h : Lived ops) : ∀ op, ops.head? = some op → ∃ plan st, At plan st op := by
  induction h with
  | built hb =>
    rintro _ ⟨⟩
    obtain ⟨plan, hat, -⟩ := hb.at
    exact ⟨plan, _, hat⟩
  | moved _ hok ih =>
    rintro _ ⟨⟩
    obtain ⟨plan, st, hat⟩ := ih _ rfl
    obtain ⟨-, st', -, hat'⟩ := hat.call_ok hok
    exact ⟨plan, st', hat'⟩
  | @failed op _ t tr _ _ _ he ih =>
    rintro _ ⟨⟩
    rcases op.call_cases t tr with ⟨_, he'⟩ | ⟨_, hok, -⟩
    · rw [he'] at he
      cases he
      exact ih _ rfl
    · rw [hok] at he
      cases he

end AppOperation

namespace JournalTables

/-- An operation is created first; its later states are stored as transitions. -/
def write (t : JournalTables) (op : AppOperation) : Sql JournalTables :=
  if op.revision = 0 then t.create op else t.storeTransition op

/-- `load_by_id`, with both statements on the same tables. -/
def load (t : JournalTables) (id : AppOperationId) : Sql (Option AppOperation) :=
  match t.selectOperation id with
  | none => .ok none
  | some row => (decode row (t.selectSteps row.operationId)).map some

/-! ## Writes that succeed -/

theorem resourceName_inj (h : resourceName r = resourceName r') : r = r' := by
  have hr := congrArg parseResource h
  rw [parseResource_resourceName, parseResource_resourceName] at hr
  exact Except.ok.inj hr

theorem operationCheck_capture (op : AppOperation) :
    operationCheck (.capture op) = true ↔ op.startedAt ≤ op.updatedAt := by
  have hkind : kindName op.kind ∈ ["install", "update", "uninstall"] := by
    cases op.kind <;> decide
  have hphase : phaseName op.phase ∈ ["applying", "committed", "compensating", "compensated"] := by
    cases op.phase <;> decide
  have htimes : (op.startedAt.seconds : Int) ≤ op.updatedAt.seconds ↔
      op.startedAt ≤ op.updatedAt := Int.ofNat_le
  simp only [operationCheck, capture, hkind, hphase, htimes]
  simp

theorem stepCheck_capture (i : AppOperationId) (n : Nat) (step : AppOperationStep) :
    stepCheck ⟨i, n, resourceName step.resource, resourceStateName step.state⟩ = true := by
  have hresource : resourceName step.resource ∈ ["app-databases", "runtime-instance",
      "oidc-client", "runtime-activation", "platform-snapshot"] := by
    cases step.resource <;> decide
  have hstate : resourceStateName step.state ∈ ["pending", "applying", "applied",
      "compensation-pending", "compensating", "compensated"] := by
    cases step.state <;> decide
  simp only [stepCheck, hresource, hstate]
  simp

theorem insertSteps_of_free {t : JournalTables} {n : Nat}
    (howner : (t.appOperation.any fun row => row.operationId = i) = true)
    (hfree : ∀ row ∈ t.appOperationStep, row.operationId = i → row.position < n ∧
      ∀ step ∈ steps, row.resource ≠ resourceName step.resource)
    (hn : (steps.map AppOperationStep.resource).Nodup) (hlen : n + steps.length < 2 ^ 63) :
    ∃ t', t.insertSteps i steps n = .ok t' := by
  induction steps generalizing t n with
  | nil => exact ⟨t, rfl⟩
  | cons step steps ih =>
    rw [map_cons, nodup_cons] at hn
    rw [length_cons] at hlen
    obtain ⟨row, hrowdef⟩ : ∃ row : StoredStep,
        row = ⟨i, n, resourceName step.resource, resourceStateName step.state⟩ := ⟨_, rfl⟩
    have hrow : t.insertStep row = .ok { t with appOperationStep := t.appOperationStep ++
      [row] } := by
      have hkeys : (t.appOperationStep.all fun r => r.operationId ≠ row.operationId ||
          (r.position ≠ row.position && r.resource ≠ row.resource)) = true := by
        refine all_eq_true.mpr fun r hr => ?_
        by_cases hid : r.operationId = i
        · obtain ⟨hpos, hres⟩ := hfree r hr hid
          have hne : r.position ≠ n := by omega
          simp [hrowdef, hres step mem_cons_self, hne]
        · simp [hrowdef, hid]
      have hcheck : stepCheck row = true := hrowdef ▸ stepCheck_capture i n step
      have howner : (t.appOperation.any fun r => r.operationId = row.operationId) = true := by
        rw [hrowdef]
        exact howner
      rw [insertStep, hcheck, hkeys, howner]
      rfl
    have hint : toSqlInteger "step position" n = .ok (n : Int) :=
      toSqlInteger_eq_ok.mpr ⟨by omega, rfl⟩
    rw [insertSteps, hint, Except.ok_bind, ← hrowdef, hrow, Except.ok_bind]
    refine ih howner (fun r hr hid => ?_) hn.2 (by omega)
    rcases mem_append.mp hr with hr | hr
    · obtain ⟨hpos, hres⟩ := hfree r hr hid
      exact ⟨by omega, fun s hs => hres s (mem_cons_of_mem _ hs)⟩
    · rw [mem_singleton.mp hr, hrowdef]
      refine ⟨by simp, fun s hs he => hn.1 ?_⟩
      rw [resourceName_inj he]
      exact mem_map_of_mem hs

theorem create_of_fresh {t : JournalTables} (ht : t.Represents j) (hfresh : ∀ b ∈ j, b.id ≠ op.id)
    (hrev : op.revision = 0) (htimes : op.startedAt ≤ op.updatedAt)
    (hupdated : op.updatedAt.seconds < 2 ^ 63)
    (hn : (op.steps.map AppOperationStep.resource).Nodup) (hlen : op.steps.length < 2 ^ 63) :
    ∃ t', t.create op = .ok t' := by
  have hstarted : op.startedAt.seconds < 2 ^ 63 := Nat.lt_of_le_of_lt htimes hupdated
  have hkeys : (t.appOperation.all fun row => row.operationId ≠ op.id) = true := by
    rw [ht.operations, all_map]
    exact all_eq_true.mpr fun b hb => decide_eq_true (hfresh b hb)
  have hinsert : t.insertOperation (.capture op) =
      .ok { t with appOperation := t.appOperation ++ [.capture op] } := by
    rw [insertOperation, (operationCheck_capture op).mpr htimes,
      show (capture op).operationId = op.id from rfl, hkeys]
    rfl
  have hcreate : t.create op =
      ({ t with appOperation := t.appOperation ++ [.capture op] } : JournalTables).insertSteps
        op.id op.steps 0 := by
    rw [create, if_neg (not_not.mpr hrev), toSqlInteger_eq_ok.mpr ⟨by omega, rfl⟩,
      toSqlInteger_eq_ok.mpr ⟨hstarted, rfl⟩, toSqlInteger_eq_ok.mpr ⟨hupdated, rfl⟩]
    exact congrArg (· >>= fun t => t.insertSteps op.id op.steps 0) hinsert
  rw [hcreate]
  refine insertSteps_of_free ?_ (fun row hrow hid => ?_) hn (by omega)
  · rw [any_append]
    simp [capture]
  · obtain ⟨b, hb, hbid⟩ := ht.owned row hrow
    exact absurd (hbid.trans hid) (hfresh b hb)

private theorem countP_stored (hk : Table.Keyed AppOperation.id j) (hmem : stored ∈ j)
    (hp : ∀ b ∈ j, p b = true ↔ b = stored) : j.countP p = 1 := by
  have hnodup : j.Nodup := hk.of_map _
  have hcount : j.countP p = j.count stored := by
    refine countP_congr fun b hb => ?_
    rw [hp b hb, beq_iff_eq]
  rw [hcount, count_eq_one_of_mem hnodup hmem]

theorem storeTransition_of_stored {t : JournalTables} (ht : t.Represents j)
    (hchecks : ∀ b ∈ j, b.startedAt ≤ b.updatedAt) (hf : Journal.find j op.id = some stored)
    (hp : precedes stored op = true) (hrev : op.revision < 2 ^ 63)
    (htimes : op.startedAt ≤ op.updatedAt) (hupdated : op.updatedAt.seconds < 2 ^ 63)
    (hn : (op.steps.map AppOperationStep.resource).Nodup) (hlen : op.steps.length < 2 ^ 63) :
    ∃ t', t.storeTransition op = .ok t' := by
  have hstarted : op.startedAt.seconds < 2 ^ 63 := Nat.lt_of_le_of_lt htimes hupdated
  obtain ⟨hmem, hid⟩ := (Table.find_eq_some ht.keyed).mp hf
  have hnext : stored.revision + 1 = op.revision := by
    simp only [precedes, Bool.and_eq_true, decide_eq_true_eq] at hp
    exact hp.2
  have hpos : op.revision ≠ 0 := by omega
  have hcount : t.appOperation.countP (updates op op.startedAt.seconds (op.revision - 1 : Nat)) =
      1 := by
    rw [ht.operations, countP_map]
    refine countP_stored ht.keyed hmem fun b hb => ?_
    rw [Function.comp_apply, updates_capture hpos]
    exact ⟨fun h => ht.keyed.eq hb hmem (h.1.trans hid.symm), fun h => h ▸ ⟨hid, hp⟩⟩
  have hrows : ((t.appOperation.map fun row =>
      if updates op op.startedAt.seconds (op.revision - 1 : Nat) row then
        { row with phase := phaseName op.phase, revision := (op.revision : Int),
                   updatedAt := (op.updatedAt.seconds : Int) }
      else row).all operationCheck) = true := by
    rw [ht.operations, map_map, all_map]
    refine all_eq_true.mpr fun b hb => ?_
    simp only [Function.comp_apply, updates_capture hpos]
    split
    · next h =>
      obtain rfl := ht.keyed.eq hb hmem (h.1.trans hid.symm)
      have hsame : b.startedAt = op.startedAt := by
        simp only [precedes, Bool.and_eq_true, decide_eq_true_eq] at hp
        exact hp.1.2
      exact (operationCheck_capture (updated b op)).mpr (hsame ▸ htimes)
    · exact (operationCheck_capture b).mpr (hchecks b hb)
  have hstore : t.storeTransition op = (deleteSteps { t with
      appOperation := t.appOperation.map fun row =>
        if updates op op.startedAt.seconds (op.revision - 1 : Nat) row then
          { row with phase := phaseName op.phase, revision := (op.revision : Int),
                     updatedAt := (op.updatedAt.seconds : Int) }
        else row } op.id).insertSteps op.id op.steps 0 := by
    have hprev : op.revision - 1 < 2 ^ 63 := by omega
    simp only [storeTransition, if_neg hpos, toSqlInteger_eq_ok.mpr ⟨hrev, rfl⟩,
      toSqlInteger_eq_ok.mpr ⟨hprev, rfl⟩, toSqlInteger_eq_ok.mpr ⟨hstarted, rfl⟩,
      toSqlInteger_eq_ok.mpr ⟨hupdated, rfl⟩, Except.ok_bind]
    simp only [hrows, hcount]
    rfl
  rw [hstore]
  refine insertSteps_of_free ?_ (fun row hrow hrid => ?_) hn (by omega)
  · refine any_eq_true.mpr ⟨_, mem_map_of_mem (ht.operations ▸ mem_map_of_mem hmem), ?_⟩
    split <;> exact decide_eq_true hid
  · exact absurd hrid (by simpa using (mem_filter.mp hrow).2)

/-! ## Operations written state by state -/

/-- The tables hold the rows of the journal, and these are within the constraints on times. -/
structure Consistent (t : JournalTables) (j : Journal) : Prop where
  represents : t.Represents j
  times : ∀ b ∈ j, b.startedAt ≤ b.updatedAt

theorem Consistent.load {t : JournalTables} (h : t.Consistent j)
    (hf : Journal.find j op.id = some op) (hr : op.restoreWithTarget = .ok op) :
    t.load op.id = .ok (some op) := by
  have hmem := ((Table.find_eq_some h.represents.keyed).mp hf).1
  have hsteps : t.selectSteps (capture op).operationId =
      StoredStep.capture op.id op.steps 0 := h.represents.selectSteps hmem
  rw [JournalTables.load, h.represents.selectOperation, hf, Option.map_some]
  simp only [hsteps]
  rw [decode, decodeColumns_capture, Except.ok_bind, hr]
  rfl

theorem Consistent.write_built {t : JournalTables} (h : t.Consistent j)
    (hat : AppOperation.At plan (.applying 0) op) (hfresh : ∀ b ∈ j, b.id ≠ op.id)
    (hupdated : op.updatedAt.seconds < 2 ^ 63) :
    ∃ t' j', t.write op = .ok t' ∧ t'.Consistent j' ∧ Journal.find j' op.id = some op := by
  have hrev : op.revision = 0 := hat.revision
  have hlen := AppOperation.plan_length_le_five hat.nodup
  obtain ⟨t', hcreate⟩ := create_of_fresh h.represents hfresh hrev hat.times hupdated
    (by rw [hat.steps, Progress.steps_resources]; exact hat.nodup)
    (by rw [hat.steps, Progress.steps_length]; omega)
  obtain ⟨j', hj', ht'⟩ := create_eq_ok h.represents hcreate
  have hnone : Journal.find j op.id = none := Table.find_eq_none.mpr hfresh
  have hj : j' = j ++ [op] := by
    rw [Journal.create, if_neg (not_not.mpr hrev)] at hj'
    simp only [Except.seq_eq_ok, hnone] at hj'
    exact (Except.ok.inj hj'.2.2.2).symm
  subst hj
  refine ⟨t', _, by rw [write, if_pos hrev, hcreate], ⟨ht', fun b hb => ?_⟩, ?_⟩
  · rcases mem_append.mp hb with hb | hb
    · exact h.times b hb
    · rw [mem_singleton.mp hb]
      exact hat.times
  · exact (Table.find_eq_some ht'.keyed).mpr ⟨by simp, rfl⟩

theorem Consistent.write_moved {t : JournalTables} (h : t.Consistent j)
    (hf : Journal.find j op.id = some op) (htr : op.transition time tr = .ok op')
    (hat : AppOperation.At plan st op') (hupdated : op'.updatedAt.seconds < 2 ^ 63) :
    ∃ t' j', t.write op' = .ok t' ∧ t'.Consistent j' ∧ Journal.find j' op'.id = some op' := by
  have hprec := AppOperation.transition_precedes htr
  have hf' : Journal.find j op'.id = some op := hprec.id ▸ hf
  have hp : precedes op op' = true := by
    simp [precedes, hprec.installationId, hprec.kind, hprec.startedAt, hprec.revision]
  have hrev : op'.revision ≠ 0 := by rw [hprec.revision]; omega
  have hlen := AppOperation.plan_length_le_five hat.nodup
  have hbound := AppOperation.revision_lt_of_reachable hat.nodup hat.reachable
  obtain ⟨t', hstore⟩ := storeTransition_of_stored h.represents h.times hf' hp
    (by rw [hat.revision]; omega) hat.times hupdated
    (by rw [hat.steps, Progress.steps_resources]; exact hat.nodup)
    (by rw [hat.steps, Progress.steps_length]; omega)
  obtain ⟨j', hj', ht'⟩ := storeTransition_eq_ok h.represents hstore
  obtain ⟨stored, hs, -, rfl⟩ := Journal.storeTransition_eq_ok hj'
  rw [hf'] at hs
  cases hs
  rw [updated_of_precedes hprec] at ht'
  refine ⟨t', _, by rw [write, if_neg hrev, hstore], ⟨ht', fun b hb => ?_⟩,
    find_put op' hf'⟩
  rcases Table.mem_put.mp hb with ⟨rfl, -⟩ | ⟨hb, -⟩
  · exact hat.times
  · exact h.times b hb

/-- The states of an operation can be written one after the other. -/
theorem Consistent.write_lived {t : JournalTables} (h : t.Consistent j)
    (hl : AppOperation.Lived ops) : ∀ op, ops.head? = some op → op.updatedAt.seconds < 2 ^ 63 →
    (∀ b ∈ j, b.id ≠ op.id) → ∃ t' j', ops.foldrM (fun op t => t.write op) t = .ok t' ∧
      t'.Consistent j' ∧ Journal.find j' op.id = some op := by
  induction hl with
  | built hb =>
    rintro _ ⟨⟩ hupdated hfresh
    obtain ⟨plan, hat, -⟩ := hb.at
    simpa using h.write_built hat hfresh hupdated
  | @moved op _ time tr op' hl hok ih =>
    rintro _ ⟨⟩ hupdated hfresh
    obtain ⟨plan, st, hat⟩ := (hl.moved hok).at _ rfl
    have htr : op.transition time tr = .ok op' := by
      rcases op.call_cases time tr with ⟨_, he⟩ | ⟨_, hok', htr, -⟩
      · rw [he] at hok
        cases hok
      · rw [hok'] at hok
        cases hok
        exact htr
    have hprec := AppOperation.transition_precedes htr
    obtain ⟨_, _, hat0⟩ := hl.at _ rfl
    have hle : op.updatedAt ≤ op'.updatedAt := by
      rw [AppOperation.transition_updatedAt htr]
      exact (hat0.call_ok hok).1
    obtain ⟨t1, j1, hfold, h1, hf1⟩ := ih _ rfl (Nat.lt_of_le_of_lt hle hupdated)
      (by rwa [← hprec.id])
    obtain ⟨t', j', hwrite, h', hf'⟩ := h1.write_moved hf1 htr hat hupdated
    refine ⟨t', j', ?_, h', hf'⟩
    rw [foldrM_cons, hfold, Except.ok_bind, hwrite]
  | @failed op _ time tr _ _ _ he ih =>
    rintro _ ⟨⟩
    rcases op.call_cases time tr with ⟨_, he'⟩ | ⟨_, hok, -⟩
    · rw [he'] at he
      cases he
      exact ih _ rfl
    · rw [hok] at he
      cases he

/-- An operation that was built and called any number of times passes the checks of `restore`. If
its last time fits a signed integer, its states can be written to the journal one after the other,
and loading gives the operation. -/
theorem lived_restores (hl : AppOperation.Lived (op :: ops)) : op.restoreWithTarget = .ok op ∧
    (op.updatedAt.seconds < 2 ^ 63 → ∀ (t : JournalTables) j, t.Consistent j →
      (∀ b ∈ j, b.id ≠ op.id) →
      ∃ t', (op :: ops).foldrM (fun op t => t.write op) t = .ok t' ∧
        t'.load op.id = .ok (some op)) := by
  obtain ⟨plan, st, hat⟩ := hl.at _ rfl
  refine ⟨hat.restores, fun hupdated t j h hfresh => ?_⟩
  obtain ⟨t', j', hfold, h', hf⟩ := h.write_lived hl op rfl hupdated hfresh
  exact ⟨t', hfold, h'.load hf hat.restores⟩

theorem Consistent.empty : Consistent {} [] := ⟨.empty, fun _ h => nomatch h⟩

/-- The install of the notes app after three transitions, with its states since it was built. -/
theorem notesBegun_restores :
    ∃ ops t', (AppOperation.notesBegun :: ops).foldrM (fun op t => write t op) {} = .ok t' ∧
      ops.length = 3 ∧ t'.load ⟨1⟩ = .ok (some AppOperation.notesBegun) := by
  have hl : AppOperation.Lived [AppOperation.notesInstall] :=
    .built (.inr ⟨_, _, _, _, AppOperation.notesInstall_eq, rfl⟩)
  have hl := hl.moved (show AppOperation.call _ ⟨6⟩ (.beginResource .runtimeInstance) = _ from rfl)
  have hl := hl.moved (show AppOperation.call _ ⟨6⟩ (.completeResource .runtimeInstance) =
    _ from rfl)
  have hl : AppOperation.Lived (AppOperation.notesBegun :: _) :=
    hl.moved (show AppOperation.call _ ⟨6⟩ (.beginResource .runtimeActivation) = _ from rfl)
  obtain ⟨t', hwrite, hload⟩ := (lived_restores hl).2 (by decide) {} [] .empty fun _ h => nomatch h
  exact ⟨_, t', hwrite, rfl, hload⟩

/-- The same install, at a time that SQLite has no integer for, cannot be created. -/
theorem late_operation_not_created : ∃ op, AppOperation.Lived [op] ∧ op.restoreWithTarget = .ok op ∧
      create {} op = .error (.valueOutsideSqliteRange "started_at" (2 ^ 63)) :=
  ⟨{ AppOperation.notesInstall with startedAt := ⟨2 ^ 63⟩, updatedAt := ⟨2 ^ 63⟩ },
    .built (.inr ⟨⟨1⟩, AppOperation.notesApp, .install, ⟨2 ^ 63⟩, rfl, rfl⟩), rfl, rfl⟩

end JournalTables

end Rumahl
