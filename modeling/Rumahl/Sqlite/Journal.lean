import Rumahl.Operations.Copies
import Rumahl.Operations.Plans
import Rumahl.Sqlite.Wire

/-!
# The journal in SQLite

`SqliteAppOperationRepository` keeps an operation in two tables, one row in `app_operation` and one
per step in `app_operation_step`. Writing is one transaction; reading is one statement for the row
and another one for the steps, so that the two may come from different states.
`JournalTables.journal` is the journal that the tables stand for, and `Represents` says that they
do.

Runners that share the tables may hold copies that others have overtaken. `journal_linear` says that
the states of an operation are nevertheless one run of its transitions: a copy is either the stored
state or has a smaller revision, whatever was read when, and a transition is stored only from the
stored state.
-/

namespace Rumahl

open Effect Journal List Except

/-! ## Tables -/

structure StoredOperation where
  operationId : AppOperationId
  installationId : InstallationId
  kind : String
  phase : String
  revision : Int
  startedAt : Int
  updatedAt : Int
  targetApp : Option WireInstalledApp

open StoredOperation

structure StoredStep where
  operationId : AppOperationId
  position : Int
  resource : String
  state : String

open StoredStep

structure JournalTables where
  appOperation : List StoredOperation := []
  appOperationStep : List StoredStep := []

inductive SqliteAppOperationRepositoryError where
  | database
  | alreadyExists
  | initialRevisionMustBeZero (revision : Nat)
  | staleTransition
  | valueOutsideSqliteRange (field : String) (value : Nat)
  | negativeStoredValue (field : String) (value : Int)
  | invalidKind (value : String)
  | invalidPhase (value : String)
  | invalidResource (value : String)
  | invalidResourceState (value : String)
  | invalidStepPosition (expected : Nat) (actual : Int)
  | invalidTargetApp (error : WireSnapshotError)
  | invalidOperation (error : AppOperationError)

/-- What the runner is told. -/
def JournalError.ofSqlite : SqliteAppOperationRepositoryError → JournalError
  | .alreadyExists => .alreadyExists
  | .initialRevisionMustBeZero revision => .initialRevisionMustBeZero revision
  | .staleTransition => .staleTransition
  | .valueOutsideSqliteRange field value => .valueOutsideSqliteRange field value
  | _ => .database

abbrev Sql (α : Type) := Except SqliteAppOperationRepositoryError α

/-! ## Columns -/

def kindName : AppOperationKind → String
  | .install => "install"
  | .update => "update"
  | .uninstall => "uninstall"

def parseKind : String → Sql AppOperationKind
  | "install" => .ok .install
  | "update" => .ok .update
  | "uninstall" => .ok .uninstall
  | value => .error (.invalidKind value)

def phaseName : AppOperationPhase → String
  | .applying => "applying"
  | .committed => "committed"
  | .compensating => "compensating"
  | .compensated => "compensated"

def parsePhase : String → Sql AppOperationPhase
  | "applying" => .ok .applying
  | "committed" => .ok .committed
  | "compensating" => .ok .compensating
  | "compensated" => .ok .compensated
  | value => .error (.invalidPhase value)

def resourceName : AppOperationResource → String
  | .appDatabases => "app-databases"
  | .runtimeInstance => "runtime-instance"
  | .oidcClient => "oidc-client"
  | .runtimeActivation => "runtime-activation"
  | .platformSnapshot => "platform-snapshot"

def parseResource : String → Sql AppOperationResource
  | "app-databases" => .ok .appDatabases
  | "runtime-instance" => .ok .runtimeInstance
  | "oidc-client" => .ok .oidcClient
  | "runtime-activation" => .ok .runtimeActivation
  | "platform-snapshot" => .ok .platformSnapshot
  | value => .error (.invalidResource value)

def resourceStateName : AppOperationResourceState → String
  | .pending => "pending"
  | .applying => "applying"
  | .applied => "applied"
  | .compensationPending => "compensation-pending"
  | .compensating => "compensating"
  | .compensated => "compensated"

def parseResourceState : String → Sql AppOperationResourceState
  | "pending" => .ok .pending
  | "applying" => .ok .applying
  | "applied" => .ok .applied
  | "compensation-pending" => .ok .compensationPending
  | "compensating" => .ok .compensating
  | "compensated" => .ok .compensated
  | value => .error (.invalidResourceState value)

@[simp] theorem parseKind_kindName (k : AppOperationKind) : parseKind (kindName k) = .ok k := by
  cases k <;> rfl

@[simp] theorem parsePhase_phaseName (p : AppOperationPhase) :
    parsePhase (phaseName p) = .ok p := by
  cases p <;> rfl

@[simp] theorem parseResource_resourceName (r : AppOperationResource) :
    parseResource (resourceName r) = .ok r := by
  cases r <;> rfl

@[simp] theorem parseResourceState_resourceStateName (s : AppOperationResourceState) :
    parseResourceState (resourceStateName s) = .ok s := by
  cases s <;> rfl

def toSqlInteger (field : String) (value : Nat) : Sql Int :=
  if value < 2 ^ 63 then .ok value else .error (.valueOutsideSqliteRange field value)

def fromSqlInteger (field : String) (value : Int) : Sql Nat :=
  if value < 0 then .error (.negativeStoredValue field value) else .ok value.toNat

theorem toSqlInteger_eq_ok : toSqlInteger field value = .ok n ↔ value < 2 ^ 63 ∧ n = value := by
  unfold toSqlInteger
  split
  · next h => exact ⟨fun hn => ⟨h, (Except.ok.inj hn).symm⟩, fun hn => by rw [hn.2]⟩
  · next h => exact ⟨nofun, fun hn => absurd hn.1 h⟩

@[simp] theorem fromSqlInteger_natCast (field : String) (n : Nat) :
    fromSqlInteger field n = .ok n := by
  simp [fromSqlInteger]

theorem fromSqlInteger_eq_ok (h : fromSqlInteger field value = .ok n) : (n : Int) = value := by
  unfold fromSqlInteger at h
  split at h
  · cases h
  · cases h
    omega

namespace JournalTables

/-! ## Transactions -/

/-- The constraints on a row of `app_operation`. -/
def operationCheck (row : StoredOperation) : Bool :=
  row.kind ∈ ["install", "update", "uninstall"] &&
  row.phase ∈ ["applying", "committed", "compensating", "compensated"] &&
  0 ≤ row.revision && 0 ≤ row.startedAt && row.startedAt ≤ row.updatedAt

/-- The constraints on a row of `app_operation_step`. -/
def stepCheck (row : StoredStep) : Bool :=
  0 ≤ row.position &&
  row.resource ∈ ["app-databases", "runtime-instance", "oidc-client", "runtime-activation",
    "platform-snapshot"] &&
  row.state ∈ ["pending", "applying", "applied", "compensation-pending", "compensating",
    "compensated"]

/-- Every violated constraint is reported as an operation that exists. -/
def insertOperation (t : JournalTables) (row : StoredOperation) : Sql JournalTables :=
  if operationCheck row && t.appOperation.all fun r => r.operationId ≠ row.operationId then
    .ok { t with appOperation := t.appOperation ++ [row] }
  else .error .alreadyExists

/-- The keys are `(operation_id, position)` and `(operation_id, resource)`, and the first column
refers to the other table. -/
def insertStep (t : JournalTables) (row : StoredStep) : Sql JournalTables :=
  if stepCheck row &&
      (t.appOperationStep.all fun r => r.operationId ≠ row.operationId ||
        (r.position ≠ row.position && r.resource ≠ row.resource)) &&
      t.appOperation.any fun r => r.operationId = row.operationId then
    .ok { t with appOperationStep := t.appOperationStep ++ [row] }
  else .error .database

def insertSteps (t : JournalTables) (id : AppOperationId) :
    List AppOperationStep → Nat → Sql JournalTables
  | [], _ => .ok t
  | step :: steps, position => do
    let column ← toSqlInteger "step position" position
    let t ← t.insertStep ⟨id, column, resourceName step.resource, resourceStateName step.state⟩
    insertSteps t id steps (position + 1)

def create (t : JournalTables) (op : AppOperation) : Sql JournalTables :=
  if op.revision ≠ 0 then .error (.initialRevisionMustBeZero op.revision)
  else do
    let revision ← toSqlInteger "revision" op.revision
    let startedAt ← toSqlInteger "started_at" op.startedAt.seconds
    let updatedAt ← toSqlInteger "updated_at" op.updatedAt.seconds
    let t ← t.insertOperation {
      operationId := op.id
      installationId := op.installationId
      kind := kindName op.kind
      phase := phaseName op.phase
      revision, startedAt, updatedAt
      targetApp := op.targetApp.map .capture }
    t.insertSteps op.id op.steps 0

/-- The rows that `storeTransition` updates. -/
def updates (op : AppOperation) (startedAt previousRevision : Int) (row : StoredOperation) : Bool :=
  row.operationId = op.id && row.installationId = op.installationId &&
  row.kind = kindName op.kind && row.startedAt = startedAt && row.revision = previousRevision

def deleteSteps (t : JournalTables) (id : AppOperationId) : JournalTables :=
  { t with appOperationStep := t.appOperationStep.filter fun row => row.operationId ≠ id }

def storeTransition (t : JournalTables) (op : AppOperation) : Sql JournalTables :=
  if op.revision = 0 then .error .staleTransition
  else do
    let revision ← toSqlInteger "revision" op.revision
    let previousRevision ← toSqlInteger "previous revision" (op.revision - 1)
    let startedAt ← toSqlInteger "started_at" op.startedAt.seconds
    let updatedAt ← toSqlInteger "updated_at" op.updatedAt.seconds
    let rows := t.appOperation.map fun row =>
      if updates op startedAt previousRevision row then
        { row with phase := phaseName op.phase, revision, updatedAt }
      else row
    if !rows.all operationCheck then .error .database
    else if t.appOperation.countP (updates op startedAt previousRevision) ≠ 1 then
      .error .staleTransition
    else (deleteSteps { t with appOperation := rows } op.id).insertSteps op.id op.steps 0

/-! ## Queries -/

def selectOperation (t : JournalTables) (id : AppOperationId) : Option StoredOperation :=
  t.appOperation.find? fun row => row.operationId = id

def selectSteps (t : JournalTables) (id : AppOperationId) : List StoredStep :=
  (t.appOperationStep.filter fun row => row.operationId = id).insertionSort
    fun a b => a.position ≤ b.position

def selectIncomplete (t : JournalTables) : List AppOperationId :=
  ((t.appOperation.filter fun row => row.phase ∈ ["applying", "compensating"]).insertionSort
    fun a b => a.startedAt < b.startedAt ∨
      (a.startedAt = b.startedAt ∧ a.operationId.value ≤ b.operationId.value)).map
    StoredOperation.operationId

end JournalTables

/-! ## Decoding -/

def decodeSteps : List StoredStep → Nat → Sql (List AppOperationStep)
  | [], _ => .ok []
  | row :: rows, expected =>
    if row.position ≠ expected then .error (.invalidStepPosition expected row.position)
    else do
      let resource ← parseResource row.resource
      let state ← parseResourceState row.state
      let steps ← decodeSteps rows (expected + 1)
      pure (⟨resource, state⟩ :: steps)

/-- The columns, before the operation is restored from them. -/
def decodeColumns (stored : StoredOperation) (rows : List StoredStep) : Sql AppOperation := do
  let steps ← decodeSteps rows 0
  let targetApp ← stored.targetApp.mapM fun payload =>
    payload.intoDomain.mapError SqliteAppOperationRepositoryError.invalidTargetApp
  let kind ← parseKind stored.kind
  let phase ← parsePhase stored.phase
  let revision ← fromSqlInteger "revision" stored.revision
  let startedAt ← fromSqlInteger "started_at" stored.startedAt
  let updatedAt ← fromSqlInteger "updated_at" stored.updatedAt
  pure {
    id := stored.operationId
    installationId := stored.installationId
    kind, phase, steps, revision, targetApp
    startedAt := ⟨startedAt⟩
    updatedAt := ⟨updatedAt⟩ }

def decode (stored : StoredOperation) (rows : List StoredStep) : Sql AppOperation := do
  let op ← decodeColumns stored rows
  op.restoreWithTarget.mapError .invalidOperation

/-! ## The journal that the tables stand for -/

/-- The rows of an operation. -/
def StoredOperation.capture (op : AppOperation) : StoredOperation where
  operationId := op.id
  installationId := op.installationId
  kind := kindName op.kind
  phase := phaseName op.phase
  revision := op.revision
  startedAt := op.startedAt.seconds
  updatedAt := op.updatedAt.seconds
  targetApp := op.targetApp.map .capture

def StoredStep.capture (id : AppOperationId) : List AppOperationStep → Nat → List StoredStep
  | [], _ => []
  | step :: steps, position =>
    ⟨id, position, resourceName step.resource, resourceStateName step.state⟩ ::
      capture id steps (position + 1)

theorem decodeSteps_capture (id : AppOperationId) (steps : List AppOperationStep) (n : Nat) :
    decodeSteps (capture id steps n) n = .ok steps := by
  induction steps generalizing n with
  | nil => rfl
  | cons step steps ih => simp [StoredStep.capture, decodeSteps, ih]

theorem decodeColumns_capture (op : AppOperation) :
    decodeColumns (.capture op) (capture op.id op.steps 0) = .ok op := by
  have htarget : (op.targetApp.map WireInstalledApp.capture).mapM (fun payload =>
      payload.intoDomain.mapError SqliteAppOperationRepositoryError.invalidTargetApp) =
        .ok op.targetApp := by
    cases op.targetApp with
    | none => rfl
    | some app => simp [Except.mapError]
  simp [decodeColumns, StoredOperation.capture, decodeSteps_capture, htarget]

/-- A copy has the identity and the revision of the row it was decoded from. -/
theorem decodeColumns_eq_ok (h : decodeColumns row rows = .ok op) :
    op.id = row.operationId ∧ (op.revision : Int) = row.revision := by
  simp only [decodeColumns, bind_eq_ok] at h
  obtain ⟨steps, -, target, -, kind, -, phase, -, revision, hr, started, -, updated, -, he⟩ := h
  cases he
  exact ⟨rfl, fromSqlInteger_eq_ok hr⟩

theorem decode_eq_ok (h : decode row rows = .ok op) : decodeColumns row rows = .ok op := by
  obtain ⟨op', hc, hr⟩ := bind_eq_ok.mp h
  rw [hc, (AppOperation.restoreWithTarget_ok_iff.mp (mapError_eq_ok.mp hr)).1]

namespace JournalTables

/-- What the tables hold. -/
def journal (t : JournalTables) : Journal :=
  t.appOperation.filterMap fun row =>
    (decodeColumns row (t.selectSteps row.operationId)).toOption

/-- The tables hold the rows of the journal's operations and no others. -/
structure Represents (t : JournalTables) (j : Journal) : Prop where
  keyed : Table.Keyed AppOperation.id j
  operations : t.appOperation = j.map .capture
  steps : ∀ op ∈ j, (t.appOperationStep.filter fun row => row.operationId = op.id) =
    capture op.id op.steps 0
  owned : ∀ row ∈ t.appOperationStep, ∃ op ∈ j, op.id = row.operationId

theorem Represents.empty : Represents {} [] :=
  ⟨nodup_nil, rfl, fun _ h => (nomatch h), fun _ h => (nomatch h)⟩

theorem mem_capture (h : row ∈ capture i steps n) :
    row.operationId = i ∧ (n : Int) ≤ row.position := by
  induction steps generalizing n with
  | nil => cases h
  | cons step steps ih =>
    rcases mem_cons.mp h with rfl | h
    · exact ⟨rfl, le_refl _⟩
    · exact ⟨(ih h).1, le_trans (by omega) (ih h).2⟩

theorem capture_sorted (i : AppOperationId) (steps : List AppOperationStep) (n : Nat) :
    (capture i steps n).Pairwise fun a b => a.position ≤ b.position := by
  induction steps generalizing n with
  | nil => exact .nil
  | cons step steps ih =>
    refine .cons (fun row hrow => ?_) (ih _)
    exact le_trans (by simp) (mem_capture hrow).2

namespace Represents

variable {t : JournalTables} {j : Journal} (h : t.Represents j)
include h

theorem selectSteps (hop : op ∈ j) :
    t.selectSteps op.id = capture op.id op.steps 0 := by
  rw [JournalTables.selectSteps, h.steps op hop]
  exact (capture_sorted op.id op.steps 0).insertionSort_eq

theorem journal_eq : t.journal = j := by
  have hrow : ∀ op ∈ j, (decodeColumns (.capture op)
      (t.selectSteps (capture op).operationId)).toOption = some op := by
    intro op hop
    rw [show (capture op).operationId = op.id from rfl, h.selectSteps hop,
      decodeColumns_capture]
    rfl
  rw [journal, h.operations, filterMap_map]
  exact (filterMap_congr hrow).trans filterMap_some

theorem selectOperation (i : AppOperationId) :
    t.selectOperation i = (find j i).map .capture := by
  rw [JournalTables.selectOperation, h.operations, List.find?_map]
  rfl

end Represents

/-! ## Transactions on the journal -/

theorem insertStep_eq_ok {t : JournalTables} (h : t.insertStep row = .ok t') :
    t' = { t with appOperationStep := t.appOperationStep ++ [row] } := by
  unfold insertStep at h
  split at h
  · exact (Except.ok.inj h).symm
  · cases h

theorem insertSteps_eq_ok {t : JournalTables} (h : t.insertSteps i steps n = .ok t') :
    t' = { t with appOperationStep := t.appOperationStep ++ capture i steps n } := by
  induction steps generalizing t n with
  | nil =>
    cases h
    simp [StoredStep.capture]
  | cons step steps ih =>
    simp only [insertSteps, bind_eq_ok, toSqlInteger_eq_ok] at h
    obtain ⟨_, ⟨-, rfl⟩, t1, h1, h⟩ := h
    rw [ih h, insertStep_eq_ok h1]
    simp [StoredStep.capture]

theorem filter_replaced {rows new : List StoredStep} (hnew : ∀ row ∈ new, row.operationId = i)
    (k : AppOperationId) :
    ((rows.filter fun row => row.operationId ≠ i) ++ new).filter (fun row => row.operationId = k) =
      if k = i then new else rows.filter fun row => row.operationId = k := by
  rw [filter_append, filter_filter]
  split
  · next hk =>
    subst hk
    have hself : new.filter (fun row => row.operationId = k) = new :=
      filter_eq_self.mpr fun row hrow => by simpa using hnew row hrow
    rw [hself]
    simp
  · next hk =>
    have hnone : new.filter (fun row => row.operationId = k) = [] := by
      rw [filter_eq_nil_iff]
      intro row hrow
      simpa [hnew row hrow] using Ne.symm hk
    rw [hnone, append_nil]
    refine filter_congr fun row _ => ?_
    by_cases hr : row.operationId = k
    · simp [hr, hk]
    · simp [hr]

/-- The rows of one operation are replaced, or added, and everything else stays. -/
theorem Represents.replaced {t t' : JournalTables} (ht : t.Represents j) (op : AppOperation)
    (hk : Table.Keyed AppOperation.id j') (hops : t'.appOperation = j'.map .capture)
    (hsteps : t'.appOperationStep = (t.appOperationStep.filter fun row =>
      row.operationId ≠ op.id) ++
      capture op.id op.steps 0)
    (hj : ∀ b, b ∈ j' ↔ b = op ∨ b ∈ j ∧ b.id ≠ op.id) : t'.Represents j' := by
  refine ⟨hk, hops, fun b hb => ?_, fun row hrow => ?_⟩
  · rw [hsteps, filter_replaced (fun row hrow => (mem_capture hrow).1)]
    rcases (hj b).mp hb with rfl | ⟨hb, hne⟩
    · rw [if_pos rfl]
    · rw [if_neg hne, ht.steps b hb]
  · rw [hsteps, mem_append, mem_filter] at hrow
    rcases hrow with ⟨hrow, hne⟩ | hrow
    · obtain ⟨b, hb, hid⟩ := ht.owned row hrow
      exact ⟨b, (hj b).mpr (.inr ⟨hb, by simpa [hid] using hne⟩), hid⟩
    · exact ⟨op, (hj op).mpr (.inl rfl), (mem_capture hrow).1.symm⟩

theorem create_eq_ok {t : JournalTables} (ht : t.Represents j) (h : t.create op = .ok t') :
    ∃ j', Journal.create j op = .ok j' ∧ t'.Represents j' := by
  unfold create at h
  split at h
  · cases h
  next hrev =>
  simp only [bind_eq_ok, toSqlInteger_eq_ok] at h
  obtain ⟨_, ⟨hr, rfl⟩, _, ⟨hs, rfl⟩, _, ⟨hu, rfl⟩, t1, h1, h⟩ := h
  unfold insertOperation at h1
  split at h1
  · next hc =>
    cases h1
    have hfresh : ∀ b ∈ j, b.id ≠ op.id := by
      intro b hb
      simp only [Bool.and_eq_true, all_eq_true, ht.operations] at hc
      exact of_decide_eq_true (hc.2 _ (mem_map_of_mem hb))
    have hnone : Journal.find j op.id = none := Table.find_eq_none.mpr hfresh
    refine ⟨j ++ [op], ?_, ht.replaced op (Table.keyed_append.mpr ⟨ht.keyed, hfresh⟩) ?_ ?_ ?_⟩
    · rw [Journal.create, if_neg hrev, toSqlInteger_of_lt hr, toSqlInteger_of_lt hs,
        toSqlInteger_of_lt hu, hnone]
      rfl
    · rw [insertSteps_eq_ok h]
      simp [ht.operations, StoredOperation.capture]
    · have hsteps : (t.appOperationStep.filter fun row => row.operationId ≠ op.id) =
          t.appOperationStep := by
        refine filter_eq_self.mpr fun row hrow => decide_eq_true ?_
        obtain ⟨b, hb, hid⟩ := ht.owned row hrow
        exact hid ▸ hfresh b hb
      rw [insertSteps_eq_ok h, hsteps]
    · intro b
      rw [mem_append, mem_singleton, or_comm]
      exact or_congr_right ⟨fun hb => ⟨hb, hfresh b hb⟩, And.left⟩
  · cases h1

theorem kindName_inj (h : kindName k = kindName k') : k = k' := by
  have hk := congrArg parseKind h
  rw [parseKind_kindName, parseKind_kindName] at hk
  exact Except.ok.inj hk

theorem updates_capture (hrev : op.revision ≠ 0) :
    updates op op.startedAt.seconds (op.revision - 1 : Nat) (.capture stored) = true ↔
      stored.id = op.id ∧ precedes stored op = true := by
  have hkind : kindName stored.kind = kindName op.kind ↔ stored.kind = op.kind :=
    ⟨kindName_inj, congrArg kindName⟩
  have hstart : (stored.startedAt.seconds : Int) = op.startedAt.seconds ↔
      stored.startedAt = op.startedAt := by
    rw [Int.ofNat_inj]
    exact ⟨fun h => congrArg UnixTimestamp.mk h, congrArg UnixTimestamp.seconds⟩
  have hprev : (stored.revision : Int) = (op.revision - 1 : Nat) ↔
      stored.revision + 1 = op.revision := by omega
  simp only [updates, precedes, Bool.and_eq_true, decide_eq_true_iff, and_assoc]
  exact and_congr_right fun _ => and_congr_right fun _ => and_congr hkind (and_congr hstart hprev)

theorem storeTransition_eq_ok {t : JournalTables} (ht : t.Represents j)
    (h : t.storeTransition op = .ok t') :
    ∃ j', Journal.storeTransition j op = .ok j' ∧ t'.Represents j' := by
  unfold storeTransition at h
  split at h
  · cases h
  next hrev =>
  simp only [bind_eq_ok, toSqlInteger_eq_ok] at h
  obtain ⟨_, ⟨hr, rfl⟩, _, ⟨hp, rfl⟩, _, ⟨hs, rfl⟩, _, ⟨hu, rfl⟩, h⟩ := h
  split at h
  · cases h
  split at h
  · cases h
  -- the one row that the update matches is the row of the stored state
  have hpos : 0 < t.appOperation.countP (updates op op.startedAt.seconds (op.revision - 1 : Nat)) :=
    by omega
  obtain ⟨row, hrow, hmatch⟩ := countP_pos_iff.mp hpos
  rw [ht.operations, mem_map] at hrow
  obtain ⟨stored, hmem, rfl⟩ := hrow
  obtain ⟨hid, hprec⟩ := (updates_capture hrev).mp hmatch
  have hfind : Journal.find j op.id = some stored := (Table.find_eq_some ht.keyed).mpr ⟨hmem, hid⟩
  refine ⟨_, storeTransition_of_find hfind hprec hr hs hu,
    ht.replaced (updated stored op) (ht.keyed.put _) ?_ ?_ fun b => ?_⟩
  · rw [insertSteps_eq_ok h]
    simp only [deleteSteps, ht.operations, Table.put, map_map]
    refine map_congr_left fun b hb => ?_
    simp only [Function.comp_apply, updates_capture hrev]
    by_cases hb' : b.id = stored.id
    · obtain rfl : b = stored := ht.keyed.eq hb hmem hb'
      rw [if_pos ⟨hid, hprec⟩, if_pos (show b.id = (updated b op).id from rfl)]
      rfl
    · rw [if_neg fun h => hb' (h.1.trans hid.symm),
        if_neg (show b.id ≠ (updated stored op).id from hb')]
  · rw [insertSteps_eq_ok h, show (updated stored op).id = op.id from hid]
    rfl
  · rw [Table.mem_put]
    exact or_congr_left ⟨And.left, fun hb => ⟨hb, stored, hmem, rfl⟩⟩

end JournalTables

/-! ## Calls as statements -/

/-- What a repository sends to the database: a transaction or a query. Calls of a runner that do
not concern the journal are passed on. -/
inductive Statement where
  | create (op : AppOperation)
  | storeTransition (op : AppOperation)
  | selectOperation (id : AppOperationId)
  | selectSteps (id : AppOperationId)
  | selectIncomplete
  | other (c : Call)

@[reducible] def Statement.Result : Statement → Type
  | create _ => Sql Unit
  | storeTransition _ => Sql Unit
  | selectOperation _ => Sql (Option StoredOperation)
  | selectSteps _ => Sql (List StoredStep)
  | selectIncomplete => Sql (List AppOperationId)
  | other c => Answer c

/-- The statement is a transaction. -/
def Statement.Writes : Statement → Prop
  | create _ => True
  | storeTransition _ => True
  | _ => False

/-- A transaction fails as a whole, or is committed as a whole; that it was committed may not be
reported. -/
inductive Transacts (t : JournalTables) (x : Sql JournalTables) : Sql Unit → JournalTables → Prop
  | failed : Transacts t x (.error .database) t
  | rejected {e : SqliteAppOperationRepositoryError} : x = .error e → Transacts t x (.error e) t
  | committed {t' : JournalTables} : x = .ok t' → Transacts t x (.ok ()) t'
  | unreported {t' : JournalTables} : x = .ok t' → Transacts t x (.error .database) t'

/-- What the database may answer, and what becomes of the tables. -/
def database : (c : Statement) → JournalTables → Unit → c.Result → JournalTables → Unit → Prop
  | .create op, t, _, a, t', _ => Transacts t (t.create op) a t'
  | .storeTransition op, t, _, a, t', _ => Transacts t (t.storeTransition op) a t'
  | .selectOperation i, t, _, a, t', _ =>
    (a = .ok (t.selectOperation i) ∨ a = .error .database) ∧ t' = t
  | .selectSteps i, t, _, a, t', _ => (a = .ok (t.selectSteps i) ∨ a = .error .database) ∧ t' = t
  | .selectIncomplete, t, _, a, t', _ =>
      (a = .ok t.selectIncomplete ∨ a = .error .database) ∧ t' = t
  | .other _, t, _, _, t', _ => t' = t

namespace SqliteAppOperationRepository

abbrev Repository (α : Type) :=
  Prog Statement Statement.Result SqliteAppOperationRepositoryError α

def loadById (id : AppOperationId) : Repository (Option AppOperation) := do
  let answer ← Prog.perform (Statement.selectOperation id)
  match ← Prog.ofExcept (·) answer with
  | none => pure none
  | some row => do
    let answer ← Prog.perform (Statement.selectSteps row.operationId)
    let steps ← Prog.ofExcept (·) answer
    let op ← Prog.ofExcept (·) (decode row steps)
    pure (some op)

def loadAll : List AppOperationId → Repository (List AppOperation)
  | [] => pure []
  | id :: ids => do
    match ← loadById id with
    | none => Prog.throw (.invalidOperation .invalidRestoredState)
    | some op => do
      let ops ← loadAll ids
      pure (op :: ops)

def listIncomplete : Repository (List AppOperation) := do
  let answer ← Prog.perform Statement.selectIncomplete
  let ids ← Prog.ofExcept (·) answer
  loadAll ids

/-- How the repository answers a call of a runner. -/
def answer : (c : Call) → Prog Statement Statement.Result ε (Answer c)
  | .createOperation op => do
    let answer ← Prog.perform (Statement.create op)
    pure (answer.mapError .ofSqlite)
  | .storeTransition op => do
    let answer ← Prog.perform (Statement.storeTransition op)
    pure (answer.mapError .ofSqlite)
  | .findOperation id => do
    let answer ← (loadById id).attempt
    pure (answer.mapError .ofSqlite)
  | .listIncomplete => do
    let answer ← listIncomplete.attempt
    pure (answer.mapError .ofSqlite)
  | c => Prog.perform (Statement.other c)

end SqliteAppOperationRepository

open SqliteAppOperationRepository

/-! ## What a runner knows of the tables -/

/-- The rows that a thread has read and the operations that it has decoded or written. -/
structure Seen where
  rows : List StoredOperation := []
  copies : List AppOperation := []

namespace Seen

/-- A list of steps makes a copy of every row it was read for. -/
def learn (κ : Seen) : (c : Statement) → c.Result → Seen
  | .create op, .ok () => { κ with copies := op :: κ.copies }
  | .storeTransition op, .ok () => { κ with copies := op :: κ.copies }
  | .selectOperation _, .ok (some row) => { κ with rows := row :: κ.rows }
  | .selectSteps i, .ok steps =>
    { κ with copies := ((κ.rows.filter fun row => row.operationId = i).filterMap fun row =>
        (decodeColumns row steps).toOption) ++ κ.copies }
  | _, _ => κ

def permits (κ : Seen) : Statement → Prop
  | .create op => op.Created
  | .storeTransition op' => ∃ op ∈ κ.copies, ∃ t transition, op.transition t transition = .ok op'
  | _ => True

def expects : (c : Statement) → c.Result → Prop
  | .selectOperation i, .ok (some row) => row.operationId = i
  | .selectIncomplete, .ok ids => ids.Nodup
  | _, _ => True

theorem copies_learn (κ : Seen) (c : Statement) (a : c.Result) :
    κ.copies ⊆ (κ.learn c a).copies := by
  unfold learn
  split
  · exact subset_cons_self _ _
  · exact subset_cons_self _ _
  · exact fun _ h => h
  · exact subset_append_right _ _
  · exact fun _ h => h

end Seen

def reading : Protocol Statement Statement.Result Seen := ⟨Seen.permits, Seen.expects, Seen.learn⟩

namespace SqliteAppOperationRepository

variable {κ : Seen}

theorem loadById_follows (i : AppOperationId) :
    (loadById i).Follows reading
      (fun κ' r => κ.copies ⊆ κ'.copies ∧ ∀ op ∈ r, op ∈ κ'.copies ∧ op.id = i) κ := by
  refine Prog.Follows.performOk_bind trivial fun a row hrow ha => ?_
  subst ha
  cases row with
  | none => exact ⟨fun _ h => h, fun _ h => (nomatch h)⟩
  | some row =>
    obtain rfl : row.operationId = i := hrow
    refine Prog.Follows.performOk_bind trivial fun a steps _ ha => ?_
    subst ha
    refine Prog.Follows.bind (Ψ := fun κ' op => κ.copies ⊆ κ'.copies ∧ op ∈ κ'.copies ∧
      op.id = row.operationId) (.ofExcept _ fun op hop => ?_) fun κ' op h => ⟨h.1, ?_⟩
    · have hcols := decode_eq_ok hop
      refine ⟨subset_append_right _ _, mem_append_left _ ?_, (decodeColumns_eq_ok hcols).1⟩
      refine mem_filterMap.mpr ⟨row, mem_filter.mpr ⟨mem_cons_self, ?_⟩, ?_⟩
      · exact decide_eq_true rfl
      · rw [hcols]
        rfl
    · rintro _ ⟨⟩
      exact h.2

theorem loadAll_follows (ids : List AppOperationId) :
    (loadAll ids).Follows reading (fun κ' ops => κ.copies ⊆ κ'.copies ∧ ops ⊆ κ'.copies ∧
      ops.map AppOperation.id = ids) κ := by
  induction ids generalizing κ with
  | nil => exact ⟨fun _ h => h, nil_subset _, rfl⟩
  | cons i ids ih =>
    refine (loadById_follows i).bind fun κ1 r h1 => ?_
    cases r with
    | none => trivial
    | some op =>
      obtain ⟨hop, hid⟩ := h1.2 op rfl
      refine ih.bind fun κ2 ops h2 => ⟨fun _ h => h2.1 (h1.1 h), ?_, ?_⟩
      · exact cons_subset.mpr ⟨h2.1 hop, h2.2.1⟩
      · rw [map_cons, hid, h2.2.2]

theorem listIncomplete_follows :
    listIncomplete.Follows reading (fun κ' ops => κ.copies ⊆ κ'.copies ∧ ops ⊆ κ'.copies ∧
      Table.Keyed AppOperation.id ops) κ := by
  refine Prog.Follows.performOk_bind trivial fun a ids hids ha => ?_
  subst ha
  refine (loadAll_follows ids).mono fun κ' ops h => ⟨h.1, h.2.1, ?_⟩
  rw [Table.Keyed, h.2.2]
  exact hids

/-- The repository passes on no copy that its thread has not seen. -/
theorem answer_follows (c : Call) (hc : copying.permits κ0 c) (hκ : κ0.copies ⊆ κ.copies) :
    (answer c : Prog Statement Statement.Result ε _).Follows reading
      (fun κ' a => Learned.expects c a ∧ (κ0.learn c a).copies ⊆ κ'.copies) κ := by
  have hlearn : ∀ (κ : Seen) c (a : Statement.Result c), κ0.copies ⊆ κ.copies →
      κ0.copies ⊆ (κ.learn c a).copies := fun κ c a h _ hm => κ.copies_learn c a (h hm)
  cases c with
  | createOperation op =>
    refine ⟨hc, fun a _ => ⟨trivial, ?_⟩⟩
    cases a with
    | ok _ => exact cons_subset_cons op hκ
    | error e => exact hκ
  | storeTransition op =>
    refine ⟨hc.imp fun _ h => ⟨hκ h.1, h.2⟩, fun a _ => ⟨trivial, ?_⟩⟩
    cases a with
    | ok _ => exact cons_subset_cons op hκ
    | error e => exact hκ
  | findOperation i =>
    refine (Prog.Follows.attempt (loadById_follows i) hκ hlearn).bind fun κ' a h => ⟨trivial, ?_⟩
    cases a with
    | error e => exact h.1
    | ok r =>
      cases r with
      | none => exact h.1
      | some op => exact cons_subset.mpr ⟨((h.2 _ rfl).2 op rfl).1, h.1⟩
  | listIncomplete =>
    refine (Prog.Follows.attempt listIncomplete_follows hκ hlearn).bind fun κ' a h => ?_
    cases a with
    | error e => exact ⟨trivial, h.1⟩
    | ok ops =>
      obtain ⟨-, hops, hkeyed⟩ := h.2 ops rfl
      exact ⟨hkeyed, append_subset.mpr ⟨hops, h.1⟩⟩
  | now =>
    refine ⟨trivial, fun a _ => ⟨trivial, ?_⟩⟩
    cases a <;> exact hκ
  | _ => exact ⟨trivial, fun a _ => ⟨trivial, hκ⟩⟩

end SqliteAppOperationRepository

/-! ## Linearity -/

/-- What may happen to the state of an operation: nothing, its creation, or one transition. -/
inductive Advance : Option AppOperation → Option AppOperation → Prop
  | same (a : Option AppOperation) : Advance a a
  | created {op : AppOperation} : op.Created → op.revision = 0 → Advance none (some op)
  | moved {op op' : AppOperation} {t : UnixTimestamp} {transition : Transition} :
      op.transition t transition = .ok op' → op'.revision = op.revision + 1 →
      Advance (some op) (some op')

theorem Advance.some (h : Advance (some op) a) :
    ∃ op', a = .some op' ∧ (op' = op ∨ op.revision < op'.revision) := by
  cases h with
  | same => exact ⟨op, rfl, .inl rfl⟩
  | @moved _ op' _ _ _ hr => exact ⟨op', rfl, .inr (by omega)⟩

namespace Journal

variable {j j' : Journal}

theorem find_create (hc : op.Created) (h : create j op = .ok j') :
    find j' op.id = some op ∧ ∀ i, Advance (find j i) (find j' i) := by
  unfold create at h
  split at h
  · cases h
  next hrev =>
  simp only [seq_eq_ok] at h
  obtain ⟨-, -, -, h⟩ := h
  split at h
  · cases h
  next hnone =>
  cases h
  have hnone : find j op.id = none := by simpa using hnone
  have hself : find (j ++ [op]) op.id = some op := by
    rw [find, Table.find] at hnone ⊢
    simp [List.find?_append, hnone]
  refine ⟨hself, fun i => ?_⟩
  by_cases hi : i = op.id
  · subst hi
    rw [hself, hnone]
    exact .created hc (not_not.mp hrev)
  · have hsame : find (j ++ [op]) i = find j i := by
      simp [find, Table.find, List.find?_append, Ne.symm hi]
    rw [hsame]
    exact .same _

/-- Only a transition of the stored state is stored. A copy that is behind has a revision that does
not match. -/
theorem find_storeTransition (hstored : find j op.id = some stored)
    (hop : stored = op ∨ op.revision < stored.revision)
    (htr : op.transition t transition = .ok op') (h : storeTransition j op' = .ok j') :
    stored = op ∧ find j' op'.id = some op' ∧ ∀ i, Advance (find j i) (find j' i) := by
  have hprec := AppOperation.transition_precedes htr
  obtain ⟨stored', hf, hp, rfl⟩ := storeTransition_eq_ok h
  rw [hprec.id, hstored] at hf
  cases hf
  have hrev : stored.revision + 1 = op'.revision := by
    simp only [precedes, Bool.and_eq_true, decide_eq_true_eq] at hp
    exact hp.2
  obtain rfl : stored = op := hop.resolve_right (by have := hprec.revision; omega)
  rw [updated_of_precedes hprec]
  have hself : find (Table.put AppOperation.id j op') op'.id = some op' :=
    find_put op' (hprec.id ▸ hstored)
  refine ⟨rfl, hself, fun i => ?_⟩
  by_cases hi : i = op'.id
  · subst hi
    rw [hself, hprec.id, hstored]
    exact .moved htr hprec.revision
  · rw [show find (Table.put AppOperation.id j op') i = find j i from Table.find_put_ne hi]
    exact .same _

end Journal

/-- Everything that was read or written is stored, or overtaken by what is stored. -/
structure Seen.Behind (κ : Seen) (j : Journal) : Prop where
  rows : ∀ row ∈ κ.rows, ∃ stored, Journal.find j row.operationId = some stored ∧
    (.capture stored = row ∨ row.revision < stored.revision)
  copies : ∀ op ∈ κ.copies, ∃ stored, Journal.find j op.id = some stored ∧
    (stored = op ∨ op.revision < stored.revision)

namespace Seen.Behind

variable {κ : Seen} {j j' : Journal}

theorem empty (j : Journal) : Seen.Behind {} j := ⟨fun _ h => (nomatch h), fun _ h => (nomatch h)⟩

theorem advance (h : κ.Behind j) (hadv : ∀ i, Advance (find j i) (find j' i)) :
    κ.Behind j' := by
  constructor
  · intro row hrow
    obtain ⟨stored, hf, hs⟩ := h.rows row hrow
    obtain ⟨stored', hf', hs'⟩ := (hf ▸ hadv row.operationId).some
    refine ⟨stored', hf', ?_⟩
    rcases hs with rfl | hs
    · rcases hs' with rfl | hs'
      · exact .inl rfl
      · exact .inr (Int.ofNat_lt.mpr hs')
    · rcases hs' with rfl | hs'
      · exact .inr hs
      · exact .inr (by omega)
  · intro op hop
    obtain ⟨stored, hf, hs⟩ := h.copies op hop
    obtain ⟨stored', hf', hs'⟩ := (hf ▸ hadv op.id).some
    refine ⟨stored', hf', ?_⟩
    rcases hs with rfl | hs
    · exact hs'
    · rcases hs' with rfl | hs'
      · exact .inr hs
      · exact .inr (by omega)

theorem cons_copy (h : κ.Behind j) (hop : find j op.id = some op) :
    Seen.Behind { κ with copies := op :: κ.copies } j :=
  ⟨h.rows, forall_mem_cons.mpr ⟨⟨op, hop, .inl rfl⟩, h.copies⟩⟩

/-- Steps that are read now fit the row only if the row is current. Otherwise the copy mixes two
states, but has the revision of the older one. -/
theorem read_steps {t : JournalTables} (h : κ.Behind j) (ht : t.Represents j) (i : AppOperationId) :
    (κ.learn (.selectSteps i) (.ok (t.selectSteps i))).Behind j := by
  refine ⟨h.rows, forall_mem_append.mpr ⟨fun op hop => ?_, h.copies⟩⟩
  obtain ⟨row, hrow, hdec⟩ := mem_filterMap.mp hop
  obtain ⟨hseen, hid⟩ := mem_filter.mp hrow
  obtain rfl : row.operationId = i := of_decide_eq_true hid
  have hcols : decodeColumns row (t.selectSteps row.operationId) = .ok op :=
    toOption_eq_some.mp hdec
  obtain ⟨hop, hrev⟩ := decodeColumns_eq_ok hcols
  obtain ⟨stored, hf, hs⟩ := h.rows row hseen
  refine ⟨stored, hop ▸ hf, ?_⟩
  rcases hs with rfl | hs
  · have hmem : stored ∈ j := mem_of_find?_eq_some hf
    rw [show (capture stored).operationId = stored.id from rfl,
      ht.selectSteps hmem, decodeColumns_capture] at hcols
    exact .inl (Except.ok.inj hcols)
  · exact .inr (by omega)

end Seen.Behind

/-- A transaction takes place as a whole or not at all. -/
theorem Transacts.cases (h : Transacts t x a t') : (t' = t ∧ ∃ e, a = .error e) ∨ x = .ok t' := by
  cases h with
  | failed => exact .inl ⟨rfl, _, rfl⟩
  | rejected _ => exact .inl ⟨rfl, _, rfl⟩
  | committed h => exact .inr h
  | unreported h => exact .inr h

section

variable {t t' : JournalTables} {j : Journal} {κ : Seen}

theorem create_step (ht : t.Represents j) (hκ : κ.Behind j) (hc : op.Created)
    (h : Transacts t (t.create op) a t') :
    ∃ j', t'.Represents j' ∧ (κ.learn (.create op) a).Behind j' ∧
      ∀ i, Advance (Journal.find j i) (Journal.find j' i) := by
  rcases h.cases with ⟨rfl, e, rfl⟩ | hx
  · exact ⟨j, ht, hκ, fun _ => .same _⟩
  · obtain ⟨j', hj', ht'⟩ := JournalTables.create_eq_ok ht hx
    obtain ⟨hf, hadv⟩ := find_create hc hj'
    refine ⟨j', ht', ?_, hadv⟩
    cases a with
    | ok _ => exact (hκ.advance hadv).cons_copy hf
    | error e => exact hκ.advance hadv

theorem storeTransition_step (ht : t.Represents j) (hκ : κ.Behind j)
    (hp : κ.permits (.storeTransition op')) (h : Transacts t (t.storeTransition op') a t') :
    ∃ j', t'.Represents j' ∧ (κ.learn (.storeTransition op') a).Behind j' ∧
      (∀ i, Advance (Journal.find j i) (Journal.find j' i)) ∧
      ((t' = t ∧ ∃ e, a = .error e) ∨ ∃ stored time transition,
        Journal.find j op'.id = some stored ∧ stored.transition time transition = .ok op') := by
  rcases h.cases with ⟨rfl, e, rfl⟩ | hx
  · exact ⟨j, ht, hκ, fun _ => .same _, .inl ⟨rfl, e, rfl⟩⟩
  · obtain ⟨j', hj', ht'⟩ := JournalTables.storeTransition_eq_ok ht hx
    obtain ⟨op, hop, time, transition, htr⟩ := hp
    obtain ⟨stored, hstored, hcur⟩ := hκ.copies op hop
    obtain ⟨rfl, hf, hadv⟩ := find_storeTransition hstored hcur htr hj'
    have hid := (AppOperation.transition_precedes htr).id
    refine ⟨j', ht', ?_, hadv, .inr ⟨stored, time, transition, hid ▸ hstored, htr⟩⟩
    cases a with
    | ok _ => exact (hκ.advance hadv).cons_copy hf
    | error e => exact hκ.advance hadv

/-- Queries change nothing, and what they answer is behind nothing but the stored state. -/
theorem query_step (ht : t.Represents j) (hκ : κ.Behind j) (hc : ¬c.Writes)
    (h : database c t () a t' ()) : t' = t ∧ Seen.expects c a ∧ (κ.learn c a).Behind j := by
  cases c with
  | create op => exact (hc trivial).elim
  | storeTransition op => exact (hc trivial).elim
  | selectOperation i =>
    obtain ⟨rfl | rfl, rfl⟩ := h
    · rw [ht.selectOperation]
      cases hf : find j i with
      | none => exact ⟨rfl, trivial, hκ⟩
      | some op =>
        have hid : op.id = i := ((Table.find_eq_some ht.keyed).mp hf).2
        refine ⟨rfl, hid, forall_mem_cons.mpr ⟨⟨op, ?_, .inl rfl⟩, hκ.rows⟩, hκ.copies⟩
        exact (congrArg (find j) hid).trans hf
    · exact ⟨rfl, trivial, hκ⟩
  | selectSteps i =>
    obtain ⟨rfl | rfl, rfl⟩ := h
    · exact ⟨rfl, trivial, hκ.read_steps ht i⟩
    · exact ⟨rfl, trivial, hκ⟩
  | selectIncomplete =>
    obtain ⟨rfl | rfl, rfl⟩ := h
    · refine ⟨rfl, ?_, hκ⟩
      have hkeys : t'.appOperation.map StoredOperation.operationId = j.map AppOperation.id := by
        rw [ht.operations, map_map]
        rfl
      have hnodup : (t'.appOperation.map StoredOperation.operationId).Nodup := hkeys ▸ ht.keyed
      exact ((perm_insertionSort _ _).map _).nodup_iff.mpr
        (hnodup.sublist (filter_sublist.map _))
    · exact ⟨rfl, trivial, hκ⟩
  | other c => exact ⟨h, trivial, hκ⟩

/-- Whatever a statement does, the tables represent a journal, no operation moves by more than one
transition, and the thread is not ahead of the journal. -/
theorem database_step (ht : t.Represents j) (hκ : κ.Behind j) (hc : κ.permits c)
    (h : database c t () a t' ()) :
    ∃ j', t'.Represents j' ∧ Seen.expects c a ∧ (κ.learn c a).Behind j' ∧
      ∀ i, Advance (find j i) (find j' i) := by
  cases c with
  | create op =>
    obtain ⟨j', ht', hκ', hadv⟩ := create_step ht hκ hc h
    exact ⟨j', ht', trivial, hκ', hadv⟩
  | storeTransition op =>
    obtain ⟨j', ht', hκ', hadv, -⟩ := storeTransition_step ht hκ hc h
    exact ⟨j', ht', trivial, hκ', hadv⟩
  | _ =>
    obtain ⟨rfl, ha, hκ'⟩ := query_step ht hκ id h
    exact ⟨j, ht, ha, hκ', fun _ => .same _⟩

end

/-- A call of `store_transition` that finds another state than the one its operation was made from
has lost the race. -/
def LostRace (t : JournalTables) (op : AppOperation) : Prop :=
  ¬∃ stored time transition, Journal.find t.journal op.id = some stored ∧
    stored.transition time transition = .ok op

/-- However the statements of any number of runners are interleaved, the states that the journal
holds for an operation are one run of its transitions from a created state, with revisions that
rise by one, and a call that lost the race returns an error and changes nothing. -/
theorem journal_linear [DecidableEq ι] (programs : ι → Prog Call Answer ε α)
    (hcopying : ∀ i, Copying (programs i))
    (hrun : Pool.Run database
      ⟨fun i => (programs i).refine answer, fun _ => (), {}⟩ es P) :
    (∀ i, List.IsChain Advance (none :: es.map fun e => Journal.find e.after.journal i)) ∧
    ∀ thread op answer before after, ⟨thread, .storeTransition op, answer, before, after⟩ ∈ es →
      LostRace before op → after = before ∧ ∃ e, answer = .error e := by
  have hinv := hrun.invariant (J := fun t => ∃ j, t.Represents j)
    (I := fun p _ t => ∃ κ, p.Follows reading (fun _ _ => True) κ ∧ κ.Behind t.journal)
    (G := fun t t' => ∀ i, Advance (Journal.find t.journal i) (Journal.find t'.journal i))
    (E := fun e => ∀ thread op answer before after,
      e = ⟨thread, .storeTransition op, answer, before, after⟩ →
      LostRace before op → after = before ∧ ∃ e, answer = .error e) ?_ ?_ ?_ ?_
  · refine ⟨fun i => ?_, fun thread op answer before after he => ?_⟩
    · exact hrun.isChain (f := fun t => Journal.find t.journal i) fun e he => (hinv.2.2 e he).1 i
    · exact (hinv.2.2 _ he).2 thread op answer before after rfl
  · rintro i c k t ⟨⟩ a t' ⟨⟩ ⟨j, ht⟩ ⟨κ, ⟨hp, hk⟩, hκ⟩ henv
    rw [ht.journal_eq] at hκ
    obtain ⟨j', ht', ha, hκ', hadv⟩ := database_step ht hκ hp henv
    rw [ht.journal_eq, ht'.journal_eq]
    refine ⟨⟨j', ht'⟩, ⟨_, hk a ha, hκ'⟩, hadv, ?_⟩
    rintro thread op answer before after ⟨⟩ hlost
    obtain ⟨-, -, -, -, hout⟩ := storeTransition_step ht hκ hp henv
    refine hout.resolve_right fun hwon => hlost ?_
    rwa [ht.journal_eq]
  · rintro p - t t' - ⟨κ, hp, hκ⟩ hG
    exact ⟨κ, hp, hκ.advance hG⟩
  · exact ⟨[], .empty⟩
  · intro i
    refine ⟨{}, (Prog.Follows.refine (hcopying i) (V := fun κ κ' => κ.copies ⊆ κ'.copies)
      (fun _ h => h) fun c κ κ' hc hκ => ?_).mono fun _ _ _ => trivial, .empty _⟩
    exact answer_follows c hc hκ

open AppOperationRunner in
/-- One runner creates an operation and begins its step, another one finds it and does so too. -/
def racing : Bool → Runner AppOperation
  | false => do
    createOperation AppOperation.notesInstall
    advance AppOperation.notesInstall (AppOperation.notesInstall.beginResource .runtimeInstance)
  | true => do
    match ← listIncomplete with
    | [] => Prog.throw (.operationNotFound AppOperation.notesInstall.id)
    | op :: _ => advance op (op.beginResource .runtimeInstance)

theorem racing_copying (i : Bool) : Copying (racing i) := by
  suffices h : Disciplined True (fun _ _ => True) {} (racing i) from h.copying
  cases i with
  | false =>
    refine (AppOperationRunner.createOperation_disciplined trivial
      (.forApp AppOperation.notesInstall_eq)).bind ?_
    rintro _ _ rfl
    exact (AppOperationRunner.advance_disciplined Learned.latest_cons
      (.beginResource .runtimeInstance) fun _ => rfl).mono fun _ _ _ => trivial
  | true =>
    refine Prog.Follows.performOk_bind trivial fun a ops hk ha => ?_
    subst ha
    cases ops with
    | nil => trivial
    | cons op ops =>
      have hop : Learned.latest (Learned.learn {} .listIncomplete (.ok (op :: ops))) op.id =
          some op := Learned.latest_append hk mem_cons_self
      exact (AppOperationRunner.advance_disciplined hop
        (.beginResource .runtimeInstance) fun _ => rfl).mono fun _ _ _ => trivial

/-- The step begun by the one who lost the race, after the other one. -/
theorem journal_linear_racing :
    (∀ i, Copying (racing i)) ∧ ∃ es P, Pool.Run database
      ⟨fun i => (racing i).refine answer, fun _ => (), {}⟩ es P ∧
    (∀ i, List.IsChain Advance (none :: es.map fun e => Journal.find e.after.journal i)) ∧
    ∃ op before, ⟨true, .storeTransition op, .error .staleTransition, before, before⟩ ∈ es ∧
      LostRace before op := by
  obtain ⟨es, P, hrun, op, before, he, stored, hf, hrev⟩ : ∃ es P, Pool.Run database
      ⟨fun i => (racing i).refine answer, fun _ => (), {}⟩ es P ∧
      ∃ op before, ⟨true, .storeTransition op, .error .staleTransition, before, before⟩ ∈ es ∧
      ∃ stored, Journal.find before.journal op.id = some stored ∧ stored.revision =
        op.revision := by
    apply Exists.intro
    apply Exists.intro
    apply And.intro
    · apply Pool.Run.cons (.mk false rfl (l := ()) (Transacts.committed rfl))
      apply Pool.Run.cons (.mk true rfl (l := ()) ⟨.inl rfl, rfl⟩)
      apply Pool.Run.cons (.mk true rfl (l := ()) ⟨.inl rfl, rfl⟩)
      apply Pool.Run.cons (.mk true rfl (l := ()) ⟨.inl rfl, rfl⟩)
      apply Pool.Run.cons (.mk true (a := Except.ok ⟨0⟩) rfl (l := ()) rfl)
      apply Pool.Run.cons (.mk false (a := Except.ok ⟨0⟩) rfl (l := ()) rfl)
      apply Pool.Run.cons (.mk false rfl (l := ()) (Transacts.committed rfl))
      apply Pool.Run.cons (.mk true rfl (l := ()) (Transacts.rejected rfl))
      apply Pool.Run.nil
    · have hlast {α : Type} (a b c d e f g x : α) : x ∈ [a, b, c, d, e, f, g, x] := by simp
      exact ⟨_, _, hlast .., _, rfl, rfl⟩
  refine ⟨racing_copying, es, P, hrun, (journal_linear racing racing_copying hrun).1, op,
    before, he, ?_⟩
  rintro ⟨stored', time, transition, hf', htr⟩
  obtain rfl := Option.some.inj (hf.symm.trans hf')
  have := (AppOperation.transition_precedes htr).revision
  omega

end Rumahl
