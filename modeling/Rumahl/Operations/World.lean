import Rumahl.Core.Snapshot
import Rumahl.Data.Table
import Rumahl.Effect.CrashLogic
import Rumahl.Operations.Progress

/-!
# The journal, the providers and the world they live in

`Journal` is what the operation repository promises: operations keyed by id, replaced only by a
state with the next revision. `Call` lists everything a runner, an importer or a service asks of
its surroundings, `Answer` what it gets back, and `World.respond` what happens when it does. A
`Decision` chooses between success, failure, a failure that is only reported although the effect
took place, and the end of the process.
-/

namespace Rumahl

open Effect

/-! ## The journal -/

inductive JournalError where
  | database
  | alreadyExists
  | initialRevisionMustBeZero (revision : Nat)
  | staleTransition
  | valueOutsideSqliteRange (field : String) (value : Nat)
  deriving DecidableEq

abbrev Journal := List AppOperation

namespace Journal

def find (j : Journal) (id : AppOperationId) : Option AppOperation :=
  Table.find AppOperation.id j id

def toSqlInteger (field : String) (value : Nat) : Except JournalError Unit :=
  if value < 2 ^ 63 then .ok () else .error (.valueOutsideSqliteRange field value)

def create (j : Journal) (op : AppOperation) : Except JournalError Journal :=
  if op.revision ≠ 0 then .error (.initialRevisionMustBeZero op.revision)
  else do
    toSqlInteger "revision" op.revision
    toSqlInteger "started_at" op.startedAt.seconds
    toSqlInteger "updated_at" op.updatedAt.seconds
    if (find j op.id).isSome then .error .alreadyExists else .ok (j ++ [op])

/-- The stored row is the one that `op` is the next state of. -/
def precedes (stored op : AppOperation) : Bool :=
  stored.installationId = op.installationId && stored.kind = op.kind &&
    stored.startedAt = op.startedAt && stored.revision + 1 = op.revision

/-- The columns that an update writes. -/
def updated (stored op : AppOperation) : AppOperation :=
  { stored with
    phase := op.phase, steps := op.steps, revision := op.revision, updatedAt := op.updatedAt }

def storeTransition (j : Journal) (op : AppOperation) : Except JournalError Journal :=
  if op.revision = 0 then .error .staleTransition
  else do
    toSqlInteger "revision" op.revision
    toSqlInteger "previous revision" (op.revision - 1)
    toSqlInteger "started_at" op.startedAt.seconds
    toSqlInteger "updated_at" op.updatedAt.seconds
    match find j op.id with
    | none => .error .staleTransition
    | some stored =>
      if precedes stored op then .ok (Table.put AppOperation.id j (updated stored op))
      else .error .staleTransition

/-- Older operations first, those of one second by id. -/
def before (a b : AppOperation) : Bool :=
  a.startedAt < b.startedAt || (a.startedAt = b.startedAt && a.id.value ≤ b.id.value)

def listIncomplete (j : Journal) : List AppOperation :=
  (j.filter fun op => !op.isTerminal).insertionSort fun a b => before a b

@[simp] theorem mem_listIncomplete : op ∈ listIncomplete j ↔ op ∈ j ∧ op.isTerminal = false := by
  simp [listIncomplete, List.mem_insertionSort]

end Journal

/-! ## Calls -/

inductive ProviderError where
  | unavailable
  | installationNotFound
  deriving DecidableEq

structure OidcClientRegistration where
  clientId : Nat
  clientSecret : Option Nat

/-- What the runner asks of the databases, the runtime, OIDC, the secret stores and the snapshot
repository. -/
inductive ProviderRequest where
  | provisionInstallation (bindings : List AppDatabaseBinding)
  | retainInstallation (id : InstallationId)
  | prepareInstallation (app : InstalledApp)
  | removeInstallation (id : InstallationId)
  | activateInstallation (app : InstalledApp)
  | deactivateInstallation (id : InstallationId)
  | registerOrRecoverInstalledApp (staged : PlatformState) (id : InstallationId)
      (createdAt : UnixTimestamp)
  | deliverOidcClientSecret (app : InstalledApp) (clientId secret : Nat)
  | removeRuntimeSecrets (id : InstallationId)
  | revokeForInstallation (id : InstallationId) (revokedAt : UnixTimestamp)
  | removeStoredSecrets (id : InstallationId)
  | store (snapshot : PlatformSnapshot)
  deriving DecidableEq

/-- Only a registration returns something its caller looks at. -/
@[reducible] def ProviderRequest.Result : ProviderRequest → Type
  | .registerOrRecoverInstalledApp .. => Option OidcClientRegistration
  | _ => Unit

/-- The calls of a runner and an importer. A provider call and the replacement of the
live state also say for which operation, and the former for which resource, they are made. -/
inductive Call where
  | now
  | newUuid
  | live
  | setLive (operation : AppOperationId) (state : PlatformState) (grants : InMemoryGrantStore)
  | createOperation (operation : AppOperation)
  | storeTransition (operation : AppOperation)
  | findOperation (id : AppOperationId)
  | listIncomplete
  | provider (operation : AppOperationId) (resource : AppOperationResource)
      (request : ProviderRequest)
  | publishAssets (id : InstallationId)
  | stageImage (id : InstallationId) (artifact : PackagePath)

/-- The clock is before the epoch. -/
inductive ClockError where
  | beforeEpoch
  deriving DecidableEq

@[reducible] def Answer : Call → Type
  | .now => Except ClockError UnixTimestamp
  | .newUuid => Nat
  | .live => PlatformState × InMemoryGrantStore
  | .setLive .. => Unit
  | .createOperation _ => Except JournalError Unit
  | .storeTransition _ => Except JournalError Unit
  | .findOperation _ => Except JournalError (Option AppOperation)
  | .listIncomplete => Except JournalError (List AppOperation)
  | .provider _ _ r => Except ProviderError r.Result
  | .publishAssets _ => Except ProviderError Unit
  | .stageImage .. => Except ProviderError Unit

/-! ## The world -/

/-- What the environment decides at a call. `ok` carries what it may choose on success: the
seconds of the clock, the number a generator draws, the secret of an OIDC client. -/
inductive Decision where
  | ok (value : Nat)
  | fail
  | lost
  | stop
  deriving DecidableEq

instance : Inhabited Decision := ⟨.ok 0⟩

/-- A provider call that was made, and whether it was answered with success. -/
structure ProviderCall where
  operation : AppOperationId
  resource : AppOperationResource
  request : ProviderRequest
  succeeded : Bool
  deriving DecidableEq

/-- Everything durable, and the state and grants that one process holds in memory. -/
structure World where
  journal : Journal := []
  snapshot : Option PlatformSnapshot := none
  issued : List Nat := []
  calls : List ProviderCall := []
  state : PlatformState := {}
  grants : InMemoryGrantStore := {}
  deriving DecidableEq

/-- The number a generator returns: the one proposed, unless it was drawn before. -/
def draw (issued : List Nat) (proposal : Nat) : Nat :=
  if proposal ∈ issued then issued.foldr max 0 + 1 else proposal

theorem draw_not_mem (issued : List Nat) (proposal : Nat) : draw issued proposal ∉ issued := by
  have hle : ∀ n ∈ issued, n ≤ issued.foldr max 0 := by
    intro n hn
    induction issued with
    | nil => cases hn
    | cons m ms ih =>
      rcases List.mem_cons.mp hn with rfl | hn
      · exact Nat.le_max_left _ _
      · exact Nat.le_trans (ih hn) (Nat.le_max_right _ _)
  unfold draw
  split
  · exact fun h => Nat.not_succ_le_self _ (hle _ h)
  · assumption

namespace World

/-- The answer of a provider that works. -/
def serve (value : Nat) : (r : ProviderRequest) → Except ProviderError r.Result
  | .registerOrRecoverInstalledApp staged id _ =>
    match staged.installedApps.getByInstallationId id with
    | none => .error .installationNotFound
    | some app =>
      .ok (app.manifest.oidcClient.map fun d =>
        ⟨value, if d.clientType = .confidential then some value else none⟩)
  | .provisionInstallation _ | .retainInstallation _ | .prepareInstallation _
  | .removeInstallation _ | .activateInstallation _ | .deactivateInstallation _
  | .deliverOidcClientSecret .. | .removeRuntimeSecrets _ | .revokeForInstallation ..
  | .removeStoredSecrets _ | .store _ => .ok ()

/-- The effect of a provider call that the model keeps: the stored snapshot. -/
def effect (w : World) : ProviderRequest → World
  | .store snapshot => { w with snapshot := some snapshot }
  | _ => w

def logged (w : World) (op : AppOperationId) (r : AppOperationResource) (q : ProviderRequest)
    (succeeded : Bool) : World :=
  { w with calls := w.calls ++ [⟨op, r, q, succeeded⟩] }

/-- A write to the journal that succeeds, fails, or is made and reported as failed. -/
def journalWrite (w : World) (d : Decision) (write : Except JournalError Journal) :
    Except JournalError Unit × World :=
  match d, write with
  | .fail, _ => (.error .database, w)
  | _, .error e => (.error e, w)
  | .lost, .ok j => (.error .database, { w with journal := j })
  | _, .ok j => (.ok (), { w with journal := j })

/-- A read that succeeds or fails. -/
def read (w : World) (d : Decision) (e : ε) (a : α) : Except ε α × World :=
  match d with
  | .ok _ => (.ok a, w)
  | _ => (.error e, w)

/-- What an unstopped call answers and does. -/
def respond (w : World) (d : Decision) : (c : Call) → Answer c × World
  | .now =>
    match d with
    | .ok seconds => (.ok ⟨seconds⟩, w)
    | _ => (.error .beforeEpoch, w)
  | .newUuid =>
    let n := draw w.issued (match d with | .ok n => n | _ => 0)
    (n, { w with issued := n :: w.issued })
  | .live => ((w.state, w.grants), w)
  | .setLive _ state grants => ((), { w with state, grants })
  | .createOperation op => w.journalWrite d (Journal.create w.journal op)
  | .storeTransition op => w.journalWrite d (Journal.storeTransition w.journal op)
  | .findOperation id => w.read d .database (Journal.find w.journal id)
  | .listIncomplete => w.read d .database (Journal.listIncomplete w.journal)
  | .provider op r q =>
    match d with
    | .ok value =>
      match serve value q with
      | .ok a => (.ok a, (w.effect q).logged op r q true)
      | .error e => (.error e, w.logged op r q false)
    | .lost => (.error .unavailable, (w.effect q).logged op r q false)
    | _ => (.error .unavailable, w.logged op r q false)
  | .publishAssets _ => w.read d .unavailable ()
  | .stageImage _ _ => w.read d .unavailable ()

/-- The environment of one process. -/
def handler : Handler Call Answer Decision World where
  step c d w := if d = .stop then none else some (w.respond d c)

end World

end Rumahl
