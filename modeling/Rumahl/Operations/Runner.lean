import Rumahl.Operations.World

/-!
# The operation runner

`AppOperationRunner` as programs over `Call`. Every call to a provider stands between two journal
transitions, and the live state is replaced after the last one. The install and the uninstall loop
differ in what they do to a resource only, so they share `applySteps`; the compensating loop has its
own transitions.
-/

namespace Rumahl

open Effect

inductive AppOperationRunnerError where
  | clock (error : ClockError)
  | appLifecycle (error : AppLifecycleError)
  | operation (error : AppOperationError)
  | journal (error : JournalError)
  | databaseProvider (error : ProviderError)
  | runtimeProvider (error : ProviderError)
  | oidcProvisioning (error : ProviderError)
  | snapshotRepository (error : ProviderError)
  | runtimeSecretDelivery (error : ProviderError)
  | operationNotFound (id : AppOperationId)
  | missingOperationTarget (id : AppOperationId)
  | unsupportedOperationPlan (id : AppOperationId)
  | unsupportedOperationKind (kind : AppOperationKind)
  | unsupportedOperationPhase (phase : AppOperationPhase)
  | unexpectedResourceState (resource : AppOperationResource) (state : AppOperationResourceState)
  | recoveredTargetMismatch (id : AppOperationId)
  deriving DecidableEq

abbrev Runner (α : Type) := Prog Call Answer AppOperationRunnerError α

namespace AppOperationRunner

open AppOperationRunnerError

/-! ## Calls with their errors -/

def now : Runner UnixTimestamp := do
  let answer ← Prog.perform Call.now
  Prog.ofExcept clock answer

def newUuid : Runner Nat := Prog.perform Call.newUuid

def live : Runner (PlatformState × InMemoryGrantStore) := Prog.perform Call.live

def setLive (op : AppOperationId) (state : PlatformState) (grants : InMemoryGrantStore) :
    Runner Unit :=
  Prog.perform (Call.setLive op state grants)

def createOperation (op : AppOperation) : Runner Unit := do
  let answer ← Prog.perform (Call.createOperation op)
  Prog.ofExcept journal answer

def storeTransition (op : AppOperation) : Runner Unit := do
  let answer ← Prog.perform (Call.storeTransition op)
  Prog.ofExcept journal answer

def listIncomplete : Runner (List AppOperation) := do
  let answer ← Prog.perform Call.listIncomplete
  Prog.ofExcept journal answer

def provider (op : AppOperation) (r : AppOperationResource)
    (wrap : ProviderError → AppOperationRunnerError) (q : ProviderRequest) : Runner q.Result := do
  let answer ← Prog.perform (Call.provider op.id r q)
  Prog.ofExcept wrap answer

def target (op : AppOperation) : Runner InstalledApp :=
  match op.targetApp with
  | none => .throw (missingOperationTarget op.id)
  | some app => .ret app

/-! ## One transition, recorded -/

def transitionTime (op : AppOperation) : Runner UnixTimestamp := do
  let time ← now
  pure (time.max op.updatedAt)

/-- Take a transition now and store the result. -/
def advance (op : AppOperation)
    (transition : UnixTimestamp → Except AppOperationError AppOperation) : Runner AppOperation := do
  let time ← transitionTime op
  let op ← Prog.ofExcept operation (transition time)
  storeTransition op
  pure op

/-! ## Resources -/

def applyResource (app : InstalledApp) (staged : PlatformState) (grants : InMemoryGrantStore)
    (op : AppOperation) : AppOperationResource → Runner Unit
  | .appDatabases =>
    provider op .appDatabases databaseProvider
      (.provisionInstallation (staged.databasesForOwner app.identity))
  | .runtimeInstance => provider op .runtimeInstance runtimeProvider (.prepareInstallation app)
  | .oidcClient => do
    let registration ← provider op .oidcClient oidcProvisioning
      (.registerOrRecoverInstalledApp staged app.installationId op.startedAt)
    match registration.bind fun r => r.clientSecret.map (r.clientId, ·) with
    | none => pure ()
    | some (clientId, secret) =>
      provider op .oidcClient runtimeSecretDelivery (.deliverOidcClientSecret app clientId secret)
  | .runtimeActivation => provider op .runtimeActivation runtimeProvider (.activateInstallation app)
  | .platformSnapshot =>
    provider op .platformSnapshot snapshotRepository (.store (.capture staged grants))

def removeOidcMaterial (app : InstalledApp) (op : AppOperation) : Runner Unit := do
  provider op .oidcClient runtimeSecretDelivery (.removeRuntimeSecrets app.installationId)
  provider op .oidcClient oidcProvisioning (.revokeForInstallation app.installationId op.startedAt)
  provider op .oidcClient oidcProvisioning (.removeStoredSecrets app.installationId)

/-- The body of both `apply_uninstall_resource` and `compensate_install_resource`. -/
def removeResource (app : InstalledApp) (staged : PlatformState) (grants : InMemoryGrantStore)
    (op : AppOperation) : AppOperationResource → Runner Unit
  | .appDatabases =>
    provider op .appDatabases databaseProvider (.retainInstallation app.installationId)
  | .runtimeInstance =>
    provider op .runtimeInstance runtimeProvider (.removeInstallation app.installationId)
  | .oidcClient => removeOidcMaterial app op
  | .runtimeActivation =>
    provider op .runtimeActivation runtimeProvider (.deactivateInstallation app.installationId)
  | .platformSnapshot =>
    provider op .platformSnapshot snapshotRepository (.store (.capture staged grants))

def applyUninstallResource := removeResource

def compensateInstallResource := removeResource

/-! ## The loops -/

/-- Work on a resource whose step is being applied, and record that it is. -/
def finishStep (work : AppOperation → AppOperationResource → Runner Unit) (op : AppOperation)
    (r : AppOperationResource) : Runner AppOperation := do
  work op r
  advance op (op.completeResource r)

/-- The loop over the steps as they were when it started. -/
def applySteps (work : AppOperation → AppOperationResource → Runner Unit) :
    List AppOperationStep → AppOperation → Runner AppOperation
  | [], op => pure op
  | step :: steps, op =>
    match step.state with
    | .applied => applySteps work steps op
    | .pending => do
      let op ← advance op (op.beginResource step.resource)
      let op ← finishStep work op step.resource
      applySteps work steps op
    | .applying => do
      let op ← finishStep work op step.resource
      applySteps work steps op
    | state => .throw (unexpectedResourceState step.resource state)

/-- Work on a resource whose step is being compensated, and record that it is. -/
def finishCompensationStep (work : AppOperation → AppOperationResource → Runner Unit)
    (op : AppOperation) (r : AppOperationResource) : Runner AppOperation := do
  work op r
  advance op (op.completeResourceCompensation r)

def compensateSteps (work : AppOperation → AppOperationResource → Runner Unit) :
    List AppOperationStep → AppOperation → Runner AppOperation
  | [], op => pure op
  | step :: steps, op =>
    match step.state with
    | .pending | .compensated => compensateSteps work steps op
    | .compensationPending => do
      let op ← advance op (op.beginResourceCompensation step.resource)
      let op ← finishCompensationStep work op step.resource
      compensateSteps work steps op
    | .compensating => do
      let op ← finishCompensationStep work op step.resource
      compensateSteps work steps op
    | state => .throw (unexpectedResourceState step.resource state)

/-- The plan is checked against the one a new operation would get; the id that one would have plays
no part in it. -/
def validateOperationPlan (op : AppOperation) (app : InstalledApp) : Runner Unit := do
  let expected ← Prog.ofExcept operation (AppOperation.forApp op.id app op.kind op.startedAt)
  if op.steps.map AppOperationStep.resource ≠ expected.steps.map AppOperationStep.resource then
    Prog.throw (unsupportedOperationPlan op.id)
  else pure ()

def applyInstall (op : AppOperation) (staged : PlatformState) (grants : InMemoryGrantStore) :
    Runner Unit := do
  let app ← target op
  validateOperationPlan op app
  let op ← applySteps (applyResource app staged grants) op.steps op
  let op ← advance op op.commit
  setLive op.id staged grants

def applyUninstall (op : AppOperation) (staged : PlatformState)
    (stagedGrants : InMemoryGrantStore) :
    Runner Unit := do
  let app ← target op
  validateOperationPlan op app
  let op ← applySteps (applyUninstallResource app staged stagedGrants) op.steps op
  let op ← advance op op.commit
  setLive op.id staged stagedGrants

/-! ## Staging -/

/-- The state with the target of the operation in it. -/
def stageInstallTarget (op : AppOperation) (state : PlatformState) : Runner PlatformState := do
  let app ← target op
  match state.installedApps.getByInstallationId app.installationId with
  | some existing =>
    if existing = app then pure state else Prog.throw (recoveredTargetMismatch op.id)
  | none => Prog.ofExcept appLifecycle (AppLifecycle.restore app state)

/-- The state and the grants without the target of the operation. -/
def stageWithoutTarget (op : AppOperation) (state : PlatformState) (grants : InMemoryGrantStore) :
    Runner (PlatformState × InMemoryGrantStore) := do
  let app ← target op
  match state.installedApps.getByInstallationId app.installationId with
  | some existing =>
    if existing = app then
      Prog.ofExcept appLifecycle (AppLifecycle.uninstall app.installationId state grants)
    else Prog.throw (recoveredTargetMismatch op.id)
  | none =>
    if (state.installedApps.getByAppId app.appId).isSome then
      Prog.throw (recoveredTargetMismatch op.id)
    else pure (state, grants.removeForSubject (.app app.identity))

def compensateInstallOperation (op : AppOperation) : Runner Unit := do
  let app ← target op
  validateOperationPlan op app
  let (state, grants) ← live
  let (staged, stagedGrants) ← stageWithoutTarget op state grants
  let op ← compensateSteps (compensateInstallResource app staged stagedGrants) op.steps.reverse op
  let op ← advance op op.finishCompensation
  setLive op.id staged stagedGrants

/-! ## The operations of the runner -/

structure AppInstallResult where
  operationId : AppOperationId
  app : InstalledApp

def install (manifest : AppManifest) : Runner AppInstallResult := do
  let (state, grants) ← live
  let installationId ← newUuid
  let (app, staged) ← Prog.ofExcept appLifecycle
    (AppLifecycle.install ⟨installationId⟩ manifest state)
  let startedAt ← now
  let operationId ← newUuid
  let op ← Prog.ofExcept operation (AppOperation.forApp ⟨operationId⟩ app .install startedAt)
  createOperation op
  applyInstall op staged grants
  pure ⟨op.id, app⟩

def uninstall (installationId : InstallationId) : Runner AppInstallResult := do
  let (state, grants) ← live
  match state.installedApps.getByInstallationId installationId with
  | none => Prog.throw (appLifecycle .installationNotFound)
  | some app =>
    let (staged, stagedGrants) ← Prog.ofExcept appLifecycle
      (AppLifecycle.uninstall installationId state grants)
    let startedAt ← now
    let operationId ← newUuid
    let op ← Prog.ofExcept operation (AppOperation.forApp ⟨operationId⟩ app .uninstall startedAt)
    createOperation op
    applyUninstall op staged stagedGrants
    pure ⟨op.id, app⟩

def compensateInstall (id : AppOperationId) : Runner Unit := do
  let answer ← Prog.perform (Call.findOperation id)
  match ← Prog.ofExcept journal answer with
  | none => Prog.throw (operationNotFound id)
  | some op =>
    if op.kind ≠ .install then Prog.throw (unsupportedOperationKind op.kind)
    else
      match op.phase with
      | .applying => do
        let op ← advance op op.beginCompensation
        compensateInstallOperation op
      | .compensating => compensateInstallOperation op
      | phase => Prog.throw (unsupportedOperationPhase phase)

structure AppOperationRecoveryReport where
  resumed : Nat
  committed : Nat
  compensated : Nat
  deriving DecidableEq

/-- Resume one incomplete operation; the answer says whether it was compensated. -/
def recoverOperation (op : AppOperation) : Runner Bool :=
  match op.kind, op.phase with
  | .install, .applying => do
    let (state, grants) ← live
    let staged ← stageInstallTarget op state
    applyInstall op staged grants
    pure false
  | .install, .compensating => do
    compensateInstallOperation op
    pure true
  | .uninstall, .applying => do
    let (state, grants) ← live
    let (staged, stagedGrants) ← stageWithoutTarget op state grants
    applyUninstall op staged stagedGrants
    pure false
  | .update, _ => Prog.throw (unsupportedOperationKind .update)
  | _, phase => Prog.throw (unsupportedOperationPhase phase)

def recoverOperations : List AppOperation → AppOperationRecoveryReport →
    Runner AppOperationRecoveryReport
  | [], report => pure report
  | op :: ops, report => do
    let compensated ← recoverOperation op
    recoverOperations ops (if compensated then { report with compensated := report.compensated + 1 }
      else { report with committed := report.committed + 1 })

def recoverIncomplete : Runner AppOperationRecoveryReport := do
  let ops ← listIncomplete
  recoverOperations ops ⟨ops.length, 0, 0⟩

end AppOperationRunner

end Rumahl
