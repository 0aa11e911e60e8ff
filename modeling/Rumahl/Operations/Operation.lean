import Rumahl.Core.Lifecycle

/-!
# App operations

An `AppOperation` is the durable record of one install, update or uninstall: a plan of resources,
each with its own state, that the runner works through in order, or back through when it
compensates. This module is the domain object with its checks; what its states look like along a
run is in `Rumahl.Operations.Progress`.
-/

namespace Rumahl

structure AppOperationId where
  value : Nat
  deriving DecidableEq

inductive AppOperationKind where
  | install | update | uninstall
  deriving DecidableEq

inductive AppOperationPhase where
  | applying | committed | compensating | compensated
  deriving DecidableEq

inductive AppOperationResource where
  | appDatabases | runtimeInstance | oidcClient | runtimeActivation | platformSnapshot
  deriving DecidableEq

inductive AppOperationResourceState where
  | pending | applying | applied | compensationPending | compensating | compensated
  deriving DecidableEq

structure AppOperationStep where
  resource : AppOperationResource
  state : AppOperationResourceState
  deriving DecidableEq

structure AppOperation where
  id : AppOperationId
  installationId : InstallationId
  kind : AppOperationKind
  phase : AppOperationPhase
  steps : List AppOperationStep
  revision : Nat
  startedAt : UnixTimestamp
  updatedAt : UnixTimestamp
  targetApp : Option InstalledApp
  deriving DecidableEq

inductive AppOperationError where
  | emptyPlan
  | duplicateResource (resource : AppOperationResource)
  | platformSnapshotMissing
  | platformSnapshotMustBeLast
  | timestampMovedBackwards
  | revisionExhausted
  | wrongPhase (expected actual : AppOperationPhase)
  | resourceNotFound (resource : AppOperationResource)
  | resourceOutOfOrder (resource : AppOperationResource)
  | wrongResourceState (resource : AppOperationResource)
      (expected actual : AppOperationResourceState)
  | resourcesNotApplied
  | compensationIncomplete
  | invalidRestoredState
  | targetInstallationMismatch
  deriving DecidableEq

namespace AppOperation

/-! ## Restoring -/

def firstDuplicate : List AppOperationResource → List AppOperationResource →
    Option AppOperationResource
  | _, [] => none
  | seen, r :: rs => if r ∈ seen then some r else firstDuplicate (r :: seen) rs

def validatePlan (steps : List AppOperationStep) : Except AppOperationError Unit :=
  if steps.isEmpty then .error .emptyPlan
  else
    match firstDuplicate [] (steps.map AppOperationStep.resource) with
    | some r => .error (.duplicateResource r)
    | none =>
      match steps.findIdx? fun step => step.resource = .platformSnapshot with
      | none => .error .platformSnapshotMissing
      | some index =>
        if index + 1 ≠ steps.length then .error .platformSnapshotMustBeLast else .ok ()

/-- Where a state may stand while the plan is applied: applied steps, at most one being applied,
then pending ones. -/
def applyingRank : AppOperationResourceState → Option Nat
  | .applied => some 0
  | .applying => some 1
  | .pending => some 2
  | _ => none

/-- The same while the plan is compensated. -/
def compensatingRank : AppOperationResourceState → Option Nat
  | .compensationPending => some 0
  | .compensating => some 1
  | .compensated => some 2
  | .pending => some 3
  | _ => none

/-- Ranks never fall, and at most one step has rank one. -/
def ranksOrdered (rank : AppOperationResourceState → Option Nat) :
    List AppOperationStep → Nat → Nat → Bool
  | [], _, _ => true
  | step :: steps, last, busy =>
    match rank step.state with
    | none => false
    | some r =>
      let busy := if r = 1 then busy + 1 else busy
      if r < last || 1 < busy then false else ranksOrdered rank steps r busy

def compensatedStepsAreOrdered : List AppOperationStep → Bool → Bool
  | [], _ => true
  | step :: steps, pendingSeen =>
    match step.state with
    | .compensated => !pendingSeen && compensatedStepsAreOrdered steps pendingSeen
    | .pending => compensatedStepsAreOrdered steps true
    | _ => false

def phaseMatchesSteps : AppOperationPhase → List AppOperationStep → Bool
  | .applying, steps => ranksOrdered applyingRank steps 0 0
  | .committed, steps => steps.all fun step => step.state = .applied
  | .compensating, steps => ranksOrdered compensatingRank steps 0 0
  | .compensated, steps => compensatedStepsAreOrdered steps false

/-- `AppOperation::restore_with_target`, to which every constructor comes down. -/
def restoreWithTarget (op : AppOperation) : Except AppOperationError AppOperation := do
  validatePlan op.steps
  if op.updatedAt < op.startedAt then throw .timestampMovedBackwards
  if !phaseMatchesSteps op.phase op.steps then throw .invalidRestoredState
  if op.targetApp.any fun app => app.installationId ≠ op.installationId then
    throw .targetInstallationMismatch
  pure op

def new (id : AppOperationId) (installationId : InstallationId) (kind : AppOperationKind)
    (resources : List AppOperationResource) (startedAt : UnixTimestamp) :
    Except AppOperationError AppOperation :=
  restoreWithTarget {
    id, installationId, kind, startedAt
    phase := .applying
    steps := resources.map (⟨·, .pending⟩)
    revision := 0
    updatedAt := startedAt
    targetApp := none }

/-- A container app that runs on demand is started by its window, not by the install. -/
def activatesAtInstall (app : InstalledApp) : Bool :=
  !(app.manifest.runtime.kind = .container && app.manifest.lifecycle = .onDemand)

/-- The resources of an app in the order in which an operation works on them. -/
def resourcesFor (app : InstalledApp) : AppOperationKind → List AppOperationResource
  | .install | .update =>
    (if app.manifest.databases.isEmpty then [] else [.appDatabases]) ++ [.runtimeInstance] ++
    (if app.manifest.oidcClient.isSome then [.oidcClient] else []) ++
    (if activatesAtInstall app then [.runtimeActivation] else []) ++ [.platformSnapshot]
  | .uninstall =>
    [.runtimeActivation] ++ (if app.manifest.oidcClient.isSome then [.oidcClient] else []) ++
    [.runtimeInstance] ++ (if app.manifest.databases.isEmpty then [] else [.appDatabases]) ++
    [.platformSnapshot]

def forApp (id : AppOperationId) (app : InstalledApp) (kind : AppOperationKind)
    (startedAt : UnixTimestamp) : Except AppOperationError AppOperation := do
  let op ← new id app.installationId kind (resourcesFor app kind) startedAt
  pure { op with targetApp := some app }

def isTerminal (op : AppOperation) : Bool :=
  op.phase = .committed || op.phase = .compensated

/-! ## Transitions -/

def requirePhase (op : AppOperation) (expected : AppOperationPhase) :
    Except AppOperationError Unit :=
  if op.phase = expected then .ok () else .error (.wrongPhase expected op.phase)

def stepIndex (op : AppOperation) (resource : AppOperationResource) :
    Except AppOperationError Nat :=
  match op.steps.findIdx? fun step => step.resource = resource with
  | none => .error (.resourceNotFound resource)
  | some index => .ok index

/-- The index comes from `stepIndex`, so it is never out of range. -/
def requireResourceState (op : AppOperation) (resource : AppOperationResource) (index : Nat)
    (expected : AppOperationResourceState) : Except AppOperationError Unit :=
  match op.steps[index]? with
  | none => .error (.resourceNotFound resource)
  | some step =>
    if step.state = expected then .ok ()
    else .error (.wrongResourceState step.resource expected step.state)

/-- One revision further, at a time that is not before the last one. -/
def advance (op : AppOperation) (time : UnixTimestamp) : Except AppOperationError AppOperation :=
  if time < op.updatedAt then .error .timestampMovedBackwards
  else if op.revision + 1 < 2 ^ 64 then
    .ok { op with revision := op.revision + 1, updatedAt := time }
  else .error .revisionExhausted

def setState (op : AppOperation) (index : Nat) (state : AppOperationResourceState) :
    AppOperation :=
  { op with steps := op.steps.modify index fun step => { step with state } }

def beginResource (op : AppOperation) (resource : AppOperationResource) (time : UnixTimestamp) :
    Except AppOperationError AppOperation := do
  op.requirePhase .applying
  let index ← op.stepIndex resource
  if (op.steps.take index).any fun step => step.state ≠ .applied then
    throw (.resourceOutOfOrder resource)
  op.requireResourceState resource index .pending
  let op ← op.advance time
  pure (op.setState index .applying)

def completeResource (op : AppOperation) (resource : AppOperationResource) (time : UnixTimestamp) :
    Except AppOperationError AppOperation := do
  op.requirePhase .applying
  let index ← op.stepIndex resource
  op.requireResourceState resource index .applying
  let op ← op.advance time
  pure (op.setState index .applied)

def commit (op : AppOperation) (time : UnixTimestamp) : Except AppOperationError AppOperation := do
  op.requirePhase .applying
  if op.steps.any fun step => step.state ≠ .applied then throw .resourcesNotApplied
  let op ← op.advance time
  pure { op with phase := .committed }

/-- What was begun is to be undone; what was not begun stays pending. -/
def compensationState : AppOperationResourceState → AppOperationResourceState
  | .applying | .applied => .compensationPending
  | state => state

def beginCompensation (op : AppOperation) (time : UnixTimestamp) :
    Except AppOperationError AppOperation := do
  op.requirePhase .applying
  let op ← op.advance time
  pure { op with
    steps := op.steps.map fun step => { step with state := compensationState step.state }
    phase := .compensating }

def beginResourceCompensation (op : AppOperation) (resource : AppOperationResource)
    (time : UnixTimestamp) : Except AppOperationError AppOperation := do
  op.requirePhase .compensating
  let index ← op.stepIndex resource
  if (op.steps.drop (index + 1)).any fun step =>
      step.state = .compensationPending || step.state = .compensating then
    throw (.resourceOutOfOrder resource)
  op.requireResourceState resource index .compensationPending
  let op ← op.advance time
  pure (op.setState index .compensating)

def completeResourceCompensation (op : AppOperation) (resource : AppOperationResource)
    (time : UnixTimestamp) : Except AppOperationError AppOperation := do
  op.requirePhase .compensating
  let index ← op.stepIndex resource
  op.requireResourceState resource index .compensating
  let op ← op.advance time
  pure (op.setState index .compensated)

def finishCompensation (op : AppOperation) (time : UnixTimestamp) :
    Except AppOperationError AppOperation := do
  op.requirePhase .compensating
  if op.steps.any fun step => step.state ≠ .pending && step.state ≠ .compensated then
    throw .compensationIncomplete
  let op ← op.advance time
  pure { op with phase := .compensated }

end AppOperation

/-- The transitions of an operation. -/
inductive Transition where
  | beginResource (resource : AppOperationResource)
  | completeResource (resource : AppOperationResource)
  | commit
  | beginCompensation
  | beginResourceCompensation (resource : AppOperationResource)
  | completeResourceCompensation (resource : AppOperationResource)
  | finishCompensation

def AppOperation.transition (op : AppOperation) (time : UnixTimestamp) :
    Transition → Except AppOperationError AppOperation
  | .beginResource r => op.beginResource r time
  | .completeResource r => op.completeResource r time
  | .commit => op.commit time
  | .beginCompensation => op.beginCompensation time
  | .beginResourceCompensation r => op.beginResourceCompensation r time
  | .completeResourceCompensation r => op.completeResourceCompensation r time
  | .finishCompensation => op.finishCompensation time

namespace AppOperation

/-- `op'` is a state of the same operation, one revision further. -/
structure Precedes (op op' : AppOperation) : Prop where
  id : op'.id = op.id
  installationId : op'.installationId = op.installationId
  kind : op'.kind = op.kind
  startedAt : op'.startedAt = op.startedAt
  targetApp : op'.targetApp = op.targetApp
  revision : op'.revision = op.revision + 1

variable {op op' : AppOperation} {t : UnixTimestamp}

/-- The computation fails or ends in a next state of `op`, reached at time `t`. -/
private def Moves (op : AppOperation) (t : UnixTimestamp)
    (x : Except AppOperationError AppOperation) :
    Prop :=
  ∀ op', x = .ok op' → op.Precedes op' ∧ op'.updatedAt = t

private theorem Moves.bind {x : Except AppOperationError α}
    {f : α → Except AppOperationError AppOperation} (h : ∀ a, Moves op t (f a)) :
    Moves op t (x >>= f) := by
  intro op' hop'
  obtain ⟨a, -, ha⟩ := Except.bind_eq_ok.mp hop'
  exact h a op' ha

private theorem Moves.throw {e : AppOperationError}
    {f : Unit → Except AppOperationError AppOperation} : Moves op t (throw e >>= f) :=
  fun _ h => nomatch h

/-- Whatever a transition checks first, it then advances and changes the phase and the steps. -/
private theorem Moves.advance {phase : AppOperation → AppOperationPhase}
    {steps : AppOperation → List AppOperationStep} :
    Moves op t (op.advance t >>= fun op1 =>
      pure { op1 with phase := phase op1, steps := steps op1 }) := by
  intro op' hop'
  obtain ⟨op1, h1, h2⟩ := Except.bind_eq_ok.mp hop'
  cases h2
  rw [AppOperation.advance] at h1
  split at h1
  · cases h1
  · split at h1 <;> cases h1
    exact ⟨⟨rfl, rfl, rfl, rfl, rfl, rfl⟩, rfl⟩

private theorem transition_moves (op : AppOperation) (t : UnixTimestamp) (transition : Transition) :
    Moves op t (op.transition t transition) := by
  cases transition with
  | beginResource r | beginResourceCompensation r =>
    refine .bind fun _ => .bind fun index => ?_
    split
    · exact .throw
    · exact .bind fun _ => .advance
  | completeResource r | completeResourceCompensation r =>
    exact .bind fun _ => .bind fun index => .bind fun _ => .advance
  | commit | finishCompensation =>
    refine .bind fun _ => ?_
    split
    · exact .throw
    · exact .advance
  | beginCompensation => exact .bind fun _ => .advance

theorem transition_precedes {transition : Transition} (h : op.transition t transition = .ok op') :
    op.Precedes op' :=
  (transition_moves op t transition op' h).1

theorem transition_updatedAt {transition : Transition} (h : op.transition t transition = .ok op') :
    op'.updatedAt = t :=
  (transition_moves op t transition op' h).2

end AppOperation

end Rumahl
