import Rumahl.Core.Manifest
import Rumahl.Data.Registry

/-!
# The platform state and the app lifecycle

`PlatformState` holds the installed apps and six registries derived from them. `AppLifecycle`
installs, restores and uninstalls an app: it prepares the app's registry entries, checks all of
them against the state and only then changes a copy of the state that replaces the original.
-/

namespace Rumahl

/-! ## Installed apps -/

inductive InstalledAppError where
  | invalidManifest (error : AppManifestValidationError)
  | appIdMismatch
  | publisherIdMismatch
  deriving DecidableEq

/-- An installation: a validated manifest under an identity that matches it. -/
structure InstalledApp where
  identity : AppIdentity
  manifest : AppManifest
  valid : AppManifestValidator.validate manifest = .ok ()
  appId_eq : identity.appId = manifest.appId
  publisherId_eq : identity.publisherId = manifest.publisherId
  deriving DecidableEq

namespace InstalledApp

def installationId (app : InstalledApp) : InstallationId := app.identity.installationId

def appId (app : InstalledApp) : AppId := app.identity.appId

/-- A new installation of `manifest` under the id the generator drew. -/
def create (id : InstallationId) (manifest : AppManifest) : Except InstalledAppError InstalledApp :=
  match h : AppManifestValidator.validate manifest with
  | .error e => .error (.invalidManifest e)
  | .ok () => .ok {
      identity := ⟨manifest.appId, id, manifest.publisherId⟩
      manifest, valid := h, appId_eq := rfl, publisherId_eq := rfl }

/-- An installation that already has an identity. -/
def restore (identity : AppIdentity) (manifest : AppManifest) :
    Except InstalledAppError InstalledApp :=
  match h : AppManifestValidator.validate manifest with
  | .error e => .error (.invalidManifest e)
  | .ok () =>
    if ha : identity.appId = manifest.appId then
      if hp : identity.publisherId = manifest.publisherId then
        .ok { identity, manifest, valid := h, appId_eq := ha, publisherId_eq := hp }
      else .error .publisherIdMismatch
    else .error .appIdMismatch

theorem restore_eq (app : InstalledApp) : restore app.identity app.manifest = .ok app := by
  unfold restore
  split
  · next h => rw [app.valid] at h; cases h
  · rw [dif_pos app.appId_eq, dif_pos app.publisherId_eq]

theorem create_eq_ok {id : InstallationId} (h : create id m = .ok app) :
    app.manifest = m ∧ app.identity = ⟨m.appId, id, m.publisherId⟩ := by
  unfold create at h
  split at h
  · cases h
  · cases h; exact ⟨rfl, rfl⟩

end InstalledApp

inductive InstalledAppRegistryError where
  | appAlreadyInstalled
  | installationAlreadyRegistered
  deriving DecidableEq

structure InstalledAppRegistry where
  apps : List InstalledApp := []
  deriving DecidableEq

namespace InstalledAppRegistry

def canRegister (r : InstalledAppRegistry) (app : InstalledApp) :
    Except InstalledAppRegistryError Unit := do
  Registry.canRegister (fun existing new : InstalledApp => existing.appId = new.appId)
    .appAlreadyInstalled r.apps app
  Registry.canRegister (fun existing new : InstalledApp => existing.installationId =
    new.installationId)
    .installationAlreadyRegistered r.apps app

def register (r : InstalledAppRegistry) (app : InstalledApp) :
    Except InstalledAppRegistryError InstalledAppRegistry := do
  r.canRegister app
  pure ⟨r.apps ++ [app]⟩

def getByAppId (r : InstalledAppRegistry) (id : AppId) : Option InstalledApp :=
  r.apps.find? fun app => app.appId = id

def getByInstallationId (r : InstalledAppRegistry) (id : InstallationId) : Option InstalledApp :=
  r.apps.find? fun app => app.installationId = id

/-- Remove the first app with the id. -/
def remove (r : InstalledAppRegistry) (id : InstallationId) :
    Option (InstalledApp × InstalledAppRegistry) :=
  (r.getByInstallationId id).map fun app =>
    (app, ⟨r.apps.eraseP fun app => app.installationId = id⟩)

end InstalledAppRegistry

/-! ## Registry entries -/

structure CapabilityProvider where
  identity : Identity
  capability : CapabilityId
  deriving DecidableEq

structure ContributionKind where
  value : String
  deriving DecidableEq

structure Contribution where
  id : ContributionId
  owner : Identity
  kind : ContributionKind
  deriving DecidableEq

structure CommandContribution where
  contribution : Contribution
  title : String
  action : CommandAction
  deriving DecidableEq

structure SearchContribution where
  contribution : Contribution
  capability : CapabilityId
  deriving DecidableEq

structure EventSubscription where
  subscriber : Identity
  event : EventName
  deriving DecidableEq

structure AppDatabaseBinding where
  owner : AppIdentity
  declaration : AppDatabaseDeclaration
  deriving DecidableEq

inductive CommandContributionError where
  | emptyTitle
  | titleTooLong
  deriving DecidableEq

/-- The identities that own entries here are apps, so the checks that refuse a user as owner are
left out with their errors. -/
def CommandContribution.new (id : ContributionId) (owner : AppIdentity) (title : String)
    (action : CommandAction) : Except CommandContributionError CommandContribution :=
  match label 120 title with
  | .error .empty => .error .emptyTitle
  | .error .tooLong => .error .titleTooLong
  | .ok title => .ok ⟨⟨id, .app owner, ⟨"command"⟩⟩, title, action⟩

def SearchContribution.new (id : ContributionId) (owner : AppIdentity) (capability : CapabilityId) :
    SearchContribution :=
  ⟨⟨id, .app owner, ⟨"search-provider"⟩⟩, capability⟩

/-- The entries of one app. -/
structure PlatformRegistration where
  capabilityProviders : List CapabilityProvider := []
  contributions : List Contribution := []
  commands : List CommandContribution := []
  searches : List SearchContribution := []
  eventSubscriptions : List EventSubscription := []
  databases : List AppDatabaseBinding := []

inductive PlatformRegistrationError where
  | invalidCommandContribution (error : CommandContributionError)
  deriving DecidableEq

namespace PlatformRegistration

def prepareContributions (identity : AppIdentity) : List ContributionDeclaration →
    Except PlatformRegistrationError
      (List Contribution × List CommandContribution × List SearchContribution)
  | [] => .ok ([], [], [])
  | .command d :: ds =>
    match CommandContribution.new d.id identity d.title d.action with
    | .error e => .error (.invalidCommandContribution e)
    | .ok command => do
      let (contributions, commands, searches) ← prepareContributions identity ds
      pure (command.contribution :: contributions, command :: commands, searches)
  | .search d :: ds => do
    let search := SearchContribution.new d.id identity d.capability
    let (contributions, commands, searches) ← prepareContributions identity ds
    pure (search.contribution :: contributions, commands, search :: searches)

def prepare (app : InstalledApp) : Except PlatformRegistrationError PlatformRegistration := do
  let (contributions, commands, searches) ←
    prepareContributions app.identity app.manifest.contributions
  pure {
    capabilityProviders := app.manifest.providedCapabilities.map (⟨.app app.identity, ·⟩)
    contributions, commands, searches
    eventSubscriptions := app.manifest.eventSubscriptions.map (⟨.app app.identity, ·⟩)
    databases := app.manifest.databases.map (⟨app.identity, ·⟩) }

end PlatformRegistration

/-! ## The state -/

structure PlatformState where
  capabilityRegistry : List CapabilityProvider := []
  contributionRegistry : List Contribution := []
  commandRegistry : List CommandContribution := []
  searchRegistry : List SearchContribution := []
  eventBus : List EventSubscription := []
  databaseRegistry : List AppDatabaseBinding := []
  installedApps : InstalledAppRegistry := {}
  deriving DecidableEq

instance : Inhabited PlatformState := ⟨{}⟩

def PlatformState.databasesForOwner (s : PlatformState) (owner : AppIdentity) :
    List AppDatabaseBinding :=
  s.databaseRegistry.filter fun binding => binding.owner = owner

/-! Each registry has its own notion of a duplicate. -/

def CapabilityRegistry.clash (existing new : CapabilityProvider) : Bool := existing = new

def ContributionRegistry.clash (existing new : Contribution) : Bool := existing.id = new.id

def CommandRegistry.clash (existing new : CommandContribution) : Bool :=
  existing.contribution.id = new.contribution.id

def SearchRegistry.clash (existing new : SearchContribution) : Bool :=
  existing.contribution.id = new.contribution.id

def EventBus.clash (existing new : EventSubscription) : Bool := existing = new

def AppDatabaseRegistry.clash (existing new : AppDatabaseBinding) : Bool :=
  existing.owner = new.owner && existing.declaration.id = new.declaration.id

/-- Every registry has one error, so a conflict only names the registry. -/
inductive PlatformRegistrarError where
  | capabilityConflict | contributionConflict | commandConflict | searchConflict
  | eventSubscriptionConflict | databaseConflict
  deriving DecidableEq

namespace PlatformRegistrar

open Registry

def canRegister (r : PlatformRegistration) (s : PlatformState) :
    Except PlatformRegistrarError Unit := do
  canRegisterAll CapabilityRegistry.clash .capabilityConflict s.capabilityRegistry
    r.capabilityProviders
  canRegisterAll ContributionRegistry.clash .contributionConflict s.contributionRegistry
    r.contributions
  canRegisterAll CommandRegistry.clash .commandConflict s.commandRegistry r.commands
  canRegisterAll SearchRegistry.clash .searchConflict s.searchRegistry r.searches
  canRegisterAll EventBus.clash .eventSubscriptionConflict s.eventBus r.eventSubscriptions
  canRegisterAll AppDatabaseRegistry.clash .databaseConflict s.databaseRegistry r.databases

def applyRegistration (r : PlatformRegistration) (s : PlatformState) :
    Except PlatformRegistrarError PlatformState := do
  let capabilityRegistry ← registerAll CapabilityRegistry.clash .capabilityConflict
    s.capabilityRegistry r.capabilityProviders
  let contributionRegistry ← registerAll ContributionRegistry.clash .contributionConflict
    s.contributionRegistry r.contributions
  let commandRegistry ← registerAll CommandRegistry.clash .commandConflict
    s.commandRegistry r.commands
  let searchRegistry ← registerAll SearchRegistry.clash .searchConflict
    s.searchRegistry r.searches
  let eventBus ← registerAll EventBus.clash .eventSubscriptionConflict
    s.eventBus r.eventSubscriptions
  let databaseRegistry ← registerAll AppDatabaseRegistry.clash .databaseConflict
    s.databaseRegistry r.databases
  pure { s with
    capabilityRegistry, contributionRegistry, commandRegistry, searchRegistry, eventBus,
    databaseRegistry }

def applyDeregistration (app : InstalledApp) (s : PlatformState) : PlatformState :=
  let identity := Identity.app app.identity
  { s with
    capabilityRegistry := removeOwned CapabilityProvider.identity s.capabilityRegistry identity
    contributionRegistry := removeOwned Contribution.owner s.contributionRegistry identity
    commandRegistry := removeOwned (·.contribution.owner) s.commandRegistry identity
    searchRegistry := removeOwned (·.contribution.owner) s.searchRegistry identity
    eventBus := removeOwned EventSubscription.subscriber s.eventBus identity
    databaseRegistry := removeOwned AppDatabaseBinding.owner s.databaseRegistry app.identity }

end PlatformRegistrar

/-! ## The lifecycle -/

inductive AppLifecycleError where
  | invalidApp (error : InstalledAppError)
  | registrationPreparationFailed (error : PlatformRegistrationError)
  | installedAppConflict (error : InstalledAppRegistryError)
  | platformRegistrationConflict (error : PlatformRegistrarError)
  | installationNotFound
  deriving DecidableEq

namespace AppLifecycle

def register (app : InstalledApp) (s : PlatformState) : Except AppLifecycleError PlatformState := do
  let registration ← (PlatformRegistration.prepare app).mapError .registrationPreparationFailed
  (s.installedApps.canRegister app).mapError .installedAppConflict
  (PlatformRegistrar.canRegister registration s).mapError .platformRegistrationConflict
  let installedApps ← (s.installedApps.register app).mapError .installedAppConflict
  (PlatformRegistrar.applyRegistration registration { s with installedApps }).mapError
    .platformRegistrationConflict

/-- The app and the changed state; the state is unchanged on an error. -/
def install (id : InstallationId) (manifest : AppManifest) (s : PlatformState) :
    Except AppLifecycleError (InstalledApp × PlatformState) := do
  let app ← (InstalledApp.create id manifest).mapError .invalidApp
  let s ← register app s
  pure (app, s)

/-- Restores an installation under the identity it already has. -/
def restore (app : InstalledApp) (s : PlatformState) : Except AppLifecycleError PlatformState :=
  register app s

def uninstall (id : InstallationId) (s : PlatformState) (grants : InMemoryGrantStore) :
    Except AppLifecycleError (PlatformState × InMemoryGrantStore) :=
  match s.installedApps.getByInstallationId id with
  | none => .error .installationNotFound
  | some app =>
    let staged := PlatformRegistrar.applyDeregistration app s
    match staged.installedApps.remove id with
    | none => .error .installationNotFound
    | some (removed, installedApps) =>
      .ok ({ staged with installedApps }, grants.removeForSubject (.app removed.identity))

end AppLifecycle

end Rumahl
