import Rumahl.Core.ManifestParts
import Rumahl.Core.Platform

/-!
# The stored form of a snapshot

A snapshot is stored as one row with its version and a JSON document. The document is written from
a tree of plain records (`WireSnapshot`), and reading it goes through the constructors of the
domain, part by part. JSON text is not modelled: the row holds the tree, which `serde_json` writes
and reads back. Ids that come from the UUID generator stay as they are, since the text of a UUID
parses to the same UUID.

Every part that is captured reads back as itself (the `intoDomain_capture` theorems), so a stored
platform loads and recovers to the state it was taken from (`stored_platform_recovers`).
-/

namespace Rumahl

open AppManifest Except AppSettingDeclaration

/-! ## Errors -/

/-- What was wrong with a field: the error of the constructor that refused it, or a message. -/
inductive WireCause where
  | dottedName (error : DottedNameError)
  | name (error : NameError)
  | path (error : PathError)
  | version (error : AppVersionError)
  | runtime (error : RuntimeDescriptorError)
  | contribution (error : CommandContributionDeclarationError)
  | target (error : ConnectorTargetError)
  | setting (error : AppSettingError)
  | oidcClient (error : OidcClientDeclarationError)
  | stream (error : StreamPresentationError)
  | manifest (error : AppManifestError)
  | installedApp (error : InstalledAppError)
  | grant (error : PermissionGrantError)
  | message (text : String)

structure WireSnapshotError where
  field : String
  cause : WireCause

def WireSnapshotError.invalid (field : String) (cause : ε → WireCause) (error : ε) :
    WireSnapshotError :=
  ⟨field, cause error⟩

open WireSnapshotError (invalid)

/-! ## Identities, resources and grants -/

structure WireAppIdentity where
  appId : String
  installationId : InstallationId
  publisherId : String

namespace WireAppIdentity

def capture (identity : AppIdentity) : WireAppIdentity :=
  ⟨identity.appId.value, identity.installationId, identity.publisherId.value⟩

def intoDomain (w : WireAppIdentity) : Except WireSnapshotError AppIdentity := do
  let appId ← (AppId.parse w.appId).mapError (invalid "app identity app_id" .dottedName)
  let publisherId ← (PublisherId.parse w.publisherId).mapError
    (invalid "app identity publisher_id" .dottedName)
  pure ⟨appId, w.installationId, publisherId⟩

@[simp] theorem intoDomain_capture (i : AppIdentity) : (capture i).intoDomain = .ok i := by
  simp [capture, intoDomain]

end WireAppIdentity

inductive WireIdentity where
  | user (id : UserId)
  | app (identity : WireAppIdentity)
  | service (id : String)

namespace WireIdentity

def capture : Identity → WireIdentity
  | .user id => .user id
  | .app identity => .app (.capture identity)
  | .service id => .service id.value

def intoDomain : WireIdentity → Except WireSnapshotError Identity
  | .user id => .ok (.user id)
  | .app identity => do
    let identity ← identity.intoDomain
    pure (.app identity)
  | .service id => do
    let id ← (ServiceId.parse id).mapError (invalid "service identity" .dottedName)
    pure (.service id)

@[simp] theorem intoDomain_capture (i : Identity) : (capture i).intoDomain = .ok i := by
  cases i <;> simp [capture, intoDomain]

end WireIdentity

inductive WirePermissionScope where
  | appPrivate | userOwn | userSelected | explicit | familyShared | system

namespace WirePermissionScope

def capture : PermissionScope → WirePermissionScope
  | .appPrivate => .appPrivate
  | .userOwn => .userOwn
  | .userSelected => .userSelected
  | .explicit => .explicit
  | .familyShared => .familyShared
  | .system => .system

def intoDomain : WirePermissionScope → PermissionScope
  | .appPrivate => .appPrivate
  | .userOwn => .userOwn
  | .userSelected => .userSelected
  | .explicit => .explicit
  | .familyShared => .familyShared
  | .system => .system

@[simp] theorem intoDomain_capture (s : PermissionScope) : (capture s).intoDomain = s := by
  cases s <;> rfl

end WirePermissionScope

structure WireResource where
  ns : String
  kind : String
  key : String

namespace WireResource

def capture (r : ResourceRef) : WireResource := ⟨r.ns.value, r.kind.value, r.key.value⟩

def intoDomain (w : WireResource) : Except WireSnapshotError ResourceRef := do
  let ns ← (ResourceNamespace.parse w.ns).mapError (invalid "resource namespace" .dottedName)
  let kind ← (ResourceKind.parse w.kind).mapError (invalid "resource kind" .name)
  let key ← (ResourceKey.parse w.key).mapError (invalid "resource key" .name)
  pure ⟨ns, kind, key⟩

@[simp] theorem intoDomain_capture (r : ResourceRef) : (capture r).intoDomain = .ok r := by
  simp [capture, intoDomain]

end WireResource

structure WireGrant where
  id : GrantId
  subject : WireIdentity
  permission : String
  scope : WirePermissionScope
  resources : List WireResource
  grantedBy : WireIdentity

namespace WireGrant

def capture (g : PermissionGrant) : WireGrant where
  id := g.id
  subject := .capture g.subject
  permission := g.permission.value
  scope := .capture g.scope
  resources := g.resources.map .capture
  grantedBy := .capture g.grantedBy

def intoDomain (w : WireGrant) : Except WireSnapshotError PermissionGrant := do
  let subject ← w.subject.intoDomain
  let permission ← (PermissionId.parse w.permission).mapError
    (invalid "grant permission" .dottedName)
  let resources ← w.resources.mapM WireResource.intoDomain
  let grantedBy ← w.grantedBy.intoDomain
  (PermissionGrant.create w.id subject permission w.scope.intoDomain resources grantedBy).mapError
    (invalid "grant" .grant)

@[simp] theorem intoDomain_capture (g : PermissionGrant) : (capture g).intoDomain = .ok g := by
  have hresources : (g.resources.map WireResource.capture).mapM WireResource.intoDomain =
      .ok g.resources :=
    mapM_map fun r _ => WireResource.intoDomain_capture r
  simp [capture, intoDomain, hresources, PermissionGrant.create_eq]

end WireGrant

/-! ## Runtimes -/

inductive WireRuntimeKind where
  | web | container | native

namespace WireRuntimeKind

def capture : RuntimeKind → WireRuntimeKind
  | .web => .web
  | .container => .container
  | .native => .native

def intoDomain : WireRuntimeKind → RuntimeKind
  | .web => .web
  | .container => .container
  | .native => .native

@[simp] theorem intoDomain_capture (k : RuntimeKind) : (capture k).intoDomain = k := by
  cases k <;> rfl

end WireRuntimeKind

inductive WireRuntimeEntrypoint where
  | webAsset (id path : String)
  | containerArtifact (id path : String)
  | endpoint (id endpoint : String)

def parseEntrypointId (value : String) : Except WireSnapshotError RuntimeEntrypointId :=
  (RuntimeEntrypointId.parse value).mapError (invalid "runtime entrypoint id" .name)

namespace WireRuntimeEntrypoint

def capture (e : RuntimeEntrypoint) : WireRuntimeEntrypoint :=
  match e.target with
  | .webAsset path => .webAsset e.id.value path.value
  | .containerArtifact path => .containerArtifact e.id.value path.value
  | .endpoint port => .endpoint e.id.value port.value

def intoDomain : WireRuntimeEntrypoint → Except WireSnapshotError RuntimeEntrypoint
  | .webAsset id path => do
    let id ← parseEntrypointId id
    let path ← (PackagePath.parse path).mapError (invalid "web asset path" .path)
    pure ⟨id, .webAsset path⟩
  | .containerArtifact id path => do
    let id ← parseEntrypointId id
    let path ← (PackagePath.parse path).mapError (invalid "container artifact path" .path)
    pure ⟨id, .containerArtifact path⟩
  | .endpoint id port => do
    let id ← parseEntrypointId id
    let port ← (RuntimeEndpointId.parse port).mapError (invalid "runtime endpoint" .name)
    pure ⟨id, .endpoint port⟩

@[simp] theorem intoDomain_capture (e : RuntimeEntrypoint) : (capture e).intoDomain = .ok e := by
  obtain ⟨id, target⟩ := e
  cases target <;> simp [capture, intoDomain, parseEntrypointId]

end WireRuntimeEntrypoint

structure WireRuntime where
  kind : WireRuntimeKind
  entrypoints : List WireRuntimeEntrypoint

namespace WireRuntime

def capture (r : RuntimeDescriptor) : WireRuntime :=
  ⟨.capture r.kind, r.entrypoints.map .capture⟩

def intoDomain (w : WireRuntime) : Except WireSnapshotError RuntimeDescriptor :=
  w.entrypoints.foldlM (fun runtime e => do
      let e ← e.intoDomain
      (runtime.addEntrypoint e).mapError (invalid "runtime entrypoint" .runtime))
    (RuntimeDescriptor.new w.kind.intoDomain)

@[simp] theorem intoDomain_capture (r : RuntimeDescriptor) : (capture r).intoDomain = .ok r := by
  rw [intoDomain, capture, WireRuntimeKind.intoDomain_capture]
  exact foldlM_parsed (fun e _ => WireRuntimeEntrypoint.intoDomain_capture e) r.rebuild

end WireRuntime

/-! ## Declarations -/

structure WirePermissionRequest where
  permission : String
  scope : WirePermissionScope
  required : Bool
  reason : Option String

namespace WirePermissionRequest

def capture (r : PermissionRequest) : WirePermissionRequest :=
  ⟨r.permission.value, .capture r.requestedScope, r.required, r.reason⟩

def intoDomain (w : WirePermissionRequest) : Except WireSnapshotError PermissionRequest := do
  let permission ← (PermissionId.parse w.permission).mapError
    (invalid "permission request id" .dottedName)
  pure ⟨permission, w.scope.intoDomain, w.required, w.reason⟩

@[simp] theorem intoDomain_capture (r : PermissionRequest) : (capture r).intoDomain = .ok r := by
  simp [capture, intoDomain]

end WirePermissionRequest

inductive WireCommandAction where
  | invokeCapability (capability : String)
  | openApp (appId : String)

namespace WireCommandAction

def capture : CommandAction → WireCommandAction
  | .invokeCapability capability => .invokeCapability capability.value
  | .openApp appId => .openApp appId.value

def intoDomain : WireCommandAction → Except WireSnapshotError CommandAction
  | .invokeCapability capability => do
    let capability ← (CapabilityId.parse capability).mapError
      (invalid "command action capability" .dottedName)
    pure (.invokeCapability capability)
  | .openApp appId => do
    let appId ← (AppId.parse appId).mapError (invalid "command action app_id" .dottedName)
    pure (.openApp appId)

@[simp] theorem intoDomain_capture (a : CommandAction) : (capture a).intoDomain = .ok a := by
  cases a <;> simp [capture, intoDomain]

end WireCommandAction

inductive WireContribution where
  | command (id title : String) (action : WireCommandAction)
  | search (id capability : String)

namespace WireContribution

def capture : ContributionDeclaration → WireContribution
  | .command d => .command d.id.value d.title (.capture d.action)
  | .search d => .search d.id.value d.capability.value

def intoDomain : WireContribution → Except WireSnapshotError ContributionDeclaration
  | .command id title action => do
    let id ← (ContributionId.parse id).mapError (invalid "command contribution id" .dottedName)
    let action ← action.intoDomain
    let declaration ← (CommandContributionDeclaration.new id title action).mapError
      (invalid "command contribution" .contribution)
    pure (.command declaration)
  | .search id capability => do
    let id ← (ContributionId.parse id).mapError (invalid "search contribution id" .dottedName)
    let capability ← (CapabilityId.parse capability).mapError
      (invalid "search contribution capability" .dottedName)
    pure (.search ⟨id, capability⟩)

@[simp] theorem intoDomain_capture (d : ContributionDeclaration) :
    (capture d).intoDomain = .ok d := by
  cases d <;> simp [capture, intoDomain, CommandContributionDeclaration.new_eq]

end WireContribution

structure WireAppDatabase where
  id : String

namespace WireAppDatabase

def capture (d : AppDatabaseDeclaration) : WireAppDatabase := ⟨d.id.value⟩

def intoDomain (w : WireAppDatabase) : Except WireSnapshotError AppDatabaseDeclaration := do
  let id ← (AppDatabaseId.parse w.id).mapError (invalid "app database id" .name)
  pure ⟨id⟩

@[simp] theorem intoDomain_capture (d : AppDatabaseDeclaration) :
    (capture d).intoDomain = .ok d := by
  simp [capture, intoDomain]

end WireAppDatabase

structure WireSettingOption where
  value : String
  label : String

structure WireSetting where
  key : String
  title : String
  description : Option String
  kind : String
  options : List WireSettingOption
  required : Bool

namespace WireSetting

def captureOption (o : AppSettingOption) : WireSettingOption := ⟨o.value, o.label⟩

def capture (d : AppSettingDeclaration) : WireSetting :=
  let (kind, options) := match d.kind with
    | .text => ("text", [])
    | .number => ("number", [])
    | .boolean => ("boolean", [])
    | .select options => ("select", options.map captureOption)
  ⟨d.key.value, d.title, d.description, kind, options, d.required⟩

def optionIntoDomain (o : WireSettingOption) : Except WireSnapshotError AppSettingOption :=
  (AppSettingOption.new o.value o.label).mapError (invalid "setting option" .setting)

def kindIntoDomain (kind : String) (options : List WireSettingOption) :
    Except WireSnapshotError AppSettingKind :=
  if kind = "text" ∨ kind = "number" ∨ kind = "boolean" then
    if options ≠ [] then
      .error (invalid "setting options" .message "options on a non-select setting")
    else if kind = "text" then .ok .text
    else if kind = "number" then .ok .number
    else .ok .boolean
  else if kind = "select" then
    if options = [] then
      .error (invalid "setting options" .message "select setting without options")
    else do
      let options ← options.mapM optionIntoDomain
      pure (.select options)
  else .error (invalid "setting kind" .message ("unknown kind " ++ kind.quote))

def intoDomain (w : WireSetting) : Except WireSnapshotError AppSettingDeclaration := do
  let key ← (AppSettingKey.parse w.key).mapError (invalid "setting key" .setting)
  let kind ← kindIntoDomain w.kind w.options
  let declaration ← (AppSettingDeclaration.new key w.title kind).mapError
    (invalid "setting" .setting)
  let declaration ← match w.description with
    | none => pure declaration
    | some description =>
      (declaration.withDescription description).mapError (invalid "setting description" .setting)
  pure (if w.required then declaration.setRequired else declaration)

theorem kindIntoDomain_capture (d : AppSettingDeclaration) :
    kindIntoDomain (capture d).kind (capture d).options = .ok d.kind := by
  have hk := d.kind_check
  cases h : d.kind with
  | select options =>
    have hne : options ≠ [] := by
      rintro rfl
      rw [h] at hk
      cases hk
    have hoptions : (options.map captureOption).mapM optionIntoDomain = .ok options :=
      mapM_map fun o _ => by simp [optionIntoDomain, captureOption, o.new_eq]
    simp [capture, h, kindIntoDomain, hne, hoptions]
  | _ => simp [capture, h, kindIntoDomain]

@[simp] theorem intoDomain_capture (d : AppSettingDeclaration) :
    (capture d).intoDomain = .ok d := by
  rw [intoDomain, kindIntoDomain_capture]
  obtain ⟨key, title, description, kind, required, ht, hd, hk⟩ := d
  cases description with
  | none =>
    cases required <;>
      simp [capture, new_eq ht hk, setRequired]
  | some text =>
    cases required <;>
      simp [capture, new_eq ht hk, setRequired,
        withDescription_eq (hd text rfl)]

end WireSetting

structure WireConnector where
  target : String
  entrypoint : String

namespace WireConnector

def capture (c : ConnectorDeclaration) : WireConnector := ⟨c.target.value, c.entrypoint.value⟩

def intoDomain (w : WireConnector) : Except WireSnapshotError ConnectorDeclaration := do
  let target ← (ConnectorTarget.parse w.target).mapError (invalid "connector target" .target)
  let entrypoint ← (RuntimeEntrypointId.parse w.entrypoint).mapError
    (invalid "connector entrypoint" .name)
  pure ⟨target, entrypoint⟩

@[simp] theorem intoDomain_capture (c : ConnectorDeclaration) : (capture c).intoDomain = .ok c := by
  simp [capture, intoDomain]

end WireConnector

inductive WireOidcClientType where
  | publicClient | confidential

namespace WireOidcClientType

def capture : OidcClientType → WireOidcClientType
  | .publicClient => .publicClient
  | .confidential => .confidential

def intoDomain : WireOidcClientType → OidcClientType
  | .publicClient => .publicClient
  | .confidential => .confidential

@[simp] theorem intoDomain_capture (t : OidcClientType) : (capture t).intoDomain = t := by
  cases t <;> rfl

end WireOidcClientType

inductive WireOidcScope where
  | openId | profile | email | offlineAccess

namespace WireOidcScope

def capture : OidcScope → WireOidcScope
  | .openId => .openId
  | .profile => .profile
  | .email => .email
  | .offlineAccess => .offlineAccess

def intoDomain : WireOidcScope → OidcScope
  | .openId => .openId
  | .profile => .profile
  | .email => .email
  | .offlineAccess => .offlineAccess

@[simp] theorem intoDomain_capture (s : OidcScope) : (capture s).intoDomain = s := by
  cases s <;> rfl

end WireOidcScope

structure WireOidcClient where
  clientType : WireOidcClientType
  callbackEntrypoint : String
  callbackPath : String
  scopes : List WireOidcScope

namespace WireOidcClient

def capture (d : OidcClientDeclaration) : WireOidcClient :=
  ⟨.capture d.clientType, d.callbackEntrypoint.value, d.callbackPath.value, d.scopes.map .capture⟩

def intoDomain (w : WireOidcClient) : Except WireSnapshotError OidcClientDeclaration := do
  let callbackEntrypoint ← (RuntimeEntrypointId.parse w.callbackEntrypoint).mapError
    (invalid "OIDC callback entrypoint" .name)
  let callbackPath ← (OidcCallbackPath.parse w.callbackPath).mapError
    (invalid "OIDC callback path" .path)
  (OidcClientDeclaration.new w.clientType.intoDomain callbackEntrypoint callbackPath
    (w.scopes.map WireOidcScope.intoDomain)).mapError
      (invalid "OIDC client declaration" .oidcClient)

@[simp] theorem intoDomain_capture (d : OidcClientDeclaration) :
    (capture d).intoDomain = .ok d := by
  have hscopes : (d.scopes.map WireOidcScope.capture).map WireOidcScope.intoDomain = d.scopes := by
    simp [Function.comp_def]
  simp only [capture, intoDomain, hscopes]
  simp [OidcClientDeclaration.new_eq]

end WireOidcClient

structure WirePreferredStreamSize where
  width : UInt16
  height : UInt16

structure WireStreamPresentation where
  appEntrypoint : String
  preferredSize : Option WirePreferredStreamSize
  preferredFrameRate : Option UInt8

namespace WireStreamPresentation

def captureSize (s : PreferredStreamSize) : WirePreferredStreamSize := ⟨s.width, s.height⟩

def capture (p : StreamPresentation) : WireStreamPresentation :=
  ⟨p.appEntrypoint.value, p.preferredSize.map captureSize, p.preferredFrameRate⟩

def sizeIntoDomain (w : WirePreferredStreamSize) : Except WireSnapshotError PreferredStreamSize :=
  (PreferredStreamSize.new w.width w.height).mapError (invalid "preferred stream size" .stream)

def intoDomain (w : WireStreamPresentation) : Except WireSnapshotError StreamPresentation := do
  let size ← w.preferredSize.mapM sizeIntoDomain
  let appEntrypoint ← (RuntimeEntrypointId.parse w.appEntrypoint).mapError
    (invalid "stream app entrypoint" .name)
  (StreamPresentation.new appEntrypoint size w.preferredFrameRate).mapError
    (invalid "stream presentation" .stream)

@[simp] theorem intoDomain_capture (p : StreamPresentation) : (capture p).intoDomain = .ok p := by
  have hsize : (p.preferredSize.map captureSize).mapM sizeIntoDomain = .ok p.preferredSize := by
    cases p.preferredSize with
    | none => rfl
    | some s => simp [sizeIntoDomain, captureSize, s.new_eq]
  simp [capture, intoDomain, hsize, StreamPresentation.new_eq]

end WireStreamPresentation

/-! ## Manifests -/

structure WireManifest where
  appId : String
  publisherId : String
  version : String
  displayName : String
  runtime : WireRuntime
  lifecycle : Option String
  permissionRequests : List WirePermissionRequest
  providedCapabilities : List String
  contributions : List WireContribution
  eventSubscriptions : List String
  databases : List WireAppDatabase
  settings : List WireSetting
  connectors : List WireConnector
  oidcClient : Option WireOidcClient
  streamPresentation : Option WireStreamPresentation

namespace WireManifest

def capture (m : AppManifest) : WireManifest where
  appId := m.appId.value
  publisherId := m.publisherId.value
  version := m.version.display
  displayName := m.displayName
  runtime := .capture m.runtime
  lifecycle := match m.lifecycle with
    | .onDemand => none
    | other => some other.asStr
  permissionRequests := m.permissionRequests.map .capture
  providedCapabilities := m.providedCapabilities.map (·.value)
  contributions := m.contributions.map .capture
  eventSubscriptions := m.eventSubscriptions.map (·.value)
  databases := m.databases.map .capture
  settings := m.settings.map .capture
  connectors := m.connectors.map .capture
  oidcClient := m.oidcClient.map .capture
  streamPresentation := m.streamPresentation.map .capture

/-- The loops of `into_domain`: read every element and add it to the manifest. -/
def addEach {α β : Type} (parse : β → Except WireSnapshotError α)
    (add : AppManifest → α → Except AppManifestError AppManifest) (field : String)
    (elements : List β) (m : AppManifest) : Except WireSnapshotError AppManifest :=
  elements.foldlM (fun m element => do
    let element ← parse element
    (add m element).mapError (invalid field .manifest)) m

def setLifecycle (lifecycle : Option String) (m : AppManifest) :
    Except WireSnapshotError AppManifest :=
  match lifecycle with
  | none => .ok m
  | some text =>
    match RuntimeLifecycle.parse text with
    | some lifecycle => .ok (m.setLifecycle lifecycle)
    | none => .error (invalid "manifest lifecycle" .message "unknown lifecycle")

def declareOidcClient (client : Option WireOidcClient) (m : AppManifest) :
    Except WireSnapshotError AppManifest :=
  match client with
  | none => .ok m
  | some client => do
    let client ← client.intoDomain
    (m.declareOidcClient client).mapError (invalid "manifest OIDC client" .manifest)

def declareStreamPresentation (presentation : Option WireStreamPresentation) (m : AppManifest) :
    Except WireSnapshotError AppManifest :=
  match presentation with
  | none => .ok m
  | some presentation => do
    let presentation ← presentation.intoDomain
    (m.declareStreamPresentation presentation).mapError
      (invalid "manifest stream presentation" .manifest)

def intoDomain (w : WireManifest) : Except WireSnapshotError AppManifest := do
  let appId ← (AppId.parse w.appId).mapError (invalid "manifest app_id" .dottedName)
  let publisherId ← (PublisherId.parse w.publisherId).mapError
    (invalid "manifest publisher_id" .dottedName)
  let version ← (AppVersion.parse w.version).mapError (invalid "manifest version" .version)
  let runtime ← w.runtime.intoDomain
  let manifest ← (AppManifest.new appId publisherId version w.displayName runtime).mapError
    (invalid "manifest" .manifest)
  let manifest ← setLifecycle w.lifecycle manifest
  let manifest ← addEach WirePermissionRequest.intoDomain addPermissionRequest
    "manifest permission request" w.permissionRequests manifest
  let manifest ← addEach
    (fun c => (CapabilityId.parse c).mapError (invalid "manifest provided capability" .dottedName))
    addProvidedCapability "manifest provided capability" w.providedCapabilities manifest
  let manifest ← addEach WireContribution.intoDomain addContribution
    "manifest contribution" w.contributions manifest
  let manifest ← addEach
    (fun e => (EventName.parse e).mapError (invalid "manifest event subscription" .dottedName))
    addEventSubscription "manifest event subscription" w.eventSubscriptions manifest
  let manifest ← addEach WireAppDatabase.intoDomain addDatabase "manifest database"
    w.databases manifest
  let manifest ← addEach WireSetting.intoDomain addSetting "manifest setting"
    w.settings manifest
  let manifest ← addEach WireConnector.intoDomain addConnector "manifest connector"
    w.connectors manifest
  let manifest ← declareOidcClient w.oidcClient manifest
  declareStreamPresentation w.streamPresentation manifest

theorem addEach_map {parse : β → Except WireSnapshotError α} {print : α → β} {elements : List α}
    {add : AppManifest → α → Except AppManifestError AppManifest}
    (hparse : ∀ a, parse (print a) = .ok a) (hadd : elements.foldlM add m = .ok m') :
    addEach parse add field (elements.map print) m = .ok m' :=
  foldlM_parsed (fun a _ => hparse a) hadd

theorem setLifecycle_capture (m : AppManifest) :
    setLifecycle (capture m).lifecycle { m.upTo {} with lifecycle := default } =
      .ok (m.upTo {}) := by
  cases h : m.lifecycle <;> simp [capture, setLifecycle, AppManifest.setLifecycle, h,
    upTo, RuntimeLifecycle.parse_asStr]
  rfl

theorem declareOidcClient_capture {m : AppManifest} (hn : n.oidcClient = false) :
    declareOidcClient (m.oidcClient.map .capture) (m.upTo n) =
      .ok (m.upTo { n with oidcClient := true }) := by
  cases h : m.oidcClient with
  | none => exact congrArg Except.ok (upTo_oidcClient h)
  | some d => simp [declareOidcClient, declareOidcClient_upTo hn h]

theorem declareStreamPresentation_capture {m : AppManifest} (hn : n.streamPresentation = false) :
    declareStreamPresentation (m.streamPresentation.map .capture) (m.upTo n) =
      .ok (m.upTo { n with streamPresentation := true }) := by
  cases h : m.streamPresentation with
  | none => exact congrArg Except.ok (upTo_streamPresentation h)
  | some p => simp [declareStreamPresentation, declareStreamPresentation_upTo hn h]

@[simp] theorem intoDomain_capture (m : AppManifest) : (capture m).intoDomain = .ok m := by
  rw [intoDomain]
  simp only [bind_eq_ok]
  refine ⟨m.appId, by simp [capture], m.publisherId, by simp [capture], m.version,
    by simp [capture], m.runtime, by simp [capture], _, mapError_eq_ok.mpr m.new_eq,
    _, setLifecycle_capture m, _, addEach_map (by simp) (addPermissionRequest_loop rfl),
    _, addEach_map (by simp) (addProvidedCapability_loop rfl),
    _, addEach_map (by simp) (addContribution_loop rfl),
    _, addEach_map (by simp) (addEventSubscription_loop rfl),
    _, addEach_map (by simp) (addDatabase_loop rfl),
    _, addEach_map (by simp) (addSetting_loop rfl),
    _, addEach_map (by simp) (addConnector_loop rfl),
    _, declareOidcClient_capture rfl, ?_⟩
  exact (declareStreamPresentation_capture rfl).trans (congrArg Except.ok m.upTo_extent)

end WireManifest

/-! ## Snapshots -/

structure WireInstalledApp where
  identity : WireAppIdentity
  manifest : WireManifest

open WireInstalledApp

namespace WireInstalledApp

def capture (app : InstalledApp) : WireInstalledApp :=
  ⟨.capture app.identity, .capture app.manifest⟩

def intoDomain (w : WireInstalledApp) : Except WireSnapshotError InstalledApp := do
  let identity ← w.identity.intoDomain
  let manifest ← w.manifest.intoDomain
  (InstalledApp.restore identity manifest).mapError (invalid "installed app" .installedApp)

@[simp] theorem intoDomain_capture (app : InstalledApp) : (capture app).intoDomain = .ok app := by
  simp [capture, intoDomain, app.restore_eq]

end WireInstalledApp

structure WireSnapshot where
  version : UInt32
  installedApps : List WireInstalledApp
  grants : List WireGrant

namespace WireSnapshot

def capture (p : PlatformSnapshot) : WireSnapshot :=
  ⟨p.version, p.installedApps.map .capture, p.grants.map .capture⟩

def intoDomain (w : WireSnapshot) : Except WireSnapshotError PlatformSnapshot := do
  let installedApps ← w.installedApps.mapM WireInstalledApp.intoDomain
  let grants ← w.grants.mapM WireGrant.intoDomain
  pure ⟨w.version, installedApps, grants⟩

theorem intoDomain_capture (p : PlatformSnapshot) : (capture p).intoDomain = .ok p := by
  have happs : (p.installedApps.map WireInstalledApp.capture).mapM WireInstalledApp.intoDomain =
      .ok p.installedApps :=
    mapM_map fun app _ => WireInstalledApp.intoDomain_capture app
  have hgrants : (p.grants.map WireGrant.capture).mapM WireGrant.intoDomain = .ok p.grants :=
    mapM_map fun grant _ => WireGrant.intoDomain_capture grant
  simp [capture, intoDomain, happs, hgrants]

end WireSnapshot

/-! ## The snapshot table -/

/-- The row with id 1, if there is one. -/
structure SnapshotRow where
  snapshotVersion : Int
  payload : WireSnapshot

inductive SqliteSnapshotRepositoryError where
  | invalidSnapshot (error : WireSnapshotError)
  | invalidStoredVersion (version : Int)
  | versionMismatch (column payload : UInt32)

namespace SqliteSnapshotRepository

def store (p : PlatformSnapshot) (_row : Option SnapshotRow) : Option SnapshotRow :=
  some ⟨p.version.toNat, .capture p⟩

def load (row : Option SnapshotRow) :
    Except SqliteSnapshotRepositoryError (Option PlatformSnapshot) :=
  match row with
  | none => .ok none
  | some row =>
    if row.snapshotVersion < 0 ∨ 2 ^ 32 ≤ row.snapshotVersion then
      .error (.invalidStoredVersion row.snapshotVersion)
    else
      let column := UInt32.ofNat row.snapshotVersion.toNat
      if column ≠ row.payload.version then .error (.versionMismatch column row.payload.version)
      else (row.payload.intoDomain.mapError .invalidSnapshot).map some

theorem load_store (p : PlatformSnapshot) (row : Option SnapshotRow) :
    load (store p row) = .ok (some p) := by
  have hrange : ¬((p.version.toNat : Int) < 0 ∨ 2 ^ 32 ≤ (p.version.toNat : Int)) := by
    have := p.version.toNat_lt
    omega
  have hversion : UInt32.ofNat (p.version.toNat : Int).toNat = p.version := by
    rw [Int.toNat_natCast, UInt32.ofNat_toNat]
  have hpayload : ¬p.version ≠ (WireSnapshot.capture p).version := not_not.mpr rfl
  simp only [store, load, if_neg hrange, hversion]
  rw [if_neg hpayload, WireSnapshot.intoDomain_capture]
  rfl

end SqliteSnapshotRepository

open Effect

/-- Whatever a sequence of lifecycle calls leads to, and whatever grants the authority has issued
for the users, the services and the apps installed there: stored, loaded and recovered they are the
same state and the same grants. -/
theorem stored_platform_recovers (es : List LifecycleEvent) (g : InMemoryGrantStore)
    (row : Option SnapshotRow) (hids : (g.grants.map PermissionGrant.id).Nodup)
    (hissued : ∀ grant ∈ g.grants, ∃ policy id issuer subject permission scope resources,
      GrantAuthority.issue policy id issuer subject permission scope resources = .ok grant)
    (hsubjects : ∀ grant ∈ g.grants, ∀ identity, grant.subject = .app identity →
      ∃ app ∈ (after LifecycleEvent.next es {}).installedApps.apps, app.identity = identity) :
    ∃ snapshot, SqliteSnapshotRepository.load (SqliteSnapshotRepository.store
        (.capture (after LifecycleEvent.next es {}) g) row) = .ok (some snapshot) ∧
      PlatformRecovery.recover snapshot = .ok (after LifecycleEvent.next es {}, g) := by
  obtain ⟨l, hl, hs⟩ := PlatformState.reachable_ofApps es
  rw [hs] at hsubjects ⊢
  have hvalid : GrantsValid l g.grants :=
    ⟨hids, fun grant hg => ⟨hsubjects grant hg, by
      obtain ⟨_, _, _, _, _, _, _, h⟩ := hissued grant hg
      exact GrantAuthority.issue_grantedBy h⟩⟩
  exact ⟨_, SqliteSnapshotRepository.load_store _ row, recover_capture hl hvalid⟩

private theorem filesRead_valid : PermissionId.check "rumahl.files.read" = .ok () := by decide

/-- The notes app may read the files of its user. -/
def PermissionGrant.notesFiles : PermissionGrant where
  id := ⟨1⟩
  subject := .app ⟨AppManifest.notes.appId, ⟨1⟩, AppManifest.notes.publisherId⟩
  permission := ⟨"rumahl.files.read", filesRead_valid⟩
  scope := .userOwn
  resources := []
  grantedBy := .user ⟨7⟩
  explicit_resources := by decide
  system_resources := by decide

theorem stored_notes_recover :
    ∃ snapshot, SqliteSnapshotRepository.load (SqliteSnapshotRepository.store
        (.capture (after LifecycleEvent.next [.install ⟨1⟩ .notes] {}) ⟨[.notesFiles]⟩) none) =
          .ok (some snapshot) ∧
      PlatformRecovery.recover snapshot =
        .ok (after LifecycleEvent.next [.install ⟨1⟩ .notes] {}, ⟨[.notesFiles]⟩) := by
  refine stored_platform_recovers [.install ⟨1⟩ .notes] ⟨[.notesFiles]⟩ none (by decide) ?_ ?_
  · intro grant hg
    rw [List.mem_singleton.mp hg]
    exact ⟨{ userRoles := [(⟨7⟩, .owner)] }, ⟨1⟩, .user ⟨7⟩, _, _, .userOwn, [], rfl⟩
  · intro grant hg identity hi
    rw [List.mem_singleton.mp hg] at hi
    cases hi
    decide +kernel

end Rumahl
