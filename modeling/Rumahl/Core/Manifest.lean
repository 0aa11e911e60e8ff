import Rumahl.Core.Identity

/-!
# App manifests

`AppManifest` and the declarations in it carry, as fields, what their constructors check, so that
the model has exactly the manifests the source can build. `AppManifestValidator` is the second
check, made when an installation is created.
-/

open List

namespace Rumahl

/-! ## Texts -/

/-- The Unicode `White_Space` property, on which `str::trim` works. -/
def isWhiteSpace (c : Char) : Bool :=
  let n := c.toNat
  (0x9 ≤ n && n ≤ 0xD) || n == 0x20 || n == 0x85 || n == 0xA0 || n == 0x1680 ||
    (0x2000 ≤ n && n ≤ 0x200A) || n == 0x2028 || n == 0x2029 || n == 0x202F || n == 0x205F ||
    n == 0x3000

def trim (s : String) : String :=
  String.ofList ((s.toList.dropWhile isWhiteSpace).reverse.dropWhile isWhiteSpace).reverse

/-- A text that trimming leaves alone, of one to `limit` characters. -/
structure IsLabel (limit : Nat) (s : String) : Prop where
  trimmed : trim s = s
  nonempty : s ≠ ""
  length_le : s.toList.length ≤ limit

instance (limit : Nat) (s : String) : Decidable (IsLabel limit s) :=
  decidable_of_iff (trim s = s ∧ s ≠ "" ∧ s.toList.length ≤ limit)
    ⟨fun ⟨h, h', h''⟩ => ⟨h, h', h''⟩, fun ⟨h, h', h''⟩ => ⟨h, h', h''⟩⟩

/-- Trimming both ends leaves nothing to trim at the front. -/
private theorem dropWhile_trimmed (p : α → Bool) (l : List α) :
    ((l.dropWhile p).reverse.dropWhile p).reverse.dropWhile p =
      ((l.dropWhile p).reverse.dropWhile p).reverse := by
  obtain ⟨t, ht⟩ := dropWhile_suffix p
  have hm : ((l.dropWhile p).reverse.dropWhile p).reverse ++ t.reverse = l.dropWhile p := by
    rw [← reverse_append, ht, reverse_reverse]
  have hidem : (l.dropWhile p).dropWhile p = l.dropWhile p := dropWhile_idempotent p l
  cases hr : ((l.dropWhile p).reverse.dropWhile p).reverse with
  | nil => rfl
  | cons a r =>
    rw [hr] at hm
    rw [← hm, dropWhile_eq_self_iff] at hidem
    exact dropWhile_eq_self_iff.mpr fun _ => hidem (by simp)

theorem trim_trim (s : String) : trim (trim s) = trim s := by
  simp only [trim, String.toList_ofList]
  rw [dropWhile_trimmed _ s.toList, reverse_reverse, dropWhile_idempotent]

/-- What a title or a display name is checked for. -/
inductive LabelError where
  | empty | tooLong

/-- Trim a text and check it, as the constructors of titles and names do. -/
def label (limit : Nat) (s : String) : Except LabelError { s : String // IsLabel limit s } :=
  if he : trim s = "" then .error .empty
  else if hl : (trim s).toList.length ≤ limit then .ok ⟨trim s, trim_trim s, he, hl⟩
  else .error .tooLong

theorem label_of_isLabel (h : IsLabel limit s) : label limit s = .ok ⟨s, h⟩ := by
  have he := h.nonempty
  have hl := h.length_le
  simp only [label, h.trimmed]
  rw [dif_neg he, dif_pos hl]

/-! ## Runtime -/

inductive RuntimeKind where
  | web | container | native
  deriving DecidableEq

inductive RuntimeEntrypointKind where
  | webAsset | containerArtifact | endpoint
  deriving DecidableEq

inductive RuntimeEntrypointTarget where
  | webAsset (path : PackagePath)
  | containerArtifact (artifact : PackagePath)
  | endpoint (endpoint : RuntimeEndpointId)
  deriving DecidableEq

structure RuntimeEntrypoint where
  id : RuntimeEntrypointId
  target : RuntimeEntrypointTarget
  deriving DecidableEq

def RuntimeEntrypoint.kind (e : RuntimeEntrypoint) : RuntimeEntrypointKind :=
  match e.target with
  | .webAsset _ => .webAsset
  | .containerArtifact _ => .containerArtifact
  | .endpoint _ => .endpoint

def RuntimeKind.accepts : RuntimeKind → RuntimeEntrypointKind → Bool
  | .web, .webAsset => true
  | .container, .containerArtifact => true
  | .container, .endpoint => true
  | _, _ => false

/-- A runtime with entrypoints of its own kinds and distinct ids. -/
structure RuntimeDescriptor where
  kind : RuntimeKind
  entrypoints : List RuntimeEntrypoint
  accepted : ∀ e ∈ entrypoints, kind.accepts e.kind = true
  ids_nodup : (entrypoints.map RuntimeEntrypoint.id).Nodup
  deriving DecidableEq

inductive RuntimeDescriptorError where
  | duplicateEntrypoint
  | incompatibleEntrypoint (runtime : RuntimeKind) (entrypoint : RuntimeEntrypointKind)

private theorem nodup_snoc (hl : l.Nodup) (ha : a ∉ l) : (l ++ [a]).Nodup := by
  rw [nodup_append]
  refine ⟨hl, nodup_singleton _, fun b hb c hc => ?_⟩
  rw [mem_singleton.mp hc]
  exact fun h => ha (h ▸ hb)

private theorem nodup_push (hl : (l.map f).Nodup) (ha : f a ∉ l.map f) :
    ((l ++ [a]).map f).Nodup := by
  rw [map_append, map_singleton]
  exact nodup_snoc hl ha

namespace RuntimeDescriptor

def new (kind : RuntimeKind) : RuntimeDescriptor where
  kind := kind
  entrypoints := []
  accepted := fun _ h => nomatch h
  ids_nodup := nodup_nil

def addEntrypoint (r : RuntimeDescriptor) (e : RuntimeEntrypoint) :
    Except RuntimeDescriptorError RuntimeDescriptor :=
  if ha : r.kind.accepts e.kind = true then
    if hn : e.id ∈ r.entrypoints.map RuntimeEntrypoint.id then .error .duplicateEntrypoint
    else .ok { r with
      entrypoints := r.entrypoints ++ [e]
      accepted := forall_mem_append.mpr ⟨r.accepted, forall_mem_singleton.mpr ha⟩
      ids_nodup := nodup_push r.ids_nodup hn }
  else .error (.incompatibleEntrypoint r.kind e.kind)

def entrypoint (r : RuntimeDescriptor) (id : RuntimeEntrypointId) : Option RuntimeEntrypoint :=
  r.entrypoints.find? fun e => e.id = id

end RuntimeDescriptor

/-- When an app's runtime runs. -/
inductive RuntimeLifecycle where
  | onDemand | alwaysOn
  deriving DecidableEq

instance : Inhabited RuntimeLifecycle := ⟨.onDemand⟩

def RuntimeLifecycle.asStr : RuntimeLifecycle → String
  | .onDemand => "on-demand"
  | .alwaysOn => "always-on"

def RuntimeLifecycle.parse (value : String) : Option RuntimeLifecycle :=
  if value = "on-demand" then some .onDemand
  else if value = "always-on" then some .alwaysOn
  else none

/-! ## Versions -/

structure AppVersion where
  major : UInt64
  minor : UInt64
  patch : UInt64
  deriving DecidableEq

inductive AppVersionError where
  | invalidFormat | invalidNumber | leadingZero
  deriving DecidableEq

/-- `str::parse::<u64>`: digits after at most one plus sign, whose value fits. -/
def parseU64 (cs : List Char) : Option UInt64 :=
  let digits := if cs.head? = some '+' then cs.tail else cs
  if digits ≠ [] ∧ digits.all Char.isDigit ∧ Nat.ofDigitChars 10 digits 0 < 2 ^ 64 then
    some (UInt64.ofNat (Nat.ofDigitChars 10 digits 0))
  else none

namespace AppVersion

def parseComponent (value : List Char) : Except AppVersionError UInt64 :=
  if value = [] then .error .invalidFormat
  else
    match parseU64 value with
    | none => .error .invalidNumber
    | some number =>
      if 1 < value.length ∧ value.head? = some '0' then .error .leadingZero else .ok number

def parse (value : String) : Except AppVersionError AppVersion :=
  match value.toList.splitOn '.' with
  | [major, minor, patch] => do
    let major ← parseComponent major
    let minor ← parseComponent minor
    let patch ← parseComponent patch
    pure ⟨major, minor, patch⟩
  | _ => .error .invalidFormat

/-- The text that `Display` writes. -/
def display (v : AppVersion) : String :=
  String.ofList (['.'].intercalate
    [Nat.toDigits 10 v.major.toNat, Nat.toDigits 10 v.minor.toNat, Nat.toDigits 10 v.patch.toNat])

end AppVersion

/-! ## Declarations -/

inductive CommandAction where
  | invokeCapability (capability : CapabilityId)
  | openApp (appId : AppId)
  deriving DecidableEq

structure CommandContributionDeclaration where
  id : ContributionId
  title : String
  action : CommandAction
  title_label : IsLabel 120 title
  deriving DecidableEq

inductive CommandContributionDeclarationError where
  | emptyTitle | titleTooLong

def CommandContributionDeclaration.new (id : ContributionId) (title : String)
    (action : CommandAction) :
    Except CommandContributionDeclarationError CommandContributionDeclaration :=
  match label 120 title with
  | .error .empty => .error .emptyTitle
  | .error .tooLong => .error .titleTooLong
  | .ok ⟨title, title_label⟩ => .ok { id, title, action, title_label }

structure SearchContributionDeclaration where
  id : ContributionId
  capability : CapabilityId
  deriving DecidableEq

inductive ContributionDeclaration where
  | command (declaration : CommandContributionDeclaration)
  | search (declaration : SearchContributionDeclaration)
  deriving DecidableEq

def ContributionDeclaration.id : ContributionDeclaration → ContributionId
  | .command d => d.id
  | .search d => d.id

structure AppDatabaseDeclaration where
  id : AppDatabaseId
  deriving DecidableEq

inductive ConnectorTargetError where
  | empty | tooLong | invalidCharacter
  deriving DecidableEq

def ConnectorTarget.check (value : String) : Except ConnectorTargetError Unit :=
  if value = "" then .error .empty
  else if 64 < byteLength value.toList then .error .tooLong
  else if value.toList.all fun c => c.isLower || c.isDigit || c == '-' || c == '.' then .ok ()
  else .error .invalidCharacter

abbrev ConnectorTarget := Checked ConnectorTarget.check

abbrev ConnectorTarget.parse : String → Except ConnectorTargetError ConnectorTarget :=
  Checked.parse ConnectorTarget.check

structure ConnectorDeclaration where
  target : ConnectorTarget
  entrypoint : RuntimeEntrypointId
  deriving DecidableEq

/-! ## Settings -/

inductive AppSettingError where
  | emptyKey | keyTooLong | invalidKey | emptyTitle | titleTooLong | emptyDescription
  | descriptionTooLong | tooManyOptions | duplicateOption | selectRequiresOptions
  | invalidOptionValue | invalidOptionLabel
  deriving DecidableEq

def AppSettingKey.check (value : String) : Except AppSettingError Unit :=
  if value = "" then .error .emptyKey
  else if 64 < byteLength value.toList then .error .keyTooLong
  else if value.toList.all fun c =>
      c.isLower || c.isDigit || c == '-' || c == '_' || c == '.' then .ok ()
  else .error .invalidKey

abbrev AppSettingKey := Checked AppSettingKey.check

abbrev AppSettingKey.parse : String → Except AppSettingError AppSettingKey :=
  Checked.parse AppSettingKey.check

structure AppSettingOption where
  value : String
  label : String
  value_ne : value ≠ ""
  value_le : byteLength value.toList ≤ 128
  label_label : IsLabel 120 label
  deriving DecidableEq

def AppSettingOption.new (value label : String) : Except AppSettingError AppSettingOption :=
  if h : value = "" ∨ 128 < byteLength value.toList then .error .invalidOptionValue
  else
    match Rumahl.label 120 label with
    | .error _ => .error .invalidOptionLabel
    | .ok ⟨label, label_label⟩ => .ok {
        value, label, label_label
        value_ne := (not_or.mp h).1
        value_le := Nat.not_lt.mp (not_or.mp h).2 }

inductive AppSettingKind where
  | text | number | boolean
  | select (options : List AppSettingOption)
  deriving DecidableEq

/-- A selection offers one to 64 options with distinct values. -/
def AppSettingKind.check : AppSettingKind → Except AppSettingError Unit
  | .select options =>
    if options = [] then .error .selectRequiresOptions
    else if 64 < options.length then .error .tooManyOptions
    else if (firstRepeat [] (options.map AppSettingOption.value)).isSome then
      .error .duplicateOption
    else .ok ()
  | _ => .ok ()

structure AppSettingDeclaration where
  key : AppSettingKey
  title : String
  description : Option String := none
  kind : AppSettingKind
  required : Bool := false
  title_label : IsLabel 120 title
  description_label : ∀ d ∈ description, IsLabel 500 d
  kind_check : kind.check = .ok ()
  deriving DecidableEq

namespace AppSettingDeclaration

def new (key : AppSettingKey) (title : String) (kind : AppSettingKind) :
    Except AppSettingError AppSettingDeclaration :=
  match label 120 title with
  | .error .empty => .error .emptyTitle
  | .error .tooLong => .error .titleTooLong
  | .ok ⟨title, title_label⟩ =>
    Except.checked (fun kind : AppSettingKind => kind.check)
      (fun kind kind_check =>
        { key, title, kind, title_label, kind_check, description_label := by simp })
      kind

def withDescription (d : AppSettingDeclaration) (description : String) :
    Except AppSettingError AppSettingDeclaration :=
  match label 500 description with
  | .error .empty => .error .emptyDescription
  | .error .tooLong => .error .descriptionTooLong
  | .ok ⟨description, hd⟩ => .ok { d with
      description := some description
      description_label := fun _ h => Option.some.inj h ▸ hd }

/-- The source calls this `required`, as it calls the field. -/
def setRequired (d : AppSettingDeclaration) : AppSettingDeclaration := { d with required := true }

end AppSettingDeclaration

/-! ## OpenID clients and streams -/

inductive OidcClientType where
  | publicClient | confidential
  deriving DecidableEq

inductive OidcScope where
  | openId | profile | email | offlineAccess
  deriving DecidableEq

inductive OidcClientDeclarationError where
  | tooManyScopes | missingOpenIdScope
  | duplicateScope (scope : OidcScope)

structure OidcClientDeclaration where
  clientType : OidcClientType
  callbackEntrypoint : RuntimeEntrypointId
  callbackPath : OidcCallbackPath
  scopes : List OidcScope
  scopes_le : scopes.length ≤ 8
  openId_mem : .openId ∈ scopes
  scopes_nodup : scopes.Nodup
  deriving DecidableEq

def OidcClientDeclaration.new (clientType : OidcClientType)
    (callbackEntrypoint : RuntimeEntrypointId) (callbackPath : OidcCallbackPath)
    (scopes : List OidcScope) : Except OidcClientDeclarationError OidcClientDeclaration :=
  if hl : 8 < scopes.length then .error .tooManyScopes
  else if ho : .openId ∈ scopes then
    match hd : firstRepeat [] scopes with
    | some scope => .error (.duplicateScope scope)
    | none => .ok {
        clientType, callbackEntrypoint, callbackPath, scopes
        scopes_le := Nat.not_lt.mp hl
        openId_mem := ho
        scopes_nodup := firstRepeat_eq_none.mp hd }
  else .error .missingOpenIdScope

inductive StreamPresentationError where
  | invalidPreferredSize | invalidPreferredFrameRate

structure PreferredStreamSize where
  width : UInt16
  height : UInt16
  width_range : 320 ≤ width ∧ width ≤ 7680
  height_range : 200 ≤ height ∧ height ≤ 4320
  deriving DecidableEq

def PreferredStreamSize.new (width height : UInt16) :
    Except StreamPresentationError PreferredStreamSize :=
  if h : (320 ≤ width ∧ width ≤ 7680) ∧ 200 ≤ height ∧ height ≤ 4320 then
    .ok ⟨width, height, h.1, h.2⟩
  else .error .invalidPreferredSize

structure StreamPresentation where
  appEntrypoint : RuntimeEntrypointId
  preferredSize : Option PreferredStreamSize
  preferredFrameRate : Option UInt8
  rate_range : ∀ rate ∈ preferredFrameRate, 1 ≤ rate ∧ rate ≤ 120
  deriving DecidableEq

def StreamPresentation.new (appEntrypoint : RuntimeEntrypointId)
    (preferredSize : Option PreferredStreamSize) (preferredFrameRate : Option UInt8) :
    Except StreamPresentationError StreamPresentation :=
  if h : ∀ rate ∈ preferredFrameRate, 1 ≤ rate ∧ rate ≤ 120 then
    .ok ⟨appEntrypoint, preferredSize, preferredFrameRate, h⟩
  else .error .invalidPreferredFrameRate

/-! ## Manifests -/

inductive AppManifestError where
  | emptyDisplayName | displayNameTooLong
  | duplicatePermissionRequest | duplicateProvidedCapability | duplicateContribution
  | duplicateEventSubscription | duplicateDatabaseDeclaration | tooManyDatabaseDeclarations
  | duplicateSetting | tooManySettings | duplicateConnector
  | duplicateOidcClientDeclaration | duplicateStreamPresentation

def maxDatabases : Nat := 8
def maxAppSettings : Nat := 64

structure AppManifest where
  appId : AppId
  publisherId : PublisherId
  version : AppVersion
  displayName : String
  runtime : RuntimeDescriptor
  lifecycle : RuntimeLifecycle := default
  permissionRequests : List PermissionRequest := []
  providedCapabilities : List CapabilityId := []
  contributions : List ContributionDeclaration := []
  eventSubscriptions : List EventName := []
  databases : List AppDatabaseDeclaration := []
  settings : List AppSettingDeclaration := []
  connectors : List ConnectorDeclaration := []
  oidcClient : Option OidcClientDeclaration := none
  streamPresentation : Option StreamPresentation := none
  displayName_label : IsLabel 120 displayName
  permissions_nodup : (permissionRequests.map PermissionRequest.permission).Nodup := by decide
  capabilities_nodup : providedCapabilities.Nodup := by decide
  contributions_nodup : (contributions.map ContributionDeclaration.id).Nodup := by decide
  events_nodup : eventSubscriptions.Nodup := by decide
  databases_nodup : (databases.map AppDatabaseDeclaration.id).Nodup := by decide
  databases_le : databases.length ≤ maxDatabases := by decide
  settings_nodup : (settings.map AppSettingDeclaration.key).Nodup := by decide
  settings_le : settings.length ≤ maxAppSettings := by decide
  connectors_nodup : (connectors.map ConnectorDeclaration.target).Nodup := by decide
  deriving DecidableEq

namespace AppManifest

def new (appId : AppId) (publisherId : PublisherId) (version : AppVersion) (displayName : String)
    (runtime : RuntimeDescriptor) : Except AppManifestError AppManifest :=
  match label 120 displayName with
  | .error .empty => .error .emptyDisplayName
  | .error .tooLong => .error .displayNameTooLong
  | .ok ⟨displayName, displayName_label⟩ =>
    .ok { appId, publisherId, version, displayName, runtime, displayName_label }

def setLifecycle (m : AppManifest) (lifecycle : RuntimeLifecycle) : AppManifest :=
  { m with lifecycle }

def addPermissionRequest (m : AppManifest) (r : PermissionRequest) :
    Except AppManifestError AppManifest :=
  if h : r.permission ∈ m.permissionRequests.map PermissionRequest.permission then
    .error .duplicatePermissionRequest
  else .ok { m with
    permissionRequests := m.permissionRequests ++ [r]
    permissions_nodup := nodup_push m.permissions_nodup h }

def addProvidedCapability (m : AppManifest) (c : CapabilityId) :
    Except AppManifestError AppManifest :=
  if h : c ∈ m.providedCapabilities then .error .duplicateProvidedCapability
  else .ok { m with
    providedCapabilities := m.providedCapabilities ++ [c]
    capabilities_nodup := nodup_snoc m.capabilities_nodup h }

def addContribution (m : AppManifest) (c : ContributionDeclaration) :
    Except AppManifestError AppManifest :=
  if h : c.id ∈ m.contributions.map ContributionDeclaration.id then .error .duplicateContribution
  else .ok { m with
    contributions := m.contributions ++ [c]
    contributions_nodup := nodup_push m.contributions_nodup h }

def addEventSubscription (m : AppManifest) (e : EventName) : Except AppManifestError AppManifest :=
  if h : e ∈ m.eventSubscriptions then .error .duplicateEventSubscription
  else .ok { m with
    eventSubscriptions := m.eventSubscriptions ++ [e]
    events_nodup := nodup_snoc m.events_nodup h }

def addDatabase (m : AppManifest) (d : AppDatabaseDeclaration) :
    Except AppManifestError AppManifest :=
  if h : d.id ∈ m.databases.map AppDatabaseDeclaration.id then .error .duplicateDatabaseDeclaration
  else if hl : m.databases.length = maxDatabases then .error .tooManyDatabaseDeclarations
  else .ok { m with
    databases := m.databases ++ [d]
    databases_nodup := nodup_push m.databases_nodup h
    databases_le := by
      have := m.databases_le
      simp only [length_append, length_singleton]
      omega }

def addSetting (m : AppManifest) (s : AppSettingDeclaration) :
    Except AppManifestError AppManifest :=
  if h : s.key ∈ m.settings.map AppSettingDeclaration.key then .error .duplicateSetting
  else if hl : m.settings.length = maxAppSettings then .error .tooManySettings
  else .ok { m with
    settings := m.settings ++ [s]
    settings_nodup := nodup_push m.settings_nodup h
    settings_le := by
      have := m.settings_le
      simp only [length_append, length_singleton]
      omega }

def addConnector (m : AppManifest) (c : ConnectorDeclaration) :
    Except AppManifestError AppManifest :=
  if h : c.target ∈ m.connectors.map ConnectorDeclaration.target then .error .duplicateConnector
  else .ok { m with
    connectors := m.connectors ++ [c]
    connectors_nodup := nodup_push m.connectors_nodup h }

def declareOidcClient (m : AppManifest) (d : OidcClientDeclaration) :
    Except AppManifestError AppManifest :=
  if m.oidcClient.isSome then .error .duplicateOidcClientDeclaration
  else .ok { m with oidcClient := some d }

def declareStreamPresentation (m : AppManifest) (p : StreamPresentation) :
    Except AppManifestError AppManifest :=
  if m.streamPresentation.isSome then .error .duplicateStreamPresentation
  else .ok { m with streamPresentation := some p }

end AppManifest

/-! ## Validation -/

inductive AppManifestValidationError where
  | missingRuntimeEntrypoint (runtime : RuntimeKind) (required : RuntimeEntrypointKind)
  | nativeRuntimeUnsupported
  | alwaysOnRequiresContainerRuntime (runtime : RuntimeKind)
  | connectorEntrypointMissing (entrypoint : RuntimeEntrypointId)
  | connectorEntrypointIncompatible (entrypoint : RuntimeEntrypointId)
  | streamRequiresContainerRuntime (runtime : RuntimeKind)
  | streamEntrypointMissing (entrypoint : RuntimeEntrypointId)
  | streamEntrypointIncompatible (entrypoint : RuntimeEntrypointId)
  | searchCapabilityNotProvided (contribution : ContributionId) (capability : CapabilityId)
  | oidcClientTypeIncompatible (runtime : RuntimeKind) (clientType : OidcClientType)
  | oidcCallbackEntrypointMissing (entrypoint : RuntimeEntrypointId)
  | oidcCallbackEntrypointIncompatible (runtime : RuntimeKind) (entrypoint : RuntimeEntrypointId)
      (kind : RuntimeEntrypointKind)
  deriving DecidableEq

namespace AppManifestValidator

def validateRuntime (m : AppManifest) : Except AppManifestValidationError Unit :=
  let require (required : RuntimeEntrypointKind) : Except AppManifestValidationError Unit :=
    if m.runtime.entrypoints.any fun e => e.kind = required then .ok ()
    else .error (.missingRuntimeEntrypoint m.runtime.kind required)
  match m.runtime.kind with
  | .web => require .webAsset
  | .container => require .containerArtifact
  | .native => .error .nativeRuntimeUnsupported

/-- A continuously running service needs a backend runtime. -/
def validateLifecycle (m : AppManifest) : Except AppManifestValidationError Unit :=
  if m.lifecycle = .alwaysOn ∧ m.runtime.kind ≠ .container then
    .error (.alwaysOnRequiresContainerRuntime m.runtime.kind)
  else .ok ()

/-- A connector bundle is a container artifact of the same app. -/
def validateConnector (m : AppManifest) (c : ConnectorDeclaration) :
    Except AppManifestValidationError Unit :=
  match m.runtime.entrypoint c.entrypoint with
  | none => .error (.connectorEntrypointMissing c.entrypoint)
  | some e =>
    if e.kind = .containerArtifact then .ok ()
    else .error (.connectorEntrypointIncompatible c.entrypoint)

def validateStreamPresentation (m : AppManifest) : Except AppManifestValidationError Unit :=
  match m.streamPresentation with
  | none => .ok ()
  | some stream =>
    if m.runtime.kind ≠ .container then .error (.streamRequiresContainerRuntime m.runtime.kind)
    else
      match m.runtime.entrypoint stream.appEntrypoint with
      | none => .error (.streamEntrypointMissing stream.appEntrypoint)
      | some e =>
        if e.kind = .containerArtifact then .ok () else .error (.streamEntrypointIncompatible e.id)

def validateOidcClient (m : AppManifest) (d : OidcClientDeclaration)
    (clientType : OidcClientType) (kind : RuntimeEntrypointKind) :
    Except AppManifestValidationError Unit :=
  if d.clientType ≠ clientType then
    .error (.oidcClientTypeIncompatible m.runtime.kind d.clientType)
  else
    match m.runtime.entrypoint d.callbackEntrypoint with
    | none => .error (.oidcCallbackEntrypointMissing d.callbackEntrypoint)
    | some e =>
      if e.kind = kind then .ok ()
      else .error (.oidcCallbackEntrypointIncompatible m.runtime.kind e.id e.kind)

def validateOidc (m : AppManifest) : Except AppManifestValidationError Unit :=
  match m.oidcClient with
  | none => .ok ()
  | some d =>
    match m.runtime.kind with
    | .web => validateOidcClient m d .publicClient .webAsset
    | .container => validateOidcClient m d .confidential .endpoint
    | .native => .error .nativeRuntimeUnsupported

def validateContribution (m : AppManifest) :
    ContributionDeclaration → Except AppManifestValidationError Unit
  | .command _ => .ok ()
  | .search d =>
    if d.capability ∈ m.providedCapabilities then .ok ()
    else .error (.searchCapabilityNotProvided d.id d.capability)

def validate (m : AppManifest) : Except AppManifestValidationError Unit := do
  validateRuntime m
  validateLifecycle m
  m.connectors.forM (validateConnector m)
  validateStreamPresentation m
  validateOidc m
  m.contributions.forM (validateContribution m)

end AppManifestValidator

/-- A web app with one page, where a concrete manifest is needed. -/
def AppManifest.notes : AppManifest where
  appId := { value := "com.rumahl.notes" }
  publisherId := { value := "com.rumahl" }
  version := ⟨1, 0, 0⟩
  displayName := "Notes"
  runtime :=
    { kind := .web
      entrypoints := [⟨{ value := "main" }, .webAsset { value := "index.html" }⟩]
      accepted := by decide
      ids_nodup := by decide }
  displayName_label := by decide

end Rumahl
