import Rumahl.Core.LifecycleLemmas
import Rumahl.Core.ManifestParts
import Rumahl.Data.Encoding
import Rumahl.Data.Json

/-!
# Package manifests

A package carries its manifest as a JSON document. Reading it has three layers: the bytes are read
as a JSON value, the value as a tree of raw records, and the raw records are parsed and checked
(`PackageManifest.fromRaw`). What passes is a `PackageManifest`, which carries the checks it passed
and from which the app manifest of the platform is built (`toAppManifest`).

The check at the end of `fromRaw` builds that app manifest but does not validate it, so the parser
accepts manifests that the platform refuses. `fromBytes_installable` says which raw manifests these
are.
-/

namespace Rumahl

open AppManifestValidator List Except AppLifecycle

/-- What packages take from elsewhere: the contents of files, JSON text, SHA-256 and Ed25519. -/
structure Primitives where
  Bytes : Type
  length : Bytes → Nat
  readJson : Bytes → Option Json
  writeJson : Json → Bytes
  sha256 : Bytes → ByteVector 32
  /-- Whether the bytes are a public key. -/
  validKey : ByteVector 32 → Bool
  publicKey : ByteVector 32 → ByteVector 32
  sign : ByteVector 32 → Bytes → ByteVector 64
  verify : ByteVector 32 → Bytes → ByteVector 64 → Bool

def maxManifestBytes : Nat := 1024 * 1024
def maxFiles : Nat := 2048
def maxFileBytes : Nat := 64 * 1024 * 1024
def maxPackageBytes : Nat := 256 * 1024 * 1024

inductive PackageManifestError where
  | tooLarge | malformed
  | unsupportedFormatVersion (version : Nat)
  | invalidPublisherId | invalidAppId | invalidVersion | emptyDisplayName | displayNameTooLong
  | invalidRuntimeKind (kind : String)
  | duplicateEntrypoint | invalidRuntimeEntrypoint | invalidEntrypointId
  | invalidEntrypointKind (kind : String)
  | unexpectedEntrypointField | invalidEntrypointPath | invalidEndpointId
  | invalidFilePath | invalidFileDigest | duplicateFile | tooManyFiles | fileTooLarge
  | packageTooLarge | invalidAppManifest | invalidSetting | invalidLifecycle | invalidPermission
  | invalidCapability | invalidConnector
  deriving DecidableEq

/-! ## Raw records -/

structure RawEntrypoint where
  id : String
  kind : String
  path : Option String
  endpoint : Option String

structure RawRuntime where
  kind : String
  entrypoints : List RawEntrypoint

structure RawPermission where
  id : String
  scope : Option String
  required : Bool
  reason : Option String

structure RawConnector where
  target : String
  entrypoint : String

structure RawSettingOption where
  value : String
  label : String

structure RawSetting where
  key : String
  title : String
  description : Option String
  kind : String
  options : List RawSettingOption
  required : Bool

structure RawApp where
  appId : String
  version : String
  displayName : String
  runtime : RawRuntime
  lifecycle : Option String := none
  permissions : List RawPermission := []
  providedCapabilities : List String := []
  connectors : List RawConnector := []
  settings : List RawSetting := []

structure RawFile where
  path : String
  size : Nat
  sha256 : String

structure RawManifest where
  formatVersion : Nat
  publisherId : String
  app : RawApp
  files : List RawFile := []

open Json (field fieldOr asString asBool asNat asList asOption)

def RawEntrypoint.read (j : Json) : Option RawEntrypoint := do
  let fields ← j.record ["id", "kind", "path", "endpoint"]
  pure {
    id := ← field asString "id" fields
    kind := ← field asString "kind" fields
    path := ← fieldOr none (asOption asString) "path" fields
    endpoint := ← fieldOr none (asOption asString) "endpoint" fields }

def RawRuntime.read (j : Json) : Option RawRuntime := do
  let fields ← j.record ["kind", "entrypoints"]
  pure {
    kind := ← field asString "kind" fields
    entrypoints := ← field (asList RawEntrypoint.read) "entrypoints" fields }

def RawPermission.read (j : Json) : Option RawPermission := do
  let fields ← j.record ["id", "scope", "required", "reason"]
  pure {
    id := ← field asString "id" fields
    scope := ← fieldOr none (asOption asString) "scope" fields
    required := ← fieldOr false asBool "required" fields
    reason := ← fieldOr none (asOption asString) "reason" fields }

def RawConnector.read (j : Json) : Option RawConnector := do
  let fields ← j.record ["target", "entrypoint"]
  pure {
    target := ← field asString "target" fields
    entrypoint := ← field asString "entrypoint" fields }

def RawSettingOption.read (j : Json) : Option RawSettingOption := do
  let fields ← j.record ["value", "label"]
  pure {
    value := ← field asString "value" fields
    label := ← field asString "label" fields }

def RawSetting.read (j : Json) : Option RawSetting := do
  let fields ← j.record ["key", "title", "description", "type", "options", "required"]
  pure {
    key := ← field asString "key" fields
    title := ← field asString "title" fields
    description := ← fieldOr none (asOption asString) "description" fields
    kind := ← field asString "type" fields
    options := ← fieldOr [] (asList RawSettingOption.read) "options" fields
    required := ← fieldOr false asBool "required" fields }

def RawApp.read (j : Json) : Option RawApp := do
  let fields ← j.record ["appId", "version", "displayName", "runtime", "lifecycle", "permissions",
    "providedCapabilities", "connectors", "settings"]
  pure {
    appId := ← field asString "appId" fields
    version := ← field asString "version" fields
    displayName := ← field asString "displayName" fields
    runtime := ← field RawRuntime.read "runtime" fields
    lifecycle := ← fieldOr none (asOption asString) "lifecycle" fields
    permissions := ← fieldOr [] (asList RawPermission.read) "permissions" fields
    providedCapabilities := ← fieldOr [] (asList asString) "providedCapabilities" fields
    connectors := ← fieldOr [] (asList RawConnector.read) "connectors" fields
    settings := ← fieldOr [] (asList RawSetting.read) "settings" fields }

def RawFile.read (j : Json) : Option RawFile := do
  let fields ← j.record ["path", "size", "sha256"]
  pure {
    path := ← field asString "path" fields
    size := ← field (asNat (2 ^ 64)) "size" fields
    sha256 := ← field asString "sha256" fields }

def RawManifest.read (j : Json) : Option RawManifest := do
  let fields ← j.record ["formatVersion", "publisherId", "app", "files"]
  pure {
    formatVersion := ← field (asNat (2 ^ 32)) "formatVersion" fields
    publisherId := ← field asString "publisherId" fields
    app := ← field RawApp.read "app" fields
    files := ← fieldOr [] (asList RawFile.read) "files" fields }

/-! ## Parsing the parts -/

section

variable {α ε : Type}

/-- The package parser reports what went wrong, not why. -/
def orError (error : PackageManifestError) (x : Except ε α) : Except PackageManifestError α :=
  x.mapError fun _ => error

@[simp] theorem orError_ok (e : PackageManifestError) (a : α) :
    orError e (.ok a : Except ε α) = .ok a := rfl

theorem orError_eq_ok : orError e x = .ok a ↔ x = .ok a :=
  mapError_eq_ok

end

def parseRuntimeKind (value : String) : Except PackageManifestError RuntimeKind :=
  if value = "web" then .ok .web
  else if value = "container" then .ok .container
  else if value = "native" then .ok .native
  else .error (.invalidRuntimeKind value)

/-- The path of a web asset or an artifact, which has no endpoint. -/
def parseEntrypointPath (raw : RawEntrypoint) : Except PackageManifestError PackagePath :=
  if raw.endpoint.isSome then .error .unexpectedEntrypointField
  else
    match raw.path with
    | none => .error .invalidEntrypointPath
    | some path => orError .invalidEntrypointPath (PackagePath.parse path)

/-- The endpoint of an entrypoint that has no path. -/
def parseEntrypointEndpoint (raw : RawEntrypoint) :
    Except PackageManifestError RuntimeEndpointId :=
  if raw.path.isSome then .error .unexpectedEntrypointField
  else
    match raw.endpoint with
    | none => .error .invalidEndpointId
    | some endpoint => orError .invalidEndpointId (RuntimeEndpointId.parse endpoint)

def parseEntrypoint (raw : RawEntrypoint) : Except PackageManifestError RuntimeEntrypoint := do
  let id ← orError .invalidEntrypointId (RuntimeEntrypointId.parse raw.id)
  if raw.kind = "web-asset" then do
    let path ← parseEntrypointPath raw
    pure ⟨id, .webAsset path⟩
  else if raw.kind = "container-artifact" then do
    let path ← parseEntrypointPath raw
    pure ⟨id, .containerArtifact path⟩
  else if raw.kind = "endpoint" then do
    let endpoint ← parseEntrypointEndpoint raw
    pure ⟨id, .endpoint endpoint⟩
  else .error (.invalidEntrypointKind raw.kind)

def runtimeError : RuntimeDescriptorError → PackageManifestError
  | .duplicateEntrypoint => .duplicateEntrypoint
  | .incompatibleEntrypoint _ _ => .invalidRuntimeEntrypoint

def parseRuntime (raw : RawRuntime) : Except PackageManifestError RuntimeDescriptor := do
  let kind ← parseRuntimeKind raw.kind
  raw.entrypoints.foldlM (fun descriptor entrypoint => do
    let entrypoint ← parseEntrypoint entrypoint
    (descriptor.addEntrypoint entrypoint).mapError runtimeError) (RuntimeDescriptor.new kind)

def parseScope : Option String → Except PackageManifestError PermissionScope
  | none => .ok .userOwn
  | some value =>
    if value = "user-own" then .ok .userOwn
    else if value = "app-private" then .ok .appPrivate
    else if value = "user-selected" then .ok .userSelected
    else if value = "explicit" then .ok .explicit
    else if value = "family-shared" then .ok .familyShared
    else if value = "system" then .ok .system
    else .error .invalidPermission

/-- A reason that is blank is none. -/
def cleanReason (reason : Option String) : Option String :=
  (reason.map trim).filter fun reason => reason ≠ ""

def parsePermission (raw : RawPermission) : Except PackageManifestError PermissionRequest := do
  let permission ← orError .invalidPermission (PermissionId.parse raw.id)
  let scope ← parseScope raw.scope
  if (cleanReason raw.reason).any fun reason => 240 < reason.toList.length then
    throw .invalidPermission
  pure ⟨permission, scope, raw.required, cleanReason raw.reason⟩

def parseConnector (raw : RawConnector) : Except PackageManifestError ConnectorDeclaration := do
  let target ← orError .invalidConnector (ConnectorTarget.parse raw.target)
  let entrypoint ← orError .invalidConnector (RuntimeEntrypointId.parse raw.entrypoint)
  pure ⟨target, entrypoint⟩

def parseSettingOption (raw : RawSettingOption) : Except PackageManifestError AppSettingOption :=
  orError .invalidSetting (AppSettingOption.new raw.value raw.label)

def parseSettingKind (kind : String) (options : List RawSettingOption) :
    Except PackageManifestError AppSettingKind :=
  if kind = "text" ∨ kind = "number" ∨ kind = "boolean" then
    if options ≠ [] then .error .invalidSetting
    else if kind = "text" then .ok .text
    else if kind = "number" then .ok .number
    else .ok .boolean
  else if kind = "select" then
    if options = [] then .error .invalidSetting
    else do
      let options ← options.mapM parseSettingOption
      pure (.select options)
  else .error .invalidSetting

def parseSetting (raw : RawSetting) : Except PackageManifestError AppSettingDeclaration := do
  let key ← orError .invalidSetting (AppSettingKey.parse raw.key)
  let kind ← parseSettingKind raw.kind raw.options
  let declaration ← orError .invalidSetting (AppSettingDeclaration.new key raw.title kind)
  let declaration ← match raw.description with
    | none => pure declaration
    | some description => orError .invalidSetting (declaration.withDescription description)
  pure (if raw.required then declaration.setRequired else declaration)

def parseLifecycle : Option String → Except PackageManifestError RuntimeLifecycle
  | none => .ok default
  | some value =>
    match RuntimeLifecycle.parse value with
    | some lifecycle => .ok lifecycle
    | none => .error .invalidLifecycle

/-- A lower case digest of 64 characters. -/
def parseSha256Hex (value : String) : Option (ByteVector 32) :=
  if byteLength value.toList ≠ 64 then none
  else
    match Hex.decode value.toList with
    | none => none
    | some bytes => if h : bytes.length = 32 then some ⟨bytes, h⟩ else none

/-! ## The app of a package -/

/-- The part of a manifest that describes the app, as the parser leaves it. -/
structure PackageAppManifest where
  appId : AppId
  version : AppVersion
  displayName : String
  runtime : RuntimeDescriptor
  lifecycle : RuntimeLifecycle
  permissions : List PermissionRequest
  providedCapabilities : List CapabilityId
  connectors : List ConnectorDeclaration
  settings : List AppSettingDeclaration
  displayName_label : IsLabel 120 displayName
  reasons_label : ∀ p ∈ permissions, ∀ reason ∈ p.reason, IsLabel 240 reason
  permissions_nodup : (permissions.map PermissionRequest.permission).Nodup
  capabilities_nodup : providedCapabilities.Nodup
  settings_nodup : (settings.map AppSettingDeclaration.key).Nodup

theorem parsePermission_reason (h : parsePermission raw = .ok p) :
    ∀ reason ∈ p.reason, IsLabel 240 reason := by
  obtain ⟨permission, -, h⟩ := bind_eq_ok.mp h
  obtain ⟨scope, -, h⟩ := bind_eq_ok.mp h
  split at h
  · cases h
  · next hshort =>
    cases h
    intro reason hr
    obtain ⟨hm, hne⟩ := Option.filter_eq_some_iff.mp hr
    obtain ⟨text, -, rfl⟩ := Option.map_eq_some_iff.mp hm
    have hle : ¬240 < (trim text).toList.length := fun hlt => hshort <| by
      rw [show cleanReason raw.reason = some (trim text) from hr]
      simpa using hlt
    exact ⟨trim_trim text, by simpa using hne, Nat.not_lt.mp hle⟩

namespace PackageAppManifest

def fromRaw (raw : RawApp) : Except PackageManifestError PackageAppManifest := do
  let appId ← orError .invalidAppId (AppId.parse raw.appId)
  let version ← orError .invalidVersion (AppVersion.parse raw.version)
  let ⟨displayName, displayName_label⟩ ← (label 120 raw.displayName).mapError fun
    | .empty => PackageManifestError.emptyDisplayName
    | .tooLong => .displayNameTooLong
  let runtime ← parseRuntime raw.runtime
  let lifecycle ← parseLifecycle raw.lifecycle
  match hp : Except.distinctM parsePermission PermissionRequest.permission .invalidPermission
      raw.permissions with
  | .error e => .error e
  | .ok permissions =>
    match hc : Except.distinctM (fun c => orError .invalidCapability (CapabilityId.parse c))
        (fun c => c) .invalidCapability raw.providedCapabilities with
    | .error e => .error e
    | .ok providedCapabilities => do
      let connectors ← raw.connectors.mapM parseConnector
      match hs : Except.distinctM parseSetting AppSettingDeclaration.key .invalidSetting
          raw.settings with
      | .error e => .error e
      | .ok settings => .ok {
          appId, version, displayName, runtime, lifecycle, permissions, providedCapabilities,
          connectors, settings, displayName_label
          reasons_label := (mapM_all (Q := fun _ => True)
            (fun _ _ h => iff_true_intro (parsePermission_reason h))
            (distinctM_eq_ok.mp hp).1).mpr fun _ _ => trivial
          permissions_nodup := (distinctM_eq_ok.mp hp).2
          capabilities_nodup := by simpa using (distinctM_eq_ok.mp hc).2
          settings_nodup := (distinctM_eq_ok.mp hs).2 }

def toAppManifest (a : PackageAppManifest) (publisherId : PublisherId) :
    Except PackageManifestError AppManifest := do
  let manifest ← orError .invalidAppManifest
    (AppManifest.new a.appId publisherId a.version a.displayName a.runtime)
  let manifest := manifest.setLifecycle a.lifecycle
  let manifest ← a.permissions.foldlM
    (fun m p => orError .invalidPermission (m.addPermissionRequest p)) manifest
  let manifest ← a.providedCapabilities.foldlM
    (fun m c => orError .invalidCapability (m.addProvidedCapability c)) manifest
  let manifest ← a.connectors.foldlM
    (fun m c => orError .invalidConnector (m.addConnector c)) manifest
  a.settings.foldlM (fun m s => orError .invalidSetting (m.addSetting s)) manifest

theorem fromRaw_eq_ok : fromRaw raw = .ok a ↔
      AppId.parse raw.appId = .ok a.appId ∧ AppVersion.parse raw.version = .ok a.version ∧
      label 120 raw.displayName = .ok ⟨a.displayName, a.displayName_label⟩ ∧
      parseRuntime raw.runtime = .ok a.runtime ∧ parseLifecycle raw.lifecycle = .ok a.lifecycle ∧
      List.mapM parsePermission raw.permissions = .ok a.permissions ∧
      List.mapM (fun c => orError .invalidCapability (CapabilityId.parse c))
        raw.providedCapabilities = .ok a.providedCapabilities ∧
      List.mapM parseConnector raw.connectors = .ok a.connectors ∧
      List.mapM parseSetting raw.settings = .ok a.settings := by
  constructor
  · intro h
    obtain ⟨appId, happ, h⟩ := bind_eq_ok.mp h
    obtain ⟨version, hversion, h⟩ := bind_eq_ok.mp h
    obtain ⟨⟨displayName, hlabel⟩, hname, h⟩ := bind_eq_ok.mp h
    obtain ⟨runtime, hruntime, h⟩ := bind_eq_ok.mp h
    obtain ⟨lifecycle, hlifecycle, h⟩ := bind_eq_ok.mp h
    split at h
    · cases h
    · next hp =>
      split at h
      · cases h
      · next hc =>
        obtain ⟨connectors, hconnectors, h⟩ := bind_eq_ok.mp h
        split at h
        · cases h
        · next hs =>
          cases h
          exact ⟨orError_eq_ok.mp happ, orError_eq_ok.mp hversion, mapError_eq_ok.mp hname,
            hruntime, hlifecycle, (distinctM_eq_ok.mp hp).1,
            (distinctM_eq_ok.mp hc).1, hconnectors, (distinctM_eq_ok.mp hs).1⟩
  · rintro ⟨happ, hversion, hname, hruntime, hlifecycle, hp, hc, hconnectors, hs⟩
    have hpermissions : Except.distinctM parsePermission PermissionRequest.permission
        .invalidPermission raw.permissions = .ok a.permissions :=
      distinctM_eq_ok.mpr ⟨hp, a.permissions_nodup⟩
    have hcapabilities : Except.distinctM
        (fun c => orError .invalidCapability (CapabilityId.parse c)) (fun c => c)
        .invalidCapability raw.providedCapabilities = .ok a.providedCapabilities :=
      distinctM_eq_ok.mpr ⟨hc, by simpa using a.capabilities_nodup⟩
    have hsettings : Except.distinctM parseSetting AppSettingDeclaration.key .invalidSetting
        raw.settings = .ok a.settings :=
      distinctM_eq_ok.mpr ⟨hs, a.settings_nodup⟩
    rw [fromRaw, happ, hversion, hname, hruntime, hlifecycle]
    simp only [orError_ok, mapError_ok, ok_bind]
    split
    · next h => rw [hpermissions] at h; cases h
    · next h =>
      rw [hpermissions] at h
      cases h
      split
      · next h => rw [hcapabilities] at h; cases h
      · next h =>
        rw [hcapabilities] at h
        cases h
        rw [hconnectors, ok_bind]
        split
        · next h => rw [hsettings] at h; cases h
        · next h =>
          rw [hsettings] at h
          cases h
          rfl

/-- The app manifest says what the package says and nothing else. -/
structure Describes (a : PackageAppManifest) (publisherId : PublisherId) (m : AppManifest) :
    Prop where
  appId : m.appId = a.appId
  publisherId : m.publisherId = publisherId
  version : m.version = a.version
  displayName : m.displayName = a.displayName
  runtime : m.runtime = a.runtime
  lifecycle : m.lifecycle = a.lifecycle
  permissions : m.permissionRequests = a.permissions
  capabilities : m.providedCapabilities = a.providedCapabilities
  connectors : m.connectors = a.connectors
  settings : m.settings = a.settings
  contributions : m.contributions = []
  events : m.eventSubscriptions = []
  databases : m.databases = []
  oidcClient : m.oidcClient = none
  streamPresentation : m.streamPresentation = none

theorem toAppManifest_describes {a : PackageAppManifest}
    (h : a.toAppManifest publisherId = .ok m) : a.Describes publisherId m := by
  obtain ⟨m0, hnew, h⟩ := bind_eq_ok.mp h
  obtain ⟨m1, hpermissions, h⟩ := bind_eq_ok.mp h
  obtain ⟨m2, hcapabilities, h⟩ := bind_eq_ok.mp h
  obtain ⟨m3, hconnectors, hsettings⟩ := bind_eq_ok.mp h
  rw [AppManifest.new, label_of_isLabel a.displayName_label] at hnew
  cases hnew
  obtain ⟨_, rfl⟩ := AppManifest.addPermissionRequests_eq_ok (foldlM_mapError.mp hpermissions)
  obtain ⟨_, rfl⟩ := AppManifest.addProvidedCapabilities_eq_ok
    (foldlM_mapError.mp hcapabilities)
  obtain ⟨_, rfl⟩ := AppManifest.addConnectors_eq_ok (foldlM_mapError.mp hconnectors)
  obtain ⟨_, _, rfl⟩ := AppManifest.addSettings_eq_ok (foldlM_mapError.mp hsettings)
  exact ⟨rfl, rfl, rfl, rfl, rfl, rfl, rfl, rfl, rfl, rfl, rfl, rfl, rfl, rfl, rfl⟩

end PackageAppManifest

/-! ## Manifests -/

structure PackageFile where
  path : PackagePath
  size : Nat
  sha256 : ByteVector 32
  deriving DecidableEq

def PackageFile.total (files : List PackageFile) : Nat := (files.map PackageFile.size).sum

/-- A manifest that the parser has accepted. -/
structure PackageManifest where
  formatVersion : Nat
  publisherId : PublisherId
  app : PackageAppManifest
  files : List PackageFile
  formatVersion_eq : formatVersion = 1
  paths_nodup : (files.map PackageFile.path).Nodup
  files_le : files.length ≤ maxFiles
  size_le : ∀ file ∈ files, file.size ≤ maxFileBytes
  total_le : PackageFile.total files ≤ maxPackageBytes
  app_ok : (app.toAppManifest publisherId).isOk = true

def parseFile (file : RawFile) : Except PackageManifestError PackageFile := do
  let path ← orError .invalidFilePath (PackagePath.parse file.path)
  match parseSha256Hex file.sha256 with
  | none => throw .invalidFileDigest
  | some sha256 => pure ⟨path, file.size, sha256⟩

/-- Addition on 64 bits that stops at the largest number. -/
def saturatingAdd (a b : Nat) : Nat := Nat.min (a + b) (2 ^ 64 - 1)

/-- One turn of the loop over the files, with the files seen so far and their total size. -/
def addFile (seen : List PackageFile × Nat) (raw : RawFile) :
    Except PackageManifestError (List PackageFile × Nat) := do
  let file ← parseFile raw
  if maxFileBytes < file.size then .error .fileTooLarge
  else if maxPackageBytes < saturatingAdd seen.2 file.size then .error .packageTooLarge
  else if file.path ∈ seen.1.map PackageFile.path then .error .duplicateFile
  else .ok (seen.1 ++ [file], saturatingAdd seen.2 file.size)

/-- Files that a manifest may list. -/
structure FilesFit (files : List PackageFile) : Prop where
  nodup : (files.map PackageFile.path).Nodup
  size_le : ∀ file ∈ files, file.size ≤ maxFileBytes
  total_le : PackageFile.total files ≤ maxPackageBytes

theorem PackageFile.total_append (l l' : List PackageFile) :
    total (l ++ l') = total l + total l' := by
  simp [total]

theorem FilesFit.of_append (h : FilesFit (l ++ l')) : FilesFit l where
  nodup := by
    have := h.nodup
    rw [map_append, nodup_append] at this
    exact this.1
  size_le file hf := h.size_le file (mem_append_left _ hf)
  total_le := by
    have := h.total_le
    rw [PackageFile.total_append] at this
    omega

theorem FilesFit.append_iff (h : FilesFit seen) :
    FilesFit (seen ++ [file]) ↔ file.size ≤ maxFileBytes ∧
      PackageFile.total seen + file.size ≤ maxPackageBytes ∧
      file.path ∉ seen.map PackageFile.path := by
  have htotal : PackageFile.total (seen ++ [file]) = PackageFile.total seen + file.size :=
    PackageFile.total_append seen [file]
  constructor
  · intro hfit
    refine ⟨hfit.size_le file (by simp), htotal ▸ hfit.total_le, fun hm => ?_⟩
    have hn := hfit.nodup
    rw [map_append, nodup_append] at hn
    exact hn.2.2 _ hm _ mem_cons_self rfl
  · rintro ⟨hsize, hsum, hpath⟩
    refine ⟨?_, ?_, htotal ▸ hsum⟩
    · rw [map_append, nodup_append]
      refine ⟨h.nodup, nodup_singleton _, fun x hx y hy hxy => hpath ?_⟩
      rwa [← mem_singleton.mp hy, ← hxy]
    · exact forall_mem_append.mpr ⟨h.size_le, forall_mem_singleton.mpr hsize⟩

theorem addFile_eq_ok (h : FilesFit seen) :
    addFile (seen, PackageFile.total seen) raw = .ok st ↔
      ∃ file, parseFile raw = .ok file ∧ FilesFit (seen ++ [file]) ∧
        st = (seen ++ [file], PackageFile.total (seen ++ [file])) := by
  rw [addFile, bind_eq_ok]
  apply exists_congr
  intro file
  apply and_congr_right
  intro _
  rw [FilesFit.append_iff h, PackageFile.total_append]
  by_cases hsize : file.size ≤ maxFileBytes
  · -- The sizes are too small for the addition to stop.
    have hadd : saturatingAdd (PackageFile.total seen) file.size =
        PackageFile.total seen + file.size := by
      have hle := h.total_le
      rw [maxPackageBytes] at hle
      rw [maxFileBytes] at hsize
      apply Nat.min_eq_left
      omega
    rw [if_neg (Nat.not_lt.mpr hsize), hadd]
    split
    · next hpackage => exact ⟨(nomatch ·), fun ⟨h, _⟩ => absurd h.2.1 (Nat.not_le.mpr hpackage)⟩
    · next hpackage =>
      split
      · next hpath => exact ⟨(nomatch ·), fun ⟨h, _⟩ => absurd hpath h.2.2⟩
      · next hpath =>
        constructor
        · intro hst
          exact ⟨⟨hsize, Nat.not_lt.mp hpackage, hpath⟩, (Except.ok.inj hst).symm⟩
        · rintro ⟨-, rfl⟩
          rfl
  · rw [if_pos (Nat.not_le.mp hsize)]
    exact ⟨(nomatch ·), fun ⟨h, _⟩ => absurd h.1 hsize⟩

theorem addFiles_eq_ok (h : FilesFit seen) :
    raws.foldlM addFile (seen, PackageFile.total seen) = .ok st ↔
      ∃ files, List.mapM parseFile raws = .ok files ∧ FilesFit (seen ++ files) ∧
        st = (seen ++ files, PackageFile.total (seen ++ files)) := by
  induction raws generalizing seen with
  | nil =>
    constructor
    · intro hst
      cases hst
      exact ⟨[], rfl, by simpa using h, by simp⟩
    · rintro ⟨files, hfiles, -, rfl⟩
      cases hfiles
      simp
  | cons raw raws ih =>
    rw [foldlM_cons, bind_eq_ok]
    constructor
    · rintro ⟨st', hst', hst⟩
      obtain ⟨file, hfile, hfit, rfl⟩ := (addFile_eq_ok h).mp hst'
      obtain ⟨files, hfiles, hall, rfl⟩ := (ih hfit).mp hst
      rw [← append_cons seen file files] at hall ⊢
      exact ⟨file :: files, mapM_cons_eq_ok.mpr ⟨file, files, hfile, hfiles, rfl⟩, hall, rfl⟩
    · rintro ⟨files, hfiles, hall, hst⟩
      obtain ⟨file, files, hfile, hrest, rfl⟩ := mapM_cons_eq_ok.mp hfiles
      rw [append_cons seen file files] at hall hst
      have hfit := hall.of_append
      exact ⟨_, (addFile_eq_ok h).mpr ⟨file, hfile, hfit, rfl⟩,
        (ih hfit).mpr ⟨files, hrest, hall, hst⟩⟩

theorem FilesFit.nil : FilesFit [] :=
  ⟨nodup_nil, fun _ h => (nomatch h), Nat.zero_le _⟩

theorem addFiles_nil (h : raws.foldlM addFile ([], 0) = .ok (files, total)) :
    List.mapM parseFile raws = .ok files ∧ FilesFit files := by
  obtain ⟨files', hfiles, hfit, hst⟩ := (addFiles_eq_ok FilesFit.nil).mp h
  obtain ⟨rfl, -⟩ := Prod.mk.inj hst
  exact ⟨hfiles, hfit⟩

namespace PackageManifest

def toAppManifest (m : PackageManifest) : Except PackageManifestError AppManifest :=
  m.app.toAppManifest m.publisherId

/-- The check at the end makes sure that the app manifest can be built. -/
def fromRaw (raw : RawManifest) : Except PackageManifestError PackageManifest :=
  if hv : raw.formatVersion = 1 then do
    let publisherId ← orError .invalidPublisherId (PublisherId.parse raw.publisherId)
    let app ← PackageAppManifest.fromRaw raw.app
    if hl : maxFiles < raw.files.length then .error .tooManyFiles
    else
      match hf : raw.files.foldlM addFile ([], 0) with
      | .error e => .error e
      | .ok (files, _) =>
        match ha : app.toAppManifest publisherId with
        | .error e => .error e
        | .ok _ =>
          have hfit := addFiles_nil hf
          .ok {
            formatVersion := raw.formatVersion, publisherId, app, files
            formatVersion_eq := hv
            paths_nodup := hfit.2.nodup
            files_le := length_mapM hfit.1 ▸ Nat.not_lt.mp hl
            size_le := hfit.2.size_le
            total_le := hfit.2.total_le
            app_ok := by rw [ha]; rfl }
  else .error (.unsupportedFormatVersion raw.formatVersion)

def fromBytes (P : Primitives) (bytes : P.Bytes) : Except PackageManifestError PackageManifest :=
  if maxManifestBytes < P.length bytes then .error .tooLarge
  else
    match (P.readJson bytes).bind RawManifest.read with
    | none => .error .malformed
    | some raw => fromRaw raw

theorem fromRaw_eq_ok : fromRaw raw = .ok m ↔
      raw.formatVersion = 1 ∧ PublisherId.parse raw.publisherId = .ok m.publisherId ∧
      PackageAppManifest.fromRaw raw.app = .ok m.app ∧ raw.files.length ≤ maxFiles ∧
      List.mapM parseFile raw.files = .ok m.files := by
  constructor
  · intro h
    unfold fromRaw at h
    split at h
    · next hv =>
      obtain ⟨publisherId, hp, h⟩ := bind_eq_ok.mp h
      obtain ⟨app, happ, h⟩ := bind_eq_ok.mp h
      split at h
      · cases h
      · next hl =>
        split at h
        · cases h
        · next hf =>
          split at h
          · cases h
          · cases h
            exact ⟨hv, orError_eq_ok.mp hp, happ, Nat.not_lt.mp hl, (addFiles_nil hf).1⟩
    · cases h
  · rintro ⟨hv, hp, happ, hl, hfiles⟩
    have hloop : raw.files.foldlM addFile ([], 0) = .ok (m.files, PackageFile.total m.files) :=
      (addFiles_eq_ok FilesFit.nil).mpr
        ⟨m.files, hfiles, ⟨m.paths_nodup, m.size_le, m.total_le⟩, rfl⟩
    rw [fromRaw, dif_pos hv, hp, orError_ok, ok_bind, happ, ok_bind,
      dif_neg (Nat.not_lt.mpr hl)]
    split
    · next h =>
      rw [hloop] at h
      cases h
    · next files _ h =>
      rw [hloop] at h
      cases h
      split
      · next h =>
        have := m.app_ok
        rw [h] at this
        cases this
      · obtain ⟨version, publisherId, app, files, hversion, _⟩ := m
        cases hv.trans hversion.symm
        rfl

end PackageManifest

/-! ## What the platform accepts -/

/-- What the validator asks of an app without contributions, streams and OpenID clients. -/
def RuntimeDescriptor.Hosts (r : RuntimeDescriptor) (lifecycle : RuntimeLifecycle)
    (connectors : List ConnectorDeclaration) : Prop :=
  (r.kind = .web ∧ (∃ e ∈ r.entrypoints, e.kind = .webAsset) ∧ lifecycle ≠ .alwaysOn ∨
    r.kind = .container ∧ ∃ e ∈ r.entrypoints, e.kind = .containerArtifact) ∧
  ∀ c ∈ connectors, ∃ e ∈ r.entrypoints, e.id = c.entrypoint ∧ e.kind = .containerArtifact

theorem AppManifestValidator.validateRuntime_eq_ok : validateRuntime m = .ok () ↔
      m.runtime.kind = .web ∧ (∃ e ∈ m.runtime.entrypoints, e.kind = .webAsset) ∨
      m.runtime.kind = .container ∧ ∃ e ∈ m.runtime.entrypoints, e.kind = .containerArtifact := by
  rw [validateRuntime]
  cases m.runtime.kind <;> simp

theorem AppManifestValidator.validateConnector_eq_ok : validateConnector m c = .ok () ↔
      ∃ e ∈ m.runtime.entrypoints, e.id = c.entrypoint ∧ e.kind = .containerArtifact := by
  rw [validateConnector]
  constructor
  · intro h
    split at h
    · cases h
    · next e he =>
      obtain ⟨hmem, hid⟩ := RuntimeDescriptor.entrypoint_eq_some.mp he
      split at h
      · next hkind => exact ⟨e, hmem, hid, hkind⟩
      · cases h
  · rintro ⟨e, hmem, hid, hkind⟩
    rw [RuntimeDescriptor.entrypoint_eq_some.mpr ⟨hmem, hid⟩]
    exact if_pos hkind

theorem PackageAppManifest.Describes.validate_eq_ok (h : Describes a p m) :
    validate m = .ok () ↔ a.runtime.Hosts a.lifecycle a.connectors := by
  simp only [validate, seq_eq_ok, forM_eq_ok,
    validateRuntime_eq_ok, validateConnector_eq_ok,
    validateLifecycle, validateStreamPresentation,
    validateOidc, h.runtime, h.lifecycle, h.connectors, h.contributions,
    h.oidcClient, h.streamPresentation, RuntimeDescriptor.Hosts]
  cases a.runtime.kind <;> cases a.lifecycle <;> simp

/-- A manifest that the validator accepts can be installed on an empty platform. -/
theorem AppLifecycle.install_empty (h : validate m = .ok ())
    (id : InstallationId) : ∃ r, install id m {} = .ok r := by
  obtain ⟨app, happ⟩ : ∃ app, InstalledApp.create id m = .ok app := by
    unfold InstalledApp.create
    split
    · next h' => rw [h] at h'; cases h'
    · exact ⟨_, rfl⟩
  have hregister : register app {} = .ok (.ofApps [app]) :=
    AppLifecycle.register_ofApps.mpr ⟨fun _ h => (nomatch h), rfl⟩
  refine ⟨(app, .ofApps [app]), ?_⟩
  rw [install, happ]
  exact bind_eq_ok.mpr ⟨_, mapError_eq_ok.mpr rfl, by rw [hregister]; rfl⟩

/-- A raw manifest that describes a web app with a page, not always on and without connectors, or a
container app with an artifact whose connectors are artifacts too. -/
def RawManifest.Hostable (raw : RawManifest) : Prop :=
  (raw.app.runtime.kind = "web" ∧
      (∃ e ∈ raw.app.runtime.entrypoints, e.kind = "web-asset") ∧
      raw.app.lifecycle ≠ some "always-on" ∧ raw.app.connectors = []) ∨
  (raw.app.runtime.kind = "container" ∧
      (∃ e ∈ raw.app.runtime.entrypoints, e.kind = "container-artifact") ∧
      ∀ c ∈ raw.app.connectors, ∃ e ∈ raw.app.runtime.entrypoints,
        e.id = c.entrypoint ∧ e.kind = "container-artifact")

instance (raw : RawManifest) : Decidable raw.Hostable := inferInstanceAs (Decidable (_ ∨ _))

/-! Every text of the raw manifest stands for itself. -/

theorem parseRuntimeKind_eq_ok (h : parseRuntimeKind value = .ok kind) :
    (kind = .web ↔ value = "web") ∧ (kind = .container ↔ value = "container") := by
  unfold parseRuntimeKind at h
  split at h
  · cases h
    simp_all
  · split at h
    · cases h
      simp_all
    · split at h
      · cases h
        simp_all
      · cases h

theorem parseEntrypoint_eq_ok (h : parseEntrypoint raw = .ok e) :
    e.id.value = raw.id ∧ (e.kind = .webAsset ↔ raw.kind = "web-asset") ∧
      (e.kind = .containerArtifact ↔ raw.kind = "container-artifact") := by
  obtain ⟨id, hid, h⟩ := bind_eq_ok.mp h
  have hid := Checked.parse_eq_ok.mp (orError_eq_ok.mp hid)
  split at h
  · next hkind =>
    obtain ⟨path, -, h⟩ := bind_eq_ok.mp h
    cases h
    simp [hid, hkind, RuntimeEntrypoint.kind]
  · next hweb =>
    split at h
    · next hkind =>
      obtain ⟨path, -, h⟩ := bind_eq_ok.mp h
      cases h
      simp [hid, hkind, RuntimeEntrypoint.kind]
    · next hartifact =>
      split at h
      · obtain ⟨endpoint, -, h⟩ := bind_eq_ok.mp h
        cases h
        simp [hid, hweb, hartifact, RuntimeEntrypoint.kind]
      · cases h

theorem parseConnector_eq_ok (h : parseConnector raw = .ok c) :
    c.entrypoint.value = raw.entrypoint := by
  obtain ⟨target, -, h⟩ := bind_eq_ok.mp h
  obtain ⟨entrypoint, he, h⟩ := bind_eq_ok.mp h
  cases h
  exact Checked.parse_eq_ok.mp (orError_eq_ok.mp he)

theorem parseLifecycle_eq_ok (h : parseLifecycle raw = .ok lifecycle) :
    lifecycle = .alwaysOn ↔ raw = some "always-on" := by
  cases raw with
  | none =>
    cases h
    simp [default]
  | some value =>
    rw [parseLifecycle] at h
    split at h
    · next hl =>
      cases h
      rw [RuntimeLifecycle.parse_eq_some hl]
      cases lifecycle <;> decide
    · cases h

theorem parseRuntime_eq_ok (h : parseRuntime raw = .ok r) :
    parseRuntimeKind raw.kind = .ok r.kind ∧
      List.mapM parseEntrypoint raw.entrypoints = .ok r.entrypoints := by
  obtain ⟨kind, hkind, h⟩ := bind_eq_ok.mp h
  obtain ⟨entrypoints, hparse, hadd⟩ := foldlM_parsed_eq_ok h
  obtain ⟨hk, he⟩ := RuntimeDescriptor.addEntrypoints_eq_ok hadd
  rw [hk, he]
  exact ⟨hkind, hparse⟩

/-- The validator accepts the app of a raw manifest that can be hosted, and of no other. -/
theorem RawManifest.hosts_iff {raw : RawManifest}
    (h : PackageAppManifest.fromRaw raw.app = .ok a) :
    a.runtime.Hosts a.lifecycle a.connectors ↔ raw.Hostable := by
  obtain ⟨-, -, -, hruntime, hlifecycle, -, -, hconnectors, -⟩ :=
    PackageAppManifest.fromRaw_eq_ok.mp h
  obtain ⟨hkind, hentrypoints⟩ := parseRuntime_eq_ok hruntime
  obtain ⟨hweb, hcontainer⟩ := parseRuntimeKind_eq_ok hkind
  have hpage : (∃ e ∈ a.runtime.entrypoints, e.kind = .webAsset) ↔
      ∃ e ∈ raw.app.runtime.entrypoints, e.kind = "web-asset" :=
    mapM_exists (fun _ _ he => (parseEntrypoint_eq_ok he).2.1) hentrypoints
  have hartifact : (∃ e ∈ a.runtime.entrypoints, e.kind = .containerArtifact) ↔
      ∃ e ∈ raw.app.runtime.entrypoints, e.kind = "container-artifact" :=
    mapM_exists (fun _ _ he => (parseEntrypoint_eq_ok he).2.2) hentrypoints
  have hserved : (∀ c ∈ a.connectors, ∃ e ∈ a.runtime.entrypoints,
        e.id = c.entrypoint ∧ e.kind = .containerArtifact) ↔
      ∀ c ∈ raw.app.connectors, ∃ e ∈ raw.app.runtime.entrypoints,
        e.id = c.entrypoint ∧ e.kind = "container-artifact" := by
    apply mapM_all _ hconnectors
    intro c c' hc
    apply mapM_exists _ hentrypoints
    intro e e' he
    obtain ⟨hid, -, hkind⟩ := parseEntrypoint_eq_ok he
    rw [hkind, Checked.ext_iff, hid, parseConnector_eq_ok hc]
  -- A web runtime has no artifacts, so nothing can serve a connector there.
  have hnone : raw.app.runtime.kind = "web" →
      ¬∃ e ∈ raw.app.runtime.entrypoints, e.kind = "container-artifact" := by
    intro hkind hex
    obtain ⟨e, he, hartifact⟩ := hartifact.mpr hex
    have := a.runtime.accepted e he
    rw [hweb.mpr hkind, hartifact] at this
    cases this
  rw [RuntimeDescriptor.Hosts, hweb, hcontainer, hpage, hartifact, hserved,
    Ne, parseLifecycle_eq_ok hlifecycle, RawManifest.Hostable]
  constructor
  · rintro ⟨⟨hkind, hpage, hlife⟩ | ⟨hkind, hartifact⟩, hserved⟩
    · refine .inl ⟨hkind, hpage, hlife, eq_nil_iff_forall_not_mem.mpr fun c hc => ?_⟩
      obtain ⟨e, he, -, hk⟩ := hserved c hc
      exact hnone hkind ⟨e, he, hk⟩
    · exact .inr ⟨hkind, hartifact, hserved⟩
  · rintro (⟨hkind, hpage, hlife, hnil⟩ | ⟨hkind, hartifact, hserved⟩)
    · rw [hnil]
      exact ⟨.inl ⟨hkind, hpage, hlife⟩, fun _ hc => nomatch hc⟩
    · exact ⟨.inr ⟨hkind, hartifact⟩, hserved⟩

/-- A manifest that the parser accepts can be built, and the platform accepts it exactly if the raw
manifest can be hosted. -/
theorem fromBytes_installable (P : Primitives) (bytes : P.Bytes) (raw : RawManifest)
    (m : PackageManifest) (hread : (P.readJson bytes).bind RawManifest.read = some raw)
    (h : PackageManifest.fromBytes P bytes = .ok m) :
    (∃ manifest, m.toAppManifest = .ok manifest ∧
        validate manifest = .ok () ∧
        ∀ id, ∃ installed, install id manifest {} = .ok installed) ↔
      raw.Hostable := by
  have hraw : PackageManifest.fromRaw raw = .ok m := by
    unfold PackageManifest.fromBytes at h
    split at h
    · cases h
    · rwa [hread] at h
  obtain ⟨-, -, happ, -, -⟩ := PackageManifest.fromRaw_eq_ok.mp hraw
  obtain ⟨manifest, hmanifest⟩ : ∃ manifest, m.toAppManifest = .ok manifest := by
    have hok := m.app_ok
    rw [PackageManifest.toAppManifest]
    cases hm : m.app.toAppManifest m.publisherId with
    | ok manifest => exact ⟨manifest, rfl⟩
    | error e =>
      rw [hm] at hok
      cases hok
  have hvalid : validate manifest = .ok () ↔ raw.Hostable :=
    (PackageAppManifest.toAppManifest_describes hmanifest).validate_eq_ok.trans
      (RawManifest.hosts_iff happ)
  constructor
  · rintro ⟨manifest', hmanifest', hv, -⟩
    rw [hmanifest] at hmanifest'
    cases hmanifest'
    exact hvalid.mp hv
  · intro hh
    exact ⟨manifest, hmanifest, hvalid.mpr hh, install_empty (hvalid.mpr hh)⟩

/-- A sum over the text of a value. -/
def checksum : Nat → Json → Nat
  | depth + 1, .array elements => elements.foldl (fun sum v => 31 * sum + checksum depth v) 1
  | depth + 1, .object fields =>
    fields.foldl (fun sum field => 31 * (31 * sum + text field.1) + checksum depth field.2) 2
  | _, .number value => value.natAbs
  | _, .decimal value | _, .string value => text value
  | _, _ => 0
where
  text (value : String) : Nat := value.toList.foldl (fun sum c => 31 * sum + c.toNat) 3

/-- Documents that are JSON values themselves, written with sorted fields. The digest is a sum over
the document, and a signature is the key with the digest. -/
def Primitives.plain : Primitives where
  Bytes := Json
  length := Json.size
  readJson := some
  writeJson := Json.sorted 127
  sha256 := digest
  validKey _ := true
  publicKey seed := seed
  sign := signature
  verify key document s := s = signature key document
where
  digest (document : Json) : ByteVector 32 :=
    ByteVector.fill 32 (UInt8.ofNat (checksum 127 document))
  signature (key : ByteVector 32) (document : Json) : ByteVector 64 :=
    ⟨key.1 ++ (digest document).1, by rw [length_append, key.2, (digest document).2]⟩

/-- The package document of a web app. -/
def notesDocument (entrypoints files : List Json) : Json :=
  .object [("formatVersion", .number 1), ("publisherId", .string "com.rumahl"),
    ("app", .object [("appId", .string "com.rumahl.notes"), ("version", .string "1.0.0"),
      ("displayName", .string "Notes"),
      ("runtime", .object [("kind", .string "web"), ("entrypoints", .array entrypoints)])]),
    ("files", .array files)]

def notesPage : Json :=
  .object [("id", .string "main"), ("kind", .string "web-asset"), ("path", .string "index.html")]

theorem notes_installable :
    ∃ m manifest, PackageManifest.fromBytes .plain (notesDocument [notesPage] []) = .ok m ∧
      m.toAppManifest = .ok manifest ∧ validate manifest = .ok () := by
  obtain ⟨m, hm⟩ : ∃ m, PackageManifest.fromBytes .plain (notesDocument [notesPage] []) = .ok m :=
    ⟨_, rfl⟩
  obtain ⟨manifest, hmanifest, hvalid, -⟩ :=
    (fromBytes_installable .plain (notesDocument [notesPage] []) _ m rfl hm).mpr (by decide)
  exact ⟨m, manifest, hm, hmanifest, hvalid⟩

/-- The parser accepts a web app without a page, which the platform refuses. -/
theorem pageless_rejected :
    (do
      let m ← PackageManifest.fromBytes .plain (notesDocument [] [])
      let manifest ← m.toAppManifest
      pure (validate manifest)) =
    .ok (.error (.missingRuntimeEntrypoint .web .webAsset)) := by
  decide +kernel

end Rumahl
