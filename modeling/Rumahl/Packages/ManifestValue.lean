import Rumahl.Packages.Verifier

/-!
# Writing package manifests

`manifestValue` writes a manifest as a JSON value, by hand and field by field; the parser of
`Packages/Manifest` reads it strictly. Both meet in the raw records: every value is read as the raw
record of what was written (`X.raw`), and the raw record is parsed to what was written. The result
is `PackageManifest.fromRaw_raw`.
-/

open Except

namespace Rumahl

open Json AppSettingKind

/-! ## Values

The source builds sorted maps: the fields of an object stand in the order of their names.
-/

def runtimeKindStr : RuntimeKind → String
  | .web => "web"
  | .container => "container"
  | .native => "native"

def scopeStr : PermissionScope → String
  | .appPrivate => "app-private"
  | .userOwn => "user-own"
  | .userSelected => "user-selected"
  | .explicit => "explicit"
  | .familyShared => "family-shared"
  | .system => "system"

def AppSettingKind.asStr : AppSettingKind → String
  | .text => "text"
  | .number => "number"
  | .boolean => "boolean"
  | .select _ => "select"

def entrypointValue (e : RuntimeEntrypoint) : Json :=
  match e.target with
  | .webAsset path => .object
      [("id", .string e.id.value), ("kind", .string "web-asset"), ("path", .string path.value)]
  | .containerArtifact path => .object
      [("id", .string e.id.value), ("kind", .string "container-artifact"),
        ("path", .string path.value)]
  | .endpoint endpoint => .object [("endpoint", .string endpoint.value),
        ("id", .string e.id.value), ("kind", .string "endpoint")]

def optionValue (o : AppSettingOption) : Json :=
  .object [("label", .string o.label), ("value", .string o.value)]

def settingValue (s : AppSettingDeclaration) : Json :=
  .object ((match s.description with
      | some description => [("description", .string description)]
      | none => []) ++ [("key", .string s.key.value)] ++
    (match s.kind with
      | .select options => [("options", .array (options.map optionValue))]
      | _ => []) ++
    [("required", .bool s.required), ("title", .string s.title), ("type", .string s.kind.asStr)])

def permissionValue (p : PermissionRequest) : Json :=
  .object ([("id", .string p.permission.value)] ++
    (match p.reason with
      | some reason => [("reason", .string reason)]
      | none => []) ++
    [("required", .bool p.required), ("scope", .string (scopeStr p.requestedScope))])

def connectorValue (c : ConnectorDeclaration) : Json :=
  .object [("entrypoint", .string c.entrypoint.value), ("target", .string c.target.value)]

def appValue (app : PackageAppManifest) : Json :=
  .object [("appId", .string app.appId.value),
    ("connectors", .array (app.connectors.map connectorValue)),
    ("displayName", .string app.displayName),
    ("lifecycle", .string app.lifecycle.asStr),
    ("permissions", .array (app.permissions.map permissionValue)),
    ("providedCapabilities", .array (app.providedCapabilities.map fun c => .string c.value)),
    ("runtime", .object [("entrypoints", .array (app.runtime.entrypoints.map entrypointValue)),
      ("kind", .string (runtimeKindStr app.runtime.kind))]),
    ("settings", .array (app.settings.map settingValue)),
    ("version", .string app.version.display)]

def manifestValue (manifest : PackageManifest) (files : List Json) : Json :=
  .object [("app", appValue manifest.app), ("files", .array files),
    ("formatVersion", .number manifest.formatVersion),
    ("publisherId", .string manifest.publisherId.value)]

/-! ## Reading the values -/

open Json (field fieldOr asString asBool asNat asList asOption)

def RuntimeEntrypoint.raw (e : RuntimeEntrypoint) : RawEntrypoint :=
  match e.target with
  | .webAsset path => ⟨e.id.value, "web-asset", some path.value, none⟩
  | .containerArtifact path => ⟨e.id.value, "container-artifact", some path.value, none⟩
  | .endpoint endpoint => ⟨e.id.value, "endpoint", none, some endpoint.value⟩

def AppSettingOption.raw (o : AppSettingOption) : RawSettingOption := ⟨o.value, o.label⟩

def AppSettingKind.rawOptions : AppSettingKind → List RawSettingOption
  | .select options => options.map AppSettingOption.raw
  | _ => []

def AppSettingDeclaration.raw (s : AppSettingDeclaration) : RawSetting :=
  ⟨s.key.value, s.title, s.description, s.kind.asStr, s.kind.rawOptions, s.required⟩

def PermissionRequest.raw (p : PermissionRequest) : RawPermission :=
  ⟨p.permission.value, some (scopeStr p.requestedScope), p.required, p.reason⟩

def ConnectorDeclaration.raw (c : ConnectorDeclaration) : RawConnector :=
  ⟨c.target.value, c.entrypoint.value⟩

def PackageAppManifest.raw (app : PackageAppManifest) : RawApp where
  appId := app.appId.value
  version := app.version.display
  displayName := app.displayName
  runtime := ⟨runtimeKindStr app.runtime.kind, app.runtime.entrypoints.map RuntimeEntrypoint.raw⟩
  lifecycle := some app.lifecycle.asStr
  permissions := app.permissions.map PermissionRequest.raw
  providedCapabilities := app.providedCapabilities.map Checked.value
  connectors := app.connectors.map ConnectorDeclaration.raw
  settings := app.settings.map AppSettingDeclaration.raw

theorem RawEntrypoint.read_value (e : RuntimeEntrypoint) :
    read (entrypointValue e) = some e.raw := by
  obtain ⟨i, target⟩ := e
  cases target <;> rfl

theorem RawSettingOption.read_value (o : AppSettingOption) : read (optionValue o) = some o.raw :=
  rfl

theorem RawPermission.read_value (p : PermissionRequest) :
    read (permissionValue p) = some p.raw := by
  obtain ⟨permission, scope, required, reason⟩ := p
  cases reason <;> rfl

theorem RawConnector.read_value (c : ConnectorDeclaration) : read (connectorValue c) = some c.raw :=
  rfl

theorem RawSetting.read_value (s : AppSettingDeclaration) : read (settingValue s) = some s.raw := by
  obtain ⟨key, title, description, kind, required⟩ := s
  cases kind with
  | select options =>
    have hoptions := asList_map fun o (_ : o ∈ options) => RawSettingOption.read_value o
    cases description <;>
      simp [read, settingValue, record, field, fieldOr, List.lookup, asOption, hoptions,
        AppSettingDeclaration.raw, asStr, rawOptions]
  | _ => cases description <;> rfl

theorem RawRuntime.read_value (r : RuntimeDescriptor) :
    read (.object [("entrypoints", .array (r.entrypoints.map entrypointValue)),
      ("kind", .string (runtimeKindStr r.kind))]) =
    some ⟨runtimeKindStr r.kind, r.entrypoints.map RuntimeEntrypoint.raw⟩ := by
  have hentrypoints := asList_map fun e (_ : e ∈ r.entrypoints) =>
    RawEntrypoint.read_value e
  simp [read, record, field, List.lookup, hentrypoints]

theorem RawApp.read_value (app : PackageAppManifest) : read (appValue app) = some app.raw := by
  have hcapabilities : asList asString (.array (app.providedCapabilities.map fun c =>
      .string c.value)) = some (app.providedCapabilities.map Checked.value) :=
    asList_map fun c _ => asString_string c.value
  simp only [read, Option.bind_eq_bind, Option.bind_eq_some_iff, field]
  exact ⟨_, rfl, _, ⟨_, rfl, rfl⟩, _, ⟨_, rfl, rfl⟩, _, ⟨_, rfl, rfl⟩, _,
    ⟨_, rfl, RawRuntime.read_value app.runtime⟩, _, rfl, _,
    asList_map fun p _ => RawPermission.read_value p, _, hcapabilities, _,
    asList_map fun c _ => RawConnector.read_value c, _,
    asList_map fun s _ => RawSetting.read_value s, rfl⟩

/-- A file of the list. -/
def fileValue (file : FileRecord) : Json :=
  .object [("path", .string file.path),
    ("sha256", .string (String.ofList (Hex.encode file.sha256.1))), ("size", .number file.size)]

def FileRecord.raw (file : FileRecord) : RawFile :=
  ⟨file.path, file.size, String.ofList (Hex.encode file.sha256.1)⟩

theorem RawFile.read_value (h : file.size < 2 ^ 64) : read (fileValue file) = some file.raw := by
  simp only [read, Option.bind_eq_bind, Option.bind_eq_some_iff, field]
  exact ⟨_, rfl, _, ⟨_, rfl, rfl⟩, _, ⟨_, rfl, asNat_natCast h⟩, _, ⟨_, rfl, rfl⟩, rfl⟩

theorem RawManifest.read_value (m : PackageManifest) {files : List FileRecord}
    (h : ∀ file ∈ files, file.size < 2 ^ 64) :
    read (manifestValue m (files.map fileValue)) =
      some ⟨m.formatVersion, m.publisherId.value, m.app.raw, files.map FileRecord.raw⟩ := by
  have hversion : m.formatVersion < 2 ^ 32 := by
    rw [m.formatVersion_eq]
    decide
  have hfiles := asList_map fun file hf => RawFile.read_value (h file hf)
  simp only [read, Option.bind_eq_bind, Option.bind_eq_some_iff, field]
  exact ⟨_, rfl, _, ⟨_, rfl, asNat_natCast hversion⟩, _, ⟨_, rfl, rfl⟩, _,
    ⟨_, rfl, RawApp.read_value m.app⟩, _, hfiles, rfl⟩

/-! ## The fields are sorted -/

@[simp] theorem entrypointValue_ordered (e : RuntimeEntrypoint) :
    (entrypointValue e).Ordered (depth + 1) := by
  obtain ⟨i, target⟩ := e
  cases target <;> simp [entrypointValue, Ordered, List.cons_lt_cons_iff]

@[simp] theorem optionValue_ordered (o : AppSettingOption) :
    (optionValue o).Ordered (depth + 1) := by
  simp [optionValue, Ordered, List.cons_lt_cons_iff]

@[simp] theorem settingValue_ordered (s : AppSettingDeclaration) :
    (settingValue s).Ordered (depth + 3) := by
  obtain ⟨key, title, description, kind, required⟩ := s
  cases description <;> cases kind <;> simp [settingValue, Ordered, List.cons_lt_cons_iff]

@[simp] theorem permissionValue_ordered (p : PermissionRequest) :
    (permissionValue p).Ordered (depth + 1) := by
  obtain ⟨permission, scope, required, reason⟩ := p
  cases reason <;> simp [permissionValue, Ordered, List.cons_lt_cons_iff]

@[simp] theorem connectorValue_ordered (c : ConnectorDeclaration) :
    (connectorValue c).Ordered (depth + 1) := by
  simp [connectorValue, Ordered, List.cons_lt_cons_iff]

@[simp] theorem appValue_ordered (app : PackageAppManifest) :
    (appValue app).Ordered (depth + 5) := by
  simp [appValue, Ordered, List.cons_lt_cons_iff]

theorem fileValue_ordered (h : file.size < 2 ^ 64) : (fileValue file).Ordered (depth + 1) := by
  simpa [fileValue, Ordered, List.cons_lt_cons_iff] using h

theorem manifestValue_ordered (m : PackageManifest) {files : List FileRecord}
    (h : ∀ file ∈ files, file.size < 2 ^ 64) :
    (manifestValue m (files.map fileValue)).Ordered (depth + 6) := by
  have hfiles : ∀ file ∈ files, (fileValue file).Ordered (depth + 4) := fun file hf =>
    fileValue_ordered (h file hf)
  simpa [manifestValue, Ordered, m.formatVersion_eq, List.cons_lt_cons_iff] using hfiles

/-! ## Parsing the raw records -/

theorem parseEntrypoint_raw (e : RuntimeEntrypoint) : parseEntrypoint e.raw = .ok e := by
  obtain ⟨i, target⟩ := e
  cases target <;>
    simp [parseEntrypoint, RuntimeEntrypoint.raw, parseEntrypointPath, parseEntrypointEndpoint]

theorem parseRuntimeKind_str (kind : RuntimeKind) :
    parseRuntimeKind (runtimeKindStr kind) = .ok kind := by
  cases kind <;> rfl

theorem parseRuntime_raw (r : RuntimeDescriptor) :
    parseRuntime ⟨runtimeKindStr r.kind, r.entrypoints.map RuntimeEntrypoint.raw⟩ = .ok r := by
  rw [parseRuntime, parseRuntimeKind_str, ok_bind]
  exact foldlM_parsed (fun e _ => parseEntrypoint_raw e) r.rebuild

theorem parseScope_str (scope : PermissionScope) :
    parseScope (some (scopeStr scope)) = .ok scope := by
  cases scope <;> rfl

theorem cleanReason_of_isLabel (h : ∀ r ∈ reason, IsLabel 240 r) : cleanReason reason = reason := by
  cases reason with
  | none => rfl
  | some r =>
    have hr := h r rfl
    simp [cleanReason, hr.trimmed, hr.nonempty]

theorem parsePermission_raw (h : ∀ r ∈ p.reason, IsLabel 240 r) :
    parsePermission p.raw = .ok p := by
  have hshort : ¬(p.reason.any fun reason => 240 < reason.toList.length) = true := by
    cases hr : p.reason with
    | none => exact Bool.false_ne_true
    | some r => simpa using (h r hr).length_le
  simp [parsePermission, PermissionRequest.raw, cleanReason_of_isLabel h, parseScope_str, hshort]

theorem parseConnector_raw (c : ConnectorDeclaration) : parseConnector c.raw = .ok c := by
  simp [parseConnector, ConnectorDeclaration.raw]

theorem parseSettingKind_raw (h : kind.check = .ok ()) :
    parseSettingKind kind.asStr kind.rawOptions = .ok kind := by
  cases kind with
  | select options =>
    have hne : options ≠ [] := by
      rintro rfl
      cases h
    have hoptions : List.mapM parseSettingOption (options.map AppSettingOption.raw) = .ok options :=
      mapM_map fun o _ => orError_eq_ok.mpr o.new_eq
    rw [asStr, rawOptions, parseSettingKind, if_neg (by decide),
      if_pos rfl, if_neg (by simpa using hne), hoptions]
    rfl
  | _ => rfl

theorem parseSetting_raw (s : AppSettingDeclaration) : parseSetting s.raw = .ok s := by
  obtain ⟨key, title, description, kind, required, htitle, hdescription, hkind⟩ := s
  have hnew : AppSettingDeclaration.new key title kind = _ :=
    AppSettingDeclaration.new_eq htitle hkind
  simp only [parseSetting, AppSettingDeclaration.raw, parseSettingKind_raw hkind, hnew,
    Checked.parse_value, orError_ok, ok_bind]
  cases description with
  | none => cases required <;> rfl
  | some text =>
    simp only [AppSettingDeclaration.withDescription_eq (hdescription text rfl)]
    cases required <;> rfl

theorem parseSha256Hex_encode (bytes : ByteVector 32) :
    parseSha256Hex (String.ofList (Hex.encode bytes.1)) = some bytes := by
  have hbytes : byteLength (Hex.encode bytes.1) = 64 := by
    rw [byteLength, List.map_congr_left (Hex.utf8Size_encode bytes.1), List.map_const',
      List.sum_replicate_nat, Hex.length_encode, bytes.2]
  rw [parseSha256Hex, String.toList_ofList, if_neg (by simp [hbytes]), Hex.decode_encode]
  exact dif_pos bytes.2

theorem PackageAppManifest.fromRaw_raw (app : PackageAppManifest) : fromRaw app.raw = .ok app := by
  rw [fromRaw_eq_ok]
  refine ⟨?_, ?_, ?_, ?_, ?_, ?_, ?_, ?_, ?_⟩
  · exact Checked.parse_value _
  · exact AppVersion.parse_display _
  · exact label_of_isLabel _
  · exact parseRuntime_raw _
  · simp [raw, parseLifecycle]
  · exact mapM_map fun p hp => parsePermission_raw (app.reasons_label p hp)
  · exact mapM_map fun c _ => orError_eq_ok.mpr (Checked.parse_value c)
  · exact mapM_map fun c _ => parseConnector_raw c
  · exact mapM_map fun s _ => parseSetting_raw s

theorem parseFile_raw : parseFile file.raw = .ok parsed ↔ parsed.record = file := by
  rw [parseFile, FileRecord.raw, bind_eq_ok, parseSha256Hex_encode]
  constructor
  · rintro ⟨path', hpath, h⟩
    cases h
    rw [PackageFile.record, Checked.parse_eq_ok.mp (orError_eq_ok.mp hpath)]
  · intro h
    cases h
    exact ⟨parsed.path, orError_eq_ok.mpr (Checked.parse_value _), rfl⟩

theorem parseFiles_raw (h : List.mapM parseFile (files.map FileRecord.raw) = .ok parsed) :
    parsed.map PackageFile.record = files := by
  induction files generalizing parsed with
  | nil =>
    cases h
    rfl
  | cons file files ih =>
    obtain ⟨first, rest, hfirst, hrest, rfl⟩ := mapM_cons_eq_ok.mp h
    rw [List.map_cons, parseFile_raw.mp hfirst, ih hrest]

theorem PackageManifest.fromRaw_raw {m parsed : PackageManifest} {files : List FileRecord}
    (h : fromRaw ⟨m.formatVersion, m.publisherId.value, m.app.raw, files.map FileRecord.raw⟩ =
      .ok parsed) :
    parsed.formatVersion = m.formatVersion ∧ parsed.publisherId = m.publisherId ∧
      parsed.app = m.app ∧ parsed.files.map PackageFile.record = files := by
  obtain ⟨-, hpublisher, happ, -, hfiles⟩ := fromRaw_eq_ok.mp h
  refine ⟨parsed.formatVersion_eq.trans m.formatVersion_eq.symm, ?_, ?_, parseFiles_raw hfiles⟩
  · exact Checked.ext (Checked.parse_eq_ok.mp hpublisher)
  · rw [PackageAppManifest.fromRaw_raw] at happ
    exact (Except.ok.inj happ).symm

end Rumahl
