import Rumahl.Oidc.Stores
import Rumahl.Operations.World
import Rumahl.Sqlite.Secrets

/-!
# Registration of the client of an installed app

The registrar writes to two stores, one after the other: the secret of a confidential client goes
into the secret store, then the client with the digest of that secret into the client repository.
An execution may stop, or fail, at any of its calls. `Progress` is what the stores may hold for the
app in between, `registerOrRecoverInstalledApp_spec` that every execution moves from one such
situation to another and that an undisturbed one ends with the client registered.
-/

namespace Rumahl

open Effect List SqliteOidcClientRepository SqliteSecretStore

/-! ## The registrar -/

inductive OidcClientProvisioningError where
  | installationNotFound | originResolution | invalidRedirectUri
  | invalidClient (error : OidcClientRecordError)
  | repository (error : SqliteOidcClientRepositoryError)
  | secretStore (error : SqliteSecretStoreError)
  | invalidStoredSecretEncoding
  | invalidStoredSecret (error : OidcClientSecretParseError)
  | invalidSecretValue (error : SecretValueError)
  | existingClientMismatch | missingStoredSecret | unexpectedStoredSecret
  deriving DecidableEq

inductive RegistrarCall where
  | findByOwnerAndPurpose (owner : AppIdentity) (purpose : SecretPurpose)
  | findActiveByInstallation (installationId : InstallationId)
  | insertSecret (secret : SecretRecord)
  | insertClient (client : OidcClientRecord)

def RegistrarCall.Result : RegistrarCall → Type
  | .findByOwnerAndPurpose .. => Option SecretRecord
  | .findActiveByInstallation _ => Option OidcClientRecord
  | .insertSecret _ => Unit
  | .insertClient _ => Unit

/-- What a call gets back, with the error as the registrar wraps it. -/
abbrev RegistrarCall.Answer (c : RegistrarCall) : Type :=
  Except OidcClientProvisioningError c.Result

/-- What the generators draw in one execution. -/
structure RegistrarDraws where
  clientId : OidcClientId
  secretId : SecretId
  clientSecret : OidcClientSecret

/-- The origin that an entrypoint is served from and the URL that a callback path has there. -/
structure OidcClientRegistrar where
  resolveOrigin : InstalledApp → RuntimeEntrypointId → Option String
  fromPlatformOrigin : String → OidcCallbackPath → Option OidcRedirectUri
  sha256 : List UInt8 → Sha256Digest

namespace OidcClientRegistrar

abbrev Registrar (α : Type) :=
  Prog RegistrarCall RegistrarCall.Answer OidcClientProvisioningError α

structure Registration where
  client : OidcClientRecord
  clientSecret : Option OidcClientSecret
  deriving DecidableEq

def oidcClientSecretPurpose : SecretPurpose where
  value := "rumahl.oidc.client-secret"

def decodeStoredClientSecret (stored : SecretRecord) :
    Except OidcClientProvisioningError OidcClientSecret :=
  match String.fromUTF8? stored.value.bytes with
  | none => .error .invalidStoredSecretEncoding
  | some encoded => (OidcClientSecret.parse encoded).mapError .invalidStoredSecret

section
variable (R : OidcClientRegistrar)

def digest (secret : OidcClientSecret) : Sha256Digest := R.sha256 secret.bytes.1

def redirectUri (app : InstalledApp) (declaration : OidcClientDeclaration) :
    Except OidcClientProvisioningError OidcRedirectUri :=
  match R.resolveOrigin app declaration.callbackEntrypoint with
  | none => .error .originResolution
  | some origin =>
    match R.fromPlatformOrigin origin declaration.callbackPath with
    | none => .error .invalidRedirectUri
    | some uri => .ok uri

def buildClient (clientId : OidcClientId) (app : InstalledApp) (declaration : OidcClientDeclaration)
    (redirectUri : OidcRedirectUri) (clientSecret : Option OidcClientSecret)
    (createdAt : UnixTimestamp) : Except OidcClientRecordError OidcClientRecord :=
  OidcClientRecord.restore clientId app.installationId app.identity.appId app.manifest.displayName
    declaration.clientType redirectUri declaration.scopes (clientSecret.map R.digest) createdAt none

def clientMatchesDeclaration (client : OidcClientRecord) (app : InstalledApp)
    (declaration : OidcClientDeclaration) (redirectUri : OidcRedirectUri)
    (clientSecret : Option OidcClientSecret) : Bool :=
  client.isActive && client.installationId = app.installationId &&
    client.appId = app.identity.appId && client.displayName = app.manifest.displayName &&
    client.clientType = declaration.clientType && client.redirectUri = redirectUri &&
    client.scopes = declaration.scopes &&
    match client.clientSecretDigest, clientSecret with
    | none, none => true
    | some digest, some secret => digest = R.digest secret
    | _, _ => false

def invoke (c : RegistrarCall) : Registrar c.Result := do
  let answer ← .perform c
  .ofExcept id answer

/-- Build the client and store it, the last step of every registration. -/
def insertClient (app : InstalledApp) (declaration : OidcClientDeclaration)
    (redirectUri : OidcRedirectUri) (clientSecret : Option OidcClientSecret)
    (createdAt : UnixTimestamp) (drawn : RegistrarDraws) : Registrar (Option Registration) := do
  let client ← .ofExcept .invalidClient
    (R.buildClient drawn.clientId app declaration redirectUri clientSecret createdAt)
  let _ ← invoke (.insertClient client)
  pure (some ⟨client, clientSecret⟩)

def registerPublic (app : InstalledApp) (declaration : OidcClientDeclaration)
    (redirectUri : OidcRedirectUri) (storedSecret : Option SecretRecord)
    (existingClient : Option OidcClientRecord) (createdAt : UnixTimestamp)
    (drawn : RegistrarDraws) : Registrar (Option Registration) :=
  if storedSecret.isSome then .throw .unexpectedStoredSecret
  else
    match existingClient with
    | some client =>
      if !R.clientMatchesDeclaration client app declaration redirectUri none then
        .throw .existingClientMismatch
      else pure (some ⟨client, none⟩)
    | none => R.insertClient app declaration redirectUri none createdAt drawn

/-- The secret that is stored, or else a new one, stored before it is used. -/
def obtainSecret (app : InstalledApp) (storedSecret : Option SecretRecord)
    (createdAt : UnixTimestamp) (drawn : RegistrarDraws) : Registrar OidcClientSecret :=
  match storedSecret with
  | some stored => .ofExcept id (decodeStoredClientSecret stored)
  | none => do
    let value ← .ofExcept .invalidSecretValue (SecretValue.new drawn.clientSecret.encode.toUTF8)
    let _ ← invoke (.insertSecret
      ⟨drawn.secretId, app.identity, oidcClientSecretPurpose, value, createdAt⟩)
    pure drawn.clientSecret

def registerConfidential (app : InstalledApp) (declaration : OidcClientDeclaration)
    (redirectUri : OidcRedirectUri) (storedSecret : Option SecretRecord)
    (existingClient : Option OidcClientRecord) (createdAt : UnixTimestamp)
    (drawn : RegistrarDraws) : Registrar (Option Registration) :=
  match existingClient with
  | some client =>
    match storedSecret with
    | none => .throw .missingStoredSecret
    | some stored => do
      let clientSecret ← .ofExcept id (decodeStoredClientSecret stored)
      if !R.clientMatchesDeclaration client app declaration redirectUri (some clientSecret) then
        .throw .existingClientMismatch
      else pure (some ⟨client, some clientSecret⟩)
  | none => do
    let clientSecret ← obtainSecret app storedSecret createdAt drawn
    R.insertClient app declaration redirectUri (some clientSecret) createdAt drawn

def registerOrRecoverInstalledApp (state : PlatformState) (installationId : InstallationId)
    (createdAt : UnixTimestamp) (drawn : RegistrarDraws) : Registrar (Option Registration) :=
  match state.installedApps.getByInstallationId installationId with
  | none => .throw .installationNotFound
  | some app =>
    match app.manifest.oidcClient with
    | none => pure none
    | some declaration => do
      let redirectUri ← .ofExcept id (R.redirectUri app declaration)
      let storedSecret ← invoke (.findByOwnerAndPurpose app.identity oidcClientSecretPurpose)
      let existingClient ← invoke (.findActiveByInstallation installationId)
      match declaration.clientType with
      | .publicClient =>
        R.registerPublic app declaration redirectUri storedSecret existingClient createdAt drawn
      | .confidential =>
        R.registerConfidential app declaration redirectUri storedSecret existingClient createdAt
          drawn

end

end OidcClientRegistrar

/-! ## The stores under an execution -/

structure RegistrarTables where
  oidc : OidcTables := {}
  secret : List SecretRecord := []
  deriving DecidableEq

namespace RegistrarTables

open OidcClientRegistrar

/-- What a call answers and does when nothing disturbs it. -/
def respond (w : RegistrarTables) : (c : RegistrarCall) → c.Answer × RegistrarTables
  | .findByOwnerAndPurpose owner purpose =>
    ((findByOwnerAndPurpose owner purpose w.secret).mapError .secretStore, w)
  | .findActiveByInstallation id =>
    (.ok (findActiveByInstallation id w.oidc), w)
  | .insertSecret secret =>
    let (answer, t) := SqliteSecretStore.insert secret w.secret
    (answer.mapError .secretStore, { w with secret := t })
  | .insertClient client =>
    let (answer, t) := insert client w.oidc
    (answer.mapError .repository, { w with oidc := t })

/-- The error of a store that cannot be reached. -/
def unavailable : RegistrarCall → OidcClientProvisioningError
  | .findByOwnerAndPurpose .. | .insertSecret _ => .secretStore .database
  | .findActiveByInstallation _ | .insertClient _ => .repository .database

/-- The process stops before the call, the call fails with or without its effect, or it is carried
out. -/
def handler : Handler RegistrarCall RegistrarCall.Answer Decision RegistrarTables where
  step c decision w :=
    match decision with
    | .ok _ => some (w.respond c)
    | .fail => some (.error (unavailable c), w)
    | .lost => some (.error (unavailable c), (w.respond c).2)
    | .stop => none

/-- The stored secrets of an app for its client. -/
def secretsOf (w : RegistrarTables) (app : InstalledApp) : List SecretRecord :=
  w.secret.filter fun s =>
    s.owner.installationId = app.installationId && s.purpose = oidcClientSecretPurpose

/-- The clients of an app, revoked ones among them. -/
def clientsOf (w : RegistrarTables) (app : InstalledApp) : List OidcClientRecord :=
  w.oidc.client.filter fun c => c.installationId = app.installationId

end RegistrarTables

namespace OidcClientRegistrar

open RegistrarTables

/-! ## What an app may have in the stores -/

section
variable (R : OidcClientRegistrar) (app : InstalledApp) (declaration : OidcClientDeclaration)
  (uri : OidcRedirectUri)

/-- The app has this secret and this client in the stores, each if there is one. -/
structure Progress (secret : Option OidcClientSecret) (client : Option OidcClientRecord)
    (w : RegistrarTables) : Prop where
  clients : w.clientsOf app = client.toList
  secrets : (w.secretsOf app).map (fun s => (s.owner, s.value.bytes)) =
    secret.toList.map fun s => (app.identity, s.encode.toUTF8)
  agrees : ∀ c ∈ client, R.clientMatchesDeclaration c app declaration uri secret = true
  unused : declaration.clientType = .publicClient → secret = none

/-- An execution whose draws are new and whose time can be stored. -/
structure Admits (createdAt : UnixTimestamp) (drawn : RegistrarDraws) (w : RegistrarTables) :
    Prop where
  inRange : createdAt.seconds < 2 ^ 63
  client_fresh : ∀ c ∈ w.oidc.client, c.clientId ≠ drawn.clientId
  secret_fresh : ∀ s ∈ w.secret, s.id ≠ drawn.secretId

end

variable {R : OidcClientRegistrar} {app : InstalledApp} {declaration : OidcClientDeclaration}
  {uri : OidcRedirectUri} {secret : Option OidcClientSecret} {client : Option OidcClientRecord}

theorem decodeStoredClientSecret_eq (h : stored.value.bytes = s.encode.toUTF8) :
    decodeStoredClientSecret stored = .ok s := by
  have hutf8 : String.fromUTF8? s.encode.toUTF8 = some s.encode := dif_pos s.encode.isValidUTF8
  rw [decodeStoredClientSecret, h, hutf8]
  simp only [OidcClientSecret.parse_encode]
  rfl

theorem new_encode (s : OidcClientSecret) :
    ∃ value, SecretValue.new s.encode.toUTF8 = .ok value ∧ value.bytes = s.encode.toUTF8 := by
  have hle : s.encode.toUTF8.size ≤ 64 := by
    rw [OidcClientSecret.encode, size_toUTF8_ofList]
    exact (Base64.utf8Size_encode_le s.bytes.1).trans (by rw [s.bytes.2])
  have hne : s.encode.toUTF8.size ≠ 0 := by
    intro h
    have hempty : s.encode = "" := by simpa using h
    have hparse := s.parse_encode
    rw [hempty] at hparse
    cases hparse
  exact ⟨⟨_, hne, hle.trans (by decide)⟩, by rw [SecretValue.new, dif_neg hne, dif_pos], rfl⟩

theorem isActive_of_matches (h : R.clientMatchesDeclaration c app declaration uri secret = true) :
    c.isActive = true ∧ c.installationId = app.installationId := by
  simp only [clientMatchesDeclaration, Bool.and_eq_true, decide_eq_true_eq] at h
  exact ⟨h.1.1.1.1.1.1.1, h.1.1.1.1.1.1.2⟩

theorem isSome_of_matches (h : R.clientMatchesDeclaration c app declaration uri secret = true) :
    secret.isSome ↔ declaration.clientType = .confidential := by
  have hs := c.secret_iff
  simp only [clientMatchesDeclaration, Bool.and_eq_true, decide_eq_true_eq] at h
  cases hdigest : c.clientSecretDigest <;> cases hsecret : secret <;> simp_all

/-- The client that is built is one that the declaration asks for. -/
theorem buildClient_matches (hname : app.manifest.displayName.toList.any isControl = false)
    (htype : secret.isSome ↔ declaration.clientType = .confidential) (uri : OidcRedirectUri)
    (cid : OidcClientId) (createdAt : UnixTimestamp) :
    ∃ c, R.buildClient cid app declaration uri secret createdAt = .ok c ∧ c.clientId = cid ∧
      c.createdAt = createdAt ∧ c.revokedAt = none ∧
      R.clientMatchesDeclaration c app declaration uri secret = true := by
  have hsome : (secret.map R.digest).isSome ↔ declaration.clientType = .confidential := by
    rw [Option.isSome_map, htype]
  have hrepeat := firstRepeat_eq_none.mpr declaration.scopes_nodup
  refine ⟨⟨cid, app.installationId, app.identity.appId, app.manifest.displayName,
    declaration.clientType, uri, declaration.scopes, secret.map R.digest, createdAt, none,
    app.manifest.displayName_label, hname, declaration.openId_mem, declaration.scopes_nodup, hsome,
    by simp⟩, ?_, rfl, rfl, rfl, ?_⟩
  · rw [buildClient, OidcClientRecord.restore, label_of_isLabel app.manifest.displayName_label]
    simp only [hname, declaration.openId_mem, hsome, dif_pos]
    split
    · next scope hscope => rw [hrepeat] at hscope; cases hscope
    · exact dif_pos (by simp)
  · cases secret <;> simp [clientMatchesDeclaration, OidcClientRecord.isActive]

namespace Progress

theorem findActive (h : Progress R app declaration uri secret client w) :
    findActiveByInstallation app.installationId w.oidc = client := by
  have hfilter : (w.oidc.client.filter fun c =>
      c.installationId = app.installationId && c.isActive) = client.toList := by
    calc
      _ = (w.clientsOf app).filter (·.isActive) := by
        rw [clientsOf, filter_filter]
        simp only [Bool.and_comm]
      _ = client.toList := by
        rw [h.clients, filter_eq_self]
        intro c hc
        exact (isActive_of_matches (h.agrees c (Option.mem_toList.mp hc))).1
  rw [findActiveByInstallation, ← List.head?_filter, hfilter]
  cases client <;> rfl

theorem findSecret (h : Progress R app declaration uri secret client w) : ∃ stored,
      findByOwnerAndPurpose app.identity oidcClientSecretPurpose w.secret =
        .ok stored ∧ stored.map decodeStoredClientSecret = secret.map .ok := by
  have hhead : w.secret.find? (fun s => s.owner.installationId = app.identity.installationId &&
      s.purpose = oidcClientSecretPurpose) = (w.secretsOf app).head? :=
    (List.head?_filter ..).symm
  have hsecrets := h.secrets
  have hpurpose : ∀ s ∈ w.secretsOf app, s.purpose = oidcClientSecretPurpose := by
    intro s hs
    have := (mem_filter.mp hs).2
    simp only [Bool.and_eq_true, decide_eq_true_eq] at this
    exact this.2
  rw [findByOwnerAndPurpose, hhead]
  cases secret with
  | none =>
    obtain hnil : w.secretsOf app = [] := map_eq_nil_iff.mp hsecrets
    exact ⟨none, by rw [hnil]; rfl, rfl⟩
  | some s =>
    obtain ⟨record, hrecord, heq⟩ := map_eq_singleton_iff.mp hsecrets
    obtain ⟨howner, hbytes⟩ := Prod.mk.inj heq
    have hp := hpurpose record (by simp [hrecord])
    exact ⟨some record, by simp [hrecord, howner, hp],
      congrArg some (decodeStoredClientSecret_eq hbytes)⟩

theorem insertSecret (h : Progress R app declaration uri none none w)
    (htype : declaration.clientType = .confidential) (hadmits : Admits createdAt drawn w)
    (hvalue : value.bytes = drawn.clientSecret.encode.toUTF8) :
    ∃ w', w.respond (.insertSecret
        ⟨drawn.secretId, app.identity, oidcClientSecretPurpose, value, createdAt⟩) = (.ok (), w') ∧
      Progress R app declaration uri (some drawn.clientSecret) none w' ∧ w'.oidc = w.oidc := by
  have hnil : w.secretsOf app = [] := map_eq_nil_iff.mp h.secrets
  have hnone : ∀ s ∈ w.secret, s.owner.installationId = app.installationId →
      s.purpose ≠ oidcClientSecretPurpose := by
    intro s hs hinstallation hpurpose
    have hmem : s ∈ w.secretsOf app := mem_filter.mpr ⟨hs, by simp [hinstallation, hpurpose]⟩
    rw [hnil] at hmem
    cases hmem
  let record : SecretRecord :=
    ⟨drawn.secretId, app.identity, oidcClientSecretPurpose, value, createdAt⟩
  have hinsert : SqliteSecretStore.insert record w.secret = (.ok (), w.secret ++ [record]) :=
    insert_of_fresh hadmits.inRange hadmits.secret_fresh hnone
  refine ⟨{ w with secret := w.secret ++ [record] }, ?_, ⟨h.clients, ?_, ?_, ?_⟩, rfl⟩
  · simp only [respond, record, hinsert]
    rfl
  · rw [secretsOf] at hnil ⊢
    rw [filter_append, hnil]
    simp [record, InstalledApp.installationId, hvalue]
  · exact fun c hc => nomatch hc
  · intro hpublic
    rw [htype] at hpublic
    cases hpublic

theorem insertClient (h : Progress R app declaration uri secret none w)
    (hfresh : ∀ c' ∈ w.oidc.client, c'.clientId ≠ c.clientId)
    (hrange : c.createdAt.seconds < 2 ^ 63) (hactive : c.revokedAt = none)
    (hc : R.clientMatchesDeclaration c app declaration uri secret = true) :
    ∃ w', w.respond (.insertClient c) = (.ok (), w') ∧
      Progress R app declaration uri secret (some c) w' := by
  have hnone : ∀ c' ∈ w.oidc.client, c'.installationId ≠ app.installationId := by
    simpa [clientsOf, filter_eq_nil_iff] using h.clients
  have hinstallation := (isActive_of_matches hc).2
  have hinsert : insert c w.oidc =
      (.ok (), { w.oidc with client := w.oidc.client ++ [c] }) := by
    have htaken : (w.oidc.client.any fun c' => c'.clientId = c.clientId ||
        c'.installationId = c.installationId) = false := by
      simp only [any_eq_false, Bool.or_eq_true, decide_eq_true_eq]
      rintro c' hc' (hid | hsame)
      · exact hfresh c' hc' hid
      · exact hnone c' hc' (hsame.trans hinstallation)
    simp only [SqliteOidcClientRepository.insert, writeTimestamp,
      sqliteTimestamp, hrange, hactive, htaken]
    rfl
  refine ⟨{ w with oidc.client := w.oidc.client ++ [c] }, ?_, ?_, h.secrets, ?_, h.unused⟩
  · simp only [respond, hinsert]
    rfl
  · have hold := h.clients
    rw [clientsOf] at hold ⊢
    rw [filter_append, hold]
    simp [hinstallation]
  · intro c' hc'
    obtain rfl := Option.mem_some.mp hc'
    exact hc

end Progress

/-! ## Executions -/

/-- The environment carries calls out, or fails them with or without their effect if it may. -/
def Serves (faulty : Prop) (H : Handler RegistrarCall RegistrarCall.Answer I RegistrarTables) :
    Prop :=
  ∀ c i w a w', H.step c i w = some (a, w') → (a, w') = w.respond c ∨
    faulty ∧ (∃ e, a = .error e) ∧ (w' = w ∨ w' = (w.respond c).2)

section
variable {H : Handler RegistrarCall RegistrarCall.Answer I RegistrarTables} {faulty : Prop}
  {K : RegistrarTables → Prop}

theorem invoke_spec {Q : c.Result → RegistrarTables → Prop} {v : c.Result} (hH : Serves faulty H)
    (hrespond : w.respond c = (.ok v, w')) (hw : K w) (hw' : K w') (hQ : Q v w') :
    Completes H faulty K (invoke c) Q w := by
  refine ⟨trivial, fun hf => ⟨hf rfl, hw⟩, fun i a w1 hstep _ => ?_⟩
  obtain heq | ⟨hf, ⟨e, rfl⟩, hw1⟩ := hH c i w a w1 hstep
  · obtain ⟨rfl, rfl⟩ := Prod.mk.inj (heq.trans hrespond)
    exact hQ
  · refine ⟨hf, hf, ?_⟩
    obtain rfl | rfl := hw1
    · exact hw
    · rw [hrespond]
      exact hw'

/-- Some secret and some client, as far as an execution has come. -/
def InProgress (R : OidcClientRegistrar) (app : InstalledApp) (declaration : OidcClientDeclaration)
    (uri : OidcRedirectUri) (w : RegistrarTables) : Prop :=
  ∃ secret client, Progress R app declaration uri secret client w

/-- The app has the client and the secret of the registration. -/
def Recorded (R : OidcClientRegistrar) (app : InstalledApp) (declaration : OidcClientDeclaration)
    (uri : OidcRedirectUri) (r : Option Registration) (w : RegistrarTables) : Prop :=
  ∃ client secret, r = some ⟨client, secret⟩ ∧ Progress R app declaration uri secret (some client) w

section

attribute [local irreducible] Completes

variable (hH : Serves faulty H)
include hH

theorem insertClient_spec (h : Progress R app declaration uri secret none w)
    (hrange : createdAt.seconds < 2 ^ 63)
    (hfresh : ∀ c ∈ w.oidc.client, c.clientId ≠ drawn.clientId)
    (hname : app.manifest.displayName.toList.any isControl = false)
    (htype : secret.isSome ↔ declaration.clientType = .confidential) :
    Completes H faulty (InProgress R app declaration uri)
      (R.insertClient app declaration uri secret createdAt drawn)
      (Recorded R app declaration uri) w := by
  obtain ⟨c, hbuild, hid, hcreated, hrevoked, hmatches⟩ :=
    buildClient_matches (R := R) hname htype uri drawn.clientId createdAt
  simp only [insertClient, hbuild, Prog.ofExcept, Prog.ret_bind]
  obtain ⟨w', hrespond, hw'⟩ := h.insertClient (hid ▸ hfresh) (hcreated ▸ hrange) hrevoked hmatches
  exact Completes.seq (invoke_spec hH hrespond ⟨secret, none, h⟩ ⟨secret, some c, hw'⟩
    (Completes.ret ⟨c, secret, rfl, hw'⟩))

theorem obtainSecret_spec (h : Progress R app declaration uri secret none w)
    (htype : declaration.clientType = .confidential) (hadmits : Admits createdAt drawn w)
    (hstored : stored.map decodeStoredClientSecret = secret.map .ok) :
    Completes H faulty (InProgress R app declaration uri) (obtainSecret app stored createdAt drawn)
      (fun s w' => Progress R app declaration uri (some s) none w' ∧ w'.oidc = w.oidc) w := by
  cases secret with
  | some s =>
    obtain ⟨record, rfl, hdecode⟩ := Option.map_eq_some_iff.mp hstored
    simp only [obtainSecret, hdecode]
    exact Completes.ret ⟨h, rfl⟩
  | none =>
    obtain rfl := Option.map_eq_none_iff.mp hstored
    obtain ⟨value, hnew, hvalue⟩ := new_encode drawn.clientSecret
    obtain ⟨w', hrespond, hw', hoidc⟩ := h.insertSecret htype hadmits hvalue
    simp only [obtainSecret, hnew, Prog.ofExcept, Prog.ret_bind]
    exact Completes.seq (invoke_spec hH hrespond ⟨none, none, h⟩
      ⟨some drawn.clientSecret, none, hw'⟩ (Completes.ret ⟨hw', hoidc⟩))

/-- The two questions at the start are answered by what the app has in the stores. -/
theorem register_spec (happ : state.installedApps.getByInstallationId iid = some app)
    (hdeclaration : app.manifest.oidcClient = some declaration)
    (huri : R.redirectUri app declaration = .ok uri)
    (h : Progress R app declaration uri secret client w) (hw : K w)
    (hpublic : declaration.clientType = .publicClient → Completes H faulty K
        (R.registerPublic app declaration uri none client createdAt drawn) Q w)
    (hconfidential : declaration.clientType = .confidential → ∀ stored : Option SecretRecord,
      stored.map decodeStoredClientSecret = secret.map .ok →
      Completes H faulty K
        (R.registerConfidential app declaration uri stored client createdAt drawn) Q w) :
    Completes H faulty K (R.registerOrRecoverInstalledApp state iid createdAt drawn) Q w := by
  obtain ⟨stored, hfind, hstored⟩ := h.findSecret
  have hiid : app.installationId = iid := by simpa using List.find?_some happ
  simp only [registerOrRecoverInstalledApp, happ, hdeclaration, huri, Prog.ofExcept, Prog.ret_bind]
  have hsecret : w.respond (.findByOwnerAndPurpose app.identity oidcClientSecretPurpose) =
      (.ok stored, w) := by
    simp only [respond, hfind]
    rfl
  have hclient : w.respond (.findActiveByInstallation iid) = (.ok client, w) := by
    rw [← hiid, respond, h.findActive]
  refine Completes.seq (invoke_spec hH hsecret hw hw ?_)
  refine Completes.seq (invoke_spec hH hclient hw hw ?_)
  cases htype : declaration.clientType with
  | publicClient =>
    obtain rfl := h.unused htype
    obtain rfl : stored = none := Option.map_eq_none_iff.mp hstored
    exact hpublic htype
  | confidential => exact hconfidential htype stored hstored

/-- An execution for an app whose client is stored returns what is stored. -/
theorem recover_spec (happ : state.installedApps.getByInstallationId iid = some app)
    (hdeclaration : app.manifest.oidcClient = some declaration)
    (huri : R.redirectUri app declaration = .ok uri)
    (h : Progress R app declaration uri secret (some c) w) :
    Completes H faulty (· = w) (R.registerOrRecoverInstalledApp state iid createdAt drawn)
      (fun r w' => r = some ⟨c, secret⟩ ∧ w' = w) w := by
  have hmatches := h.agrees c rfl
  refine register_spec hH happ hdeclaration huri h rfl (fun hpublic => ?_)
    fun hconfidential stored hstored => ?_
  · obtain rfl := h.unused hpublic
    simp only [registerPublic, hmatches]
    exact Completes.ret ⟨rfl, rfl⟩
  · obtain ⟨s, rfl⟩ := Option.isSome_iff_exists.mp ((isSome_of_matches hmatches).mpr hconfidential)
    obtain ⟨record, rfl, hdecode⟩ := Option.map_eq_some_iff.mp hstored
    simp only [registerConfidential, hdecode, Prog.ofExcept, Prog.ret_bind, hmatches]
    exact Completes.ret ⟨rfl, rfl⟩

/-- An execution that is admitted makes progress, and registers the client unless it is
disturbed. -/
theorem registerOrRecoverInstalledApp_spec
    (happ : state.installedApps.getByInstallationId iid = some app)
    (hdeclaration : app.manifest.oidcClient = some declaration)
    (huri : R.redirectUri app declaration = .ok uri)
    (hname : app.manifest.displayName.toList.any isControl = false)
    (hadmits : Admits createdAt drawn w) (h : InProgress R app declaration uri w) :
    Completes H faulty (InProgress R app declaration uri)
      (R.registerOrRecoverInstalledApp state iid createdAt drawn)
      (Recorded R app declaration uri) w := by
  obtain ⟨secret, client, h⟩ := h
  cases client with
  | some c =>
    refine (recover_spec hH happ hdeclaration huri h).mono ?_ ?_
    · rintro _ rfl
      exact ⟨secret, some c, h⟩
    · rintro _ _ ⟨rfl, rfl⟩
      exact ⟨c, secret, rfl, h⟩
  | none =>
    refine register_spec hH happ hdeclaration huri h ⟨secret, none, h⟩ (fun hpublic => ?_)
      fun hconfidential stored hstored => ?_
    · obtain rfl := h.unused hpublic
      exact insertClient_spec hH h hadmits.inRange hadmits.client_fresh hname (by simp [hpublic])
    · refine Completes.bind (obtainSecret_spec hH h hconfidential hadmits hstored) ?_
      rintro s w' ⟨hw', hoidc⟩
      refine insertClient_spec hH hw' hadmits.inRange ?_ hname (by simp [hconfidential])
      rw [hoidc]
      exact hadmits.client_fresh

end

end

/-! ## Histories of executions -/

/-- One execution of the registration, with the decisions of its environment. -/
structure Attempt where
  createdAt : UnixTimestamp
  drawn : RegistrarDraws
  decisions : List Decision

def Attempt.run (R : OidcClientRegistrar) (state : PlatformState) (iid : InstallationId)
    (e : Attempt) (w : RegistrarTables) :
    Exit OidcClientProvisioningError (Option Registration) × RegistrarTables :=
  exec handler (R.registerOrRecoverInstalledApp state iid e.createdAt e.drawn) e.decisions w

/-- The stores after an execution. -/
def Attempt.step (R : OidcClientRegistrar) (state : PlatformState) (iid : InstallationId)
    (e : Attempt) (w : RegistrarTables) : RegistrarTables :=
  (e.run R state iid w).2

/-- The same execution without a stop or a failure. -/
def Attempt.complete (e : Attempt) : Attempt := { e with decisions := [] }

/-- The app has one active client, as declared, and one secret for it or none. -/
structure Registered (R : OidcClientRegistrar) (app : InstalledApp)
    (declaration : OidcClientDeclaration) (uri : OidcRedirectUri) (r : Registration)
    (w : RegistrarTables) : Prop where
  client : (w.clientsOf app).filter (·.isActive) = [r.client]
  declared : R.clientMatchesDeclaration r.client app declaration uri r.clientSecret = true
  secretless : declaration.clientType = .publicClient → r.clientSecret = none ∧ w.secretsOf app = []
  secret : declaration.clientType = .confidential → ∃ secret record, r.clientSecret = some secret ∧
    w.secretsOf app = [record] ∧ decodeStoredClientSecret record = .ok secret ∧
    r.client.clientSecretDigest = some (R.digest secret)

theorem handler_serves : Serves True handler := by
  intro c decision w a w' hstep
  cases decision with
  | ok value => exact .inl (Option.some.inj hstep).symm
  | fail =>
    obtain ⟨rfl, rfl⟩ := Prod.mk.inj (Option.some.inj hstep)
    exact .inr ⟨trivial, ⟨_, rfl⟩, .inl rfl⟩
  | lost =>
    obtain ⟨rfl, rfl⟩ := Prod.mk.inj (Option.some.inj hstep)
    exact .inr ⟨trivial, ⟨_, rfl⟩, .inr rfl⟩
  | stop => cases hstep

theorem undisturbed_serves : Serves False (handler.comap fun _ : Unit => default) := by
  intro c decision w a w' hstep
  exact .inl (Option.some.inj hstep).symm

theorem exec_complete (h : Completes (handler.comap fun _ : Unit => default) False K p Q w) :
    ∃ r w', exec handler p [] w = (.done r, w') ∧ Q r w' := by
  obtain ⟨r, w', hrun, hr⟩ := h.returns (fun _ _ _ => rfl) []
  rw [exec_comap handler (f := fun _ : Unit => default) rfl] at hrun
  exact ⟨r, w', hrun, hr⟩

theorem inProgress_of_new (hclients : w.clientsOf app = []) (hsecrets : w.secretsOf app = []) :
    InProgress R app declaration uri w :=
  ⟨none, none, ⟨hclients, by rw [hsecrets]; rfl, fun c hc => (nomatch hc), fun _ => rfl⟩⟩

theorem Progress.registered (h : Progress R app declaration uri secret (some c) w) :
    Registered R app declaration uri ⟨c, secret⟩ w where
  client := by
    have hactive := (isActive_of_matches (h.agrees c rfl)).1
    rw [h.clients]
    simp [hactive]
  declared := h.agrees c rfl
  secretless hpublic := by
    have hnone := h.unused hpublic
    have hsecrets := h.secrets
    rw [hnone] at hsecrets
    exact ⟨hnone, map_eq_nil_iff.mp hsecrets⟩
  secret hconfidential := by
    have hmatches := h.agrees c rfl
    obtain ⟨s, rfl⟩ := Option.isSome_iff_exists.mp ((isSome_of_matches hmatches).mpr hconfidential)
    obtain ⟨record, hrecord, heq⟩ := map_eq_singleton_iff.mp h.secrets
    refine ⟨s, record, rfl, hrecord, decodeStoredClientSecret_eq (Prod.mk.inj heq).2, ?_⟩
    simp only [clientMatchesDeclaration, Bool.and_eq_true] at hmatches
    have hdigest := hmatches.2
    cases hc : c.clientSecretDigest with
    | none => simp [hc] at hdigest
    | some d => simpa [hc] using hdigest

/-- However often the registration was stopped or failed, the next execution that is not disturbed
registers the client, and every later one returns that client and that secret and changes
nothing. -/
theorem register_or_recover_idempotent (R : OidcClientRegistrar) (state : PlatformState)
    (iid : InstallationId) (app : InstalledApp) (declaration : OidcClientDeclaration)
    (uri : OidcRedirectUri) (w : RegistrarTables)
    (happ : state.installedApps.getByInstallationId iid = some app)
    (hdeclaration : app.manifest.oidcClient = some declaration)
    (huri : R.redirectUri app declaration = .ok uri)
    (hname : app.manifest.displayName.toList.any isControl = false)
    (hclients : w.clientsOf app = []) (hsecrets : w.secretsOf app = []) (es : List Attempt)
    (e : Attempt)
    (hes : Along (Attempt.step R state iid) (fun e w => Admits e.createdAt e.drawn w) (es ++ [e])
      w) :
    ∃ r w', e.complete.run R state iid (after (Attempt.step R state iid) es w) =
        (.done (some r), w') ∧
      Registered R app declaration uri r w' ∧
      ∀ (es' : List Attempt) (e' : Attempt), after (Attempt.step R state iid) es' w' = w' ∧
        e'.complete.run R state iid w' = (.done (some r), w') := by
  obtain ⟨hes, hadmits, -⟩ := Along.append.mp hes
  have hprogress : InProgress R app declaration uri (after (Attempt.step R state iid) es w) := by
    refine hes.invariant (fun e w hw hadmits => ?_) (inProgress_of_new hclients hsecrets)
    refine (registerOrRecoverInstalledApp_spec handler_serves happ hdeclaration huri hname hadmits
      hw).leaves ?_ e.decisions
    rintro _ _ ⟨c, secret, -, hc⟩
    exact ⟨secret, some c, hc⟩
  obtain ⟨_, w', hrun, c, secret, rfl, hc⟩ := exec_complete
    (registerOrRecoverInstalledApp_spec undisturbed_serves happ hdeclaration huri hname hadmits
      hprogress)
  refine ⟨⟨c, secret⟩, w', hrun, hc.registered, fun es' e' => ⟨?_, ?_⟩⟩
  · have hkeeps : Along (Attempt.step R state iid) (fun _ _ => True) es' w' :=
      .of_forall (fun _ _ => trivial) es' w'
    refine hkeeps.invariant (P := (· = w')) ?_ rfl
    rintro e _ rfl -
    exact (recover_spec handler_serves happ hdeclaration huri hc).leaves (fun _ _ h => h.2)
      e.decisions
  · obtain ⟨_, _, hrun', rfl, rfl⟩ := exec_complete
      (recover_spec undisturbed_serves happ hdeclaration huri hc)
    exact hrun'

private theorem main_valid : RuntimeEntrypointId.check "main" = .ok () := by decide

def notesDeclaration : OidcClientDeclaration where
  clientType := .publicClient
  callbackEntrypoint := ⟨"main", main_valid⟩
  callbackPath := { value := "/callback" }
  scopes := [.openId]
  scopes_le := by decide
  openId_mem := by decide
  scopes_nodup := by decide

/-- Notes with a public client, under a display name. -/
def notesApp (displayName : String) (h : IsLabel 120 displayName) : InstalledApp where
  identity := ⟨AppManifest.notes.appId, ⟨1⟩, AppManifest.notes.publisherId⟩
  manifest :=
    { AppManifest.notes with
      displayName
      displayName_label := h
      oidcClient := some notesDeclaration }
  valid := by rfl
  appId_eq := rfl
  publisherId_eq := rfl

def chatDeclaration : OidcClientDeclaration := { notesDeclaration with clientType := .confidential }

/-- An app in a container, with a confidential client. -/
def chatApp : InstalledApp where
  identity := ⟨AppManifest.notes.appId, ⟨1⟩, AppManifest.notes.publisherId⟩
  manifest :=
    { AppManifest.notes with
      runtime :=
        { kind := .container
          entrypoints := [⟨{ value := "image" }, .containerArtifact { value := "image.tar" }⟩,
            ⟨⟨"main", main_valid⟩, .endpoint { value := "http" }⟩]
          accepted := by decide
          ids_nodup := by decide }
      oidcClient := some chatDeclaration }
  valid := by rfl
  appId_eq := rfl
  publisherId_eq := rfl

/-- A platform with one app. -/
def platformWith (app : InstalledApp) : PlatformState := { installedApps := ⟨[app]⟩ }

def plainRegistrar : OidcClientRegistrar where
  resolveOrigin _ _ := some "https://notes.test"
  fromPlatformOrigin origin path := some ⟨origin ++ path.value⟩
  sha256 := paddedDigest

/-- An execution that draws `n` everywhere. -/
def attempt (seconds : Nat) (n : Nat) (decisions : List Decision) : Attempt where
  createdAt := ⟨seconds⟩
  drawn := ⟨.generate ⟨List.replicate 24 (.ofNat n), rfl⟩, ⟨n⟩,
    ⟨⟨List.replicate 32 (.ofNat n), rfl⟩⟩⟩
  decisions := decisions

/-- The first execution stops with the secret stored and no client, and the second one takes the
secret up. -/
theorem chat_register_idempotent : ∃ r w', (attempt 8 2 []).complete.run plainRegistrar
        (platformWith chatApp) ⟨1⟩ (after (Attempt.step plainRegistrar (platformWith chatApp) ⟨1⟩)
          [attempt 7 1 [.ok 0, .ok 0, .ok 0, .stop]] {}) = (.done (some r), w') ∧
      Registered plainRegistrar chatApp chatDeclaration ⟨"https://notes.test/callback"⟩ r w' ∧
      (after (Attempt.step plainRegistrar (platformWith chatApp) ⟨1⟩)
        [attempt 7 1 [.ok 0, .ok 0, .ok 0, .stop]] {}).secret.length = 1 := by
  have hstep : ((attempt 7 1 [.ok 0, .ok 0, .ok 0, .stop]).step plainRegistrar
      (platformWith chatApp) ⟨1⟩ {}).oidc.client = [] ∧
    (((attempt 7 1 [.ok 0, .ok 0, .ok 0, .stop]).step plainRegistrar
      (platformWith chatApp) ⟨1⟩ {}).secret.map SecretRecord.id) = [⟨1⟩] := by decide +kernel
  have hids : ∀ s ∈ ((attempt 7 1 [.ok 0, .ok 0, .ok 0, .stop]).step plainRegistrar
      (platformWith chatApp) ⟨1⟩ {}).secret, s.id ≠ ⟨2⟩ := by
    intro s hs
    have hid := hstep.2 ▸ mem_map_of_mem (f := SecretRecord.id) hs
    rw [mem_singleton.mp hid]
    decide
  obtain ⟨r, w', hrun, hregistered, -⟩ := register_or_recover_idempotent plainRegistrar
    (platformWith chatApp) ⟨1⟩ chatApp chatDeclaration ⟨"https://notes.test/callback"⟩ {} rfl rfl
    rfl (by decide) rfl rfl [attempt 7 1 [.ok 0, .ok 0, .ok 0, .stop]] (attempt 8 2 [])
    ⟨⟨by decide, fun c hc => (nomatch hc), fun s hs => (nomatch hs)⟩,
      ⟨by decide, by rw [hstep.1]; exact fun c hc => (nomatch hc), hids⟩, trivial⟩
  exact ⟨r, w', hrun, hregistered, by simpa [Effect.after] using congrArg length hstep.2⟩

/-- A display name may hold a control character in a manifest but not in a client, and a time may
be too large for the stores: no client is ever registered. -/
theorem control_character_refused : (attempt 7 1 []).run plainRegistrar
        (platformWith (notesApp "No\x07tes" (by decide))) ⟨1⟩ {} =
      (.failed (.invalidClient .displayNameContainsControlCharacter), {}) ∧
    (attempt (2 ^ 63) 1 []).run plainRegistrar
        (platformWith (notesApp "Notes" (by decide))) ⟨1⟩ {} =
      (.failed (.repository (.timestampOutsideSqliteRange "created_at" (2 ^ 63))), {}) := by
  decide +kernel

end OidcClientRegistrar

end Rumahl
