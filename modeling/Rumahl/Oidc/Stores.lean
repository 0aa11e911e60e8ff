import Rumahl.Data.Growth
import Rumahl.Oidc.Domain
import Rumahl.Sqlite.Identity

/-!
# The tables of the OpenID provider

Each method of the stores is one transaction on the tables. A row is never deleted, and what was
revoked or consumed stays so.
-/

namespace Rumahl

/-- A row that can be used once. -/
structure OneUse (α : Type) where
  body : α
  consumedAt : Option Nat
  revokedAt : Option Nat
  deriving DecidableEq

/-- Neither used nor revoked. -/
def OneUse.isOpen (row : OneUse α) : Bool := row.consumedAt.isNone && row.revokedAt.isNone

theorem OneUse.isOpen_eq_true {row : OneUse α} :
    row.isOpen = true ↔ row.consumedAt = none ∧ row.revokedAt = none := by
  simp [isOpen]

structure ConsentRow where
  consent : UserConsent
  installationId : InstallationId
  grantedAt : Nat
  revokedAt : Option Nat
  deriving DecidableEq

structure FamilyRow where
  family : RefreshTokenFamily
  installationId : InstallationId
  deriving DecidableEq

structure SpentRow where
  digest : Sha256Digest
  familyId : String
  deriving DecidableEq

structure AccessTokenRow where
  digest : Sha256Digest
  clientId : OidcClientId
  installationId : InstallationId
  userId : UserId
  sessionId : SessionId
  subject : String
  scopes : List OidcScope
  familyId : Option String
  expiresAt : Nat
  revokedAt : Option Nat
  deriving DecidableEq

structure OidcTables where
  client : List OidcClientRecord := []
  transaction : List (OneUse AuthorizationTransaction) := []
  code : List (OneUse AuthorizationCode) := []
  consent : List ConsentRow := []
  pairwiseSubject : List PairwiseSubject := []
  family : List FamilyRow := []
  spent : List SpentRow := []
  accessToken : List AccessTokenRow := []
  deriving DecidableEq

/-- A row that is revoked keeps the time of its first revocation. -/
def OneUse.revoke (at_ : UnixTimestamp) (row : OneUse α) : OneUse α :=
  if row.revokedAt.isNone then { row with revokedAt := some at_.seconds } else row

def FamilyRow.revoke (at_ : UnixTimestamp) (row : FamilyRow) : FamilyRow :=
  if row.family.revokedAt.isNone then
    { row with family := { row.family with revokedAt := some at_ } }
  else row

def AccessTokenRow.revoke (at_ : UnixTimestamp) (row : AccessTokenRow) : AccessTokenRow :=
  if row.revokedAt.isNone then { row with revokedAt := some at_.seconds } else row

/-- Revoke the transactions, codes, families and tokens that are selected. -/
def OidcTables.revoke (at_ : UnixTimestamp) (transactions : AuthorizationTransaction → Bool)
    (codes : AuthorizationCode → Bool) (families : FamilyRow → Bool)
    (tokens : AccessTokenRow → Bool) (t : OidcTables) : OidcTables :=
  { t with
    transaction := t.transaction.map fun row =>
      if transactions row.body then row.revoke at_ else row
    code := t.code.map fun row => if codes row.body then row.revoke at_ else row
    family := t.family.map fun row => if families row then row.revoke at_ else row
    accessToken := t.accessToken.map fun row => if tokens row then row.revoke at_ else row }

/-! ## Clients -/

inductive SqliteOidcClientRepositoryError where
  | database
  | timestampOutsideSqliteRange (field : String) (value : Nat)
  deriving DecidableEq

namespace SqliteOidcClientRepository

abbrev Result (α : Type) := Except SqliteOidcClientRepositoryError α × OidcTables

def writeTimestamp (field : String) (t : UnixTimestamp) :
    Except SqliteOidcClientRepositoryError Nat :=
  sqliteTimestamp (.timestampOutsideSqliteRange field t.seconds) t

def insert (client : OidcClientRecord) (t : OidcTables) : Result Unit :=
  Except.commit t do
    let _ ← writeTimestamp "created_at" client.createdAt
    client.revokedAt.forM fun revokedAt => discard (writeTimestamp "revoked_at" revokedAt)
    if t.client.any (fun c => c.clientId = client.clientId ||
        c.installationId = client.installationId) then
      .error .database
    else pure ((), { t with client := t.client ++ [client] })

def findActiveById (clientId : OidcClientId) (t : OidcTables) : Option OidcClientRecord :=
  t.client.find? fun c => c.clientId = clientId && c.isActive

def findActiveByInstallation (installationId : InstallationId) (t : OidcTables) :
    Option OidcClientRecord :=
  t.client.find? fun c => c.installationId = installationId && c.isActive

/-- A client must not be revoked before it was created. -/
def revokeClient (installationId : InstallationId) (revokedAt : UnixTimestamp)
    (client : OidcClientRecord) : OidcClientRecord :=
  if h : client.installationId = installationId ∧ client.revokedAt = none ∧
      client.createdAt ≤ revokedAt then
    { client with revokedAt := some revokedAt, createdAt_le := fun _ ht =>
      Option.some.inj ht ▸ h.2.2 }
  else client

def revokeForInstallation (installationId : InstallationId) (revokedAt : UnixTimestamp)
    (t : OidcTables) : Result Nat :=
  Except.commit t do
    let at_ ← writeTimestamp "revoked_at" revokedAt
    let clients := t.client.filter fun c => c.installationId = installationId && c.isActive
    if clients.any fun c => revokedAt < c.createdAt then .error .database
    else
      pure (clients.length, { t.revoke revokedAt (·.installationId = installationId)
            (·.installationId = installationId) (·.installationId = installationId)
            (·.installationId = installationId) with
          client := t.client.map (revokeClient installationId revokedAt)
          consent := t.consent.map fun row =>
            if row.installationId = installationId ∧ row.revokedAt = none then
              { row with revokedAt := some at_ } else row })

theorem findActiveById_eq_some (h : findActiveById cid t = some client) :
    client ∈ t.client ∧ client.clientId = cid ∧ client.isActive = true := by
  have hp := List.find?_some h
  rw [Bool.and_eq_true, decide_eq_true_eq] at hp
  exact ⟨List.mem_of_find?_eq_some h, hp⟩

end SqliteOidcClientRepository

/-! ## Authorizations -/

/-- The stores for authorizations, access tokens and refresh tokens have the same errors. -/
inductive SqliteOidcStoreError where
  | database | inactiveClient | invalidStoredState

/-- The outcome of a method of the stores for authorizations and tokens. -/
abbrev OidcStoreResult (α : Type) := Except SqliteOidcStoreError α × OidcTables

namespace SqliteOidcAuthorizationStore

def insertTransaction (transaction : AuthorizationTransaction) (t : OidcTables) :
    OidcStoreResult Unit :=
  Except.commit t do
    let _ ← sqliteTimestamp .invalidStoredState transaction.expiresAt
    if !(t.client.any fun c => c.clientId = transaction.clientId && c.isActive) then
      .error .inactiveClient
    else if t.transaction.any (·.body.id = transaction.id) then .error .database
    else pure ((), { t with transaction := t.transaction ++ [⟨transaction, none, none⟩] })

def activeClient (t : OidcTables) (client : OidcClientRecord) : Bool :=
  (t.client.any fun c => c.clientId = client.clientId &&
    c.installationId = client.installationId && c.isActive) && client.isActive

/-- The subject of the user for the installation, which is drawn when there is none. -/
def pairwiseSubject (userId : UserId) (installationId : InstallationId) (drawn : ByteVector 32)
    (subjects : List PairwiseSubject) :
    Except SqliteOidcStoreError (PairwiseSubject × List PairwiseSubject) :=
  match subjects.find? fun s => s.userId = userId && s.installationId = installationId with
  | some stored => do
    let subject ← (PairwiseSubject.restore userId installationId stored.value).mapError
      fun _ => .invalidStoredState
    pure (subject, subjects)
  | none =>
    if subjects.any (·.value = randomValue drawn) then .error .database
    else
      let subject := ⟨userId, installationId, randomValue drawn⟩
      .ok (subject, subjects ++ [subject])

def recordConsent (consent : UserConsent) (installationId : InstallationId) (grantedAt : Nat)
    (rows : List ConsentRow) : List ConsentRow :=
  if rows.any fun row => row.consent.userId = consent.userId &&
      row.consent.clientId = consent.clientId then
    rows.map fun row =>
      if row.consent.userId = consent.userId ∧ row.consent.clientId = consent.clientId then
        { row with consent, grantedAt, revokedAt := none } else row
  else rows ++ [⟨consent, installationId, grantedAt, none⟩]

/-- Nothing is stored unless the answer is a code. -/
def approveTransaction (sha256 : List UInt8 → Sha256Digest) (transactionId : String)
    (client : OidcClientRecord) (userId : UserId) (sessionId : SessionId) (consent : UserConsent)
    (now : UnixTimestamp) (code subject : ByteVector 32) (t : OidcTables) :
    OidcStoreResult (Option ApprovedAuthorization) :=
  Except.commit t <|
    if !activeClient t client then .ok (none, t)
    else
      match t.transaction.find? fun row => row.body.id = transactionId && row.isOpen with
      | none => .ok (none, t)
      | some ⟨stored, _, _⟩ =>
        if stored.clientId ≠ client.clientId || stored.installationId ≠ client.installationId ||
            stored.redirectUri ≠ client.redirectUri then
          .ok (none, t)
        else do
          let challenge ← (PkceChallenge.parse stored.challenge.text).mapError
            fun _ => .invalidStoredState
          let transaction ← (AuthorizationTransaction.restore transactionId client stored.userId
            stored.sessionId stored.scopes stored.state stored.nonce challenge
            stored.expiresAt).mapError fun _ => .invalidStoredState
          match transaction.approve sha256 client consent userId sessionId now code with
          | .error _ => pure (none, t)
          | .ok (code, raw) => do
            let (subject, subjects) ←
              pairwiseSubject userId client.installationId subject t.pairwiseSubject
            let at_ ← sqliteTimestamp .invalidStoredState now
            let _ ← sqliteTimestamp .invalidStoredState code.expiresAt
            if t.code.any (·.body.digest = code.digest) then .error .database
            else
              pure (some ⟨raw, transaction.state, subject, client.redirectUri⟩, { t with
                  pairwiseSubject := subjects
                  consent := recordConsent consent client.installationId at_ t.consent
                  code := t.code ++ [⟨code, none, none⟩]
                  transaction := t.transaction.map fun row =>
                    if row.body.id = transactionId then { row with consumedAt := some at_ }
                    else row })

def consumeCode (sha256 : List UInt8 → Sha256Digest) (rawCode : String) (client : OidcClientRecord)
    (redirectUri verifier : String) (now : UnixTimestamp) (t : OidcTables) :
    OidcStoreResult (Option AuthorizationCode) :=
  Except.commit t <|
    if byteLength rawCode.toList ≠ 43 then .ok (none, t)
    else if !activeClient t client then .ok (none, t)
    else
      let digest := sha256 (textBytes rawCode)
      match t.code.find? fun row => row.body.digest = digest && row.isOpen with
      | none => .ok (none, t)
      | some ⟨stored, _, _⟩ =>
        if stored.clientId ≠ client.clientId || stored.installationId ≠ client.installationId ||
            stored.redirectUri ≠ client.redirectUri then
          .ok (none, t)
        else do
          let challenge ← (PkceChallenge.parse stored.challenge.text).mapError
            fun _ => .invalidStoredState
          let code ← (AuthorizationCode.restore digest client stored.userId stored.sessionId
            stored.scopes stored.nonce challenge stored.expiresAt).mapError
              fun _ => .invalidStoredState
          match code.verifyExchange sha256 rawCode client redirectUri verifier now with
          | .error _ => pure (none, t)
          | .ok () => do
            let at_ ← sqliteTimestamp .invalidStoredState now
            pure (some code, { t with code := t.code.map fun row =>
                  if row.body.digest = digest ∧ row.isOpen then { row with consumedAt := some at_ }
                  else row })

def findSubject (userId : UserId) (installationId : InstallationId) (t : OidcTables) :
    Except SqliteOidcStoreError (Option PairwiseSubject) :=
  match t.pairwiseSubject.find? fun s => s.userId = userId && s.installationId = installationId with
  | none => .ok none
  | some stored => do
    let subject ← (PairwiseSubject.restore userId installationId stored.value).mapError
      fun _ => .invalidStoredState
    pure (some subject)

theorem activeClient_eq_true (h : activeClient t client = true) :
    client.isActive = true ∧ ∃ c ∈ t.client, c.clientId = client.clientId ∧
      c.installationId = client.installationId ∧ c.isActive = true := by
  obtain ⟨h, hactive⟩ := Bool.and_eq_true_iff.mp h
  refine ⟨hactive, ?_⟩
  simpa [and_assoc] using h

theorem restore_eq_ok
    (h : AuthorizationTransaction.restore stored.id client stored.userId stored.sessionId
      stored.scopes stored.state stored.nonce stored.challenge stored.expiresAt = .ok transaction)
    (hclient : stored.clientId = client.clientId)
    (hinst : stored.installationId = client.installationId)
    (huri : stored.redirectUri = client.redirectUri) :
    transaction = stored ∧ client.validScopes stored.scopes = true := by
  unfold AuthorizationTransaction.restore at h
  split at h
  · cases h
  · next hvalid =>
    cases h
    refine ⟨?_, by simp at hvalid; exact hvalid.2⟩
    rw [← hclient, ← hinst, ← huri]

theorem code_restore_eq_ok
    (h : AuthorizationCode.restore stored.digest client stored.userId stored.sessionId stored.scopes
      stored.nonce stored.challenge stored.expiresAt = .ok code)
    (hclient : stored.clientId = client.clientId)
    (hinst : stored.installationId = client.installationId)
    (huri : stored.redirectUri = client.redirectUri) :
    code = stored ∧ client.validScopes stored.scopes = true := by
  unfold AuthorizationCode.restore at h
  split at h
  · cases h
  · next hvalid =>
    cases h
    refine ⟨?_, by simp at hvalid; exact hvalid.1.2⟩
    rw [← hclient, ← hinst, ← huri]

end SqliteOidcAuthorizationStore

/-! ## Access tokens -/

namespace SqliteOidcAccessTokenStore

def familyAdmits (t : OidcTables) (grant : AccessTokenGrant) : Option String → Bool
  | none => true
  | some familyId => t.family.any fun row => row.family.id = familyId &&
      row.family.clientId = grant.clientId && row.family.userId = grant.userId &&
      row.family.sessionId = grant.sessionId && row.family.revokedAt.isNone

/-- The row of a new token. -/
def newRow (grant : AccessTokenGrant) (familyId : Option String) : AccessTokenRow where
  digest := grant.digest
  clientId := grant.clientId
  installationId := grant.subject.installationId
  userId := grant.userId
  sessionId := grant.sessionId
  subject := grant.subject.value
  scopes := grant.scopes
  familyId := familyId
  expiresAt := grant.expiresAt.seconds
  revokedAt := none

def insertAccess (grant : AccessTokenGrant) (familyId : Option String) (t : OidcTables) :
    OidcStoreResult Unit :=
  Except.commit t do
    let _ ← sqliteTimestamp .invalidStoredState grant.expiresAt
    if !(t.client.any fun c => c.clientId = grant.clientId &&
          c.installationId = grant.subject.installationId && c.isActive) ||
        !(t.pairwiseSubject.any fun s => s.userId = grant.userId &&
          s.installationId = grant.subject.installationId && s.value = grant.subject.value) ||
        !familyAdmits t grant familyId then
      .error .inactiveClient
    else if t.accessToken.any (·.digest = grant.digest) then .error .database
    else
      pure ((), { t with accessToken := t.accessToken ++ [newRow grant familyId] })

/-- The family of a token, if it has one, is neither revoked nor expired. -/
def familyIsLive (t : OidcTables) (row : AccessTokenRow) (now : Nat) : Bool :=
  match row.familyId with
  | none => true
  | some familyId => t.family.any fun f => f.family.id = familyId && f.family.revokedAt.isNone &&
      now < f.family.expiresAt.seconds && f.family.clientId = row.clientId &&
      f.installationId = row.installationId && f.family.userId = row.userId &&
      f.family.sessionId = row.sessionId

/-- The token can be used. -/
def isLive (t : OidcTables) (row : AccessTokenRow) (now : Nat) : Bool :=
  row.revokedAt.isNone && now < row.expiresAt &&
    (t.client.any fun c => c.clientId = row.clientId && c.installationId = row.installationId &&
      c.isActive) &&
    (t.pairwiseSubject.any fun s => s.userId = row.userId &&
      s.installationId = row.installationId && s.value = row.subject) &&
    familyIsLive t row now

def intoDomain (row : AccessTokenRow) : Except SqliteOidcStoreError AccessTokenGrant := do
  let subject ← (PairwiseSubject.restore row.userId row.installationId row.subject).mapError
    fun _ => .invalidStoredState
  (AccessTokenGrant.restore row.digest row.clientId row.userId row.sessionId subject row.scopes
    ⟨row.expiresAt⟩).mapError fun _ => .invalidStoredState

def resolveAccess (sha256 : List UInt8 → Sha256Digest) (raw : String) (now : UnixTimestamp)
    (t : OidcTables) : Except SqliteOidcStoreError (Option AccessTokenGrant) :=
  if byteLength raw.toList ≠ 43 then .ok none
  else do
    let now ← sqliteTimestamp .invalidStoredState now
    match t.accessToken.find? fun row =>
        row.digest = sha256 (textBytes raw) && isLive t row now with
    | none => pure none
    | some row => do
      let grant ← intoDomain row
      pure (some grant)

def revokeAccess (sha256 : List UInt8 → Sha256Digest) (raw : String) (now : UnixTimestamp)
    (t : OidcTables) : OidcStoreResult Nat :=
  Except.commit t <|
    if byteLength raw.toList ≠ 43 then .ok (0, t)
    else do
      let _ ← sqliteTimestamp .invalidStoredState now
      let digest := sha256 (textBytes raw)
      pure (t.accessToken.countP fun row => row.digest = digest && row.revokedAt.isNone,
        t.revoke now (fun _ => false) (fun _ => false) (fun _ => false) (·.digest = digest))

theorem isLive_eq_true (h : isLive t row now = true) : row.revokedAt = none ∧
      (∃ c ∈ t.client, c.clientId = row.clientId ∧ c.installationId = row.installationId ∧
        c.isActive = true) ∧
      ∀ f ∈ row.familyId, ∃ x ∈ t.family, x.family.id = f ∧ x.family.revokedAt = none := by
  simp only [isLive, Bool.and_eq_true, Option.isNone_iff_eq_none, List.any_eq_true,
    decide_eq_true_eq] at h
  obtain ⟨⟨⟨⟨hlive, -⟩, c, hc, ⟨hid, hinst⟩, hactive⟩, -⟩, hfamily⟩ := h
  refine ⟨hlive, ⟨c, hc, hid, hinst, hactive⟩, fun f hf => ?_⟩
  unfold familyIsLive at hfamily
  rw [hf] at hfamily
  simp only [List.any_eq_true, Bool.and_eq_true, decide_eq_true_eq, Option.isNone_iff_eq_none]
    at hfamily
  obtain ⟨x, hx, ⟨⟨⟨⟨⟨⟨hid, hrev⟩, -⟩, -⟩, -⟩, -⟩, -⟩⟩ := hfamily
  exact ⟨x, hx, hid, hrev⟩

theorem resolveAccess_eq_some (h : resolveAccess sha256 raw now t = .ok (some grant)) :
    ∃ row ∈ t.accessToken, row.digest = sha256 (textBytes raw) ∧
      isLive t row now.seconds = true ∧ grant.digest = row.digest ∧
      grant.clientId = row.clientId ∧ grant.subject.installationId = row.installationId ∧
      grant.sessionId = row.sessionId := by
  unfold resolveAccess at h
  split at h
  · cases h
  · obtain ⟨at_, hat, h⟩ := Except.bind_eq_ok.mp h
    obtain rfl : at_ = now.seconds := by
      unfold sqliteTimestamp at hat
      split at hat
      · exact (Except.ok.inj hat).symm
      · cases hat
    split at h
    · cases h
    · next row hf =>
      obtain ⟨grant', hgrant, h⟩ := Except.bind_eq_ok.mp h
      cases h
      have hp := List.find?_some hf
      rw [Bool.and_eq_true, decide_eq_true_eq] at hp
      refine ⟨row, List.mem_of_find?_eq_some hf, hp.1, hp.2, ?_⟩
      obtain ⟨subject, hsubject, hgrant⟩ := Except.bind_eq_ok.mp hgrant
      unfold PairwiseSubject.restore at hsubject
      split at hsubject
      · cases hsubject
        unfold AccessTokenGrant.restore at hgrant
        split at hgrant
        · cases hgrant
        · cases hgrant
          exact ⟨rfl, rfl, rfl, rfl⟩
      · cases hsubject

end SqliteOidcAccessTokenStore

/-! ## Refresh tokens -/

namespace SqliteOidcRefreshTokenStore

def insertFamily (family : RefreshTokenFamily) (t : OidcTables) : OidcStoreResult Unit :=
  Except.commit t <|
    if 2 ^ 63 ≤ family.generation then .error .invalidStoredState
    else do
      let _ ← sqliteTimestamp .invalidStoredState family.expiresAt
      match t.client.find? fun c => c.clientId = family.clientId && c.isActive with
      | none => .error .inactiveClient
      | some client =>
        if t.family.any fun row => row.family.id = family.id ||
            row.family.currentDigest = family.currentDigest then
          .error .database
        else
          pure ((), { t with
            family := t.family ++ [⟨{ family with revokedAt := none }, client.installationId⟩] })

/-- The family that the token is the current one of, if its client is active. -/
def currentFamily (digest : Sha256Digest) (t : OidcTables) : Option FamilyRow :=
  t.family.find? fun row => row.family.currentDigest = digest &&
    t.client.any fun c => c.clientId = row.family.clientId && c.isActive

/-- A token that was spent before revokes its family. -/
def rotate (sha256 : List UInt8 → Sha256Digest) (raw : String) (now : UnixTimestamp)
    (next : ByteVector 32) (t : OidcTables) : OidcStoreResult RefreshRotation :=
  Except.commit t <|
    if byteLength raw.toList ≠ 43 then .ok (.invalid, t)
    else
      let digest := sha256 (textBytes raw)
      match currentFamily digest t with
      | some row =>
        if !validRandomId row.family.id then .error .invalidStoredState
        else
          match row.family.rotate sha256 raw now next with
          | .error _ => .ok (.invalid, t)
          | .ok (token, family) =>
            if t.spent.any (·.digest = digest) then .error .database
            else if 2 ^ 63 ≤ family.generation then .error .invalidStoredState
            else if t.family.any fun row => row.family.id ≠ family.id &&
                row.family.currentDigest = family.currentDigest then
              .error .database
            else
              .ok (.rotated token, { t with
                spent := t.spent ++ [⟨digest, family.id⟩]
                family := t.family.map fun row =>
                  if row.family.id = family.id then { row with family } else row })
      | none =>
        match t.spent.find? (·.digest = digest) with
        | some spent => do
          let _ ← sqliteTimestamp .invalidStoredState now
          pure (.replayRevoked, t.revoke now (fun _ => false) (fun _ => false)
            (·.family.id = spent.familyId) (·.familyId = some spent.familyId))
        | none => .ok (.invalid, t)

def revokeForSession (sessionId : SessionId) (now : UnixTimestamp) (t : OidcTables) :
    OidcStoreResult Nat :=
  Except.commit t do
    let _ ← sqliteTimestamp .invalidStoredState now
    let transactions := t.transaction.countP fun row =>
      row.body.sessionId = sessionId && row.revokedAt.isNone
    let codes := t.code.countP fun row => row.body.sessionId = sessionId && row.revokedAt.isNone
    let families := t.family.countP fun row =>
      row.family.sessionId = sessionId && row.family.revokedAt.isNone
    let tokens := t.accessToken.countP fun row => row.sessionId = sessionId && row.revokedAt.isNone
    pure (transactions + codes + families + tokens,
      t.revoke now (·.sessionId = sessionId) (·.sessionId = sessionId)
        (·.family.sessionId = sessionId) (·.sessionId = sessionId))

theorem currentFamily_eq_some (h : currentFamily digest t = some row) :
    row ∈ t.family ∧ row.family.currentDigest = digest ∧
      ∃ c ∈ t.client, c.clientId = row.family.clientId ∧ c.isActive = true := by
  have hp := List.find?_some h
  refine ⟨List.mem_of_find?_eq_some h, ?_⟩
  simpa using hp

end SqliteOidcRefreshTokenStore

end Rumahl
