import Rumahl.Core.Accounts
import Rumahl.Data.Encoding

/-!
# Clients, codes and tokens

The types of the OpenID provider, with the checks that they make. Ids and tokens are 32 random bytes
as text; only the digest of a token is kept. What the random generator drew is an argument here.
-/

namespace Rumahl

abbrev Sha256Digest := ByteVector 32

private theorem length_padded (bytes : List UInt8) :
    ((bytes ++ List.replicate 32 0).take 32).length = 32 := by
  simp

/-- The first bytes of a text, where a concrete digest is needed. -/
def paddedDigest (bytes : List UInt8) : Sha256Digest := ⟨_, length_padded bytes⟩

/-- 32 random bytes as text. -/
def randomValue (bytes : ByteVector 32) : String := String.ofList (Base64.encode bytes.1)

def validRandomId (value : String) : Bool :=
  byteLength value.toList = 43 && (Base64.decode value.toList).any (·.length = 32)

def validOpaque (value : String) : Bool :=
  (8 ≤ byteLength value.toList && byteLength value.toList ≤ 512) &&
    value.toList.all fun c => 0x21 ≤ c.toNat && c.toNat ≤ 0x7E

/-- `checked_add` of seconds. -/
def UnixTimestamp.checkedAdd (e : ε) (t : UnixTimestamp) (seconds : Nat) : Except ε UnixTimestamp :=
  if t.seconds + seconds < 2 ^ 64 then .ok ⟨t.seconds + seconds⟩ else .error e

/-! ## Clients -/

inductive OidcClientIdParseError where
  | invalidPrefix | invalidEncoding | invalidLength (length : Nat) | nonCanonical
  deriving DecidableEq

structure OidcClientId where
  text : String
  deriving DecidableEq

namespace OidcClientId

def generate (bytes : ByteVector 24) : OidcClientId :=
  ⟨String.ofList ("rmh_".toList ++ Base64.encode bytes.1)⟩

def parse (value : String) : Except OidcClientIdParseError OidcClientId :=
  match value.toList with
  | 'r' :: 'm' :: 'h' :: '_' :: encoded =>
    match Base64.decode encoded with
    | none => .error .invalidEncoding
    | some decoded =>
      if decoded.length ≠ 24 then .error (.invalidLength decoded.length)
      else if Base64.encode decoded ≠ encoded then .error .nonCanonical
      else .ok ⟨value⟩
  | _ => .error .invalidPrefix

theorem parse_eq_ok (h : parse value = .ok cid) : cid = ⟨value⟩ := by
  unfold parse at h
  repeat' split at h
  all_goals cases h
  rfl

end OidcClientId

structure OidcClientSecret where
  bytes : ByteVector 32
  deriving DecidableEq

inductive OidcClientSecretParseError where
  | invalidEncoding | invalidLength (length : Nat)
  deriving DecidableEq

namespace OidcClientSecret

def parse (encoded : String) : Except OidcClientSecretParseError OidcClientSecret :=
  match Base64.decode encoded.toList with
  | none => .error .invalidEncoding
  | some decoded =>
    if h : decoded.length = 32 then .ok ⟨decoded, h⟩ else .error (.invalidLength decoded.length)

def encode (secret : OidcClientSecret) : String := String.ofList (Base64.encode secret.bytes.1)

theorem parse_encode (secret : OidcClientSecret) : parse secret.encode = .ok secret := by
  simp only [parse, encode, String.toList_ofList, Base64.decode_encode]
  rw [dif_pos secret.bytes.2]

end OidcClientSecret

structure OidcRedirectUri where
  text : String
  deriving DecidableEq

def OidcRedirectUri.exactlyMatches (uri : OidcRedirectUri) (candidate : String) : Bool :=
  uri.text = candidate

inductive OidcTokenEndpointAuthMethod where
  | none | clientSecretBasic

inductive OidcClientRecordError where
  | emptyDisplayName | displayNameTooLong | displayNameContainsControlCharacter
  | missingOpenIdScope
  | duplicateScope (scope : OidcScope)
  | publicClientHasSecret | confidentialClientMissingSecret
  | revokedBeforeCreation
  deriving DecidableEq

@[ext] structure OidcClientRecord where
  clientId : OidcClientId
  installationId : InstallationId
  appId : AppId
  displayName : String
  clientType : OidcClientType
  redirectUri : OidcRedirectUri
  scopes : List OidcScope
  clientSecretDigest : Option Sha256Digest
  createdAt : UnixTimestamp
  revokedAt : Option UnixTimestamp
  displayName_label : IsLabel 120 displayName
  displayName_printable : displayName.toList.any isControl = false
  openId_mem : .openId ∈ scopes
  scopes_nodup : scopes.Nodup
  secret_iff : clientSecretDigest.isSome ↔ clientType = .confidential
  createdAt_le : ∀ t ∈ revokedAt, createdAt ≤ t

instance : DecidableEq OidcClientRecord := fun _ _ => decidable_of_iff' _ OidcClientRecord.ext_iff

namespace OidcClientRecord

def restore (clientId : OidcClientId) (installationId : InstallationId) (appId : AppId)
    (displayName : String) (clientType : OidcClientType) (redirectUri : OidcRedirectUri)
    (scopes : List OidcScope) (clientSecretDigest : Option Sha256Digest) (createdAt : UnixTimestamp)
    (revokedAt : Option UnixTimestamp) : Except OidcClientRecordError OidcClientRecord :=
  match label 120 displayName with
  | .error .empty => .error .emptyDisplayName
  | .error .tooLong => .error .displayNameTooLong
  | .ok ⟨displayName, displayName_label⟩ =>
    if hp : displayName.toList.any isControl = false then
      if openId_mem : .openId ∈ scopes then
        match hd : firstRepeat [] scopes with
        | some scope => .error (.duplicateScope scope)
        | none =>
          if hs : clientSecretDigest.isSome ↔ clientType = .confidential then
            if createdAt_le : ∀ t ∈ revokedAt, createdAt ≤ t then
              .ok {
                clientId, installationId, appId, displayName, clientType, redirectUri, scopes
                clientSecretDigest, createdAt, revokedAt, displayName_label
                displayName_printable := hp
                openId_mem
                scopes_nodup := nodup_of_firstRepeat hd
                secret_iff := hs
                createdAt_le }
            else .error .revokedBeforeCreation
          else if clientType = .publicClient then .error .publicClientHasSecret
          else .error .confidentialClientMissingSecret
      else .error .missingOpenIdScope
    else .error .displayNameContainsControlCharacter

def isActive (client : OidcClientRecord) : Bool := client.revokedAt.isNone

def matchesRedirectUri (client : OidcClientRecord) (candidate : String) : Bool :=
  client.isActive && client.redirectUri.exactlyMatches candidate

def tokenEndpointAuthMethod (client : OidcClientRecord) : OidcTokenEndpointAuthMethod :=
  match client.clientType with
  | .publicClient => .none
  | .confidential => .clientSecretBasic

def verifiesClientSecret (sha256 : List UInt8 → Sha256Digest) (client : OidcClientRecord)
    (encodedSecret : String) : Bool :=
  match client.clientSecretDigest, OidcClientSecret.parse encodedSecret with
  | some expected, .ok supplied => expected = sha256 supplied.bytes.1
  | _, _ => false

/-- The scopes are among those of the client, without repetition. -/
def validScopes (client : OidcClientRecord) (scopes : List OidcScope) : Bool :=
  .openId ∈ scopes && scopes.length ≤ client.scopes.length && decide scopes.Nodup &&
    scopes.all (· ∈ client.scopes)

theorem subset_of_validScopes {client : OidcClientRecord} (h : client.validScopes l = true) :
    l ⊆ client.scopes := by
  intro scope hscope
  simp only [validScopes, Bool.and_eq_true, List.all_eq_true, decide_eq_true_eq] at h
  exact h.2 scope hscope

end OidcClientRecord

/-! ## Authorization -/

inductive OidcAuthorizationError where
  | inactiveClient | redirectMismatch | invalidState | invalidNonce | invalidPkceChallenge
  | invalidPkceVerifier | scopeNotRegistered | missingOpenIdScope | offlineAccessRequiresConsent
  | expired | wrongLogin | wrongClient | invalidLifetime

structure PkceChallenge where
  text : String
  deriving DecidableEq

namespace PkceChallenge

def parse (value : String) : Except OidcAuthorizationError PkceChallenge :=
  if byteLength value.toList ≠ 43 || !(value.toList.all fun c => c.isAlphanum || c ∈ ['-', '_']) ||
      !((Base64.decode value.toList).any (·.length = 32)) then
    .error .invalidPkceChallenge
  else .ok ⟨value⟩

/-- The text of a digest, in the form of a challenge. -/
def s256 (sha256 : List UInt8 → Sha256Digest) (verifier : String) : String :=
  String.ofList (Base64.encode (sha256 (textBytes verifier)).1)

def verify (sha256 : List UInt8 → Sha256Digest) (challenge : PkceChallenge) (verifier : String) :
    Bool :=
  if !(43 ≤ byteLength verifier.toList && byteLength verifier.toList ≤ 128) ||
      !(verifier.toList.all fun c => c.isAlphanum || c ∈ ['-', '.', '_', '~']) then
    false
  else s256 sha256 verifier = challenge.text

theorem parse_eq_ok (h : parse value = .ok challenge) : challenge = ⟨value⟩ := by
  unfold parse at h
  split at h
  · cases h
  · exact (Except.ok.inj h).symm

theorem s256_of_verify (h : verify sha256 challenge verifier = true) :
    s256 sha256 verifier = challenge.text := by
  unfold verify at h
  split at h
  · cases h
  · exact of_decide_eq_true h

end PkceChallenge

structure UserConsent where
  userId : UserId
  clientId : OidcClientId
  scopes : List OidcScope
  explicitOfflineAccess : Bool
  deriving DecidableEq

def UserConsent.new (userId : UserId) (client : OidcClientRecord) (scopes : List OidcScope)
    (explicitOfflineAccess : Bool) : Except OidcAuthorizationError UserConsent :=
  if !client.isActive then .error .inactiveClient
  else if !client.validScopes scopes then .error .scopeNotRegistered
  else if .offlineAccess ∈ scopes ∧ !explicitOfflineAccess then
    .error .offlineAccessRequiresConsent
  else .ok ⟨userId, client.clientId, scopes, explicitOfflineAccess⟩

theorem UserConsent.new_eq_ok (h : new user client scopes' offline = .ok consent) :
    consent = ⟨user, client.clientId, scopes', offline⟩ := by
  unfold new at h
  split_ifs at h
  exact (Except.ok.inj h).symm

structure PairwiseSubject where
  userId : UserId
  installationId : InstallationId
  value : String
  deriving DecidableEq

def PairwiseSubject.restore (userId : UserId) (installationId : InstallationId) (value : String) :
    Except OidcAuthorizationError PairwiseSubject :=
  if validRandomId value then .ok ⟨userId, installationId, value⟩ else .error .invalidState

structure AuthorizationCode where
  digest : Sha256Digest
  clientId : OidcClientId
  installationId : InstallationId
  redirectUri : OidcRedirectUri
  userId : UserId
  sessionId : SessionId
  scopes : List OidcScope
  nonce : String
  challenge : PkceChallenge
  expiresAt : UnixTimestamp
  deriving DecidableEq

structure AuthorizationTransaction where
  id : String
  clientId : OidcClientId
  installationId : InstallationId
  redirectUri : OidcRedirectUri
  userId : UserId
  sessionId : SessionId
  scopes : List OidcScope
  state : String
  nonce : String
  challenge : PkceChallenge
  expiresAt : UnixTimestamp
  deriving DecidableEq

namespace AuthorizationTransaction

def restore (id : String) (client : OidcClientRecord) (userId : UserId) (sessionId : SessionId)
    (scopes : List OidcScope) (state nonce : String) (challenge : PkceChallenge)
    (expiresAt : UnixTimestamp) : Except OidcAuthorizationError AuthorizationTransaction :=
  if !validRandomId id || !client.isActive || !validOpaque state || !validOpaque nonce ||
      !client.validScopes scopes then
    .error .invalidState
  else
    .ok {
      id, clientId := client.clientId, installationId := client.installationId
      redirectUri := client.redirectUri, userId, sessionId, scopes, state, nonce, challenge
      expiresAt }

def start (client : OidcClientRecord) (redirectUri : String) (userId : UserId)
    (sessionId : SessionId) (scopes : List OidcScope) (state nonce : String)
    (challenge : PkceChallenge) (now : UnixTimestamp) (id : ByteVector 32) :
    Except OidcAuthorizationError AuthorizationTransaction :=
  if !client.isActive then .error .inactiveClient
  else if !client.matchesRedirectUri redirectUri then .error .redirectMismatch
  else if !validOpaque state then .error .invalidState
  else if !validOpaque nonce then .error .invalidNonce
  else if .openId ∉ scopes then .error .missingOpenIdScope
  else if !client.validScopes scopes then .error .scopeNotRegistered
  else do
    let expiresAt ← now.checkedAdd .invalidLifetime 300
    pure {
      id := randomValue id, clientId := client.clientId, installationId := client.installationId
      redirectUri := client.redirectUri, userId, sessionId, scopes, state, nonce, challenge
      expiresAt }

/-- The code and its text. -/
def approve (sha256 : List UInt8 → Sha256Digest) (transaction : AuthorizationTransaction)
    (client : OidcClientRecord) (consent : UserConsent) (userId : UserId) (sessionId : SessionId)
    (now : UnixTimestamp) (raw : ByteVector 32) :
    Except OidcAuthorizationError (AuthorizationCode × String) :=
  if transaction.expiresAt ≤ now then .error .expired
  else if !client.isActive || client.clientId ≠ transaction.clientId ||
      client.installationId ≠ transaction.installationId ||
      client.redirectUri ≠ transaction.redirectUri then
    .error .inactiveClient
  else if transaction.userId ≠ userId || transaction.sessionId ≠ sessionId then .error .wrongLogin
  else if consent.userId ≠ userId || consent.clientId ≠ transaction.clientId then
    .error .wrongClient
  else if !transaction.scopes.all (· ∈ consent.scopes) then .error .scopeNotRegistered
  else if .offlineAccess ∈ transaction.scopes ∧ !consent.explicitOfflineAccess then
    .error .offlineAccessRequiresConsent
  else do
    let expiresAt ← now.checkedAdd .invalidLifetime 60
    let raw := randomValue raw
    pure ({
      digest := sha256 (textBytes raw), clientId := transaction.clientId
      installationId := transaction.installationId, redirectUri := transaction.redirectUri
      userId, sessionId, scopes := transaction.scopes, nonce := transaction.nonce
      challenge := transaction.challenge, expiresAt }, raw)

/-- A transaction that is started is one of the client, for the redirect URI it has registered. -/
theorem start_eq_ok (h : start client uri user session scopes' state' nonce' challenge' now bytes =
      .ok transaction) :
    transaction.clientId = client.clientId ∧ transaction.installationId = client.installationId ∧
      transaction.userId = user ∧ transaction.sessionId = session ∧
      transaction.scopes = scopes' ∧ transaction.challenge = challenge' := by
  unfold start at h
  split_ifs at h
  obtain ⟨_, -, h⟩ := Except.bind_eq_ok.mp h
  cases h
  exact ⟨rfl, rfl, rfl, rfl, rfl, rfl⟩

/-- A code is issued for the login and the client of the transaction, with its scopes and its
challenge, and only if the user has consented to the scopes. -/
theorem approve_eq_ok
    (h : approve sha256 transaction client consent user session now bytes = .ok (code, raw)) :
    raw = randomValue bytes ∧ code.digest = sha256 (textBytes raw) ∧
      code.clientId = transaction.clientId ∧ code.installationId = transaction.installationId ∧
      code.redirectUri = transaction.redirectUri ∧
      (code.userId = user ∧ transaction.userId = user) ∧
      (code.sessionId = session ∧ transaction.sessionId = session) ∧
      code.scopes = transaction.scopes ∧ code.challenge = transaction.challenge ∧
      transaction.scopes ⊆ consent.scopes := by
  unfold approve at h
  split_ifs at h with _ _ hlogin _ hscopes _
  obtain ⟨_, -, h⟩ := Except.bind_eq_ok.mp h
  cases h
  simp only [Bool.or_eq_true, decide_eq_true_eq, not_or, ne_eq, not_not] at hlogin
  simp only [Bool.not_eq_true', Bool.not_eq_false, List.all_eq_true, decide_eq_true_eq] at hscopes
  exact ⟨rfl, rfl, rfl, rfl, rfl, ⟨rfl, hlogin.1⟩, ⟨rfl, hlogin.2⟩, rfl, rfl, hscopes⟩

end AuthorizationTransaction

namespace AuthorizationCode

def restore (digest : Sha256Digest) (client : OidcClientRecord) (userId : UserId)
    (sessionId : SessionId) (scopes : List OidcScope) (nonce : String) (challenge : PkceChallenge)
    (expiresAt : UnixTimestamp) : Except OidcAuthorizationError AuthorizationCode :=
  if !client.isActive || !client.validScopes scopes || !validOpaque nonce then .error .invalidState
  else
    .ok {
      digest, clientId := client.clientId, installationId := client.installationId
      redirectUri := client.redirectUri, userId, sessionId, scopes, nonce, challenge, expiresAt }

def verifyExchange (sha256 : List UInt8 → Sha256Digest) (code : AuthorizationCode) (raw : String)
    (client : OidcClientRecord) (redirectUri verifier : String) (now : UnixTimestamp) :
    Except OidcAuthorizationError Unit :=
  if code.expiresAt ≤ now then .error .expired
  else if !client.isActive || client.clientId ≠ code.clientId ||
      client.installationId ≠ code.installationId then
    .error .wrongClient
  else if !code.redirectUri.exactlyMatches redirectUri then .error .redirectMismatch
  else if sha256 (textBytes raw) ≠ code.digest || !code.challenge.verify sha256 verifier then
    .error .invalidPkceVerifier
  else .ok ()

theorem verifyExchange_eq_ok (h : verifyExchange sha256 code raw client uri verifier now = .ok ()) :
    now < code.expiresAt ∧ code.redirectUri.text = uri ∧
      PkceChallenge.s256 sha256 verifier = code.challenge.text := by
  unfold verifyExchange at h
  split_ifs at h with hexpired _ huri hverify
  simp only [Bool.or_eq_true, decide_eq_true_eq, not_or, Bool.not_eq_true', Bool.not_eq_false]
    at hverify
  refine ⟨Nat.not_le.mp hexpired, ?_, PkceChallenge.s256_of_verify hverify.2⟩
  simpa [OidcRedirectUri.exactlyMatches] using huri

end AuthorizationCode

structure ApprovedAuthorization where
  code : String
  state : String
  subject : PairwiseSubject
  redirectUri : OidcRedirectUri
  deriving DecidableEq

/-! ## Tokens -/

inductive AccessTokenGrantError where
  | invalidLifetime | invalidScope

structure AccessTokenGrant where
  digest : Sha256Digest
  clientId : OidcClientId
  userId : UserId
  sessionId : SessionId
  subject : PairwiseSubject
  scopes : List OidcScope
  expiresAt : UnixTimestamp
  deriving DecidableEq

namespace AccessTokenGrant

def restore (digest : Sha256Digest) (clientId : OidcClientId) (userId : UserId)
    (sessionId : SessionId) (subject : PairwiseSubject) (scopes : List OidcScope)
    (expiresAt : UnixTimestamp) : Except AccessTokenGrantError AccessTokenGrant :=
  if subject.userId ≠ userId || .openId ∉ scopes || !decide scopes.Nodup then .error .invalidScope
  else .ok { digest, clientId, userId, sessionId, subject, scopes, expiresAt }

/-- The grant and the text of its token. -/
def issue (sha256 : List UInt8 → Sha256Digest) (clientId : OidcClientId) (userId : UserId)
    (sessionId : SessionId) (subject : PairwiseSubject) (scopes : List OidcScope)
    (expiresAt now : UnixTimestamp) (raw : ByteVector 32) :
    Except AccessTokenGrantError (AccessTokenGrant × String) :=
  if expiresAt ≤ now then .error .invalidLifetime
  else do
    let raw := randomValue raw
    let grant ← restore (sha256 (textBytes raw)) clientId userId sessionId subject scopes expiresAt
    pure (grant, raw)

theorem issue_eq_ok (h : issue sha256 cid user session pairwise scopes' expires now bytes =
    .ok (grant, raw)) : grant.digest = sha256 (textBytes raw) ∧ grant.clientId = cid ∧
      grant.userId = user ∧ grant.sessionId = session ∧ grant.subject = pairwise ∧
      grant.scopes = scopes' := by
  unfold issue at h
  split at h
  · cases h
  · obtain ⟨grant', hgrant, h⟩ := Except.bind_eq_ok.mp h
    cases h
    unfold restore at hgrant
    split at hgrant
    · cases hgrant
    · cases hgrant
      exact ⟨rfl, rfl, rfl, rfl, rfl, rfl⟩

end AccessTokenGrant

inductive RefreshTokenFamilyError where
  | invalidLifetime | expired | revoked | wrongToken | generationOverflow

structure RefreshTokenFamily where
  id : String
  userId : UserId
  sessionId : SessionId
  clientId : OidcClientId
  currentDigest : Sha256Digest
  generation : Nat
  expiresAt : UnixTimestamp
  revokedAt : Option UnixTimestamp
  deriving DecidableEq

inductive RefreshRotation where
  | rotated (next : String)
  | replayRevoked
  | invalid
  deriving DecidableEq

/-- The next token, and the family with its digest. -/
def RefreshTokenFamily.rotate (sha256 : List UInt8 → Sha256Digest) (family : RefreshTokenFamily)
    (presented : String) (now : UnixTimestamp) (next : ByteVector 32) :
    Except RefreshTokenFamilyError (String × RefreshTokenFamily) :=
  if family.revokedAt.isSome then .error .revoked
  else if family.expiresAt ≤ now then .error .expired
  else if sha256 (textBytes presented) ≠ family.currentDigest then .error .wrongToken
  else if 2 ^ 64 ≤ family.generation + 1 then .error .generationOverflow
  else
    .ok (randomValue next, { family with
      currentDigest := sha256 (textBytes (randomValue next)), generation := family.generation + 1 })

end Rumahl
