import Rumahl.Oidc.Calls

/-!
# The Authorization Code flow

The methods of the provider are programs over the stores. Each call of a method runs in a thread of
its own, next to any number of others and to calls of the stores from elsewhere: an `OidcRequest` is
such a call. `OidcRequest.follows` collects what the programs go by.
-/

namespace Rumahl

open Effect List OidcCall

inductive OidcProtocolError where
  | invalidRequest | invalidClient | invalidGrant | accessDenied | unsupportedScope | unavailable
  deriving DecidableEq

structure OidcTokenResponse where
  accessToken : String
  idToken : String
  expiresIn : Nat
  scope : String
  deriving DecidableEq

/-- The answer of the UserInfo endpoint. -/
structure OidcUserInfo where
  sub : String
  name : Option String
  /-- The address, and whether it is verified. -/
  email : Option (String × Bool)
  deriving DecidableEq

/-- The claims of an ID token. -/
structure IdTokenClaims where
  iss : String
  sub : String
  aud : String
  iat : UnixTimestamp
  exp : UnixTimestamp
  authTime : UnixTimestamp
  nonce : String
  name : Option String

/-- What the provider is made with, and what the model takes from the libraries. -/
structure OidcProvider where
  issuer : String
  sha256 : List UInt8 → Sha256Digest
  sign : IdTokenClaims → String

open OidcProvider

def OidcScope.asStr : OidcScope → String
  | .openId => "openid"
  | .profile => "profile"
  | .email => "email"
  | .offlineAccess => "offline_access"

abbrev OidcProg := Prog OidcCall OidcCall.Answer

/-- `ok_or`. -/
def OidcProg.okOr (e : ε) : Option α → OidcProg ε α
  | some a => .ret a
  | none => .throw e

open OidcProg

def activeClient (raw : String) : OidcProg OidcProtocolError OidcClientRecord := do
  let clientId ← Prog.ofExcept (fun _ => .invalidClient) (OidcClientId.parse raw)
  let client ← Prog.perform (findActiveById clientId)
  let client ← Prog.ofExcept (fun _ => .unavailable) client
  okOr .invalidClient client

def requireLiveSession (user : UserId) (session : SessionId) (now : UnixTimestamp) :
    OidcProg OidcProtocolError UnixTimestamp := do
  let authTime ← Prog.perform (activeAuthenticationTime user session now)
  let authTime ← Prog.ofExcept (fun _ => .unavailable) authTime
  okOr .accessDenied authTime

namespace OidcProvider

variable (S : OidcProvider)

def authenticateClient (client : OidcClientRecord) (supplied : Option String) :
    Except OidcProtocolError Unit :=
  match client.tokenEndpointAuthMethod, supplied with
  | .none, none => .ok ()
  | .clientSecretBasic, some secret =>
    if client.verifiesClientSecret S.sha256 secret then .ok () else .error .invalidClient
  | _, _ => .error .invalidClient

def signIdToken (subject : PairwiseSubject) (audience : OidcClientId) (nonce : String)
    (authTime issuedAt expiresAt : UnixTimestamp) (name : Option String) : Option String :=
  if issuedAt < authTime || expiresAt ≤ issuedAt then none
  else
    some (S.sign {
      iss := S.issuer, sub := subject.value, aud := audience.text, iat := issuedAt, exp := expiresAt
      authTime, nonce, name })

def begin (clientId redirectUri : String) (scopes : List OidcScope)
    (state nonce codeChallenge : String) (userId : UserId) (sessionId : SessionId)
    (now : UnixTimestamp) (id : ByteVector 32) : OidcProg OidcProtocolError String :=
  if .offlineAccess ∈ scopes then .throw .unsupportedScope
  else do
    let _ ← requireLiveSession userId sessionId now
    let client ← activeClient clientId
    let challenge ← Prog.ofExcept (fun _ => .invalidRequest) (PkceChallenge.parse codeChallenge)
    let transaction ← Prog.ofExcept (fun _ => .invalidRequest)
      (AuthorizationTransaction.start client redirectUri userId sessionId scopes state nonce
        challenge now id)
    let r ← Prog.perform (insertTransaction transaction)
    Prog.ofExcept (fun _ => .unavailable) r
    pure transaction.id

def approve (transactionId clientId : String) (scopes : List OidcScope) (userId : UserId)
    (sessionId : SessionId) (now : UnixTimestamp) (code subject : ByteVector 32) :
    OidcProg OidcProtocolError ApprovedAuthorization := do
  let _ ← requireLiveSession userId sessionId now
  let client ← activeClient clientId
  let consent ← Prog.ofExcept (fun _ => .invalidRequest)
    (UserConsent.new userId client scopes false)
  let r ← Prog.perform
    (approveTransaction transactionId client userId sessionId consent now code subject)
  let approved ← Prog.ofExcept (fun _ => .unavailable) r
  okOr .accessDenied approved

def issueTokens (client : OidcClientRecord) (code : AuthorizationCode) (subject : PairwiseSubject)
    (profile : OidcPublicClaims) (authTime now : UnixTimestamp) (token : ByteVector 32) :
    OidcProg OidcProtocolError OidcTokenResponse := do
  let expiresAt ← Prog.ofExcept id (now.checkedAdd .unavailable 900)
  let idToken ← okOr .unavailable (S.signIdToken subject client.clientId code.nonce authTime
    now expiresAt (if .profile ∈ code.scopes then profile.name else none))
  let (grant, accessToken) ← Prog.ofExcept (fun _ => .unavailable)
    (AccessTokenGrant.issue S.sha256 client.clientId code.userId code.sessionId subject code.scopes
      expiresAt now token)
  let r ← Prog.perform (insertAccess grant none)
  Prog.ofExcept (fun _ => .unavailable) r
  pure {
    accessToken, idToken, expiresIn := 900
    scope := " ".intercalate (code.scopes.map OidcScope.asStr) }

def exchangeCode (clientId : String) (clientSecret : Option String)
    (code redirectUri verifier : String) (now : UnixTimestamp) (token : ByteVector 32) :
    OidcProg OidcProtocolError OidcTokenResponse := do
  let client ← activeClient clientId
  Prog.ofExcept id (S.authenticateClient client clientSecret)
  let r ← Prog.perform (consumeCode code client redirectUri verifier now)
  let code ← Prog.ofExcept (fun _ => .unavailable) r
  let code ← okOr .invalidGrant code
  let authTime ← requireLiveSession code.userId code.sessionId now
  let subject ← Prog.perform (findSubject code.userId code.installationId)
  let subject ← Prog.ofExcept (fun _ => .unavailable) subject
  let subject ← okOr .unavailable subject
  let profile ← Prog.perform (publicClaims code.userId)
  let profile ← Prog.ofExcept (fun _ => .unavailable) profile
  let profile ← okOr .invalidGrant profile
  S.issueTokens client code subject profile authTime now token

def userinfo (rawAccessToken : String) (now : UnixTimestamp) :
    OidcProg OidcProtocolError OidcUserInfo := do
  let grant ← Prog.perform (resolveAccess rawAccessToken now)
  let grant ← Prog.ofExcept (fun _ => .unavailable) grant
  let grant ← okOr .invalidGrant grant
  let _ ← requireLiveSession grant.userId grant.sessionId now
  let profile ← Prog.perform (publicClaims grant.userId)
  let profile ← Prog.ofExcept (fun _ => .unavailable) profile
  let profile ← okOr .invalidGrant profile
  pure {
    sub := grant.subject.value
    name := if .profile ∈ grant.scopes then profile.name else none
    email := if .email ∈ grant.scopes then profile.email.map (·, profile.emailVerified) else none }

end OidcProvider

/-! ## Requests -/

/-- A call of the provider or of one of the stores, with its arguments. -/
inductive OidcRequest where
  | begin (clientId redirectUri : String) (scopes : List OidcScope)
    (state nonce codeChallenge : String) (userId : UserId) (sessionId : SessionId)
    (now : UnixTimestamp) (id : ByteVector 32)
  | approve (transactionId clientId : String) (scopes : List OidcScope) (userId : UserId)
    (sessionId : SessionId) (now : UnixTimestamp) (code subject : ByteVector 32)
  | exchangeCode (clientId : String) (clientSecret : Option String)
    (code redirectUri verifier : String) (now : UnixTimestamp) (token : ByteVector 32)
  | userinfo (rawAccessToken : String) (now : UnixTimestamp)
  | revokeAccess (raw : String) (now : UnixTimestamp)
  | insertClient (client : OidcClientRecord)
  | revokeForInstallation (installationId : InstallationId) (revokedAt : UnixTimestamp)
  | insertFamily (family : RefreshTokenFamily)
  | rotate (raw : String) (now : UnixTimestamp) (next : ByteVector 32)
  | insertAccess (grant : AccessTokenGrant) (familyId : Option String)
  | resolveAccess (raw : String) (now : UnixTimestamp)
  | revokeForSession (sessionId : SessionId) (now : UnixTimestamp)

inductive OidcResult where
  | began (transactionId : String)
  | approved (authorization : ApprovedAuthorization)
  | tokens (response : OidcTokenResponse)
  | userInfo (body : OidcUserInfo)
  | rotation (rotation : RefreshRotation)
  | resolved (grant : Option AccessTokenGrant)
  | done
  deriving DecidableEq

def OidcRequest.program (S : OidcProvider) : OidcRequest → OidcProg OidcProtocolError OidcResult
  | begin clientId redirectUri scopes state nonce codeChallenge userId sessionId now id => do
    let transactionId ← OidcProvider.begin clientId redirectUri scopes state nonce codeChallenge
      userId sessionId now id
    pure (.began transactionId)
  | approve transactionId clientId scopes userId sessionId now code subject => do
    let authorization ← OidcProvider.approve transactionId clientId scopes userId sessionId now code
      subject
    pure (.approved authorization)
  | exchangeCode clientId clientSecret code redirectUri verifier now token => do
    let response ← S.exchangeCode clientId clientSecret code redirectUri verifier now token
    pure (.tokens response)
  | userinfo rawAccessToken now => do
    let body ← OidcProvider.userinfo rawAccessToken now
    pure (.userInfo body)
  | revokeAccess raw now => do
    let r ← Prog.perform (OidcCall.revokeAccess raw now)
    let _ ← Prog.ofExcept (fun _ => .unavailable) r
    pure .done
  | insertClient client => do
    let r ← Prog.perform (OidcCall.insertClient client)
    Prog.ofExcept (fun _ => .unavailable) r
    pure .done
  | revokeForInstallation installationId revokedAt => do
    let r ← Prog.perform (OidcCall.revokeForInstallation installationId revokedAt)
    let _ ← Prog.ofExcept (fun _ => .unavailable) r
    pure .done
  | insertFamily family => do
    let r ← Prog.perform (OidcCall.insertFamily family)
    Prog.ofExcept (fun _ => .unavailable) r
    pure .done
  | rotate raw now next => do
    let r ← Prog.perform (OidcCall.rotate raw now next)
    let rotation ← Prog.ofExcept (fun _ => .unavailable) r
    pure (.rotation rotation)
  | insertAccess grant familyId => do
    let r ← Prog.perform (OidcCall.insertAccess grant familyId)
    Prog.ofExcept (fun _ => .unavailable) r
    pure .done
  | resolveAccess raw now => do
    let r ← Prog.perform (OidcCall.resolveAccess raw now)
    let grant ← Prog.ofExcept (fun _ => .unavailable) r
    pure (.resolved grant)
  | revokeForSession sessionId now => do
    let r ← Prog.perform (OidcCall.revokeForSession sessionId now)
    let _ ← Prog.ofExcept (fun _ => .unavailable) r
    pure .done

abbrev OidcEvent (ι : Type) := PoolEvent ι OidcCall OidcCall.Answer OidcTables

/-- A pool of requests. -/
abbrev OidcPool (ι : Type) :=
  Pool ι OidcCall OidcCall.Answer OidcProtocolError OidcResult OidcTables Unit

/-- Any number of requests next to each other, each of them at its start. -/
def OidcProvider.pool (S : OidcProvider) (requests : ι → OidcRequest) (t : OidcTables) :
    OidcPool ι where
  program i := (requests i).program S
  own _ := ()
  shared := t

/-- A run of requests. -/
abbrev OidcProvider.Run [DecidableEq ι] (S : OidcProvider) :
    OidcPool ι → List (OidcEvent ι) → OidcPool ι → Prop :=
  Pool.Run fun (c : OidcCall) t _ a t' _ => c.Answers S.sha256 t a t'

/-! ## Runs by a schedule -/

/-- Accounts in which every session is live. -/
def OidcCall.accountAnswer : (c : OidcCall) → c.Answer
  | activeAuthenticationTime _ _ _ => .ok (some ⟨0⟩)
  | publicClaims _ => .ok (some ⟨none, none, false⟩)
  | c => c.failure

/-- The database works. -/
def OidcCall.respond (sha256 : List UInt8 → Sha256Digest) (_ : Unit) (c : OidcCall) (t : OidcTables)
    (_ : Unit) : c.Answer × OidcTables × Unit :=
  match c.run sha256 t with
  | some r => (r.1, r.2, ())
  | none => (c.accountAnswer, t, ())

/-- The calls of the threads, in the order of the schedule, and what they lead to. -/
def OidcProvider.runs [DecidableEq ι] (S : OidcProvider) (requests : ι → OidcRequest)
    (t : OidcTables) (schedule : List ι) : List (OidcEvent ι) × OidcPool ι :=
  Pool.exec (respond S.sha256) (schedule.map fun i => (i, ())) (S.pool requests t)

theorem OidcProvider.exec_run [DecidableEq ι] (S : OidcProvider) (schedule : List (ι × Unit))
    (P : OidcPool ι) :
    S.Run P (Pool.exec (respond S.sha256) schedule P).1
      (Pool.exec (respond S.sha256) schedule P).2 := by
  refine Pool.exec_run (fun _ c t _ => ?_) _ _
  unfold OidcCall.Answers respond
  cases c.run S.sha256 t with
  | some r => exact .inl rfl
  | none => rfl

theorem OidcProvider.runs_run [DecidableEq ι] (S : OidcProvider) (requests : ι → OidcRequest)
    (t : OidcTables) (schedule : List ι) :
    S.Run (S.pool requests t) (S.runs requests t schedule).1 (S.runs requests t schedule).2 :=
  S.exec_run _ _

/-- A provider whose digests are the first bytes of a text. -/
def plainProvider : OidcProvider where
  issuer := "https://id.home"
  sha256 := paddedDigest
  sign _ := "signed"

/-- What the random generator draws. -/
def bytes32 (n : UInt8) : ByteVector 32 := ByteVector.fill 32 n

def notesClient : OidcClientRecord where
  clientId := .generate (ByteVector.fill 24 0)
  installationId := ⟨1⟩
  appId := AppManifest.notes.appId
  displayName := "Notes"
  clientType := .publicClient
  redirectUri := ⟨"https://notes.home/callback"⟩
  scopes := [.openId, .profile]
  clientSecretDigest := none
  createdAt := ⟨10⟩
  revokedAt := none
  displayName_label := AppManifest.notes.displayName_label
  displayName_printable := by decide
  openId_mem := by decide
  scopes_nodup := by decide
  secret_iff := by decide
  createdAt_le := nofun

/-- The verifier of a client. -/
def notesVerifier : String := String.ofList (List.replicate 43 'v')

/-- A login of the user 1 with the session 7 for the client. -/
def notesBegin : OidcRequest :=
  .begin notesClient.clientId.text "https://notes.home/callback" [.openId] "state-of-notes"
    "nonce-of-notes" (PkceChallenge.s256 plainProvider.sha256 notesVerifier) ⟨1⟩ ⟨7⟩
      ⟨20⟩ (bytes32 1)

def notesApprove : OidcRequest :=
  .approve (randomValue (bytes32 1)) notesClient.clientId.text [.openId] ⟨1⟩ ⟨7⟩ ⟨30⟩
    (bytes32 2) (bytes32 3)

def notesExchange : OidcRequest :=
  .exchangeCode notesClient.clientId.text none
    (randomValue (bytes32 2)) "https://notes.home/callback"
    notesVerifier ⟨40⟩ (bytes32 4)

/-! ## What the programs go by -/

abbrev OidcTrace := List ((c : OidcCall) × c.Answer)

/-- What a request has been answered before it makes a call that may write. -/
def OidcRequest.Permits (S : OidcProvider) (r : OidcRequest) (κ : OidcTrace) : OidcCall → Prop
  | .insertTransaction transaction =>
    ∃ clientId uri scopes state nonce challenge user session now bytes client parsed auth,
      r = .begin clientId uri scopes state nonce challenge user session now bytes ∧
      κ = [⟨.activeAuthenticationTime user session now, auth⟩,
        ⟨.findActiveById ⟨clientId⟩, Except.ok (some client)⟩] ∧
      PkceChallenge.parse challenge = .ok parsed ∧
      AuthorizationTransaction.start client uri user session scopes state nonce parsed now bytes =
        .ok transaction
  | .approveTransaction tid client user session consent now code subject =>
    ∃ clientId scopes auth,
      r = .approve tid clientId scopes user session now code subject ∧
      κ = [⟨.activeAuthenticationTime user session now, auth⟩,
        ⟨.findActiveById ⟨clientId⟩, Except.ok (some client)⟩] ∧
      UserConsent.new user client scopes false = .ok consent
  | .consumeCode raw client uri verifier now =>
    ∃ clientId secret token,
      r = .exchangeCode clientId secret raw uri verifier now token ∧
      κ = [⟨.findActiveById ⟨clientId⟩, Except.ok (some client)⟩] ∧
      S.authenticateClient client secret = .ok ()
  | .insertAccess grant familyId => r = .insertAccess grant familyId ∧ κ = [] ∨
    ∃ clientId secret raw uri verifier now token client code auth subject claims expiresAt text,
      r = .exchangeCode clientId secret raw uri verifier now token ∧
      κ = [⟨.findActiveById ⟨clientId⟩, Except.ok (some client)⟩,
        ⟨.consumeCode raw client uri verifier now, Except.ok (some code)⟩,
        ⟨.activeAuthenticationTime code.userId code.sessionId now, auth⟩,
        ⟨.findSubject code.userId code.installationId, subject⟩,
        ⟨.publicClaims code.userId, claims⟩] ∧
      ∃ subject, AccessTokenGrant.issue S.sha256 client.clientId code.userId code.sessionId subject
        code.scopes expiresAt now token = .ok (grant, text)
  | .resolveAccess raw now =>
    (r = .resolveAccess raw now ∨ r = .userinfo raw now) ∧ κ = []
  | .insertClient client => r = .insertClient client ∧ κ = []
  | .insertFamily family => r = .insertFamily family ∧ κ = []
  | .rotate raw now next => r = .rotate raw now next ∧ κ = []
  | _ => True

/-- What an `exchange_code` that has returned was answered, and the grant that it has made of it. -/
structure OidcProvider.Exchanged (S : OidcProvider) (κ : OidcTrace)
    (raw uri verifier : String) (now : UnixTimestamp) (token : ByteVector 32)
    (response : OidcTokenResponse) (client : OidcClientRecord) (code : AuthorizationCode)
    (grant : AccessTokenGrant) : Prop where
  consumed : ⟨.consumeCode raw client uri verifier now, Except.ok (some code)⟩ ∈ κ
  inserted : ⟨.insertAccess grant none, Except.ok ()⟩ ∈ κ
  issued : ∃ subject expiresAt, AccessTokenGrant.issue S.sha256 client.clientId code.userId
    code.sessionId subject code.scopes expiresAt now token = .ok (grant, response.accessToken)
  scope : response.scope = " ".intercalate (grant.scopes.map OidcScope.asStr)

/-- What a request has been answered when it has returned. -/
def OidcRequest.Returned (S : OidcProvider) (κ : OidcTrace) (r : OidcRequest)
    (result : OidcResult) :
    Prop :=
  match r with
  | .begin _ _ _ _ _ _ _ _ _ _ =>
    ∃ transaction, result = .began transaction.id ∧
      ⟨.insertTransaction transaction, Except.ok ()⟩ ∈ κ
  | .approve tid _ _ user session now code subject =>
    ∃ client consent approved, result = .approved approved ∧
      ⟨.approveTransaction tid client user session consent now code subject,
        Except.ok (some approved)⟩ ∈ κ
  | .exchangeCode _ _ raw uri verifier now token =>
    ∃ response client code grant, result = .tokens response ∧
      S.Exchanged κ raw uri verifier now token response client code grant
  | .userinfo raw now => ∃ grant, ⟨.resolveAccess raw now, Except.ok (some grant)⟩ ∈ κ
  | .rotate raw now next =>
    ∃ rotation, result = .rotation rotation ∧ ⟨.rotate raw now next, Except.ok rotation⟩ ∈ κ
  | .insertClient client => ⟨.insertClient client, Except.ok ()⟩ ∈ κ
  | _ => True

section

variable {S : OidcProvider} {r : OidcRequest}

/-- `Prog.Follows` for the programs of this module. -/
abbrev OidcProvider.Follows (S : OidcProvider) (r : OidcRequest) (Ψ : OidcTrace → α → Prop)
    (κ : OidcTrace) (p : OidcProg ε α) : Prop :=
  p.Follows (.traced (r.Permits S)) Ψ κ

theorem OidcProg.okOr_follows (h : ∀ a, x = some a → Ψ κ a) :
    S.Follows r Ψ κ (okOr e x) := by
  cases x with
  | none => trivial
  | some a => exact h a rfl

theorem OidcProg.performSome_bind {wrap : ε' → ε} {f : c.Answer → Except ε' (Option α)}
    {k : α → OidcProg ε β} {Ψ : OidcTrace → β → Prop} (hc : r.Permits S κ c)
    (h : ∀ a b, f a = .ok (some b) → S.Follows r Ψ (κ ++ [⟨c, a⟩]) (k b)) : S.Follows r Ψ κ (do
      let a ← Prog.perform c
      let x ← Prog.ofExcept wrap (f a)
      let b ← okOr e x
      k b) := by
  refine Prog.Follows.performOk_bind hc fun a x _ hx => ?_
  refine Prog.Follows.bind (Ψ := fun κ' b => κ' = κ ++ [⟨c, a⟩] ∧ x = some b)
    (okOr_follows fun b hb => ⟨rfl, hb⟩) fun κ' b hb => ?_
  obtain ⟨rfl, rfl⟩ := hb
  exact h a b hx

theorem activeClient_follows :
    S.Follows r (fun κ' client => κ' = κ ++ [⟨.findActiveById ⟨raw⟩, Except.ok (some client)⟩]) κ
      (activeClient raw) := by
  refine Prog.Follows.bind (Ψ := fun κ' cid => κ' = κ ∧ cid = ⟨raw⟩)
    (.ofExcept _ fun cid h => ⟨rfl, OidcClientId.parse_eq_ok h⟩) ?_
  rintro _ _ ⟨rfl, rfl⟩
  refine Prog.Follows.performOk_bind trivial fun a x _ hx =>
    okOr_follows fun client hclient => ?_
  subst hclient hx
  rfl

theorem requireLiveSession_follows :
    S.Follows r
      (fun κ' _ => ∃ auth, κ' = κ ++ [⟨.activeAuthenticationTime user session now, auth⟩]) κ
      (requireLiveSession user session now) := by
  refine Prog.Follows.performOk_bind trivial fun a x _ hx =>
    okOr_follows fun _ _ => ⟨a, rfl⟩

-- Unification would otherwise compute with the bound of the timestamps.
attribute [local irreducible] UnixTimestamp.checkedAdd

namespace OidcProvider

theorem begin_follows :
    S.Follows (.begin clientId uri scopes state nonce challenge user session now bytes)
      (fun κ tid => ∃ transaction, tid = transaction.id ∧
        ⟨.insertTransaction transaction, Except.ok ()⟩ ∈ κ) []
      (begin clientId uri scopes state nonce challenge user session now bytes) := by
  unfold begin
  split
  · trivial
  · refine requireLiveSession_follows.bind fun κ _ hκ => ?_
    obtain ⟨auth, rfl⟩ := hκ
    refine activeClient_follows.bind fun κ client hκ => ?_
    subst hκ
    refine Prog.Follows.bind (Ψ := fun κ' p => κ' = _ ∧ PkceChallenge.parse challenge = .ok p)
      (.ofExcept _ fun p hp => ⟨rfl, hp⟩) ?_
    rintro _ parsed ⟨rfl, hparsed⟩
    refine Prog.Follows.bind (Ψ := fun κ' transaction => κ' = _ ∧
        AuthorizationTransaction.start client uri user session scopes state nonce parsed now bytes =
          .ok transaction) (.ofExcept _ fun p hp => ⟨rfl, hp⟩) ?_
    rintro _ transaction ⟨rfl, htransaction⟩
    refine Prog.Follows.performOk_bind
      ⟨_, _, _, _, _, _, _, _, _, _, client, parsed, auth, rfl, rfl,
      hparsed, htransaction⟩ fun a _ _ ha => ?_
    subst ha
    exact ⟨transaction, rfl, mem_append_right _ (mem_singleton_self _)⟩

theorem approve_follows :
    S.Follows (.approve tid clientId scopes user session now code subject)
      (fun κ approved => ∃ client consent,
        ⟨.approveTransaction tid client user session consent now code subject,
          Except.ok (some approved)⟩ ∈ κ) []
      (approve tid clientId scopes user session now code subject) := by
  refine requireLiveSession_follows.bind fun κ _ hκ => ?_
  obtain ⟨auth, rfl⟩ := hκ
  refine activeClient_follows.bind fun κ client hκ => ?_
  subst hκ
  refine Prog.Follows.bind (Ψ := fun κ' consent => κ' = _ ∧
      UserConsent.new user client scopes false = .ok consent)
    (.ofExcept _ fun p hp => ⟨rfl, hp⟩) ?_
  rintro _ consent ⟨rfl, hconsent⟩
  refine Prog.Follows.performOk_bind ⟨_, _, auth, rfl, rfl, hconsent⟩ fun a x _ ha =>
    okOr_follows fun approved happroved => ?_
  subst happroved ha
  exact ⟨client, consent, mem_append_right _ (mem_singleton_self _)⟩

theorem issueTokens_follows
    (hκ : κ = [⟨.findActiveById ⟨clientId⟩, Except.ok (some client)⟩,
      ⟨.consumeCode raw client uri verifier now, Except.ok (some code)⟩,
      ⟨.activeAuthenticationTime code.userId code.sessionId now, auth⟩,
      ⟨.findSubject code.userId code.installationId, found⟩,
      ⟨.publicClaims code.userId, claims⟩]) :
    S.Follows (.exchangeCode clientId secret raw uri verifier now token)
      (fun κ response => ∃ client code grant,
        S.Exchanged κ raw uri verifier now token response client code grant) κ
      (S.issueTokens client code subject profile authTime now token) := by
  refine Prog.Follows.bind (Ψ := fun κ' _ => κ' = κ) (.ofExcept _ fun _ _ => rfl) ?_
  rintro _ expiresAt rfl
  refine Prog.Follows.bind (Ψ := fun κ' _ => κ' = _) (okOr_follows fun _ _ => rfl) ?_
  rintro _ idToken rfl
  refine Prog.Follows.bind (Ψ := fun κ' p => κ' = _ ∧
      AccessTokenGrant.issue S.sha256 client.clientId code.userId code.sessionId subject code.scopes
        expiresAt now token = .ok p) (.ofExcept _ fun p hp => ⟨rfl, hp⟩) ?_
  rintro _ ⟨grant, text⟩ ⟨rfl, hissue⟩
  refine Prog.Follows.performOk_bind (.inr
    ⟨clientId, secret, raw, uri, verifier, now, token, client,
    code, auth, found, claims, expiresAt, text, rfl, hκ, subject, hissue⟩) fun a _ _ ha => ?_
  subst ha
  refine ⟨client, code, grant, ?_, mem_append_right _ (mem_singleton_self _),
    ⟨subject, expiresAt, hissue⟩, ?_⟩
  · refine mem_append_left _ ?_
    rw [hκ]
    exact mem_cons_of_mem _ mem_cons_self
  · rw [(AccessTokenGrant.issue_eq_ok hissue).2.2.2.2.2]

theorem exchangeCode_follows :
    S.Follows (.exchangeCode clientId secret raw uri verifier now token)
      (fun κ response => ∃ client code grant,
        S.Exchanged κ raw uri verifier now token response client code grant) []
      (S.exchangeCode clientId secret raw uri verifier now token) := by
  refine activeClient_follows.bind fun κ client hκ => ?_
  subst hκ
  refine Prog.Follows.bind (Ψ := fun κ' _ => κ' = _ ∧ S.authenticateClient client secret = .ok ())
    (.ofExcept _ fun p hp => ⟨rfl, hp⟩) ?_
  rintro _ - ⟨rfl, hauthenticated⟩
  refine performSome_bind ⟨clientId, secret, token, rfl, rfl, hauthenticated⟩
    fun a code ha => ?_
  subst ha
  refine requireLiveSession_follows.bind fun κ authTime hκ => ?_
  obtain ⟨auth, rfl⟩ := hκ
  refine performSome_bind trivial fun found subject _ => ?_
  refine performSome_bind trivial fun claims profile _ => ?_
  exact issueTokens_follows rfl

theorem userinfo_follows :
    S.Follows (.userinfo raw now)
      (fun κ _ => ∃ grant, ⟨.resolveAccess raw now, Except.ok (some grant)⟩ ∈ κ) []
      (userinfo raw now) := by
  refine performSome_bind ⟨.inr rfl, rfl⟩ fun a grant ha => ?_
  subst ha
  refine requireLiveSession_follows.bind fun κ authTime hκ => ?_
  obtain ⟨auth, rfl⟩ := hκ
  refine performSome_bind trivial fun claims profile _ => ?_
  exact ⟨grant, by simp⟩

end OidcProvider

theorem OidcRequest.follows (r : OidcRequest) :
    S.Follows r (fun κ => Returned S κ r) [] (r.program S) := by
  cases r with
  | begin =>
    refine OidcProvider.begin_follows.bind fun _ tid h => ?_
    obtain ⟨transaction, rfl, h⟩ := h
    exact ⟨transaction, rfl, h⟩
  | approve =>
    refine OidcProvider.approve_follows.bind fun _ approved h => ?_
    obtain ⟨client, consent, h⟩ := h
    exact ⟨client, consent, approved, rfl, h⟩
  | exchangeCode =>
    refine OidcProvider.exchangeCode_follows.bind fun _ response h => ?_
    obtain ⟨client, code, grant, h⟩ := h
    exact ⟨response, client, code, grant, rfl, h⟩
  | userinfo => exact OidcProvider.userinfo_follows.bind fun _ _ h => h
  | insertClient client =>
    refine Prog.Follows.performOk_bind ⟨rfl, rfl⟩ fun a _ _ ha => ?_
    subst ha
    exact mem_singleton_self _
  | rotate raw now next =>
    refine Prog.Follows.performOk_bind ⟨rfl, rfl⟩ fun a rotation _ ha => ?_
    subst ha
    exact ⟨rotation, rfl, mem_singleton_self _⟩
  | insertFamily => exact Prog.Follows.performOk_bind ⟨rfl, rfl⟩ fun _ _ _ _ => trivial
  | insertAccess => exact Prog.Follows.performOk_bind (.inl ⟨rfl, rfl⟩) fun _ _ _ _ => trivial
  | resolveAccess => exact Prog.Follows.performOk_bind ⟨.inl rfl, rfl⟩ fun _ _ _ _ => trivial
  | revokeAccess | revokeForInstallation | revokeForSession =>
    exact Prog.Follows.performOk_bind trivial fun _ _ _ _ => trivial

theorem OidcProvider.Run.permits [DecidableEq ι] {requests : ι → OidcRequest}
    (hrun : S.Run (S.pool requests t) es P) :
    (∀ i a, P.program i = .ret a → (requests i).Returned S (Pool.traceOf i es) a) ∧
      ∀ es1 e es2, es = es1 ++ e :: es2 →
        (requests e.thread).Permits S (Pool.traceOf e.thread es1) e.call := by
  obtain ⟨hend, hcalls⟩ := Pool.Run.traced hrun fun i => (requests i).follows
  refine ⟨fun i a h => ?_, hcalls⟩
  have := hend i
  rwa [h] at this

end

end Rumahl
