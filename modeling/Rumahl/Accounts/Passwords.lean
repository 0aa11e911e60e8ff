import Rumahl.Effect.Concurrent
import Rumahl.Sqlite.Identity

/-!
# Signing in and changing passwords

The methods of the password services are programs over the identity database and the password
engine. Each call of a method runs in a thread of its own, next to any number of others: an
`IdentityRequest` is such a call with its arguments, `IdentityRequest.program` what it does, and
`IdentityCall.Answers` says which answers the database and the engine may give. `follows` collects
what the programs go by.
-/

namespace Rumahl

open Effect Except

/-! ## Passwords -/

structure Password where
  text : String
  deriving DecidableEq

inductive PasswordPolicyError where
  | tooShort (minimum : Nat)
  | tooLong (maximum : Nat)
  | containsControlCharacter
  | blocked
  deriving DecidableEq

structure PasswordPolicy where
  minimumCharacters : Nat := 15
  maximumCharacters : Nat := 1024

inductive PasswordEngineError where
  | hashing | invalidStoredHash
  deriving DecidableEq

/-- What the model takes from the libraries: Unicode normalisation, and which texts are verifiers
that the security policy admits. -/
structure PasswordLibrary where
  nfc : String → String
  isRecord : String → Bool

def Password.prepare (lib : PasswordLibrary) (candidate : String) :
    Except PasswordPolicyError Password :=
  let normalized := lib.nfc candidate
  if 1024 < normalized.toList.length then .error (.tooLong 1024)
  else if normalized.toList.any isControl then .error .containsControlCharacter
  else .ok ⟨normalized⟩

def PasswordPolicy.validate (policy : PasswordPolicy) (password : Password)
    (blocklist : String → Bool) : Except PasswordPolicyError Unit :=
  if password.text.toList.length < policy.minimumCharacters then
    .error (.tooShort policy.minimumCharacters)
  else if policy.maximumCharacters < password.text.toList.length then
    .error (.tooLong policy.maximumCharacters)
  else if blocklist password.text then .error .blocked
  else .ok ()

/-! ## Calls -/

inductive SqliteAccountStateRepositoryError where
  | database
  | invalidState (error : AccountStateError)
  deriving DecidableEq

def IdentityTables.selectAccounts (t : IdentityTables) : List LocalAccount :=
  t.localAccount.mergeSort fun a b => a.username.value ≤ b.username.value

def IdentityTables.selectSessions (t : IdentityTables) : List AccountSession :=
  t.accountSession.mergeSort fun a b => a.sessionId.value ≤ b.sessionId.value

/-- A transaction on the identity database or a call of the password engine. -/
inductive IdentityCall where
  | selectAccounts
  | selectSessions
  | beginAttempt (userId : UserId) (attemptedAt : UnixTimestamp) (policy : PasswordAttemptPolicy)
  | recordSuccess (userId : UserId)
  | replace (credential : PasswordCredentialRecord)
  | remove (userId : UserId)
  | provisionPasswordAccount (account : LocalAccount) (credential : PasswordCredentialRecord)
  | replacePasswordAndRevokeSessions (credential : PasswordCredentialRecord)
    (sessionIds : List SessionId) (revokedAt : UnixTimestamp)
  | createSession (sessionId : SessionId) (token : SessionTokenDigest)
    (proof : VerifiedLocalAccount) (expiresAt : UnixTimestamp)
  | revokeSession (token : SessionTokenDigest) (now : UnixTimestamp)
  | hash (password : Password)
  | verify (password : Password) (record : PasswordHashRecord)
  | verifyDummy (password : Password)
  deriving DecidableEq

namespace IdentityCall

def Answer : IdentityCall → Type
  | selectAccounts => Except SqliteAccountStateRepositoryError (List LocalAccount)
  | selectSessions => Except SqliteAccountStateRepositoryError (List AccountSession)
  | beginAttempt _ _ _ => Except SqlitePasswordCredentialRepositoryError PasswordAttempt
  | recordSuccess _ => Except SqlitePasswordCredentialRepositoryError Unit
  | replace _ => Except SqlitePasswordCredentialRepositoryError Unit
  | remove _ => Except SqlitePasswordCredentialRepositoryError Bool
  | provisionPasswordAccount _ _ => Except SqliteLocalAccountAdministrationRepositoryError Unit
  | replacePasswordAndRevokeSessions _ _ _ =>
    Except SqliteLocalAccountAdministrationRepositoryError Unit
  | createSession _ _ _ _ => Except BrowserSessionError Unit
  | revokeSession _ _ => Except BrowserSessionError Unit
  | hash _ => Except PasswordEngineError PasswordHashRecord
  | verify _ _ => Except PasswordEngineError Bool
  | verifyDummy _ => Except PasswordEngineError Bool

/-- What a transaction does; the engine does not touch the tables. -/
def run (lib : PasswordLibrary) (t : IdentityTables) : (c : IdentityCall) →
    Option (c.Answer × IdentityTables)
  | selectAccounts => some (.ok t.selectAccounts, t)
  | selectSessions => some (.ok t.selectSessions, t)
  | beginAttempt userId attemptedAt policy =>
    some (SqlitePasswordCredentialRepository.beginAttempt lib.isRecord userId attemptedAt policy t)
  | recordSuccess userId => some (SqlitePasswordCredentialRepository.recordSuccess userId t)
  | replace credential => some (SqlitePasswordCredentialRepository.replace credential t)
  | remove userId => some (SqlitePasswordCredentialRepository.remove userId t)
  | provisionPasswordAccount account credential =>
    some (SqliteLocalAccountAdministrationRepository.provisionPasswordAccount account credential t)
  | replacePasswordAndRevokeSessions credential sessionIds revokedAt =>
    some (SqliteLocalAccountAdministrationRepository.replacePasswordAndRevokeSessions credential
      sessionIds revokedAt t)
  | createSession sessionId token proof expiresAt =>
    some (SqliteBrowserSessionRepository.create sessionId token proof expiresAt t)
  | revokeSession token now => some (SqliteBrowserSessionRepository.revoke token now t)
  | hash _ => none
  | verify _ _ => none
  | verifyDummy _ => none

/-- The answer when SQLite, or the engine, reports an error. -/
def failure : (c : IdentityCall) → c.Answer
  | selectAccounts => .error .database
  | selectSessions => .error .database
  | beginAttempt _ _ _ => .error .database
  | recordSuccess _ => .error .database
  | replace _ => .error .database
  | remove _ => .error .database
  | provisionPasswordAccount _ _ => .error .database
  | replacePasswordAndRevokeSessions _ _ _ => .error .database
  | createSession _ _ _ _ => .error .storage
  | revokeSession _ _ => .error .storage
  | hash _ => .error .hashing
  | verify _ _ => .error .hashing
  | verifyDummy _ => .error .hashing

/-- A transaction is committed or fails without an effect; the engine may answer anything. -/
def Answers (lib : PasswordLibrary) (c : IdentityCall) (t : IdentityTables) (a : c.Answer)
    (t' : IdentityTables) : Prop :=
  match c.run lib t with
  | some r => (a, t') = r ∨ a = c.failure ∧ t' = t
  | none => t' = t

open SqlitePasswordCredentialRepository (find put freshRow nextBlockedUntil)
open SqliteBrowserSessionRepository (proofIsValid endSession)

/-- The attempt was answered with `Allowed`. -/
def isAllowed : (c : IdentityCall) → c.Answer → Bool
  | beginAttempt _ _ _, .ok (.allowed _) => true
  | _, _ => false

/-- The answer says that the call has written a row. -/
def writes : (c : IdentityCall) → c.Answer → Bool
  | beginAttempt _ _ _, .ok (.allowed _) => true
  | recordSuccess _, .ok () => true
  | replace _, .ok () => true
  | provisionPasswordAccount _ _, .ok () => true
  | replacePasswordAndRevokeSessions _ _ _, .ok () => true
  | createSession _ _ _ _, .ok () => true
  | _, _ => false

theorem isAllowed_of_not_writes {c : IdentityCall} {a : c.Answer} (h : c.writes a = false) :
    c.isAllowed a = false := by
  unfold isAllowed
  split
  · exact h
  · rfl

/-- What a call may have done to the tables. -/
inductive Does (t : IdentityTables) : (c : IdentityCall) → c.Answer → IdentityTables → Prop
  | unchanged {c : IdentityCall} {a : c.Answer} (hnot : c.writes a = false) : Does t c a t
  | attempted {credential : PasswordCredentialRecord} (hf : find t user = some row)
      (hfree : ∀ b ∈ row.blockedUntil, b ≤ attemptedAt.seconds)
      (hnext : nextBlockedUntil ((if row.blockedUntil.isSome then 0 else row.failedAttempts) + 1)
        attemptedAt policy = .ok blockedUntil) :
    Does t (.beginAttempt user attemptedAt policy) (Except.ok (.allowed credential))
      (put t { row with
        failedAttempts := (if row.blockedUntil.isSome then 0 else row.failedAttempts) + 1
        blockedUntil })
  | succeeded (hf : find t user = some row) : Does t (.recordSuccess user) (Except.ok ())
      (put t { row with failedAttempts := 0, blockedUntil := none })
  | replaced (hf : find t credential.userId = some row) :
    Does t (.replace credential) (Except.ok ()) (put t (freshRow credential changedAt))
  | enrolled (hf : find t credential.userId = none) : Does t (.replace credential) (Except.ok ())
      { t with passwordCredential := t.passwordCredential ++ [freshRow credential changedAt] }
  | removed {a : Except SqlitePasswordCredentialRepositoryError Bool} :
    Does t (.remove user) a (SqlitePasswordCredentialRepository.remove user t).2
  | provisioned (hf : find t credential.userId = none) :
    Does t (.provisionPasswordAccount account credential) (Except.ok ()) { t with
        localAccount := t.localAccount ++ [account]
        passwordCredential := t.passwordCredential ++ [freshRow credential changedAt] }
  | changed (hf : find t credential.userId = some row) (hfold : List.foldlM
        (SqliteLocalAccountAdministrationRepository.revokeSession credential.userId
          revokedAt.seconds) (put t (freshRow credential changedAt)) sids = .ok t') :
    Does t (.replacePasswordAndRevokeSessions credential sids revokedAt) (Except.ok ()) t'
  | created {session : AccountSession} (hid : session.sessionId = sid)
      (huser : session.userId = proof.userId) (hlive : session.revokedAt = none)
      (hproof : proofIsValid t proof = true) (hnew : ∀ x ∈ t.accountSession, x.sessionId ≠ sid) :
    Does t (.createSession sid token proof expiresAt) (Except.ok ()) { t with
        accountSession := t.accountSession ++ [session]
        sessionCredential := t.sessionCredential ++ [⟨token, sid, issuedAt, none⟩] }
  | ended : Does t (.revokeSession token now) (Except.ok ())
      { t with accountSession := t.accountSession.map (endSession sid now)
               sessionCredential := tokens }

private theorem beginAttempt_does
    (h : SqlitePasswordCredentialRepository.beginAttempt isRecord user attemptedAt policy t =
      (a, t')) : Does t (.beginAttempt user attemptedAt policy) a t' := by
  replace h := commit_cases h
  obtain ⟨e, rfl, rfl⟩ | ⟨attempt, rfl, h⟩ := h
  · exact .unchanged rfl
  split at h
  · cases h
    exact .unchanged rfl
  next row hf =>
  split at h
  · cases h
  split at h
  · cases h
  split at h
  · cases h
    exact .unchanged rfl
  next hfree =>
  generalize hattempts :
    (if row.blockedUntil.isSome then 0 else row.failedAttempts) + 1 = attempts at h
  dsimp only at h
  split at h
  · cases h
  obtain ⟨blockedUntil, hb, h⟩ := bind_eq_ok.mp h
  cases h
  subst hattempts
  refine .attempted hf (fun b hrow => ?_) hb
  have hrow : row.blockedUntil = some b := hrow
  simpa [hrow] using hfree

private theorem createSession_does
    (h : SqliteBrowserSessionRepository.create sid token proof expiresAt t = (a, t')) :
    Does t (.createSession sid token proof expiresAt) a t' := by
  replace h := commit_cases h
  obtain ⟨e, rfl, rfl⟩ | ⟨r, rfl, h⟩ := h
  · exact .unchanged rfl
  obtain ⟨issuedAt, -, h⟩ := bind_eq_ok.mp h
  obtain ⟨_, -, h⟩ := bind_eq_ok.mp h
  split at h
  · cases h
  next session hsession =>
  split_ifs at h with hvalid hused
  cases h
  obtain ⟨hid, huser, hlive⟩ := AccountSession.restore_eq_ok hsession
  simp only [Bool.or_eq_true, not_or, Option.isSome_iff_ne_none, not_ne_iff] at hused
  exact .created hid huser hlive (by simpa using hvalid) (Table.find_eq_none.mp hused.1)

theorem run_does (h : run lib t c = some (a, t')) : Does t c a t' := by
  cases c with
  | selectAccounts | selectSessions =>
    obtain rfl : t = t' := congrArg Prod.snd (Option.some.inj h)
    exact .unchanged rfl
  | beginAttempt => exact beginAttempt_does (Option.some.inj h)
  | recordSuccess user =>
    replace h := Option.some.inj h
    unfold SqlitePasswordCredentialRepository.recordSuccess at h
    split at h
    · cases h
      exact .unchanged rfl
    · next hf =>
      cases h
      exact .succeeded hf
  | replace credential =>
    replace h := commit_cases (Option.some.inj h)
    obtain ⟨e, rfl, rfl⟩ | ⟨r, rfl, h⟩ := h
    · exact .unchanged rfl
    obtain ⟨changedAt, -, h⟩ := bind_eq_ok.mp h
    split at h
    · next hf =>
      cases h
      exact .replaced hf
    · next hf =>
      cases h
      exact .enrolled hf
  | remove user =>
    obtain rfl : _ = t' := congrArg Prod.snd (Option.some.inj h)
    exact .removed
  | provisionPasswordAccount account credential =>
    replace h := commit_cases (Option.some.inj h)
    obtain ⟨e, rfl, rfl⟩ | ⟨r, rfl, h⟩ := h
    · exact .unchanged rfl
    split at h
    · cases h
    obtain ⟨changedAt, -, h⟩ := bind_eq_ok.mp h
    split_ifs at h with hnew
    cases h
    simp only [Bool.or_eq_true, not_or, Option.isSome_iff_ne_none, not_ne_iff] at hnew
    exact .provisioned hnew.2
  | replacePasswordAndRevokeSessions credential sids revokedAt =>
    replace h := commit_cases (Option.some.inj h)
    obtain ⟨e, rfl, rfl⟩ | ⟨r, rfl, h⟩ := h
    · exact .unchanged rfl
    obtain ⟨changedAt, -, h⟩ := bind_eq_ok.mp h
    obtain ⟨at_, hat, h⟩ := bind_eq_ok.mp h
    split at h
    · cases h
    next row hf =>
    obtain ⟨t1, hfold, h⟩ := bind_eq_ok.mp h
    cases h
    unfold SqliteLocalAccountAdministrationRepository.writeTimestamp sqliteTimestamp at hat
    split_ifs at hat
    cases hat
    exact .changed hf hfold
  | createSession => exact createSession_does (Option.some.inj h)
  | revokeSession token now =>
    replace h := commit_cases (Option.some.inj h)
    obtain ⟨e, rfl, rfl⟩ | ⟨r, rfl, h⟩ := h
    · exact .unchanged rfl
    obtain ⟨_, -, h⟩ := bind_eq_ok.mp h
    split at h
    · cases h
      exact .unchanged rfl
    · cases h
      exact .ended
  | hash | verify | verifyDummy => cases h

theorem Answers.does (h : Answers lib c t a t') : Does t c a t' := by
  unfold Answers at h
  split at h
  · next hrun =>
    obtain rfl | ⟨rfl, rfl⟩ := h
    · exact run_does hrun
    · refine .unchanged ?_
      cases c <;> rfl
  · next hrun =>
    subst h
    refine .unchanged ?_
    cases c with
    | hash | verify | verifyDummy => rfl
    | _ => cases hrun

end IdentityCall

abbrev IdentityProg := Prog IdentityCall IdentityCall.Answer

/-! ## The services -/

/-- The parameters that the services are made with. -/
structure PasswordServices where
  lib : PasswordLibrary
  blocklist : String → Bool
  passwordPolicy : PasswordPolicy := {}
  attemptPolicy : PasswordAttemptPolicy := default
  maximumAuthenticationAgeSeconds : Nat := 300

inductive PasswordAuthenticationError where
  | invalidCredentials
  | engine (error : PasswordEngineError)
  | repository (error : SqlitePasswordCredentialRepositoryError)
  deriving DecidableEq

inductive PasswordEnrollmentError where
  | accountNotFound
  | accountDisabled
  | policy (error : PasswordPolicyError)
  | engine (error : PasswordEngineError)
  | repository (error : SqlitePasswordCredentialRepositoryError)
  deriving DecidableEq

inductive AccountProvisioningError where
  | account (error : AccountStateError)
  | policy (error : PasswordPolicyError)
  | engine (error : PasswordEngineError)
  | repository (error : SqliteLocalAccountAdministrationRepositoryError)
  deriving DecidableEq

inductive PasswordChangeError where
  | load (error : SqliteAccountStateRepositoryError)
  | accountNotFound
  | accountUnavailable
  | authenticationFromFuture
  | authenticationExpired
  | policy (error : PasswordPolicyError)
  | engine (error : PasswordEngineError)
  | account (error : AccountStateError)
  | repository (error : SqliteLocalAccountAdministrationRepositoryError)
  deriving DecidableEq

/-- `SqliteAccountStateRepository::load`: two queries, without a transaction around them. -/
def loadAccountState (wrap : SqliteAccountStateRepositoryError → ε) :
    IdentityProg ε AccountState := do
  let accounts ← Prog.perform IdentityCall.selectAccounts
  let accounts ← Prog.ofExcept wrap accounts
  let sessions ← Prog.perform IdentityCall.selectSessions
  let sessions ← Prog.ofExcept wrap sessions
  Prog.ofExcept (wrap ∘ .invalidState) (AccountState.restore accounts sessions)

namespace PasswordServices

variable (S : PasswordServices)

def verifyDummy (password : Password) : IdentityProg PasswordAuthenticationError Unit := do
  let r ← Prog.perform (IdentityCall.verifyDummy password)
  let _ ← Prog.ofExcept .engine r
  pure ()

def authenticate (state : AccountState) (username candidate : String)
    (attemptedAt : UnixTimestamp) :
    IdentityProg PasswordAuthenticationError VerifiedLocalAccount :=
  match Password.prepare S.lib candidate with
  | .error _ => .throw .invalidCredentials
  | .ok password =>
    match (AccountUsername.parse username).toOption.bind
        (AccountRegistry.getByUsername state.accounts) with
    | none => do
      verifyDummy password
      .throw .invalidCredentials
    | some account => do
      let attempt ← Prog.perform (IdentityCall.beginAttempt account.userId attemptedAt
        S.attemptPolicy)
      let attempt ← Prog.ofExcept .repository attempt
      match attempt with
      | .allowed credential => do
        let valid ← Prog.perform (IdentityCall.verify password credential.passwordHash)
        let valid ← Prog.ofExcept .engine valid
        if !valid || !account.canAuthenticate then .throw .invalidCredentials
        else do
          let r ← Prog.perform (IdentityCall.recordSuccess account.userId)
          Prog.ofExcept .repository r
          pure ⟨account.userId, attemptedAt, credential.passwordHash⟩
      | .missingCredential => do
        verifyDummy password
        .throw .invalidCredentials
      | .throttled _ => do
        verifyDummy password
        .throw .invalidCredentials

/-- Prepare, validate and hash a new password. -/
def prepareCredential (policyError : PasswordPolicyError → ε)
    (engineError : PasswordEngineError → ε)
    (userId : UserId) (candidate : String) (changedAt : UnixTimestamp) :
    IdentityProg ε PasswordCredentialRecord := do
  let password ← Prog.ofExcept policyError (Password.prepare S.lib candidate)
  Prog.ofExcept policyError (S.passwordPolicy.validate password S.blocklist)
  let passwordHash ← Prog.perform (IdentityCall.hash password)
  let passwordHash ← Prog.ofExcept engineError passwordHash
  pure ⟨userId, passwordHash, changedAt⟩

def setPassword (state : AccountState) (userId : UserId) (candidate : String)
    (changedAt : UnixTimestamp) : IdentityProg PasswordEnrollmentError Unit :=
  match AccountRegistry.get state.accounts userId with
  | none => .throw .accountNotFound
  | some account =>
    if account.status = .disabled then .throw .accountDisabled
    else do
      let credential ← S.prepareCredential .policy .engine userId candidate changedAt
      let r ← Prog.perform (IdentityCall.replace credential)
      Prog.ofExcept .repository r

/-- The account gets the id that the generator drew. -/
def provisionPasswordAccount (state : AccountState) (userId : UserId)
    (username displayName candidate : String) (createdAt : UnixTimestamp) :
    IdentityProg AccountProvisioningError UserId :=
  match state.createAccount userId username displayName with
  | (.error e, _) => .throw (.account e)
  | (.ok userId, staged) => do
    let credential ← S.prepareCredential .policy .engine userId candidate createdAt
    match AccountRegistry.get staged.accounts userId with
    | none => .throw (.account .accountNotFound)
    | some account => do
      let r ← Prog.perform (IdentityCall.provisionPasswordAccount account credential)
      Prog.ofExcept .repository r
      pure userId

def sessionsToRevoke (state : AccountState) (userId : UserId) : List SessionId :=
  (state.sessions.filter fun session =>
    session.userId = userId && session.revokedAt.isNone).map AccountSession.sessionId

/-- How many sessions were revoked, in the state that was passed in. -/
def changePassword (state : AccountState) (verified : VerifiedLocalAccount) (candidate : String)
    (changedAt : UnixTimestamp) : IdentityProg PasswordChangeError Nat :=
  if changedAt < verified.authenticatedAt then .throw .authenticationFromFuture
  else if S.maximumAuthenticationAgeSeconds <
      changedAt.seconds - verified.authenticatedAt.seconds then
    .throw .authenticationExpired
  else
    match AccountRegistry.get state.accounts verified.userId with
    | none => .throw .accountNotFound
    | some account =>
      if account.status ≠ .active then .throw .accountUnavailable
      else do
        let credential ← S.prepareCredential .policy .engine verified.userId candidate changedAt
        let sessionIds := sessionsToRevoke state verified.userId
        let revoked ←
          Prog.ofExcept .account (state.revokeSessionsForUser verified.userId changedAt).1
        let r ← Prog.perform
          (IdentityCall.replacePasswordAndRevokeSessions credential sessionIds changedAt)
        Prog.ofExcept .repository r
        pure revoked

end PasswordServices

/-! ## Requests -/

/-- A call of a service or a repository, with its arguments. -/
inductive IdentityRequest where
  | authenticate (state : AccountState) (username candidate : String) (attemptedAt : UnixTimestamp)
  | setPassword (state : AccountState) (userId : UserId) (candidate : String)
    (changedAt : UnixTimestamp)
  | provisionPasswordAccount (state : AccountState) (userId : UserId)
    (username displayName candidate : String) (createdAt : UnixTimestamp)
  | removePassword (userId : UserId)
  /-- `change_password` with a state that is loaded for it. -/
  | changePassword (verified : VerifiedLocalAccount) (candidate : String)
    (changedAt : UnixTimestamp)
  | createSession (sessionId : SessionId) (token : SessionTokenDigest)
    (proof : VerifiedLocalAccount) (expiresAt : UnixTimestamp)
  | revokeSession (token : SessionTokenDigest) (now : UnixTimestamp)

inductive IdentityResult where
  | verified (account : VerifiedLocalAccount)
  | passwordChanged (revoked : Nat)
  | done
  deriving DecidableEq

inductive IdentityError where
  | authentication (error : PasswordAuthenticationError)
  | enrollment (error : PasswordEnrollmentError)
  | provisioning (error : AccountProvisioningError)
  | change (error : PasswordChangeError)
  | credentials (error : SqlitePasswordCredentialRepositoryError)
  | session (error : BrowserSessionError)
  deriving DecidableEq

def IdentityRequest.program (S : PasswordServices) :
    IdentityRequest → IdentityProg IdentityError IdentityResult
  | authenticate state username candidate attemptedAt => do
    let account ← (S.authenticate state username candidate attemptedAt).mapError .authentication
    pure (.verified account)
  | setPassword state userId candidate changedAt => do
    (S.setPassword state userId candidate changedAt).mapError .enrollment
    pure .done
  | provisionPasswordAccount state userId username displayName candidate createdAt => do
    let _ ← (S.provisionPasswordAccount state userId username displayName candidate
      createdAt).mapError .provisioning
    pure .done
  | removePassword userId => do
    let r ← Prog.perform (IdentityCall.remove userId)
    let _ ← Prog.ofExcept .credentials r
    pure .done
  | changePassword verified candidate changedAt => do
    let state ← loadAccountState (.change ∘ .load)
    let revoked ← (S.changePassword state verified candidate changedAt).mapError .change
    pure (.passwordChanged revoked)
  | createSession sessionId token proof expiresAt => do
    let r ← Prog.perform (IdentityCall.createSession sessionId token proof expiresAt)
    Prog.ofExcept .session r
    pure .done
  | revokeSession token now => do
    let r ← Prog.perform (IdentityCall.revokeSession token now)
    Prog.ofExcept .session r
    pure .done

abbrev IdentityEvent (ι : Type) := PoolEvent ι IdentityCall IdentityCall.Answer IdentityTables

/-- Any number of requests next to each other, each of them at its start. -/
def PasswordServices.pool (S : PasswordServices) (requests : ι → IdentityRequest)
    (t : IdentityTables) :
    Pool ι IdentityCall IdentityCall.Answer IdentityError IdentityResult IdentityTables Unit where
  program i := (requests i).program S
  own _ := ()
  shared := t

/-- A run of requests. -/
abbrev PasswordServices.Run [DecidableEq ι] (S : PasswordServices) :=
  Pool.Run (ι := ι) (ε := IdentityError) (α := IdentityResult) (L := Unit)
    fun (c : IdentityCall) t _ a t' _ => c.Answers S.lib t a t'

/-! ## Runs by a schedule -/

/-- What the engine answers: the next verifier, and whether the password is the right one. -/
def IdentityCall.engineAnswer (engine : PasswordHashRecord × Bool) : (c : IdentityCall) → c.Answer
  | hash _ => .ok engine.1
  | verify _ _ => .ok engine.2
  | verifyDummy _ => .ok false
  | c => c.failure

/-- The database works, and the engine answers as it is told. -/
def IdentityCall.respond (lib : PasswordLibrary) (engine : PasswordHashRecord × Bool)
    (c : IdentityCall) (t : IdentityTables) (_ : Unit) : c.Answer × IdentityTables × Unit :=
  match c.run lib t with
  | some r => (r.1, r.2, ())
  | none => (c.engineAnswer engine, t, ())

theorem PasswordServices.exec_run [DecidableEq ι] (S : PasswordServices)
    (schedule : List (ι × PasswordHashRecord × Bool)) (P) :
    S.Run P (Pool.exec (IdentityCall.respond S.lib) schedule P).1
      (Pool.exec (IdentityCall.respond S.lib) schedule P).2 := by
  refine Pool.exec_run (fun engine c t _ => ?_) schedule P
  unfold IdentityCall.Answers IdentityCall.respond
  cases c.run S.lib t with
  | some r => exact .inl rfl
  | none => rfl

/-- A service with the default policies. -/
def plainServices : PasswordServices where
  lib := ⟨id, fun _ => true⟩
  blocklist := fun _ => false

/-- The state with one account. -/
def kaiState : AccountState := AccountState.afterCalls [.createAccount ⟨1⟩ "kai" "Kai"] {}

def kaiTables : IdentityTables where
  localAccount := kaiState.accounts
  passwordCredential := [⟨⟨1⟩, ⟨"kai's verifier"⟩, 0, 0, none⟩]

/-! ## What the programs go by -/

abbrev IdentityTrace := List ((c : IdentityCall) × c.Answer)

/-- What a program has been answered before it makes a call. -/
def IdentityTrace.Permits (S : PasswordServices) (κ : IdentityTrace) : IdentityCall → Prop
  | .beginAttempt _ _ policy => κ = [] ∧ policy = S.attemptPolicy
  | .verify _ _ => ∃ userId t policy credential,
    κ = [⟨.beginAttempt userId t policy, Except.ok (.allowed credential)⟩]
  | .selectSessions => ∃ accounts, κ = [⟨.selectAccounts, accounts⟩]
  | .hash _ => κ = [] ∨
    ∃ accounts sessions, κ = [⟨.selectAccounts, accounts⟩, ⟨.selectSessions, sessions⟩]
  | .replace credential => ∃ password, κ = [⟨.hash password, Except.ok credential.passwordHash⟩]
  | .provisionPasswordAccount _ credential =>
    ∃ password, κ = [⟨.hash password, Except.ok credential.passwordHash⟩]
  | .replacePasswordAndRevokeSessions credential sessionIds _ =>
    ∃ accounts sessions password,
      κ = [⟨.selectAccounts, accounts⟩, ⟨.selectSessions, Except.ok sessions⟩,
        ⟨.hash password, Except.ok credential.passwordHash⟩] ∧
      sessionIds = PasswordServices.sessionsToRevoke { sessions } credential.userId
  | _ => True

/-- What a program has been answered when it has returned. -/
def IdentityRequest.Returned (κ : IdentityTrace) : IdentityRequest → IdentityResult → Prop
  | .changePassword verified _ changedAt, .passwordChanged _ =>
    ∃ credential sessionIds, credential.userId = verified.userId ∧
      ⟨.replacePasswordAndRevokeSessions credential sessionIds changedAt, Except.ok ()⟩ ∈ κ
  | _, _ => True

section

-- a goal about the program of a request must not evaluate the parser of usernames
attribute [local irreducible] AccountState.createAccount

variable {S : PasswordServices}

/-- `Prog.Follows` for the programs of this module. -/
abbrev PasswordServices.Follows (S : PasswordServices) (Ψ : IdentityTrace → α → Prop)
    (κ : IdentityTrace) (p : IdentityProg ε α) : Prop :=
  p.Follows (.traced (IdentityTrace.Permits S)) Ψ κ

theorem PasswordServices.verifyDummy_follows :
    S.Follows (fun _ _ => True) κ (verifyDummy password) :=
  Prog.Follows.performOk_bind trivial
    fun _ _ _ _ => trivial

theorem PasswordServices.authenticate_follows :
    S.Follows (fun _ _ => True) [] (S.authenticate state username candidate attemptedAt) := by
  unfold authenticate
  split
  · trivial
  · split
    · exact verifyDummy_follows.bind fun _ _ _ => trivial
    · next account _ =>
      refine Prog.Follows.performOk_bind ⟨rfl, rfl⟩ fun a attempt _ ha => ?_
      subst ha
      cases attempt with
      | missingCredential => exact verifyDummy_follows.bind fun _ _ _ => trivial
      | throttled _ => exact verifyDummy_follows.bind fun _ _ _ => trivial
      | allowed credential =>
        refine Prog.Follows.performOk_bind
          ⟨account.userId, attemptedAt, S.attemptPolicy, credential, rfl⟩ fun _ valid _ _ => ?_
        split
        · trivial
        · exact Prog.Follows.performOk_bind trivial fun _ _ _ _ => trivial

theorem PasswordServices.prepareCredential_follows (hκ : IdentityTrace.Permits S κ (.hash ⟨""⟩)) :
    S.Follows (fun κ' credential => credential.userId = userId ∧
        ∃ password, κ' = κ ++ [⟨.hash password, Except.ok credential.passwordHash⟩])
      κ (S.prepareCredential policyError engineError userId candidate changedAt) := by
  refine Prog.Follows.bind (Ψ := fun κ' _ => κ' = κ) (.ofExcept _ fun _ _ => rfl) ?_
  rintro _ password rfl
  refine Prog.Follows.bind (Ψ := fun κ' _ => κ' = _) (.ofExcept _ fun _ _ => rfl) ?_
  rintro _ _ rfl
  refine Prog.Follows.performOk_bind hκ fun a hash _ ha => ?_
  subst ha
  exact ⟨rfl, password, rfl⟩

theorem loadAccountState_follows : S.Follows (fun κ state => ∃ accounts,
        κ = [⟨.selectAccounts, accounts⟩, ⟨.selectSessions, Except.ok state.sessions⟩])
      [] (loadAccountState wrap) := by
  refine Prog.Follows.performOk_bind trivial fun as _ _ _ => ?_
  refine Prog.Follows.performOk_bind ⟨as, rfl⟩ fun a sessions _ ha => ?_
  subst ha
  refine .ofExcept _ fun state hstate => ?_
  rw [AccountState.restore_sessions hstate]
  exact ⟨as, rfl⟩

namespace PasswordServices

theorem setPassword_follows :
    S.Follows (fun _ _ => True) [] (S.setPassword state user candidate changedAt) := by
  unfold setPassword
  split
  · trivial
  · split
    · trivial
    · refine (prepareCredential_follows (.inl rfl)).bind fun κ credential h => ?_
      obtain ⟨-, password, rfl⟩ := h
      exact Prog.Follows.performOk _ ⟨password, rfl⟩ fun _ _ _ _ => trivial

theorem provisionPasswordAccount_follows : S.Follows (fun _ _ => True) []
      (S.provisionPasswordAccount state user name display candidate createdAt) := by
  unfold provisionPasswordAccount
  split
  · trivial
  · refine (prepareCredential_follows (.inl rfl)).bind fun κ credential h => ?_
    obtain ⟨-, password, rfl⟩ := h
    split
    · trivial
    · exact Prog.Follows.performOk_bind ⟨password, rfl⟩ fun _ _ _ _ => trivial

theorem changePassword_follows
    (hκ : κ = [⟨.selectAccounts, accounts⟩, ⟨.selectSessions, Except.ok state.sessions⟩]) :
    S.Follows (fun κ _ => ∃ credential sessionIds, credential.userId = verified.userId ∧
        ⟨.replacePasswordAndRevokeSessions credential sessionIds changedAt, Except.ok ()⟩ ∈ κ)
      κ (S.changePassword state verified candidate changedAt) := by
  subst hκ
  unfold changePassword
  split
  · trivial
  · split
    · trivial
    · split
      · trivial
      · split
        · trivial
        · refine (prepareCredential_follows (.inr ⟨_, _, rfl⟩)).bind fun κ credential h => ?_
          obtain ⟨huser, password, rfl⟩ := h
          refine Prog.Follows.bind (Ψ := fun κ' _ => κ' = _) (.ofExcept _ fun _ _ => rfl) ?_
          rintro _ revoked rfl
          refine Prog.Follows.performOk_bind ⟨_, _, password, rfl, ?_⟩ fun a _ _ ha => ?_
          · rw [huser]
            rfl
          · subst ha
            exact ⟨credential, _, huser, List.mem_append_right _ List.mem_cons_self⟩

end PasswordServices

theorem IdentityRequest.follows (r : IdentityRequest) :
    S.Follows (fun κ => Returned κ r) [] (r.program S) := by
  cases r with
  | authenticate =>
    exact PasswordServices.authenticate_follows.mapError.bind fun _ _ _ => trivial
  | setPassword => exact PasswordServices.setPassword_follows.mapError.bind fun _ _ _ => trivial
  | provisionPasswordAccount =>
    exact PasswordServices.provisionPasswordAccount_follows.mapError.bind fun _ _ _ => trivial
  | removePassword => exact Prog.Follows.performOk_bind trivial fun _ _ _ _ => trivial
  | changePassword =>
    refine loadAccountState_follows.bind fun κ state h => ?_
    obtain ⟨accounts, rfl⟩ := h
    exact (PasswordServices.changePassword_follows rfl).mapError.bind fun _ _ h => h
  | createSession => exact Prog.Follows.performOk_bind trivial fun _ _ _ _ => trivial
  | revokeSession => exact Prog.Follows.performOk_bind trivial fun _ _ _ _ => trivial

theorem PasswordServices.Run.permits [DecidableEq ι] {requests : ι → IdentityRequest}
    (hrun : S.Run (S.pool requests t) es P) :
    (∀ i a, P.program i = .ret a → (requests i).Returned (Pool.traceOf i es) a) ∧
      ∀ es1 e es2, es = es1 ++ e :: es2 →
        IdentityTrace.Permits S (Pool.traceOf e.thread es1) e.call := by
  obtain ⟨hend, hcalls⟩ := Pool.Run.traced hrun fun i => (requests i).follows
  refine ⟨fun i a h => ?_, hcalls⟩
  have := hend i
  rwa [h] at this

end

end Rumahl
