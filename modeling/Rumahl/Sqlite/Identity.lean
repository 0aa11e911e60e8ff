import Rumahl.Core.Accounts

/-!
# The identity database

Accounts, sessions, password credentials and session tokens are four tables of one SQLite file. A
method of a repository is one transaction, hence a function from the tables to an answer and the
tables that are left: a transaction that is not committed leaves them as they were. What the CHECK
constraints of `account_session` say is what `AccountSession` carries, so its rows are of that type;
an UPDATE that would break one of them is a database error.
-/

namespace Rumahl

/-! ## Records and rows -/

/-- A password verifier in the PHC format. -/
structure PasswordHashRecord where
  text : String
  deriving DecidableEq

structure PasswordCredentialRecord where
  userId : UserId
  passwordHash : PasswordHashRecord
  changedAt : UnixTimestamp
  deriving DecidableEq

inductive PasswordAttempt where
  | missingCredential
  | throttled (retryAt : UnixTimestamp)
  | allowed (credential : PasswordCredentialRecord)

structure PasswordAttemptPolicy where
  maximumAttempts : Nat
  lockoutSeconds : Nat
  maximumAttempts_pos : 1 ≤ maximumAttempts
  lockoutSeconds_pos : 1 ≤ lockoutSeconds
  deriving DecidableEq

instance : Inhabited PasswordAttemptPolicy := ⟨⟨5, 30, by decide, by decide⟩⟩

/-- What `authenticate` returns, and nothing else makes. -/
structure VerifiedLocalAccount where
  userId : UserId
  authenticatedAt : UnixTimestamp
  passwordHash : PasswordHashRecord
  deriving DecidableEq

structure SessionTokenDigest where
  value : Nat
  deriving DecidableEq

structure PasswordCredentialRow where
  userId : UserId
  passwordHash : PasswordHashRecord
  changedAt : Nat
  failedAttempts : Nat
  blockedUntil : Option Nat

structure SessionCredentialRow where
  tokenDigest : SessionTokenDigest
  sessionId : SessionId
  issuedAt : Nat
  revokedAt : Option Nat

structure IdentityTables where
  localAccount : List LocalAccount := []
  accountSession : List AccountSession := []
  passwordCredential : List PasswordCredentialRow := []
  sessionCredential : List SessionCredentialRow := []

/-- `i64::try_from` of a timestamp. -/
def sqliteTimestamp (e : ε) (t : UnixTimestamp) : Except ε Nat :=
  if t.seconds < 2 ^ 63 then .ok t.seconds else .error e

/-! ## Password credentials -/

inductive SqlitePasswordCredentialRepositoryError where
  | database
  | invalidPasswordHash
  | timestampOutsideSqliteRange (field : String) (value : Nat)
  | invalidFailedAttemptCount (value : Nat)
  | attemptCounterOverflow
  | lockoutTimestampOverflow
  | credentialMissing
  deriving DecidableEq

namespace SqlitePasswordCredentialRepository

abbrev Result (α : Type) := Except SqlitePasswordCredentialRepositoryError α × IdentityTables

def writeTimestamp (field : String) (t : UnixTimestamp) :
    Except SqlitePasswordCredentialRepositoryError Nat :=
  sqliteTimestamp (.timestampOutsideSqliteRange field t.seconds) t

def find (t : IdentityTables) (userId : UserId) : Option PasswordCredentialRow :=
  Table.find PasswordCredentialRow.userId t.passwordCredential userId

def put (t : IdentityTables) (row : PasswordCredentialRow) : IdentityTables :=
  { t with passwordCredential := Table.put PasswordCredentialRow.userId t.passwordCredential row }

/-- The row of a credential that is set anew. -/
def freshRow (credential : PasswordCredentialRecord) (changedAt : Nat) : PasswordCredentialRow :=
  { userId := credential.userId, passwordHash := credential.passwordHash, changedAt
    failedAttempts := 0, blockedUntil := none }

def replace (credential : PasswordCredentialRecord) (t : IdentityTables) : Result Unit :=
  Except.commit t do
    let changedAt ← writeTimestamp "changed_at" credential.changedAt
    let row := freshRow credential changedAt
    match find t credential.userId with
    | some _ => pure ((), put t row)
    | none => pure ((), { t with passwordCredential := t.passwordCredential ++ [row] })

/-- The block that an attempt sets when it is the last one that the policy admits. -/
def nextBlockedUntil (attempts : Nat) (attemptedAt : UnixTimestamp)
    (policy : PasswordAttemptPolicy) :
    Except SqlitePasswordCredentialRepositoryError (Option Nat) :=
  if policy.maximumAttempts ≤ attempts then
    if attemptedAt.seconds + policy.lockoutSeconds < 2 ^ 64 then do
      let blockedUntil ←
        writeTimestamp "blocked_until" ⟨attemptedAt.seconds + policy.lockoutSeconds⟩
      pure (some blockedUntil)
    else .error .lockoutTimestampOverflow
  else .ok none

/-- `isRecord` tells which texts `PasswordHashRecord::parse` accepts. -/
def beginAttempt (isRecord : String → Bool) (userId : UserId) (attemptedAt : UnixTimestamp)
    (policy : PasswordAttemptPolicy) (t : IdentityTables) : Result PasswordAttempt :=
  Except.commit t <|
    match find t userId with
    | none => .ok (.missingCredential, t)
    | some row =>
      if !isRecord row.passwordHash.text then .error .invalidPasswordHash
      else if 2 ^ 32 ≤ row.failedAttempts then
        .error (.invalidFailedAttemptCount row.failedAttempts)
      else
        match row.blockedUntil.filter fun blockedUntil => attemptedAt.seconds < blockedUntil with
        | some retryAt => .ok (.throttled ⟨retryAt⟩, t)
        | none =>
          let attempts := (if row.blockedUntil.isSome then 0 else row.failedAttempts) + 1
          if 2 ^ 32 ≤ attempts then .error .attemptCounterOverflow
          else do
            let blockedUntil ← nextBlockedUntil attempts attemptedAt policy
            pure (.allowed ⟨userId, row.passwordHash, ⟨row.changedAt⟩⟩,
              put t { row with failedAttempts := attempts, blockedUntil })

def recordSuccess (userId : UserId) (t : IdentityTables) : Result Unit :=
  match find t userId with
  | none => (.error .credentialMissing, t)
  | some row => (.ok (), put t { row with failedAttempts := 0, blockedUntil := none })

def remove (userId : UserId) (t : IdentityTables) : Result Bool :=
  (.ok (find t userId).isSome,
    { t with passwordCredential := t.passwordCredential.filter fun row => row.userId ≠ userId })

theorem find_put_self (hu : row.userId = user) (h : find t user = some row') :
    find (put t row) user = some row := by
  subst hu
  exact Table.find_put_self h

theorem find_put_ne (h : user ≠ row.userId) : find (put t row) user = find t user :=
  Table.find_put_ne h

theorem find_append_ne (h : user ≠ row.userId) :
    find { t with passwordCredential := t.passwordCredential ++ [row] } user = find t user := by
  unfold find Table.find
  rw [List.find?_append, List.find?_singleton, if_neg (by simpa using h.symm), Option.or_none]

theorem nextBlockedUntil_eq_ok (h : nextBlockedUntil count attemptedAt policy = .ok blocked) :
    blocked = if policy.maximumAttempts ≤ count then
      some (attemptedAt.seconds + policy.lockoutSeconds) else none := by
  unfold nextBlockedUntil at h
  split_ifs at h ⊢
  · obtain ⟨n, hn, h⟩ := Except.bind_eq_ok.mp h
    unfold writeTimestamp sqliteTimestamp at hn
    split_ifs at hn
    cases hn
    exact (Except.ok.inj h).symm
  · exact (Except.ok.inj h).symm

theorem find_remove_ne (h : user ≠ user') : find (remove user' t).2 user = find t user := by
  unfold find Table.find remove
  rw [List.find?_filter]
  congr 1
  funext row
  by_cases hrow : row.userId = user
  · simp [hrow, h]
  · simp [hrow]

theorem find_remove_self : find (remove user t).2 user = none := by
  refine Table.find_eq_none.mpr fun row hrow => ?_
  simpa using (List.mem_filter.mp hrow).2

end SqlitePasswordCredentialRepository

/-! ## Administration -/

inductive SqliteLocalAccountAdministrationRepositoryError where
  | database
  | credentialAccountMismatch
  | credentialMissing
  | sessionStateMismatch (sessionId : SessionId)
  | timestampOutsideSqliteRange (field : String) (value : Nat)
  deriving DecidableEq

namespace SqliteLocalAccountAdministrationRepository

open SqlitePasswordCredentialRepository (find put freshRow)

abbrev Result (α : Type) :=
  Except SqliteLocalAccountAdministrationRepositoryError α × IdentityTables

def writeTimestamp (field : String) (t : UnixTimestamp) :
    Except SqliteLocalAccountAdministrationRepositoryError Nat :=
  sqliteTimestamp (.timestampOutsideSqliteRange field t.seconds) t

/-- The username column is unique up to the case of its letters, and usernames are lower case. -/
def provisionPasswordAccount (account : LocalAccount) (credential : PasswordCredentialRecord)
    (t : IdentityTables) : Result Unit :=
  Except.commit t <|
    if account.userId ≠ credential.userId then .error .credentialAccountMismatch
    else do
      let changedAt ← writeTimestamp "changed_at" credential.changedAt
      if (AccountRegistry.get t.localAccount account.userId).isSome ||
          (AccountRegistry.getByUsername t.localAccount account.username).isSome ||
          (find t credential.userId).isSome then
        .error .database
      else
        pure ((), { t with
            localAccount := t.localAccount ++ [account]
            passwordCredential := t.passwordCredential ++ [freshRow credential changedAt] })

/-- `UPDATE session_credential SET revoked_at` for one session. The token of a session that is
issued after the time breaks a constraint of the table. -/
def revokeTokens (sessionId : SessionId) (revokedAt : Nat) (rows : List SessionCredentialRow) :
    Except SqliteLocalAccountAdministrationRepositoryError (List SessionCredentialRow) :=
  if rows.any fun row => row.sessionId = sessionId && row.revokedAt.isNone &&
      revokedAt < row.issuedAt then
    .error .database
  else
    .ok (rows.map fun row =>
      if row.sessionId = sessionId ∧ row.revokedAt = none then
        { row with revokedAt := some revokedAt }
      else row)

def revokeSession (userId : UserId) (revokedAt : Nat) (t : IdentityTables) (sessionId : SessionId) :
    Except SqliteLocalAccountAdministrationRepositoryError IdentityTables :=
  match AccountSessionRegistry.get t.accountSession sessionId with
  | none => .error (.sessionStateMismatch sessionId)
  | some session =>
    if session.userId = userId ∧ session.revokedAt = none then
      match session.revoke ⟨revokedAt⟩ with
      | (.error _, _) => .error .database
      | (.ok _, revoked) => do
        let sessionCredential ← revokeTokens sessionId revokedAt t.sessionCredential
        pure { t with
          accountSession := Table.put AccountSession.sessionId t.accountSession revoked
          sessionCredential }
    else .error (.sessionStateMismatch sessionId)

def replacePasswordAndRevokeSessions (credential : PasswordCredentialRecord)
    (sessionIds : List SessionId) (revokedAt : UnixTimestamp) (t : IdentityTables) : Result Unit :=
  Except.commit t do
    let changedAt ← writeTimestamp "changed_at" credential.changedAt
    let revokedAt ← writeTimestamp "revoked_at" revokedAt
    match find t credential.userId with
    | none => .error .credentialMissing
    | some _ =>
      let t' ← sessionIds.foldlM (revokeSession credential.userId revokedAt)
        (put t (freshRow credential changedAt))
      pure ((), t')

/-- One session is revoked; of the other tables only that of the tokens changes. -/
theorem revokeSession_eq_ok (h : revokeSession user revokedAt t sid = .ok t') :
    ∃ session tokens, AccountSessionRegistry.get t.accountSession sid = some session ∧
      session.userId = user ∧ session.revokedAt = none ∧
      (session.revoke ⟨revokedAt⟩).2.revokedAt ≠ none ∧
      t' = { t with
        accountSession :=
          Table.put AccountSession.sessionId t.accountSession (session.revoke ⟨revokedAt⟩).2
        sessionCredential := tokens } := by
  unfold revokeSession at h
  split at h
  · cases h
  · next session hf =>
    split at h
    · next hlive =>
      split at h
      · cases h
      · next revoked hr =>
        obtain ⟨tokens, -, h⟩ := Except.bind_eq_ok.mp h
        cases h
        refine ⟨session, tokens, hf, hlive.1, hlive.2, ?_, by rw [hr]⟩
        exact AccountSession.revoke_ok (congrArg Prod.fst hr)
    · cases h

theorem revokeSessions_frame {sids : List SessionId}
    (h : sids.foldlM (revokeSession user revokedAt) t = .ok t') :
    t'.passwordCredential = t.passwordCredential ∧ t'.localAccount = t.localAccount := by
  refine Except.foldlM_rel (R := fun t _ t' => t'.passwordCredential = t.passwordCredential ∧
      t'.localAccount = t.localAccount) (fun _ => ⟨rfl, rfl⟩) (fun t sid t' _ _ hs hl => ?_) h
  obtain ⟨_, _, -, -, -, -, rfl⟩ := revokeSession_eq_ok hs
  exact hl

end SqliteLocalAccountAdministrationRepository

/-! ## Session credentials -/

/-- The session that a token belongs to, unless it was revoked. -/
def SqliteSessionCredentialRepository.resolve (digest : SessionTokenDigest) (t : IdentityTables) :
    Option SessionId :=
  (t.sessionCredential.find? fun row => row.tokenDigest = digest && row.revokedAt.isNone).map
    (·.sessionId)

/-! ## Browser sessions -/

inductive BrowserSessionError where
  | storage | invalidProof
  deriving DecidableEq

namespace SqliteBrowserSessionRepository

open SqlitePasswordCredentialRepository (find)

abbrev Result (α : Type) := Except BrowserSessionError α × IdentityTables

/-- The account of the proof is active and the verifier of the proof is the stored one. -/
def proofIsValid (t : IdentityTables) (proof : VerifiedLocalAccount) : Bool :=
  (t.localAccount.any fun a => a.userId = proof.userId && a.status = .active) &&
    (t.passwordCredential.any fun row =>
      row.userId = proof.userId && row.passwordHash = proof.passwordHash)

/-- The ids of the session and of its token are those that the generators drew. -/
def create (sessionId : SessionId) (token : SessionTokenDigest) (proof : VerifiedLocalAccount)
    (expiresAt : UnixTimestamp) (t : IdentityTables) : Result Unit :=
  Except.commit t do
    let issuedAt ← sqliteTimestamp .invalidProof proof.authenticatedAt
    let _ ← sqliteTimestamp .invalidProof expiresAt
    match AccountSession.restore sessionId proof.userId proof.authenticatedAt proof.authenticatedAt
        (some proof.authenticatedAt) expiresAt none with
    | .error _ => .error .invalidProof
    | .ok session =>
      if !proofIsValid t proof then .error .invalidProof
      else if (AccountSessionRegistry.get t.accountSession sessionId).isSome ||
          t.sessionCredential.any (·.tokenDigest = token) then
        .error .storage
      else
        pure ((), { t with
            accountSession := t.accountSession ++ [session]
            sessionCredential := t.sessionCredential ++ [⟨token, sessionId, issuedAt, none⟩] })

/-- The later of the two times, which the constraint on the session admits. -/
def endSession (sessionId : SessionId) (now : UnixTimestamp) (session : AccountSession) :
    AccountSession :=
  if session.sessionId = sessionId then (session.revoke (now.max session.authenticatedAt)).2
  else session

def revoke (token : SessionTokenDigest) (now : UnixTimestamp) (t : IdentityTables) : Result Unit :=
  Except.commit t do
    let at_ ← sqliteTimestamp .storage now
    match t.sessionCredential.find? (·.tokenDigest = token) with
    | none => pure ((), t)
    | some row =>
      pure ((), { t with
          accountSession := t.accountSession.map (endSession row.sessionId now)
          sessionCredential := t.sessionCredential.map fun r =>
            if r.sessionId = row.sessionId ∧ r.revokedAt = none then
              { r with revokedAt := some (max at_ r.issuedAt) }
            else r })

theorem endSession_later (sid : SessionId) (now : UnixTimestamp) (session : AccountSession) :
    AccountSession.Later session (endSession sid now session) := by
  unfold endSession
  split
  · exact session.revoke_later _
  · exact .refl session

end SqliteBrowserSessionRepository

end Rumahl
