import Rumahl.Core.Manifest
import Rumahl.Data.Table
import Rumahl.Effect.Prog

/-!
# Local accounts and their sessions

`AccountState` holds the accounts and the sessions. Its methods change it in place, so each of them
is a function to a result and the state that is left, also where the result is an error: revoking
the sessions of a user stops in the middle when a session refuses the time, and it is up to the
callers to work on a copy. `reachable_valid` says what holds after every sequence of calls,
`disabled_stays_unavailable` which of them keep a disabled account out.
-/

namespace Rumahl

open Effect List Except Table

structure SessionId where
  value : Nat
  deriving DecidableEq

/-! ## Accounts -/

inductive AccountUsernameError where
  | empty
  | tooLong
  | invalidStart
  | invalidEnd
  | invalidCharacter (character : Char)
  deriving DecidableEq

def AccountUsername.isCharacter (c : Char) : Bool :=
  c.isAlphanum || c == '.' || c == '_' || c == '-'

def AccountUsername.check (s : String) : Except AccountUsernameError Unit :=
  match s.toList with
  | [] => .error .empty
  | first :: rest =>
    if 32 < byteLength (first :: rest) then .error .tooLong
    else if !first.isAlphanum then .error .invalidStart
    else if !((first :: rest).getLast (cons_ne_nil _ _)).isAlphanum then .error .invalidEnd
    else
      match (first :: rest).find? fun c => !isCharacter c with
      | some c => .error (.invalidCharacter c)
      | none => .ok ()

abbrev AccountUsername := Checked AccountUsername.check

def toAsciiLowercase (s : String) : String := String.ofList (s.toList.map Char.toLower)

def AccountUsername.parse (value : String) : Except AccountUsernameError AccountUsername :=
  Checked.parse check (toAsciiLowercase (trim value))

inductive AccountStatus where
  | active | locked | disabled
  deriving DecidableEq

/-- The Unicode category of control characters. -/
def isControl (c : Char) : Bool := c.toNat < 0x20 || (0x7F ≤ c.toNat && c.toNat < 0xA0)

structure LocalAccount where
  userId : UserId
  username : AccountUsername
  displayName : String
  status : AccountStatus
  displayName_label : IsLabel 128 displayName
  displayName_printable : displayName.toList.any isControl = false
  deriving DecidableEq

inductive LocalAccountError where
  | invalidUsername (error : AccountUsernameError)
  | emptyDisplayName
  | displayNameTooLong
  | displayNameContainsControlCharacter
  deriving DecidableEq

namespace LocalAccount

def restore (userId : UserId) (username : AccountUsername) (displayName : String)
    (status : AccountStatus) : Except LocalAccountError LocalAccount :=
  match label 128 displayName with
  | .error .empty => .error .emptyDisplayName
  | .error .tooLong => .error .displayNameTooLong
  | .ok name =>
    if h : name.1.toList.any isControl = true then .error .displayNameContainsControlCharacter
    else .ok
      { userId, username, displayName := name.1, status, displayName_label := name.2
        displayName_printable := by simpa using h }

/-- A new account, with the id that the generator drew for it. -/
def create (userId : UserId) (username displayName : String) :
    Except LocalAccountError LocalAccount := do
  let username ← (AccountUsername.parse username).mapError .invalidUsername
  restore userId username displayName .active

def canAuthenticate (account : LocalAccount) : Bool := account.status = .active

theorem create_active (h : create user name display = .ok account) :
    account.status = .active := by
  obtain ⟨_, -, h⟩ := bind_eq_ok.mp h
  unfold restore at h
  split at h
  · cases h
  · cases h
  · split at h
    · cases h
    · cases h
      rfl

end LocalAccount

inductive AccountRegistryError where
  | userAlreadyRegistered | usernameAlreadyRegistered
  deriving DecidableEq

namespace AccountRegistry

def get (accounts : List LocalAccount) (userId : UserId) : Option LocalAccount :=
  Table.find LocalAccount.userId accounts userId

def getByUsername (accounts : List LocalAccount) (username : AccountUsername) :
    Option LocalAccount :=
  Table.find LocalAccount.username accounts username

def register (accounts : List LocalAccount) (account : LocalAccount) :
    Except AccountRegistryError (List LocalAccount) :=
  if (get accounts account.userId).isSome then .error .userAlreadyRegistered
  else if (getByUsername accounts account.username).isSome then .error .usernameAlreadyRegistered
  else .ok (accounts ++ [account])

/-- `set_status` on the account that `get_mut` finds. -/
def setStatus (accounts : List LocalAccount) (account : LocalAccount) (status : AccountStatus) :
    List LocalAccount :=
  Table.put LocalAccount.userId accounts { account with status }

theorem register_eq_ok :
    register accounts account = .ok accounts' ↔
      (∀ b ∈ accounts, b.userId ≠ account.userId) ∧
        (∀ b ∈ accounts, b.username ≠ account.username) ∧ accounts' = accounts ++ [account] := by
  unfold register get getByUsername
  simp only [Option.isSome_iff_ne_none, ne_eq, find_eq_none]
  split_ifs with h1 h2
  · exact ⟨fun h => ⟨h1, h2, (Except.ok.inj h).symm⟩, fun h => h.2.2 ▸ rfl⟩
  · exact ⟨(nomatch ·), fun h => absurd h.2.1 h2⟩
  · exact ⟨(nomatch ·), fun h => absurd h.1 h1⟩

theorem get_setStatus_self (h : get accounts user = some account) :
    get (setStatus accounts account status) user = some { account with status } := by
  obtain rfl := key_of_find h
  exact find_put_self h

theorem get_setStatus_ne (h : get accounts user = some account) (hne : user' ≠ user) :
    get (setStatus accounts account status) user' = get accounts user' := by
  obtain rfl := key_of_find h
  exact find_put_ne hne

theorem map_setStatus (f : LocalAccount → β) (status : AccountStatus)
    (hk : Table.Keyed LocalAccount.userId accounts) (h : get accounts user = some account)
    (hf : f { account with status } = f account) :
    (setStatus accounts account status).map f = accounts.map f := by
  obtain ⟨hm, -⟩ := (find_eq_some hk).mp h
  rw [setStatus, Table.put, map_map]
  refine map_congr_left fun b hb => ?_
  simp only [Function.comp_apply]
  split_ifs with hid
  · rw [hf, hk.eq hb hm hid]
  · rfl

end AccountRegistry

open AccountRegistry

/-! ## Sessions -/

/-- A session with its times in order. -/
structure AccountSession where
  sessionId : SessionId
  userId : UserId
  authenticatedAt : UnixTimestamp
  lastSeenAt : UnixTimestamp
  reauthenticatedAt : Option UnixTimestamp
  expiresAt : UnixTimestamp
  revokedAt : Option UnixTimestamp
  lastSeen_ge : authenticatedAt ≤ lastSeenAt
  lastSeen_lt : lastSeenAt < expiresAt
  reauthenticated : ∀ t ∈ reauthenticatedAt, authenticatedAt ≤ t ∧ t ≤ lastSeenAt
  revoked : ∀ t ∈ revokedAt, authenticatedAt ≤ t
  deriving DecidableEq

open AccountSession

inductive AccountSessionError where
  | accountUnavailable
  | expiryNotAfterAuthentication
  | lastSeenBeforeAuthentication
  | lastSeenAtOrAfterExpiry
  | reauthenticationBeforeAuthentication
  | reauthenticationAfterLastSeen
  | revocationBeforeAuthentication
  | observationMovedBackwards
  | sessionExpired
  | sessionRevoked
  deriving DecidableEq

namespace AccountSession

def restore (sessionId : SessionId) (userId : UserId) (authenticatedAt lastSeenAt : UnixTimestamp)
    (reauthenticatedAt : Option UnixTimestamp) (expiresAt : UnixTimestamp)
    (revokedAt : Option UnixTimestamp) : Except AccountSessionError AccountSession :=
  if expiresAt ≤ authenticatedAt then .error .expiryNotAfterAuthentication
  else if h1 : lastSeenAt < authenticatedAt then .error .lastSeenBeforeAuthentication
  else if h2 : expiresAt ≤ lastSeenAt then .error .lastSeenAtOrAfterExpiry
  else if h3 : ∃ t ∈ reauthenticatedAt, t < authenticatedAt then
    .error .reauthenticationBeforeAuthentication
  else if h4 : ∃ t ∈ reauthenticatedAt, lastSeenAt < t then .error .reauthenticationAfterLastSeen
  else if h5 : ∃ t ∈ revokedAt, t < authenticatedAt then .error .revocationBeforeAuthentication
  else .ok
    { sessionId, userId, authenticatedAt, lastSeenAt, reauthenticatedAt, expiresAt, revokedAt
      lastSeen_ge := UnixTimestamp.not_lt.mp h1
      lastSeen_lt := Nat.not_le.mp h2
      reauthenticated := fun t ht =>
        ⟨UnixTimestamp.not_lt.mp fun h => h3 ⟨t, ht, h⟩,
          UnixTimestamp.not_lt.mp fun h => h4 ⟨t, ht, h⟩⟩
      revoked := fun t ht => UnixTimestamp.not_lt.mp fun h => h5 ⟨t, ht, h⟩ }

/-- A new session, with the id that the generator drew for it. -/
def start (sessionId : SessionId) (account : LocalAccount)
    (authenticatedAt expiresAt : UnixTimestamp) : Except AccountSessionError AccountSession :=
  if !account.canAuthenticate then .error .accountUnavailable
  else restore sessionId account.userId authenticatedAt authenticatedAt (some authenticatedAt)
    expiresAt none

theorem restore_eq_ok (h : restore sid user t1 t2 t3 t4 t5 = .ok session) :
    session.sessionId = sid ∧ session.userId = user ∧ session.revokedAt = t5 := by
  unfold restore at h
  split_ifs at h
  cases h
  exact ⟨rfl, rfl, rfl⟩

theorem start_eq_ok (h : start sid account t t' = .ok session) :
    account.status = .active ∧ session.userId = account.userId := by
  unfold start at h
  split_ifs at h with hs
  exact ⟨by simpa [LocalAccount.canAuthenticate] using hs, (restore_eq_ok h).2.1⟩

def ensureObservation (session : AccountSession) (t : UnixTimestamp) :
    Except AccountSessionError Unit :=
  if session.revokedAt.isSome then .error .sessionRevoked
  else if t < session.lastSeenAt then .error .observationMovedBackwards
  else if session.expiresAt ≤ t then .error .sessionExpired
  else .ok ()

theorem ensureObservation_eq_ok {session : AccountSession} :
    session.ensureObservation t = .ok () ↔
      session.revokedAt = none ∧ session.lastSeenAt ≤ t ∧ t < session.expiresAt := by
  unfold ensureObservation
  split_ifs with h1 h2 h3
  · simp [Option.ne_none_iff_isSome.mpr h1]
  · exact ⟨(nomatch ·), fun h => absurd h2 (UnixTimestamp.not_lt.mpr h.2.1)⟩
  · exact ⟨(nomatch ·), fun h => absurd h.2.2 (UnixTimestamp.not_lt.mpr h3)⟩
  · exact ⟨fun _ => ⟨by simpa using h1, UnixTimestamp.not_lt.mp h2, Nat.not_le.mp h3⟩, fun _ => rfl⟩

/-- The session, seen at a time that `ensureObservation` admits. -/
def seen (session : AccountSession) (t : UnixTimestamp)
    (h : session.ensureObservation t = .ok ()) : AccountSession where
  __ := session
  lastSeenAt := t
  lastSeen_ge := UnixTimestamp.le_trans session.lastSeen_ge (ensureObservation_eq_ok.mp h).2.1
  lastSeen_lt := (ensureObservation_eq_ok.mp h).2.2
  reauthenticated u hu :=
    ⟨(session.reauthenticated u hu).1,
      UnixTimestamp.le_trans (session.reauthenticated u hu).2 (ensureObservation_eq_ok.mp h).2.1⟩

def touch (session : AccountSession) (t : UnixTimestamp) :
    Except AccountSessionError Unit × AccountSession :=
  match h : session.ensureObservation t with
  | .error e => (.error e, session)
  | .ok () => (.ok (), session.seen t h)

def reauthenticate (session : AccountSession) (t : UnixTimestamp) :
    Except AccountSessionError Unit × AccountSession :=
  match h : session.ensureObservation t with
  | .error e => (.error e, session)
  | .ok () =>
    (.ok (),
      { session.seen t h with
        reauthenticatedAt := some t
        reauthenticated := fun u hu => by
          cases hu
          exact ⟨(session.seen t h).lastSeen_ge, UnixTimestamp.le_refl _⟩ })

def revoke (session : AccountSession) (t : UnixTimestamp) :
    Except AccountSessionError Bool × AccountSession :=
  if h : t < session.authenticatedAt then (.error .revocationBeforeAuthentication, session)
  else if session.revokedAt.isSome then (.ok false, session)
  else
    (.ok true,
      { session with
        revokedAt := some t
        revoked := fun u hu => by
          cases hu
          exact UnixTimestamp.not_lt.mp h })

/-- What a method of the session leaves: the same session, and revoked if it was. -/
structure Later (session session' : AccountSession) : Prop where
  sessionId : session'.sessionId = session.sessionId
  userId : session'.userId = session.userId
  revokedAt : session'.revokedAt = none → session.revokedAt = none

theorem Later.refl (session : AccountSession) : Later session session := ⟨rfl, rfl, id⟩

theorem touch_later (session : AccountSession) (t : UnixTimestamp) :
    Later session (session.touch t).2 := by
  unfold touch
  split
  · exact .refl session
  · exact ⟨rfl, rfl, id⟩

theorem reauthenticate_later (session : AccountSession) (t : UnixTimestamp) :
    Later session (session.reauthenticate t).2 := by
  unfold reauthenticate
  split
  · exact .refl session
  · exact ⟨rfl, rfl, id⟩

theorem revoke_later (session : AccountSession) (t : UnixTimestamp) :
    Later session (session.revoke t).2 := by
  unfold revoke
  split_ifs
  · exact .refl session
  · exact .refl session
  · exact ⟨rfl, rfl, (nomatch ·)⟩

theorem touch_error {session : AccountSession} (h : (session.touch t).1 = .error e) :
    (session.touch t).2 = session := by
  unfold touch at h ⊢
  split
  · rfl
  · split at h
    · simp_all
    · cases h

theorem reauthenticate_error {session : AccountSession}
    (h : (session.reauthenticate t).1 = .error e) : (session.reauthenticate t).2 = session := by
  unfold reauthenticate at h ⊢
  split
  · rfl
  · split at h
    · simp_all
    · cases h

theorem revoke_error {session : AccountSession} (h : (session.revoke t).1 = .error e) :
    (session.revoke t).2 = session := by
  unfold revoke at h ⊢
  split_ifs at h ⊢
  rfl

theorem revoke_ok {session : AccountSession} (h : (session.revoke t).1 = .ok b) :
    (session.revoke t).2.revokedAt ≠ none := by
  unfold revoke at h ⊢
  split_ifs at h ⊢ with _ hs
  · exact Option.isSome_iff_ne_none.mp hs
  · simp

end AccountSession

inductive AccountSessionRegistryError where
  | sessionAlreadyRegistered
  | invalidSession (error : AccountSessionError)
  deriving DecidableEq

namespace AccountSessionRegistry

def get (sessions : List AccountSession) (sessionId : SessionId) : Option AccountSession :=
  Table.find AccountSession.sessionId sessions sessionId

def register (sessions : List AccountSession) (session : AccountSession) :
    Except AccountSessionRegistryError (List AccountSession) :=
  if (get sessions session.sessionId).isSome then .error .sessionAlreadyRegistered
  else .ok (sessions ++ [session])

/-- How many sessions were revoked, and the sessions. On an error those before the one that refused
have been revoked. -/
def revokeForUser (userId : UserId) (t : UnixTimestamp) : List AccountSession →
    Except AccountSessionRegistryError Nat × List AccountSession
  | [] => (.ok 0, [])
  | session :: sessions =>
    if session.userId = userId then
      match session.revoke t with
      | (.error e, session) => (.error (.invalidSession e), session :: sessions)
      | (.ok revoked, session) =>
        match revokeForUser userId t sessions with
        | (.error e, sessions) => (.error e, session :: sessions)
        | (.ok n, sessions) => (.ok (if revoked then n + 1 else n), session :: sessions)
    else ((revokeForUser userId t sessions).1, session :: (revokeForUser userId t sessions).2)

theorem register_eq_ok :
    register sessions session = .ok sessions' ↔
      (∀ x ∈ sessions, x.sessionId ≠ session.sessionId) ∧ sessions' = sessions ++ [session] := by
  unfold register get
  simp only [Option.isSome_iff_ne_none, ne_eq, find_eq_none]
  split_ifs with h
  · exact ⟨fun h' => ⟨h, (Except.ok.inj h').symm⟩, fun h' => h'.2 ▸ rfl⟩
  · exact ⟨(nomatch ·), fun h' => absurd h'.1 h⟩

/-- No session of the user is live. -/
def NoLive (user : UserId) (sessions : List AccountSession) : Prop :=
  ∀ x ∈ sessions, x.userId = user → x.revokedAt ≠ none

theorem revokeForUser_eq_ok (h : revokeForUser user t sessions = (.ok n, sessions')) :
    List.Forall₂ AccountSession.Later sessions sessions' ∧ NoLive user sessions' := by
  induction sessions generalizing n sessions' with
  | nil =>
    cases h
    exact ⟨.nil, fun _ hx => (nomatch hx)⟩
  | cons session sessions ih =>
    unfold revokeForUser at h
    split_ifs at h with hu
    · have hlater := session.revoke_later t
      have hok := fun b => session.revoke_ok (t := t) (b := b)
      split at h
      · cases h
      · next b x hx =>
        rw [hx] at hlater hok
        split at h
        · cases h
        · next hrest =>
          cases h
          obtain ⟨hall, hlive⟩ := ih hrest
          exact ⟨.cons hlater hall, forall_mem_cons.mpr ⟨fun _ => hok b rfl, hlive⟩⟩
    · obtain ⟨h1, rfl⟩ := Prod.mk.inj h
      obtain ⟨hall, hlive⟩ := ih (Prod.ext h1 rfl)
      exact ⟨.cons (.refl _) hall, forall_mem_cons.mpr ⟨fun h => absurd h hu, hlive⟩⟩

end AccountSessionRegistry

open AccountSessionRegistry

/-! ## The state -/

structure AccountState where
  accounts : List LocalAccount := []
  sessions : List AccountSession := []
  deriving DecidableEq

inductive AccountStateError where
  | invalidAccount (error : LocalAccountError)
  | invalidSession (error : AccountSessionError)
  | accountRegistry (error : AccountRegistryError)
  | sessionRegistry (error : AccountSessionRegistryError)
  | accountNotFound
  | accountUnavailable
  | sessionReferencesUnknownAccount
  | unavailableAccountHasLiveSession
  deriving DecidableEq

namespace AccountState

def restoreAccount (s : AccountState) (account : LocalAccount) :
    Except AccountStateError AccountState := do
  let accounts ← (register s.accounts account).mapError .accountRegistry
  pure { s with accounts }

def restoreSession (s : AccountState) (session : AccountSession) :
    Except AccountStateError AccountState :=
  match AccountRegistry.get s.accounts session.userId with
  | none => .error .sessionReferencesUnknownAccount
  | some account =>
    if !account.canAuthenticate && session.revokedAt.isNone then
      .error .unavailableAccountHasLiveSession
    else do
      let sessions ← (register s.sessions session).mapError .sessionRegistry
      pure { s with sessions }

def restore (accounts : List LocalAccount) (sessions : List AccountSession) :
    Except AccountStateError AccountState := do
  let s ← accounts.foldlM restoreAccount {}
  sessions.foldlM restoreSession s

def createAccount (userId : UserId) (username displayName : String) (s : AccountState) :
    Except AccountStateError UserId × AccountState :=
  Except.commit s do
    let account ← (LocalAccount.create userId username displayName).mapError .invalidAccount
    let accounts ← (register s.accounts account).mapError .accountRegistry
    pure (account.userId, { s with accounts })

def startSession (sessionId : SessionId) (userId : UserId)
    (authenticatedAt expiresAt : UnixTimestamp) (s : AccountState) :
    Except AccountStateError SessionId × AccountState :=
  match AccountRegistry.get s.accounts userId with
  | none => (.error .accountNotFound, s)
  | some account =>
    if !account.canAuthenticate then (.error .accountUnavailable, s)
    else Except.commit s do
      let session ← (start sessionId account authenticatedAt expiresAt).mapError
        .invalidSession
      let sessions ← (register s.sessions session).mapError .sessionRegistry
      pure (session.sessionId, { s with sessions })

/-- The sessions are revoked in a copy, which takes the place of the state if none refuses. -/
def revokeStaged (staged : AccountState) (userId : UserId) (t : UnixTimestamp) (s : AccountState) :
    Except AccountStateError Nat × AccountState :=
  match revokeForUser userId t staged.sessions with
  | (.error e, _) => (.error (.sessionRegistry e), s)
  | (.ok n, sessions) => (.ok n, { staged with sessions })

def setUnavailable (userId : UserId) (status : AccountStatus) (t : UnixTimestamp)
    (s : AccountState) : Except AccountStateError Nat × AccountState :=
  match AccountRegistry.get s.accounts userId with
  | none => (.error .accountNotFound, s)
  | some account =>
    revokeStaged { s with accounts := setStatus s.accounts account status } userId t
      s

def lockAccount (userId : UserId) (t : UnixTimestamp) (s : AccountState) :
    Except AccountStateError Nat × AccountState :=
  setUnavailable userId .locked t s

def disableAccount (userId : UserId) (t : UnixTimestamp) (s : AccountState) :
    Except AccountStateError Nat × AccountState :=
  setUnavailable userId .disabled t s

def unlockAccount (userId : UserId) (s : AccountState) :
    Except AccountStateError Unit × AccountState :=
  match AccountRegistry.get s.accounts userId with
  | none => (.error .accountNotFound, s)
  | some account =>
    if account.status = .disabled then (.error .accountUnavailable, s)
    else (.ok (), { s with accounts := setStatus s.accounts account .active })

def revokeSessionsForUser (userId : UserId) (t : UnixTimestamp) (s : AccountState) :
    Except AccountStateError Nat × AccountState :=
  match AccountRegistry.get s.accounts userId with
  | none => (.error .accountNotFound, s)
  | some _ => revokeStaged s userId t s

end AccountState

/-! ## Sequences of calls -/

/-- A call on the state, or on the session with the given id. The ids of new accounts and sessions
are those that the generator draws. -/
inductive AccountCall where
  | createAccount (userId : UserId) (username displayName : String)
  | startSession (sessionId : SessionId) (userId : UserId)
    (authenticatedAt expiresAt : UnixTimestamp)
  | touch (sessionId : SessionId) (t : UnixTimestamp)
  | reauthenticate (sessionId : SessionId) (t : UnixTimestamp)
  | revoke (sessionId : SessionId) (t : UnixTimestamp)
  | revokeSessionsForUser (userId : UserId) (t : UnixTimestamp)
  | lockAccount (userId : UserId) (t : UnixTimestamp)
  | disableAccount (userId : UserId) (t : UnixTimestamp)
  | unlockAccount (userId : UserId)

inductive AccountCallError where
  | state (error : AccountStateError)
  | session (error : AccountSessionError)
  | noSuchSession

/-- The answer of a call without its value. -/
def AccountCall.answer (wrap : ε → AccountCallError) (r : Except ε α × AccountState) :
    Except AccountCallError Unit × AccountState :=
  ((r.1.map fun _ => ()).mapError wrap, r.2)

/-- Call a method of a session of the state. -/
def AccountState.onSession (sessionId : SessionId)
    (method : AccountSession → Except AccountSessionError α × AccountSession) (s : AccountState) :
    Except AccountCallError Unit × AccountState :=
  match AccountSessionRegistry.get s.sessions sessionId with
  | none => (.error .noSuchSession, s)
  | some session =>
    AccountCall.answer .session
      ((method session).1,
        { s with sessions := Table.put AccountSession.sessionId s.sessions (method session).2 })

def AccountCall.run (s : AccountState) :
    AccountCall → Except AccountCallError Unit × AccountState
  | createAccount userId username displayName =>
    answer .state (s.createAccount userId username displayName)
  | startSession sessionId userId authenticatedAt expiresAt =>
    answer .state (s.startSession sessionId userId authenticatedAt expiresAt)
  | touch sessionId t => s.onSession sessionId (·.touch t)
  | reauthenticate sessionId t => s.onSession sessionId (·.reauthenticate t)
  | revoke sessionId t => s.onSession sessionId (·.revoke t)
  | revokeSessionsForUser userId t => answer .state (s.revokeSessionsForUser userId t)
  | lockAccount userId t => answer .state (s.lockAccount userId t)
  | disableAccount userId t => answer .state (s.disableAccount userId t)
  | unlockAccount userId => answer .state (s.unlockAccount userId)

/-- What a call that succeeds does to the state. -/
inductive AccountState.Takes (s : AccountState) : AccountCall → AccountState → Prop
  | created (made : LocalAccount.create user name display = .ok account)
      (newUser : ∀ b ∈ s.accounts, b.userId ≠ account.userId)
      (newName : ∀ b ∈ s.accounts, b.username ≠ account.username) :
      Takes s (.createAccount user name display) { s with accounts := s.accounts ++ [account] }
  | started (found : AccountRegistry.get s.accounts user = some account)
      (made : start sid account t t' = .ok session)
      (new : ∀ x ∈ s.sessions, x.sessionId ≠ session.sessionId) :
      Takes s (.startSession sid user t t') { s with sessions := s.sessions ++ [session] }
  | aged (later : List.Forall₂ AccountSession.Later s.sessions xs) :
      Takes s c { s with sessions := xs }
  | unavailable (found : AccountRegistry.get s.accounts user = some account)
      (later : List.Forall₂ AccountSession.Later s.sessions xs)
      (noLive : AccountSessionRegistry.NoLive user xs)
      (call : c = .lockAccount user t ∧ status = .locked ∨
        c = .disableAccount user t ∧ status = .disabled) :
      Takes s c { accounts := setStatus s.accounts account status, sessions := xs }
  | unlocked (found : AccountRegistry.get s.accounts user = some account)
      (enabled : account.status ≠ .disabled) :
      Takes s (.unlockAccount user)
        { s with accounts := setStatus s.accounts account .active }

/-- What a call does: with an error, nothing. -/
structure AccountState.Does (s : AccountState) (c : AccountCall) (r : Except ε α × AccountState) :
    Prop where
  ok : r.1 = .ok a → s.Takes c r.2
  error : r.1 = .error e → r.2 = s

namespace AccountState

theorem Does.failed : Does s c ((.error e, s) : Except ε α × AccountState) :=
  ⟨(nomatch ·), fun _ => rfl⟩

theorem Does.done (h : Takes s c s') : Does s c ((.ok a, s') : Except ε α × AccountState) :=
  ⟨fun _ => h, (nomatch ·)⟩

theorem Does.answer (h : Does s c r) : Does s c (AccountCall.answer wrap r) := by
  obtain ⟨r, s'⟩ := r
  cases r with
  | error e => exact ⟨(nomatch ·), fun _ => h.error rfl⟩
  | ok a => exact ⟨fun _ => h.ok rfl, (nomatch ·)⟩

theorem commit_does {r : Except ε (α × AccountState)}
    (h : ∀ a s', r = .ok (a, s') → Takes s c s') : Does s c (Except.commit s r) := by
  cases r with
  | error e => exact .failed
  | ok r => exact .done (h r.1 r.2 rfl)

theorem createAccount_does (s : AccountState) :
    Does s (.createAccount user name display) (createAccount user name display s) := by
  refine commit_does fun u s' h => ?_
  obtain ⟨account, hmade, h⟩ := bind_eq_ok.mp h
  obtain ⟨accounts, hreg, h⟩ := bind_eq_ok.mp h
  obtain ⟨hu, hn, rfl⟩ := AccountRegistry.register_eq_ok.mp (mapError_eq_ok.mp hreg)
  cases h
  exact .created (mapError_eq_ok.mp hmade) hu hn

theorem startSession_does (s : AccountState) :
    Does s (.startSession sid user t t') (startSession sid user t t' s) := by
  unfold startSession
  split
  · exact .failed
  · next account hfound =>
    split_ifs
    · exact .failed
    · refine commit_does fun _ s' h => ?_
      obtain ⟨session, hmade, h⟩ := bind_eq_ok.mp h
      obtain ⟨sessions, hreg, h⟩ := bind_eq_ok.mp h
      obtain ⟨hnew, rfl⟩ :=
        AccountSessionRegistry.register_eq_ok.mp (mapError_eq_ok.mp hreg)
      cases h
      exact .started hfound (mapError_eq_ok.mp hmade) hnew

theorem revokeStaged_does
    (h : ∀ xs, List.Forall₂ AccountSession.Later staged.sessions xs →
      AccountSessionRegistry.NoLive user xs → Takes s c { staged with sessions := xs }) :
    Does s c (revokeStaged staged user t s) := by
  unfold revokeStaged
  split
  · exact .failed
  · next xs hr =>
    obtain ⟨hall, hlive⟩ := revokeForUser_eq_ok hr
    exact .done (h xs hall hlive)

theorem setUnavailable_does (s : AccountState)
    (hc : c = .lockAccount user t ∧ status = .locked ∨
      c = .disableAccount user t ∧ status = .disabled) :
    Does s c (setUnavailable user status t s) := by
  unfold setUnavailable
  split
  · exact .failed
  · next hfound => exact revokeStaged_does fun _ hall hlive => .unavailable hfound hall hlive hc

theorem lockAccount_does (s : AccountState) :
    Does s (.lockAccount user t) (lockAccount user t s) :=
  setUnavailable_does s (.inl ⟨rfl, rfl⟩)

theorem disableAccount_does (s : AccountState) :
    Does s (.disableAccount user t) (disableAccount user t s) :=
  setUnavailable_does s (.inr ⟨rfl, rfl⟩)

theorem unlockAccount_does (s : AccountState) :
    Does s (.unlockAccount user) (unlockAccount user s) := by
  unfold unlockAccount
  split
  · exact .failed
  · next hfound =>
    split_ifs with hd
    · exact .failed
    · exact .done (.unlocked hfound hd)

theorem revokeSessionsForUser_does (s : AccountState) :
    Does s (.revokeSessionsForUser user t) (revokeSessionsForUser user t s) := by
  unfold revokeSessionsForUser
  split
  · exact .failed
  · exact revokeStaged_does fun _ hall _ => .aged hall

/-- What holds of the state beyond what its accounts and sessions say on their own. -/
structure Valid (s : AccountState) : Prop where
  users : Table.Keyed LocalAccount.userId s.accounts
  usernames : Table.Keyed LocalAccount.username s.accounts
  sessions : Table.Keyed sessionId s.sessions
  owned : ∀ x ∈ s.sessions, ∃ account ∈ s.accounts, account.userId = x.userId
  live : ∀ x ∈ s.sessions, x.revokedAt = none →
    ∀ account ∈ s.accounts, account.userId = x.userId → account.status = .active

theorem forall₂_put {s : AccountState} (hv : s.Valid)
    (hf : AccountSessionRegistry.get s.sessions sid = some session)
    (h : AccountSession.Later session session') :
    List.Forall₂ AccountSession.Later s.sessions
      (Table.put sessionId s.sessions session') := by
  obtain ⟨hm, -⟩ := (find_eq_some hv.sessions).mp hf
  rw [Table.put, forall₂_map_right_iff, forall₂_same]
  intro x hx
  split_ifs with hid
  · rwa [hv.sessions.eq hx hm (hid.trans h.sessionId)]
  · exact .refl x

theorem onSession_does (hv : s.Valid)
    {method : AccountSession → Except AccountSessionError α × AccountSession}
    (hlater : ∀ x, AccountSession.Later x (method x).2)
    (herror : ∀ x e, (method x).1 = .error e → (method x).2 = x) :
    Does s c (s.onSession sid method) := by
  unfold onSession
  split
  · exact .failed
  · next session hf =>
    refine Does.answer ⟨fun _ => .aged (forall₂_put hv hf (hlater session)), fun he => ?_⟩
    have hid := ((find_eq_some hv.sessions).mp hf).2
    simp only [herror session _ he, put_self hv.sessions (hid ▸ hf)]

end AccountState

theorem AccountCall.run_does {s : AccountState} (hv : s.Valid) (c : AccountCall) :
    s.Does c (c.run s) := by
  cases c with
  | createAccount => exact s.createAccount_does.answer
  | startSession => exact s.startSession_does.answer
  | touch _ t =>
    exact AccountState.onSession_does hv (·.touch_later t) fun x _ => x.touch_error
  | reauthenticate _ t =>
    exact AccountState.onSession_does hv (·.reauthenticate_later t)
      fun x _ => x.reauthenticate_error
  | revoke _ t =>
    exact AccountState.onSession_does hv (·.revoke_later t) fun x _ => x.revoke_error
  | revokeSessionsForUser => exact s.revokeSessionsForUser_does.answer
  | lockAccount => exact s.lockAccount_does.answer
  | disableAccount => exact s.disableAccount_does.answer
  | unlockAccount => exact s.unlockAccount_does.answer

namespace AccountState

private theorem later_mem (h : List.Forall₂ AccountSession.Later xs ys) :
    ys.map sessionId = xs.map sessionId ∧
      ∀ y ∈ ys, ∃ x ∈ xs, AccountSession.Later x y := by
  induction h with
  | nil => exact ⟨rfl, fun _ h => (nomatch h)⟩
  | cons h _ ih =>
    refine ⟨by rw [map_cons, map_cons, ih.1, h.sessionId], ?_⟩
    refine forall_mem_cons.mpr ⟨⟨_, mem_cons_self, h⟩, fun y hy => ?_⟩
    obtain ⟨x, hx, hxy⟩ := ih.2 y hy
    exact ⟨x, mem_cons_of_mem _ hx, hxy⟩

theorem Valid.aged {s : AccountState} (hv : s.Valid)
    (h : List.Forall₂ AccountSession.Later s.sessions xs) : Valid { s with sessions := xs } where
  users := hv.users
  usernames := hv.usernames
  sessions := by
    rw [Table.Keyed, (later_mem h).1]
    exact hv.sessions
  owned y hy := by
    obtain ⟨x, hx, hxy⟩ := (later_mem h).2 y hy
    rw [hxy.userId]
    exact hv.owned x hx
  live y hy hr := by
    obtain ⟨x, hx, hxy⟩ := (later_mem h).2 y hy
    rw [hxy.userId]
    exact hv.live x hx (hxy.revokedAt hr)

/-- A status may be set if it is active or the account has no live session. -/
theorem Valid.setStatus {s : AccountState} (hv : s.Valid)
    (hf : AccountRegistry.get s.accounts user = some account)
    (h : status = .active ∨ AccountSessionRegistry.NoLive user s.sessions) :
    Valid { s with accounts := setStatus s.accounts account status } where
  users := hv.users.put _
  usernames := by
    rw [Table.Keyed, map_setStatus LocalAccount.username status hv.users hf rfl]
    exact hv.usernames
  sessions := hv.sessions
  owned x hx := by
    have hu := map_setStatus LocalAccount.userId status hv.users hf rfl
    rw [← mem_map, hu, mem_map]
    exact hv.owned x hx
  live x hx hr a ha hax := by
    obtain ⟨rfl, -⟩ | ⟨ha, -⟩ := Table.mem_put.mp ha
    · refine h.resolve_right fun hlive => hlive x hx ?_ hr
      rw [← hax]
      exact ((find_eq_some hv.users).mp hf).2
    · exact hv.live x hx hr a ha hax

theorem Takes.valid (h : Takes s c s') (hv : s.Valid) : s'.Valid := by
  cases h with
  | created made newUser newName =>
    refine ⟨Table.keyed_append.mpr ⟨hv.users, newUser⟩,
      Table.keyed_append.mpr ⟨hv.usernames, newName⟩, hv.sessions, fun x hx => ?_,
        fun x hx hr a ha hax => ?_⟩
    · obtain ⟨a, ha, hax⟩ := hv.owned x hx
      exact ⟨a, mem_append_left _ ha, hax⟩
    · cases mem_append.mp ha with
      | inl ha => exact hv.live x hx hr a ha hax
      | inr ha =>
        rw [mem_singleton.mp ha]
        exact LocalAccount.create_active made
  | @started _ account _ _ _ session found made new =>
    obtain ⟨hactive, huser⟩ := start_eq_ok made
    obtain ⟨hm, -⟩ := (find_eq_some hv.users).mp found
    refine ⟨hv.users, hv.usernames, Table.keyed_append.mpr ⟨hv.sessions, new⟩, fun x hx => ?_,
      fun x hx hr a ha hax => ?_⟩
    · cases mem_append.mp hx with
      | inl hx => exact hv.owned x hx
      | inr hx => exact ⟨account, hm, (mem_singleton.mp hx ▸ huser).symm⟩
    · cases mem_append.mp hx with
      | inl hx => exact hv.live x hx hr a ha hax
      | inr hx =>
        rw [mem_singleton.mp hx, huser] at hax
        rwa [hv.users.eq ha hm hax]
  | aged later => exact hv.aged later
  | unavailable found later noLive _ => exact (hv.aged later).setStatus found (.inr noLive)
  | unlocked found _ => exact hv.setStatus found (.inl rfl)

theorem Valid.empty : Valid {} where
  users := nodup_nil
  usernames := nodup_nil
  sessions := nodup_nil
  owned _ h := (nomatch h)
  live _ h := (nomatch h)

theorem Valid.run (hv : s.Valid) (c : AccountCall) : (c.run s).2.Valid := by
  cases h : (c.run s).1 with
  | ok _ => exact ((c.run_does hv).ok h).valid hv
  | error _ =>
    rw [(c.run_does hv).error h]
    exact hv

/-! ## Restoring a state -/

theorem restoreAccounts_eq (seen : List LocalAccount)
    (hu : Table.Keyed LocalAccount.userId (seen ++ as))
    (hn : Table.Keyed LocalAccount.username (seen ++ as)) :
    as.foldlM restoreAccount { accounts := seen } = .ok { accounts := seen ++ as } := by
  induction as generalizing seen with
  | nil =>
    rw [append_nil]
    rfl
  | cons account as ih =>
    rw [append_cons] at hu hn ⊢
    have hu' := (Table.keyed_append.mp hu.left).2
    have hn' := (Table.keyed_append.mp hn.left).2
    have hstep : restoreAccount { accounts := seen } account =
        .ok { accounts := seen ++ [account] } := by
      rw [restoreAccount, AccountRegistry.register_eq_ok.mpr ⟨hu', hn', rfl⟩]
      rfl
    rw [foldlM_cons, hstep]
    exact ih (seen ++ [account]) hu hn

theorem restoreSessions_eq (seen : List AccountSession)
    (hv : Valid { accounts := as, sessions := seen ++ xs }) :
    xs.foldlM restoreSession { accounts := as, sessions := seen } =
      .ok { accounts := as, sessions := seen ++ xs } := by
  induction xs generalizing seen with
  | nil =>
    rw [append_nil]
    rfl
  | cons session xs ih =>
    obtain ⟨account, ha, hax⟩ := hv.owned session (mem_append_right _ mem_cons_self)
    have hget : AccountRegistry.get as session.userId = some account :=
      (find_eq_some hv.users).mpr ⟨ha, hax⟩
    have hlive : ¬(!account.canAuthenticate && session.revokedAt.isNone) = true := by
      intro h
      simp only [Bool.and_eq_true, Option.isNone_iff_eq_none] at h
      have := hv.live session (mem_append_right _ mem_cons_self) h.2 account ha hax
      simp [LocalAccount.canAuthenticate, this] at h
    rw [append_cons] at hv ⊢
    have hnew := (Table.keyed_append.mp hv.sessions.left).2
    have hstep : restoreSession { accounts := as, sessions := seen } session =
        .ok { accounts := as, sessions := seen ++ [session] } := by
      simp only [restoreSession, hget, if_neg hlive,
        AccountSessionRegistry.register_eq_ok.mpr ⟨hnew, rfl⟩]
      rfl
    rw [foldlM_cons, hstep]
    exact ih (seen ++ [session]) hv

theorem Valid.restore (hv : s.Valid) : restore s.accounts s.sessions = .ok s := by
  rw [AccountState.restore, restoreAccounts_eq [] hv.users hv.usernames]
  exact restoreSessions_eq [] hv

theorem restoreSession_sessions (h : restoreSession s session = .ok s') :
    s'.sessions = s.sessions ++ [session] := by
  unfold restoreSession at h
  split at h
  · cases h
  · split_ifs at h
    obtain ⟨sessions, hreg, h⟩ := bind_eq_ok.mp h
    cases h
    exact (AccountSessionRegistry.register_eq_ok.mp (mapError_eq_ok.mp hreg)).2

theorem restore_sessions (h : restore as xs = .ok s) : s.sessions = xs := by
  obtain ⟨s1, has, h⟩ := bind_eq_ok.mp h
  have hempty : s1.sessions = [] :=
    foldlM_rel (R := fun s _ s' => s'.sessions = s.sessions) (fun _ => rfl)
      (fun s a s' _ _ ha hl => by
        obtain ⟨_, -, ha⟩ := bind_eq_ok.mp ha
        cases ha
        exact hl) has
  have hall : s.sessions = s1.sessions ++ xs :=
    foldlM_rel (R := fun s xs s' => s'.sessions = s.sessions ++ xs) (fun s => by simp)
      (fun s x s' l _ hx hl => by simp [hl, restoreSession_sessions hx]) h
  rw [hall, hempty, nil_append]

/-! ## The results -/

/-- The state after a sequence of calls, whether or not they succeed. -/
def afterCalls (calls : List AccountCall) (s : AccountState) : AccountState :=
  after (fun (c : AccountCall) s => (c.run s).2) calls s

theorem Valid.afterCalls {s : AccountState} (hv : s.Valid) (calls : List AccountCall) :
    (s.afterCalls calls).Valid :=
  Along.invariant (fun c _ hv _ => hv.run c)
    (Along.of_forall (fun _ _ => (trivial : True)) calls s) hv

/-- In every state that calls lead to from the empty one the ids are unique, the sessions have
accounts, those of unavailable accounts are revoked, and their times are in order. It is restored
from its accounts and sessions, and a call that fails leaves it as it is. -/
theorem reachable_valid (calls : List AccountCall) :
    let s := afterCalls calls {}
    s.Valid ∧
    (∀ x ∈ s.sessions, x.authenticatedAt ≤ x.lastSeenAt ∧ x.lastSeenAt < x.expiresAt ∧
      (∀ t ∈ x.reauthenticatedAt, x.authenticatedAt ≤ t ∧ t ≤ x.lastSeenAt) ∧
      ∀ t ∈ x.revokedAt, x.authenticatedAt ≤ t) ∧
    restore s.accounts s.sessions = .ok s ∧
    ∀ (c : AccountCall) e, (c.run s).1 = .error e → (c.run s).2 = s := by
  intro s
  have hv : s.Valid := Valid.empty.afterCalls calls
  refine ⟨hv, fun x _ => ?_, hv.restore, fun c _ => (c.run_does hv).error⟩
  exact ⟨x.lastSeen_ge, x.lastSeen_lt, x.reauthenticated, x.revoked⟩

def statusOf (s : AccountState) (user : UserId) : Option AccountStatus :=
  (AccountRegistry.get s.accounts user).map LocalAccount.status

theorem statusOf_setStatus_self {s : AccountState}
    (h : AccountRegistry.get s.accounts user = some account) :
    statusOf { accounts := setStatus s.accounts account status, sessions := xs }
      user = some status := by
  rw [statusOf, get_setStatus_self h]
  rfl

theorem statusOf_setStatus_ne {s : AccountState}
    (h : AccountRegistry.get s.accounts user = some account) (hne : user' ≠ user) :
    statusOf { accounts := setStatus s.accounts account status, sessions := xs }
      user' = s.statusOf user' := by
  rw [statusOf, get_setStatus_ne h hne]
  rfl

theorem startSession_of_disabled (h : statusOf s user = some .disabled) :
    (startSession sid user t t' s).1 = .error .accountUnavailable := by
  obtain ⟨account, hf, hs⟩ := Option.map_eq_some_iff.mp h
  simp [startSession, hf, LocalAccount.canAuthenticate, hs]

theorem Takes.disabled (h : Takes s c s') (hc : ∀ t, c ≠ .lockAccount user t)
    (hd : s.statusOf user = some .disabled) : s'.statusOf user = some .disabled := by
  cases h with
  | created _ _ _ =>
    obtain ⟨account, hf, hs⟩ := Option.map_eq_some_iff.mp hd
    rw [AccountRegistry.get, Table.find] at hf
    rw [statusOf, AccountRegistry.get, Table.find, List.find?_append, hf]
    exact congrArg some hs
  | started _ _ _ => exact hd
  | aged _ => exact hd
  | @unavailable user' _ _ _ _ t found _ _ call =>
    by_cases hu : user = user'
    · subst hu
      obtain ⟨rfl, -⟩ | ⟨-, rfl⟩ := call
      · exact absurd rfl (hc t)
      · exact statusOf_setStatus_self found
    · rw [statusOf_setStatus_ne found hu, hd]
  | @unlocked user' account found enabled =>
    by_cases hu : user = user'
    · subst hu
      rw [statusOf, found] at hd
      exact absurd (Option.some.inj hd) enabled
    · rw [statusOf_setStatus_ne found hu, hd]

end AccountState

/-- Also a call on a session of a state that is not valid leaves the accounts as they are. -/
theorem AccountState.onSession_accounts (s : AccountState)
    (method : AccountSession → Except AccountSessionError α × AccountSession) :
    (s.onSession sid method).2.accounts = s.accounts := by
  unfold onSession
  split <;> rfl

namespace AccountState

theorem Does.disabled (h : Does s c r) (hc : ∀ t, c ≠ .lockAccount user t)
    (hd : s.statusOf user = some .disabled) : r.2.statusOf user = some .disabled := by
  cases hr : r.1 with
  | ok _ => exact (h.ok hr).disabled hc hd
  | error _ => rwa [h.error hr]

theorem run_disabled (c : AccountCall) (hc : ∀ t, c ≠ .lockAccount user t)
    (hd : s.statusOf user = some .disabled) : (c.run s).2.statusOf user = some .disabled := by
  cases c with
  | createAccount => exact s.createAccount_does.answer.disabled hc hd
  | startSession => exact s.startSession_does.answer.disabled hc hd
  | touch | reauthenticate | revoke =>
    rw [statusOf, AccountCall.run, onSession_accounts]
    exact hd
  | revokeSessionsForUser => exact s.revokeSessionsForUser_does.answer.disabled hc hd
  | lockAccount => exact s.lockAccount_does.answer.disabled hc hd
  | disableAccount => exact s.disableAccount_does.answer.disabled hc hd
  | unlockAccount => exact s.unlockAccount_does.answer.disabled hc hd

/-- Calls among which it is not locked leave a disabled account disabled, and no session starts for
it. -/
theorem disabled_stays_unavailable (s : AccountState) (user : UserId) (calls : List AccountCall)
    (hd : s.statusOf user = some .disabled)
    (hcalls : ∀ t, AccountCall.lockAccount user t ∉ calls) :
    (s.afterCalls calls).statusOf user = some .disabled ∧
      ∀ sid t t', (startSession sid user t t' (s.afterCalls calls)).1 =
        .error .accountUnavailable := by
  have hafter : (s.afterCalls calls).statusOf user = some .disabled := by
    induction calls generalizing s with
    | nil => exact hd
    | cons c calls ih =>
      have hc : ∀ t, c ≠ .lockAccount user t := fun t h => hcalls t (h ▸ mem_cons_self)
      exact ih _ (run_disabled c hc hd) fun t h => hcalls t (mem_cons_of_mem _ h)
  exact ⟨hafter, fun _ _ _ => startSession_of_disabled hafter⟩

/-- A state with one disabled account. -/
def disabledKai : AccountState :=
  afterCalls [.createAccount ⟨1⟩ "kai" "Kai", .disableAccount ⟨1⟩ ⟨10⟩] {}

theorem disabled_kai_stays_unavailable :
    (disabledKai.afterCalls [.disableAccount ⟨1⟩ ⟨11⟩, .unlockAccount ⟨1⟩]).statusOf ⟨1⟩ =
      some .disabled :=
  (disabled_stays_unavailable disabledKai ⟨1⟩ _ (by decide +kernel) (by simp)).1

/-- Locking overwrites the status that unlocking asks for. -/
theorem disabled_kai_returns :
    disabledKai.statusOf ⟨1⟩ = some .disabled ∧
      let s := disabledKai.afterCalls [.lockAccount ⟨1⟩ ⟨11⟩, .unlockAccount ⟨1⟩]
      s.statusOf ⟨1⟩ = some .active ∧ (startSession ⟨7⟩ ⟨1⟩ ⟨12⟩ ⟨20⟩ s).1 = .ok ⟨7⟩ := by
  decide +kernel

end AccountState

end Rumahl
