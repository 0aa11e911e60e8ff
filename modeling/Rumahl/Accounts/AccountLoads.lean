import Rumahl.Accounts.Passwords

/-!
# Loading the accounts while others write

`SqliteAccountStateRepository::load` reads the accounts with one query and the sessions with
another, and checks the pair afterwards. Other connections may commit between the two queries. A
load is consistent, `load_consistent`, if no transaction changes the sessions in between once the
accounts have changed.
-/

namespace Rumahl

open Effect IdentityTables

/-! ## The repository -/

inductive SqliteAccountStateStoreError where
  | database
  | timestampOutsideSqliteRange (field : String) (value : Nat)

namespace SqliteAccountStateRepository

def writeTimestamp (field : String) (t : UnixTimestamp) :
    Except SqliteAccountStateStoreError Unit :=
  discard (sqliteTimestamp (.timestampOutsideSqliteRange field t.seconds) t)

def storeAccount (t : IdentityTables) (account : LocalAccount) :
    Except SqliteAccountStateStoreError IdentityTables :=
  if (AccountRegistry.get t.localAccount account.userId).isSome ||
      (AccountRegistry.getByUsername t.localAccount account.username).isSome then
    .error .database
  else .ok { t with localAccount := t.localAccount ++ [account] }

def storeSession (t : IdentityTables) (session : AccountSession) :
    Except SqliteAccountStateStoreError IdentityTables := do
  writeTimestamp "authenticated_at" session.authenticatedAt
  writeTimestamp "last_seen_at" session.lastSeenAt
  session.reauthenticatedAt.forM (writeTimestamp "reauthenticated_at")
  writeTimestamp "expires_at" session.expiresAt
  session.revokedAt.forM (writeTimestamp "revoked_at")
  if (AccountSessionRegistry.get t.accountSession session.sessionId).isSome ||
      (AccountRegistry.get t.localAccount session.userId).isNone then
    .error .database
  else pure { t with accountSession := t.accountSession ++ [session] }

/-- All accounts and sessions are replaced in one transaction. -/
def store (state : AccountState) (t : IdentityTables) :
    Except SqliteAccountStateStoreError Unit × IdentityTables :=
  Except.commit t do
    let t ← state.accounts.foldlM storeAccount { t with localAccount := [], accountSession := [] }
    let t ← state.sessions.foldlM storeSession t
    pure ((), t)

end SqliteAccountStateRepository

/-! ## Transactions of other connections -/

/-- A transaction that another connection commits. -/
inductive AccountCommit where
  | call (c : IdentityCall)
  | store (state : AccountState)

open AccountCommit

namespace AccountCommit

variable (lib : PasswordLibrary)

/-- The tables after the transaction, which are those before it if it was rolled back. -/
def apply : AccountCommit → IdentityTables → IdentityTables
  | .call c, t =>
    match c.run lib t with
    | some (_, t') => t'
    | none => t
  | .store state, t => (SqliteAccountStateRepository.store state t).2

/-- The database as one connection sees it: the decision at a call is what the other connections
commit before it. -/
def handler : Handler IdentityCall IdentityCall.Answer (List AccountCommit) IdentityTables where
  step c commits t := c.run lib (after (apply lib) commits t)

end AccountCommit

/-- The accounts and the sessions of one version of the database. -/
def IdentityTables.accountState (t : IdentityTables) : Except AccountStateError AccountState :=
  AccountState.restore t.selectAccounts t.selectSessions

/-- How a load ends that has read these accounts and sessions. -/
def loaded : Except AccountStateError AccountState →
    Exit SqliteAccountStateRepositoryError AccountState
  | .ok state => .done state
  | .error e => .failed (.invalidState e)

namespace AccountCommit

variable {lib : PasswordLibrary}

/-- The first query reads what is committed before it, the second one what is committed by then. -/
theorem exec_load (t : IdentityTables) (before between : List AccountCommit) :
    (exec (handler lib) (loadAccountState id) [before, between] t).1 =
      loaded (AccountState.restore (after (apply lib) before t).selectAccounts
        (after (apply lib) between (after (apply lib) before t)).selectSessions) := by
  have hrun : exec (handler lib) (loadAccountState id) [before, between] t =
      exec (handler lib) (Prog.ofExcept (id ∘ .invalidState)
        (AccountState.restore (after (apply lib) before t).selectAccounts
          (after (apply lib) between (after (apply lib) before t)).selectSessions)) []
        (after (apply lib) between (after (apply lib) before t)) := rfl
  rw [hrun]
  cases AccountState.restore _ _ with
  | ok state => rfl
  | error e => rfl

/-- A transaction that changes the sessions leaves the accounts at `accounts`. -/
def KeepsAccounts (lib : PasswordLibrary) (accounts : List LocalAccount) (c : AccountCommit)
    (t : IdentityTables) : Prop :=
  (c.apply lib t).accountSession = t.accountSession ∨ (c.apply lib t).localAccount = accounts

/-- Some version has both the accounts from the start and the sessions from the end. -/
theorem exists_version (h : Along (apply lib) (KeepsAccounts lib accounts) commits t)
    (ht : t.localAccount = accounts) :
    ∃ done rest, commits = done ++ rest ∧ (after (apply lib) done t).localAccount = accounts ∧
      (after (apply lib) done t).accountSession = (after (apply lib) commits t).accountSession := by
  induction commits using List.reverseRecOn with
  | nil => exact ⟨[], [], rfl, ht, rfl⟩
  | append_singleton cs c ih =>
    obtain ⟨hcs, hc, -⟩ := Along.append.mp h
    rw [after_append]
    obtain hkept | haccounts := hc
    · obtain ⟨done, rest, rfl, hdone, hsessions⟩ := ih hcs
      exact ⟨done, rest ++ [c], (List.append_assoc ..), hdone, hsessions.trans hkept.symm⟩
    · exact ⟨cs ++ [c], [], (List.append_nil _).symm, by rw [after_append]; exact haccounts,
        by rw [after_append]⟩

end AccountCommit

private theorem restore_accounts (h : AccountState.restore as xs = .ok s) : s.accounts = as := by
  obtain ⟨s1, has, h⟩ := Except.bind_eq_ok.mp h
  have hsame : s.accounts = s1.accounts :=
    Except.foldlM_rel (R := fun s _ s' => s'.accounts = s.accounts) (fun _ => rfl)
      (fun s x s' l s'' hx hl => by
        unfold AccountState.restoreSession at hx
        split at hx
        · cases hx
        · split_ifs at hx
          obtain ⟨_, -, hx⟩ := Except.bind_eq_ok.mp hx
          cases hx
          exact hl) h
  have hall : s1.accounts = [] ++ as :=
    Except.foldlM_rel (R := fun s as s' => s'.accounts = s.accounts ++ as) (fun s => by simp)
      (fun s a s' l s'' ha hl => by
        obtain ⟨accounts, hreg, ha⟩ := Except.bind_eq_ok.mp ha
        cases ha
        have := (AccountRegistry.register_eq_ok.mp (Except.mapError_eq_ok.mp hreg)).2.2
        simp [hl, this]) has
  rw [hsame, hall, List.nil_append]

/-- A load during which others commit ends as it would on one version of the database, if every
transaction in between that changes the sessions leaves the accounts as the load has read them. In
particular it succeeds if every version is a valid state. -/
theorem load_consistent (lib : PasswordLibrary) (t : IdentityTables)
    (before between : List AccountCommit)
    (h : Along (apply lib)
      (AccountCommit.KeepsAccounts lib (after (apply lib) before t).localAccount)
      between (after (apply lib) before t)) :
    (∃ done rest, between = done ++ rest ∧
      (exec (handler lib) (loadAccountState id) [before, between] t).1 =
        loaded (after (apply lib) (before ++ done) t).accountState) ∧
    ((∀ done rest, between = done ++ rest → ∃ state,
        (after (apply lib) (before ++ done) t).accountState = .ok state) →
      ∃ done rest state, between = done ++ rest ∧
        (exec (handler lib) (loadAccountState id) [before, between] t).1 =
          .done state ∧
        state.accounts = (after (apply lib) (before ++ done) t).selectAccounts ∧
        state.sessions = (after (apply lib) (before ++ done) t).selectSessions) := by
  obtain ⟨done, rest, hsplit, haccounts, hsessions⟩ := exists_version h rfl
  have hload : (exec (handler lib) (loadAccountState id) [before, between] t).1 =
      loaded (after (apply lib) (before ++ done) t).accountState := by
    rw [exec_load, accountState, after_append,
      selectAccounts, selectAccounts, haccounts,
      selectSessions, selectSessions, hsessions]
  refine ⟨⟨done, rest, hsplit, hload⟩, fun hvalid => ?_⟩
  obtain ⟨state, hstate⟩ := hvalid done rest hsplit
  refine ⟨done, rest, state, hsplit, by rw [hload, hstate]; rfl, ?_, ?_⟩
  · exact restore_accounts hstate
  · exact AccountState.restore_sessions hstate

/-- Kai's account is provisioned, and they log in. -/
def kaiArrives : List AccountCommit :=
  (kaiState.accounts.map fun kai =>
    .call (.provisionPasswordAccount kai ⟨⟨1⟩, ⟨"kai's verifier"⟩, ⟨0⟩⟩)) ++
  [.call (.createSession ⟨7⟩ ⟨9⟩ ⟨⟨1⟩, ⟨105⟩, ⟨"kai's verifier"⟩⟩ ⟨1000⟩)]

/-- Both happens between the two queries of a load. Every version of the database is a valid state,
but the load has the session without the account. -/
theorem load_between_commits :
    (exec (handler plainServices.lib) (loadAccountState id) [[], kaiArrives] {}).1 =
        .failed (.invalidState .sessionReferencesUnknownAccount) ∧
      ∀ n ≤ 2, (after (apply plainServices.lib)
        (kaiArrives.take n) {}).accountState.isOk = true := by
  decide +kernel

/-- Kai logs in, enters a wrong password, and logs in once more. -/
def kaiLogins : List AccountCommit :=
  [.call (.createSession ⟨7⟩ ⟨9⟩ ⟨⟨1⟩, ⟨105⟩, ⟨"kai's verifier"⟩⟩ ⟨1000⟩),
    .call (.beginAttempt ⟨1⟩ ⟨110⟩ plainServices.attemptPolicy),
    .call (.createSession ⟨8⟩ ⟨10⟩ ⟨⟨1⟩, ⟨115⟩, ⟨"kai's verifier"⟩⟩ ⟨1000⟩)]

/-- All of it happens between the two queries of a load that has read the account. -/
theorem load_around_logins : ∃ done rest, kaiLogins = done ++ rest ∧
      (exec (handler plainServices.lib) (loadAccountState id)
        [kaiArrives.take 1, kaiLogins] {}).1 =
        loaded (after (apply plainServices.lib) (kaiArrives.take 1 ++ done) {}).accountState :=
  (load_consistent plainServices.lib {} (kaiArrives.take 1) kaiLogins
    ⟨.inr (by decide +kernel), .inl (by decide +kernel), .inr (by decide +kernel), trivial⟩).1

end Rumahl
