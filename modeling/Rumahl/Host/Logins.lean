import Rumahl.Host.RestoreSafety
import Rumahl.Oidc.Stores

/-!
# Logins after a restore

A restore empties the tables that the stores of sessions and tokens look their keys up in, in every
database of the state volume, so that none of these is accepted afterwards
(`restore_revives_no_login`).
-/

namespace Rumahl.Host

open Effect Entries

/-! ## Databases without sessions -/

/-- No table with sessions or tokens has a row. -/
def SessionFree (data : FileData) : Prop :=
  ∀ content, data = .database content → ∀ t ∈ content, t.1 ∈ sessionTables → t.2 = []

theorem cleared_sessionFree (data : FileData) : SessionFree (cleared sessionTables data) := by
  intro content hdata t ht hname
  cases data with
  | database rows =>
    cases hdata
    obtain ⟨row, hrow, rfl⟩ := List.mem_map.mp ht
    by_cases h : row.1 ∈ sessionTables
    · simp [h]
    · simp [h] at hname
  | _ => cases hdata

/-- Every database in the root. -/
def DatabasesFree (es : List Entry) : Prop :=
  ∀ e ∈ es, ∀ name data, isDatabaseName name = true → e.path = [name] → e.node = .file data →
    SessionFree data

theorem Cleaned.databasesFree (h : Cleaned archive (databaseInodes archive) cleaned) :
    DatabasesFree cleaned := by
  intro e he name data hname hpath hnode
  obtain ⟨a, ha, rfl⟩ := (h e (hpath ▸ not_isJournal_database hname [])).mp he
  rw [clean_path] at hpath
  have hmem : a.inode ∈ databaseInodes archive :=
    mem_databaseInodes.mpr ⟨a, ha, name, hname, hpath, rfl⟩
  unfold clean at hnode
  split at hnode
  · rw [if_pos hmem] at hnode
    cases hnode
    exact cleared_sessionFree _
  · next hother => exact absurd hnode (hother data)

theorem Overwritten.databasesFree (h : Overwritten new es) (hnew : DatabasesFree new) :
    DatabasesFree es := by
  intro e he name data hname hpath hnode
  obtain ⟨f, hf, hfpath, hfnode | ⟨other, hother, heq⟩⟩ := h e he
  · exact hnew f hf name data hname (hfpath.trans hpath) (hfnode.symm.trans hnode)
  · cases heq.symm.trans hnode
    exact fun content hdata => absurd hdata (hother content)

theorem Settled.databasesFree (h : Settled new data es) (hnew : DatabasesFree new) :
    DatabasesFree es := by
  have hsettings : isDatabaseName settingsName = false := by decide
  intro e he name content hname hpath hnode
  have hne : name ≠ settingsName := by
    rintro rfl
    cases hname.symm.trans hsettings
  cases h with
  | replaced =>
    rcases List.mem_append.mp he with he | he
    · exact hnew e (mem_remove.mp he).1 name content hname hpath hnode
    · rw [List.mem_singleton.mp he] at hpath
      exact absurd (List.cons.inj hpath).1.symm hne
  | lost _ _ _ hrest =>
    refine hrest.databasesFree hnew e (mem_remove.mpr ⟨he, fun hp => ?_⟩) name content hname hpath
      hnode
    rw [hpath, List.cons_prefix_cons] at hp
    exact hne hp.1.symm

theorem Outcome.databasesFree (h : Outcome contents new) : DatabasesFree (new .state) := by
  obtain ⟨-, cleaned, hcleaned, hsettled⟩ := h
  exact hsettled.databasesFree hcleaned.databasesFree

/-! ## What the stores read -/

/-- The tables of a database in the root, as the stores find them. -/
def databaseTables (es : List Entry) (name : String) : List (String × List String) :=
  match (find [name] es).map Entry.node with
  | some (.file data) => (tables data).getD []
  | _ => []

def tableRows (table : String) (content : List (String × List String)) : List String :=
  ((content.find? fun t => t.1 = table).map Prod.snd).getD []

theorem DatabasesFree.tableRows (h : DatabasesFree es) (hname : isDatabaseName name = true)
    (htable : table ∈ sessionTables) : tableRows table (databaseTables es name) = [] := by
  have hnil : Host.tableRows table [] = [] := rfl
  unfold databaseTables
  cases hfind : find [name] es with
  | none => exact hnil
  | some e =>
    obtain ⟨he, hpath⟩ := find_eq_some hfind
    cases hnode : e.node with
    | file data =>
      have hfree := h e he name data hname hpath hnode
      rw [Option.map_some, hnode]
      dsimp only
      cases data with
      | database content =>
        change Host.tableRows table content = []
        unfold Host.tableRows
        cases ht : content.find? fun t => t.1 = table with
        | none => rfl
        | some t =>
          have hmem := List.mem_of_find?_eq_some ht
          have heq : t.1 = table := by simpa using List.find?_some ht
          exact hfree content rfl t hmem (heq ▸ htable)
      | bytes content =>
        unfold tables
        split <;> first | exact hnil | contradiction
      | object fields => exact hnil
    | _ =>
      rw [Option.map_some, hnode]
      exact hnil

/-- How the columns of a row are read. -/
structure RowReader where
  localAccount : String → Option LocalAccount
  accountSession : String → Option AccountSession
  passwordCredential : String → Option PasswordCredentialRow
  sessionCredential : String → Option SessionCredentialRow
  client : String → Option OidcClientRecord
  transaction : String → Option (OneUse AuthorizationTransaction)
  code : String → Option (OneUse AuthorizationCode)
  consent : String → Option ConsentRow
  pairwiseSubject : String → Option PairwiseSubject
  family : String → Option FamilyRow
  spent : String → Option SpentRow
  accessToken : String → Option AccessTokenRow

namespace RowReader

def identityTables (R : RowReader) (content : List (String × List String)) : IdentityTables where
  localAccount := (tableRows "local_account" content).filterMap R.localAccount
  accountSession := (tableRows "account_session" content).filterMap R.accountSession
  passwordCredential := (tableRows "password_credential" content).filterMap R.passwordCredential
  sessionCredential := (tableRows "session_credential" content).filterMap R.sessionCredential

def oidcTables (R : RowReader) (content : List (String × List String)) : OidcTables where
  client := (tableRows "oidc_client" content).filterMap R.client
  transaction := (tableRows "oidc_authorization_transaction" content).filterMap R.transaction
  code := (tableRows "oidc_authorization_code" content).filterMap R.code
  consent := (tableRows "oidc_consent" content).filterMap R.consent
  pairwiseSubject := (tableRows "oidc_pairwise_subject" content).filterMap R.pairwiseSubject
  family := (tableRows "oidc_token_family" content).filterMap R.family
  spent := (tableRows "oidc_refresh_spent" content).filterMap R.spent
  accessToken := (tableRows "oidc_access_token" content).filterMap R.accessToken

end RowReader

/-- No session, code or token is accepted. -/
structure NoLogin (identity : IdentityTables) (t : OidcTables) : Prop where
  session : ∀ digest, SqliteSessionCredentialRepository.resolve digest identity = none
  code : ∀ sha256 raw client redirectUri verifier now, (SqliteOidcAuthorizationStore.consumeCode
    sha256 raw client redirectUri verifier now t).1 = .ok none
  refresh : ∀ sha256 raw now next,
    (SqliteOidcRefreshTokenStore.rotate sha256 raw now next t).1 = .ok .invalid
  access : ∀ sha256 raw (now : UnixTimestamp), now.seconds < 2 ^ 63 →
    SqliteOidcAccessTokenStore.resolveAccess sha256 raw now t = .ok none
  /-- At a time that the store cannot hold the token is not accepted either. -/
  access_never : ∀ sha256 raw now grant,
    SqliteOidcAccessTokenStore.resolveAccess sha256 raw now t ≠ .ok (some grant)

/-- Every way of being accepted depends on a row of one of these tables. -/
theorem NoLogin.of_empty (hsession : identity.sessionCredential = []) (hcode : t.code = [])
    (hfamily : t.family = []) (hspent : t.spent = []) (haccess : t.accessToken = []) :
    NoLogin identity t := by
  refine ⟨fun digest => ?_, fun sha256 raw client uri verifier now => ?_,
    fun sha256 raw now next => ?_, fun sha256 raw now hnow => ?_, fun sha256 raw now grant h => ?_⟩
  · rw [SqliteSessionCredentialRepository.resolve, hsession]
    rfl
  · unfold SqliteOidcAuthorizationStore.consumeCode
    rw [hcode]
    split
    · rfl
    split <;> rfl
  · unfold SqliteOidcRefreshTokenStore.rotate SqliteOidcRefreshTokenStore.currentFamily
    rw [hfamily, hspent]
    split <;> rfl
  · unfold SqliteOidcAccessTokenStore.resolveAccess
    rw [haccess]
    split
    · rfl
    · rw [sqliteTimestamp, if_pos hnow]
      rfl
  · obtain ⟨row, hrow, -⟩ := SqliteOidcAccessTokenStore.resolveAccess_eq_some h
    rw [haccess] at hrow
    cases hrow

theorem DatabasesFree.noLogin (h : DatabasesFree es) (hname : isDatabaseName name = true)
    (R : RowReader) : NoLogin (R.identityTables (databaseTables es name))
      (R.oidcTables (databaseTables es name)) := by
  have hrows : ∀ {α : Type} (f : String → Option α) (table : String), table ∈ sessionTables →
      (Host.tableRows table (databaseTables es name)).filterMap f = [] := by
    intro α f table htable
    rw [h.tableRows hname htable, List.filterMap_nil]
  exact .of_empty (hrows R.sessionCredential "session_credential" (by decide))
    (hrows R.code "oidc_authorization_code" (by decide))
    (hrows R.family "oidc_token_family" (by decide))
    (hrows R.spent "oidc_refresh_spent" (by decide))
    (hrows R.accessToken "oidc_access_token" (by decide))

/-- After a restore no database of the state volume has a session, a code or a token that is
accepted, whatever the backup held. -/
theorem restore_revives_no_login (sha256 : Archive → String) (t : VolumeName → FileTree)
    (m : Machine) (identifier : String) (binding : List (String × String))
    (turns : List (Turn Chance)) (htree : ∀ v, (m.volumes v).entries = (t v).entries)
    (hdone : (exec (device sha256).handler (restoreSnapshot identifier binding) turns m).1 =
      .done ())
    (name : String) (hname : isDatabaseName name = true) (R : RowReader) :
    NoLogin (R.identityTables (databaseTables ((exec (device sha256).handler
        (restoreSnapshot identifier binding) turns m).2.volumes .state).entries name))
      (R.oidcTables (databaseTables ((exec (device sha256).handler
        (restoreSnapshot identifier binding) turns m).2.volumes .state).entries name)) := by
  have hspec : Completes (device sha256).handler True (DataKept m (archives m identifier))
      (restoreSnapshot identifier binding) _ m :=
    restoreSnapshot_spec (device sha256).handler_serves t htree
  obtain ⟨-, new, houtcome, hfinal⟩ := hspec.done (Prod.ext hdone rfl)
  have hfree : DatabasesFree ((exec (device sha256).handler (restoreSnapshot identifier binding)
      turns m).2.volumes .state).entries := fun e he =>
    houtcome.databasesFree e ((hfinal .state e).mp he)
  exact hfree.noLogin hname R

/-- A reader to which every session credential is one of the same session. -/
def oneSession : RowReader where
  localAccount _ := none
  accountSession _ := none
  passwordCredential _ := none
  sessionCredential _ := some ⟨⟨7⟩, ⟨1⟩, 0, none⟩
  client _ := none
  transaction _ := none
  code _ := none
  consent _ := none
  pairwiseSubject _ := none
  family _ := none
  spent _ := none
  accessToken _ := none

/-- The token would be accepted in the archive, and is not after the restore. -/
theorem archived_session_forgotten :
    SqliteSessionCredentialRepository.resolve ⟨7⟩ (oneSession.identityTables (databaseTables
      (archives (restoreMachine []) anaBackup .state) "accounts.sqlite")) = some ⟨1⟩ ∧
    NoLogin (oneSession.identityTables (databaseTables ((exec (device fun _ => "digest").handler
        (restoreSnapshot anaBackup []) [] (restoreMachine [])).2.volumes .state).entries
          "accounts.sqlite"))
      (oneSession.oidcTables (databaseTables ((exec (device fun _ => "digest").handler
        (restoreSnapshot anaBackup []) [] (restoreMachine [])).2.volumes .state).entries
          "accounts.sqlite")) := by
  refine ⟨by decide +kernel, restore_revives_no_login (fun _ => "digest")
    (anaVolumes (anaTree "link" (by decide) (.symlink "/etc"))) (restoreMachine []) anaBackup [] []
    (fun _ => rfl) ?_ _ ?_ oneSession⟩
  · decide +kernel
  · decide +kernel

end Rumahl.Host
