import Rumahl.Effect.Concurrent
import Rumahl.Oidc.Stores

/-!
# Calls of the OpenID provider

What the provider asks of the stores and of the accounts, with the answers it may get. `Does` says
what each call may have done to the tables.
-/

open Except

namespace Rumahl

structure OidcPublicClaims where
  name : Option String
  email : Option String
  emailVerified : Bool

/-- A transaction on the tables, or a question to the accounts. -/
inductive OidcCall where
  | activeAuthenticationTime (userId : UserId) (sessionId : SessionId) (now : UnixTimestamp)
  | publicClaims (userId : UserId)
  | insertClient (client : OidcClientRecord)
  | findActiveById (clientId : OidcClientId)
  | revokeForInstallation (installationId : InstallationId) (revokedAt : UnixTimestamp)
  | insertTransaction (transaction : AuthorizationTransaction)
  | approveTransaction (transactionId : String) (client : OidcClientRecord) (userId : UserId)
    (sessionId : SessionId) (consent : UserConsent) (now : UnixTimestamp)
    (code subject : ByteVector 32)
  | consumeCode (rawCode : String) (client : OidcClientRecord) (redirectUri verifier : String)
    (now : UnixTimestamp)
  | findSubject (userId : UserId) (installationId : InstallationId)
  | insertAccess (grant : AccessTokenGrant) (familyId : Option String)
  | resolveAccess (raw : String) (now : UnixTimestamp)
  | revokeAccess (raw : String) (now : UnixTimestamp)
  | insertFamily (family : RefreshTokenFamily)
  | rotate (raw : String) (now : UnixTimestamp) (next : ByteVector 32)
  | revokeForSession (sessionId : SessionId) (now : UnixTimestamp)
  deriving DecidableEq

namespace OidcCall

def Answer : OidcCall → Type
  | activeAuthenticationTime _ _ _ => Except Unit (Option UnixTimestamp)
  | publicClaims _ => Except Unit (Option OidcPublicClaims)
  | insertClient _ => Except SqliteOidcClientRepositoryError Unit
  | findActiveById _ => Except SqliteOidcClientRepositoryError (Option OidcClientRecord)
  | revokeForInstallation _ _ => Except SqliteOidcClientRepositoryError Nat
  | insertTransaction _ => Except SqliteOidcStoreError Unit
  | approveTransaction _ _ _ _ _ _ _ _ =>
    Except SqliteOidcStoreError (Option ApprovedAuthorization)
  | consumeCode _ _ _ _ _ => Except SqliteOidcStoreError (Option AuthorizationCode)
  | findSubject _ _ => Except SqliteOidcStoreError (Option PairwiseSubject)
  | insertAccess _ _ => Except SqliteOidcStoreError Unit
  | resolveAccess _ _ => Except SqliteOidcStoreError (Option AccessTokenGrant)
  | revokeAccess _ _ => Except SqliteOidcStoreError Nat
  | insertFamily _ => Except SqliteOidcStoreError Unit
  | rotate _ _ _ => Except SqliteOidcStoreError RefreshRotation
  | revokeForSession _ _ => Except SqliteOidcStoreError Nat

/-- What a transaction does; the accounts are not in these tables. -/
def run (sha256 : List UInt8 → Sha256Digest) (t : OidcTables) : (c : OidcCall) →
    Option (c.Answer × OidcTables)
  | activeAuthenticationTime _ _ _ => none
  | publicClaims _ => none
  | insertClient client => some (SqliteOidcClientRepository.insert client t)
  | findActiveById clientId =>
    some (.ok (SqliteOidcClientRepository.findActiveById clientId t), t)
  | revokeForInstallation installationId revokedAt =>
    some (SqliteOidcClientRepository.revokeForInstallation installationId revokedAt t)
  | insertTransaction transaction =>
    some (SqliteOidcAuthorizationStore.insertTransaction transaction t)
  | approveTransaction transactionId client userId sessionId consent now code subject =>
    some (SqliteOidcAuthorizationStore.approveTransaction sha256 transactionId client userId
      sessionId consent now code subject t)
  | consumeCode rawCode client redirectUri verifier now =>
    some (SqliteOidcAuthorizationStore.consumeCode sha256 rawCode client redirectUri verifier now t)
  | findSubject userId installationId =>
    some (SqliteOidcAuthorizationStore.findSubject userId installationId t, t)
  | insertAccess grant familyId =>
    some (SqliteOidcAccessTokenStore.insertAccess grant familyId t)
  | resolveAccess raw now => some (SqliteOidcAccessTokenStore.resolveAccess sha256 raw now t, t)
  | revokeAccess raw now => some (SqliteOidcAccessTokenStore.revokeAccess sha256 raw now t)
  | insertFamily family => some (SqliteOidcRefreshTokenStore.insertFamily family t)
  | rotate raw now next => some (SqliteOidcRefreshTokenStore.rotate sha256 raw now next t)
  | revokeForSession sessionId now =>
    some (SqliteOidcRefreshTokenStore.revokeForSession sessionId now t)

/-- The answer when SQLite, or the source of the accounts, reports an error. -/
def failure : (c : OidcCall) → c.Answer
  | activeAuthenticationTime _ _ _ => .error ()
  | publicClaims _ => .error ()
  | insertClient _ => .error .database
  | findActiveById _ => .error .database
  | revokeForInstallation _ _ => .error .database
  | insertTransaction _ => .error .database
  | approveTransaction _ _ _ _ _ _ _ _ => .error .database
  | consumeCode _ _ _ _ _ => .error .database
  | findSubject _ _ => .error .database
  | insertAccess _ _ => .error .database
  | resolveAccess _ _ => .error .database
  | revokeAccess _ _ => .error .database
  | insertFamily _ => .error .database
  | rotate _ _ _ => .error .database
  | revokeForSession _ _ => .error .database

/-- A transaction is committed or fails without an effect; the accounts may answer anything. -/
def Answers (sha256 : List UInt8 → Sha256Digest) (c : OidcCall) (t : OidcTables) (a : c.Answer)
    (t' : OidcTables) : Prop :=
  match c.run sha256 t with
  | some r => (a, t') = r ∨ a = c.failure ∧ t' = t
  | none => t' = t

/-- The answer says that the call has written to the tables. -/
def writes : (c : OidcCall) → c.Answer → Bool
  | insertClient _, .ok _ => true
  | revokeForInstallation _ _, .ok _ => true
  | insertTransaction _, .ok _ => true
  | approveTransaction _ _ _ _ _ _ _ _, .ok (some _) => true
  | consumeCode _ _ _ _ _, .ok (some _) => true
  | insertAccess _ _, .ok _ => true
  | insertFamily _, .ok _ => true
  | rotate _ _ _, .ok (.rotated _) => true
  | rotate _ _ _, .ok .replayRevoked => true
  | revokeForSession _ _, .ok _ => true
  | _, _ => false

open SqliteOidcClientRepository (revokeClient)
open SqliteOidcAuthorizationStore (activeClient)
open SqliteOidcAccessTokenStore (familyAdmits newRow)

/-- What a call may have done to the tables. -/
inductive Does (sha256 : List UInt8 → Sha256Digest) (t : OidcTables) :
    (c : OidcCall) → c.Answer → OidcTables → Prop
  | unchanged {c : OidcCall} {a : c.Answer} (hnot : c.writes a = false) : Does sha256 t c a t
  | registered (hid : ∀ c ∈ t.client, c.clientId ≠ client.clientId)
      (hinst : ∀ c ∈ t.client, c.installationId ≠ client.installationId) :
    Does sha256 t (.insertClient client) (Except.ok ()) { t with client := t.client ++ [client] }
  | installationRevoked
      (hall : ∀ c ∈ t.client, c.installationId = i → c.isActive = true → c.createdAt ≤ at_) :
    Does sha256 t (.revokeForInstallation i at_) (Except.ok n)
      { t.revoke at_ (·.installationId = i) (·.installationId = i) (·.installationId = i)
          (·.installationId = i) with client := t.client.map (revokeClient i at_), consent }
  | begun (hclient : ∃ c ∈ t.client, c.clientId = transaction.clientId ∧ c.isActive = true)
      (hid : ∀ row ∈ t.transaction, row.body.id ≠ transaction.id) :
    Does sha256 t (.insertTransaction transaction) (Except.ok ())
      { t with transaction := t.transaction ++ [⟨transaction, none, none⟩] }
  | approved {row : OneUse AuthorizationTransaction} {approved : ApprovedAuthorization}
      (hrow : row ∈ t.transaction) (hid : row.body.id = tid) (hopen : row.isOpen = true)
      (hactive : activeClient t client = true) (hclient : row.body.clientId = client.clientId)
      (hinst : row.body.installationId = client.installationId)
      (hscopes : client.validScopes row.body.scopes = true)
      (happrove : row.body.approve sha256 client consent user session now bytes =
        .ok (code, approved.code))
      (hnew : ∀ x ∈ t.code, x.body.digest ≠ code.digest) :
    Does sha256 t (.approveTransaction tid client user session consent now bytes drawn)
      (Except.ok (some approved))
      { t with
        pairwiseSubject := subjects
        consent := consents
        code := t.code ++ [⟨code, none, none⟩]
        transaction := t.transaction.map fun row =>
          if row.body.id = tid then { row with consumedAt := some consumedAt } else row }
  | consumed {row : OneUse AuthorizationCode} (hrow : row ∈ t.code) (hbody : row.body = code)
      (hopen : row.isOpen = true) (hdigest : code.digest = sha256 (textBytes raw))
      (hactive : activeClient t client = true) (hclient : code.clientId = client.clientId)
      (hinst : code.installationId = client.installationId)
      (huri : code.redirectUri = client.redirectUri)
      (hscopes : client.validScopes code.scopes = true)
      (hverify : code.verifyExchange sha256 raw client uri verifier now = .ok ()) :
    Does sha256 t (.consumeCode raw client uri verifier now) (Except.ok (some code))
      { t with code := t.code.map fun row =>
          if row.body.digest = code.digest ∧ row.isOpen then
            { row with consumedAt := some consumedAt }
          else row }
  | issued (hclient : ∃ c ∈ t.client, c.clientId = grant.clientId ∧
        c.installationId = grant.subject.installationId ∧ c.isActive = true)
      (hfamily : familyAdmits t grant familyId = true)
      (hnew : ∀ row ∈ t.accessToken, row.digest ≠ grant.digest) :
    Does sha256 t (.insertAccess grant familyId) (Except.ok ())
      { t with accessToken := t.accessToken ++ [newRow grant familyId] }
  | accessRevoked {digest : Sha256Digest} : Does sha256 t (.revokeAccess raw now) (Except.ok n)
      (t.revoke now (fun _ => false) (fun _ => false) (fun _ => false) (·.digest = digest))
  | familyInserted (hid : ∀ row ∈ t.family, row.family.id ≠ family.id)
      (hdigest : ∀ row ∈ t.family, row.family.currentDigest ≠ family.currentDigest)
      (hclient : client ∈ t.client) (hcid : client.clientId = family.clientId)
      (hactive : client.isActive = true) :
    Does sha256 t (.insertFamily family) (Except.ok ()) { t with
        family := t.family ++ [⟨{ family with revokedAt := none }, client.installationId⟩] }
  | rotated (hrow : row ∈ t.family) (hdigest : row.family.currentDigest = sha256 (textBytes raw))
      (hlive : row.family.revokedAt = none)
      (hclient : ∃ c ∈ t.client, c.clientId = row.family.clientId ∧ c.isActive = true)
      (hspent : ∀ x ∈ t.spent, x.digest ≠ sha256 (textBytes raw))
      (hnext : next = randomValue bytes)
      (hunique : ∀ x ∈ t.family, x.family.id ≠ row.family.id →
        x.family.currentDigest ≠ sha256 (textBytes next)) :
    Does sha256 t (.rotate raw now bytes) (Except.ok (.rotated next)) { t with
        spent := t.spent ++ [⟨sha256 (textBytes raw), row.family.id⟩]
        family := t.family.map fun x =>
          if x.family.id = row.family.id then
            { x with family := { row.family with
                currentDigest := sha256 (textBytes next)
                generation := row.family.generation + 1 } }
          else x }
  | replayed (hspent : x ∈ t.spent) (hdigest : x.digest = sha256 (textBytes raw)) :
    Does sha256 t (.rotate raw now bytes) (Except.ok .replayRevoked)
      (t.revoke now (fun _ => false) (fun _ => false) (·.family.id = x.familyId)
        (·.familyId = some x.familyId))
  | sessionRevoked : Does sha256 t (.revokeForSession session now) (Except.ok n)
      (t.revoke now (·.sessionId = session) (·.sessionId = session)
        (·.family.sessionId = session) (·.sessionId = session))

variable {sha256 : List UInt8 → Sha256Digest}

/-- A row of the table of transactions or codes that was found and can be used. -/
private theorem of_find? {rows : List (OneUse α)} {p : OneUse α → Bool}
    (h : (rows.find? fun row => p row && row.isOpen) = some row) :
    row ∈ rows ∧ p row = true ∧ row.isOpen = true :=
  ⟨List.mem_of_find?_eq_some h, by simpa using List.find?_some h⟩

private theorem approveTransaction_does
    (h : SqliteOidcAuthorizationStore.approveTransaction sha256 tid client user session consent now
      bytes drawn t = (a, t')) :
    Does sha256 t (.approveTransaction tid client user session consent now bytes drawn) a t' := by
  replace h := commit_cases h
  obtain ⟨e, rfl, rfl⟩ | ⟨r, rfl, h⟩ := h
  · exact .unchanged rfl
  split at h
  · cases h
    exact .unchanged rfl
  next hactive =>
  split at h
  · cases h
    exact .unchanged rfl
  next stored consumed revoked hf =>
  obtain ⟨hrow, hid, hopen⟩ := of_find? hf
  obtain rfl : stored.id = tid := by simpa using hid
  split at h
  · cases h
    exact .unchanged rfl
  next hsame =>
  simp only [Bool.or_eq_true, decide_eq_true_eq, not_or, ne_eq, not_not] at hsame
  obtain ⟨challenge, hchallenge, h'⟩ := bind_eq_ok.mp h
  obtain ⟨transaction, hrestore, h''⟩ := bind_eq_ok.mp h'
  rw [mapError_eq_ok] at hchallenge hrestore
  obtain rfl := PkceChallenge.parse_eq_ok hchallenge
  obtain ⟨rfl, hscopes⟩ :=
    SqliteOidcAuthorizationStore.restore_eq_ok hrestore hsame.1.1 hsame.1.2 hsame.2
  split at h''
  · cases h''
    exact .unchanged rfl
  next code raw happrove =>
  obtain ⟨⟨subject, subjects⟩, -, h''⟩ := bind_eq_ok.mp h''
  obtain ⟨at_, -, h''⟩ := bind_eq_ok.mp h''
  obtain ⟨_, -, h''⟩ := bind_eq_ok.mp h''
  split at h''
  · cases h''
  next hnew =>
  cases h''
  exact .approved hrow rfl hopen (by simpa using hactive) hsame.1.1 hsame.1.2 hscopes happrove
    fun x hx hd => hnew (List.any_eq_true.mpr ⟨x, hx, by simpa using hd⟩)

private theorem consumeCode_does
    (h : SqliteOidcAuthorizationStore.consumeCode sha256 raw client uri verifier now t = (a, t')) :
    Does sha256 t (.consumeCode raw client uri verifier now) a t' := by
  replace h := commit_cases h
  obtain ⟨e, rfl, rfl⟩ | ⟨r, rfl, h⟩ := h
  · exact .unchanged rfl
  split at h
  · cases h
    exact .unchanged rfl
  split at h
  · cases h
    exact .unchanged rfl
  next hactive =>
  dsimp only at h
  split at h
  · cases h
    exact .unchanged rfl
  next stored consumed revoked hf =>
  obtain ⟨hrow, hdigest, hopen⟩ := of_find? hf
  have hdigest : stored.digest = sha256 (textBytes raw) := by simpa using hdigest
  split at h
  · cases h
    exact .unchanged rfl
  next hsame =>
  simp only [Bool.or_eq_true, decide_eq_true_eq, not_or, ne_eq, not_not] at hsame
  obtain ⟨challenge, hchallenge, h'⟩ := bind_eq_ok.mp h
  obtain ⟨restored, hrestore, h''⟩ := bind_eq_ok.mp h'
  rw [mapError_eq_ok] at hchallenge hrestore
  obtain rfl := PkceChallenge.parse_eq_ok hchallenge
  rw [← hdigest] at hrestore h''
  obtain ⟨rfl, hscopes⟩ :=
    SqliteOidcAuthorizationStore.code_restore_eq_ok hrestore hsame.1.1 hsame.1.2 hsame.2
  split at h''
  · cases h''
    exact .unchanged rfl
  next hverify =>
  obtain ⟨at_, -, h''⟩ := bind_eq_ok.mp h''
  cases h''
  exact .consumed hrow rfl hopen hdigest (by simpa using hactive) hsame.1.1 hsame.1.2 hsame.2
    hscopes hverify

private theorem rotate_does
    (h : SqliteOidcRefreshTokenStore.rotate sha256 raw now bytes t = (a, t')) :
    Does sha256 t (.rotate raw now bytes) a t' := by
  replace h := commit_cases h
  obtain ⟨e, rfl, rfl⟩ | ⟨r, rfl, h⟩ := h
  · exact .unchanged rfl
  split at h
  · cases h
    exact .unchanged rfl
  dsimp only at h
  split at h
  · next row hf =>
    obtain ⟨hrow, hdigest, hclient⟩ := SqliteOidcRefreshTokenStore.currentFamily_eq_some hf
    split at h
    · cases h
    split at h
    · cases h
      exact .unchanged rfl
    next token family hrotate =>
    unfold RefreshTokenFamily.rotate at hrotate
    split_ifs at hrotate with hrevoked _ _ _
    cases hrotate
    split_ifs at h with hspent _ hunique
    cases h
    exact .rotated hrow hdigest (by simpa using hrevoked) hclient
      (fun x hx hd => hspent (List.any_eq_true.mpr ⟨x, hx, by simpa using hd⟩)) rfl
      fun x hx hne hd => hunique (List.any_eq_true.mpr ⟨x, hx, by simp [hne, hd]⟩)
  · split at h
    · next x hf =>
      obtain ⟨_, -, h⟩ := bind_eq_ok.mp h
      cases h
      exact .replayed (List.mem_of_find?_eq_some hf) (by simpa using List.find?_some hf)
    · cases h
      exact .unchanged rfl

private theorem insertFamily_does
    (h : SqliteOidcRefreshTokenStore.insertFamily family t = (a, t')) :
    Does sha256 t (.insertFamily family) a t' := by
  replace h := commit_cases h
  obtain ⟨e, rfl, rfl⟩ | ⟨r, rfl, h⟩ := h
  · exact .unchanged rfl
  split at h
  · cases h
  obtain ⟨_, -, h⟩ := bind_eq_ok.mp h
  split at h
  · cases h
  next client hf =>
  split at h
  · cases h
  next hnew =>
  cases h
  have hp := List.find?_some hf
  rw [Bool.and_eq_true, decide_eq_true_eq] at hp
  have hnew : ∀ row ∈ t.family, row.family.id ≠ family.id ∧
      row.family.currentDigest ≠ family.currentDigest := fun row hrow => by
    simpa using fun h => hnew (List.any_eq_true.mpr ⟨row, hrow, h⟩)
  exact .familyInserted (fun x hx => (hnew x hx).1) (fun x hx => (hnew x hx).2)
    (List.mem_of_find?_eq_some hf) hp.1 hp.2

theorem run_does (h : run sha256 t c = some (a, t')) : Does sha256 t c a t' := by
  cases c with
  | activeAuthenticationTime | publicClaims => cases h
  | findActiveById | findSubject | resolveAccess =>
    obtain rfl : t = t' := congrArg Prod.snd (Option.some.inj h)
    exact .unchanged rfl
  | insertClient client =>
    replace h := commit_cases (Option.some.inj h)
    obtain ⟨e, rfl, rfl⟩ | ⟨r, rfl, h⟩ := h
    · exact .unchanged rfl
    obtain ⟨_, -, h⟩ := bind_eq_ok.mp h
    obtain ⟨_, -, h⟩ := bind_eq_ok.mp h
    split_ifs at h with hnew
    cases h
    have hnew : ∀ c ∈ t.client, c.clientId ≠ client.clientId ∧
        c.installationId ≠ client.installationId := fun c hc => by
      simpa using fun h => hnew (List.any_eq_true.mpr ⟨c, hc, h⟩)
    exact .registered (fun c hc => (hnew c hc).1) fun c hc => (hnew c hc).2
  | revokeForInstallation i at_ =>
    replace h := commit_cases (Option.some.inj h)
    obtain ⟨e, rfl, rfl⟩ | ⟨r, rfl, h⟩ := h
    · exact .unchanged rfl
    obtain ⟨_, -, h⟩ := bind_eq_ok.mp h
    dsimp only at h
    split_ifs at h with hnot
    cases h
    refine .installationRevoked fun c hc hi hactive => UnixTimestamp.not_lt.mp fun hlt => hnot ?_
    refine List.any_eq_true.mpr ⟨c, List.mem_filter.mpr ⟨hc, ?_⟩, decide_eq_true hlt⟩
    simp [hi, hactive]
  | insertTransaction transaction =>
    replace h := commit_cases (Option.some.inj h)
    obtain ⟨e, rfl, rfl⟩ | ⟨r, rfl, h⟩ := h
    · exact .unchanged rfl
    obtain ⟨_, -, h⟩ := bind_eq_ok.mp h
    split_ifs at h with hclient hnew
    cases h
    exact .begun (by simpa using hclient)
      fun row hrow hid => hnew (List.any_eq_true.mpr ⟨row, hrow, by simpa using hid⟩)
  | approveTransaction => exact approveTransaction_does (Option.some.inj h)
  | consumeCode => exact consumeCode_does (Option.some.inj h)
  | insertAccess grant familyId =>
    replace h := commit_cases (Option.some.inj h)
    obtain ⟨e, rfl, rfl⟩ | ⟨r, rfl, h⟩ := h
    · exact .unchanged rfl
    obtain ⟨_, -, h⟩ := bind_eq_ok.mp h
    split_ifs at h with hadmits hnew
    cases h
    simp only [Bool.or_eq_true, Bool.not_eq_true', not_or, Bool.not_eq_false] at hadmits
    obtain ⟨⟨hclient, -⟩, hfamily⟩ := hadmits
    exact .issued (by simpa [and_assoc] using hclient) hfamily
      fun row hrow hd => hnew (List.any_eq_true.mpr ⟨row, hrow, by simpa using hd⟩)
  | revokeAccess raw now =>
    replace h := commit_cases (Option.some.inj h)
    obtain ⟨e, rfl, rfl⟩ | ⟨r, rfl, h⟩ := h
    · exact .unchanged rfl
    split at h
    · cases h
      exact .unchanged rfl
    · obtain ⟨_, -, h⟩ := bind_eq_ok.mp h
      cases h
      exact .accessRevoked
  | insertFamily => exact insertFamily_does (Option.some.inj h)
  | rotate => exact rotate_does (Option.some.inj h)
  | revokeForSession session now =>
    replace h := commit_cases (Option.some.inj h)
    obtain ⟨e, rfl, rfl⟩ | ⟨r, rfl, h⟩ := h
    · exact .unchanged rfl
    obtain ⟨_, -, h⟩ := bind_eq_ok.mp h
    cases h
    exact .sessionRevoked

theorem Answers.does (h : Answers sha256 c t a t') : Does sha256 t c a t' := by
  unfold Answers at h
  split at h
  · next hrun =>
    obtain rfl | ⟨rfl, rfl⟩ := h
    · exact run_does hrun
    · refine .unchanged ?_
      cases c <;> rfl
  · next hrun =>
    subst h
    refine .unchanged ?_
    cases c with
    | activeAuthenticationTime | publicClaims => rfl
    | _ => cases hrun

end OidcCall

end Rumahl
