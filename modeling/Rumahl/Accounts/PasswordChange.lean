import Rumahl.Accounts.Passwords

/-!
# What a password change ends

Changing a password revokes, in the transaction that replaces the credential, the sessions that were
read before it. A session that is created in between is not among them: `change_ends_logins` says
that a change which has returned ends the older logins exactly if every session that was created in
between with the old password is revoked again before the commit.
-/

namespace Rumahl

open Effect IdentityTables SqliteLocalAccountAdministrationRepository List IdentityCall

/-! ## Sessions over time -/

/-- The primary keys of the tables. -/
structure IdentityTables.Keyed (t : IdentityTables) : Prop where
  sessions : Table.Keyed AccountSession.sessionId t.accountSession
  credentials : Table.Keyed PasswordCredentialRow.userId t.passwordCredential

theorem AccountSession.Later.trans (h : Later x y) (h' : Later y z) : Later x z where
  sessionId := h'.sessionId.trans h.sessionId
  userId := h'.userId.trans h.userId
  revokedAt hz := h.revokedAt (h'.revokedAt hz)

/-- Sessions are created with a proof. None is lost or comes back to life, and no id is used
twice. -/
def sessionGrowth : Table.Growth AccountSession (SessionId × VerifiedLocalAccount) SessionId where
  key := AccountSession.sessionId
  newKey := Prod.fst
  Later := AccountSession.Later
  Born p y := y.sessionId = p.1 ∧ y.userId = p.2.userId
  refl := .refl
  trans := .trans
  key_later h := h.sessionId
  key_born h := h.1
  born_later h h' := ⟨h'.sessionId.trans h.1, h'.userId.trans h.2⟩

/-- What a part of a run in which the sessions `created` are created does to the tables. -/
def IdentityTables.Grows (t : IdentityTables) (created : List (SessionId × VerifiedLocalAccount))
    (t' : IdentityTables) : Prop :=
  t.Keyed → t'.Keyed ∧ sessionGrowth.Grows t.accountSession created t'.accountSession

namespace SqliteLocalAccountAdministrationRepository

theorem revokeSessions_sessions {sids : List SessionId}
    (h : sids.foldlM (revokeSession user revokedAt) t = .ok t') (hk : t.Keyed) :
    sessionGrowth.Grows t.accountSession [] t'.accountSession ∧
      ∀ x ∈ t.accountSession, ∃ y ∈ t'.accountSession, AccountSession.Later x y ∧
        (y.revokedAt = none ↔ x.revokedAt = none ∧ x.sessionId ∉ sids) := by
  induction sids generalizing t with
  | nil =>
    cases h
    exact ⟨.refl hk.sessions, fun x hx => ⟨x, hx, .refl x, by simp⟩⟩
  | cons sid sids ih =>
    rw [foldlM_cons, Except.bind_eq_ok] at h
    obtain ⟨t1, h1, h⟩ := h
    obtain ⟨session, tokens, hf, -, -, hrevoked, rfl⟩ := revokeSession_eq_ok h1
    obtain ⟨hm, hid⟩ := (Table.find_eq_some hk.sessions).mp hf
    have hlater := session.revoke_later ⟨revokedAt⟩
    obtain ⟨hgrows, hall⟩ := ih h ⟨hk.sessions.put _, hk.credentials⟩
    refine ⟨.trans (.put hk.sessions hm hlater) hgrows, fun x hx => ?_⟩
    by_cases hsid : x.sessionId = sid
    · obtain rfl := hk.sessions.eq hx hm (hsid.trans hid.symm)
      obtain ⟨y, hy, hxy, hiff⟩ :=
        hall _ (Table.mem_put.mpr (.inl ⟨rfl, x, hx, hlater.sessionId.symm⟩))
      refine ⟨y, hy, hlater.trans hxy, ?_⟩
      simp [hiff, hrevoked, hsid]
    · have hne : x.sessionId ≠ (session.revoke ⟨revokedAt⟩).2.sessionId := by
        rw [hlater.sessionId, hid]
        exact hsid
      obtain ⟨y, hy, hxy, hiff⟩ := hall x (Table.mem_put.mpr (.inr ⟨hx, hne⟩))
      refine ⟨y, hy, hxy, ?_⟩
      simp [hiff, hsid]

end SqliteLocalAccountAdministrationRepository

namespace IdentityCall

/-- The session that the call has created, and the proof it was created with. -/
def created : (c : IdentityCall) → c.Answer → Option (SessionId × VerifiedLocalAccount)
  | createSession sessionId _ proof _, .ok () => some (sessionId, proof)
  | _, _ => none

/-- The credential that the call has stored. -/
def stored : (c : IdentityCall) → c.Answer → Option PasswordCredentialRecord
  | replace credential, .ok () => some credential
  | provisionPasswordAccount _ credential, .ok () => some credential
  | replacePasswordAndRevokeSessions credential _ _, .ok () => some credential
  | _, _ => none

/-- The verifier that the call has drawn. -/
def hashed : (c : IdentityCall) → c.Answer → Option PasswordHashRecord
  | hash _, .ok record => some record
  | _, _ => none

end IdentityCall

def IdentityTables.storedHash (t : IdentityTables) (user : UserId) : Option PasswordHashRecord :=
  (SqlitePasswordCredentialRepository.find t user).map PasswordCredentialRow.passwordHash

namespace IdentityCall

open SqlitePasswordCredentialRepository

private theorem created_of_not_writes {c : IdentityCall} {a : c.Answer} (h : c.writes a = false) :
    c.created a = none := by
  unfold created
  split
  · cases h
  · rfl

private theorem keyed_freshRow (hk : IdentityTables.Keyed t)
    (hf : find t credential.userId = none) :
    Table.Keyed PasswordCredentialRow.userId
      (t.passwordCredential ++ [freshRow credential changedAt]) :=
  Table.keyed_append.mpr ⟨hk.credentials, Table.find_eq_none.mp hf⟩

theorem Does.grows (h : Does t c a t') : t.Grows (c.created a).toList t' := by
  intro hk
  cases h with
  | unchanged hnot =>
    rw [created_of_not_writes hnot]
    exact ⟨hk, .refl hk.sessions⟩
  | attempted | succeeded | replaced =>
    exact ⟨⟨hk.sessions, hk.credentials.put _⟩, .refl hk.sessions⟩
  | enrolled hf | provisioned hf => exact ⟨⟨hk.sessions, keyed_freshRow hk hf⟩, .refl hk.sessions⟩
  | removed =>
    exact ⟨⟨hk.sessions, hk.credentials.sublist (filter_sublist.map _)⟩, .refl hk.sessions⟩
  | changed hf hfold =>
    obtain ⟨hgrows, -⟩ :=
      revokeSessions_sessions hfold ⟨hk.sessions, hk.credentials.put _⟩
    have hframe := revokeSessions_frame hfold
    exact ⟨⟨hgrows.keyed, hframe.1 ▸ hk.credentials.put _⟩, hgrows⟩
  | created hid huser hlive hproof hnew =>
    subst hid
    have hgrows := Table.Growth.Grows.append (G := sessionGrowth) (b := (_, _)) hk.sessions
      ⟨rfl, huser⟩ hnew
    exact ⟨⟨hgrows.keyed, hk.credentials⟩, hgrows⟩
  | @ended _ now sid _ =>
    have hgrows := Table.Growth.Grows.map (G := sessionGrowth) hk.sessions
      fun x _ => SqliteBrowserSessionRepository.endSession_later sid now x
    exact ⟨⟨hgrows.keyed, hk.credentials⟩, hgrows⟩

private theorem storedHash_put (hf : find t row.userId = some row')
    (h : (put t row).storedHash user = some record) :
    t.storedHash user = some record ∨ user = row.userId ∧ row.passwordHash = record := by
  by_cases hu : user = row.userId
  · rw [storedHash, find_put_self hu.symm (hu ▸ hf)] at h
    exact .inr ⟨hu, Option.some.inj h⟩
  · rw [storedHash, find_put_ne hu] at h
    exact .inl h

private theorem storedHash_put_same (hf : find t user' = some row)
    (h : (put t row').storedHash user = some record) (hid : row'.userId = row.userId)
    (hhash : row'.passwordHash = row.passwordHash) : t.storedHash user = some record := by
  obtain rfl := Table.key_of_find hf
  obtain h | ⟨rfl, rfl⟩ := storedHash_put (hid ▸ hf) h
  · exact h
  · rw [storedHash, hid, hf, hhash, Option.map_some]

private theorem storedHash_append {t t' : IdentityTables}
    (ht : t'.passwordCredential = t.passwordCredential ++ [row])
    (h : t'.storedHash user = some record) :
    t.storedHash user = some record ∨ row.passwordHash = record := by
  rw [storedHash, find, ht, Table.find, List.find?_append] at h
  cases hu : find t user with
  | none =>
    rw [find, Table.find] at hu
    rw [hu, Option.none_or, List.find?_singleton] at h
    split at h
    · exact .inr (Option.some.inj h)
    · cases h
  | some row' =>
    have hsome := hu
    rw [find, Table.find] at hu
    rw [hu, Option.some_or] at h
    rw [storedHash, hsome]
    exact .inl h

/-- Where the verifier of a user comes from. -/
theorem Does.storedHash (h : Does t c a t') (hrecord : t'.storedHash user = some record) :
    t.storedHash user = some record ∨
      ∃ credential, c.stored a = some credential ∧ credential.passwordHash = record := by
  cases h with
  | unchanged | created | ended => exact .inl hrecord
  | attempted hf | succeeded hf => exact .inl (storedHash_put_same hf hrecord rfl rfl)
  | replaced hf =>
    obtain h | ⟨-, h⟩ := storedHash_put hf hrecord
    · exact .inl h
    · exact .inr ⟨_, rfl, h⟩
  | enrolled | provisioned =>
    obtain h | h := storedHash_append rfl hrecord
    · exact .inl h
    · exact .inr ⟨_, rfl, h⟩
  | @removed user' =>
    by_cases hu : user = user'
    · rw [IdentityTables.storedHash, hu, find_remove_self] at hrecord
      cases hrecord
    · rw [IdentityTables.storedHash, find_remove_ne hu] at hrecord
      exact .inl hrecord
  | changed hf hfold =>
    have hframe := revokeSessions_frame hfold
    rw [IdentityTables.storedHash, find, hframe.1] at hrecord
    obtain h | ⟨-, h⟩ := storedHash_put hf hrecord
    · exact .inl h
    · exact .inr ⟨_, rfl, h⟩

end IdentityCall

/-- A proof of a password is good as long as the verifier is the stored one. -/
theorem SqliteBrowserSessionRepository.storedHash_of_proofIsValid (hk : t.Keyed)
    (h : proofIsValid t proof = true) :
    t.storedHash proof.userId = some proof.passwordHash := by
  obtain ⟨-, h⟩ := Bool.and_eq_true_iff.mp h
  obtain ⟨row, hrow, h⟩ := any_eq_true.mp h
  simp only [Bool.and_eq_true, decide_eq_true_eq] at h
  have hf := (Table.find_eq_some hk.credentials).mpr ⟨hrow, h.1⟩
  rw [storedHash, SqlitePasswordCredentialRepository.find, hf, Option.map_some, h.2]

/-! ## Runs -/

namespace IdentityEvent

variable {ι : Type}

def created (e : IdentityEvent ι) : Option (SessionId × VerifiedLocalAccount) :=
  e.call.created e.answer

def hashed (e : IdentityEvent ι) : Option PasswordHashRecord := e.call.hashed e.answer

end IdentityEvent

open IdentityEvent

section

variable {ι : Type} [DecidableEq ι] {S : PasswordServices}

/-- A pool of requests. -/
abbrev PasswordServices.Requests (ι : Type) :=
  Pool ι IdentityCall IdentityCall.Answer IdentityError IdentityResult IdentityTables Unit

theorem PasswordServices.Run.grows {P P' : Requests ι} (hrun : S.Run P es P') :
    P.shared.Grows (es.filterMap created) P'.shared := by
  rw [filterMap_eq_flatMap_toList]
  refine Pool.Run.compose hrun (fun t hk => ⟨hk, .refl hk.sessions⟩) ?_ fun e he => ?_
  · intro t t' t'' l l' h h' hk
    obtain ⟨hk', hgrows⟩ := h hk
    obtain ⟨hk'', hgrows'⟩ := h' hk'
    exact ⟨hk'', hgrows.trans hgrows'⟩
  · obtain ⟨_, _, hanswer⟩ := hrun.answers e he
    exact hanswer.does.grows

theorem PasswordServices.Run.storedHash {P P' : Requests ι} (hrun : S.Run P es P')
    (h : P'.shared.storedHash user = some record) :
    P.shared.storedHash user = some record ∨
      ∃ e ∈ es, ∃ credential, e.call.stored e.answer = some credential ∧
        credential.passwordHash = record := by
  induction hrun with
  | nil P => exact .inl h
  | cons hstep _ ih =>
    obtain h | ⟨e, he, hstored⟩ := ih h
    · cases hstep with
      | mk i hp he =>
        obtain h | hstored := he.does.storedHash h
        · exact .inl h
        · exact .inr ⟨_, mem_cons_self, hstored⟩
    · exact .inr ⟨e, mem_cons_of_mem _ he, hstored⟩

/-- A thread stores one credential at most, with the verifier that it has drawn for it. -/
theorem IdentityTrace.Permits.stored (h : Permits S κ c) (hs : c.stored a = some credential) :
    (∃ password, ⟨.hash password, Except.ok credential.passwordHash⟩ ∈ κ) ∧
      ∀ x ∈ κ, x.1.stored x.2 = none := by
  unfold IdentityCall.stored at hs
  split at hs
  · cases hs
    obtain ⟨password, rfl⟩ := h
    exact ⟨⟨password, mem_singleton_self _⟩, by simp [IdentityCall.stored]⟩
  · cases hs
    obtain ⟨password, rfl⟩ := h
    exact ⟨⟨password, mem_singleton_self _⟩, by simp [IdentityCall.stored]⟩
  · cases hs
    obtain ⟨_, _, password, rfl, -⟩ := h
    exact ⟨⟨password, by simp⟩, by simp [IdentityCall.stored]⟩
  · cases hs

private theorem eq_of_nodup_filterMap {l : List α} (h : (l.filterMap f).Nodup) (ha : a ∈ l)
    (hb : b ∈ l) (hfa : f a = some c) (hfb : f b = some c) : a = b := by
  have hpair := pairwise_filterMap.mp h
  have : Std.Symm fun x y => ∀ d, f x = some d → ∀ d', f y = some d' → d ≠ d' :=
    ⟨fun x y hxy d hd d' hd' => (hxy d' hd' d hd).symm⟩
  by_contra hne
  exact hpair.forall ha hb hne c hfa c hfb rfl

/-- Verifiers are drawn at random, so that none is drawn twice or drawn again later. -/
structure IdentityTables.FreshHashes (t : IdentityTables) (es : List (IdentityEvent ι)) : Prop where
  distinct : (es.filterMap hashed).Nodup
  unused : ∀ record ∈ es.filterMap hashed, ∀ row ∈ t.passwordCredential,
    row.passwordHash ≠ record

omit [DecidableEq ι] in
theorem IdentityTables.FreshHashes.left (h : IdentityTables.FreshHashes t (es ++ es')) :
    t.FreshHashes es := by
  obtain ⟨hdistinct, hunused⟩ := h
  rw [filterMap_append] at hdistinct hunused
  exact ⟨hdistinct.of_append_left, fun record h => hunused record (mem_append_left _ h)⟩

/-- After a credential is replaced, the old verifier is not stored again. -/
theorem PasswordServices.Run.storedHash_ne {requests : ι → IdentityRequest}
    (hrun : S.Run (S.pool requests t) (es1 ++ commit :: es2) P)
    (hfresh : t.FreshHashes (es1 ++ commit :: es2))
    (hafter : commit.after.storedHash user = some credential.passwordHash)
    (hcommit : commit.call.stored commit.answer = some credential)
    (hold : commit.before.storedHash user = some old) : P.shared.storedHash user ≠ some old := by
  intro hlater
  obtain ⟨-, hpermits⟩ := hrun.permits
  have hhashed : ∀ l e l', es1 ++ commit :: es2 = l ++ e :: l' →
      ∀ c, e.call.stored e.answer = some c → (∃ d ∈ es1 ++ commit :: es2, d.thread = e.thread ∧
          hashed d = some c.passwordHash) ∧
        ∀ d ∈ l, d.thread = e.thread → d.call.stored d.answer = none := by
    intro l e l' hes c hc
    obtain ⟨⟨password, hhash⟩, hnone⟩ := (hpermits l e l' hes).stored hc
    obtain ⟨d, hd, hthread, heq⟩ := Pool.mem_traceOf.mp hhash
    refine ⟨⟨d, hes ▸ mem_append_left _ hd, hthread, ?_⟩, fun d hd hthread => ?_⟩
    · exact congrArg (fun x : (c : IdentityCall) × c.Answer => x.1.hashed x.2) heq
    · exact hnone _ (Pool.mem_traceOf.mpr ⟨d, hd, hthread, rfl⟩)
  obtain ⟨P1, P2, _, _, hrun1, hbefore, -, hP2, hrun2⟩ := hrun.split
  -- the verifier that is stored at the end is from the commit or from later on
  obtain ⟨l, e, l', hes, c, hc, rfl⟩ : ∃ l e l', commit :: es2 = l ++ e :: l' ∧
      ∃ c, e.call.stored e.answer = some c ∧ c.passwordHash = old := by
    obtain h | ⟨e, he, c, hc, hold⟩ := PasswordServices.Run.storedHash hrun2 hlater
    · rw [hP2, hafter] at h
      exact ⟨[], commit, es2, rfl, credential, hcommit, Option.some.inj h⟩
    · obtain ⟨l, l', rfl⟩ := append_of_mem he
      exact ⟨commit :: l, e, l', rfl, c, hc, hold⟩
  obtain ⟨⟨d, hd, hthread, hhash⟩, hnone⟩ := hhashed (es1 ++ l) e l' (by simp [hes]) c hc
  rw [hbefore] at hold
  obtain h | ⟨e', he', c', hc', hold⟩ := PasswordServices.Run.storedHash hrun1 hold
  · obtain ⟨row, hrow, hrecord⟩ := Option.map_eq_some_iff.mp h
    exact hfresh.unused _ (mem_filterMap.mpr ⟨d, hd, hhash⟩) row (mem_of_find?_eq_some hrow) hrecord
  · -- both have been drawn by the same call, and so stored by the same thread
    obtain ⟨l1, l2, rfl⟩ := append_of_mem he'
    obtain ⟨⟨d', hd', hthread', hhash'⟩, -⟩ := hhashed l1 e' (l2 ++ commit :: es2) (by simp) c' hc'
    rw [hold] at hhash'
    obtain rfl := eq_of_nodup_filterMap hfresh.distinct hd hd' hhash hhash'
    have := hnone e' (by simp) (hthread'.symm.trans hthread)
    rw [hc'] at this
    cases this

/-- The transaction of a password change. -/
structure IdentityCall.Changes (t : IdentityTables) (user : UserId) (sids : List SessionId)
    (record : PasswordHashRecord) (t' : IdentityTables) : Prop where
  sessions : ∀ x ∈ t.accountSession, ∃ y ∈ t'.accountSession, AccountSession.Later x y ∧
    (y.revokedAt = none ↔ x.revokedAt = none ∧ x.sessionId ∉ sids)
  grows : sessionGrowth.Grows t.accountSession [] t'.accountSession
  keyed : t'.Keyed
  storedHash : t'.storedHash user = some record

theorem IdentityCall.Does.changes
    (h : Does t (.replacePasswordAndRevokeSessions credential sids revokedAt) (Except.ok ()) t')
    (hk : t.Keyed) : Changes t credential.userId sids credential.passwordHash t' := by
  obtain ⟨hkeyed, hgrows⟩ := h.grows hk
  cases h with
  | unchanged hnot => cases hnot
  | changed hf hfold =>
    obtain ⟨-, hall⟩ :=
      revokeSessions_sessions hfold ⟨hk.sessions, hk.credentials.put _⟩
    have hframe := revokeSessions_frame hfold
    refine ⟨hall, hgrows, hkeyed, ?_⟩
    rw [IdentityTables.storedHash, SqlitePasswordCredentialRepository.find, hframe.1]
    exact congrArg (Option.map PasswordCredentialRow.passwordHash)
      (SqlitePasswordCredentialRepository.find_put_self rfl hf)

/-- The parts of a run in which a password change has returned: the sessions are read, and those
of them that were not revoked yet are revoked by the commit. -/
theorem PasswordServices.Run.change_parts {requests : ι → IdentityRequest}
    (hrun : S.Run (S.pool requests t) es P)
    (hreq : requests i = .changePassword verified candidate changedAt)
    (hret : P.program i = .ret (.passwordChanged n)) :
    ∃ es1 es2 es3 credential sessions t1 t1' t2 t2',
      es = es1 ++ ⟨i, .selectSessions, Except.ok sessions, t1, t1'⟩ :: (es2 ++
        ⟨i, .replacePasswordAndRevokeSessions credential
          (PasswordServices.sessionsToRevoke { sessions } verified.userId) changedAt, Except.ok (),
          t2, t2'⟩ :: es3) ∧ credential.userId = verified.userId := by
  obtain ⟨hends, hpermits⟩ := hrun.permits
  have hreturned := hends i _ hret
  rw [hreq] at hreturned
  obtain ⟨credential, sids, huser, hmem⟩ := hreturned
  obtain ⟨⟨j, _, _, t2, t2'⟩, hcommit, hj, heq⟩ := Pool.mem_traceOf.mp hmem
  obtain rfl : j = i := hj
  cases heq
  obtain ⟨l, es3, rfl⟩ := append_of_mem hcommit
  obtain ⟨_, sessions, _, htrace, rfl⟩ := hpermits l _ es3 rfl
  have hread : ⟨.selectSessions, Except.ok sessions⟩ ∈ Pool.traceOf j l := by
    rw [htrace]
    exact mem_cons_of_mem _ mem_cons_self
  obtain ⟨⟨k, _, _, t1, t1'⟩, hread, hk, heq⟩ := Pool.mem_traceOf.mp hread
  obtain rfl : k = j := hk
  cases heq
  obtain ⟨es1, es2, rfl⟩ := append_of_mem hread
  refine ⟨es1, es2, es3, credential, sessions, t1, t1', t2, t2', ?_, huser⟩
  rw [huser, append_assoc, cons_append]

private theorem mem_sessionsToRevoke : sid ∈ PasswordServices.sessionsToRevoke { sessions } user ↔
      ∃ x ∈ sessions, x.userId = user ∧ x.revokedAt = none ∧ x.sessionId = sid := by
  simp [PasswordServices.sessionsToRevoke, and_assoc]

private theorem selectSessions_answers
    (h : IdentityCall.Answers lib .selectSessions t (Except.ok sessions) t') :
    t' = t ∧ ∀ x, x ∈ sessions ↔ x ∈ t.accountSession := by
  obtain h | ⟨h, -⟩ := h
  · cases h
    exact ⟨rfl, fun x => mem_mergeSort⟩
  · cases h

private theorem IdentityCall.Does.created_proof (h : Does t c a t') (hk : t.Keyed)
    (hc : c.created a = some (sid, proof)) :
    t.storedHash proof.userId = some proof.passwordHash := by
  cases h with
  | unchanged hnot => simp [created_of_not_writes hnot] at hc
  | created _ _ _ hproof =>
    cases hc
    exact SqliteBrowserSessionRepository.storedHash_of_proofIsValid hk hproof
  | _ => cases hc

/-- A session of the user that a password change leaves unrevoked was created after the sessions
were read. -/
private theorem IdentityCall.Changes.created_between {t1 t2 t2' : IdentityTables}
    (h : Changes t2 user (PasswordServices.sessionsToRevoke { sessions := xs } user) record t2')
    (hread : ∀ x, x ∈ xs ↔ x ∈ t1.accountSession)
    (hgrows : sessionGrowth.Grows t1.accountSession l t2.accountSession)
    (hk : t2'.Keyed) (hy : y ∈ t2'.accountSession) (huser : y.userId = user)
    (hlive : y.revokedAt = none) :
    ∃ x ∈ t2.accountSession, x.revokedAt = none ∧ x.sessionId = y.sessionId ∧
      ∃ proof, (y.sessionId, proof) ∈ l ∧ proof.userId = user := by
  obtain ⟨x, hx, hxy⟩ | ⟨_, hnone, -⟩ := h.grows.origin y hy
  · obtain ⟨z, hz, hxz, hiff⟩ := h.sessions x hx
    obtain rfl := hk.sessions.eq hy hz (hxy.sessionId.trans hxz.sessionId.symm)
    obtain ⟨hx_live, hnot⟩ := hiff.mp hlive
    refine ⟨x, hx, hx_live, hxy.sessionId.symm, ?_⟩
    obtain ⟨w, hw, hwx⟩ | ⟨⟨sid, proof⟩, hproof, rfl, hx_user⟩ := hgrows.origin x hx
    · refine absurd (mem_sessionsToRevoke.mpr ⟨w, (hread w).mpr hw, ?_, ?_, ?_⟩) hnot
      · rw [← hwx.userId, ← hxy.userId, huser]
      · exact hwx.revokedAt hx_live
      · exact hwx.sessionId.symm
    · rw [hxy.sessionId]
      exact ⟨proof, hproof, by rw [← hx_user, ← hxy.userId, huser]⟩
  · cases hnone

/-- The older logins of the user are over when the password is changed by the transaction that took
the tables from `t2` to `t2'`: from then on every session of theirs that is not revoked was created
with the proof of another password than the old one, and so is every session that is created. -/
structure IdentityTables.EndsLogins (user : UserId) (t2 t2' : IdentityTables)
    (es es3 : List (IdentityEvent ι)) : Prop where
  sessions : ∀ s ∈ t2' :: es3.map PoolEvent.after, ∀ x ∈ s.accountSession, x.userId = user →
    x.revokedAt = none → ∃ e ∈ es, ∃ proof, created e = some (x.sessionId, proof) ∧
      t2.storedHash user ≠ some proof.passwordHash
  proofs : ∀ e ∈ es3, ∀ sid proof, created e = some (sid, proof) →
    proof.userId = user → t2.storedHash user ≠ some proof.passwordHash

/-- Any number of requests run next to each other, and the thread `i` has changed a password: it has
read the sessions in the state `t1`, and its commit took the tables from `t2` to `t2'`. The older
logins are over exactly if every session that was created in between with a proof of the old
password had been revoked again. -/
theorem PasswordServices.change_ends_logins (S : PasswordServices) (requests : ι → IdentityRequest)
    (t : IdentityTables) (ht : t.Keyed) (es : List (IdentityEvent ι)) (P : Requests ι)
    (hrun : S.Run (S.pool requests t) es P) (hfresh : t.FreshHashes es)
    (hreq : requests i = .changePassword verified candidate changedAt)
    (hret : P.program i = .ret (.passwordChanged n)) :
    ∃ es1 es2 es3 credential sids sessions t1 t2 t2',
      es = es1 ++ ⟨i, .selectSessions, Except.ok sessions, t1, t1⟩ :: (es2 ++
        ⟨i, .replacePasswordAndRevokeSessions credential sids changedAt, Except.ok (), t2, t2'⟩ ::
          es3) ∧ credential.userId = verified.userId ∧
      (IdentityTables.EndsLogins verified.userId t2 t2' es es3 ↔
        ∀ e ∈ es2, ∀ sid proof, IdentityEvent.created e = some (sid, proof) →
          proof.userId = verified.userId →
          t2.storedHash verified.userId = some proof.passwordHash →
          ∀ x ∈ t2.accountSession, x.sessionId = sid → x.revokedAt ≠ none) := by
  obtain ⟨es1, es2, es3, credential, sessions, t1, t1', t2, t2', rfl, huser⟩ :=
    PasswordServices.Run.change_parts hrun hreq hret
  obtain ⟨P1, P1', _, _, hrun1, hP1, hread, hP1', hrest⟩ := hrun.split
  obtain ⟨ht1', hread⟩ := selectSessions_answers hread
  obtain rfl : t1 = t1' := ht1'.symm
  obtain ⟨P2, P2', _, _, hrun2, hP2, hcommit, hP2', hrun3⟩ := hrest.split
  obtain rfl : t1 = P1.shared := hP1
  obtain rfl : t2 = P2.shared := hP2
  obtain rfl : P2'.shared = t2' := hP2'
  have hk1 := (PasswordServices.Run.grows hrun1 ht).1
  obtain ⟨hk2, hgrows2⟩ := PasswordServices.Run.grows hrun2 (hP1' ▸ hk1)
  rw [hP1'] at hgrows2
  have hchange := hcommit.does.changes hk2
  rw [huser] at hchange
  refine ⟨es1, es2, es3, credential, _, sessions, _, _, _, rfl, huser, fun hends => ?_, fun h => ?_⟩
  · -- such a session is left as it is
    intro e he sid proof hcreated hproof hold x hx rfl hlive
    have hmem : (x.sessionId, proof) ∈ es2.filterMap created :=
      mem_filterMap.mpr ⟨e, he, hcreated⟩
    obtain ⟨y, hy, hxy, hiff⟩ := hchange.sessions x hx
    have hnot : x.sessionId ∉ sessionsToRevoke { sessions } verified.userId := by
      intro hsid
      obtain ⟨w, hw, -, -, hid⟩ := mem_sessionsToRevoke.mp hsid
      exact hgrows2.fresh _ hmem w ((hread w).mp hw) hid
    have hx_user : x.userId = verified.userId :=
      (hgrows2.born_of_key hmem hx rfl).2.trans hproof
    obtain ⟨e', he', proof', hcreated', hne⟩ := hends.sessions _ mem_cons_self y hy
      (hxy.userId.trans hx_user) (hiff.mpr ⟨hlive, hnot⟩)
    rw [hxy.sessionId] at hcreated'
    have heq := (PasswordServices.Run.grows hrun ht).2.new_unique
      (mem_filterMap.mpr ⟨e, by simp [he], hcreated⟩)
      (mem_filterMap.mpr ⟨e', he', hcreated'⟩) rfl
    cases heq
    exact hne hold
  · have hproofs : ∀ e ∈ es3, ∀ sid proof, created e = some (sid, proof) →
        proof.userId = verified.userId →
          P2.shared.storedHash verified.userId ≠ some proof.passwordHash := by
      intro e he sid proof hcreated hproof hold
      obtain ⟨l, l', rfl⟩ := append_of_mem he
      rw [← cons_append, ← append_assoc, ← cons_append, ← append_assoc] at hrun hfresh
      obtain ⟨Pₑ, _, _, _, hrunₑ, hbefore, hₑ, -, -⟩ := hrun.split
      have hkₑ := (PasswordServices.Run.grows hrunₑ ht).1
      have hgone := PasswordServices.Run.storedHash_ne hrunₑ hfresh.left
        (huser ▸ hchange.storedHash)
        rfl (huser ▸ hold)
      have hstored := hₑ.does.created_proof (hbefore ▸ hkₑ) hcreated
      rw [hbefore, hproof] at hstored
      exact hgone (huser ▸ hstored)
    refine ⟨fun s hs y hy hy_user hlive => ?_, hproofs⟩
    obtain ⟨l, l', P3, rfl, hrun3, rfl⟩ := hrun3.reaches hs
    obtain ⟨hk3, hgrows3⟩ := PasswordServices.Run.grows hrun3 hchange.keyed
    obtain ⟨x, hx, hxy⟩ | ⟨⟨sid, proof⟩, hproof, rfl, hp⟩ := hgrows3.origin y hy
    · obtain ⟨w, hw, hw_live, hid, proof, hproof, hp⟩ := hchange.created_between hread hgrows2
        hchange.keyed hx (hxy.userId ▸ hy_user) (hxy.revokedAt hlive)
      obtain ⟨e, he, hcreated⟩ := mem_filterMap.mp hproof
      refine ⟨e, by simp [he], proof, hxy.sessionId ▸ hcreated, fun hold => ?_⟩
      exact h e he _ proof hcreated hp hold w hw hid hw_live
    · obtain ⟨e, he, hcreated⟩ := mem_filterMap.mp hproof
      exact ⟨e, by simp [he], proof, hcreated,
        hproofs e (mem_append_left _ he) _ proof hcreated (hp ▸ hy_user)⟩

end

/-- Kai changes their password while a session is created with a proof of the old one. -/
def lateLogin (i : Fin 2) : IdentityRequest :=
  [.changePassword ⟨⟨1⟩, ⟨100⟩, ⟨"kai's verifier"⟩⟩ "kai's other password" ⟨110⟩,
    .createSession ⟨7⟩ ⟨9⟩ ⟨⟨1⟩, ⟨105⟩, ⟨"kai's verifier"⟩⟩ ⟨1000⟩].get i

/-- The run of the two requests when their threads are scheduled in this order. -/
def lateLoginRun (schedule : List (Fin 2)) :=
  Pool.exec (respond plainServices.lib)
    (schedule.map fun i => (i, ⟨"kai's other verifier"⟩, true))
    (plainServices.pool lateLogin kaiTables)

/-- The change has returned, and the session that was created with the old password is alive. -/
theorem late_login_survives :
    plainServices.Run (plainServices.pool lateLogin kaiTables) (lateLoginRun [0, 0, 1, 0, 0]).1
        (lateLoginRun [0, 0, 1, 0, 0]).2 ∧
      ((lateLoginRun [0, 0, 1, 0, 0]).2.program 0).result? = some (.ok (.passwordChanged 0)) ∧
      (lateLoginRun [0, 0, 1, 0, 0]).1.filterMap created =
        [(⟨7⟩, ⟨⟨1⟩, ⟨105⟩, ⟨"kai's verifier"⟩⟩)] ∧
      kaiTables.storedHash ⟨1⟩ = some ⟨"kai's verifier"⟩ ∧
      (lateLoginRun [0, 0, 1, 0, 0]).2.shared.accountSession.map
        (fun x => (x.sessionId, x.userId, x.revokedAt)) = [(⟨7⟩, ⟨1⟩, none)] := by
  refine ⟨plainServices.exec_run _ _, ?_, ?_, ?_, ?_⟩ <;> decide +kernel

/-- With the login first, the change ends it. -/
theorem change_ends_earlier_login :
    ((lateLoginRun [1, 0, 0, 0, 0]).2.program 0).result? = some (.ok (.passwordChanged 1)) ∧
      ∃ es3 t2 t2', IdentityTables.EndsLogins ⟨1⟩ t2 t2' (lateLoginRun [1, 0, 0, 0, 0]).1 es3 := by
  have hret : ((lateLoginRun [1, 0, 0, 0, 0]).2.program 0).result? =
      some (.ok (.passwordChanged 1)) := by
    decide +kernel
  obtain ⟨es1, es2, es3, _, _, _, _, t2, t2', hes, -, hiff⟩ :=
    plainServices.change_ends_logins lateLogin kaiTables ⟨by decide, by decide⟩
      (lateLoginRun [1, 0, 0, 0, 0]).1 _ (plainServices.exec_run _ _)
      ⟨by decide +kernel, by decide +kernel⟩ rfl (Prog.result?_eq_ok.mp hret)
  refine ⟨hret, es3, t2, t2', hiff.mpr fun e he sid proof hcreated => ?_⟩
  have htail : (lateLoginRun [1, 0, 0, 0, 0]).1.tail.filterMap created = [] := by
    decide +kernel
  have hhead : (lateLoginRun [1, 0, 0, 0, 0]).1.head?.map PoolEvent.call ≠
      some .selectSessions := by
    decide +kernel
  rw [hes] at htail hhead
  cases es1 with
  | nil => exact absurd rfl hhead
  | cons _ es1 =>
    rw [cons_append, tail_cons, filterMap_eq_nil_iff] at htail
    simp [htail e (by simp [he])] at hcreated

end Rumahl
