import Rumahl.Oidc.Codes
import Rumahl.Oidc.Families

/-!
# Revocation

What a session or an installation has been given is revoked in one transaction. The rows that are
there stay revoked; what is left to see is that nothing new comes of the requests that were under
way. An installation stays closed because its client is checked in every transaction. A session is
not checked when a token is stored, so an exchange that has consumed its code survives the
revocation of its session.
-/

namespace Rumahl

open Effect List SqliteOidcAccessTokenStore SqliteOidcAuthorizationStore SqliteOidcClientRepository
  AuthorizationTransaction

namespace OidcCall

variable {sha256 : List UInt8 → Sha256Digest}

/-- The transaction that a call has approved, and the code that it gave out for it. -/
def approval : (c : OidcCall) → c.Answer → Option (String × String)
  | approveTransaction tid _ _ _ _ _ _ _, .ok (some approved) => some (tid, approved.code)
  | _, _ => none

/-- The access token that a call has resolved. -/
def resolvedToken : (c : OidcCall) → c.Answer → Option String
  | resolveAccess raw _, .ok (some _) => some raw
  | _, _ => none

theorem Answers.of_resolvedToken (h : Answers sha256 c t a t')
    (hraw : c.resolvedToken a = some raw) :
    ∃ row ∈ t.accessToken, row.digest = sha256 (textBytes raw) ∧ row.revokedAt = none := by
  unfold resolvedToken at hraw
  split at hraw
  · cases hraw
    obtain h | ⟨h, -⟩ := h
    · obtain ⟨row, hrow, hdigest, hlive, -⟩ :=
        resolveAccess_eq_some (congrArg Prod.fst h).symm
      exact ⟨row, hrow, hdigest, (isLive_eq_true hlive).1⟩
    · cases h
  · cases hraw

theorem consumedCode_eq_some (h : c.consumedCode a = some raw) : ∃ client uri verifier now code,
      (⟨c, a⟩ : (c : OidcCall) × c.Answer) =
        ⟨.consumeCode raw client uri verifier now, Except.ok (some code)⟩ := by
  unfold consumedCode at h
  split at h
  · cases h
    exact ⟨_, _, _, _, _, rfl⟩
  · cases h

theorem Does.of_newGrant (h : Does sha256 t c a t') (hnew : c.newGrant a = some grant) :
    ∃ f, c = .insertAccess grant f ∧ newRow grant f ∈ t'.accessToken := by
  cases h with
  | unchanged hnot =>
    rw [newGrant_of_not_writes hnot] at hnew
    cases hnew
  | issued =>
    cases hnew
    exact ⟨_, rfl, mem_append_right _ (mem_singleton_self _)⟩
  | _ => cases hnew

/-- An approval is of a transaction that is open, and the code is for its session. -/
theorem Does.of_approval (h : Does sha256 t c a t') (ha : c.approval a = some (tid, raw)) :
    ∃ row ∈ t.transaction, row.body.id = tid ∧ row.isOpen = true ∧
      ∃ code, ⟨code, none, none⟩ ∈ t'.code ∧ code.digest = sha256 (textBytes raw) ∧
        code.sessionId = row.body.sessionId := by
  unfold approval at ha
  split at ha
  · cases ha
    obtain ⟨_, _, _, _, _, _, _, _, row, code, hc, hrow, hid, hopen, -, happrove, hmem⟩ :=
      h.of_newCode rfl
    cases hc
    obtain ⟨-, hdigest, -, -, -, -, ⟨hsession, hsession'⟩, -⟩ :=
      approve_eq_ok happrove
    exact ⟨row, hrow, hid, hopen, code, hmem, hdigest, hsession.trans hsession'.symm⟩
  · cases ha

end OidcCall

namespace OidcProvider

variable [DecidableEq ι] {S : OidcProvider} {requests : ι → OidcRequest} {P P1 P' : OidcPool ι}
  {es es1 es2 l1 l2 : List (OidcEvent ι)} {e r : OidcEvent ι}

/-! ## What comes of a transaction -/

/-- The transactions that were begun. -/
def transactions (es : List (OidcEvent ι)) : List AuthorizationTransaction :=
  es.flatMap fun e => (e.call.newTransaction e.answer).toList

/-- The code was given out for the transaction. -/
def CodeFrom (es : List (OidcEvent ι)) (x : AuthorizationTransaction) (raw : String) : Prop :=
  ∃ a ∈ es, a.call.approval a.answer = some (x.id, raw)

/-- The access token was stored by a thread that had consumed a code of the transaction. -/
def TokenFrom (S : OidcProvider) (es : List (OidcEvent ι)) (x : AuthorizationTransaction)
    (raw : String) : Prop :=
  ∃ l1 c l2 code d grant, es = l1 ++ c :: l2 ∧ c.call.consumedCode c.answer = some code ∧
    CodeFrom l1 x code ∧ d ∈ l2 ∧ d.thread = c.thread ∧ d.call.newGrant d.answer = some grant ∧
    grant.digest = S.sha256 (textBytes raw)

theorem Run.transaction_eq (hrun : S.Run (S.pool requests {}) (es1 ++ es2) P)
    (hrun1 : S.Run (S.pool requests {}) es1 P1) (hrow : row ∈ P1.shared.transaction)
    (hx : x ∈ transactions (es1 ++ es2)) (hid : row.body.id = x.id) : row.body = x := by
  obtain ⟨l1, b, l2, rfl, hb⟩ := hrun1.transaction_origin rfl hrow
  have hgrows := Pool.Run.grows hrun (fun _ he hk => (hrun.does he).transactions hk) .nil
  refine hgrows.new_unique (mem_flatMap.mpr ⟨b, ?_, Option.mem_toList.mpr hb⟩) hx hid
  simp

omit [DecidableEq ι] in
theorem transactions_mono (h : es ⊆ es') : transactions es ⊆ transactions es' := by
  intro x hx
  obtain ⟨b, hb, hx⟩ := mem_flatMap.mp hx
  exact mem_flatMap.mpr ⟨b, h hb, hx⟩

/-- A code that was given out for a transaction is of its session. -/
theorem Run.approval_of_transaction (hrun : S.Run (S.pool requests {}) es P)
    (hx : x ∈ transactions es) (ha : a ∈ es)
    (happroval : a.call.approval a.answer = some (x.id, raw)) :
    (∃ row ∈ a.before.transaction, row.body = x ∧ row.isOpen = true) ∧
      ∃ code, ⟨code, none, none⟩ ∈ a.after.code ∧ code.digest = S.sha256 (textBytes raw) ∧
        code.sessionId = x.sessionId := by
  obtain ⟨row, hrow, hid, hopen, code, hcode, hdigest, hsession⟩ :=
    (hrun.does ha).of_approval happroval
  obtain ⟨l1, l2, rfl⟩ := append_of_mem ha
  obtain ⟨Q, hQ, hQa⟩ := hrun.before
  obtain rfl := hrun.transaction_eq hQ (hQa ▸ hrow) hx hid
  exact ⟨⟨row, hrow, rfl, hopen⟩, code, hcode, hdigest, hsession⟩

/-! ## Sessions -/

/-- After the event `r`, which follows `es1`, nothing that comes of a transaction of the session
begun in `es1` is used in `es2`. A family is not tied to a transaction: it is that of the
session. -/
structure SessionEnded (S : OidcProvider) (session : SessionId) (es1 : List (OidcEvent ι))
    (r : OidcEvent ι) (es2 : List (OidcEvent ι)) : Prop where
  codes : ∀ l1 e l2, es2 = l1 ++ e :: l2 → ∀ x ∈ transactions es1, x.sessionId = session →
    ∀ raw, e.call.consumedCode e.answer = some raw → ¬ CodeFrom (es1 ++ r :: l1) x raw
  families : ∀ e ∈ es2, ∀ row ∈ r.before.family, row.family.sessionId = session →
    ∀ raw, ¬ S.Rotates e raw row.family.id
  tokens : ∀ l1 e l2, es2 = l1 ++ e :: l2 → ∀ x ∈ transactions es1, x.sessionId = session →
    ∀ raw, e.call.resolvedToken e.answer = some raw → ¬ S.TokenFrom (es1 ++ r :: l1) x raw

/-- The thread has consumed a code of the session, and it goes on. -/
def Exchanging (session : SessionId) (es : List (OidcEvent ι)) (P : OidcPool ι) (i : ι) : Prop :=
  (∃ raw client uri verifier now code, code.sessionId = session ∧
    ⟨.consumeCode raw client uri verifier now, Except.ok (some code)⟩ ∈ Pool.traceOf i es) ∧
  ∃ c k, P.program i = .call c k

theorem Run.before_later (hrun : S.Run P (es1 ++ r :: (l1 ++ e :: l2)) P') :
    ∃ Q, S.Run P (es1 ++ r :: l1) Q ∧ Q.shared = e.before := by
  rw [← cons_append, ← append_assoc] at hrun
  exact hrun.before

section

variable {now : UnixTimestamp} {session : SessionId} {n : Nat} {t t' : OidcTables} {i : ι}

theorem Run.session_revoked (hrun : S.Run (S.pool requests {})
      (es1 ++ ⟨i, .revokeForSession session now, Except.ok n, t, t'⟩ :: es2) P) :
    t' = t.revoke now (·.sessionId = session) (·.sessionId = session)
      (·.family.sessionId = session) (·.sessionId = session) := by
  have hdoes : OidcCall.Does S.sha256 t (.revokeForSession session now) (Except.ok n) t' :=
    hrun.does (mem_append_right _ mem_cons_self)
  cases hdoes with
  | unchanged hnot => cases hnot
  | sessionRevoked => rfl

section

variable (hrun : S.Run (S.pool requests {})
  (es1 ++ ⟨i, .revokeForSession session now, Except.ok n, t, t'⟩ :: l1) P)
include hrun

theorem Run.code_dead (hx : x ∈ t.code) (hsession : x.body.sessionId = session)
    (hy : y ∈ P.shared.code) (hdigest : y.body.digest = x.body.digest) : y.revokedAt ≠ none := by
  have hz : x.revoke now ∈ t'.code := by
    rw [hrun.session_revoked]
    exact mem_map.mpr ⟨x, hx, if_pos (decide_eq_true hsession)⟩
  have hlater := hrun.code_later .nil hz hy (hdigest.trans (by rw [(x.revoke_later now).body]))
  exact fun hnone => x.revoke_revokedAt now (hlater.revokedAt hnone)

theorem Run.transaction_dead (hx : x ∈ t.transaction) (hsession : x.body.sessionId = session)
    (hy : y ∈ P.shared.transaction) (hid : y.body.id = x.body.id) : y.revokedAt ≠ none := by
  have hz : x.revoke now ∈ t'.transaction := by
    rw [hrun.session_revoked]
    exact mem_map.mpr ⟨x, hx, if_pos (decide_eq_true hsession)⟩
  have hgrows := Pool.Run.grows_split hrun (fun _ he hk => (hrun.does he).transactions hk) .nil
  have hlater := hgrows.2.2.later_of_key hz hy (hid.trans
    (congrArg AuthorizationTransaction.id (x.revoke_later now).body.symm))
  exact fun hnone => x.revoke_revokedAt now (hlater.revokedAt hnone)

theorem Run.access_dead (hx : x ∈ t.accessToken) (hsession : x.sessionId = session)
    (hy : y ∈ P.shared.accessToken) (hdigest : y.digest = x.digest) : y.revokedAt ≠ none := by
  have hz : x.revoke now ∈ t'.accessToken := by
    rw [hrun.session_revoked]
    exact mem_map.mpr ⟨x, hx, if_pos (decide_eq_true hsession)⟩
  have hgrows := Pool.Run.grows_split hrun (fun _ he hk => (hrun.does he).accessTokens hk) .nil
  have hlater := hgrows.2.2.later_of_key hz hy (hdigest.trans (x.revoke_later now).digest.symm)
  exact fun hnone => x.revoke_revokedAt now (hlater.revokedAt hnone)

end

theorem Run.family_dead (hrun : S.Run (S.pool requests {})
      (es1 ++ ⟨i, .revokeForSession session now, Except.ok n, t, t'⟩ :: es2) P)
    (hx : x ∈ t.family) (hsession : x.family.sessionId = session) :
    t'.FamilyDead x.family.id := by
  have hgrows := Pool.Run.grows_split hrun (fun _ he hk => (hrun.does he).families hk) .nil
  have hz : x.revoke now ∈ t'.family := by
    rw [hrun.session_revoked]
    exact mem_map.mpr ⟨x, hx, if_pos (decide_eq_true hsession)⟩
  refine ⟨hgrows.2.1.keyed, ⟨_, hz, (x.revoke_later now).id⟩, fun y hy hid => ?_⟩
  obtain rfl := hgrows.2.1.keyed.eq hy hz (hid.trans (x.revoke_later now).id.symm)
  exact x.revoke_revokedAt now

theorem Run.transaction_mem (hrun : S.Run (S.pool requests {}) es P) (hx : x ∈ transactions es) :
    ∃ row ∈ P.shared.transaction, row.body = x :=
  (Pool.Run.grows hrun (fun _ he hk => (hrun.does he).transactions hk) .nil).stays x hx

theorem Run.code_not_consumed (hrun : S.Run (S.pool requests {})
      (es1 ++ ⟨i, .revokeForSession session now, Except.ok n, t, t'⟩ :: (l1 ++ e :: l2)) P)
    (hx : x ∈ transactions es1) (hsession : x.sessionId = session)
    (hconsumed : e.call.consumedCode e.answer = some raw) :
    ¬ CodeFrom (es1 ++ ⟨i, .revokeForSession session now, Except.ok n, t, t'⟩ :: l1) x raw := by
  rintro ⟨a, ha, happroval⟩
  obtain ⟨Q, hQ, hQe⟩ := hrun.before_later
  obtain ⟨y, hy, hydigest, hopen⟩ := ((hrun.does (by simp)).of_consumedCode hconsumed).1
  rw [← hQe] at hy
  obtain ⟨⟨row, hrow, rfl, hrowOpen⟩, code, hcode, hdigest, hcodeSession⟩ :=
    hQ.approval_of_transaction (transactions_mono (subset_append_left _ _) hx) ha happroval
  obtain ⟨Q0, hQ0, hQ0r⟩ := hQ.before
  obtain rfl : Q0.shared = t := hQ0r
  obtain ha | ha := mem_append.mp ha
  · -- The code was there when the session was revoked.
    obtain ⟨m1, m2, rfl⟩ := append_of_mem ha
    have hgrows := Pool.Run.grows_split hQ0 (fun _ he hk => (hQ0.does he).codes hk) .nil
    obtain ⟨z, hz, hlater⟩ := hgrows.2.2.later _ hcode
    refine hQ.code_dead hz ?_ hy ?_ (OneUse.isOpen_eq_true.mp hopen).2
    · rw [hlater.body, ← hsession]
      exact hcodeSession
    · rw [hlater.body, hydigest]
      exact hdigest.symm
  · obtain rfl | ha := mem_cons.mp ha
    · cases happroval
    · -- The transaction was revoked with the session.
      obtain ⟨m1, m2, rfl⟩ := append_of_mem ha
      obtain ⟨x, hxrow, hxbody⟩ := hQ0.transaction_mem hx
      obtain ⟨Qa, hQa, hQaa⟩ := hQ.before_later
      refine hQa.transaction_dead hxrow (hxbody ▸ hsession) (hQaa ▸ hrow) ?_
        (OneUse.isOpen_eq_true.mp hrowOpen).2
      rw [hxbody]

theorem Run.access_later (hrun : S.Run (S.pool requests {}) es P) (hd : d ∈ es)
    (hx : x ∈ d.after.accessToken) : ∃ y ∈ P.shared.accessToken, x.Later y := by
  obtain ⟨l1, l2, rfl⟩ := append_of_mem hd
  have hgrows := Pool.Run.grows_split hrun (fun _ he hk => (hrun.does he).accessTokens hk) .nil
  exact hgrows.2.2.later x hx

/-- A thread that stores a token after it has consumed a code does so for the session of the
code. -/
theorem Run.grant_session (hrun : S.Run (S.pool requests {}) (l1 ++ c :: l2) P)
    (hcode : (⟨c.call, c.answer⟩ : (c : OidcCall) × c.Answer) =
      ⟨.consumeCode raw client uri verifier now, Except.ok (some code)⟩)
    (hd : d ∈ l2) (hthread : d.thread = c.thread) (hgrant : d.call.newGrant d.answer = some grant) :
    grant.sessionId = code.sessionId := by
  obtain ⟨f, hcall, -⟩ := (hrun.does (mem_append_right _ (mem_cons_of_mem _ hd))).of_newGrant hgrant
  obtain ⟨m1, m2, rfl⟩ := append_of_mem hd
  rw [← cons_append, ← append_assoc] at hrun
  have hmem : (⟨.consumeCode raw client uri verifier now, Except.ok (some code)⟩ :
      (c : OidcCall) × c.Answer) ∈ Pool.traceOf d.thread (l1 ++ c :: m1) :=
    Pool.mem_traceOf.mpr ⟨c, by simp, hthread.symm, hcode⟩
  have hpermits := (Run.permits hrun).2 _ _ _ rfl
  rw [hcall] at hpermits
  obtain ⟨-, htrace⟩ | ⟨_, _, _, _, _, _, _, _, code', _, _, _, _, _, -, htrace, _, hissue⟩ :=
    hpermits
  · rw [htrace] at hmem
    cases hmem
  · rw [htrace] at hmem
    obtain ⟨-, -, -, hsession, -⟩ := AccessTokenGrant.issue_eq_ok hissue
    rw [hsession]
    simp only [mem_cons, not_mem_nil, or_false] at hmem
    obtain h | h | h | h | h := hmem <;> cases h
    rfl

/-- A code that was given out for the transaction is consumed as one of its session. -/
theorem Run.consumed_session (hrun : S.Run (S.pool requests {}) (l1 ++ c :: l2) P)
    (hx : x ∈ transactions (l1 ++ c :: l2)) (hfrom : CodeFrom l1 x raw)
    (hcode : (⟨c.call, c.answer⟩ : (c : OidcCall) × c.Answer) =
      ⟨.consumeCode raw client uri verifier now, Except.ok (some code)⟩) :
    code.sessionId = x.sessionId := by
  obtain ⟨a, ha, happroval⟩ := hfrom
  obtain ⟨-, code', hcode', hdigest', hsession⟩ :=
    hrun.approval_of_transaction hx (mem_append_left _ ha) happroval
  obtain ⟨j, call, answer, u, u'⟩ := c
  cases hcode
  have hdoes : OidcCall.Does S.sha256 u (.consumeCode raw client uri verifier now)
    (Except.ok (some code)) u' := hrun.does (mem_append_right _ mem_cons_self)
  obtain ⟨Q, hQ, hQu⟩ := hrun.before
  obtain rfl : Q.shared = u := hQu
  obtain ⟨m1, m2, rfl⟩ := append_of_mem ha
  cases hdoes with
  | unchanged hnot => cases hnot
  | consumed hrow hbody hopen hdigest =>
    subst hbody
    rw [← hsession, (hQ.code_later .nil hcode' hrow (hdigest.trans hdigest'.symm)).body]

theorem Run.token_not_resolved (hrun : S.Run (S.pool requests {})
      (es1 ++ ⟨i, .revokeForSession session now, Except.ok n, t, t'⟩ :: (l1 ++ e :: l2)) P)
    (hidle : ∀ j raw client uri verifier now code, code.sessionId = session →
      ⟨.consumeCode raw client uri verifier now, Except.ok (some code)⟩ ∈ Pool.traceOf j es1 →
      ∀ d ∈ l1, d.thread ≠ j)
    (hx : x ∈ transactions es1) (hsession : x.sessionId = session)
    (hresolved : e.call.resolvedToken e.answer = some raw) :
    ¬ S.TokenFrom (es1 ++ ⟨i, .revokeForSession session now, Except.ok n, t, t'⟩ :: l1) x raw := by
  rintro ⟨m1, c, m2, text, d, grant, heq, htext, hfrom, hd, hthread, hgrant, hdigest⟩
  obtain ⟨client, uri, verifier, now', code, hcode⟩ := OidcCall.consumedCode_eq_some htext
  obtain ⟨Q, hQ, hQe⟩ := hrun.before_later
  have hQ' := hQ
  rw [heq] at hQ'
  have hgrantSession := hQ'.grant_session hcode hd hthread hgrant
  have hcodeSession := hQ'.consumed_session
    (heq ▸ transactions_mono (subset_append_left _ _) hx) hfrom hcode
  rw [hsession] at hcodeSession
  obtain ⟨k, rfl, hk⟩ | ⟨k, rfl, hk⟩ := append_eq_append_iff.mp heq
  · -- The code was consumed after the revocation.
    cases k with
    | nil =>
      cases hk
      cases htext
    | cons _ k =>
      cases hk
      exact hQ.code_not_consumed hx hsession htext hfrom
  · cases k with
    | nil =>
      cases hk
      cases htext
    | cons _ k =>
      cases hk
      obtain hd' | hd' := mem_append.mp hd
      · -- The token was there when the session was revoked.
        obtain ⟨Q0, hQ0, hQ0r⟩ := hQ.before
        obtain rfl : Q0.shared = t := hQ0r
        obtain ⟨_, _, hanswer⟩ := Pool.Run.answers hrun e (by simp)
        obtain ⟨y, hy, hydigest, hlive⟩ := hanswer.of_resolvedToken hresolved
        have hmem : d ∈ m1 ++ c :: k := mem_append_right _ (mem_cons_of_mem _ hd')
        obtain ⟨f, -, hrow⟩ := (hQ0.does hmem).of_newGrant hgrant
        obtain ⟨z, hz, hlater⟩ := hQ0.access_later hmem hrow
        refine hQ.access_dead hz ?_ (hQe ▸ hy) ?_ hlive
        · rw [hlater.sessionId, ← hcodeSession, ← hgrantSession]
          rfl
        · rw [hlater.digest, hydigest, ← hdigest]
          rfl
      · obtain rfl | hd' := mem_cons.mp hd'
        · cases hgrant
        · refine hidle c.thread text client uri verifier now' code hcodeSession ?_ d hd' hthread
          exact Pool.mem_traceOf.mpr ⟨c, by simp, rfl, hcode⟩

/-- A session is ended for good if no exchange of one of its codes is under way when it is
revoked. -/
theorem revoke_for_session_ends_session (hpre : S.Run (S.pool requests {}) es1 P1)
    (hrest : S.Run P1 (⟨i, .revokeForSession session now, Except.ok n, t, t'⟩ :: es2) P)
    (hquiet : ∀ j, ¬ Exchanging session es1 P1 j) :
    S.SessionEnded session es1 ⟨i, .revokeForSession session now, Except.ok n, t, t'⟩ es2 := by
  have hrun := Pool.Run.append hpre hrest
  refine ⟨?_, ?_, ?_⟩
  · rintro l1 e l2 rfl x hx hsession raw hconsumed
    exact Run.code_not_consumed hrun hx hsession hconsumed
  · intro e he row hrow hsession raw hrotates
    obtain ⟨Q, hQ, hafter⟩ := Run.after hrun
    obtain rfl : Q.shared = t' := hQ
    have hdead := (Pool.Run.always hafter (fun _ he => (Run.does hafter he).familyDead)
      (Run.family_dead hrun hrow hsession)).1 e he
    obtain ⟨hraw, x, hx, hxd, hxf⟩ := hrotates
    obtain ⟨y, hy, hyd, hlive, -⟩ := (Run.does hafter he).of_rotatedToken hraw
    have hunique := (Run.currentUnique hrun).1 e (mem_append_right _ (mem_cons_of_mem _ he))
    exact hdead.revoked y hy ((hunique y hy x hx (hyd.trans hxd.symm)).trans hxf) hlive
  · rintro l1 e l2 rfl x hx hsession raw hresolved
    refine Run.token_not_resolved hrun
      (fun j raw client uri verifier now code hcode htrace d hd => ?_)
      hx hsession hresolved
    refine Pool.Run.thread_ne hrest (fun c k hp => ?_) d (by simp [hd])
    exact hquiet j ⟨⟨raw, client, uri, verifier, now, code, hcode, htrace⟩, c, k, hp⟩

end

end OidcProvider

/-! ## A session that is revoked while a code is exchanged -/

/-- A login for the client, the revocation of its session, and a look at its token. -/
def notesLogout (i : Fin 6) : OidcRequest :=
  [.insertClient notesClient, notesBegin, notesApprove, notesExchange, .revokeForSession ⟨7⟩ ⟨45⟩,
    .resolveAccess (randomValue (bytes32 4)) ⟨50⟩].get i

/-- The calls when the threads are scheduled in this order. -/
def notesLogoutEvents (schedule : List (Fin 6)) : List (OidcEvent (Fin 6)) :=
  (plainProvider.runs notesLogout {} schedule).1

theorem notesLogoutEvents_run (schedule : List (Fin 6)) :
    ∃ P, plainProvider.Run (plainProvider.pool notesLogout {}) (notesLogoutEvents schedule) P :=
  ⟨_, plainProvider.runs_run notesLogout {} schedule⟩

/-- The exchange stores its token after the session was revoked, and the token is good. -/
theorem token_survives_logout :
    let es := notesLogoutEvents [0, 1, 1, 1, 2, 2, 2, 3, 3, 3, 3, 3, 4, 3, 5]
    (∃ P, plainProvider.Run (plainProvider.pool notesLogout {}) es P) ∧
      ∃ r, es[12]? = some r ∧ r.call = .revokeForSession ⟨7⟩ ⟨45⟩ ∧ r.call.writes r.answer = true ∧
        ¬ plainProvider.SessionEnded ⟨7⟩ (es.take 12) r (es.drop 13) := by
  intro es
  refine ⟨notesLogoutEvents_run _, ?_⟩
  -- One evaluation of the run gives every fact about its events.
  have hevents :
      (OidcProvider.transactions (es.take 12)).map (fun x => (x.id, x.sessionId)) =
          [(randomValue (bytes32 1), ⟨7⟩)] ∧
        es.length = 15 ∧
        es[6]?.any (fun e =>
          e.call.approval e.answer = some (randomValue (bytes32 1), randomValue (bytes32 2))) ∧
        es[8]?.any (fun e =>
          e.thread = 3 ∧ e.call.consumedCode e.answer = some (randomValue (bytes32 2))) ∧
        es[12]?.any (fun e =>
          e.call = .revokeForSession ⟨7⟩ ⟨45⟩ ∧ e.call.writes e.answer) ∧
        es[13]?.any (fun e => e.thread = 3 ∧
          ((e.call.newGrant e.answer).map AccessTokenGrant.digest) =
            some (plainProvider.sha256 (textBytes (randomValue (bytes32 4))))) ∧
        es[14]?.any (fun e => e.call.resolvedToken e.answer = some (randomValue (bytes32 4))) := by
    decide +kernel
  clear_value es
  obtain ⟨htransaction, hlen, h6, h8, h12, h13, h14⟩ := hevents
  obtain ⟨x, hx, hxid⟩ := mem_map.mp (htransaction ▸ mem_singleton_self _)
  obtain ⟨hxid, hxsession⟩ := Prod.mk.inj hxid
  obtain ⟨a, ha, happroval⟩ := exists_at 6 _ h6
  obtain ⟨c, hc, hconsumed⟩ := exists_at 8 _ h8
  obtain ⟨r, hr, hcall⟩ := exists_at 12 _ h12
  obtain ⟨d, hd, hstored⟩ := exists_at 13 _ h13
  obtain ⟨e, he, hresolved⟩ := exists_at 14 _ h14
  obtain ⟨grant, hgrant, hdigest⟩ := Option.map_eq_some_iff.mp hstored.2
  refine ⟨r, hr, hcall.1, hcall.2, fun h => ?_⟩
  have hrest : es.drop 13 = [d] ++ e :: [] := by
    rw [drop_eq_getElem_cons (by omega), drop_eq_getElem_cons (by omega),
      drop_eq_nil_of_le (by omega), (List.getElem?_eq_some_iff.mp hd).2,
      (List.getElem?_eq_some_iff.mp he).2]
    rfl
  have hpre : es.take 12 ++ r :: [d] = es.take 14 := by
    have h12 := take_add_one (l := es) (i := 12)
    have h13 := take_add_one (l := es) (i := 13)
    rw [hr] at h12
    rw [hd, h12] at h13
    simpa using h13.symm
  have hsplit : (es.take 14)[8]? = some c := by simpa using hc
  refine h.tokens [d] e [] hrest x hx hxsession (randomValue (bytes32 4)) hresolved ?_
  rw [hpre]
  refine ⟨_, c, _, randomValue (bytes32 2), d, grant, split_at hsplit, hconsumed.2,
    ⟨a, ?_, hxid ▸ happroval⟩, ?_, hstored.1.trans hconsumed.1.symm, hgrant, hdigest⟩
  · exact mem_of_getElem? (i := 6) (by simpa using ha)
  · exact mem_of_getElem? (i := 4) (by simpa using hd)

/-- Revoked before the code is exchanged, the session is ended. -/
theorem logout_before_exchange_ends_session :
    let pre := plainProvider.runs notesLogout {} [0, 1, 1, 1, 2, 2, 2]
    let rest := Pool.exec (OidcCall.respond plainProvider.sha256)
      ([4, 3, 3, 5].map fun i => (i, ())) pre.2
    ∃ r es2, rest.1 = r :: es2 ∧ plainProvider.SessionEnded ⟨7⟩ pre.1 r es2 := by
  intro pre rest
  obtain ⟨hfirst, hnone⟩ :
      rest.1.head?.any (fun e =>
          e.call = .revokeForSession ⟨7⟩ ⟨45⟩ ∧ e.call.writes e.answer) = true ∧
        pre.1.all (fun e => (e.call.consumedCode e.answer).isNone) = true := by
    decide +kernel
  have hpre : plainProvider.Run (plainProvider.pool notesLogout {}) pre.1 pre.2 :=
    plainProvider.runs_run notesLogout {} _
  have hrun : plainProvider.Run pre.2 rest.1 rest.2 := plainProvider.exec_run _ _
  clear_value rest pre
  cases hes : rest.1 with
  | nil =>
    rw [hes] at hfirst
    cases hfirst
  | cons r es2 =>
    rw [hes] at hfirst hrun
    refine ⟨r, es2, rfl, ?_⟩
    obtain ⟨j, c, a, t, t'⟩ := r
    obtain ⟨hcall, hwrites⟩ : c = .revokeForSession ⟨7⟩ ⟨45⟩ ∧ c.writes a = true := by
      simpa using hfirst
    subst hcall
    cases a with
    | error => cases hwrites
    | ok n =>
      refine plainProvider.revoke_for_session_ends_session hpre hrun ?_
      rintro k ⟨⟨raw, client, uri, verifier, now, code, -, htrace⟩, -⟩
      obtain ⟨e, he, -, heq⟩ := Pool.mem_traceOf.mp htrace
      have hisNone := all_eq_true.mp hnone e he
      obtain ⟨_, _, _, _, _⟩ := e
      cases heq
      cases hisNone

/-! ## Installations -/

/-- The installation has had a client, which is revoked, and so is every family bound to it. -/
structure OidcTables.InstallationClosed (i : InstallationId) (t : OidcTables) : Prop where
  keyed : t.Keyed
  exists_client : ∃ c ∈ t.client, c.installationId = i
  revoked : ∀ c ∈ t.client, c.installationId = i → c.isActive ≠ true
  families : ∀ row ∈ t.family, row.installationId = i → row.family.revokedAt ≠ none

namespace OidcCall

variable {sha256 : List UInt8 → Sha256Digest}

theorem Does.keyed (h : Does sha256 t c a t') (hk : t.Keyed) : t'.Keyed where
  client := (h.clients hk.client).keyed
  installation := (h.installations hk.installation).keyed
  transaction := (h.transactions hk.transaction).keyed
  code := (h.codes hk.code).keyed
  family := (h.families hk.family).keyed
  accessToken := (h.accessTokens hk.accessToken).keyed

/-- A family that is new belongs to the installation of a client that is active. -/
theorem Does.family_origin (h : Does sha256 t c a t') (hk : Table.Keyed familyGrowth.key t.family)
    (hy : y ∈ t'.family) :
    (∃ x ∈ t.family, x.Later y) ∨
      ∃ c ∈ t.client, c.isActive = true ∧ y.installationId = c.installationId := by
  obtain ⟨x, hx, hlater⟩ | ⟨f, hf, hborn⟩ := (h.families hk).origin y hy
  · exact .inl ⟨x, hx, hlater⟩
  · cases h with
    | familyInserted hid hdigest hclient hcid hactive =>
      obtain hy | hy := mem_append.mp hy
      · exact .inl ⟨y, hy, familyGrowth.refl y⟩
      · obtain rfl := mem_singleton.mp hy
        exact .inr ⟨_, hclient, hactive, rfl⟩
    | unchanged => exact .inl ⟨y, hy, familyGrowth.refl y⟩
    | _ => cases hf

theorem Does.installationClosed (h : Does sha256 t c a t') (hclosed : t.InstallationClosed i) :
    t'.InstallationClosed i := by
  obtain ⟨x, hx, hxi⟩ := hclosed.exists_client
  have hgrows := h.installations hclosed.keyed.installation
  refine ⟨h.keyed hclosed.keyed, ?_, fun c hc hci hactive => ?_, fun y hy hyi hlive => ?_⟩
  · obtain ⟨y, hy, hlater⟩ := hgrows.later x hx
    exact ⟨y, hy, hlater.installationId.trans hxi⟩
  · have hlater := hgrows.later_of_key hx hc (hci.trans hxi.symm)
    obtain rfl := hlater.isActive hactive
    exact hclosed.revoked _ hx hxi hactive
  · obtain ⟨x, hx, hlater⟩ | ⟨c, hc, hactive, hci⟩ := h.family_origin hclosed.keyed.family hy
    · exact hclosed.families x hx (hlater.installationId.symm.trans hyi) (hlater.revokedAt hlive)
    · exact hclosed.revoked c hc (hci.symm.trans hyi) hactive

/-- The call has succeeded for the installation: for its client, or with a transaction, a code or a
token that is bound to it. -/
def Serves (sha256 : List UInt8 → Sha256Digest) (t : OidcTables) (i : InstallationId) :
    (c : OidcCall) → c.Answer → Prop
  | insertClient client, .ok _ => client.installationId = i
  | insertTransaction transaction, .ok _ => transaction.installationId = i
  | approveTransaction _ client _ _ _ _ _ _, .ok (some _) => client.installationId = i
  | consumeCode _ _ _ _ _, .ok (some code) => code.installationId = i
  | insertAccess grant _, .ok _ => grant.subject.installationId = i
  | resolveAccess _ _, .ok (some grant) => grant.subject.installationId = i
  | rotate raw _ _, .ok (.rotated _) => ∃ row ∈ t.family,
      row.family.currentDigest = sha256 (textBytes raw) ∧ row.installationId = i
  | _, _ => False

theorem Answers.not_serves (h : Answers sha256 c t a t') (hclosed : t.InstallationClosed i)
    (hunique : t.CurrentUnique)
    (htransaction : ∀ x, c = .insertTransaction x → ∀ client ∈ t.client,
      client.clientId = x.clientId → client.installationId = x.installationId) :
    ¬ c.Serves sha256 t i a := by
  intro hserves
  cases h.does with
  | unchanged hnot =>
    unfold Serves at hserves
    split at hserves <;> first | cases hnot | skip
    · obtain h | ⟨h, -⟩ := h
      · obtain ⟨row, hrow, -, hlive, -, -, hinst, -⟩ :=
          resolveAccess_eq_some (congrArg Prod.fst h).symm
        obtain ⟨-, ⟨client, hclient, -, hclientInst, hactive⟩, -⟩ :=
          isLive_eq_true hlive
        exact hclosed.revoked client hclient (hclientInst.trans (hinst.symm.trans hserves)) hactive
      · cases h
    · exact hserves
  | registered hid hinst =>
    obtain ⟨client, hclient, hi⟩ := hclosed.exists_client
    exact hinst client hclient (hi.trans hserves.symm)
  | begun hclient =>
    obtain ⟨client, hmem, hid, hactive⟩ := hclient
    exact hclosed.revoked client hmem ((htransaction _ rfl client hmem hid).trans hserves) hactive
  | approved hrow hid hopen hactive =>
    obtain ⟨-, client, hmem, -, hinst, hactive⟩ :=
      activeClient_eq_true hactive
    exact hclosed.revoked client hmem (hinst.trans hserves) hactive
  | consumed hrow hbody hopen hdigest hactive hclient hcode =>
    obtain ⟨-, client, hmem, -, hinst, hactive⟩ :=
      activeClient_eq_true hactive
    exact hclosed.revoked client hmem (hinst.trans (hcode.symm.trans hserves)) hactive
  | issued hclient =>
    obtain ⟨client, hmem, -, hinst, hactive⟩ := hclient
    exact hclosed.revoked client hmem (hinst.trans hserves) hactive
  | rotated hrow hdigest hlive =>
    obtain ⟨x, hx, hxd, hxi⟩ := hserves
    obtain rfl := hclosed.keyed.family.eq hx hrow (hunique x hx _ hrow (hxd.trans hdigest.symm))
    exact hclosed.families x hx hxi hlive
  | _ => exact hserves

/-- The last call of a method of the provider that succeeds, up to questions to the accounts. -/
def completes : (c : OidcCall) → c.Answer → Bool
  | insertTransaction _, .ok _ => true
  | approveTransaction _ _ _ _ _ _ _ _, .ok (some _) => true
  | insertAccess _ _, .ok _ => true
  | _, _ => false

theorem writes_of_completes {c : OidcCall} {a : c.Answer} (h : c.completes a = true) :
    c.writes a = true := by
  unfold completes at h
  split at h <;> first | rfl | cases h

end OidcCall

/-- The client that the request is for. -/
def OidcRequest.clientId? : OidcRequest → Option String
  | begin clientId _ _ _ _ _ _ _ _ _ => some clientId
  | approve _ clientId _ _ _ _ _ _ => some clientId
  | exchangeCode clientId _ _ _ _ _ _ => some clientId
  | _ => none

namespace OidcProvider

variable [DecidableEq ι] {S : OidcProvider} {requests : ι → OidcRequest} {P P1 P' : OidcPool ι}
  {es es1 es2 l1 l2 : List (OidcEvent ι)} {e r : OidcEvent ι}

theorem Run.keyed (hrun : S.Run (S.pool requests {}) es P) : P.shared.Keyed :=
  (Pool.Run.always hrun (fun _ he => (hrun.does he).keyed) ⟨.nil, .nil, .nil, .nil, .nil, .nil⟩).2

/-- The revocation of an installation that has a client closes it. -/
theorem Run.installation_closed (hrun : S.Run (S.pool requests {})
      (es1 ++ ⟨j, .revokeForInstallation i at_, Except.ok n, t, t'⟩ :: es2) P)
    (hclient : client ∈ t.client) (hinst : client.installationId = i) :
    t'.InstallationClosed i := by
  have hdoes : OidcCall.Does S.sha256 t (.revokeForInstallation i at_) (Except.ok n) t' :=
    hrun.does (mem_append_right _ mem_cons_self)
  obtain ⟨Q, hQ, hQt⟩ := hrun.before
  obtain rfl : Q.shared = t := hQt
  have hkeyed := hdoes.keyed hQ.keyed
  cases hdoes with
  | unchanged hnot => cases hnot
  | installationRevoked hall =>
    refine ⟨hkeyed, ?_, fun c hc hci hactive => ?_, fun y hy hyi => ?_⟩
    · refine ⟨_, mem_map_of_mem hclient, ?_⟩
      exact (revokeClient_later i at_ client).installationId.trans hinst
    · obtain ⟨x, hx, rfl⟩ := mem_map.mp hc
      rw [(revokeClient_later i at_ x).installationId] at hci
      unfold revokeClient at hactive
      split at hactive
      · cases hactive
      · next hnot =>
        exact hnot ⟨hci, Option.isNone_iff_eq_none.mp hactive, hall x hx hci hactive⟩
    · obtain ⟨x, hx, rfl⟩ := mem_map.mp hy
      split at hyi
      · next hsel =>
        rw [if_pos hsel]
        exact x.revoke_revokedAt at_
      · next hsel => exact absurd (decide_eq_true hyi) hsel

/-- What the transaction was begun for is the client with its id. -/
theorem Run.transaction_client (hrun : S.Run (S.pool requests {}) (l1 ++ e :: l2) P)
    (hcall : e.call = .insertTransaction x) (hc : c ∈ e.before.client)
    (hcid : c.clientId = x.clientId) : c.installationId = x.installationId := by
  have hpermits := (Run.permits hrun).2 _ _ _ rfl
  rw [hcall] at hpermits
  obtain ⟨clientId, _, _, _, _, _, _, _, _, _, client, _, _, -, htrace, -, hstart⟩ := hpermits
  obtain ⟨hid, hinst, -⟩ := start_eq_ok hstart
  obtain ⟨Q, hQ, hQe⟩ := hrun.before
  obtain ⟨-, hlater⟩ := hQ.found_client ⟨clientId⟩ client .nil (by rw [htrace]; simp)
  rw [hinst]
  exact (hlater c (hQe ▸ hc) (hcid.trans hid)).installationId

theorem Run.not_serves (hrun : S.Run (S.pool requests {}) es P) (he : e ∈ es)
    (hclosed : e.before.InstallationClosed i) :
    ¬ e.call.Serves S.sha256 e.before i e.answer := by
  obtain ⟨_, _, hanswer⟩ := Pool.Run.answers hrun e he
  refine hanswer.not_serves hclosed (hrun.currentUnique.1 e he) fun x hcall c hc hcid => ?_
  obtain ⟨l1, l2, rfl⟩ := append_of_mem he
  exact hrun.transaction_client hcall hc hcid

/-- A client that is revoked with its installation is not active again. -/
theorem Run.client_inactive (hrun : S.Run (S.pool requests {}) (es1 ++ r :: es2) P) (he : e ∈ es2)
    (hc : c ∈ r.before.client) (hclosed : e.before.InstallationClosed c.installationId)
    (hx : x ∈ e.before.client) (hid : x.clientId = c.clientId) : x.isActive ≠ true := by
  obtain ⟨l1, l2, rfl⟩ := append_of_mem he
  obtain ⟨Q, hQ, hQe⟩ := hrun.before_later
  have hgrows := Pool.Run.grows_split hQ (fun _ he hk => (hQ.does he).clients hk) .nil
  have hlater := (hgrows.2.1.trans hgrows.2.2).later_of_key hc (hQe ▸ hx) hid
  exact hclosed.revoked x hx hlater.installationId

theorem Run.completes_client (hrun : S.Run (S.pool requests {}) es P) (he : e ∈ es)
    (hcompletes : e.call.completes e.answer = true)
    (hclient : (requests e.thread).clientId? = some cid) :
    ∃ c ∈ e.before.client, c.clientId = ⟨cid⟩ ∧ c.isActive = true := by
  have hdoes := hrun.does he
  obtain ⟨l1, l2, rfl⟩ := append_of_mem he
  have hpermits := (Run.permits hrun).2 _ _ _ rfl
  obtain ⟨Q, hQ, -⟩ := hrun.before
  obtain ⟨k, call, answer, t, t'⟩ := e
  replace hdoes : call.Does S.sha256 t answer t' := hdoes
  cases hdoes with
  | unchanged hnot =>
    rw [OidcCall.writes_of_completes hcompletes] at hnot
    cases hnot
  | begun hactive =>
    obtain ⟨_, _, _, _, _, _, _, _, _, _, client, _, _, hrequest, htrace, -, hstart⟩ := hpermits
    rw [hrequest] at hclient
    cases hclient
    obtain ⟨hid, -⟩ := hQ.found_client ⟨cid⟩ client .nil (by rw [htrace]; simp)
    obtain ⟨c, hc, hcid, hactive⟩ := hactive
    exact ⟨c, hc, (hcid.trans (start_eq_ok hstart).1).trans hid, hactive⟩
  | @approved _ client _ _ _ _ _ _ _ _ _ _ _ _ hrow hid hopen hactive =>
    obtain ⟨_, _, _, hrequest, htrace, -⟩ := hpermits
    rw [hrequest] at hclient
    cases hclient
    obtain ⟨hid, -⟩ := hQ.found_client ⟨cid⟩ client .nil (by rw [htrace]; simp)
    obtain ⟨-, c, hc, hcid, -, hactive⟩ := activeClient_eq_true hactive
    exact ⟨c, hc, hcid.trans hid, hactive⟩
  | issued hactive =>
    obtain ⟨hrequest, -⟩ | ⟨_, _, _, _, _, _, _, client, _, _, _, _, _, _, hrequest, htrace, _,
      hissue⟩ := hpermits
    · rw [hrequest] at hclient
      cases hclient
    · rw [hrequest] at hclient
      cases hclient
      obtain ⟨hid, -⟩ := hQ.found_client ⟨cid⟩ client .nil (by rw [htrace]; simp)
      obtain ⟨c, hc, hcid, -, hactive⟩ := hactive
      exact ⟨c, hc, (hcid.trans (AccessTokenGrant.issue_eq_ok hissue).2.1).trans hid, hactive⟩
  | _ => cases hcompletes

theorem Run.completes_of_returned (hrun : S.Run (S.pool requests {}) es P)
    (hclient : (requests k).clientId? = some cid) (hreturn : P.program k = .ret result) :
    ∃ e ∈ es, e.thread = k ∧ e.call.completes e.answer = true := by
  have hreturned := (Run.permits hrun).1 k result hreturn
  have of_mem : ∀ {c : OidcCall} {a : c.Answer}, c.completes a = true →
      ⟨c, a⟩ ∈ Pool.traceOf k es → ∃ e ∈ es, e.thread = k ∧ e.call.completes e.answer = true := by
    intro c a hcompletes hmem
    obtain ⟨⟨_, _, _, t, t'⟩, he, hthread, heq⟩ := Pool.mem_traceOf.mp hmem
    cases heq
    exact ⟨_, he, hthread, hcompletes⟩
  cases hrequest : requests k with
  | begin =>
    rw [hrequest] at hreturned
    obtain ⟨transaction, -, hmem⟩ := hreturned
    exact of_mem rfl hmem
  | approve =>
    rw [hrequest] at hreturned
    obtain ⟨client, consent, approved, -, hmem⟩ := hreturned
    exact of_mem rfl hmem
  | exchangeCode =>
    rw [hrequest] at hreturned
    obtain ⟨response, client, code, grant, -, hexchanged⟩ := hreturned
    exact of_mem rfl hexchanged.inserted
  | _ =>
    rw [hrequest] at hclient
    cases hclient

/-- Once an installation that has a client is revoked, nothing is done for it any more. The methods
of the provider that have been called for its client and have returned were through before. -/
theorem revoke_for_installation_is_final (hrun : S.Run (S.pool requests {})
      (es1 ++ ⟨j, .revokeForInstallation i at_, Except.ok n, t, t'⟩ :: es2) P)
    (hregistered : ∃ c ∈ t.client, c.installationId = i) :
    (∀ e ∈ es2, ¬ e.call.Serves S.sha256 e.before i e.answer) ∧
      ∀ c ∈ t.client, c.installationId = i → ∀ k result,
        (requests k).clientId? = some c.clientId.text → P.program k = .ret result →
        ∃ e ∈ es1, e.thread = k ∧ e.call.completes e.answer = true := by
  obtain ⟨client, hmem, hinst⟩ := hregistered
  obtain ⟨Q, hQ, hafter⟩ := Run.after hrun
  obtain rfl : Q.shared = t' := hQ
  have hclosed := (Pool.Run.always hafter (fun _ he => (Run.does hafter he).installationClosed)
    (Run.installation_closed hrun hmem hinst)).1
  refine ⟨fun e he => ?_, fun c hc hci k result hid hreturn => ?_⟩
  · exact Run.not_serves hrun (mem_append_right _ (mem_cons_of_mem _ he)) (hclosed e he)
  · obtain ⟨e, he, rfl, hcompletes⟩ := Run.completes_of_returned hrun hid hreturn
    obtain he | he := mem_append.mp he
    · exact ⟨e, he, rfl, hcompletes⟩
    · obtain rfl | he' := mem_cons.mp he
      · cases hcompletes
      · subst hci
        obtain ⟨x, hx, hxid, hactive⟩ := Run.completes_client hrun
          (mem_append_right _ he) hcompletes hid
        exact absurd hactive (Run.client_inactive hrun he' hc (hclosed e he') hx hxid)

end OidcProvider

/-- The revocation of an installation, the registration of its client, and a login. -/
def notesRemoval (i : Fin 3) : OidcRequest :=
  [.revokeForInstallation ⟨1⟩ ⟨20⟩, .insertClient notesClient, notesBegin].get i

/-- A revocation that finds no client does not keep one from being registered and used. -/
theorem client_used_after_revocation :
    let run := plainProvider.runs notesRemoval {} [0, 1, 2, 2, 2]
    plainProvider.Run (plainProvider.pool notesRemoval {}) run.1 run.2 ∧
      run.1.map PoolEvent.thread = [0, 1, 2, 2, 2] ∧
      (run.2.program 0).result? = some (.ok .done) ∧ (run.2.program 1).result? = some (.ok .done) ∧
      (run.2.program 2).result? = some (.ok (.began (randomValue (bytes32 1)))) ∧
      run.2.shared.client = [notesClient] ∧ notesClient.installationId = ⟨1⟩ := by
  exact ⟨plainProvider.runs_run _ _ _, by decide +kernel⟩

/-- A login for the client, the revocation of its installation, another login, and a look at the
token of the first one. -/
def notesClosing (i : Fin 7) : OidcRequest :=
  [.insertClient notesClient, notesBegin, notesApprove, notesExchange,
    .revokeForInstallation ⟨1⟩ ⟨45⟩, notesBegin,
      .resolveAccess (randomValue (bytes32 4)) ⟨50⟩].get i

/-- The exchange that returned had stored its token before the revocation, and nothing after it
serves the client. -/
theorem notes_installation_closed :
    let run := plainProvider.runs notesClosing {} [0, 1, 1, 1, 2, 2, 2, 3, 3, 3, 3, 3, 3, 4, 5, 6]
    (run.1.drop 14).map PoolEvent.thread = [5, 6] ∧
      (∀ e ∈ run.1.drop 14, ¬e.call.Serves plainProvider.sha256 e.before ⟨1⟩ e.answer) ∧
      ∃ e ∈ run.1.take 13, e.thread = 3 ∧ e.call.completes e.answer = true := by
  intro run
  obtain ⟨hthreads, hret, h13⟩ : (run.1.drop 14).map PoolEvent.thread = [5, 6] ∧
      (run.2.program 3).result? = some (.ok (.tokens
        ⟨randomValue (bytes32 4), "signed", 900, "openid"⟩)) ∧
      run.1[13]?.any (fun e => e.call = .revokeForInstallation ⟨1⟩ ⟨45⟩ ∧
        e.call.writes e.answer ∧ e.before.client = [notesClient]) := by
    decide +kernel
  have hrun : plainProvider.Run (plainProvider.pool notesClosing {}) run.1 run.2 :=
    plainProvider.runs_run notesClosing {} _
  clear_value run
  obtain ⟨⟨j, c, a, t, t'⟩, hr, hcall, hwrites, hclient⟩ := exists_at 13 _ h13
  have hmem : notesClient ∈ t.client := hclient ▸ mem_singleton_self _
  subst hcall
  cases a with
  | error => cases hwrites
  | ok n =>
    rw [split_at hr] at hrun
    obtain ⟨hserves, hreturned⟩ :=
      plainProvider.revoke_for_installation_is_final hrun ⟨notesClient, hmem, rfl⟩
    exact ⟨hthreads, hserves,
      hreturned notesClient hmem rfl 3 _ rfl (Prog.result?_eq_ok.mp hret)⟩

end Rumahl
