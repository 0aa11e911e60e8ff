import Rumahl.Oidc.Histories

/-!
# Authorization codes

A code is exchanged at most once, and only by the client it was issued to, for the login and the
scopes that the transaction was begun with. The checks are spread over the calls of three requests:
what ties them together is that a code and a transaction stay in the tables as they were stored.
-/

namespace Rumahl

open Effect List

/-- The text of a code that was consumed. -/
def OidcCall.consumedCode : (c : OidcCall) → c.Answer → Option String
  | consumeCode raw _ _ _ _, .ok (some _) => some raw
  | _, _ => none

/-- The code that a call has issued or was asked for. -/
def OidcCall.codeText : (c : OidcCall) → c.Answer → Option String
  | consumeCode raw _ _ _ _, _ => some raw
  | c, a => c.newCode a

theorem OidcCall.codeText_of_newCode {c : OidcCall} {a : c.Answer} (h : c.newCode a = some raw) :
    c.codeText a = some raw := by
  cases c with
  | consumeCode => cases h
  | _ => exact h

/-- The method that the client is registered with. -/
def OidcClientRecord.Authenticated (sha256 : List UInt8 → Sha256Digest) (client : OidcClientRecord)
    (secret : Option String) : Prop :=
  match client.clientType with
  | .publicClient => secret = none
  | .confidential => ∃ text ∈ secret, ∃ parsed, OidcClientSecret.parse text = .ok parsed ∧
      client.clientSecretDigest = some (sha256 parsed.bytes.1)

theorem OidcProvider.authenticateClient_eq_ok {S : OidcProvider}
    (h : S.authenticateClient client secret = .ok ()) :
    client.Authenticated S.sha256 secret := by
  unfold authenticateClient OidcClientRecord.tokenEndpointAuthMethod at h
  unfold OidcClientRecord.Authenticated
  cases htype : client.clientType with
  | publicClient =>
    rw [htype] at h
    cases secret with
    | none => rfl
    | some text => cases h
  | confidential =>
    rw [htype] at h
    cases secret with
    | none => cases h
    | some text =>
      refine ⟨text, rfl, ?_⟩
      dsimp only at h
      split at h
      · next hverify =>
        unfold OidcClientRecord.verifiesClientSecret at hverify
        split at hverify
        · next hdigest hparse => exact ⟨_, hparse,
            hdigest.trans (by rw [of_decide_eq_true hverify])⟩
        · cases hverify
      · cases h

/-- A code is consumed once: its row says so afterwards. -/
theorem OidcCall.Does.of_consumedCode (h : Does sha256 t c a t')
    (hc : c.consumedCode a = some raw) :
    (∃ row ∈ t.code, row.body.digest = sha256 (textBytes raw) ∧ row.isOpen = true) ∧
      ∃ row ∈ t'.code, row.body.digest = sha256 (textBytes raw) ∧ row.consumedAt ≠ none := by
  cases h with
  | unchanged hnot =>
    unfold consumedCode at hc
    split at hc
    · cases hnot
    · cases hc
  | @consumed code _ _ _ _ _ consumedAt row hrow hbody hopen hdigest =>
    cases hc
    subst hbody
    refine ⟨⟨row, hrow, hdigest, hopen⟩, ?_⟩
    exact ⟨_, mem_map_of_mem hrow, by simp [hopen, hdigest]⟩
  | _ => cases hc

namespace OidcProvider

variable [DecidableEq ι] {S : OidcProvider} {requests : ι → OidcRequest} {P : OidcPool ι}
  {es es1 es2 : List (OidcEvent ι)}

/-- What has to be the case when the code is consumed: `es` are the calls before, `t` the tables. -/
structure Warranted (S : OidcProvider) (requests : ι → OidcRequest) (es : List (OidcEvent ι))
    (t : OidcTables) (clientId : String) (secret : Option String) (raw uri verifier : String)
    (now : UnixTimestamp) (client : OidcClientRecord) (code : AuthorizationCode) : Prop where
  mem : client ∈ t.client
  named : client.clientId.text = clientId
  isActive : client.isActive = true
  authenticated : client.Authenticated S.sha256 secret
  redirectUri : uri = client.redirectUri.text
  row : ∃ row ∈ t.code, row.body = code ∧ row.consumedAt = none ∧ row.revokedAt = none
  unexpired : now < code.expiresAt
  registered : code.scopes ⊆ client.scopes
  issued : ∃ es1 a es2 tid consented approvedAt bytes drawn, es = es1 ++ a :: es2 ∧
    a.call.newCode a.answer = some raw ∧
    requests a.thread =
      .approve tid clientId consented code.userId code.sessionId approvedAt bytes drawn ∧
    code.scopes ⊆ consented ∧
    ∃ b ∈ es1, ∃ x uri' requested state nonce challenge begunAt bytes',
      b.call.newTransaction b.answer = some x ∧ x.id = tid ∧
      requests b.thread = .begin clientId uri' requested state nonce challenge code.userId
        code.sessionId begunAt bytes' ∧
      code.scopes ⊆ requested ∧ PkceChallenge.s256 S.sha256 verifier = challenge

/-- No two codes of the run have the same digest. -/
def CodesDistinct (S : OidcProvider) (es : List (OidcEvent ι)) : Prop :=
  ∀ e ∈ es, ∀ e' ∈ es, ∀ raw ∈ e.call.codeText e.answer, ∀ raw' ∈ e'.call.codeText e'.answer,
    S.sha256 (textBytes raw) = S.sha256 (textBytes raw') → raw = raw'

instance : Decidable (S.CodesDistinct es) :=
  inferInstanceAs (Decidable (∀ e ∈ es, ∀ e' ∈ es, ∀ raw ∈ e.call.codeText e.answer,
    ∀ raw' ∈ e'.call.codeText e'.answer, _ → _))

section

variable (hrun : S.Run (S.pool requests {}) es P)
include hrun

theorem Run.approved_code (hrow : row ∈ P.shared.code) :
    ∃ es1 a es2 raw tid client user session consent now bytes drawn x,
      es = es1 ++ a :: es2 ∧ a.call.newCode a.answer = some raw ∧
      a.call = .approveTransaction tid client user session consent now bytes drawn ∧
      x ∈ a.before.transaction ∧ x.body.id = tid ∧ x.body.clientId = client.clientId ∧
      x.isOpen = true ∧
      x.body.approve S.sha256 client consent user session now bytes = .ok (row.body, raw) := by
  obtain ⟨es1, a, es2, raw, rfl, hraw, hdigest⟩ := hrun.code_origin rfl hrow
  obtain ⟨tid, client, user, session, consent, now, bytes, drawn, x, code, hcall, hx, hid, hopen,
    hclient, happrove, hmem⟩ := (hrun.does (by simp)).of_newCode hraw
  have hlater := hrun.code_later .nil hmem hrow
    (hdigest.trans (AuthorizationTransaction.approve_eq_ok happrove).2.1.symm)
  refine ⟨es1, a, es2, raw, tid, client, user, session, consent, now, bytes, drawn, x, rfl, hraw,
    hcall, hx, hid, hclient, hopen, ?_⟩
  rw [happrove, hlater.body]

theorem Run.consumedCode_nodup : (es.filterMap fun e => e.call.consumedCode e.answer).Nodup := by
  rw [List.Nodup, pairwise_filterMap]
  refine pairwise_of_split fun l1 e' l2 hes e he raw hraw raw' hraw' => ?_
  rintro rfl
  subst hes
  have hdoes' := (hrun.does (by simp)).of_consumedCode hraw'
  obtain ⟨Q, hpre, hbefore⟩ := hrun.before
  obtain ⟨l0, l, rfl⟩ := append_of_mem he
  obtain ⟨-, x, hx, hxd, hconsumed⟩ := (hpre.does he).of_consumedCode hraw
  obtain ⟨⟨y, hy, hyd, hopen⟩, -⟩ := hdoes'
  rw [← hbefore] at hy
  have hlater := hpre.code_later .nil hx hy (hyd.trans hxd.symm)
  exact hconsumed (hlater.consumedAt (OneUse.isOpen_eq_true.mp hopen).1)

theorem Run.begun_transaction (hrow : row ∈ P.shared.transaction) :
    ∃ b ∈ es, ∃ clientId uri scopes state nonce challenge now bytes,
      b.call.newTransaction b.answer = some row.body ∧ row.body.clientId = ⟨clientId⟩ ∧
      requests b.thread = .begin clientId uri scopes state nonce challenge row.body.userId
        row.body.sessionId now bytes ∧
      row.body.scopes = scopes ∧ row.body.challenge.text = challenge := by
  obtain ⟨es1, b, es2, rfl, hnew⟩ := hrun.transaction_origin rfl hrow
  obtain ⟨hcall, -⟩ := (hrun.does (mem_append_right _ mem_cons_self)).of_newTransaction hnew
  have hpermits := (Run.permits hrun).2 _ _ _ rfl
  rw [hcall] at hpermits
  obtain ⟨clientId, uri, scopes, state, nonce, challenge, user, session, now, bytes, client, parsed,
    auth, hrequest, htrace, hparsed, hstart⟩ := hpermits
  obtain ⟨hclient, -, rfl, rfl, hscopes, rfl⟩ := AuthorizationTransaction.start_eq_ok hstart
  obtain ⟨Q, hpre, -⟩ := hrun.before
  obtain ⟨hcid, -⟩ := hpre.found_client ⟨clientId⟩ client .nil
    (by rw [htrace]; simp)
  refine ⟨b, mem_append_right _ mem_cons_self, clientId, uri, scopes, state, nonce,
    challenge, now, bytes, hnew, hclient.trans hcid, hrequest, hscopes, ?_⟩
  rw [PkceChallenge.parse_eq_ok hparsed]

end

theorem Run.warranted
    (hrun : S.Run (S.pool requests {})
      (es1 ++ ⟨i, .consumeCode raw client uri verifier now, Except.ok (some code), t, t'⟩ :: es2) P)
    (hdistinct : S.CodesDistinct
      (es1 ++ ⟨i, .consumeCode raw client uri verifier now, Except.ok (some code), t, t'⟩ :: es2)) :
    ∃ clientId secret token,
      requests i = .exchangeCode clientId secret raw uri verifier now token ∧
      S.Warranted requests es1 t clientId secret raw uri verifier now client code := by
  obtain ⟨clientId, secret, token, hrequest, htrace, hauthenticated⟩ :=
    (Run.permits hrun).2 _ _ _ rfl
  refine ⟨clientId, secret, token, hrequest, ?_⟩
  obtain ⟨Q, hpre, rfl⟩ := hrun.before
  have hdoes : OidcCall.Does S.sha256 Q.shared (.consumeCode raw client uri verifier now)
    (Except.ok (some code)) t' := hrun.does (mem_append_right _ mem_cons_self)
  cases hdoes with
  | unchanged hnot => cases hnot
  | @consumed _ _ _ _ _ _ _ row hrow hbody hopen hdigest hactive hclient hinst huri
    hscopes hverify =>
    subst hbody
    obtain ⟨-, c, hc, hcid, -, hcactive⟩ :=
      SqliteOidcAuthorizationStore.activeClient_eq_true hactive
    obtain ⟨hnamed, hlater⟩ := hpre.found_client ⟨clientId⟩ client .nil
      (by rw [htrace]; simp)
    obtain rfl := (hlater c hc hcid).isActive hcactive
    obtain ⟨hunexpired, huri', hchallenge⟩ := AuthorizationCode.verifyExchange_eq_ok hverify
    obtain ⟨l1, a, l2, raw', tid, approver, user, session, consent, now', bytes, drawn,
      x, rfl, hraw',
      hcall, hx, hid, hxclient, -, happrove⟩ := hpre.approved_code hrow
    obtain ⟨-, hdigest', hcode, -, -, ⟨rfl, huser⟩, ⟨rfl, hsession⟩, hcodeScopes, hcodeChallenge,
      hconsented⟩ := AuthorizationTransaction.approve_eq_ok happrove
    obtain rfl : raw' = raw := by
      exact hdistinct a (by simp) _ (mem_append_right _ mem_cons_self) raw'
        (OidcCall.codeText_of_newCode hraw') raw rfl (hdigest'.symm.trans hdigest)
    have hpermits := (Run.permits hpre).2 _ _ _ rfl
    rw [hcall] at hpermits
    obtain ⟨clientId', consented, auth, happrove, htrace', hconsent⟩ := hpermits
    obtain ⟨Q1, hpre1, hQ1⟩ := hpre.before
    obtain ⟨hnamed', -⟩ := hpre1.found_client ⟨clientId'⟩ approver .nil
      (by rw [htrace']; simp)
    rw [← hQ1] at hx
    obtain ⟨b, hb, clientId'', uri', requested, state, nonce, challenge, now'', bytes', hnew,
      hnamed'', hbegin, rfl, rfl⟩ := hpre1.begun_transaction hx
    obtain rfl : clientId' = clientId := by
      simpa using hnamed'.symm.trans (hxclient.symm.trans (hcode.symm.trans (hclient.trans hnamed)))
    obtain rfl : clientId'' = clientId' := by
      simpa using hnamed''.symm.trans (hxclient.trans hnamed')
    exact {
      mem := hc
      named := by rw [hnamed]
      isActive := hcactive
      authenticated := authenticateClient_eq_ok hauthenticated
      redirectUri := by rw [← huri', huri]
      row := ⟨row, hrow, rfl, OneUse.isOpen_eq_true.mp hopen⟩
      unexpired := hunexpired
      registered := OidcClientRecord.subset_of_validScopes hscopes
      issued := by
        rw [UserConsent.new_eq_ok hconsent] at hconsented
        refine ⟨l1, a, l2, tid, consented, now', bytes, drawn, rfl, hraw', happrove,
          hcodeScopes ▸ hconsented, b, hb, x.body, uri', _, state, nonce, _, now'',
            bytes', hnew, hid,
          huser ▸ hsession ▸ hbegin, hcodeScopes ▸ List.Subset.refl _, ?_⟩
        rw [hchallenge, hcodeChallenge] }

/-- The call that ends an exchange: the code was consumed before, and the client is still there. -/
theorem Run.issued_grant
    (hrun : S.Run (S.pool requests {})
      (es1 ++ ⟨i, .insertAccess grant none, Except.ok (), t, t'⟩ :: es2) P)
    (hrequest : requests i = .exchangeCode clientId secret raw uri verifier now token) :
    ∃ client code, client ∈ t.client ∧
      ⟨.consumeCode raw client uri verifier now, Except.ok (some code)⟩ ∈ Pool.traceOf i es1 ∧
      grant.userId = code.userId ∧ grant.sessionId = code.sessionId ∧
      grant.scopes = code.scopes := by
  obtain ⟨h, -⟩ | ⟨_, _, _, _, _, _, _, client, code, auth, subject, claims, expiresAt, text,
    h, htrace, pairwise, hissue⟩ := (Run.permits hrun).2 _ _ _ rfl
  · cases hrequest.symm.trans h
  · cases hrequest.symm.trans h
    obtain ⟨-, hgrant, huser, hsession, -, hscopes⟩ := AccessTokenGrant.issue_eq_ok hissue
    obtain ⟨Q, hpre, rfl⟩ := hrun.before
    have hdoes : OidcCall.Does S.sha256 Q.shared (.insertAccess grant none) (Except.ok ()) t' :=
      hrun.does (mem_append_right _ mem_cons_self)
    refine ⟨client, code, ?_, by rw [htrace]; simp, huser, hsession, hscopes⟩
    cases hdoes with
    | unchanged hnot => cases hnot
    | issued hclient =>
      obtain ⟨c, hc, hcid, -, hactive⟩ := hclient
      obtain ⟨-, hlater⟩ := hpre.found_client ⟨clientId⟩ client .nil
        (by rw [htrace]; simp)
      obtain rfl := (hlater c hc (hcid.trans hgrant)).isActive hactive
      exact hc

/-- No code is consumed twice, and an exchange that succeeds was warranted when it consumed the
code. The tokens are for the login and the scopes of the code, and the client is still active when
they are stored. -/
theorem exchange_code_sound (hrun : S.Run (S.pool requests {}) es P)
    (hdistinct : S.CodesDistinct es) :
    (es.filterMap fun e => e.call.consumedCode e.answer).Nodup ∧
      ∀ i clientId secret raw uri verifier now token result,
        requests i = .exchangeCode clientId secret raw uri verifier now token →
        P.program i = .ret result →
        ∃ response client code es1 t t' es2 grant u u', result = .tokens response ∧
          es = es1 ++
            ⟨i, .consumeCode raw client uri verifier now, Except.ok (some code), t, t'⟩ :: es2 ∧
          S.Warranted requests es1 t clientId secret raw uri verifier now client code ∧
          ⟨i, .insertAccess grant none, Except.ok (), u, u'⟩ ∈ es2 ∧ client ∈ u.client ∧
          grant.userId = code.userId ∧ grant.sessionId = code.sessionId ∧
          grant.scopes = code.scopes ∧
          response.scope = " ".intercalate (grant.scopes.map OidcScope.asStr) := by
  refine ⟨hrun.consumedCode_nodup, ?_⟩
  intro i clientId secret raw uri verifier now token result hrequest hreturn
  have hreturned := (Run.permits hrun).1 i result hreturn
  rw [hrequest] at hreturned
  obtain ⟨response, _, _, grant, rfl, hexchanged⟩ := hreturned
  obtain ⟨⟨_, _, _, u, u'⟩, he, rfl, heq⟩ := Pool.mem_traceOf.mp hexchanged.inserted
  cases heq
  obtain ⟨m1, m2, rfl⟩ := append_of_mem he
  obtain ⟨client, code, hclient, hconsumed, huser, hsession, hscopes⟩ := hrun.issued_grant hrequest
  obtain ⟨⟨_, _, _, t, t'⟩, he', rfl, heq'⟩ := Pool.mem_traceOf.mp hconsumed
  cases heq'
  obtain ⟨l1, l2, rfl⟩ := append_of_mem he'
  rw [append_assoc, cons_append] at hrun hdistinct
  obtain ⟨clientId', secret', token', hrequest', hwarranted⟩ := hrun.warranted hdistinct
  cases hrequest.symm.trans hrequest'
  exact ⟨response, client, code, l1, t, t', _, grant, u, u', rfl, append_assoc .., hwarranted,
    mem_append_right _ mem_cons_self, hclient, huser, hsession, hscopes, hexchanged.scope⟩

end OidcProvider

/-- A client is registered, and a login goes through. -/
def notesLogin (i : Fin 4) : OidcRequest :=
  [.insertClient notesClient, notesBegin, notesApprove, notesExchange].get i

def notesLoginRun := plainProvider.runs notesLogin {} [0, 1, 1, 1, 2, 2, 2, 3, 3, 3, 3, 3, 3]

theorem notes_exchange_sound :
    (notesLoginRun.2.program 3).result? = some (.ok (.tokens
        ⟨randomValue (bytes32 4), "signed", 900, "openid"⟩)) ∧
      ∃ client code es1 t, plainProvider.Warranted notesLogin es1 t notesClient.clientId.text none
        (randomValue (bytes32 2)) "https://notes.home/callback" notesVerifier ⟨40⟩ client code := by
  have hrun : plainProvider.Run (plainProvider.pool notesLogin {}) notesLoginRun.1
      notesLoginRun.2 := plainProvider.runs_run notesLogin {} _
  obtain ⟨hret, hdistinct⟩ : (notesLoginRun.2.program 3).result? = some (.ok (.tokens
        ⟨randomValue (bytes32 4), "signed", 900, "openid"⟩)) ∧
      plainProvider.CodesDistinct notesLoginRun.1 := by
    decide +kernel
  generalize notesLoginRun = run at *
  obtain ⟨-, hsound⟩ := plainProvider.exchange_code_sound hrun hdistinct
  obtain ⟨_, client, code, es1, t, -, -, -, -, -, -, -, hwarranted, -⟩ :=
    hsound 3 _ _ _ _ _ _ _ _ rfl (Prog.result?_eq_ok.mp hret)
  exact ⟨hret, client, code, es1, t, hwarranted⟩

end Rumahl
