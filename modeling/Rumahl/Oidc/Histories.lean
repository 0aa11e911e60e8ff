import Rumahl.Oidc.Protocol

/-!
# What becomes of the rows

The tables only grow: each of them is a `Table.Growth`, in which a row that is revoked or consumed
stays so and everything else about it stays as it is. A row that is found in a run of requests was
therefore stored by a call before.
-/

namespace Rumahl

open Effect

/-! ## Rows -/

structure OneUse.Later (x y : OneUse α) : Prop where
  body : y.body = x.body
  consumedAt : y.consumedAt = none → x.consumedAt = none
  revokedAt : y.revokedAt = none → x.revokedAt = none

protected theorem OneUse.Later.refl (x : OneUse α) : x.Later x := ⟨rfl, id, id⟩

protected theorem OneUse.Later.trans {x y z : OneUse α} (h : x.Later y) (h' : y.Later z) :
    x.Later z :=
  ⟨h'.1.trans h.1, fun hz => h.2 (h'.2 hz), fun hz => h.3 (h'.3 hz)⟩

/-- A client that is still active is as it was. -/
structure OidcClientRecord.Later (x y : OidcClientRecord) : Prop where
  clientId : y.clientId = x.clientId
  installationId : y.installationId = x.installationId
  isActive : y.isActive = true → y = x

structure FamilyRow.Later (x y : FamilyRow) : Prop where
  id : y.family.id = x.family.id
  clientId : y.family.clientId = x.family.clientId
  installationId : y.installationId = x.installationId
  sessionId : y.family.sessionId = x.family.sessionId
  revokedAt : y.family.revokedAt = none → x.family.revokedAt = none

structure AccessTokenRow.Later (x y : AccessTokenRow) : Prop where
  digest : y.digest = x.digest
  installationId : y.installationId = x.installationId
  sessionId : y.sessionId = x.sessionId
  familyId : y.familyId = x.familyId
  revokedAt : y.revokedAt = none → x.revokedAt = none

theorem OneUse.revoke_later (at_ : UnixTimestamp) (row : OneUse α) :
    row.Later (row.revoke at_) := by
  unfold revoke
  split
  · exact ⟨rfl, id, nofun⟩
  · exact ⟨rfl, id, id⟩

theorem OneUse.revoke_revokedAt (at_ : UnixTimestamp) (row : OneUse α) :
    (row.revoke at_).revokedAt ≠ none := by
  unfold revoke
  split
  · exact nofun
  · next h => simpa using h

theorem FamilyRow.revoke_later (at_ : UnixTimestamp) (row : FamilyRow) :
    row.Later (row.revoke at_) := by
  unfold revoke
  split
  · exact ⟨rfl, rfl, rfl, rfl, nofun⟩
  · exact ⟨rfl, rfl, rfl, rfl, id⟩

theorem FamilyRow.revoke_revokedAt (at_ : UnixTimestamp) (row : FamilyRow) :
    (row.revoke at_).family.revokedAt ≠ none := by
  unfold revoke
  split
  · exact nofun
  · next h => simpa using h

theorem AccessTokenRow.revoke_later (at_ : UnixTimestamp) (row : AccessTokenRow) :
    row.Later (row.revoke at_) := by
  unfold revoke
  split
  · exact ⟨rfl, rfl, rfl, rfl, nofun⟩
  · exact ⟨rfl, rfl, rfl, rfl, id⟩

theorem AccessTokenRow.revoke_revokedAt (at_ : UnixTimestamp) (row : AccessTokenRow) :
    (row.revoke at_).revokedAt ≠ none := by
  unfold revoke
  split
  · exact nofun
  · next h => simpa using h

theorem SqliteOidcClientRepository.revokeClient_later (i : InstallationId) (at_ : UnixTimestamp)
    (client : OidcClientRecord) : client.Later (revokeClient i at_ client) := by
  unfold revokeClient
  split
  · exact ⟨rfl, rfl, nofun⟩
  · exact ⟨rfl, rfl, fun _ => rfl⟩

/-! ## Tables -/

def clientGrowth : Table.Growth OidcClientRecord OidcClientId OidcClientId :=
  .ofKey OidcClientRecord.clientId OidcClientRecord.Later (fun _ => ⟨rfl, rfl, fun _ => rfl⟩)
    (fun h h' => ⟨h'.1.trans h.1, h'.2.trans h.2, fun hz => by
      obtain rfl := h'.3 hz
      exact h.3 hz⟩) fun h => h.1

/-- The same rows by the other key. -/
def installationGrowth : Table.Growth OidcClientRecord InstallationId InstallationId :=
  .ofKey OidcClientRecord.installationId OidcClientRecord.Later clientGrowth.refl
    clientGrowth.trans fun h => h.2

/-- A row is added as it is given; all that changes is whether it can still be used. -/
def transactionGrowth :
    Table.Growth (OneUse AuthorizationTransaction) AuthorizationTransaction String where
  key row := row.body.id
  newKey := AuthorizationTransaction.id
  Later := OneUse.Later
  Born x row := row.body = x
  refl := OneUse.Later.refl
  trans := OneUse.Later.trans
  key_later h := congrArg _ h.1
  key_born h := congrArg _ h
  born_later h h' := h'.1.trans h

def codeGrowth : Table.Growth (OneUse AuthorizationCode) Sha256Digest Sha256Digest :=
  .ofKey (fun row => row.body.digest) OneUse.Later OneUse.Later.refl OneUse.Later.trans
    fun h => congrArg _ h.1

def familyGrowth : Table.Growth FamilyRow String String :=
  .ofKey (fun row => row.family.id) FamilyRow.Later (fun _ => ⟨rfl, rfl, rfl, rfl, id⟩)
    (fun h h' => ⟨h'.1.trans h.1, h'.2.trans h.2, h'.3.trans h.3, h'.4.trans h.4,
      fun hz => h.5 (h'.5 hz)⟩) fun h => h.1

def accessGrowth : Table.Growth AccessTokenRow Sha256Digest Sha256Digest :=
  .ofKey AccessTokenRow.digest AccessTokenRow.Later (fun _ => ⟨rfl, rfl, rfl, rfl, id⟩)
    (fun h h' => ⟨h'.1.trans h.1, h'.2.trans h.2, h'.3.trans h.3, h'.4.trans h.4,
      fun hz => h.5 (h'.5 hz)⟩) fun h => h.1

/-- The primary keys, and the unique column of the clients. -/
structure OidcTables.Keyed (t : OidcTables) : Prop where
  client : Table.Keyed clientGrowth.key t.client
  installation : Table.Keyed installationGrowth.key t.client
  transaction : Table.Keyed transactionGrowth.key t.transaction
  code : Table.Keyed codeGrowth.key t.code
  family : Table.Keyed familyGrowth.key t.family
  accessToken : Table.Keyed accessGrowth.key t.accessToken

namespace OidcCall

variable {sha256 : List UInt8 → Sha256Digest}

def newClient : (c : OidcCall) → c.Answer → Option OidcClientRecord
  | insertClient client, .ok _ => some client
  | _, _ => none

def newTransaction : (c : OidcCall) → c.Answer → Option AuthorizationTransaction
  | insertTransaction transaction, .ok _ => some transaction
  | _, _ => none

/-- The text of a code that was issued. -/
def newCode : (c : OidcCall) → c.Answer → Option String
  | approveTransaction _ _ _ _ _ _ _ _, .ok (some approved) => some approved.code
  | _, _ => none

def newFamily : (c : OidcCall) → c.Answer → Option RefreshTokenFamily
  | insertFamily family, .ok _ => some family
  | _, _ => none

def newGrant : (c : OidcCall) → c.Answer → Option AccessTokenGrant
  | insertAccess grant _, .ok _ => some grant
  | _, _ => none

private theorem new_of_not_writes {c : OidcCall} {a : c.Answer} (h : c.writes a = false) :
    c.newClient a = none ∧ c.newTransaction a = none ∧ c.newCode a = none ∧
      c.newFamily a = none := by
  unfold newClient newTransaction newCode newFamily
  refine ⟨?_, ?_, ?_, ?_⟩ <;> split <;> first | rfl | cases h

theorem newGrant_of_not_writes {c : OidcCall} {a : c.Answer} (h : c.writes a = false) :
    c.newGrant a = none := by
  unfold newGrant
  split <;> first | rfl | cases h

theorem Does.clients (h : Does sha256 t c a t') (hk : Table.Keyed clientGrowth.key t.client) :
    clientGrowth.Grows t.client ((c.newClient a).toList.map OidcClientRecord.clientId)
      t'.client := by
  cases h with
  | unchanged hnot =>
    rw [(new_of_not_writes hnot).1]
    exact .refl hk
  | registered hid hinst => exact .append hk rfl hid
  | installationRevoked =>
    exact .map hk fun x _ => SqliteOidcClientRepository.revokeClient_later _ _ x
  | _ => exact .refl hk

theorem Does.installations (h : Does sha256 t c a t')
    (hk : Table.Keyed installationGrowth.key t.client) :
    installationGrowth.Grows t.client ((c.newClient a).toList.map OidcClientRecord.installationId)
      t'.client := by
  cases h with
  | unchanged hnot =>
    rw [(new_of_not_writes hnot).1]
    exact .refl hk
  | registered hid hinst => exact .append hk rfl hinst
  | installationRevoked =>
    exact .map hk fun x _ => SqliteOidcClientRepository.revokeClient_later _ _ x
  | _ => exact .refl hk

private theorem ite_later {p : Bool} {x y : OneUse α} (h : x.Later y) :
    x.Later (if p then y else x) := by
  split
  · exact h
  · exact ⟨rfl, id, id⟩

section

variable (h : Does sha256 t c a t')
include h

theorem Does.transactions (hk : Table.Keyed transactionGrowth.key t.transaction) :
    transactionGrowth.Grows t.transaction (c.newTransaction a).toList t'.transaction := by
  cases h with
  | unchanged hnot =>
    rw [(new_of_not_writes hnot).2.1]
    exact .refl hk
  | begun hclient hid => exact .append hk rfl hid
  | approved =>
    refine .map hk fun x _ => ?_
    split
    · exact ⟨rfl, nofun, id⟩
    · exact transactionGrowth.refl x
  | installationRevoked | sessionRevoked | accessRevoked | replayed =>
    exact .map hk fun x _ => ite_later (x.revoke_later _)
  | _ => exact .refl hk

theorem Does.codes (hk : Table.Keyed codeGrowth.key t.code) :
    codeGrowth.Grows t.code ((c.newCode a).toList.map fun raw => sha256 (textBytes raw))
      t'.code := by
  cases h with
  | unchanged hnot =>
    rw [(new_of_not_writes hnot).2.2.1]
    exact .refl hk
  | approved _ _ _ _ _ _ _ happrove hnew =>
    exact .append hk (AuthorizationTransaction.approve_eq_ok happrove).2.1 hnew
  | consumed =>
    refine .map hk fun x _ => ?_
    split
    · exact ⟨rfl, nofun, id⟩
    · exact codeGrowth.refl x
  | installationRevoked | sessionRevoked | accessRevoked | replayed =>
    exact .map hk fun x _ => ite_later (x.revoke_later _)
  | _ => exact .refl hk

theorem Does.families (hk : Table.Keyed familyGrowth.key t.family) :
    familyGrowth.Grows t.family ((c.newFamily a).toList.map RefreshTokenFamily.id) t'.family := by
  cases h with
  | unchanged hnot =>
    rw [(new_of_not_writes hnot).2.2.2]
    exact .refl hk
  | familyInserted hid => exact .append hk rfl hid
  | @rotated row _ _ _ _ hrow =>
    refine .map hk fun x hx => ?_
    split
    · next hid =>
      obtain rfl := hk.eq hx hrow hid
      exact ⟨rfl, rfl, rfl, rfl, id⟩
    · exact familyGrowth.refl x
  | installationRevoked | sessionRevoked | accessRevoked | replayed =>
    refine .map hk fun x _ => ?_
    split
    · exact x.revoke_later _
    · exact familyGrowth.refl x
  | _ => exact .refl hk

theorem Does.accessTokens (hk : Table.Keyed accessGrowth.key t.accessToken) :
    accessGrowth.Grows t.accessToken ((c.newGrant a).toList.map AccessTokenGrant.digest)
      t'.accessToken := by
  cases h with
  | unchanged hnot =>
    rw [newGrant_of_not_writes hnot]
    exact .refl hk
  | issued hclient hfamily hnew => exact .append hk rfl hnew
  | installationRevoked | sessionRevoked | accessRevoked | replayed =>
    refine .map hk fun x _ => ?_
    split
    · exact x.revoke_later _
    · exact accessGrowth.refl x
  | _ => exact .refl hk

theorem Does.of_newTransaction (hnew : c.newTransaction a = some x) :
    c = .insertTransaction x ∧ ⟨x, none, none⟩ ∈ t'.transaction := by
  cases h with
  | unchanged hnot =>
    rw [(new_of_not_writes hnot).2.1] at hnew
    cases hnew
  | begun =>
    cases hnew
    exact ⟨rfl, List.mem_append_right _ (List.mem_singleton_self _)⟩
  | _ => cases hnew

theorem Does.of_newCode (hnew : c.newCode a = some raw) :
    ∃ tid client user session consent now bytes drawn row code,
      c = .approveTransaction tid client user session consent now bytes drawn ∧
      row ∈ t.transaction ∧ row.body.id = tid ∧ row.isOpen = true ∧
      row.body.clientId = client.clientId ∧
      row.body.approve sha256 client consent user session now bytes = .ok (code, raw) ∧
      ⟨code, none, none⟩ ∈ t'.code := by
  cases h with
  | unchanged hnot =>
    rw [(new_of_not_writes hnot).2.2.1] at hnew
    cases hnew
  | approved hrow hid hopen hactive hclient hinst hscopes happrove hcode =>
    cases hnew
    exact ⟨_, _, _, _, _, _, _, _, _, _, rfl, hrow, hid, hopen, hclient, happrove,
      List.mem_append_right _ (List.mem_singleton_self _)⟩
  | _ => cases hnew

end

theorem Answers.findActiveById
    (h : Answers sha256 (.findActiveById cid) t (Except.ok (some client)) t') :
    t' = t ∧ client ∈ t.client ∧ client.clientId = cid ∧ client.isActive = true := by
  obtain h | ⟨h, -⟩ := h
  · obtain ⟨hfound, rfl⟩ := Prod.mk.inj h
    exact ⟨rfl, SqliteOidcClientRepository.findActiveById_eq_some (Except.ok.inj hfound).symm⟩
  · cases h

end OidcCall

/-! ## Runs -/

namespace OidcProvider

variable [DecidableEq ι] {S : OidcProvider} {P P' : OidcPool ι} {es : List (OidcEvent ι)}
  {e : OidcEvent ι}

theorem Run.does (hrun : S.Run P es P') (he : e ∈ es) :
    e.call.Does S.sha256 e.before e.answer e.after := by
  obtain ⟨_, _, h⟩ := Pool.Run.answers hrun e he
  exact h.does

theorem Run.before (hrun : S.Run P (es1 ++ e :: es2) P') :
    ∃ Q, S.Run P es1 Q ∧ Q.shared = e.before := by
  obtain ⟨Q, -, -, -, hpre, hbefore, -⟩ := Pool.Run.split hrun
  exact ⟨Q, hpre, hbefore.symm⟩

theorem Run.after (hrun : S.Run P (es1 ++ e :: es2) P') :
    ∃ Q, Q.shared = e.after ∧ S.Run Q es2 P' := by
  obtain ⟨-, Q, -, -, -, -, -, hafter, hrest⟩ := Pool.Run.split hrun
  exact ⟨Q, hafter, hrest⟩

theorem Run.found_client (hrun : S.Run P es P') (cid : OidcClientId) (client : OidcClientRecord)
    (hk : Table.Keyed clientGrowth.key P.shared.client)
    (hfound : ⟨.findActiveById cid, Except.ok (some client)⟩ ∈ Pool.traceOf i es) :
    client.clientId = cid ∧
      ∀ c ∈ P'.shared.client, c.clientId = client.clientId → client.Later c := by
  obtain ⟨⟨_, _, _, t, t'⟩, he, -, heq⟩ := Pool.mem_traceOf.mp hfound
  cases heq
  obtain ⟨_, _, hanswer⟩ := Pool.Run.answers hrun _ he
  obtain ⟨hsame, hclient, hcid, -⟩ := hanswer.findActiveById
  obtain rfl : t' = t := hsame
  obtain ⟨es1, es2, rfl⟩ := List.append_of_mem he
  have hgrows := Pool.Run.grows_split hrun (fun _ he hk => (hrun.does he).clients hk) hk
  exact ⟨hcid, fun c hc hid => hgrows.2.2.later_of_key hclient hc hid⟩

theorem Run.code_origin (hrun : S.Run P es P') (hempty : P.shared.code = [])
    (hrow : row ∈ P'.shared.code) :
    ∃ es1 a es2 raw, es = es1 ++ a :: es2 ∧ a.call.newCode a.answer = some raw ∧
      row.body.digest = S.sha256 (textBytes raw) := by
  obtain ⟨es1, a, es2, rfl, d, hd, hborn⟩ := Pool.Run.origin hrun
    (fun e he hk => (hrun.does he).codes hk) hempty hrow
  obtain ⟨raw, hraw, rfl⟩ := List.mem_map.mp hd
  exact ⟨es1, a, es2, raw, rfl, Option.mem_toList.mp hraw, hborn⟩

/-- A code that was stored by a call is what the calls after it find under its digest. -/
theorem Run.code_later (hrun : S.Run P (es1 ++ e :: es2) P')
    (hk : Table.Keyed codeGrowth.key P.shared.code) (hx : x ∈ e.after.code)
    (hy : y ∈ P'.shared.code) (hdigest : y.body.digest = x.body.digest) : x.Later y :=
  (Pool.Run.grows_split hrun
    (fun _ he hk => (hrun.does he).codes hk) hk).2.2.later_of_key hx hy hdigest

theorem Run.transaction_origin (hrun : S.Run P es P') (hempty : P.shared.transaction = [])
    (hrow : row ∈ P'.shared.transaction) :
    ∃ es1 b es2, es = es1 ++ b :: es2 ∧ b.call.newTransaction b.answer = some row.body := by
  obtain ⟨es1, b, es2, rfl, x, hx, hborn⟩ := Pool.Run.origin hrun
    (fun e he hk => (hrun.does he).transactions hk) hempty hrow
  exact ⟨es1, b, es2, rfl, hborn ▸ Option.mem_toList.mp hx⟩

end OidcProvider

/-! ## Events of a run that is given -/

theorem split_at {l : List α} (h : l[n]? = some a) : l = l.take n ++ a :: l.drop (n + 1) := by
  obtain ⟨hn, rfl⟩ := List.getElem?_eq_some_iff.mp h
  rw [← List.drop_eq_getElem_cons hn, List.take_append_drop]

theorem exists_at {l : List α} (n : Nat) (p : α → Prop) [DecidablePred p]
    (h : l[n]?.any (fun a => p a) = true) :
    ∃ a, l[n]? = some a ∧ p a := by
  obtain ⟨a, ha, hp⟩ := (Option.any_eq_true ..).mp h
  exact ⟨a, ha, of_decide_eq_true hp⟩

end Rumahl
