import Rumahl.Oidc.Histories

/-!
# Refresh token families

A refresh token is rotated once. Presented again it ends its family: from then on no token of the
family is rotated and no access token that was recorded with it is good for anything. That the
store recognises the token rests on the tokens being distinct: the digest of a spent token is not
the current one of any family.
-/

namespace Rumahl

open Effect

namespace OidcCall

variable {sha256 : List UInt8 → Sha256Digest}

/-- The token that a call has rotated. -/
def rotatedToken : (c : OidcCall) → c.Answer → Option String
  | rotate raw _ _, .ok (.rotated _) => some raw
  | _, _ => none

/-- The digest of a refresh token that is new with the call. -/
def newRefresh (sha256 : List UInt8 → Sha256Digest) :
    (c : OidcCall) → c.Answer → Option Sha256Digest
  | insertFamily family, .ok _ => some family.currentDigest
  | rotate _ _ _, .ok (.rotated next) => some (sha256 (textBytes next))
  | _, _ => none

theorem newRefresh_of_not_writes {c : OidcCall} {a : c.Answer} (h : c.writes a = false) :
    c.newRefresh sha256 a = none := by
  unfold newRefresh
  split <;> first | rfl | cases h

theorem rotatedToken_of_not_writes {c : OidcCall} {a : c.Answer} (h : c.writes a = false) :
    c.rotatedToken a = none := by
  unfold rotatedToken
  split <;> first | rfl | cases h

end OidcCall

/-- What was spent is never changed. -/
def spentGrowth : Table.Growth SpentRow Sha256Digest Sha256Digest :=
  .ofKey SpentRow.digest (· = ·) (fun _ => rfl) Eq.trans fun h => congrArg _ h.symm

/-- The current token tells the family. -/
def OidcTables.CurrentUnique (t : OidcTables) : Prop :=
  ∀ row ∈ t.family, ∀ row' ∈ t.family,
    row.family.currentDigest = row'.family.currentDigest → row.family.id = row'.family.id

/-- The digests of the refresh tokens in the tables are among those that were issued, and no current
one is spent. -/
structure OidcTables.TokensFresh (t : OidcTables) (issued : List Sha256Digest) : Prop where
  current : ∀ row ∈ t.family, row.family.currentDigest ∈ issued
  spent : ∀ x ∈ t.spent, x.digest ∈ issued
  unspent : ∀ row ∈ t.family, ∀ x ∈ t.spent, row.family.currentDigest ≠ x.digest

/-- The families are the same up to what is of no account to the tokens. -/
def OidcTables.SameTokens (t t' : OidcTables) : Prop :=
  ∀ row ∈ t'.family, ∃ x ∈ t.family, row.family.id = x.family.id ∧
    row.family.currentDigest = x.family.currentDigest

theorem OidcTables.SameTokens.of_revoked {families : FamilyRow → Bool} {t t' : OidcTables}
    (h : t'.family = t.family.map fun row => if families row then row.revoke at_ else row) :
    t.SameTokens t' := by
  intro row hrow
  rw [h] at hrow
  obtain ⟨x, hx, rfl⟩ := List.mem_map.mp hrow
  refine ⟨x, hx, ?_⟩
  unfold FamilyRow.revoke
  split
  · split
    · exact ⟨rfl, rfl⟩
    · exact ⟨rfl, rfl⟩
  · exact ⟨rfl, rfl⟩

theorem OidcTables.CurrentUnique.of_same {t t' : OidcTables} (h : t.CurrentUnique)
    (hsame : t.SameTokens t') : t'.CurrentUnique := by
  intro row hrow row' hrow' heq
  obtain ⟨x, hx, hid, hdigest⟩ := hsame row hrow
  obtain ⟨x', hx', hid', hdigest'⟩ := hsame row' hrow'
  rw [hid, hid']
  exact h x hx x' hx' (by rw [← hdigest, ← hdigest', heq])

namespace OidcTables.TokensFresh

variable {t t' : OidcTables} {issued : List Sha256Digest}

theorem of_same (h : t.TokensFresh issued) (hspent : t'.spent = t.spent) (hsame : t.SameTokens t') :
    t'.TokensFresh issued where
  current row hrow := by
    obtain ⟨x, hx, -, hdigest⟩ := hsame row hrow
    exact hdigest ▸ h.current x hx
  spent := hspent ▸ h.spent
  unspent row hrow := by
    obtain ⟨x, hx, -, hdigest⟩ := hsame row hrow
    exact hdigest ▸ hspent ▸ h.unspent x hx

theorem add (h : t.TokensFresh issued) (hd : d ∉ issued)
    (hspent : ∀ y ∈ t'.spent, y.digest ∈ issued)
    (hfamily : ∀ row ∈ t'.family, row.family.currentDigest = d ∨
      ∃ x ∈ t.family, row.family.currentDigest = x.family.currentDigest ∧
        ∀ y ∈ t'.spent, x.family.currentDigest ≠ y.digest) :
    t'.TokensFresh (issued ++ [d]) where
  current row hrow := by
    obtain hdigest | ⟨x, hx, hdigest, -⟩ := hfamily row hrow
    · exact List.mem_append_right _ (List.mem_singleton.mpr hdigest)
    · exact List.mem_append_left _ (hdigest ▸ h.current x hx)
  spent y hy := List.mem_append_left _ (hspent y hy)
  unspent row hrow y hy := by
    obtain hdigest | ⟨x, hx, hdigest, hne⟩ := hfamily row hrow
    · rw [hdigest]
      rintro rfl
      exact hd (hspent y hy)
    · rw [hdigest]
      exact hne y hy

end OidcTables.TokensFresh

namespace OidcCall

variable {sha256 : List UInt8 → Sha256Digest}

section

variable (h : Does sha256 t c a t')
include h

theorem Does.currentUnique (hunique : t.CurrentUnique) : t'.CurrentUnique := by
  cases h with
  | unchanged => exact hunique
  | installationRevoked | sessionRevoked | accessRevoked | replayed =>
    exact hunique.of_same (.of_revoked rfl)
  | registered | begun | approved | consumed | issued => exact hunique
  | familyInserted hid hdigest hclient =>
    intro row hrow row' hrow' heq
    obtain hrow | hrow := List.mem_append.mp hrow <;>
      obtain hrow' | hrow' := List.mem_append.mp hrow'
    · exact hunique row hrow row' hrow' heq
    · obtain rfl := List.mem_singleton.mp hrow'
      exact absurd heq (hdigest row hrow)
    · obtain rfl := List.mem_singleton.mp hrow
      exact absurd heq.symm (hdigest row' hrow')
    · rw [List.mem_singleton.mp hrow, List.mem_singleton.mp hrow']
  | rotated hrow hdigest hlive hclient hspent hnext hnew =>
    intro y hy y' hy' heq
    obtain ⟨x, hx, rfl⟩ := List.mem_map.mp hy
    obtain ⟨x', hx', rfl⟩ := List.mem_map.mp hy'
    split at heq <;> split at heq
    · simp_all
    · next hid hid' => exact absurd heq.symm (hnew x' hx' hid')
    · next hid hid' => exact absurd heq (hnew x hx hid)
    · next hid hid' =>
      rw [if_neg hid, if_neg hid']
      exact hunique x hx x' hx' heq

theorem Does.tokensFresh (hunique : t.CurrentUnique) (hfresh : t.TokensFresh ds)
    (hnew : (ds ++ (c.newRefresh sha256 a).toList).Nodup) :
    t'.TokensFresh (ds ++ (c.newRefresh sha256 a).toList) := by
  have keep : ∀ {t : OidcTables}, t.TokensFresh ds → t.TokensFresh (ds ++ []) := by
    intro t h
    rwa [List.append_nil]
  cases h with
  | unchanged hnot =>
    rw [newRefresh_of_not_writes hnot]
    exact keep hfresh
  | installationRevoked | sessionRevoked | accessRevoked | replayed =>
    exact keep (hfresh.of_same rfl (.of_revoked rfl))
  | registered | begun | approved | consumed | issued =>
    exact keep (hfresh.of_same rfl fun row hrow => ⟨row, hrow, rfl, rfl⟩)
  | familyInserted hid hdigest hclient =>
    refine hfresh.add (fun hd => ?_) hfresh.spent fun row hrow => ?_
    · exact (List.nodup_append.mp hnew).2.2 _ hd _ (List.mem_singleton_self _) rfl
    · obtain hrow | hrow := List.mem_append.mp hrow
      · exact .inr ⟨row, hrow, rfl, hfresh.unspent row hrow⟩
      · obtain rfl := List.mem_singleton.mp hrow
        exact .inl rfl
  | @rotated row _ _ _ _ hrow hdigest hlive hclient hspent hnext =>
    refine hfresh.add (fun hd => ?_) (fun y hy => ?_) fun z hz => ?_
    · exact (List.nodup_append.mp hnew).2.2 _ hd _ (List.mem_singleton_self _) rfl
    · obtain hy | hy := List.mem_append.mp hy
      · exact hfresh.spent y hy
      · obtain rfl := List.mem_singleton.mp hy
        exact hdigest ▸ hfresh.current row hrow
    · obtain ⟨x, hx, rfl⟩ := List.mem_map.mp hz
      split
      · exact .inl rfl
      · next hne =>
        refine .inr ⟨x, hx, rfl, fun y hy => ?_⟩
        obtain hy | hy := List.mem_append.mp hy
        · exact hfresh.unspent x hx y hy
        · obtain rfl := List.mem_singleton.mp hy
          intro heq
          exact hne (hunique x hx row hrow (heq.trans hdigest.symm))

theorem Does.spent (hk : Table.Keyed spentGrowth.key t.spent) :
    spentGrowth.Grows t.spent ((c.rotatedToken a).toList.map fun raw => sha256 (textBytes raw))
      t'.spent := by
  cases h with
  | unchanged hnot =>
    rw [rotatedToken_of_not_writes hnot]
    exact .refl hk
  | rotated hrow hdigest hlive hclient hspent => exact .append hk rfl hspent
  | _ => exact .refl hk

/-- A token that is rotated is the current one of a live family, which records it as spent. -/
theorem Does.of_rotatedToken (hraw : c.rotatedToken a = some raw) :
    ∃ row ∈ t.family, row.family.currentDigest = sha256 (textBytes raw) ∧
      row.family.revokedAt = none ∧ ⟨sha256 (textBytes raw), row.family.id⟩ ∈ t'.spent := by
  cases h with
  | unchanged hnot =>
    rw [rotatedToken_of_not_writes hnot] at hraw
    cases hraw
  | @rotated row _ _ _ _ hrow hdigest hlive =>
    cases hraw
    exact ⟨row, hrow, hdigest, hlive, List.mem_append_right _ (List.mem_singleton_self _)⟩
  | _ => cases hraw

end

end OidcCall

namespace SqliteOidcRefreshTokenStore

/-- A token that is not a current one has been spent: it ends its family, if the time can be
stored. -/
theorem rotate_of_spent (now : UnixTimestamp) (bytes : ByteVector 32)
    (hlen : byteLength raw.toList = 43)
    (hcurrent : ∀ row ∈ t.family, row.family.currentDigest ≠ sha256 (textBytes raw))
    (hx : x ∈ t.spent) (hdigest : x.digest = sha256 (textBytes raw)) :
    (2 ^ 63 ≤ now.seconds → rotate sha256 raw now bytes t = (.error .invalidStoredState, t)) ∧
      (now.seconds < 2 ^ 63 → (rotate sha256 raw now bytes t).1 = .ok .replayRevoked) := by
  have hnone : currentFamily (sha256 (textBytes raw)) t = none := by
    refine List.find?_eq_none.mpr fun row hrow => ?_
    simp [hcurrent row hrow]
  obtain ⟨y, hy⟩ : ∃ y, t.spent.find? (·.digest = sha256 (textBytes raw)) = some y :=
    Option.isSome_iff_exists.mp (List.find?_isSome.mpr ⟨x, hx, by simpa using hdigest⟩)
  unfold rotate
  simp only [hlen, hnone, hy, sqliteTimestamp]
  refine ⟨fun hnow => ?_, fun hnow => ?_⟩
  · rw [if_neg (Nat.not_lt.mpr hnow)]
    rfl
  · rw [if_pos hnow]
    rfl

theorem length_of_rotated (h : rotate sha256 raw now bytes t = (.ok (.rotated next), t')) :
    byteLength raw.toList = 43 := by
  replace h := Except.commit_eq_ok.mp h
  split at h
  · cases h
  · next hlen => exact not_not.mp hlen

end SqliteOidcRefreshTokenStore

theorem SqliteOidcAccessTokenStore.resolveAccess_eq_none (hnow : now.seconds < 2 ^ 63)
    (hdead : ∀ row ∈ t.accessToken, row.digest = sha256 (textBytes raw) →
      isLive t row now.seconds = false) : resolveAccess sha256 raw now t = .ok none := by
  have hnone : (t.accessToken.find? fun row =>
      row.digest = sha256 (textBytes raw) && isLive t row now.seconds) = none := by
    refine List.find?_eq_none.mpr fun row hrow => ?_
    simpa using hdead row hrow
  unfold resolveAccess
  split
  · rfl
  · simp only [sqliteTimestamp, if_pos hnow, bind, Except.bind, hnone]
    rfl

/-- The family is revoked, and its id is taken for good. -/
structure OidcTables.FamilyDead (f : String) (t : OidcTables) : Prop where
  keyed : Table.Keyed familyGrowth.key t.family
  exists_row : ∃ row ∈ t.family, row.family.id = f
  revoked : ∀ row ∈ t.family, row.family.id = f → row.family.revokedAt ≠ none

theorem OidcCall.Does.familyDead (h : Does sha256 t c a t') (hdead : t.FamilyDead f) :
    t'.FamilyDead f := by
  have hgrows := h.families hdead.keyed
  obtain ⟨x, hx, hxf⟩ := hdead.exists_row
  refine ⟨hgrows.keyed, ?_, fun y hy hyf => ?_⟩
  · obtain ⟨y, hy, hxy⟩ := hgrows.later x hx
    exact ⟨y, hy, hxy.id.trans hxf⟩
  · have hlater := hgrows.later_of_key hx hy (hyf.trans hxf.symm)
    exact fun hnone => hdead.revoked x hx hxf (hlater.revokedAt hnone)

theorem OidcTables.FamilyDead.not_isLive (hdead : t.FamilyDead f) (hrow : row.familyId = some f) :
    SqliteOidcAccessTokenStore.isLive t row now = false := by
  refine Bool.eq_false_iff.mpr fun hlive => ?_
  obtain ⟨-, -, hfamily⟩ := SqliteOidcAccessTokenStore.isLive_eq_true hlive
  obtain ⟨x, hx, hid, hnone⟩ := hfamily f hrow
  exact hdead.revoked x hx hid hnone

theorem OidcCall.Answers.length_of_rotatedToken (h : Answers sha256 c t a t')
    (hraw : c.rotatedToken a = some raw) : byteLength raw.toList = 43 := by
  unfold rotatedToken at hraw
  split at hraw
  · cases hraw
    obtain h | ⟨h, -⟩ := h
    · exact SqliteOidcRefreshTokenStore.length_of_rotated h.symm
    · cases h
  · cases hraw

namespace OidcProvider

variable [DecidableEq ι] {S : OidcProvider} {requests : ι → OidcRequest} {P : OidcPool ι}
  {es es1 es2 es3 : List (OidcEvent ι)}

/-- The event rotates the token `raw` of the family `f`. -/
def Rotates (S : OidcProvider) (e : OidcEvent ι) (raw f : String) : Prop :=
  e.call.rotatedToken e.answer = some raw ∧
    ∃ row ∈ e.before.family, row.family.currentDigest = S.sha256 (textBytes raw) ∧ row.family.id = f

/-- The digests of the refresh tokens that were issued. -/
def refreshDigests (S : OidcProvider) (es : List (OidcEvent ι)) : List Sha256Digest :=
  es.flatMap fun e => (e.call.newRefresh S.sha256 e.answer).toList

theorem Run.currentUnique (hrun : S.Run (S.pool requests {}) es P) :
    (∀ e ∈ es, e.before.CurrentUnique) ∧ P.shared.CurrentUnique :=
  Pool.Run.always hrun (fun _ he => (hrun.does he).currentUnique) nofun

theorem Run.tokensFresh (hrun : S.Run (S.pool requests {}) es P)
    (hfresh : (S.refreshDigests es).Nodup) : P.shared.TokensFresh (S.refreshDigests es) := by
  have h : ∀ ds, (ds ++ S.refreshDigests es).Nodup → OidcTables.TokensFresh {} ds →
      P.shared.TokensFresh (ds ++ S.refreshDigests es) := by
    refine Pool.Run.compose hrun
      (R := fun t l t' => ∀ ds, (ds ++ l).Nodup → t.TokensFresh ds → t'.TokensFresh (ds ++ l))
      (fun t ds _ h => ?_) (fun h h' ds hnodup ht => ?_) fun e he ds hnodup ht => ?_
    · rwa [List.append_nil]
    · rw [← List.append_assoc] at hnodup ⊢
      exact h' _ hnodup (h ds hnodup.of_append_left ht)
    · exact (hrun.does he).tokensFresh (hrun.currentUnique.1 e he) ht hnodup
  exact h [] hfresh ⟨nofun, nofun, nofun⟩

theorem Run.spent (hrun : S.Run P es P') (hk : Table.Keyed spentGrowth.key P.shared.spent) :
    spentGrowth.Grows P.shared.spent
      (es.flatMap fun e => (e.call.rotatedToken e.answer).toList.map fun raw =>
        S.sha256 (textBytes raw)) P'.shared.spent :=
  Pool.Run.grows hrun (fun _ he hk => (hrun.does he).spent hk) hk

theorem Run.rotatedToken_nodup (hrun : S.Run (S.pool requests {}) es P) :
    (es.filterMap fun e => e.call.rotatedToken e.answer).Nodup := by
  have honce := (hrun.spent .nil).once
  rw [List.map_flatMap] at honce
  refine List.Nodup.of_map (fun raw => S.sha256 (textBytes raw)) ?_
  rw [List.filterMap_eq_flatMap_toList, List.map_flatMap]
  simpa [spentGrowth, Table.Growth.ofKey] using honce

/-- The family that a token was rotated in is the one that it was spent for. -/
theorem Run.spent_of_rotates (hrun : S.Run (S.pool requests {}) (es1 ++ e :: es2) P)
    (hfresh : (S.refreshDigests (es1 ++ e :: es2)).Nodup) (he : S.Rotates e raw f) :
    ⟨S.sha256 (textBytes raw), f⟩ ∈ P.shared.spent ∧
      (∀ row ∈ P.shared.family, row.family.currentDigest ≠ S.sha256 (textBytes raw)) ∧
      ∃ row ∈ P.shared.family, row.family.id = f := by
  obtain ⟨hraw, row, hrow, hdigest, hid⟩ := he
  have hdoes := hrun.does (List.mem_append_right _ List.mem_cons_self)
  obtain ⟨row', hrow', hdigest', -, hspent⟩ := hdoes.of_rotatedToken hraw
  have hunique := hrun.currentUnique.1 e (List.mem_append_right _ List.mem_cons_self)
  rw [hunique row' hrow' row hrow (hdigest'.trans hdigest.symm), hid] at hspent
  have hgrows := Pool.Run.grows_split hrun (fun _ he hk => (hrun.does he).spent hk) .nil
  obtain ⟨x, hx, rfl⟩ := hgrows.2.2.later _ hspent
  refine ⟨hx, fun y hy hyd => (hrun.tokensFresh hfresh).unspent y hy _ hx hyd, ?_⟩
  have hfamily := Pool.Run.grows_split hrun (fun _ he hk => (hrun.does he).families hk) .nil
  obtain ⟨y, hy, hlater⟩ := (hfamily.2.1.trans hfamily.2.2).later row hrow
  exact ⟨y, hy, hlater.id.trans hid⟩

theorem Run.familyDead_of_replay (hrun : S.Run (S.pool requests {})
      (es1 ++ ⟨i, .rotate raw now bytes, Except.ok .replayRevoked, t, t'⟩ :: es2) P)
    (hspent : ⟨S.sha256 (textBytes raw), f⟩ ∈ t.spent) (hrow : row ∈ t.family)
    (hid : row.family.id = f) : t'.FamilyDead f := by
  have hdoes : OidcCall.Does S.sha256 t (.rotate raw now bytes) (Except.ok .replayRevoked) t' :=
    hrun.does (List.mem_append_right _ List.mem_cons_self)
  have hkeyed := (Pool.Run.grows_split hrun
    (fun _ he hk => (hrun.does he).families hk) .nil).2.1.keyed
  have hspentKeyed := (Pool.Run.grows_split hrun
    (fun _ he hk => (hrun.does he).spent hk) .nil).1.keyed
  cases hdoes with
  | unchanged hnot => cases hnot
  | @replayed x _ _ _ hx hdigest =>
    obtain rfl := hspentKeyed.eq hx hspent hdigest
    refine ⟨hkeyed, ?_, fun y hy hyf => ?_⟩
    · refine ⟨_, List.mem_map_of_mem hrow, ?_⟩
      split
      · exact (row.revoke_later now).id.trans hid
      · exact hid
    · obtain ⟨z, hz, rfl⟩ := List.mem_map.mp hy
      split
      · exact z.revoke_revokedAt now
      · next hne => simp_all

/-- A refresh token is rotated at most once. When one is presented again, at a time that SQLite can
store, it ends its family: no token of the family is rotated afterwards, and no access token that
was recorded with it is resolved. At a later time it is an error, and nothing changes. -/
theorem rotate_replay_ends_family (hrun : S.Run (S.pool requests {}) es P)
    (hfresh : (S.refreshDigests es).Nodup) :
    (es.filterMap fun e => e.call.rotatedToken e.answer).Nodup ∧
      ∀ es1 e es2 i raw f now bytes a t t' es3,
        es = es1 ++ e :: es2 ++ ⟨i, .rotate raw now bytes, a, t, t'⟩ :: es3 →
        S.Rotates e raw f → a ≠ Except.error .database →
        (2 ^ 63 ≤ now.seconds → a = Except.error .invalidStoredState ∧ t' = t) ∧
        (now.seconds < 2 ^ 63 → a = Except.ok .replayRevoked ∧
          (∀ e' ∈ es3, ∀ raw', ¬ S.Rotates e' raw' f) ∧
          ∀ j raw' now' a' u u', ⟨j, .resolveAccess raw' now', a', u, u'⟩ ∈ es3 →
            now'.seconds < 2 ^ 63 → a' ≠ Except.error .database →
            ∀ row ∈ u.accessToken, row.digest = S.sha256 (textBytes raw') → row.familyId = some f →
            a' = Except.ok none) := by
  refine ⟨hrun.rotatedToken_nodup, ?_⟩
  intro es1 e es2 i raw f now bytes a t t' es3 hes hrotates hanswered
  subst hes
  obtain ⟨Q, hpre, hQ⟩ := hrun.before
  have hfresh' : (S.refreshDigests (es1 ++ e :: es2)).Nodup := by
    rw [refreshDigests, List.flatMap_append] at hfresh
    exact hfresh.of_append_left
  obtain ⟨hspent, hcurrent, row, hrow, hid⟩ := hpre.spent_of_rotates hfresh' hrotates
  obtain rfl : Q.shared = t := hQ
  obtain ⟨_, _, hlen⟩ := Pool.Run.answers hpre e (List.mem_append_right _ List.mem_cons_self)
  obtain ⟨_, _, hanswer⟩ := Pool.Run.answers hrun _ (List.mem_append_right _ List.mem_cons_self)
  replace hanswer : (a, t') = SqliteOidcRefreshTokenStore.rotate S.sha256 raw now bytes Q.shared :=
    hanswer.resolve_right fun h => hanswered h.1
  obtain ⟨hlate, htime⟩ := SqliteOidcRefreshTokenStore.rotate_of_spent now bytes
    (hlen.length_of_rotatedToken hrotates.1) hcurrent hspent rfl
  refine ⟨fun hnow => Prod.mk.inj (hanswer.trans (hlate hnow)), fun hnow => ?_⟩
  obtain rfl : a = Except.ok .replayRevoked := (congrArg Prod.fst hanswer).trans (htime hnow)
  obtain ⟨Q', hQ', hrest⟩ := hrun.after
  obtain rfl : Q'.shared = t' := hQ'
  have hdead := (Pool.Run.always hrest (fun _ he => (hrest.does he).familyDead)
    (hrun.familyDead_of_replay hspent hrow hid)).1
  refine ⟨rfl, fun e' he' raw' hrotates' => ?_, ?_⟩
  · obtain ⟨hraw', x, hx, hxd, hxf⟩ := hrotates'
    obtain ⟨y, hy, hyd, hlive, -⟩ := (hrest.does he').of_rotatedToken hraw'
    have hunique := hrun.currentUnique.1 e' (List.mem_append_right _ (List.mem_cons_of_mem _ he'))
    exact (hdead e' he').revoked y hy ((hunique y hy x hx (hyd.trans hxd.symm)).trans hxf) hlive
  · intro j raw' now' a' u u' he' hnow' hanswered' x hx hxd hxf
    obtain ⟨_, _, hanswer⟩ := Pool.Run.answers hrest _ he'
    obtain h | ⟨h, -⟩ := hanswer
    · refine (congrArg Prod.fst h).trans ?_
      refine SqliteOidcAccessTokenStore.resolveAccess_eq_none hnow' fun y hy hyd => ?_
      have hkeyed := (Pool.Run.always (J := fun t : OidcTables =>
        Table.Keyed accessGrowth.key t.accessToken) hrun
        (fun _ he hk => ((hrun.does he).accessTokens hk).keyed) .nil).1 _
          (List.mem_append_right _ (List.mem_cons_of_mem _ he'))
      obtain rfl := hkeyed.eq hy hx (hyd.trans hxd.symm)
      exact (hdead _ he').not_isLive hxf
    · exact absurd h hanswered'

end OidcProvider

/-- The family whose first token is drawn from 5. -/
def notesFamily : RefreshTokenFamily where
  id := randomValue (bytes32 8)
  userId := ⟨1⟩
  sessionId := ⟨7⟩
  clientId := notesClient.clientId
  currentDigest := plainProvider.sha256 (textBytes (randomValue (bytes32 5)))
  generation := 0
  expiresAt := ⟨1000⟩
  revokedAt := none

/-- An access token that is recorded with the family. -/
def notesGrant : AccessTokenGrant where
  digest := plainProvider.sha256 (textBytes (randomValue (bytes32 4)))
  clientId := notesClient.clientId
  userId := ⟨1⟩
  sessionId := ⟨7⟩
  subject := ⟨⟨1⟩, ⟨1⟩, randomValue (bytes32 3)⟩
  scopes := [.openId]
  expiresAt := ⟨900⟩

/-- After a login the first token of a family is rotated and presented again at the given time; then
come the second one and an access token. -/
def notesReplay (again : UnixTimestamp) (i : Fin 9) : OidcRequest :=
  [.insertClient notesClient, notesBegin, notesApprove, .insertFamily notesFamily,
    .insertAccess notesGrant notesFamily.id, .rotate (randomValue (bytes32 5)) ⟨50⟩ (bytes32 6),
    .rotate (randomValue (bytes32 5)) again (bytes32 9),
    .rotate (randomValue (bytes32 6)) ⟨60⟩ (bytes32 7),
    .resolveAccess (randomValue (bytes32 4)) ⟨60⟩].get i

def notesReplayRun (again : UnixTimestamp) :=
  plainProvider.runs (notesReplay again) {} [0, 1, 1, 1, 2, 2, 2, 3, 4, 5, 6, 7, 8]

/-- A time that SQLite cannot store: the replay is an error, and the family goes on. -/
theorem late_replay_keeps_family :
    plainProvider.Run (plainProvider.pool (notesReplay ⟨2 ^ 63⟩) {}) (notesReplayRun ⟨2 ^ 63⟩).1
        (notesReplayRun ⟨2 ^ 63⟩).2 ∧
      (plainProvider.refreshDigests (notesReplayRun ⟨2 ^ 63⟩).1).Nodup ∧
      ((notesReplayRun ⟨2 ^ 63⟩).2.program 5).result? =
        some (.ok (.rotation (.rotated (randomValue (bytes32 6))))) ∧
      ((notesReplayRun ⟨2 ^ 63⟩).2.program 6).result? = some (.error .unavailable) ∧
      ((notesReplayRun ⟨2 ^ 63⟩).2.program 7).result? =
        some (.ok (.rotation (.rotated (randomValue (bytes32 7))))) := by
  exact ⟨plainProvider.runs_run _ _ _, by decide +kernel⟩

theorem replay_ends_notes_family :
    let es := (notesReplayRun ⟨55⟩).1
    (es.filterMap fun e => e.call.rotatedToken e.answer).Nodup ∧
      (∃ i a t t', es = es.take 10 ++
          ⟨i, .rotate (randomValue (bytes32 5)) ⟨55⟩ (bytes32 9), a, t, t'⟩ :: es.drop 11 ∧
        a = Except.ok .replayRevoked) ∧
      (∀ e ∈ es.drop 11, ∀ raw, ¬plainProvider.Rotates e raw notesFamily.id) ∧
      ((notesReplayRun ⟨55⟩).2.program 8).result? = some (.ok (.resolved none)) := by
  intro es
  obtain ⟨hfresh, h9, h10, hresolved⟩ :
      (plainProvider.refreshDigests es).Nodup ∧
        es[9]?.any (fun e =>
          e.call.rotatedToken e.answer = some (randomValue (bytes32 5)) ∧
            ∃ row ∈ e.before.family,
              row.family.currentDigest =
                plainProvider.sha256 (textBytes (randomValue (bytes32 5))) ∧
              row.family.id = notesFamily.id) ∧
        es[10]?.any (fun r =>
          r.call = .rotate (randomValue (bytes32 5)) ⟨55⟩ (bytes32 9) ∧ r.call.writes r.answer) ∧
        ((notesReplayRun ⟨55⟩).2.program 8).result? = some (.ok (.resolved none)) := by
    decide +kernel
  obtain ⟨honce, hends⟩ :=
    plainProvider.rotate_replay_ends_family (plainProvider.runs_run _ _ _) hfresh
  obtain ⟨e, he, hrotates⟩ := exists_at 9 _ h9
  obtain ⟨⟨i, c, a, t, t'⟩, hr, hcall, hwrites⟩ := exists_at 10 _ h10
  subst hcall
  have hsplit := split_at hr
  have htake : es.take 10 = es.take 9 ++ e :: [] := by
    rw [List.take_add_one, he]
    rfl
  have hanswered : a ≠ Except.error .database := by
    rintro rfl
    cases hwrites
  obtain ⟨hreplay, hdead, -⟩ :=
    (hends _ e _ i _ _ _ _ a t t' _ (htake ▸ hsplit) hrotates hanswered).2 (by decide)
  exact ⟨honce, ⟨i, a, t, t', hsplit, hreplay⟩, hdead, hresolved⟩

end Rumahl
