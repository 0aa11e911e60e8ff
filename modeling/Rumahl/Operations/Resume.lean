import Rumahl.Operations.Copies
import Rumahl.Operations.Recovery

/-!
# What recovery makes of the live platform

`Resumed P ops T` says what taking up the operations `ops` one after the other makes of a platform,
without any of the calls that it takes. `recoverOperations_resumed` shows that recovery does this
whenever it returns, and `Resumed.recovers` that it does return if no call fails: the journal
accepts what a disciplined program stores.
-/

namespace Rumahl

open Effect AppOperationRunner Journal List

/-! ## Taking up operations -/

/-- Taking up the operation turns the platform `P` into another one: it gets the target of an
install, and loses that of an uninstall and of an install that is being compensated. -/
inductive Takes (P : Platform) (op : AppOperation) : Platform → Prop
  | apply {a : InstalledApp} (htarget : op.targetApp = some a) (hkind : op.kind = .install)
      (hphase : op.phase = .applying) (hA : P.Accepts a) : Takes P op (P.withApp a hA)
  | remove {a : InstalledApp} (htarget : op.targetApp = some a)
      (h : op.kind = .uninstall ∧ op.phase = .applying ∨
        op.kind = .install ∧ op.phase = .compensating)
      (hS : P.Separates a) : Takes P op (P.withoutApp a hS)

theorem Takes.unique (h : Takes P op T) (h' : Takes P op T') : T = T' := by
  cases h with
  | apply ha hk hp hA =>
    cases h' with
    | apply ha' _ _ hA' =>
      cases ha.symm.trans ha'
      rfl
    | remove ha' h hS =>
      rw [hk, hp] at h
      rcases h with ⟨h, -⟩ | ⟨-, h⟩ <;> cases h
  | remove ha h hS =>
    cases h' with
    | apply ha' hk hp hA =>
      rw [hk, hp] at h
      rcases h with ⟨h, -⟩ | ⟨-, h⟩ <;> cases h
    | remove ha' _ hS' =>
      cases ha.symm.trans ha'
      rfl

/-- Taking up the operations in order turns `P` into `T`. -/
inductive Resumed : Platform → List AppOperation → Platform → Prop
  | nil (P : Platform) : Resumed P [] P
  | cons {P P1 T : Platform} {op : AppOperation} {ops : List AppOperation} :
      Takes P op P1 → Resumed P1 ops T → Resumed P (op :: ops) T

namespace Takes

/-- What can be taken up on a platform can be taken up on one with fewer apps. -/
theorem mono (h : Takes P' op T') (hP : P.apps ⊆ P'.apps) :
    ∃ T, Takes P op T ∧ T.apps ⊆ T'.apps := by
  cases h with
  | apply ha hk hp hA =>
    refine ⟨_, .apply ha hk hp fun b hb => hA b (hP hb), fun b hb => ?_⟩
    exact Platform.mem_withApp.mpr ((Platform.mem_withApp.mp hb).imp_left fun hb => hP hb)
  | remove ha h hS =>
    refine ⟨_, .remove ha h fun b hb => hS b (hP hb), fun b hb => ?_⟩
    obtain ⟨hb, hne⟩ := Platform.mem_withoutApp.mp hb
    exact Platform.mem_withoutApp.mpr ⟨hP hb, hne⟩

/-- An app that is there was there before, or was installed. -/
theorem mem_cases (h : Takes P op T) (ha : a ∈ T.apps) :
    (a ∈ P.apps ∧ ∀ b ∈ op.targetApp, b.installationId ≠ a.installationId) ∨
      op.kind = .install ∧ op.phase = .applying ∧ op.targetApp = some a := by
  cases h with
  | apply ht hk hp hA =>
    rcases Platform.mem_withApp.mp ha with ha | rfl
    · rcases hA a ha with rfl | hne
      · exact .inr ⟨hk, hp, ht⟩
      · exact .inl ⟨ha, fun b hb => Option.some.inj (ht.symm.trans hb) ▸ hne.installationId.symm⟩
    · exact .inr ⟨hk, hp, ht⟩
  | remove ht _ hS =>
    obtain ⟨ha, hne⟩ := Platform.mem_withoutApp.mp ha
    exact .inl ⟨ha, fun b hb => Option.some.inj (ht.symm.trans hb) ▸ hne.symm⟩

theorem mem_of_ne (h : Takes P op T) (ha : a ∈ P.apps)
    (hne : ∀ b ∈ op.targetApp, b.installationId ≠ a.installationId) : a ∈ T.apps := by
  cases h with
  | apply _ _ _ hA => exact Platform.mem_withApp.mpr (.inl ha)
  | remove ht _ hS => exact Platform.mem_withoutApp.mpr ⟨ha, fun he => hne _ ht he.symm⟩

end Takes

/-- The last of the operations on the app is an install that is being applied. -/
def Installs (ops : List AppOperation) (a : InstalledApp) : Prop :=
  ∃ l1 op l2, ops = l1 ++ op :: l2 ∧ op.kind = .install ∧ op.phase = .applying ∧
    op.targetApp = some a ∧ ∀ o ∈ l2, ∀ b ∈ o.targetApp, b.installationId ≠ a.installationId

namespace Resumed

theorem unique (h : Resumed P ops T) (h' : Resumed P ops T') : T = T' := by
  induction h with
  | nil P => cases h'; rfl
  | cons hT _ ih =>
    cases h' with
    | cons hT' hR' => exact ih (hT.unique hT' ▸ hR')

theorem mono (h : Resumed P' ops T') (hP : P.apps ⊆ P'.apps) :
    ∃ T, Resumed P ops T ∧ T.apps ⊆ T'.apps := by
  induction h generalizing P with
  | nil P' => exact ⟨P, .nil P, hP⟩
  | cons hT _ ih =>
    obtain ⟨P1, hP1, hsub⟩ := hT.mono hP
    obtain ⟨T, hR, hT⟩ := ih hsub
    exact ⟨T, .cons hP1 hR, hT⟩

theorem mem_cases (h : Resumed P ops T) (ha : a ∈ T.apps) :
    (a ∈ P.apps ∧ ∀ op ∈ ops, ∀ b ∈ op.targetApp, b.installationId ≠ a.installationId) ∨
      Installs ops a := by
  induction h with
  | nil P => exact .inl ⟨ha, fun _ h => absurd h not_mem_nil⟩
  | cons hT _ ih =>
    rcases ih ha with ⟨ha, hlater⟩ | ⟨l1, op, l2, rfl, hop⟩
    · rcases hT.mem_cases ha with ⟨ha, hne⟩ | ⟨hk, hp, ht⟩
      · exact .inl ⟨ha, forall_mem_cons.mpr ⟨hne, hlater⟩⟩
      · exact .inr ⟨[], _, _, rfl, hk, hp, ht, hlater⟩
    · exact .inr ⟨_ :: l1, op, l2, rfl, hop⟩

theorem mem_of_ne (h : Resumed P ops T) (ha : a ∈ P.apps)
    (hne : ∀ op ∈ ops, ∀ b ∈ op.targetApp, b.installationId ≠ a.installationId) : a ∈ T.apps := by
  induction h with
  | nil P => exact ha
  | cons hT _ ih =>
    obtain ⟨hop, hops⟩ := forall_mem_cons.mp hne
    exact ih (hT.mem_of_ne ha hop) hops

/-- An install that is among the operations: its target is there in the end unless another
operation has the same target, and the others could do without it. -/
theorem insert (h : Resumed P (l1 ++ op :: l2) T) (ht : op.targetApp = some a)
    (hk : op.kind = .install) (hp : op.phase = .applying) :
    (∃ T', Resumed P (l1 ++ l2) T' ∧ T'.apps ⊆ T.apps) ∧
    ((∀ o ∈ l2, ∀ b ∈ o.targetApp, b.installationId ≠ a.installationId) → a ∈ T.apps) := by
  induction l1 generalizing P with
  | nil =>
    cases h with
    | cons hT hR =>
      cases hT with
      | apply ha _ _ hA =>
        cases ht.symm.trans ha
        refine ⟨hR.mono fun b hb => Platform.mem_withApp.mpr (.inl hb), ?_⟩
        exact hR.mem_of_ne (Platform.mem_withApp.mpr (.inr rfl))
      | remove _ h =>
        rw [hk, hp] at h
        rcases h with ⟨h, -⟩ | ⟨-, h⟩ <;> cases h
  | cons o l1 ih =>
    cases h with
    | cons hT hR =>
      obtain ⟨⟨T', hR', hsub⟩, hmem⟩ := ih hR
      exact ⟨⟨T', .cons hT hR', hsub⟩, hmem⟩

end Resumed

/-! ## What is left of an operation -/

/-- What taking up an operation does to the world outside of the process. -/
structure Touched (op : AppOperation) (new : PlatformSnapshot) (w w' : World) : Prop where
  issued : w'.issued = w.issued
  journal : ∃ op', op'.id = op.id ∧ op'.targetApp = op.targetApp ∧
    w'.journal = Table.put AppOperation.id w.journal op'
  snapshot : w'.snapshot = w.snapshot ∨ w'.snapshot = some new

theorem Committed.touched (hc : Committed h new p u w w') (st : Progress) (t : UnixTimestamp) :
    Touched (h.operation st t) new w w' where
  issued := hc.issued
  journal := ⟨h.operation .committed u, rfl, rfl, hc.journal⟩
  snapshot := by
    rw [hc.snapshot]
    split
    · exact .inr rfl
    · exact .inl rfl

theorem Undone.touched (hd : Undone h new p q u w w') (st : Progress) (t : UnixTimestamp) :
    Touched (h.operation st t) new w w' where
  issued := hd.issued
  journal := ⟨h.operation (.compensated p) u, rfl, rfl, hd.journal⟩
  snapshot := by
    rw [hd.snapshot]
    split
    · exact .inr rfl
    · exact .inl rfl

theorem Interrupted.touched (hi : Interrupted h new p w w') (st : Progress) (t : UnixTimestamp) :
    Touched (h.operation st t) new w w' := by
  cases hi with
  | within q u hw =>
    exact ⟨hw.issued, ⟨h.operation (.applying q) u, rfl, rfl, hw.journal⟩, hw.snapshot_or⟩
  | committed u hw => exact hw.touched st t

theorem HalfUndone.touched (hi : HalfUndone h new p q w w') (st : Progress) (t : UnixTimestamp) :
    Touched (h.operation st t) new w w' := by
  cases hi with
  | within q u tail hw =>
    exact ⟨hw.issued, ⟨h.operation (.compensating p q) u, rfl, rfl, hw.journal⟩, hw.snapshot_or⟩
  | undone u hw => exact hw.touched st t

theorem HalfUndone.live (hi : HalfUndone h new p q w w') :
    w'.state = w.state ∧ w'.grants = w.grants := by
  cases hi with
  | within q u tail hw => exact ⟨hw.state, hw.grants⟩
  | undone u hw hs hg => exact ⟨hs, hg⟩

namespace AppOperationRunner

variable {allows : Allows} {K : World → Prop} {w : World} {P : Platform}

theorem compensateInstallOperation_takes {h : Header} (hw : w.Sound) (hs : w.state = P.state)
    (hg : w.grants = P.grants) (hk : h.kind = .install)
    (hf : find w.journal h.id = some (h.operation (.compensating p q) u))
    (hst : (Progress.compensating p q).Reachable h.plan.length)
    (hbad : Faulty allows ∨ ∃ T, Takes P (h.operation (.compensating p q) u) T) (hK : K w)
    (hrun : ∀ T w', Takes P (h.operation (.compensating p q) u) T →
      Touched (h.operation (.compensating p q) u) T.snapshot w w' → w'.Sound →
      w'.state = P.state → w'.grants = P.grants → K w')
    (hQ : ∀ T w', Takes P (h.operation (.compensating p q) u) T →
      Touched (h.operation (.compensating p q) u) T.snapshot w w' → w'.Sound →
      Resolved (h.operation (.compensating p q) u) w w' →
      w'.state = T.state → w'.grants = T.grants → Q () w') :
    Spec allows K (compensateInstallOperation (h.operation (.compensating p q) u)) Q w := by
  have hstage : ∀ {staged g}, stageWithoutTarget (h.operation (.compensating p q) u) w.state
      w.grants = .ret (staged, g) ↔ ∃ hS : P.Separates h.app,
        staged = (P.withoutApp h.app hS).state ∧ g = (P.withoutApp h.app hS).grants := by
    rw [hs, hg]
    exact stageWithoutTarget_eq_ret
  have htakes : ∀ hS : P.Separates h.app, Takes P (h.operation (.compensating p q) u)
      (P.withoutApp h.app hS) := fun hS => .remove rfl (.inr ⟨hk, rfl⟩) hS
  apply compensate_spec hw hf hst.1 hst.2 (hbad.imp_right ?_) hK
  · intro staged g hst' w' hi
    obtain ⟨hS, rfl, rfl⟩ := hstage.mp hst'
    exact hrun _ w' (htakes hS) (hi.touched ..) (hw.halfUndone hk hst.1 hi) (hi.live.1.trans hs)
      (hi.live.2.trans hg)
  · intro staged g hst' u' w' hd hs' hg'
    obtain ⟨hS, rfl, rfl⟩ := hstage.mp hst'
    exact hQ _ w' (htakes hS) (hd.touched ..) (hw.undone hk hst.1 hd) (hd.resolved ..) hs' hg'
  · rintro ⟨T, hT⟩
    cases hT with
    | apply _ _ hphase => cases hphase
    | remove ha _ hS =>
      cases ha
      exact ⟨_, hstage.mpr ⟨hS, rfl, rfl⟩⟩

/-- Taking up an operation that is interrupted leaves the live platform; one that goes through makes
another one of it. -/
theorem recoverOperation_takes {Q : Bool → World → Prop} (hw : w.Sound) (hs : w.state = P.state)
    (hg : w.grants = P.grants) (hop : op ∈ w.journal) (ht : op.isTerminal = false)
    (hbad : Faulty allows ∨ ∃ T, Takes P op T) (hK : K w)
    (hrun : ∀ T w', Takes P op T → Touched op T.snapshot w w' → w'.Sound →
      w'.state = P.state → w'.grants = P.grants → K w')
    (hQ : ∀ b T w', Takes P op T → Touched op T.snapshot w w' → w'.Sound → Resolved op w w' →
      w'.state = T.state → w'.grants = T.grants → Q b w') :
    Spec allows K (recoverOperation op) Q w := by
  have hf := hw.find hop
  obtain ⟨h, st, u, rfl, hst, hadm⟩ := hw.entries op hop
  cases st with
  | committed | compensated p => cases ht
  | applying p =>
    have hkind : h.kind ≠ .update := by
      rintro hk
      simp [hk] at hadm
    have htakes : ∀ T, Staged P h T → Takes P (h.operation (.applying p) u) T := by
      intro T hT
      cases hT with
      | install hk hA => exact .apply rfl hk rfl hA
      | uninstall hk hS => exact .remove rfl (.inl ⟨hk, rfl⟩) hS
    have hstaged : ∀ T, Takes P (h.operation (.applying p) u) T → Staged P h T := by
      intro T hT
      cases hT with
      | apply ha hk _ hA =>
        cases ha
        exact .install hk hA
      | remove ha hk hS =>
        cases ha
        rcases hk with ⟨hk, -⟩ | ⟨-, hphase⟩
        · exact .uninstall hk hS
        · cases hphase
    apply recoverOperation_spec hw hs hg hf hst hkind
      (hbad.imp_right fun ⟨T, hT⟩ => ⟨T, hstaged T hT⟩) hK
    · intro T hT w' hi
      exact hrun T w' (htakes T hT) (hi.touched ..) (hw.interrupted hkind hi) (hi.live.1.trans hs)
        (hi.live.2.trans hg)
    · intro T hT u w' hc hs' hg'
      exact hQ _ T w' (htakes T hT) (hc.touched ..) (hw.committed hkind hc) (hc.resolved ..) hs' hg'
  | compensating p q =>
    have hk : h.kind = .install := by
      cases hk : h.kind <;> simp [hk] at hadm
      rfl
    exact recoverCompensating_spec hk (compensateInstallOperation_takes hw hs hg hk hf hst hbad hK
      hrun (hQ true))

/-- Operations that are in the journal and incomplete, each of them once. -/
structure ToResume (w : World) (ops : List AppOperation) : Prop where
  sound : w.Sound
  keyed : Table.Keyed AppOperation.id ops
  pending : ∀ op ∈ ops, op ∈ w.journal ∧ op.isTerminal = false

theorem ToResume.listIncomplete (hw : w.Sound) : ToResume w (Journal.listIncomplete w.journal) :=
  ⟨hw, listIncomplete_nodup hw, fun _ hop => Journal.mem_listIncomplete.mp hop⟩

/-- The operations that are still to be taken up are as they were. -/
theorem ToResume.resolved (h : ToResume w (op :: ops)) (hw' : w'.Sound)
    (hr : Resolved op w w') : ToResume w' ops := by
  obtain ⟨hne, hk⟩ := nodup_cons.mp h.keyed
  obtain ⟨op', hid, -, hj⟩ := hr
  refine ⟨hw', hk, fun o ho => ⟨?_, (h.pending o (mem_cons_of_mem _ ho)).2⟩⟩
  rw [hj, Table.mem_put]
  refine .inr ⟨(h.pending o (mem_cons_of_mem _ ho)).1, fun he => hne ?_⟩
  exact hid ▸ he ▸ mem_map_of_mem ho

/-- Recovery that returns has taken up the operations. It returns if they can be taken up and no
answer is a failure. -/
theorem recoverOperations_resumed (hops : ToResume w ops) (hs : w.state = P.state)
    (hg : w.grants = P.grants) (hbad : Faulty allows ∨ ∃ T, Resumed P ops T)
    (report : AppOperationRecoveryReport) :
    Spec allows World.Sound (recoverOperations ops report) (fun _ w' =>
      ∃ T, Resumed P ops T ∧ w'.state = T.state ∧ w'.grants = T.grants) w := by
  induction ops generalizing w P report with
  | nil => exact Spec.ret ⟨P, .nil P, hs, hg⟩
  | cons op ops ih =>
    obtain ⟨hop, ht⟩ := hops.pending op mem_cons_self
    have hbad1 : Faulty allows ∨ ∃ T, Takes P op T := by
      refine hbad.imp_right ?_
      rintro ⟨T, hT⟩
      cases hT with
      | cons hT _ => exact ⟨_, hT⟩
    refine Spec.seq (recoverOperation_takes hops.sound hs hg hop ht hbad1 hops.sound
      (fun _ _ _ _ h _ _ => h) fun _ P1 w1 hP1 _ hw1 hr hs1 hg1 => ?_)
    have hbad2 : Faulty allows ∨ ∃ T, Resumed P1 ops T := by
      refine hbad.imp_right ?_
      rintro ⟨T, hT⟩
      cases hT with
      | cons hT hR => exact ⟨T, hT.unique hP1 ▸ hR⟩
    refine Spec.mono (ih (hops.resolved hw1 hr) hs1 hg1 hbad2 _) (fun _ h => h) ?_
    rintro _ w2 ⟨T, hR, hs2, hg2⟩
    exact ⟨T, .cons hP1 hR, hs2, hg2⟩

theorem recoverIncomplete_resumed (hw : w.Sound) (hs : w.state = P.state) (hg : w.grants = P.grants)
    (hbad : Faulty allows ∨ ∃ T, Resumed P (Journal.listIncomplete w.journal) T) :
    Spec allows World.Sound recoverIncomplete (fun _ w' =>
      ∃ T, Resumed P (Journal.listIncomplete w.journal) T ∧ w'.state = T.state ∧
        w'.grants = T.grants) w := by
  refine Spec.seq (listIncomplete_spec hw ?_)
  exact recoverOperations_resumed (.listIncomplete hw) hs hg hbad _

end AppOperationRunner

/-! ## The order of the operations -/

namespace Journal

theorem before_iff : before a b = true ↔ a.startedAt.seconds < b.startedAt.seconds ∨
    a.startedAt.seconds = b.startedAt.seconds ∧ a.id.value ≤ b.id.value := by
  have hlt : a.startedAt < b.startedAt ↔ a.startedAt.seconds < b.startedAt.seconds := Iff.rfl
  have heq : a.startedAt = b.startedAt ↔ a.startedAt.seconds = b.startedAt.seconds :=
    ⟨congrArg UnixTimestamp.seconds, fun h => congrArg UnixTimestamp.mk h⟩
  rw [before, Bool.or_eq_true, Bool.and_eq_true, decide_eq_true_iff, decide_eq_true_iff,
    decide_eq_true_iff, hlt, heq]

instance : Std.Total fun a b : AppOperation => before a b = true where
  total a b := by
    rw [before_iff, before_iff]
    omega

instance : IsTrans AppOperation fun a b => before a b = true where
  trans a b c h h' := by
    rw [before_iff] at *
    omega

/-- A new operation is listed somewhere among the others, which keep their order. -/
theorem exists_listIncomplete (op : AppOperation) (hk : Table.Keyed AppOperation.id (j ++ [op]))
    (ht : op.isTerminal = false) :
    ∃ l1 l2, listIncomplete (j ++ [op]) = l1 ++ op :: l2 ∧ listIncomplete j = l1 ++ l2 := by
  have hsplit := orderedInsert_eq_take_drop (fun a b => before a b = true) op (listIncomplete j)
  refine ⟨_, _, Eq.trans ?_ hsplit, (takeWhile_append_dropWhile ..).symm⟩
  have hperm : (listIncomplete (j ++ [op])).Perm
      ((listIncomplete j).orderedInsert (fun a b => before a b = true) op) := by
    refine (perm_insertionSort _ _).trans ?_
    rw [filter_append, filter_singleton, ht]
    refine (perm_append_comm).trans (.trans ?_ (perm_orderedInsert _ op _).symm)
    exact (perm_insertionSort _ _).symm.cons op
  refine hperm.eq_of_pairwise ?_ (pairwise_insertionSort _ _)
    ((pairwise_insertionSort _ _).orderedInsert op _)
  intro a b ha hb hab hba
  have hmem : ∀ o, o ∈ listIncomplete (j ++ [op]) → o ∈ j ++ [op] := fun o ho =>
    (mem_listIncomplete.mp ho).1
  refine hk.eq (hmem a ha) (hmem b (hperm.mem_iff.mpr hb)) ?_
  rw [before_iff] at hab hba
  exact congrArg AppOperationId.mk (show a.id.value = b.id.value by omega)

end Journal

/-! ## Calls of a disciplined program -/

theorem Learned.expects_of_step (hw : World.Sound w)
    (hstep : World.handler.step c d w = some (a, w')) : Learned.expects c a := by
  cases c with
  | listIncomplete =>
    cases d with
    | stop => cases hstep
    | ok n => cases hstep; exact listIncomplete_nodup hw
    | fail | lost => cases hstep; trivial
  | _ => trivial

/-- What is owed at the calls of a disciplined program follows from what the discipline permits. -/
theorem Disciplined.guarded (hp : Disciplined opens Ψ κ p)
    (h : wp World.handler ⟨anyAnswer, G⟩ p Q w) (hsound : ∀ w, Q.stopped w → w.Sound)
    (hΦ : ∀ κ c w, Learned.permits opens κ c → Φ c w) : wp World.handler ⟨anyAnswer, Φ⟩ p Q w := by
  induction p generalizing κ w with
  | ret a => exact h
  | throw e => exact h
  | call c k ih =>
    obtain ⟨hc, hk⟩ := hp
    obtain ⟨-, hstop, hrest⟩ := h
    refine ⟨hΦ κ c w hc, hstop, fun d a w' hstep ha => ?_⟩
    exact ih a (hk a (Learned.expects_of_step (hsound w (hstop trivial)) hstep))
      (hrest d a w' hstep ha)

/-! ## Runs without a failure -/

/-- Every call succeeds and the clock stands still, unless the process is stopped. -/
def calm : Allows
  | _, none => True
  | .now, some a => a = .ok ⟨0⟩
  | c, some a => succeeded c a = true

theorem not_faulty_calm : ¬Faulty calm := by
  rintro ⟨c, a, ha, hf⟩
  cases c with
  | now =>
    cases (show a = .ok ⟨0⟩ from ha)
    cases hf
  | _ => exact absurd (hf.symm.trans ha) nofun

/-- The latest copies are what the journal holds, and all times fit a column. -/
structure Learned.Holds (κ : Learned) (w : World) : Prop where
  copies : ∀ i op, κ.latest i = some op → Journal.find w.journal i = some op
  times : ∀ t ∈ κ.times, t.seconds < 2 ^ 63
  range : ∀ op ∈ w.journal, op.startedAt.seconds < 2 ^ 63 ∧ op.updatedAt.seconds < 2 ^ 63

namespace Learned.Holds

variable {κ : Learned} {w : World}

theorem empty
    (hrange : ∀ op ∈ w.journal, op.startedAt.seconds < 2 ^ 63 ∧ op.updatedAt.seconds < 2 ^ 63) :
    Learned.Holds {} w where
  copies _ _ h := absurd h (Option.some_ne_none _).symm
  times _ h := absurd h not_mem_nil
  range := hrange

theorem cons_copy (hκ : κ.Holds w) (hop : find j op.id = some op)
    (hother : ∀ i, i ≠ op.id → find j i = find w.journal i)
    (hrange : ∀ o ∈ j, o.startedAt.seconds < 2 ^ 63 ∧ o.updatedAt.seconds < 2 ^ 63) :
    Learned.Holds ⟨op :: κ.copies, κ.times⟩ { w with journal := j } := by
  refine ⟨fun i o ho => ?_, hκ.times, hrange⟩
  by_cases hi : i = op.id
  · subst hi
    rw [Learned.latest_cons] at ho
    exact Option.some.inj ho ▸ hop
  · rw [Learned.latest_cons_ne hi] at ho
    exact (hother i hi).trans (hκ.copies i o ho)

theorem storeTransition (hκ : κ.Holds w) (hw : w.Sound)
    (hc : κ.permits False (.storeTransition op')) :
    storeTransition w.journal op' = .ok (Table.put AppOperation.id w.journal op') ∧
      Learned.Holds ⟨op' :: κ.copies, κ.times⟩ (w.put op') := by
  obtain ⟨op, t, transition, hlatest, ht, htr⟩ := hc
  have hprec := AppOperation.transition_precedes htr
  have hf : find w.journal op'.id = some op := hκ.copies _ _ hlatest
  obtain ⟨hmem, -⟩ := hw.mem hf
  obtain ⟨hstarted, hupdated⟩ := hκ.range op hmem
  have hrev : op'.revision < 2 ^ 63 := by
    obtain ⟨h, st, u, rfl, hst, -⟩ := hw.entries op hmem
    rw [hprec.revision]
    exact AppOperation.revision_lt_of_reachable (Header.plan_nodup _) hst
  have htime : op'.updatedAt.seconds < 2 ^ 63 := by
    rw [AppOperation.transition_updatedAt htr]
    rcases ht with ht | rfl
    · exact hκ.times t ht
    · exact hupdated
  have hstore := storeTransition_of_find hf (precedes_of_precedes hprec) hrev
    (hprec.startedAt ▸ hstarted) htime
  rw [updated_of_precedes hprec] at hstore
  refine ⟨hstore, hκ.cons_copy (find_put op' hf) (fun i hi => Table.find_put_ne hi) ?_⟩
  intro o ho
  rcases Table.mem_put.mp ho with ⟨rfl, -⟩ | ⟨ho, -⟩
  · exact ⟨hprec.startedAt ▸ hstarted, htime⟩
  · exact hκ.range o ho

/-- In a calm run every call of a disciplined program succeeds. -/
theorem step (hκ : κ.Holds w) (hw : w.Sound) (hc : κ.permits False c) :
    calm c (some (w.respond (.ok 0) c).1) ∧ Learned.expects c (w.respond (.ok 0) c).1 ∧
      (κ.learn c (w.respond (.ok 0) c).1).Holds (w.respond (.ok 0) c).2 := by
  cases c with
  | now =>
    refine ⟨rfl, trivial, hκ.copies, forall_mem_cons.mpr ⟨?_, hκ.times⟩, hκ.range⟩
    decide
  | createOperation op => exact hc.1.elim
  | storeTransition op' =>
    obtain ⟨hstore, hκ'⟩ := hκ.storeTransition hw hc
    simp only [World.respond, World.journalWrite, hstore]
    exact ⟨rfl, trivial, hκ'⟩
  | findOperation i =>
    cases hf : find w.journal i with
    | none =>
      simp only [World.respond, World.read, hf]
      exact ⟨rfl, trivial, hκ.copies, hκ.times, hκ.range⟩
    | some op =>
      simp only [World.respond, World.read, hf]
      refine ⟨rfl, trivial, hκ.cons_copy ?_ (fun _ _ => rfl) hκ.range⟩
      exact (hw.mem hf).2 ▸ hf
  | listIncomplete =>
    refine ⟨rfl, listIncomplete_nodup hw, fun i op hop => ?_, hκ.times, hκ.range⟩
    change List.find? _ (listIncomplete w.journal ++ κ.copies) = _ at hop
    rw [List.find?_append] at hop
    rcases Option.or_eq_some_iff.mp hop with hop | ⟨-, hop⟩
    · have hmem := (mem_listIncomplete.mp (mem_of_find?_eq_some hop)).1
      have hid : op.id = i := by simpa using List.find?_some hop
      exact hid ▸ hw.find hmem
    · exact hκ.copies i op hop
  | provider o r q =>
    cases q with
    | registerOrRecoverInstalledApp staged i t =>
      obtain ⟨app, happ⟩ := Option.isSome_iff_exists.mp hc
      simp only [World.respond, World.serve, happ]
      exact ⟨rfl, trivial, hκ.copies, hκ.times, hκ.range⟩
    | _ => exact ⟨rfl, trivial, hκ.copies, hκ.times, hκ.range⟩
  | _ => exact ⟨rfl, trivial, hκ.copies, hκ.times, hκ.range⟩

end Learned.Holds

/-- A calm run of a disciplined program comes to its end, and ends as it is specified to. -/
theorem Disciplined.calm_exec (hp : Disciplined False Ψ κ p) (h : wp World.handler ⟨calm, G⟩ p Q w)
    (hsound : ∀ w, Q.stopped w → w.Sound) (hκ : κ.Holds w) :
    (exec World.handler p [] w).1 ≠ .stopped ∧
      Q.holds (exec World.handler p [] w).2 (exec World.handler p [] w).1 := by
  induction p generalizing κ w with
  | ret a => exact ⟨(nomatch ·), h⟩
  | throw e => exact ⟨(nomatch ·), h⟩
  | call c k ih =>
    obtain ⟨hc, hk⟩ := hp
    obtain ⟨-, hstop, hrest⟩ := h
    obtain ⟨ha, he, hκ'⟩ := hκ.step (hsound w (hstop trivial)) hc
    have hstep : World.handler.step c (.ok 0) w = some (w.respond (.ok 0) c) := rfl
    exact ih _ (hk _ he) (hrest _ _ _ hstep ha) hκ'

/-- Recovery goes through and takes up the operations if no call fails. -/
theorem Resumed.recovers (hw : w.Sound) (hs : w.state = P.state) (hg : w.grants = P.grants)
    (hrange : ∀ op ∈ w.journal, op.startedAt.seconds < 2 ^ 63 ∧ op.updatedAt.seconds < 2 ^ 63)
    (hR : Resumed P (Journal.listIncomplete w.journal) T) :
    ∃ report w', exec World.handler recoverIncomplete [] w = (.done report, w') ∧
      w'.state = T.state ∧ w'.grants = T.grants := by
  have hspec : Spec calm World.Sound recoverIncomplete _ w :=
    recoverIncomplete_resumed hw hs hg (.inr ⟨T, hR⟩)
  obtain ⟨hrun, hend⟩ := recoverIncomplete_disciplined.calm_exec hspec (fun _ h => h)
    (.empty hrange)
  cases hx : exec World.handler recoverIncomplete [] w with
  | mk exit w' =>
    rw [hx] at hrun hend
    cases exit with
    | stopped => exact absurd rfl hrun
    | failed e => exact absurd hend.1 not_faulty_calm
    | done report =>
      obtain ⟨T', hR', hs', hg'⟩ := hend
      cases hR.unique hR'
      exact ⟨report, w', rfl, hs', hg'⟩

end Rumahl
