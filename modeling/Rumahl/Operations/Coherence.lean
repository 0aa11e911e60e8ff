import Rumahl.Operations.Resume

/-!
# One app to an installation id

Whatever calls are made and wherever they stop, an installation id belongs to one app: the live
platform, the stored one and the journal never have different apps under it (`coherent_after`).
Recovery may fail all the same; this is the invariant that needs no condition on the calls.
-/

namespace Rumahl

open Effect AppOperationRunner

/-- The apps that are installed or stored, and the targets of operations. -/
def World.Knows (w : World) (L S : Platform) (a : InstalledApp) : Prop :=
  a ∈ L.apps ∨ a ∈ S.apps ∨ ∃ op ∈ w.journal, op.targetApp = some a

/-- The live platform is `L` and the stored one `S`. Every installation id was drawn, and belongs to
one app. -/
structure World.CoherentWith (w : World) (L S : Platform) : Prop where
  sound : w.Sound
  state : w.state = L.state
  grants : w.grants = L.grants
  stored : Stored w.snapshot S
  drawn : ∀ a, w.Knows L S a → a.installationId.value ∈ w.issued
  same : ∀ a b, w.Knows L S a → w.Knows L S b → a.installationId = b.installationId → a = b

def World.Coherent (w : World) : Prop := ∃ L S, w.CoherentWith L S

namespace World.CoherentWith

variable {w w' w1 : World} {L L' S S' T : Platform} {h : Header}

section

variable (hw : w.CoherentWith L S)
include hw

theorem move (hsound : w'.Sound) (hs : w'.state = L'.state) (hg : w'.grants = L'.grants)
    (hst : Stored w'.snapshot S') (hi : w.issued ⊆ w'.issued)
    (hk : ∀ a, w'.Knows L' S' a → w.Knows L S a) : w'.CoherentWith L' S' where
  sound := hsound
  state := hs
  grants := hg
  stored := hst
  drawn a ha := hi (hw.drawn a (hk a ha))
  same a b ha hb := hw.same a b (hk a ha) (hk b hb)

theorem draw (hi : w.issued ⊆ is) : ({ w with issued := is } : World).CoherentWith L S :=
  hw.move (hw.sound.mono rfl hi) hw.state hw.grants hw.stored hi fun _ h => h

theorem reload : w.reload.CoherentWith S S := by
  have he : w.reload = { w with state := S.state, grants := S.grants } := by
    rw [World.reload, hw.stored.load]
  rw [he]
  refine hw.move (hw.sound.mono rfl fun _ h => h) rfl rfl hw.stored (fun _ h => h) ?_
  rintro a (ha | ha)
  · exact .inr (.inl ha)
  · exact .inr ha

/-- An operation moves on; it makes `T` of the live platform and may have stored it. -/
theorem touched (hop : op ∈ w.journal) (hT : ∀ a ∈ T.apps, a ∈ L.apps ∨ op.targetApp = some a)
    (ht : Touched op T.snapshot w w') (hsound : w'.Sound) (hL' : L' = L ∨ L' = T)
    (hs : w'.state = L'.state) (hg : w'.grants = L'.grants) : w'.Coherent := by
  have htarget : ∀ a, op.targetApp = some a → w.Knows L S a := fun a ha => .inr (.inr ⟨op, hop, ha⟩)
  have hTknown : ∀ a ∈ T.apps, w.Knows L S a := fun a ha => (hT a ha).elim .inl (htarget a)
  have hLknown : ∀ a ∈ L'.apps, w.Knows L S a := by
    rcases hL' with rfl | rfl
    · exact fun a ha => .inl ha
    · exact hTknown
  obtain ⟨S', hst, hSknown⟩ : ∃ S', Stored w'.snapshot S' ∧ ∀ a ∈ S'.apps, w.Knows L S a := by
    rcases ht.snapshot with hsame | hnew
    · exact ⟨S, hsame ▸ hw.stored, fun a ha => .inr (.inl ha)⟩
    · exact ⟨T, .inl hnew, hTknown⟩
  refine ⟨L', S', hw.move hsound hs hg hst (by rw [ht.issued]; exact fun _ h => h) ?_⟩
  rintro a (ha | ha | ⟨op1, hop1, ha⟩)
  · exact hLknown a ha
  · exact hSknown a ha
  · obtain ⟨op', -, heq, hj⟩ := ht.journal
    rw [hj, Table.mem_put] at hop1
    rcases hop1 with ⟨rfl, -⟩ | ⟨hop1, -⟩
    · exact htarget a (heq ▸ ha)
    · exact .inr (.inr ⟨op1, hop1, ha⟩)

/-- Entering an operation: an install brings an app under an id that was drawn for it. -/
theorem entered (he : Entered L w h w1 c T) : w1.CoherentWith L S := by
  have ho := he.opening
  have hback : ∀ a, w1.Knows L S a → w.Knows L S a ∨ a = h.app := by
    rintro a (ha | ha | ⟨op, hop, ha⟩)
    · exact .inl (.inl ha)
    · exact .inl (.inr (.inl ha))
    · rw [ho.journal, List.mem_append, List.mem_singleton] at hop
      rcases hop with hop | rfl
      · exact .inl (.inr (.inr ⟨op, hop, ha⟩))
      · exact .inr (Option.some.inj ha).symm
  cases he with
  | uninstall hun hmem =>
    refine hw.move (ho.sound hw.sound (by rw [hun.kind_eq]; nofun)) (ho.state.trans hw.state)
      (ho.grants.trans hw.grants) (ho.snapshot ▸ hw.stored) ho.issued fun a ha => ?_
    rcases hback a ha with ha | rfl
    · exact ha
    · exact .inl hmem
  | install hin hnew hA =>
    have hfresh : ∀ a, w.Knows L S a → a.installationId ≠ h.app.installationId := fun a ha hid =>
      hin.freshApp (hid ▸ hw.drawn a ha)
    exact
      { sound := hin.sound hw.sound nofun
        state := ho.state.trans hw.state
        grants := ho.grants.trans hw.grants
        stored := ho.snapshot ▸ hw.stored
        drawn := fun a ha => by
          rcases hback a ha with ha | rfl
          · exact ho.issued (hw.drawn a ha)
          · simp [hin.issued_eq]
        same := fun a b ha hb hid => by
          rcases hback a ha with ha | rfl <;> rcases hback b hb with hb | rfl
          · exact hw.same a b ha hb hid
          · exact absurd hid (hfresh a ha)
          · exact absurd hid.symm (hfresh b hb)
          · rfl }

theorem run (he : Entered L w h w1 c T)
    (ht : Touched (h.operation (.applying 0) h.startedAt) T.snapshot w1 w') (hsound : w'.Sound)
    (hL' : L' = L ∨ L' = T) (hs : w'.state = L'.state) (hg : w'.grants = L'.grants) :
    w'.Coherent := by
  refine (hw.entered he).touched (by simp [he.opening.journal]) (fun a ha => ?_) ht hsound hL' hs hg
  cases he.staged with
  | install _ hA => exact (Platform.mem_withApp.mp ha).imp_right fun h => congrArg some h.symm
  | uninstall _ hS => exact .inl (Platform.mem_withoutApp.mp ha).1

end

end World.CoherentWith

/-! ## The calls keep the invariant -/

variable {allows : Allows} {w : World}

theorem recoverOperation_coherent (hw : w.Coherent) (hop : op ∈ w.journal)
    (ht : op.isTerminal = false) :
    Spec anyAnswer World.Coherent (recoverOperation op)
      (fun _ w' => w'.Coherent ∧ Resolved op w w') w := by
  obtain ⟨L, S, hc⟩ := hw
  apply recoverOperation_takes hc.sound hc.state hc.grants hop ht (.inl faulty_anyAnswer) ⟨L, S, hc⟩
  · intro T w' hT htouch hsound hs hg
    exact hc.touched hop (fun a ha => (hT.mem_cases ha).imp And.left fun h => h.2.2) htouch hsound
      (.inl rfl) hs hg
  · intro _ T w' hT htouch hsound hr hs hg
    exact ⟨hc.touched hop (fun a ha => (hT.mem_cases ha).imp And.left fun h => h.2.2) htouch hsound
      (.inr rfl) hs hg, hr⟩

theorem compensateInstall_coherent (hw : w.Coherent) (i : AppOperationId) :
    Spec anyAnswer World.Coherent (compensateInstall i) (fun _ w' => w'.Coherent) w := by
  -- compensating an operation that the journal has as compensating
  have hcompensate : ∀ {w : World} {h : Header} {p q u}, w.Coherent → h.kind = .install →
      (Progress.compensating p q).Reachable h.plan.length →
      Journal.find w.journal h.id = some (h.operation (.compensating p q) u) →
      Spec anyAnswer World.Coherent (compensateInstallOperation (h.operation (.compensating p q) u))
        (fun _ w' => w'.Coherent) w := by
    rintro w h p q u ⟨L, S, hc⟩ hk hst hf
    have hop := (hc.sound.mem hf).1
    apply compensateInstallOperation_takes hc.sound hc.state hc.grants hk hf hst
      (.inl faulty_anyAnswer) ⟨L, S, hc⟩
    · intro T w' hT htouch hsound hs hg
      exact hc.touched hop (fun a ha => (hT.mem_cases ha).imp And.left fun h => h.2.2) htouch hsound
        (.inl rfl) hs hg
    · intro T w' hT htouch hsound _ hs hg
      exact hc.touched hop (fun a ha => (hT.mem_cases ha).imp And.left fun h => h.2.2) htouch hsound
        (.inr rfl) hs hg
  refine compensateInstall_spec i (.inl faulty_anyAnswer) hw fun op hf => ?_
  obtain ⟨L, S, hc⟩ := hw
  obtain ⟨hop, rfl⟩ := hc.sound.mem hf
  obtain ⟨h, st, u, rfl, hst, -⟩ := hc.sound.entries op hop
  refine ⟨h, st, u, rfl, hst, fun hk => ⟨?_, ?_⟩⟩
  · rintro p rfl t
    have hreach : (Progress.compensating p 0).Reachable h.plan.length := ⟨hst, Nat.zero_le _⟩
    have hsound : (w.put (h.operation (.compensating p 0) t)).Sound :=
      hc.sound.put (h.admits_install (.compensating p 0) hk hreach) rfl rfl
    have hnext : (w.put (h.operation (.compensating p 0) t)).Coherent :=
      hc.touched hop (fun a ha => .inl ha)
        ⟨rfl, ⟨h.operation (.compensating p 0) t, rfl, rfl, rfl⟩, .inl rfl⟩ hsound (.inl rfl)
        hc.state hc.grants
    exact ⟨hnext, hcompensate hnext hk hreach (Journal.find_put (h.operation _ t) hf)⟩
  · rintro p q rfl
    exact hcompensate ⟨L, S, hc⟩ hk hst hf

theorem Command.coherent (hw : w.Coherent) (c : Command) :
    Spec anyAnswer World.Coherent c.program (fun _ => World.Coherent) w := by
  obtain ⟨L, S, hc⟩ := hw
  have hopens : c.Opens →
      Spec anyAnswer World.Coherent c.program (fun _ => World.Coherent) w := by
    intro ho
    apply c.opens_spec ho hc.sound hc.state hc.grants faulty_anyAnswer
      (fun is hi => ⟨L, S, hc.draw hi⟩)
    · intro h T w1 he w' hi
      have hs := (hc.entered he).state
      have hg := (hc.entered he).grants
      exact hc.run he (hi.touched ..) ((he.sound hc.sound).interrupted he.staged.ne_update hi)
        (.inl rfl) (hi.live.1.trans hs) (hi.live.2.trans hg)
    · intro h T w1 he u w' hd hs hg
      exact hc.run he (hd.touched ..) ((he.sound hc.sound).committed he.staged.ne_update hd)
        (.inr rfl) hs hg
  cases c with
  | install m | uninstall i => exact hopens trivial
  | compensateInstall i => exact compensateInstall_coherent ⟨L, S, hc⟩ i
  | recoverIncomplete =>
    refine Spec.bind (recoverIncomplete_spec ⟨L, S, hc⟩ ⟨L, S, hc⟩
      (fun _ ⟨_, _, h⟩ => h.sound) fun op w hw hop ht => recoverOperation_coherent hw hop ht) ?_
    exact fun _ _ h => Spec.ret h.1

/-! ## Times -/

/-- The times in the journal fit their columns. -/
def World.InRange (w : World) : Prop :=
  ∀ op ∈ w.journal, op.startedAt.seconds < 2 ^ 63 ∧ op.updatedAt.seconds < 2 ^ 63

private theorem Journal.toSqlInteger_eq_ok (h : Journal.toSqlInteger field value = .ok r) :
    value < 2 ^ 63 := by
  unfold Journal.toSqlInteger at h
  split at h
  · assumption
  · cases h

private theorem World.InRange.create (hw : w.InRange)
    (h : Journal.create w.journal op = .ok j) : World.InRange { w with journal := j } := by
  rw [Journal.create] at h
  split at h
  · cases h
  simp only [Except.seq_eq_ok] at h
  obtain ⟨-, hs, hu, h⟩ := h
  split at h
  · cases h
  · cases h
    intro o ho
    rcases List.mem_append.mp ho with ho | ho
    · exact hw o ho
    · rw [List.mem_singleton.mp ho]
      exact ⟨Journal.toSqlInteger_eq_ok hs, Journal.toSqlInteger_eq_ok hu⟩

private theorem World.InRange.storeTransition (hw : w.InRange)
    (h : Journal.storeTransition w.journal op = .ok j) : World.InRange { w with journal := j } := by
  obtain ⟨stored, hf, -, rfl⟩ := Journal.storeTransition_eq_ok h
  have hupdated : op.updatedAt.seconds < 2 ^ 63 := by
    rw [Journal.storeTransition] at h
    split at h
    · cases h
    simp only [Except.seq_eq_ok] at h
    obtain ⟨-, -, -, hu, -⟩ := h
    exact Journal.toSqlInteger_eq_ok hu
  intro o ho
  rcases Table.mem_put.mp ho with ⟨rfl, -⟩ | ⟨ho, -⟩
  · exact ⟨(hw stored (List.mem_of_find?_eq_some hf)).1, hupdated⟩
  · exact hw o ho

theorem World.InRange.step (hw : w.InRange) (d : Decision) : (w.respond d c).2.InRange := by
  have hwrite : ∀ x, (∀ j, x = .ok j → World.InRange { w with journal := j }) →
      (w.journalWrite d x).2.InRange := by
    intro x hx
    cases x with
    | error e => cases d <;> exact hw
    | ok j =>
      cases d with
      | fail => exact hw
      | _ => exact hx j rfl
  cases c with
  | createOperation op => exact hwrite _ fun j hj => hw.create hj
  | storeTransition op => exact hwrite _ fun j hj => hw.storeTransition hj
  | provider o r q =>
    cases d with
    | ok n =>
      simp only [World.respond]
      split <;> cases q <;> exact hw
    | _ => cases q <;> exact hw
  | _ => cases d <;> exact hw

/-! ## Runs -/

theorem World.Initial.coherent (hw : w.Initial) : w.Coherent := by
  obtain ⟨P, hP, hs, hg⟩ := loadPlatform_eq_ok.mp hw.loaded
  have hknown : ∀ a, w.Knows P P a → a ∈ P.apps := by
    rintro a (ha | ha | ⟨op, hop, -⟩)
    · exact ha
    · exact ha
    · rw [hw.journal] at hop
      cases hop
  exact ⟨P, P,
    { sound := .of_empty hw.journal
      state := hs
      grants := hg
      stored := hP
      drawn := fun a ha => hw.issued a (hP.storedApps ▸ hknown a ha)
      same := fun a b ha hb hid =>
        (Platform.accepts_of_mem (hknown b hb)).separates a (hknown a ha) (.inl hid) }⟩

/-- In every run an installation id belongs to one app, and the times in the journal fit. -/
theorem coherent_after (hw : w.Initial) (es : List RunnerEvent) :
    (after RunnerEvent.next es w).Coherent ∧ (after RunnerEvent.next es w).InRange := by
  have hinit : w.InRange := fun op hop => absurd (hw.journal ▸ hop) List.not_mem_nil
  refine (Along.of_forall (fun _ _ => trivial) es w).invariant
    (P := fun w => w.Coherent ∧ w.InRange)
    (fun e w hw _ => e.next_of_spec (I := fun w => w.Coherent ∧ w.InRange) ?_ hw ?_)
    ⟨hw.coherent, hinit⟩
  · rintro w ⟨⟨L, S, hc⟩, hr⟩
    exact ⟨⟨S, S, hc.reload⟩, by rw [World.InRange, w.reload_journal]; exact hr⟩
  · rintro c is -
    refine wp.mono (wp.invariant (J := World.InRange) (c.coherent hw.1) hw.2 ?_) (fun _ _ h => h)
      (fun _ _ h => ⟨h.1.1, h.1.2, h.2⟩) fun _ h => h
    rintro c d a w1 w2 hr hstep -
    simp only [World.handler] at hstep
    split at hstep
    · cases hstep
    · rw [show w2 = (w1.respond d c).2 from (congrArg Prod.snd (Option.some.inj hstep)).symm]
      exact hr.step d

end Rumahl
