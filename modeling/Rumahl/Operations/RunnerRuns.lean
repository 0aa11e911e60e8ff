import Rumahl.Operations.CompensationSpec

/-!
# Calls of the runner and sequences of them

`World.Sound` is the invariant of the journal that every call of the runner keeps: each entry is
some operation at a position its kind can reach. Under it every call has one specification that
says what it starts, what it can leave behind and what it ends in; the invariants of whole runs are
derived from these.
-/

namespace Rumahl

open Effect Journal List

/-! ## The journal of a runner -/

/-- The positions an operation of its kind gets to: nothing turns an uninstall back. -/
def Header.Admits (h : Header) (st : Progress) : Prop :=
  st.Reachable h.plan.length ∧
    match h.kind, st with
    | .install, _ => True
    | .uninstall, .applying _ | .uninstall, .committed => True
    | _, _ => False

namespace Header

theorem admits_applying (h : Header) (hkind : h.kind ≠ .update) (hp : p ≤ 2 * h.plan.length) :
    h.Admits (.applying p) := by
  refine ⟨hp, ?_⟩
  cases hk : h.kind <;> simp_all

theorem admits_committed (h : Header) (hkind : h.kind ≠ .update) : h.Admits .committed := by
  refine ⟨trivial, ?_⟩
  cases hk : h.kind <;> simp_all

theorem admits_install (h : Header) (st : Progress) (hkind : h.kind = .install)
    (hst : st.Reachable h.plan.length) : h.Admits st := by
  refine ⟨hst, ?_⟩
  simp [hkind]

end Header

/-- Each entry of the journal is an operation at some position, under an id that was drawn. -/
structure World.Sound (w : World) : Prop where
  keyed : Table.Keyed AppOperation.id w.journal
  entries : ∀ op ∈ w.journal, ∃ h st u, op = Header.operation h st u ∧ h.Admits st
  issued : ∀ op ∈ w.journal, op.id.value ∈ w.issued

namespace World.Sound

variable {w w' : World} {h : Header} {st : Progress} {u : UnixTimestamp}

theorem of_empty (hj : w.journal = []) : w.Sound := by
  refine ⟨?_, ?_, ?_⟩ <;> simp [hj, Table.Keyed]

section

variable (hw : w.Sound)
include hw

/-- Ids that are drawn and never used, and what else is not in the journal, do not matter. -/
theorem mono (hj : w'.journal = w.journal) (hi : w.issued ⊆ w'.issued) : w'.Sound := by
  refine ⟨?_, ?_, ?_⟩ <;> rw [hj]
  · exact hw.keyed
  · exact hw.entries
  · exact fun op hop => hi (hw.issued op hop)

theorem find (hop : op ∈ w.journal) : find w.journal op.id = some op :=
  (Table.find_eq_some hw.keyed).mpr ⟨hop, rfl⟩

theorem mem (hf : Journal.find w.journal i = some op) : op ∈ w.journal ∧ op.id = i :=
  (Table.find_eq_some hw.keyed).mp hf

theorem put (hst : h.Admits st)
    (hj : w'.journal = Table.put AppOperation.id w.journal (h.operation st u))
    (hi : w'.issued = w.issued) : w'.Sound where
  keyed := by rw [hj]; exact hw.keyed.put _
  entries op' hop' := by
    rw [hj, Table.mem_put] at hop'
    rcases hop' with ⟨rfl, -⟩ | ⟨hop', -⟩
    · exact ⟨h, st, u, rfl, hst⟩
    · exact hw.entries op' hop'
  issued op' hop' := by
    rw [hi]
    rw [hj, Table.mem_put] at hop'
    rcases hop' with ⟨rfl, c, hc, hid⟩ | ⟨hop', -⟩
    · exact hid ▸ hw.issued c hc
    · exact hw.issued op' hop'

theorem create (hid : h.id.value ∉ w.issued) (hst : h.Admits st)
    (hj : w'.journal = w.journal ++ [h.operation st u]) (hi : w.issued ⊆ w'.issued)
    (hi' : h.id.value ∈ w'.issued) : w'.Sound where
  keyed := by
    rw [hj, Table.keyed_append]
    exact ⟨hw.keyed, fun op hop (he : op.id = h.id) => hid (he ▸ hw.issued op hop)⟩
  entries op hop := by
    rw [hj, mem_append, mem_singleton] at hop
    rcases hop with hop | rfl
    · exact hw.entries op hop
    · exact ⟨h, st, u, rfl, hst⟩
  issued op hop := by
    rw [hj, mem_append, mem_singleton] at hop
    rcases hop with hop | rfl
    · exact hi (hw.issued op hop)
    · exact hi'

/-- Applying an operation keeps the journal sound, however it ends. -/
theorem interrupted (hkind : h.kind ≠ .update) (hi : Interrupted h new p w w') : w'.Sound := by
  cases hi with
  | within q u hq => exact hw.put (h.admits_applying hkind hq.le_plan) hq.journal hq.issued
  | committed u hc => exact hw.put (h.admits_committed hkind) hc.journal hc.issued

theorem halfUndone (hkind : h.kind = .install) (hp : p ≤ 2 * h.plan.length)
    (hi : HalfUndone h new p q w w') : w'.Sound := by
  cases hi with
  | within q' u tail hq =>
    exact hw.put (h.admits_install (.compensating p q') hkind ⟨hp, hq.le_begun⟩)
      hq.journal hq.issued
  | undone u hd => exact hw.put (h.admits_install (.compensated p) hkind hp) hd.journal hd.issued

end

end World.Sound

/-! ## Opening an operation -/

/-- In `w1` the journal of `w` has the new operation `h`; nothing else but drawn ids is new. -/
structure Opening (kind : AppOperationKind) (w : World) (h : Header) (w1 : World) : Prop where
  kind_eq : h.kind = kind
  fresh : h.id.value ∉ w.issued
  drawn : h.id.value ∈ w1.issued
  issued : w.issued ⊆ w1.issued
  journal : w1.journal = w.journal ++ [h.operation (.applying 0) h.startedAt]
  snapshot : w1.snapshot = w.snapshot
  calls : w1.calls = w.calls
  state : w1.state = w.state
  grants : w1.grants = w.grants

namespace Opening

theorem sound (ho : Opening kind w h w1) (hw : w.Sound) (hkind : kind ≠ .update) : w1.Sound :=
  hw.create ho.fresh (h.admits_applying (ho.kind_eq ▸ hkind) (Nat.zero_le _)) ho.journal ho.issued
    ho.drawn

theorem find (ho : Opening kind w h w1) (hw : w.Sound) (hkind : kind ≠ .update) :
    find w1.journal h.id = some (h.operation (.applying 0) h.startedAt) :=
  (ho.sound hw hkind).find (show h.operation (.applying 0) h.startedAt ∈ w1.journal by
    simp [ho.journal])

end Opening

theorem Journal.create_operation (h : Header)
    (hc : create j (h.operation (.applying 0) h.startedAt) = .ok j') :
    j' = j ++ [h.operation (.applying 0) h.startedAt] := by
  rw [create] at hc
  split at hc
  · cases hc
  · simp only [Except.bind_eq_ok] at hc
    obtain ⟨_, -, _, -, _, -, hc⟩ := hc
    split at hc
    · cases hc
    · exact (Except.ok.inj hc).symm

/-- `install m` entered the operation `h` and staged its target. -/
structure Installing (m : AppManifest) (w : World) (h : Header) (staged : PlatformState)
    (w1 : World) : Prop extends Opening .install w h w1 where
  freshApp : h.app.installationId.value ∉ w.issued
  issued_eq : w1.issued = h.id.value :: h.app.installationId.value :: w.issued
  staged_eq : AppLifecycle.install h.app.installationId m w.state = .ok (h.app, staged)

/-- `uninstall i` entered the operation `h` and staged the platform without its target. -/
structure Uninstalling (i : InstallationId) (w : World) (h : Header) (staged : PlatformState)
    (g : InMemoryGrantStore) (w1 : World) : Prop extends Opening .uninstall w h w1 where
  issued_eq : w1.issued = h.id.value :: w.issued
  found : w.state.installedApps.getByInstallationId i = some h.app
  staged_eq : AppLifecycle.uninstall i w.state w.grants = .ok (staged, g)

theorem AppLifecycle.install_app (h : AppLifecycle.install i m s = .ok (app, staged)) :
    app.installationId = i ∧ app.manifest = m ∧ AppLifecycle.register app s = .ok staged := by
  simp only [AppLifecycle.install, Except.bind_eq_ok, Except.mapError_eq_ok] at h
  obtain ⟨app', hc, s', hr, he⟩ := h
  obtain ⟨rfl, rfl⟩ := Prod.mk.inj (Except.ok.inj he)
  obtain ⟨hm, hi⟩ := InstalledApp.create_eq_ok hc
  exact ⟨congrArg AppIdentity.installationId hi, hm, hr⟩

namespace AppOperationRunner

open AppOperationRunnerError

variable {allows : Allows} {K : World → Prop} {w : World} {β : Type} {Q : β → World → Prop}

/-- The part that an install and an uninstall share, from the time stamp to the journal entry. Up
to here nothing but the drawn ids `is` has changed. -/
private theorem open_spec (is : List Nat) {f : AppOperation → Runner β} (app : InstalledApp)
    (kind : AppOperationKind) (hi : w.issued ⊆ is)
    (hK : ∀ is, w.issued ⊆ is → K { w with issued := is })
    (hopen : ∀ h w1, h.app = app → Opening kind w h w1 → w1.issued = h.id.value :: is →
      K w1 ∧ Spec allows K (f (h.operation (.applying 0) h.startedAt)) Q w1) :
    Spec allows K (do
      let startedAt ← now
      let operationId ← newUuid
      let op ← Prog.ofExcept operation (AppOperation.forApp ⟨operationId⟩ app kind startedAt)
      createOperation op
      f op) Q { w with issued := is } := by
  refine Spec.seq (now_spec (hK is hi) fun t => ?_)
  refine Spec.seq (newUuid_spec (hK is hi) fun n (hn : n ∉ is) => ?_)
  have hsub : w.issued ⊆ n :: is := fun i hm => mem_cons_of_mem _ (hi hm)
  have hfor := Header.forApp ⟨⟨n⟩, kind, t, app⟩
  simp only [hfor, Prog.ofExcept, Prog.ret_bind]
  refine Spec.seq (createOperation_spec (hK _ hsub) fun j hj => ?_)
  exact hopen ⟨⟨n⟩, kind, t, app⟩ _ rfl ⟨rfl, fun h => hn (hi h), mem_cons_self, hsub,
    create_operation ⟨⟨n⟩, kind, t, app⟩ hj, rfl, rfl, rfl, rfl⟩ rfl

/-- An install fails without an answer to blame only if the live state refuses the manifest. -/
theorem install_spec {Q : AppInstallResult → World → Prop} (hw : w.Sound)
    (hbad : Faulty allows ∨ ∀ i, ∃ r, AppLifecycle.install i m w.state = .ok r)
    (hK : ∀ is, w.issued ⊆ is → K { w with issued := is })
    (hrun : ∀ h staged w1, Installing m w h staged w1 →
      ∀ w', Interrupted h (.capture staged w.grants) 0 w1 w' → K w')
    (hQ : ∀ h staged w1, Installing m w h staged w1 → ∀ u w',
      Committed h (.capture staged w.grants) 0 u w1 w' → w'.state = staged →
      w'.grants = w.grants → Q ⟨h.id, h.app⟩ w') : Spec allows K (install m) Q w := by
  have hKw : K w := hK w.issued fun _ h => h
  refine Spec.seq (live_spec hKw ?_)
  refine Spec.seq (newUuid_spec hKw fun n hn => ?_)
  have hsub : w.issued ⊆ n :: w.issued := fun i hm => mem_cons_of_mem _ hm
  cases hl : AppLifecycle.install ⟨n⟩ m w.state with
  | error e =>
    rcases hbad with hf | hok
    · exact Runs.throw hf (hK _ hsub)
    · obtain ⟨r, hr⟩ := hok ⟨n⟩
      rw [hl] at hr
      cases hr
  | ok r =>
    obtain ⟨app, staged⟩ := r
    obtain ⟨happ, -⟩ := AppLifecycle.install_app hl
    refine open_spec _ app .install hsub hK fun h w1 hh ho hg => ?_
    have hin : Installing m w h staged w1 :=
      { ho with
        freshApp := by rw [hh, happ]; exact hn
        issued_eq := by rw [hg, hh, happ]
        staged_eq := by rw [hh, happ]; exact hl }
    have hne : AppOperationKind.install ≠ .update := nofun
    have hfind := ho.find hw hne
    refine ⟨hrun h staged w1 hin w1 (.within 0 _ (.refl (ho.sound hw hne).keyed hfind
      (Nat.zero_le _))), ?_⟩
    rw [← hh]
    exact Spec.seq (applyInstall_spec (ho.sound hw hne).keyed hfind (Nat.zero_le _)
      (hrun h staged w1 hin) fun u w' hc hs hgr => Spec.ret (hQ h staged w1 hin u w' hc hs hgr))

theorem uninstall_spec {Q : AppInstallResult → World → Prop} (hw : w.Sound)
    (hbad : Faulty allows ∨ ∃ r, AppLifecycle.uninstall i w.state w.grants = .ok r)
    (hK : ∀ is, w.issued ⊆ is → K { w with issued := is })
    (hrun : ∀ h staged g w1, Uninstalling i w h staged g w1 →
      ∀ w', Interrupted h (.capture staged g) 0 w1 w' → K w')
    (hQ : ∀ h staged g w1, Uninstalling i w h staged g w1 → ∀ u w',
      Committed h (.capture staged g) 0 u w1 w' → w'.state = staged → w'.grants = g →
      Q ⟨h.id, h.app⟩ w') : Spec allows K (uninstall i) Q w := by
  have hKw : K w := hK w.issued fun _ h => h
  refine Spec.seq (live_spec hKw ?_)
  have herror : ∀ {e : AppOperationRunnerError} (e' : AppLifecycleError),
      AppLifecycle.uninstall i w.state w.grants = .error e' →
      Spec allows K (.throw e : Runner AppInstallResult) Q w := by
    intro e e' he
    rcases hbad with hf | ⟨r, hr⟩
    · exact Runs.throw hf hKw
    · rw [he] at hr
      cases hr
  cases hg : w.state.installedApps.getByInstallationId i with
  | none =>
    simp only [hg]
    exact herror .installationNotFound (by rw [AppLifecycle.uninstall, hg])
  | some app =>
    simp only [hg]
    cases hl : AppLifecycle.uninstall i w.state w.grants with
    | error e => exact herror e hl
    | ok r =>
      obtain ⟨staged, g⟩ := r
      refine open_spec w.issued app .uninstall (fun _ h => h) hK fun h w1 hh ho hg' => ?_
      have hun : Uninstalling i w h staged g w1 :=
        { ho with issued_eq := hg', found := by rw [hh]; exact hg, staged_eq := hl }
      have hne : AppOperationKind.uninstall ≠ .update := by decide
      have hfind := ho.find hw hne
      refine ⟨hrun h staged g w1 hun w1 (.within 0 _ (.refl (ho.sound hw hne).keyed hfind
        (Nat.zero_le _))), ?_⟩
      rw [← hh]
      exact Spec.seq (applyUninstall_spec (ho.sound hw hne).keyed hfind (Nat.zero_le _)
        (hrun h staged g w1 hun) fun u w' hc hs hgr =>
          Spec.ret (hQ h staged g w1 hun u w' hc hs hgr))

/-! ## Taking up an operation that the journal has -/

/-- A step that is computed from the live state: it goes on or fails, without a call. -/
private theorem staged_spec {f : γ → Runner β} (hx : (∃ a, x = .ret a) ∨ ∃ e, x = .throw e)
    (hbad : Faulty allows ∨ ∃ a, x = .ret a) (hK : K w)
    (h : ∀ a, x = .ret a → Spec allows K (f a) Q w) : Spec allows K (x >>= f) Q w := by
  rcases hx with ⟨a, rfl⟩ | ⟨e, rfl⟩
  · exact h a rfl
  · rcases hbad with hf | ⟨a, ha⟩
    · exact Runs.throw hf hK
    · cases ha

theorem stageInstallTarget_pure (h : Header) (st : Progress) (u : UnixTimestamp)
    (s : PlatformState) : (∃ a, stageInstallTarget (h.operation st u) s = .ret a) ∨
      ∃ e, stageInstallTarget (h.operation st u) s = .throw e := by
  rw [stageInstallTarget, show target (h.operation st u) = .ret h.app from rfl, Prog.ret_bind]
  split
  · split
    · exact .inl ⟨_, rfl⟩
    · exact .inr ⟨_, rfl⟩
  · cases AppLifecycle.restore h.app s with
    | ok a => exact .inl ⟨a, rfl⟩
    | error e => exact .inr ⟨_, rfl⟩

theorem stageWithoutTarget_pure (h : Header) (st : Progress) (u : UnixTimestamp)
    (s : PlatformState) (g : InMemoryGrantStore) :
    (∃ a, stageWithoutTarget (h.operation st u) s g = .ret a) ∨
      ∃ e, stageWithoutTarget (h.operation st u) s g = .throw e := by
  rw [stageWithoutTarget, show target (h.operation st u) = .ret h.app from rfl, Prog.ret_bind]
  split
  · split
    · cases AppLifecycle.uninstall h.app.installationId s g with
      | ok a => exact .inl ⟨a, rfl⟩
      | error e => exact .inr ⟨_, rfl⟩
    · exact .inr ⟨_, rfl⟩
  · split
    · exact .inr ⟨_, rfl⟩
    · exact .inl ⟨_, rfl⟩

section Resume

variable {h : Header} {p q : Nat} {u : UnixTimestamp}

theorem recoverInstall_spec {Q : Bool → World → Prop} (hw : w.Sound) (hkind : h.kind = .install)
    (hf : find w.journal h.id = some (h.operation (.applying p) u))
    (hp : p ≤ 2 * h.plan.length)
    (hbad : Faulty allows ∨ ∃ a, stageInstallTarget (h.operation (.applying p) u) w.state = .ret a)
    (hK : K w)
    (hrun : ∀ staged, stageInstallTarget (h.operation (.applying p) u) w.state = .ret staged →
      ∀ w', Interrupted h (.capture staged w.grants) p w w' → K w')
    (hQ : ∀ staged, stageInstallTarget (h.operation (.applying p) u) w.state = .ret staged →
      ∀ u w', Committed h (.capture staged w.grants) p u w w' → w'.state = staged →
      w'.grants = w.grants → Q false w') :
    Spec allows K (recoverOperation (h.operation (.applying p) u)) Q w := by
  have hk : (h.operation (.applying p) u).kind = .install := hkind
  have hphase : (h.operation (.applying p) u).phase = .applying := rfl
  simp only [recoverOperation, hk, hphase]
  refine Spec.seq (live_spec hK ?_)
  refine staged_spec (stageInstallTarget_pure ..) hbad hK fun staged hs => ?_
  exact Spec.seq (applyInstall_spec hw.keyed hf hp (hrun staged hs)
    fun u w' hc hst hg => Spec.ret (hQ staged hs u w' hc hst hg))

theorem recoverUninstall_spec {Q : Bool → World → Prop} (hw : w.Sound) (hkind : h.kind = .uninstall)
    (hf : find w.journal h.id = some (h.operation (.applying p) u))
    (hp : p ≤ 2 * h.plan.length)
    (hbad : Faulty allows ∨
      ∃ a, stageWithoutTarget (h.operation (.applying p) u) w.state w.grants = .ret a)
    (hK : K w)
    (hrun : ∀ staged g,
      stageWithoutTarget (h.operation (.applying p) u) w.state w.grants = .ret (staged, g) →
      ∀ w', Interrupted h (.capture staged g) p w w' → K w')
    (hQ : ∀ staged g,
      stageWithoutTarget (h.operation (.applying p) u) w.state w.grants = .ret (staged, g) →
      ∀ u w', Committed h (.capture staged g) p u w w' → w'.state = staged →
      w'.grants = g → Q false w') :
    Spec allows K (recoverOperation (h.operation (.applying p) u)) Q w := by
  have hk : (h.operation (.applying p) u).kind = .uninstall := hkind
  have hphase : (h.operation (.applying p) u).phase = .applying := rfl
  simp only [recoverOperation, hk, hphase]
  refine Spec.seq (live_spec hK ?_)
  refine staged_spec (stageWithoutTarget_pure ..) hbad hK fun a hs => ?_
  obtain ⟨staged, g⟩ := a
  exact Spec.seq (applyUninstall_spec hw.keyed hf hp (hrun staged g hs)
    fun u w' hc hst hg => Spec.ret (hQ staged g hs u w' hc hst hg))

theorem compensate_spec {Q : Unit → World → Prop} (hw : w.Sound)
    (hf : find w.journal h.id = some (h.operation (.compensating p q) u))
    (hp : p ≤ 2 * h.plan.length) (hq : q ≤ 2 * Progress.begun p)
    (hbad : Faulty allows ∨
      ∃ a, stageWithoutTarget (h.operation (.compensating p q) u) w.state w.grants = .ret a)
    (hK : K w)
    (hrun : ∀ staged g,
      stageWithoutTarget (h.operation (.compensating p q) u) w.state w.grants = .ret (staged, g) →
      ∀ w', HalfUndone h (.capture staged g) p q w w' → K w')
    (hQ : ∀ staged g,
      stageWithoutTarget (h.operation (.compensating p q) u) w.state w.grants = .ret (staged, g) →
      ∀ u w', Undone h (.capture staged g) p q u w w' → w'.state = staged →
      w'.grants = g → Q () w') :
    Spec allows K (compensateInstallOperation (h.operation (.compensating p q) u)) Q w := by
  rcases stageWithoutTarget_pure h (.compensating p q) u w.state w.grants with ⟨a, hs⟩ | ⟨e, hs⟩
  · obtain ⟨staged, g⟩ := a
    exact compensateInstallOperation_spec hw.keyed hf hp hq hs (hrun staged g hs) (hQ staged g hs)
  · rcases hbad with hx | ⟨a, ha⟩
    · rw [compensateInstallOperation,
        show target (h.operation (.compensating p q) u) = .ret h.app from rfl, Prog.ret_bind,
        validateOperationPlan_operation, Prog.ret_bind]
      refine Spec.seq (live_spec hK ?_)
      simp only [hs, Prog.throw_bind]
      exact Runs.throw hx hK
    · rw [hs] at ha
      cases ha

end Resume

/-- Compensating an operation by its id: it is turned back if it still goes forward. -/
theorem compensateInstall_spec {Q : Unit → World → Prop} (i : AppOperationId)
    (hbad : Faulty allows ∨ ∃ op, find w.journal i = some op ∧ op.kind = .install ∧
      op.isTerminal = false) (hK : K w)
    (hop : ∀ op, find w.journal i = some op →
      ∃ h st u, op = Header.operation h st u ∧ st.Reachable h.plan.length ∧ (h.kind = .install →
        (∀ p, st = .applying p → ∀ t, K (w.put (h.operation (.compensating p 0) t)) ∧
          Spec allows K (compensateInstallOperation (h.operation (.compensating p 0) t)) Q
            (w.put (h.operation (.compensating p 0) t))) ∧
        ∀ p q, st = .compensating p q →
          Spec allows K (compensateInstallOperation (h.operation st u)) Q w)) :
    Spec allows K (compensateInstall i) Q w := by
  refine Spec.perform trivial hK fun d _ ha => ?_
  cases d with
  | ok n =>
    cases hf : find w.journal i with
    | none =>
      simp only [World.respond, World.read, hf]
      refine Runs.throw (hbad.resolve_right ?_) hK
      rintro ⟨op, hop, -⟩
      rw [hf] at hop
      cases hop
    | some op =>
      simp only [World.respond, World.read, hf, Prog.ofExcept, Prog.ret_bind]
      have hfaulty : ¬(op.kind = .install ∧ op.isTerminal = false) → Faulty allows := by
        intro hno
        refine hbad.resolve_right ?_
        rintro ⟨op', hop', hk⟩
        rw [hf] at hop'
        cases hop'
        exact hno hk
      obtain ⟨h, st, u, rfl, hst, hnext⟩ := hop op hf
      have hid : h.id = i := by
        have hsome := List.find?_some (show w.journal.find? (fun op => op.id = i) = _ from hf)
        exact of_decide_eq_true hsome
      subst hid
      by_cases hk : h.kind = .install
      · have hk' : (h.operation st u).kind = .install := hk
        rw [if_neg (by simp [hk'])]
        cases st with
        | committed | compensated p => exact Runs.throw (hfaulty fun h => by cases h.2) hK
        | applying p =>
          exact Spec.seq (advance_spec hf (fun t =>
            (h.operation .committed t).moved_beginCompensation h.plan_nodup hst) hK
            (fun t => ((hnext hk).1 p rfl t).1) fun t => ((hnext hk).1 p rfl t).2)
        | compensating p q => exact (hnext hk).2 p q rfl
      · have hk' : (h.operation st u).kind ≠ .install := hk
        rw [if_pos hk']
        exact Runs.throw (hfaulty fun h => hk' h.1) hK
  | _ => exact Runs.throw ⟨_, _, ha, rfl⟩ hK

/-! ## Recovery -/

/-- In `w'` the operation `op` of `w` has ended; the other entries are as they were. -/
def Resolved (op : AppOperation) (w w' : World) : Prop :=
  ∃ op', op'.id = op.id ∧ op'.isTerminal = true ∧
    w'.journal = Table.put AppOperation.id w.journal op'

/-- Recovery takes the operations up one after the other. -/
theorem recoverOperations_spec {I : World → Prop}
    (hstep : ∀ op w, I w → op ∈ w.journal → op.isTerminal = false →
      Spec allows K (recoverOperation op) (fun _ w' => I w' ∧ Resolved op w w') w)
    (hn : (ops.map AppOperation.id).Nodup)
    (hops : ∀ op ∈ ops, op ∈ w.journal ∧ op.isTerminal = false) (hI : I w)
    (report : AppOperationRecoveryReport) :
    Spec allows K (recoverOperations ops report) (fun _ w' => I w' ∧
      ∀ op ∈ w'.journal, op.isTerminal = false →
        op ∈ w.journal ∧ op.id ∉ ops.map AppOperation.id) w := by
  induction ops generalizing w report with
  | nil => exact Spec.ret ⟨hI, fun op hop _ => ⟨hop, by simp⟩⟩
  | cons op ops ih =>
    obtain ⟨hop, hrest⟩ := forall_mem_cons.mp hops
    obtain ⟨hnot, hn⟩ := nodup_cons.mp hn
    refine Spec.bind (hstep op w hI hop.1 hop.2) ?_
    rintro compensated w1 ⟨hI1, op', hid, hterm, hj⟩
    have hkeep : ∀ o ∈ ops, o ∈ w1.journal ∧ o.isTerminal = false := fun o ho => by
      refine ⟨?_, (hrest o ho).2⟩
      rw [hj, Table.mem_put]
      exact .inr ⟨(hrest o ho).1, fun he => hnot (hid ▸ he ▸ mem_map_of_mem ho)⟩
    refine Spec.mono (ih hn hkeep hI1 _) (fun _ h => h) ?_
    rintro _ w' ⟨hI', hopen⟩
    refine ⟨hI', fun o ho ht => ?_⟩
    obtain ⟨hmem, hout⟩ := hopen o ho ht
    rw [hj, Table.mem_put] at hmem
    rcases hmem with ⟨rfl, -⟩ | ⟨hmem, hne⟩
    · rw [hterm] at ht
      cases ht
    · refine ⟨hmem, ?_⟩
      rw [map_cons, mem_cons, not_or]
      exact ⟨hid ▸ hne, hout⟩

theorem listIncomplete_nodup (hw : w.Sound) :
    ((Journal.listIncomplete w.journal).map AppOperation.id).Nodup := by
  have hperm : (Journal.listIncomplete w.journal).Perm
      (w.journal.filter fun op => !op.isTerminal) := perm_insertionSort ..
  exact (hperm.map _).nodup_iff.mpr (hw.keyed.sublist (filter_sublist.map _))

/-- A recovery that goes through leaves no operation incomplete. -/
theorem recoverIncomplete_spec {I : World → Prop} (hI : I w) (hK : K w)
    (hsound : ∀ w, I w → w.Sound)
    (hstep : ∀ op w, I w → op ∈ w.journal → op.isTerminal = false →
      Spec allows K (recoverOperation op) (fun _ w' => I w' ∧ Resolved op w w') w) :
    Spec allows K recoverIncomplete
      (fun _ w' => I w' ∧ Journal.listIncomplete w'.journal = []) w := by
  refine Spec.seq (listIncomplete_spec hK ?_)
  refine Spec.mono (recoverOperations_spec hstep (listIncomplete_nodup (hsound w hI))
    (fun op hop => Journal.mem_listIncomplete.mp hop) hI _) (fun _ h => h) ?_
  rintro _ w' ⟨hI', hopen⟩
  refine ⟨hI', eq_nil_iff_forall_not_mem.mpr fun op hop => ?_⟩
  obtain ⟨hmem, ht⟩ := Journal.mem_listIncomplete.mp hop
  obtain ⟨hin, hout⟩ := hopen op hmem ht
  exact hout (mem_map_of_mem (Journal.mem_listIncomplete.mpr ⟨hin, ht⟩))

theorem recoverCompensating_spec {Q : Bool → World → Prop} {h : Header} {u : UnixTimestamp}
    (hkind : h.kind = .install)
    (hc : Spec allows K (compensateInstallOperation (h.operation (.compensating p q) u))
      (fun _ w' => Q true w') w) :
    Spec allows K (recoverOperation (h.operation (.compensating p q) u)) Q w := by
  have hk : (h.operation (.compensating p q) u).kind = .install := hkind
  have hphase : (h.operation (.compensating p q) u).phase = .compensating := rfl
  simp only [recoverOperation, hk, hphase]
  exact Spec.bind hc fun _ _ hq => Spec.ret hq

end AppOperationRunner

/-! ## Sequences of calls -/

inductive Command where
  | install (manifest : AppManifest)
  | uninstall (id : InstallationId)
  | compensateInstall (id : AppOperationId)
  | recoverIncomplete

/-- The call, its result dropped. -/
def Command.program : Command → Runner Unit
  | .install m => do let _ ← AppOperationRunner.install m; pure ()
  | .uninstall i => do let _ ← AppOperationRunner.uninstall i; pure ()
  | .compensateInstall i => AppOperationRunner.compensateInstall i
  | .recoverIncomplete => do let _ ← AppOperationRunner.recoverIncomplete; pure ()

/-- A new process loads the stored snapshot. One that does not recover leaves the process without a
platform to call the runner with; what it would find in memory then does not matter. -/
def World.reload (w : World) : World :=
  match loadPlatform w.snapshot with
  | .ok (state, grants) => { w with state, grants }
  | .error _ => w

/-- A call under a schedule of decisions, or a restart between calls. -/
inductive RunnerEvent where
  | call (command : Command) (schedule : List Decision)
  | restart

/-- A process that a call stopped is followed by another one. -/
def RunnerEvent.next : RunnerEvent → World → World
  | .restart, w => w.reload
  | .call c is, w =>
    match exec World.handler c.program is w with
    | (.stopped, w') => w'.reload
    | (_, w') => w'

theorem World.reload_journal (w : World) : w.reload.journal = w.journal := by
  unfold reload
  split <;> rfl

theorem World.reload_issued (w : World) : w.reload.issued = w.issued := by
  unfold reload
  split <;> rfl

theorem World.Sound.reload (hw : World.Sound w) : w.reload.Sound :=
  hw.mono w.reload_journal (by rw [w.reload_issued]; exact fun _ h => h)

/-- What a call keeps, however it ends, and a restart keeps holds after the event. -/
theorem RunnerEvent.next_of_spec (hreload : ∀ w, I w → I w.reload) (hw : I w) (e : RunnerEvent)
    (hspec : ∀ c is, e = .call c is → Spec anyAnswer I c.program (fun _ => I) w) :
    I (e.next w) := by
  cases e with
  | restart => exact hreload w hw
  | call c is =>
    have hend : Post.holds _ (exec World.handler c.program is w).2
        (exec World.handler c.program is w).1 := wp_exec (hspec c is rfl) fun _ _ => trivial
    simp only [RunnerEvent.next]
    cases hx : exec World.handler c.program is w with
    | mk exit w' =>
      rw [hx] at hend
      cases exit with
      | stopped => exact hreload w' hend
      | failed e => exact hend.2
      | done a => exact hend

end Rumahl
