import Rumahl.Operations.WriteAhead

/-!
# Recovery goes through

An operation that was left incomplete is taken up against a live state that later calls have
changed. It can be staged as long as nothing that was installed meanwhile is in its way.
`World.Recoverable` is the invariant that says so, for the live platform and for the stored one;
it is kept by every call except an install of an app that an incomplete operation or the stored
snapshot still claims (`Unclaimed`). `recovery_completes` is the result for whole runs and
`recovery_blocked_by_reinstall` a run that shows the exception to be one.
-/

namespace Rumahl

open Effect AppOperationRunner

/-! ## Incomplete operations -/

/-- An incomplete operation of the kind targets the app. -/
def World.Pending (w : World) (kind : AppOperationKind) (a : InstalledApp) : Prop :=
  ∃ op ∈ w.journal, op.isTerminal = false ∧ op.kind = kind ∧ op.targetApp = some a

namespace World.Pending

variable {w w' : World} {h : Header} {st : Progress} {u t : UnixTimestamp}

theorem of_find (hw : w.Sound) (hf : Journal.find w.journal h.id = some (h.operation st u))
    (ht : (h.operation st u).isTerminal = false) : w.Pending h.kind h.app :=
  ⟨h.operation st u, (hw.mem hf).1, ht, rfl, rfl⟩

/-- Moving an operation on makes no other target pending. -/
theorem of_put (hw : w.Sound) (hf : Journal.find w.journal h.id = some (h.operation st u))
    (ht : (h.operation st u).isTerminal = false)
    (hj : w'.journal = Table.put AppOperation.id w.journal (h.operation st' t))
    (hp : w'.Pending k a) : w.Pending k a := by
  obtain ⟨op, hop, hterm, hk, ha⟩ := hp
  rw [hj, Table.mem_put] at hop
  rcases hop with ⟨rfl, -⟩ | ⟨hop, -⟩
  · cases hk
    cases ha
    exact of_find hw hf ht
  · exact ⟨op, hop, hterm, hk, ha⟩

theorem of_interrupted (hw : w.Sound)
    (hf : Journal.find w.journal h.id = some (h.operation (.applying p) u))
    (hi : Interrupted h new p w w') (hp : w'.Pending k a) : w.Pending k a := by
  cases hi with
  | within q t hq => exact of_put hw hf rfl hq.journal hp
  | committed t hc => exact of_put hw hf rfl hc.journal hp

theorem of_opening (ho : Opening kind w h w1) (hp : w1.Pending k a) :
    w.Pending k a ∨ k = kind ∧ a = h.app := by
  obtain ⟨op, hop, hterm, hk, ha⟩ := hp
  rw [ho.journal, List.mem_append, List.mem_singleton] at hop
  rcases hop with hop | rfl
  · exact .inl ⟨op, hop, hterm, hk, ha⟩
  · exact .inr ⟨hk.symm.trans ho.kind_eq, (Option.some.inj ha).symm⟩

end World.Pending

/-! ## What an install must leave alone -/

def World.storedApps (w : World) : List InstalledApp :=
  match w.snapshot with
  | some snapshot => snapshot.installedApps
  | none => []

/-- The manifests contribute nothing under one id. -/
def AppManifest.Apart (m m' : AppManifest) : Prop :=
  ∀ c ∈ m.contributions, ∀ d ∈ m'.contributions, c.id ≠ d.id

/-- No stored app and no target of an incomplete operation has the app id of the manifest, and no
stored app and no target of an incomplete install contributes under an id that it contributes
under. -/
def World.Unclaimed (w : World) (m : AppManifest) : Prop :=
  (∀ a ∈ w.storedApps, a.appId ≠ m.appId ∧ a.manifest.Apart m) ∧
  ∀ op ∈ w.journal, op.isTerminal = false → ∀ a ∈ op.targetApp,
    a.appId ≠ m.appId ∧ (op.kind = .install → a.manifest.Apart m)

/-- The condition on an event of a run: what is installed is not claimed. -/
def RunnerEvent.Unclaimed : RunnerEvent → World → Prop
  | .call (.install m) _, w => w.Unclaimed m
  | _, _ => True

/-- An event that compensates nothing. -/
def RunnerEvent.Forward : RunnerEvent → Prop
  | .call (.compensateInstall _) _ => False
  | _ => True

instance (m m' : AppManifest) : Decidable (m.Apart m') :=
  inferInstanceAs (Decidable (∀ c ∈ m.contributions, ∀ d ∈ m'.contributions, c.id ≠ d.id))

instance (w : World) (m : AppManifest) : Decidable (w.Unclaimed m) :=
  inferInstanceAs (Decidable ((∀ a ∈ w.storedApps, a.appId ≠ m.appId ∧ a.manifest.Apart m) ∧
    ∀ op ∈ w.journal, op.isTerminal = false → ∀ a ∈ op.targetApp,
      a.appId ≠ m.appId ∧ (op.kind = .install → a.manifest.Apart m)))

theorem Stored.storedApps {w : World} (h : Stored w.snapshot S) : w.storedApps = S.apps := by
  rcases h with h | ⟨h, rfl⟩
  · rw [World.storedApps, h]; rfl
  · rw [World.storedApps, h]; rfl

theorem World.Unclaimed.pending {w : World} (hu : w.Unclaimed m) (hp : w.Pending k a) :
    a.appId ≠ m.appId ∧ (k = .install → a.manifest.Apart m) := by
  obtain ⟨op, hop, ht, rfl, ha⟩ := hp
  exact hu.2 op hop ht a ha

theorem InstalledApp.compatible_of_apart {a b : InstalledApp} (hm : b.manifest = m)
    (hid : a.appId ≠ m.appId) (hc : a.manifest.Apart m)
    (hi : a.installationId ≠ b.installationId) : a.Compatible b where
  appId := by
    have hb : b.appId = m.appId := hm ▸ b.appId_eq
    rw [hb]
    exact hid
  installationId := hi
  contributions := by rw [hm]; exact hc

/-! ## The invariant -/

/-- Whatever is incomplete can be staged from the platform, whose ids have all been drawn. -/
structure World.Tolerates (w : World) (P : Platform) : Prop where
  install : ∀ a, w.Pending .install a → P.Accepts a
  uninstall : ∀ a, w.Pending .uninstall a → P.Separates a
  issued : ∀ a ∈ P.apps, a.installationId.value ∈ w.issued

/-- Apps of the two platforms that share an id are the same. -/
def Platform.Agrees (P P' : Platform) : Prop := ∀ a ∈ P.apps, P'.Separates a

/-- The live platform is `L` and the stored one `S`, and both can be recovered from. -/
structure World.RecoverableFrom (w : World) (L S : Platform) : Prop where
  sound : w.Sound
  forward : ∀ op ∈ w.journal, op.isTerminal = false → op.phase = .applying
  state : w.state = L.state
  grants : w.grants = L.grants
  stored : Stored w.snapshot S
  live : w.Tolerates L
  snapshot : w.Tolerates S
  agrees : L.Agrees S
  installs : ∀ a b, w.Pending .install a → w.Pending .install b → a = b ∨ a.Compatible b
  uninstalls : ∀ a b, w.Pending .uninstall a → w.Pending .install b →
    b.installationId = a.installationId ∨ b.appId = a.appId → b = a
  drawn : ∀ k a, w.Pending k a → a.installationId.value ∈ w.issued

def World.Recoverable (w : World) : Prop := ∃ L S, w.RecoverableFrom L S

namespace Platform

theorem Agrees.refl (P : Platform) : P.Agrees P := fun _ ha => (accepts_of_mem ha).separates

/-- An accepted app is apart from the others on both sides. -/
theorem agrees_withApp {P : Platform} (hA : P.Accepts a) : P.Agrees (P.withApp a hA) := by
  intro b hb _ hc hid
  rcases mem_withApp.mp hc with hc | rfl
  · exact (accepts_of_mem hb).separates _ hc hid
  · exact (hA.separates b hb (hid.imp Eq.symm Eq.symm)).symm

theorem withApp_agrees {P P' : Platform} (hP : P.Agrees P') (hA : P.Accepts a)
    (hS : P'.Separates a) : (P.withApp a hA).Agrees P' := by
  intro _ hb
  rcases mem_withApp.mp hb with hb | rfl
  · exact hP _ hb
  · exact hS

theorem agrees_withoutApp {P : Platform} (hS : P.Separates a) : P.Agrees (P.withoutApp a hS) :=
  fun _ hb c hc hid => (accepts_of_mem hb).separates c (mem_withoutApp.mp hc).1 hid

theorem withoutApp_agrees {P P' : Platform} (hP : P.Agrees P') (hS : P.Separates a) :
    (P.withoutApp a hS).Agrees P' :=
  fun _ hb => hP _ (mem_withoutApp.mp hb).1

end Platform

namespace World.Tolerates

variable {w w' : World} {P : Platform}

theorem mono (h : w.Tolerates P) (hp : ∀ k a, w'.Pending k a → w.Pending k a)
    (hi : w.issued ⊆ w'.issued) : w'.Tolerates P where
  install a ha := h.install a (hp _ a ha)
  uninstall a ha := h.uninstall a (hp _ a ha)
  issued a ha := hi (h.issued a ha)

theorem withoutApp (h : w.Tolerates P) (hS : P.Separates a) : w.Tolerates (P.withoutApp a hS) where
  install b hb c hc := h.install b hb c (Platform.mem_withoutApp.mp hc).1
  uninstall b hb c hc := h.uninstall b hb c (Platform.mem_withoutApp.mp hc).1
  issued b hb := h.issued b (Platform.mem_withoutApp.mp hb).1

end World.Tolerates

namespace World.RecoverableFrom

variable {w w' : World} {L S : Platform}

section

variable (hw : w.RecoverableFrom L S)
include hw

/-- The target of a pending install can be added to the live platform. -/
theorem withApp (ha : w.Pending .install a) : w.Tolerates (L.withApp a (hw.live.install a ha)) where
  install b hb c hc := by
    rcases Platform.mem_withApp.mp hc with hc | rfl
    · exact hw.live.install b hb c hc
    · exact hw.installs c b ha hb
  uninstall b hb c hc hid := by
    rcases Platform.mem_withApp.mp hc with hc | rfl
    · exact hw.live.uninstall b hb c hc hid
    · exact hw.uninstalls b c hb ha hid
  issued b hb := by
    rcases Platform.mem_withApp.mp hb with hb | rfl
    · exact hw.live.issued b hb
    · exact hw.drawn _ b ha

/-- What a pending operation makes of the live platform tolerates whatever is pending. -/
theorem tolerates_staged (hp : w.Pending h.kind h.app) (hT : Staged L h T) :
    w.Tolerates T ∧ L.Agrees T ∧ T.Agrees S := by
  cases hT with
  | install hkind hA =>
    rw [hkind] at hp
    exact ⟨hw.withApp hp, Platform.agrees_withApp hA, Platform.withApp_agrees hw.agrees hA
      (hw.snapshot.install h.app hp).separates⟩
  | uninstall hkind hS =>
    exact ⟨hw.live.withoutApp hS, Platform.agrees_withoutApp hS,
      Platform.withoutApp_agrees hw.agrees hS⟩

theorem stageable (hp : w.Pending h.kind h.app) (hkind : h.kind ≠ .update) : ∃ T, Staged L h T := by
  cases hk : h.kind with
  | update => exact absurd hk hkind
  | install => exact ⟨_, .install hk (hw.live.install h.app (hk ▸ hp))⟩
  | uninstall => exact ⟨_, .uninstall hk (hw.live.uninstall h.app (hk ▸ hp))⟩

/-- A move of the journal that makes nothing pending, to platforms that tolerate what is. -/
theorem move (hsound : w'.Sound)
    (hforward : ∀ op ∈ w'.journal, op.isTerminal = false → op.phase = .applying)
    (hp : ∀ k a, w'.Pending k a → w.Pending k a) (hi : w.issued ⊆ w'.issued)
    (hs : w'.state = L'.state) (hg : w'.grants = L'.grants) (hst : Stored w'.snapshot S')
    (hL : w.Tolerates L') (hS : w.Tolerates S') (ha : L'.Agrees S') : w'.RecoverableFrom L' S' where
  sound := hsound
  forward := hforward
  state := hs
  grants := hg
  stored := hst
  live := hL.mono hp hi
  snapshot := hS.mono hp hi
  agrees := ha
  installs a b h1 h2 := hw.installs a b (hp _ a h1) (hp _ b h2)
  uninstalls a b h1 h2 := hw.uninstalls a b (hp _ a h1) (hp _ b h2)
  drawn k a h := hi (hw.drawn k a (hp k a h))

theorem draw (hi : w.issued ⊆ is) : ({ w with issued := is } : World).RecoverableFrom L S :=
  hw.move (hw.sound.mono rfl hi) hw.forward (fun _ _ h => h) hi hw.state hw.grants hw.stored
    hw.live hw.snapshot hw.agrees

theorem reload : w.reload.RecoverableFrom S S := by
  have he : w.reload = { w with state := S.state, grants := S.grants } := by
    rw [World.reload, hw.stored.load]
  rw [he]
  exact hw.move (hw.sound.mono rfl fun _ h => h) hw.forward (fun _ _ h => h) (fun _ h => h) rfl rfl
    hw.stored hw.snapshot hw.snapshot (.refl S)

end

section Operation

variable {h : Header} {p : Nat} {u : UnixTimestamp} {T : Platform}

private theorem forward_put (hw : w.RecoverableFrom L S)
    (hst : (h.operation st u).isTerminal = false → (h.operation st u).phase = .applying)
    (hj : w'.journal = Table.put AppOperation.id w.journal (h.operation st u)) :
    ∀ op ∈ w'.journal, op.isTerminal = false → op.phase = .applying := by
  intro op hop ht
  rw [hj, Table.mem_put] at hop
  rcases hop with ⟨rfl, -⟩ | ⟨hop, -⟩
  · exact hst ht
  · exact hw.forward op hop ht

/-- An operation that stages `T` and is interrupted leaves the stored platform or `T`. -/
theorem interrupted (hw : w.RecoverableFrom L S)
    (hf : Journal.find w.journal h.id = some (h.operation (.applying p) u))
    (hst : Staged L h T) (hi : Interrupted h T.snapshot p w w') : w'.Recoverable := by
  obtain ⟨hT, hLT, -⟩ := hw.tolerates_staged (.of_find hw.sound hf rfl) hst
  have hsound := hw.sound.interrupted hst.ne_update hi
  have hp : ∀ k a, w'.Pending k a → w.Pending k a := fun _ _ =>
    Pending.of_interrupted hw.sound hf hi
  have hs : w'.state = L.state := hi.live.1.trans hw.state
  have hg : w'.grants = L.grants := hi.live.2.trans hw.grants
  have hforward : ∀ op ∈ w'.journal, op.isTerminal = false → op.phase = .applying := by
    cases hi with
    | within q t hq => exact hw.forward_put (fun _ => rfl) hq.journal
    | committed t hc =>
      exact hw.forward_put (fun ht : (h.operation .committed t).isTerminal = false => nomatch ht)
        hc.journal
  have hissued : w.issued ⊆ w'.issued := by
    cases hi with
    | within q t hq => rw [hq.issued]; exact fun _ h => h
    | committed t hc => rw [hc.issued]; exact fun _ h => h
  have hsnap : w'.snapshot = w.snapshot ∨ w'.snapshot = some T.snapshot := by
    cases hi with
    | within q t hq => exact hq.snapshot_or
    | committed t hc =>
      rw [hc.snapshot]
      split
      · exact .inr rfl
      · exact .inl rfl
  rcases hsnap with hsame | hnew
  · exact ⟨L, S, hw.move hsound hforward hp hissued hs hg (hsame ▸ hw.stored) hw.live hw.snapshot
      hw.agrees⟩
  · exact ⟨L, T, hw.move hsound hforward hp hissued hs hg (.inl hnew) hw.live hT hLT⟩

/-- An operation that stages `T` and is committed makes `T` the live platform. -/
theorem committed (hw : w.RecoverableFrom L S)
    (hf : Journal.find w.journal h.id = some (h.operation (.applying p) u))
    (hst : Staged L h T) (hc : Committed h T.snapshot p t w w')
    (hs : w'.state = T.state) (hg : w'.grants = T.grants) : w'.Recoverable := by
  obtain ⟨hT, -, hTS⟩ := hw.tolerates_staged (.of_find hw.sound hf rfl) hst
  have hsound := hw.sound.committed hst.ne_update hc
  have hp : ∀ k a, w'.Pending k a → w.Pending k a := fun _ _ =>
    Pending.of_put hw.sound hf rfl hc.journal
  have hforward := hw.forward_put
    (fun ht : (h.operation .committed t).isTerminal = false => nomatch ht) hc.journal
  have hissued : w.issued ⊆ w'.issued := by rw [hc.issued]; exact fun _ h => h
  have hsnap := hc.snapshot
  split at hsnap
  · exact ⟨T, T, hw.move hsound hforward hp hissued hs hg (.inl hsnap) hT hT (.refl T)⟩
  · exact ⟨T, S, hw.move hsound hforward hp hissued hs hg (hsnap ▸ hw.stored) hT hw.snapshot hTS⟩

end Operation

/-! ### Opening operations -/

private theorem forward_opening (hw : w.RecoverableFrom L S) (ho : Opening kind w h w1) :
    ∀ op ∈ w1.journal, op.isTerminal = false → op.phase = .applying := by
  intro op hop ht
  rw [ho.journal, List.mem_append, List.mem_singleton] at hop
  rcases hop with hop | rfl
  · exact hw.forward op hop ht
  · rfl

theorem installing (hw : w.RecoverableFrom L S) (hu : w.Unclaimed m)
    (hin : Installing m w h staged w1) (hA : L.Accepts h.app) : w1.RecoverableFrom L S := by
  obtain ⟨-, hm, -⟩ := AppLifecycle.install_app hin.staged_eq
  have hfresh : ∀ {a : InstalledApp}, a.installationId.value ∈ w.issued →
      a.installationId ≠ h.app.installationId := fun ha he => hin.freshApp (he ▸ ha)
  have happ : h.app.appId = m.appId := hm ▸ h.app.appId_eq
  -- everything that was there before is compatible with the new app or at least apart from it
  have hpend : ∀ a, w.Pending .install a → a.Compatible h.app := fun a ha =>
    InstalledApp.compatible_of_apart hm (hu.pending ha).1 ((hu.pending ha).2 rfl)
      (hfresh (hw.drawn _ a ha))
  have hS : S.Accepts h.app := fun b hb => by
    have hb' : b ∈ w.storedApps := hw.stored.storedApps ▸ hb
    exact .inr (InstalledApp.compatible_of_apart hm (hu.1 b hb').1 (hu.1 b hb').2
      (hfresh (hw.snapshot.issued b hb)))
  have hcases : ∀ k a, w1.Pending k a → w.Pending k a ∨ k = .install ∧ a = h.app :=
    fun _ _ => Pending.of_opening hin.toOpening
  have htol : ∀ {P : Platform}, w.Tolerates P → P.Accepts h.app → w1.Tolerates P := by
    intro P hP hPA
    refine ⟨fun a ha => ?_, fun a ha => ?_, fun a ha => hin.issued (hP.issued a ha)⟩
    · rcases hcases _ a ha with ha | ⟨-, rfl⟩
      · exact hP.install a ha
      · exact hPA
    · rcases hcases _ a ha with ha | ⟨hk, -⟩
      · exact hP.uninstall a ha
      · cases hk
  exact
    { sound := hin.sound hw.sound nofun
      forward := hw.forward_opening hin.toOpening
      state := hin.state.trans hw.state
      grants := hin.grants.trans hw.grants
      stored := hin.snapshot ▸ hw.stored
      live := htol hw.live hA
      snapshot := htol hw.snapshot hS
      agrees := hw.agrees
      installs := fun a b ha hb => by
        rcases hcases _ a ha with ha | ⟨-, rfl⟩ <;> rcases hcases _ b hb with hb | ⟨-, rfl⟩
        · exact hw.installs a b ha hb
        · exact .inr (hpend a ha)
        · exact .inr (hpend b hb).symm
        · exact .inl rfl
      uninstalls := fun a b ha hb hid => by
        rcases hcases _ a ha with ha | ⟨hk, -⟩
        · rcases hcases _ b hb with hb | ⟨-, rfl⟩
          · exact hw.uninstalls a b ha hb hid
          · rcases hid with hid | hid
            · exact absurd hid.symm (hfresh (hw.drawn _ a ha))
            · exact absurd (hid.symm.trans happ) (hu.pending ha).1
        · cases hk
      drawn := fun k a ha => by
        rcases hcases k a ha with ha | ⟨-, rfl⟩
        · exact hin.issued (hw.drawn k a ha)
        · rw [hin.issued_eq]
          simp }

theorem uninstalling (hw : w.RecoverableFrom L S) (hun : Uninstalling i w h staged g w1)
    (hmem : h.app ∈ L.apps) : w1.RecoverableFrom L S := by
  have hcases : ∀ k a, w1.Pending k a → w.Pending k a ∨ k = .uninstall ∧ a = h.app :=
    fun _ _ => Pending.of_opening hun.toOpening
  have htol : ∀ {P : Platform}, w.Tolerates P → P.Separates h.app → w1.Tolerates P := by
    intro P hP hPS
    refine ⟨fun a ha => ?_, fun a ha => ?_, fun a ha => hun.issued (hP.issued a ha)⟩
    · rcases hcases _ a ha with ha | ⟨hk, -⟩
      · exact hP.install a ha
      · cases hk
    · rcases hcases _ a ha with ha | ⟨-, rfl⟩
      · exact hP.uninstall a ha
      · exact hPS
  have hsep : L.Separates h.app := (Platform.accepts_of_mem hmem).separates
  exact
    { sound := hun.sound hw.sound nofun
      forward := hw.forward_opening hun.toOpening
      state := hun.state.trans hw.state
      grants := hun.grants.trans hw.grants
      stored := hun.snapshot ▸ hw.stored
      live := htol hw.live hsep
      snapshot := htol hw.snapshot (hw.agrees h.app hmem)
      agrees := hw.agrees
      installs := fun a b ha hb => by
        rcases hcases _ a ha with ha | ⟨hk, -⟩
        · rcases hcases _ b hb with hb | ⟨hk, -⟩
          · exact hw.installs a b ha hb
          · cases hk
        · cases hk
      uninstalls := fun a b ha hb hid => by
        rcases hcases _ b hb with hb | ⟨hk, -⟩
        · rcases hcases _ a ha with ha | ⟨-, rfl⟩
          · exact hw.uninstalls a b ha hb hid
          · exact ((hw.live.install b hb).separates h.app hmem (hid.imp Eq.symm Eq.symm)).symm
        · cases hk
      drawn := fun k a ha => by
        rcases hcases k a ha with ha | ⟨-, rfl⟩
        · exact hun.issued (hw.drawn k a ha)
        · exact hun.issued (hw.live.issued h.app hmem) }

end World.RecoverableFrom

/-! ## The calls keep the invariant -/

variable {allows : Allows} {w : World}

/-- An incomplete operation can be taken up, and what it leaves behind is again recoverable. -/
theorem recoverOperation_recoverable (hw : w.Recoverable) (hop : op ∈ w.journal)
    (ht : op.isTerminal = false) :
    Spec allows World.Recoverable (recoverOperation op)
      (fun _ w' => w'.Recoverable ∧ Resolved op w w') w := by
  obtain ⟨L, S, hr⟩ := hw
  have hf := hr.sound.find hop
  have hphase := hr.forward op hop ht
  obtain ⟨h, st, u, rfl, hst, hadm⟩ := hr.sound.entries op hop
  cases st with
  | committed | compensated p | compensating p q => cases hphase
  | applying p =>
    have hkind : h.kind ≠ .update := fun hk => by simp [hk] at hadm
    exact recoverOperation_spec hr.sound hr.state hr.grants hf hst hkind
      (.inr (hr.stageable (.of_find hr.sound hf ht) hkind)) ⟨L, S, hr⟩
      (fun T hT w' hi => hr.interrupted hf hT hi)
      fun T hT t w' hc hs hg => ⟨hr.committed hf hT hc hs hg, hc.resolved ..⟩

theorem recoverIncomplete_recoverable (hw : w.Recoverable) :
    Spec allows World.Recoverable recoverIncomplete
      (fun _ w' => w'.Recoverable ∧ Journal.listIncomplete w'.journal = []) w :=
  recoverIncomplete_spec hw hw (fun _ ⟨_, _, h⟩ => h.sound)
    fun _ _ hw hop ht => recoverOperation_recoverable hw hop ht

theorem World.RecoverableFrom.entered (hw : w.RecoverableFrom L S)
    (hu : (RunnerEvent.call c is).Unclaimed w) (he : Entered L w h w1 c T) :
    w1.RecoverableFrom L S := by
  cases he with
  | install hin _ hA => exact hw.installing hu hin hA
  | uninstall hun hmem => exact hw.uninstalling hun hmem

/-- A call that installs nothing claimed and compensates nothing keeps the invariant. -/
theorem Command.recoverable (hw : w.Recoverable) (c : Command) (is : List Decision)
    (hf : (RunnerEvent.call c is).Forward) (hu : (RunnerEvent.call c is).Unclaimed w) :
    Spec anyAnswer World.Recoverable c.program (fun _ => World.Recoverable) w := by
  obtain ⟨L, S, hr⟩ := hw
  have hopens : c.Opens → Spec anyAnswer World.Recoverable c.program
    (fun _ => World.Recoverable) w :=
    fun hc => c.opens_spec hc hr.sound hr.state hr.grants faulty_anyAnswer
      (fun is hi => ⟨L, S, hr.draw hi⟩)
      (fun h T w1 he w' hi => (hr.entered hu he).interrupted (he.find hr.sound) he.staged hi)
      fun h T w1 he u w' hc hs hg =>
        (hr.entered hu he).committed (he.find hr.sound) he.staged hc hs hg
  cases c with
  | install m | uninstall i => exact hopens trivial
  | compensateInstall i => exact hf.elim
  | recoverIncomplete =>
    exact Spec.bind (recoverIncomplete_recoverable ⟨L, S, hr⟩) fun _ _ h => Spec.ret h.1

/-! ## Runs -/

/-- No operation has been entered, and the process has loaded the stored snapshot. -/
structure World.Initial (w : World) : Prop where
  journal : w.journal = []
  loaded : loadPlatform w.snapshot = .ok (w.state, w.grants)
  issued : ∀ a ∈ w.storedApps, a.installationId.value ∈ w.issued

theorem World.Initial.default : World.Initial {} := ⟨rfl, rfl, fun _ h => nomatch h⟩

theorem World.Initial.recoverable (hw : w.Initial) : w.Recoverable := by
  obtain ⟨P, hP, hs, hg⟩ := loadPlatform_eq_ok.mp hw.loaded
  have hnone : ∀ k a, ¬w.Pending k a := by
    rintro k a ⟨op, hop, -⟩
    rw [hw.journal] at hop
    cases hop
  have htol : w.Tolerates P :=
    ⟨fun a ha => absurd ha (hnone _ a), fun a ha => absurd ha (hnone _ a),
      fun a ha => hw.issued a (hP.storedApps ▸ ha)⟩
  refine ⟨P, P, ?_⟩
  exact
    { sound := .of_empty hw.journal
      forward := fun op hop => by
        rw [hw.journal] at hop
        cases hop
      state := hs
      grants := hg
      stored := hP
      live := htol
      snapshot := htol
      agrees := .refl P
      installs := fun a _ ha => absurd ha (hnone _ a)
      uninstalls := fun a _ ha => absurd ha (hnone _ a)
      drawn := fun k a ha => absurd ha (hnone k a) }

theorem recoverable_after (hw : w.Recoverable) (hf : ∀ e ∈ es, e.Forward)
    (hu : Along RunnerEvent.next RunnerEvent.Unclaimed es w) :
    (after RunnerEvent.next es w).Recoverable := by
  induction es generalizing w with
  | nil => exact hw
  | cons e es ih =>
    obtain ⟨he, hes⟩ := List.forall_mem_cons.mp hf
    refine ih (e.next_of_spec (fun _ ⟨_, S, h⟩ => ⟨S, S, h.reload⟩) hw fun c is hc => ?_) hes hu.2
    subst hc
    exact c.recoverable hw is he hu.1

/-- After every run whose installs are of unclaimed apps, a recovery whose calls are all answered
with success returns, and no operation is incomplete then. -/
theorem recovery_completes (w : World) (hw : w.Initial) (es : List RunnerEvent)
    (hf : ∀ e ∈ es, e.Forward) (hu : Along RunnerEvent.next RunnerEvent.Unclaimed es w)
    (is : List Decision)
    (hok : ∀ e ∈ trace World.handler recoverIncomplete is (after RunnerEvent.next es w),
      onlySuccess e.call e.answer) :
    ∃ report, (exec World.handler recoverIncomplete is (after RunnerEvent.next es w)).1 =
        .done report ∧
      Journal.listIncomplete
        (exec World.handler recoverIncomplete is (after RunnerEvent.next es w)).2.journal = [] := by
  have hspec : Spec onlySuccess World.Recoverable recoverIncomplete _ _ :=
    recoverIncomplete_recoverable (recoverable_after hw.recoverable hf hu)
  have hend := wp_exec hspec hok
  cases hx : (exec World.handler recoverIncomplete is (after RunnerEvent.next es w)).1 with
  | done report =>
    rw [hx] at hend
    exact ⟨report, rfl, hend.2⟩
  | failed e =>
    rw [hx] at hend
    exact absurd hend.1 not_faulty_onlySuccess
  | stopped =>
    obtain ⟨e, he, hn⟩ := exists_unanswered World.handler hx
    obtain ⟨b, hb, -⟩ := hok e he
    rw [hn] at hb
    cases hb

/-- An interrupted install, and after its recovery an interrupted uninstall. -/
def interruptedRun : List RunnerEvent :=
  [.call (.install .notes) (List.replicate 7 (.ok 0) ++ [.stop]), .call .recoverIncomplete [],
    .call (.uninstall ⟨0⟩) (List.replicate 17 (.ok 0) ++ [.stop])]

theorem recovery_completes_interruptedRun :
    ∃ report,
      (exec World.handler recoverIncomplete [] (after RunnerEvent.next interruptedRun {})).1 =
        .done report ∧
      Journal.listIncomplete (exec World.handler recoverIncomplete []
        (after RunnerEvent.next interruptedRun {})).2.journal = [] :=
  recovery_completes {} .default interruptedRun (by simp [interruptedRun, RunnerEvent.Forward])
    (by simp only [interruptedRun, Along, RunnerEvent.Unclaimed, and_true]; decide) []
    (by decide +kernel)

/-- An interrupted install of an app that is then installed by another operation. -/
def installedTwice : List RunnerEvent :=
  [.call (.install .notes) (List.replicate 7 (.ok 0) ++ [.stop]), .call (.install .notes) []]

/-- An uninstall that is interrupted after its snapshot was stored, and a new install. -/
def installedAgain : List RunnerEvent :=
  [.call (.install .notes) [], .call (.uninstall ⟨0⟩) (List.replicate 17 (.ok 0) ++ [.stop]),
    .call (.install .notes) []]

/-- Both runs block recovery, although every call that it makes is answered with success. -/
theorem recovery_blocked_by_reinstall :
    ((∀ e ∈ trace World.handler recoverIncomplete [] (after RunnerEvent.next installedTwice {}),
        onlySuccess e.call e.answer) ∧
      (exec World.handler recoverIncomplete [] (after RunnerEvent.next installedTwice {})).1 =
        .failed (.appLifecycle (.installedAppConflict .appAlreadyInstalled))) ∧
    (∀ e ∈ trace World.handler recoverIncomplete [] (after RunnerEvent.next installedAgain {}),
        onlySuccess e.call e.answer) ∧
      (exec World.handler recoverIncomplete [] (after RunnerEvent.next installedAgain {})).1 =
        .failed (.recoveredTargetMismatch ⟨2⟩) := by
  refine ⟨⟨?_, ?_⟩, ?_, ?_⟩ <;> decide +kernel

end Rumahl
