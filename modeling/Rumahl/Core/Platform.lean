import Rumahl.Core.Snapshot
import Rumahl.Effect.Prog

/-!
# Well-formed platforms

A `Platform` is what a snapshot is meant to hold: apps that can be installed side by side and grants
that are valid for them. Adding and removing an app are operations on such values, so that whatever
is built from them recovers. `loadPlatform_eq_ok` connects them with the snapshots the repository
stores, and `PlatformState.reachable_ofApps` with the states that any sequence of lifecycle calls
leads to; `PlatformState.reachable_registries` reads off what the registries of such a state hold.
-/

namespace Rumahl

@[ext] structure Platform where
  apps : List InstalledApp
  grants : InMemoryGrantStore
  coexist : Coexist apps
  valid : GrantsValid apps grants.grants

namespace Platform

def empty : Platform := ⟨[], {}, .nil, ⟨List.nodup_nil, fun _ h => nomatch h⟩⟩

def state (P : Platform) : PlatformState := .ofApps P.apps

def snapshot (P : Platform) : PlatformSnapshot := .capture P.state P.grants

@[simp] theorem snapshot_installedApps (P : Platform) : P.snapshot.installedApps = P.apps := rfl

/-- The app is installed, or can be next to those that are. -/
def Accepts (P : Platform) (a : InstalledApp) : Prop := ∀ b ∈ P.apps, b = a ∨ b.Compatible a

/-- No other app has the app id or the installation id. -/
def Separates (P : Platform) (a : InstalledApp) : Prop :=
  ∀ b ∈ P.apps, b.installationId = a.installationId ∨ b.appId = a.appId → b = a

theorem Accepts.separates {P : Platform} (h : P.Accepts a) : P.Separates a := by
  intro b hb hid
  rcases h b hb with rfl | hc
  · rfl
  · rcases hid with hid | hid
    · exact absurd hid hc.installationId
    · exact absurd hid hc.appId

theorem accepts_of_mem {P : Platform} (ha : a ∈ P.apps) : P.Accepts a := by
  intro b hb
  by_cases hba : b = a
  · exact .inl hba
  · exact .inr (P.coexist.compatible hb ha hba)

/-- The platform with the app installed. -/
def withApp (P : Platform) (a : InstalledApp) (h : P.Accepts a) : Platform where
  apps := if a ∈ P.apps then P.apps else P.apps ++ [a]
  grants := P.grants
  coexist := by
    split
    · exact P.coexist
    · next ha =>
      refine Coexist.append_iff.mpr ⟨P.coexist, fun b hb => ?_⟩
      exact (h b hb).resolve_left fun hba => ha (hba ▸ hb)
  valid := P.valid.mono fun b hb => by
    split
    · exact hb
    · exact List.mem_append_left _ hb

theorem mem_withApp {P : Platform} {h : P.Accepts a} :
    b ∈ (P.withApp a h).apps ↔ b ∈ P.apps ∨ b = a := by
  rw [withApp]
  split
  · next ha => exact ⟨.inl, fun hb => hb.elim id fun hba => hba ▸ ha⟩
  · simp

theorem withApp_apps {P : Platform} {h : P.Accepts a} (ha : a ∉ P.apps) :
    (P.withApp a h).apps = P.apps ++ [a] :=
  if_neg ha

theorem withApp_of_mem {P : Platform} (ha : a ∈ P.apps) : P.withApp a (accepts_of_mem ha) = P :=
  Platform.ext (if_pos ha) rfl

/-- The platform without the app and its grants. -/
def withoutApp (P : Platform) (a : InstalledApp) (h : P.Separates a) : Platform where
  apps := without a.installationId P.apps
  grants := P.grants.removeForSubject (.app a.identity)
  coexist := P.coexist.without _
  valid := by
    by_cases ha : a ∈ P.apps
    · exact P.valid.removeForSubject P.coexist ha
    · have hne : ∀ b ∈ P.apps, b.installationId ≠ a.installationId := fun b hb hid =>
        ha (h b hb (.inl hid) ▸ hb)
      rw [without_eq_self hne, P.valid.removeForSubject_eq fun b hb hid =>
        hne b hb (congrArg AppIdentity.installationId hid)]
      exact P.valid

theorem mem_withoutApp {P : Platform} {h : P.Separates a} :
    b ∈ (P.withoutApp a h).apps ↔ b ∈ P.apps ∧ b.installationId ≠ a.installationId :=
  mem_without

theorem withoutApp_of_not_mem {P : Platform} {h : P.Separates a}
    (ha : ∀ b ∈ P.apps, b.installationId ≠ a.installationId) : P.withoutApp a h = P :=
  Platform.ext (without_eq_self ha)
    (P.valid.removeForSubject_eq fun b hb hid => ha b hb (congrArg AppIdentity.installationId hid))

theorem withoutApp_withApp {P : Platform} {h : P.Accepts a} {h' : (P.withApp a h).Separates a}
    (ha : ∀ b ∈ P.apps, b.installationId ≠ a.installationId) :
    (P.withApp a h).withoutApp a h' = P := by
  have hnot : a ∉ P.apps := fun hm => ha a hm rfl
  refine Platform.ext ?_ ?_
  · simp only [withoutApp, withApp, if_neg hnot, without_append, without_eq_self ha]
    simp [without]
  · exact P.valid.removeForSubject_eq fun b hb hid =>
      ha b hb (congrArg AppIdentity.installationId hid)

end Platform

/-- The repository holds the platform; without a snapshot it is the empty one. -/
def Stored (snapshot : Option PlatformSnapshot) (P : Platform) : Prop :=
  snapshot = some P.snapshot ∨ snapshot = none ∧ P = .empty

theorem Stored.load (h : Stored snapshot P) : loadPlatform snapshot = .ok (P.state, P.grants) := by
  rcases h with rfl | ⟨rfl, rfl⟩
  · exact recover_capture P.coexist P.valid
  · rfl

theorem loadPlatform_eq_ok : loadPlatform snapshot = .ok (s, g) ↔
      ∃ P, Stored snapshot P ∧ s = P.state ∧ g = P.grants := by
  constructor
  · intro h
    cases snapshot with
    | none =>
      obtain ⟨rfl, rfl⟩ := Prod.mk.inj (Except.ok.inj h)
      exact ⟨.empty, .inr ⟨rfl, rfl⟩, rfl, rfl⟩
    | some p =>
      obtain ⟨hv, hl, hg, rfl, rfl⟩ := PlatformRecovery.recover_eq_ok.mp h
      refine ⟨⟨p.installedApps, ⟨p.grants⟩, hl, hg⟩, .inl ?_, rfl, rfl⟩
      rw [Platform.snapshot, PlatformSnapshot.capture, ← hv]
      rfl
  · rintro ⟨P, hP, rfl, rfl⟩
    exact hP.load

/-! ## Reachable states -/

open Effect

/-- A call that works on the platform state, with the arguments it is given. -/
inductive LifecycleEvent where
  | install (id : InstallationId) (manifest : AppManifest)
  | restore (app : InstalledApp)
  | uninstall (id : InstallationId) (grants : InMemoryGrantStore)
  | recover (snapshot : PlatformSnapshot)

/-- The state after the call; one that fails leaves it as it was. -/
def LifecycleEvent.next (event : LifecycleEvent) (s : PlatformState) : PlatformState :=
  match event with
  | .install id manifest =>
    match AppLifecycle.install id manifest s with
    | .ok (_, s') => s'
    | .error _ => s
  | .restore app =>
    match AppLifecycle.restore app s with
    | .ok s' => s'
    | .error _ => s
  | .uninstall id grants =>
    match AppLifecycle.uninstall id s grants with
    | .ok (s', _) => s'
    | .error _ => s
  | .recover snapshot =>
    match PlatformRecovery.recover snapshot with
    | .ok (s', _) => s'
    | .error _ => s

namespace PlatformState

/-- The state that apps installed side by side stand for. -/
def WellFormed (s : PlatformState) : Prop := ∃ l, Coexist l ∧ s = .ofApps l

theorem WellFormed.register (hs : WellFormed s) (h : AppLifecycle.register app s = .ok s') :
    WellFormed s' := by
  obtain ⟨l, hl, rfl⟩ := hs
  obtain ⟨happ, rfl⟩ := AppLifecycle.register_ofApps.mp h
  exact ⟨l ++ [app], Coexist.append_iff.mpr ⟨hl, happ⟩, rfl⟩

theorem WellFormed.uninstall (hs : WellFormed s)
    (h : AppLifecycle.uninstall i s g = .ok (s', g')) : WellFormed s' := by
  obtain ⟨l, hl, rfl⟩ := hs
  cases hget : (PlatformState.ofApps l).installedApps.getByInstallationId i with
  | none =>
    rw [AppLifecycle.uninstall, hget] at h
    cases h
  | some app =>
    obtain ⟨happ, rfl⟩ := (InstalledAppRegistry.getByInstallationId_eq_some hl).mp hget
    rw [AppLifecycle.uninstall_ofApps hl happ] at h
    obtain ⟨rfl, -⟩ := Prod.mk.inj (Except.ok.inj h)
    exact ⟨_, hl.without _, rfl⟩

theorem WellFormed.recover (h : PlatformRecovery.recover snapshot = .ok (s, g)) : WellFormed s := by
  obtain ⟨-, hl, -, rfl, -⟩ := PlatformRecovery.recover_eq_ok.mp h
  exact ⟨_, hl, rfl⟩

theorem WellFormed.next (hs : WellFormed s) (event : LifecycleEvent) :
    WellFormed (event.next s) := by
  cases event with
  | install i manifest =>
    rw [LifecycleEvent.next]
    split
    · next h =>
      obtain ⟨app, -, h⟩ := Except.bind_eq_ok.mp h
      obtain ⟨s', hregister, h⟩ := Except.bind_eq_ok.mp h
      obtain ⟨-, rfl⟩ := Prod.mk.inj (Except.ok.inj h)
      exact hs.register hregister
    · exact hs
  | restore app =>
    rw [LifecycleEvent.next]
    split
    · next h => exact hs.register h
    · exact hs
  | uninstall i grants =>
    rw [LifecycleEvent.next]
    split
    · next h => exact hs.uninstall h
    · exact hs
  | recover snapshot =>
    rw [LifecycleEvent.next]
    split
    · next h => exact .recover h
    · exact hs

/-- Every sequence of calls leads to the state of the apps that are installed after it. -/
theorem reachable_ofApps (es : List LifecycleEvent) :
    WellFormed (after LifecycleEvent.next es {}) := by
  have hall : Along LifecycleEvent.next (fun _ _ => True) es {} :=
    Along.of_forall (fun _ _ => trivial) es _
  exact hall.invariant (fun event _ hs _ => hs.next event) ⟨[], .nil, rfl⟩

/-- Each registry holds, in the order of the installed apps, the entries of these apps. -/
structure DerivedBy (entries : InstalledApp → PlatformRegistration) (s : PlatformState) : Prop where
  capabilities : s.capabilityRegistry =
    s.installedApps.apps.flatMap fun app => (entries app).capabilityProviders
  contributions : s.contributionRegistry =
    s.installedApps.apps.flatMap fun app => (entries app).contributions
  commands : s.commandRegistry = s.installedApps.apps.flatMap fun app => (entries app).commands
  searches : s.searchRegistry = s.installedApps.apps.flatMap fun app => (entries app).searches
  events : s.eventBus = s.installedApps.apps.flatMap fun app => (entries app).eventSubscriptions
  databases : s.databaseRegistry = s.installedApps.apps.flatMap fun app => (entries app).databases

/-- After any sequence of calls the registries are those of the installed apps, entry for entry what
`PlatformRegistration.prepare` yields, and no two apps share an app id or an installation id. -/
theorem reachable_registries (es : List LifecycleEvent) :
    let s := after LifecycleEvent.next es {}
    (∃ entries, (∀ app, PlatformRegistration.prepare app = .ok (entries app)) ∧
      s.DerivedBy entries) ∧
    (s.installedApps.apps.map InstalledApp.appId).Nodup ∧
    (s.installedApps.apps.map InstalledApp.installationId).Nodup := by
  intro s
  obtain ⟨l, hl, hs⟩ : WellFormed s := reachable_ofApps es
  rw [hs]
  refine ⟨⟨InstalledApp.registration, PlatformRegistration.prepare_eq, ?_⟩, ?_, ?_⟩
  · exact ⟨rfl, rfl, rfl, rfl, rfl, rfl⟩
  · exact List.pairwise_map.mpr (hl.imp fun h => h.appId)
  · exact List.pairwise_map.mpr (hl.imp fun h => h.installationId)

end PlatformState

end Rumahl
