import Rumahl.Core.Platform
import Rumahl.Effect.InPlace

/-!
# Installing and uninstalling undo each other

`AppLifecycle.installInPlace` is `install` as the method on `&mut state` that it is. The checks made
before the state is copied are complete (`AppLifecycle.refusal_of_install`): an installation is
refused there or not at all. `AppLifecycle.install_uninstall_inverse` adds that uninstalling an app
undoes its installation and otherwise removes what belongs to the app and nothing else.
-/

namespace Rumahl

open Effect Effect.InPlace PlatformRegistration PlatformRegistrar PlatformState

namespace AppLifecycle

/-- The state is written once, by the last step. -/
def registerInPlace (app : InstalledApp) :
    EStateM AppLifecycleError PlatformState InstalledApp := do
  let registration ← check fun _ =>
    (prepare app).mapError .registrationPreparationFailed
  check fun state => (state.installedApps.canRegister app).mapError .installedAppConflict
  check fun state =>
    (canRegister registration state).mapError .platformRegistrationConflict
  let staged ← get
  let installedApps ← check fun _ =>
    (staged.installedApps.register app).mapError .installedAppConflict
  let staged ← check fun _ =>
    (applyRegistration registration { staged with installedApps }).mapError
      .platformRegistrationConflict
  set staged
  pure app

def installInPlace (id : InstallationId) (manifest : AppManifest) :
    EStateM AppLifecycleError PlatformState InstalledApp := do
  let app ← check fun _ => (InstalledApp.create id manifest).mapError .invalidApp
  registerInPlace app

/-- What a call leaves behind that replaces the state only when it succeeds. -/
def outcome (s : PlatformState) : Except AppLifecycleError (InstalledApp × PlatformState) →
    EStateM.Result AppLifecycleError PlatformState InstalledApp
  | .ok (app, s') => .ok app s'
  | .error e => .error e s

private theorem outcome_check_bind (h : ∀ a, (k a).run s = outcome s (g a)) :
    (check f >>= k).run s = outcome s (f s >>= g) := by
  rw [run_check_bind]
  cases f s with
  | error e => rfl
  | ok a => exact h a

theorem registerInPlace_eq (app : InstalledApp) (s : PlatformState) :
    (registerInPlace app).run s = outcome s (register app s >>= fun s' => pure (app, s')) := by
  rw [register]
  simp only [bind_assoc]
  refine outcome_check_bind fun registration => outcome_check_bind fun _ =>
    outcome_check_bind fun _ => ?_
  exact outcome_check_bind fun installedApps => outcome_check_bind fun staged => rfl

/-- A failed call leaves the state as it was. -/
theorem installInPlace_eq (i : InstallationId) (manifest : AppManifest) (s : PlatformState) :
    (installInPlace i manifest).run s = outcome s (install i manifest s) :=
  outcome_check_bind fun app => registerInPlace_eq app s

/-! ## The checks are complete -/

/-- The check that refuses an installation, with its error. -/
inductive Refusal (i : InstallationId) (manifest : AppManifest) (s : PlatformState) :
    AppLifecycleError → Prop
  | app (h : InstalledApp.create i manifest = .error e) : Refusal i manifest s (.invalidApp e)
  | registration (happ : InstalledApp.create i manifest = .ok app)
    (h : prepare app = .error e) :
    Refusal i manifest s (.registrationPreparationFailed e)
  | installedApps (happ : InstalledApp.create i manifest = .ok app)
    (h : s.installedApps.canRegister app = .error e) :
    Refusal i manifest s (.installedAppConflict e)
  | registries (happ : InstalledApp.create i manifest = .ok app)
    (hregistration : prepare app = .ok registration)
    (h : canRegister registration s = .error e) :
    Refusal i manifest s (.platformRegistrationConflict e)

/-- What passes both checks is registered: neither step on the copy can fail. -/
theorem register_of_checked (hinstalled : s.installedApps.canRegister app = .ok ())
    (hregistries : canRegister app.registration s = .ok ()) :
    register app s =
      .ok { s.append app.registration with installedApps := ⟨s.installedApps.apps ++ [app]⟩ } := by
  simp only [register, Except.bind_eq_ok, Except.mapError_eq_ok, prepare_eq,
    InstalledAppRegistry.register_eq_ok, applyRegistration_eq_ok]
  have hfits := PlatformRegistrar.canRegister_eq_ok.mp hregistries
  refine ⟨_, rfl, (), hinstalled, (), hregistries, _, ⟨hinstalled, rfl⟩, ?_,
    app.registration_separate, rfl⟩
  exact ⟨hfits.1, hfits.2, hfits.3, hfits.4, hfits.5, hfits.6⟩

theorem refusal_of_install (h : install i manifest s = .error e) : Refusal i manifest s e := by
  rw [install] at h
  cases happ : InstalledApp.create i manifest with
  | error _ =>
    rw [happ] at h
    cases h
    exact .app happ
  | ok app =>
  rw [happ] at h
  change register app s >>= _ = _ at h
  cases hinstalled : s.installedApps.canRegister app with
  | error _ =>
    rw [register, prepare_eq, hinstalled] at h
    cases h
    exact .installedApps happ hinstalled
  | ok _ =>
  cases hregistries : canRegister app.registration s with
  | error _ =>
    rw [register, prepare_eq, hinstalled] at h
    change (canRegister app.registration s).mapError _ >>= _ >>= _ = _ at h
    rw [hregistries] at h
    cases h
    exact .registries happ (prepare_eq app) hregistries
  | ok _ =>
    rw [register_of_checked hinstalled hregistries] at h
    cases h

/-! ## What uninstalling removes -/

/-- The entries of the app are gone and the others are there in the order they had. -/
structure Removed (app : InstalledApp) (s : PlatformState) (g : InMemoryGrantStore)
    (s' : PlatformState) (g' : InMemoryGrantStore) : Prop where
  capabilities : s'.capabilityRegistry =
    s.capabilityRegistry.filter fun provider => provider.identity ≠ .app app.identity
  contributions : s'.contributionRegistry =
    s.contributionRegistry.filter fun contribution => contribution.owner ≠ .app app.identity
  commands : s'.commandRegistry =
    s.commandRegistry.filter fun command => command.contribution.owner ≠ .app app.identity
  searches : s'.searchRegistry =
    s.searchRegistry.filter fun search => search.contribution.owner ≠ .app app.identity
  events : s'.eventBus =
    s.eventBus.filter fun subscription => subscription.subscriber ≠ .app app.identity
  databases : s'.databaseRegistry =
    s.databaseRegistry.filter fun binding => binding.owner ≠ app.identity
  installedApps : s'.installedApps.apps = s.installedApps.apps.filter fun other => other ≠ app
  grants : g'.grants = g.grants.filter fun grant => grant.subject ≠ .app app.identity

theorem uninstall_removed (h : Coexist l) (ha : a ∈ l) (g : InMemoryGrantStore) :
    ∃ s' g', uninstall a.installationId (.ofApps l) g = .ok (s', g') ∧
      Removed a (.ofApps l) g s' g' := by
  refine ⟨_, _, uninstall_ofApps h ha g, ?_⟩
  have hderegister := applyDeregistration_ofApps h ha
  refine ⟨?_, ?_, ?_, ?_, ?_, ?_, ?_, rfl⟩
  · exact (congrArg capabilityRegistry hderegister).symm
  · exact (congrArg contributionRegistry hderegister).symm
  · exact (congrArg commandRegistry hderegister).symm
  · exact (congrArg searchRegistry hderegister).symm
  · exact (congrArg eventBus hderegister).symm
  · exact (congrArg databaseRegistry hderegister).symm
  · refine List.filter_congr fun b hb => decide_eq_decide.mpr (not_congr ?_)
    exact ⟨h.eq_of_installationId hb ha, fun he => he ▸ rfl⟩

theorem uninstall_of_install (hs : PlatformState.WellFormed s)
    (h : install i manifest s = .ok (app, s'))
    (hg : ∀ grant ∈ g.grants, grant.subject ≠ .app app.identity) :
    uninstall app.installationId s' g = .ok (s, g) := by
  obtain ⟨l, hl, rfl⟩ := hs
  obtain ⟨created, -, h⟩ := Except.bind_eq_ok.mp h
  obtain ⟨registered, hregister, h⟩ := Except.bind_eq_ok.mp h
  obtain ⟨rfl, rfl⟩ := Prod.mk.inj (Except.ok.inj h)
  obtain ⟨happ, rfl⟩ := register_ofApps.mp hregister
  have hmem : created ∈ l ++ [created] := List.mem_append_right l (List.mem_singleton_self _)
  rw [uninstall_ofApps (Coexist.append_iff.mpr ⟨hl, happ⟩) hmem, without_append,
    without_eq_self fun b hb => (happ b hb).installationId]
  have hgrants : g.removeForSubject (.app created.identity) = g :=
    congrArg InMemoryGrantStore.mk (List.filter_eq_self.mpr fun grant hgrant => by
      simpa using hg grant hgrant)
  rw [hgrants]
  simp [without]

/-- In every state that calls of the lifecycle lead to, uninstalling an app that was just installed
restores the state and the grants; uninstalling any app removes its own entries and grants and
keeps the rest in order; and a refused installation leaves the state alone, being refused by one of
the checks before the copy is changed. -/
theorem install_uninstall_inverse (es : List LifecycleEvent) :
    let s := after LifecycleEvent.next es {}
    (∀ i manifest app s' g, install i manifest s = .ok (app, s') →
      (∀ grant ∈ g.grants, grant.subject ≠ .app app.identity) →
      uninstall app.installationId s' g = .ok (s, g)) ∧
    (∀ app ∈ s.installedApps.apps, ∀ g, ∃ s' g',
      uninstall app.installationId s g = .ok (s', g') ∧ Removed app s g s' g') ∧
    ∀ i manifest e s', (installInPlace i manifest).run s = .error e s' →
      s' = s ∧ Refusal i manifest s e := by
  intro s
  have hs : PlatformState.WellFormed s := reachable_ofApps es
  refine ⟨fun i manifest app s' g h hg => uninstall_of_install hs h hg, ?_, ?_⟩
  · intro app happ g
    obtain ⟨l, hl, heq⟩ := hs
    rw [heq] at happ ⊢
    exact uninstall_removed hl happ g
  · intro i manifest e s' h
    rw [installInPlace_eq] at h
    cases hinstall : install i manifest s with
    | ok r =>
      rw [hinstall] at h
      cases h
    | error e' =>
      rw [hinstall] at h
      cases h
      exact ⟨rfl, refusal_of_install hinstall⟩

end AppLifecycle

end Rumahl
