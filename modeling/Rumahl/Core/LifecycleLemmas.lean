import Rumahl.Core.Lifecycle

/-!
# The state is a function of the installed apps

`PlatformState.ofApps` computes the state that a list of installed apps stands for. Registering an
app appends it to the list exactly if it is compatible with every app there
(`AppLifecycle.register_ofApps`), and uninstalling one filters it out
(`AppLifecycle.uninstall_ofApps`), so proofs about the lifecycle are proofs about lists of apps.
-/

namespace Rumahl

open ContributionDeclaration List ContributionRegistry Registry PlatformState AppDatabaseRegistry
  CapabilityRegistry CommandRegistry SearchRegistry

/-! ## The entries of an app -/

namespace ContributionDeclaration

def contribution (owner : AppIdentity) : ContributionDeclaration → Contribution
  | .command d => ⟨d.id, .app owner, ⟨"command"⟩⟩
  | .search d => ⟨d.id, .app owner, ⟨"search-provider"⟩⟩

def asCommand (owner : AppIdentity) : ContributionDeclaration → Option CommandContribution
  | .command d => some ⟨⟨d.id, .app owner, ⟨"command"⟩⟩, d.title, d.action⟩
  | .search _ => none

def asSearch (owner : AppIdentity) : ContributionDeclaration → Option SearchContribution
  | .command _ => none
  | .search d => some (SearchContribution.new d.id owner d.capability)

@[simp] theorem contribution_id : (contribution o d).id = d.id := by cases d <;> rfl
@[simp] theorem contribution_owner : (contribution o d).owner = .app o := by cases d <;> rfl

theorem asCommand_contribution (h : asCommand o d = some c) :
    c.contribution = contribution o d := by
  cases d <;> cases h; rfl

theorem asSearch_contribution (h : asSearch o d = some s) : s.contribution = contribution o d := by
  cases d <;> cases h; rfl

end ContributionDeclaration

/-- The entries that `PlatformRegistration.prepare` returns. -/
def InstalledApp.registration (app : InstalledApp) : PlatformRegistration where
  capabilityProviders := app.manifest.providedCapabilities.map (⟨.app app.identity, ·⟩)
  contributions := app.manifest.contributions.map (·.contribution app.identity)
  commands := app.manifest.contributions.filterMap (·.asCommand app.identity)
  searches := app.manifest.contributions.filterMap (·.asSearch app.identity)
  eventSubscriptions := app.manifest.eventSubscriptions.map (⟨.app app.identity, ·⟩)
  databases := app.manifest.databases.map (⟨app.identity, ·⟩)

namespace PlatformRegistration

/-- Preparing cannot fail: the titles were checked when the declarations were made. -/
theorem prepareContributions_eq (o : AppIdentity) (ds : List ContributionDeclaration) :
    prepareContributions o ds =
      .ok (ds.map (·.contribution o), ds.filterMap (·.asCommand o),
        ds.filterMap (·.asSearch o)) := by
  induction ds with
  | nil => rfl
  | cons d ds ih =>
    cases d with
    | command d =>
      have hnew : CommandContribution.new d.id o d.title d.action =
          .ok ⟨⟨d.id, .app o, ⟨"command"⟩⟩, d.title, d.action⟩ := by
        rw [CommandContribution.new, label_of_isLabel d.title_label]
      rw [prepareContributions, hnew, ih]
      rfl
    | search d =>
      rw [prepareContributions, ih]
      rfl

theorem prepare_eq (app : InstalledApp) : prepare app = .ok app.registration := by
  rw [prepare, prepareContributions_eq]
  rfl

/-- No entry clashes with one in the state. -/
structure Fits (r : PlatformRegistration) (s : PlatformState) : Prop where
  capabilities : ∀ a ∈ r.capabilityProviders, ∀ b ∈ s.capabilityRegistry,
    clash b a = false
  contributions : ∀ a ∈ r.contributions, ∀ b ∈ s.contributionRegistry,
    clash b a = false
  commands : ∀ a ∈ r.commands, ∀ b ∈ s.commandRegistry, clash b a = false
  searches : ∀ a ∈ r.searches, ∀ b ∈ s.searchRegistry, clash b a = false
  events : ∀ a ∈ r.eventSubscriptions, ∀ b ∈ s.eventBus, EventBus.clash b a = false
  databases : ∀ a ∈ r.databases, ∀ b ∈ s.databaseRegistry, clash b a = false

/-- No two entries clash. -/
structure Separate (r : PlatformRegistration) : Prop where
  capabilities : r.capabilityProviders.Pairwise fun b a => CapabilityRegistry.clash b a = false
  contributions : r.contributions.Pairwise fun b a => ContributionRegistry.clash b a = false
  commands : r.commands.Pairwise fun b a => CommandRegistry.clash b a = false
  searches : r.searches.Pairwise fun b a => SearchRegistry.clash b a = false
  events : r.eventSubscriptions.Pairwise fun b a => EventBus.clash b a = false
  databases : r.databases.Pairwise fun b a => AppDatabaseRegistry.clash b a = false

end PlatformRegistration

/-- The state with the entries appended. -/
def PlatformState.append (s : PlatformState) (r : PlatformRegistration) : PlatformState :=
  { s with
    capabilityRegistry := s.capabilityRegistry ++ r.capabilityProviders
    contributionRegistry := s.contributionRegistry ++ r.contributions
    commandRegistry := s.commandRegistry ++ r.commands
    searchRegistry := s.searchRegistry ++ r.searches
    eventBus := s.eventBus ++ r.eventSubscriptions
    databaseRegistry := s.databaseRegistry ++ r.databases }

namespace PlatformRegistrar

theorem canRegister_eq_ok : canRegister r s = .ok () ↔ r.Fits s := by
  simp only [canRegister, Except.seq_eq_ok, canRegisterAll_eq_ok]
  constructor
  · rintro ⟨h1, h2, h3, h4, h5, h6⟩
    exact ⟨h1, h2, h3, h4, h5, h6⟩
  · rintro ⟨h1, h2, h3, h4, h5, h6⟩
    exact ⟨h1, h2, h3, h4, h5, h6⟩

theorem applyRegistration_eq_ok :
    applyRegistration r s = .ok s' ↔ r.Fits s ∧ r.Separate ∧ s' = s.append r := by
  simp only [applyRegistration, Except.bind_eq_ok, registerAll_eq_ok]
  constructor
  · rintro ⟨_, ⟨f1, p1, rfl⟩, _, ⟨f2, p2, rfl⟩, _, ⟨f3, p3, rfl⟩, _, ⟨f4, p4, rfl⟩,
      _, ⟨f5, p5, rfl⟩, _, ⟨f6, p6, rfl⟩, h⟩
    exact ⟨⟨f1, f2, f3, f4, f5, f6⟩, ⟨p1, p2, p3, p4, p5, p6⟩, (Except.ok.inj h).symm⟩
  · rintro ⟨⟨f1, f2, f3, f4, f5, f6⟩, ⟨p1, p2, p3, p4, p5, p6⟩, rfl⟩
    exact ⟨_, ⟨f1, p1, rfl⟩, _, ⟨f2, p2, rfl⟩, _, ⟨f3, p3, rfl⟩, _, ⟨f4, p4, rfl⟩,
      _, ⟨f5, p5, rfl⟩, _, ⟨f6, p6, rfl⟩, rfl⟩

end PlatformRegistrar

/-! ## Lists of apps -/

namespace InstalledApp

/-- Two apps that can be installed side by side. -/
structure Compatible (a b : InstalledApp) : Prop where
  appId : a.appId ≠ b.appId
  installationId : a.installationId ≠ b.installationId
  contributions : ∀ c ∈ a.manifest.contributions, ∀ d ∈ b.manifest.contributions, c.id ≠ d.id

theorem Compatible.symm (h : Compatible a b) : Compatible b a :=
  ⟨h.appId.symm, h.installationId.symm, fun c hc d hd => (h.contributions d hd c hc).symm⟩

theorem identity_ne {a b : InstalledApp} (h : a.installationId ≠ b.installationId) :
    a.identity ≠ b.identity :=
  fun he => h (congrArg AppIdentity.installationId he)

/-- The manifest has no duplicates, so neither have the entries. -/
theorem registration_separate (app : InstalledApp) : app.registration.Separate := by
  have hc : app.manifest.contributions.Pairwise fun c d => c.id ≠ d.id :=
    pairwise_map.mp app.manifest.contributions_nodup
  refine ⟨?_, ?_, ?_, ?_, ?_, ?_⟩
  · refine pairwise_map.mpr (app.manifest.capabilities_nodup.imp fun h => ?_)
    simpa [CapabilityRegistry.clash] using h
  · refine pairwise_map.mpr (hc.imp fun h => ?_)
    simpa [ContributionRegistry.clash] using h
  · refine pairwise_filterMap.mpr (hc.imp fun h b hb c hc => ?_)
    rw [CommandRegistry.clash, asCommand_contribution hb, asCommand_contribution hc]
    simpa using h
  · refine pairwise_filterMap.mpr (hc.imp fun h b hb c hc => ?_)
    rw [SearchRegistry.clash, asSearch_contribution hb, asSearch_contribution hc]
    simpa using h
  · refine pairwise_map.mpr (app.manifest.events_nodup.imp fun h => ?_)
    simpa [EventBus.clash] using h
  · have hd := pairwise_map.mp app.manifest.databases_nodup
    refine pairwise_map.mpr (hd.imp fun h => ?_)
    simpa [AppDatabaseRegistry.clash] using h

end InstalledApp

/-- The state that the apps stand for, in the order they were installed. -/
def PlatformState.ofApps (apps : List InstalledApp) : PlatformState where
  capabilityRegistry := apps.flatMap (·.registration.capabilityProviders)
  contributionRegistry := apps.flatMap (·.registration.contributions)
  commandRegistry := apps.flatMap (·.registration.commands)
  searchRegistry := apps.flatMap (·.registration.searches)
  eventBus := apps.flatMap (·.registration.eventSubscriptions)
  databaseRegistry := apps.flatMap (·.registration.databases)
  installedApps := ⟨apps⟩

@[simp] theorem PlatformState.ofApps_apps : (ofApps l).installedApps.apps = l := rfl

theorem PlatformState.ofApps_append (l : List InstalledApp) (a : InstalledApp) :
    ofApps (l ++ [a]) = { (ofApps l).append a.registration with installedApps := ⟨l ++ [a]⟩ } := by
  simp [ofApps, append]

namespace PlatformRegistration

/-- Among different installations only contribution ids can clash. -/
theorem fits_ofApps {a : InstalledApp} (hl : ∀ b ∈ l, b.installationId ≠ a.installationId) :
    a.registration.Fits (.ofApps l) ↔
      ∀ b ∈ l, ∀ c ∈ b.manifest.contributions, ∀ d ∈ a.manifest.contributions, c.id ≠ d.id := by
  constructor
  · intro h b hb c hc d hd
    have := h.contributions _ (mem_map_of_mem hd) _ (mem_flatMap.mpr ⟨b, hb, mem_map_of_mem hc⟩)
    simpa [ContributionRegistry.clash] using this
  · intro h
    refine ⟨?_, ?_, ?_, ?_, ?_, ?_⟩ <;> intro x hx y hy <;>
      obtain ⟨b, hb, hy⟩ := mem_flatMap.mp hy <;>
      have hid := InstalledApp.identity_ne (hl b hb)
    · obtain ⟨c, -, rfl⟩ := mem_map.mp hx
      obtain ⟨d, -, rfl⟩ := mem_map.mp hy
      simp [CapabilityRegistry.clash, hid]
    · obtain ⟨c, hc, rfl⟩ := mem_map.mp hx
      obtain ⟨d, hd, rfl⟩ := mem_map.mp hy
      simpa [ContributionRegistry.clash] using h b hb d hd c hc
    · obtain ⟨c, hc, hx⟩ := mem_filterMap.mp hx
      obtain ⟨d, hd, hy⟩ := mem_filterMap.mp hy
      rw [CommandRegistry.clash, asCommand_contribution hx, asCommand_contribution hy]
      simpa using h b hb d hd c hc
    · obtain ⟨c, hc, hx⟩ := mem_filterMap.mp hx
      obtain ⟨d, hd, hy⟩ := mem_filterMap.mp hy
      rw [SearchRegistry.clash, asSearch_contribution hx, asSearch_contribution hy]
      simpa using h b hb d hd c hc
    · obtain ⟨c, -, rfl⟩ := mem_map.mp hx
      obtain ⟨d, -, rfl⟩ := mem_map.mp hy
      simp [EventBus.clash, hid]
    · obtain ⟨c, -, rfl⟩ := mem_map.mp hx
      obtain ⟨d, -, rfl⟩ := mem_map.mp hy
      simp [AppDatabaseRegistry.clash, hid]

end PlatformRegistration

theorem InstalledAppRegistry.canRegister_eq_ok {r : InstalledAppRegistry} :
    r.canRegister a = .ok () ↔
      ∀ b ∈ r.apps, b.appId ≠ a.appId ∧ b.installationId ≠ a.installationId := by
  simp [canRegister, Except.seq_eq_ok, Registry.canRegister_eq_ok, forall_and]

theorem InstalledAppRegistry.register_eq_ok {r : InstalledAppRegistry} :
    r.register a = .ok r' ↔ r.canRegister a = .ok () ∧ r' = ⟨r.apps ++ [a]⟩ := by
  rw [register, Except.seq_eq_ok]
  exact and_congr_right fun _ => ⟨fun h => (Except.ok.inj h).symm, fun h => h ▸ rfl⟩

namespace AppLifecycle

/-- Registering an app succeeds exactly if it is compatible with every installed one. -/
theorem register_ofApps :
    register a (.ofApps l) = .ok s ↔ (∀ b ∈ l, b.Compatible a) ∧ s = .ofApps (l ++ [a]) := by
  simp only [register, Except.bind_eq_ok, Except.mapError_eq_ok, PlatformRegistration.prepare_eq,
    InstalledAppRegistry.register_eq_ok, PlatformRegistrar.applyRegistration_eq_ok]
  constructor
  · rintro ⟨_, ⟨⟩, ⟨⟩, hid, ⟨⟩, hfit, _, ⟨-, rfl⟩, -, -, rfl⟩
    have hid := InstalledAppRegistry.canRegister_eq_ok.mp hid
    have hfit := PlatformRegistrar.canRegister_eq_ok.mp hfit
    have hfit := (PlatformRegistration.fits_ofApps fun b hb => (hid b hb).2).mp hfit
    exact ⟨fun b hb => ⟨(hid b hb).1, (hid b hb).2, hfit b hb⟩, (ofApps_append l a).symm⟩
  · rintro ⟨h, rfl⟩
    have hid : (ofApps l).installedApps.canRegister a = .ok () :=
      InstalledAppRegistry.canRegister_eq_ok.mpr fun b hb =>
        ⟨(h b hb).appId, (h b hb).installationId⟩
    have hfit : a.registration.Fits (.ofApps l) :=
      (PlatformRegistration.fits_ofApps fun b hb => (h b hb).installationId).mpr
        fun b hb => (h b hb).contributions
    refine ⟨_, rfl, (), hid, (), PlatformRegistrar.canRegister_eq_ok.mpr hfit, _, ⟨hid, rfl⟩, ?_,
      a.registration_separate, ?_⟩
    · exact ⟨hfit.1, hfit.2, hfit.3, hfit.4, hfit.5, hfit.6⟩
    · rw [ofApps_append]
      rfl

end AppLifecycle

/-! ## Apps installed side by side -/

/-- Every two of the apps can be installed side by side. -/
def Coexist (l : List InstalledApp) : Prop := l.Pairwise InstalledApp.Compatible

namespace Coexist

theorem nil : Coexist [] := List.Pairwise.nil

theorem append_iff : Coexist (l ++ [a]) ↔ Coexist l ∧ ∀ b ∈ l, b.Compatible a := by
  simp [Coexist, pairwise_append]

theorem filter (h : Coexist l) (p : InstalledApp → Bool) : Coexist (l.filter p) :=
  List.Pairwise.filter p h

theorem compatible (h : Coexist l) (ha : a ∈ l) (hb : b ∈ l) (hne : a ≠ b) : a.Compatible b :=
  have : Std.Symm InstalledApp.Compatible := ⟨fun _ _ => .symm⟩
  List.Pairwise.forall h ha hb hne

theorem eq_of_installationId (h : Coexist l) (ha : a ∈ l) (hb : b ∈ l)
    (heq : a.installationId = b.installationId) : a = b :=
  by_contra fun hne => (h.compatible ha hb hne).installationId heq

end Coexist

/-- The apps other than the installation `id`. -/
def without (id : InstallationId) (l : List InstalledApp) : List InstalledApp :=
  l.filter fun app => app.installationId ≠ id

@[simp] theorem mem_without : a ∈ without i l ↔ a ∈ l ∧ a.installationId ≠ i := by
  simp [without]

theorem without_eq_self (h : ∀ a ∈ l, a.installationId ≠ i) : without i l = l :=
  filter_eq_self.mpr fun a ha => by simpa using h a ha

theorem without_append (i : InstallationId) (l l' : List InstalledApp) :
    without i (l ++ l') = without i l ++ without i l' :=
  filter_append l l'

theorem Coexist.without (h : Coexist l) (i : InstallationId) : Coexist (without i l) :=
  h.filter _

namespace InstalledAppRegistry

theorem getByInstallationId_eq_some (h : Coexist l) :
    getByInstallationId ⟨l⟩ i = some a ↔ a ∈ l ∧ a.installationId = i := by
  constructor
  · intro hf
    exact ⟨mem_of_find?_eq_some hf, by simpa using List.find?_some hf⟩
  · rintro ⟨ha, rfl⟩
    cases hf : getByInstallationId ⟨l⟩ a.installationId with
    | none => simpa using List.find?_eq_none.mp hf a ha
    | some b =>
      have hb : b.installationId = a.installationId := by simpa using List.find?_some hf
      rw [h.eq_of_installationId (mem_of_find?_eq_some hf) ha hb]

theorem getByInstallationId_eq_none :
    getByInstallationId ⟨l⟩ i = none ↔ ∀ a ∈ l, a.installationId ≠ i := by
  simp [getByInstallationId]

theorem getByAppId_eq_none : getByAppId ⟨l⟩ i = none ↔ ∀ a ∈ l, a.appId ≠ i := by
  simp [getByAppId]

theorem eraseP_eq_without (h : Coexist l) (i : InstallationId) :
    (l.eraseP fun app => app.installationId = i) = Rumahl.without i l := by
  induction l with
  | nil => rfl
  | cons a l ih =>
    obtain ⟨ha, hl⟩ := pairwise_cons.mp h
    by_cases hid : a.installationId = i
    · rw [eraseP_cons_of_pos (by simpa using hid), Rumahl.without,
        filter_cons_of_neg (by simpa using hid)]
      exact (without_eq_self fun b hb => hid ▸ (ha b hb).installationId.symm).symm
    · rw [eraseP_cons_of_neg (by simpa using hid), Rumahl.without,
        filter_cons_of_pos (by simpa using hid), ih hl]
      rfl

theorem remove_eq (h : Coexist l) (ha : a ∈ l) :
    remove ⟨l⟩ a.installationId = some (a, ⟨Rumahl.without a.installationId l⟩) := by
  rw [remove, (getByInstallationId_eq_some h).mpr ⟨ha, rfl⟩, Option.map_some, eraseP_eq_without h]

end InstalledAppRegistry

namespace PlatformRegistrar

theorem applyDeregistration_ofApps (h : Coexist l) (ha : a ∈ l) :
    applyDeregistration a (.ofApps l) =
      { ofApps (without a.installationId l) with installedApps := ⟨l⟩ } := by
  have hid : l.filter (fun b => Identity.app b.identity ≠ .app a.identity) =
      without a.installationId l := by
    refine filter_congr fun b hb => decide_eq_decide.mpr (not_congr ?_)
    refine ⟨fun he => congrArg AppIdentity.installationId (Identity.app.inj he), fun he => ?_⟩
    rw [h.eq_of_installationId hb ha he]
  have hid' : l.filter (fun b => b.identity ≠ a.identity) = without a.installationId l := by
    rw [← hid]
    simp
  simp only [applyDeregistration, ofApps]
  congr 1
  · rw [removeOwned_flatMap, hid]
    intro b _ x hx
    obtain ⟨c, -, rfl⟩ := mem_map.mp hx
    rfl
  · rw [removeOwned_flatMap, hid]
    intro b _ x hx
    obtain ⟨c, -, rfl⟩ := mem_map.mp hx
    exact contribution_owner
  · rw [removeOwned_flatMap, hid]
    intro b _ x hx
    obtain ⟨c, -, hc⟩ := mem_filterMap.mp hx
    rw [asCommand_contribution hc]
    exact contribution_owner
  · rw [removeOwned_flatMap, hid]
    intro b _ x hx
    obtain ⟨c, -, hc⟩ := mem_filterMap.mp hx
    rw [asSearch_contribution hc]
    exact contribution_owner
  · rw [removeOwned_flatMap, hid]
    intro b _ x hx
    obtain ⟨c, -, rfl⟩ := mem_map.mp hx
    rfl
  · rw [removeOwned_flatMap, hid']
    intro b _ x hx
    obtain ⟨c, -, rfl⟩ := mem_map.mp hx
    rfl

end PlatformRegistrar

namespace AppLifecycle

theorem uninstall_ofApps (h : Coexist l) (ha : a ∈ l) (g : InMemoryGrantStore) :
    uninstall a.installationId (.ofApps l) g =
      .ok (.ofApps (without a.installationId l), g.removeForSubject (.app a.identity)) := by
  have hget : (ofApps l).installedApps.getByInstallationId a.installationId = some a :=
    (InstalledAppRegistry.getByInstallationId_eq_some h).mpr ⟨ha, rfl⟩
  simp only [uninstall, hget, PlatformRegistrar.applyDeregistration_ofApps h ha,
    InstalledAppRegistry.remove_eq h ha]
  rfl

end AppLifecycle

end Rumahl
