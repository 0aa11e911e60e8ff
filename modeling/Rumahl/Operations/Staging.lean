import Rumahl.Core.Platform
import Rumahl.Operations.RunnerRuns

/-!
# Staging on well-formed platforms

What the runner stages from a well-formed platform is that platform with or without the target, and
it can be staged exactly if the platform accepts the target or keeps it apart from the others.
-/

namespace Rumahl

open Effect AppOperationRunner AppLifecycle

variable {P : Platform} {h : Header} {st : Progress} {u : UnixTimestamp}

namespace Platform

theorem getByInstallationId_eq_some :
    P.state.installedApps.getByInstallationId i = some a ↔ a ∈ P.apps ∧ a.installationId = i :=
  InstalledAppRegistry.getByInstallationId_eq_some P.coexist

theorem getByInstallationId_eq_none : P.state.installedApps.getByInstallationId i = none ↔
      ∀ a ∈ P.apps, a.installationId ≠ i :=
  InstalledAppRegistry.getByInstallationId_eq_none

theorem restore_eq_ok (ha : a ∉ P.apps) :
    restore a P.state = .ok s ↔ ∃ hA : P.Accepts a, s = (P.withApp a hA).state := by
  rw [restore, state, register_ofApps]
  constructor
  · rintro ⟨hc, rfl⟩
    have hA : P.Accepts a := fun b hb => .inr (hc b hb)
    exact ⟨hA, by rw [state, withApp_apps ha]⟩
  · rintro ⟨hA, rfl⟩
    refine ⟨fun b hb => (hA b hb).resolve_left fun hba => ha (hba ▸ hb), ?_⟩
    rw [state, withApp_apps ha]

theorem uninstall_eq (ha : a ∈ P.apps) : uninstall a.installationId P.state P.grants =
      .ok ((P.withoutApp a (accepts_of_mem ha).separates).state,
        (P.withoutApp a (accepts_of_mem ha).separates).grants) :=
  uninstall_ofApps P.coexist ha P.grants

end Platform

namespace AppOperationRunner

open Platform

theorem stageInstallTarget_eq_ret : stageInstallTarget (h.operation st u) P.state = .ret s ↔
      ∃ hA : P.Accepts h.app, s = (P.withApp h.app hA).state := by
  rw [stageInstallTarget, show target (h.operation st u) = .ret h.app from rfl, Prog.ret_bind]
  cases hg : P.state.installedApps.getByInstallationId h.app.installationId with
  | some existing =>
    obtain ⟨hmem, hid⟩ := getByInstallationId_eq_some.mp hg
    by_cases he : existing = h.app
    · subst he
      simp only [if_true]
      constructor
      · intro hs
        cases hs
        exact ⟨accepts_of_mem hmem, by rw [withApp_of_mem hmem]⟩
      · rintro ⟨hA, rfl⟩
        rw [show P.withApp h.app hA = P from withApp_of_mem hmem]
        rfl
    · simp only [if_neg he]
      refine ⟨(fun hs => by cases hs), ?_⟩
      rintro ⟨hA, -⟩
      exact absurd (hA.separates existing hmem (.inl hid)) he
  | none =>
    have hnot : h.app ∉ P.apps := fun hm => getByInstallationId_eq_none.mp hg h.app hm rfl
    rw [← restore_eq_ok hnot]
    cases restore h.app P.state with
    | ok s' => simp [Prog.ofExcept]
    | error e => simp [Prog.ofExcept]

theorem stageWithoutTarget_eq_ret :
    stageWithoutTarget (h.operation st u) P.state P.grants = .ret (s, g) ↔
      ∃ hS : P.Separates h.app,
        s = (P.withoutApp h.app hS).state ∧ g = (P.withoutApp h.app hS).grants := by
  rw [stageWithoutTarget, show target (h.operation st u) = .ret h.app from rfl, Prog.ret_bind]
  cases hg : P.state.installedApps.getByInstallationId h.app.installationId with
  | some existing =>
    obtain ⟨hmem, hid⟩ := getByInstallationId_eq_some.mp hg
    by_cases he : existing = h.app
    · subst he
      simp only [if_true, uninstall_eq hmem, Prog.ofExcept]
      constructor
      · intro hs
        cases hs
        exact ⟨(accepts_of_mem hmem).separates, rfl, rfl⟩
      · rintro ⟨hS, rfl, rfl⟩
        rfl
    · simp only [if_neg he]
      refine ⟨(fun hs => by cases hs), ?_⟩
      rintro ⟨hS, -⟩
      exact absurd (hS existing hmem (.inl hid)) he
  | none =>
    have hnone := getByInstallationId_eq_none.mp hg
    by_cases happ : (P.state.installedApps.getByAppId h.app.appId).isSome
    · simp only [happ, if_true]
      refine ⟨(fun hs => by cases hs), ?_⟩
      rintro ⟨hS, -⟩
      have hsome : P.state.installedApps.getByAppId h.app.appId ≠ none :=
        Option.isSome_iff_ne_none.mp happ
      refine absurd (InstalledAppRegistry.getByAppId_eq_none.mpr fun b hb hid => ?_) hsome
      exact hnone b hb (congrArg InstalledApp.installationId (hS b hb (.inr hid)))
    · have hother : ∀ b ∈ P.apps, b.appId ≠ h.app.appId :=
        InstalledAppRegistry.getByAppId_eq_none.mp (Option.not_isSome_iff_eq_none.mp happ)
      have hS : P.Separates h.app := fun b hb hid =>
        hid.elim (fun hi => absurd hi (hnone b hb)) fun ha => absurd ha (hother b hb)
      have hsame : P.withoutApp h.app hS = P := withoutApp_of_not_mem hnone
      simp only [if_neg happ]
      constructor
      · intro hs
        cases hs
        exact ⟨hS, by rw [hsame], rfl⟩
      · rintro ⟨_, rfl, rfl⟩
        rw [show (P.withoutApp h.app hS).state = P.state by rw [hsame]]
        rfl

end AppOperationRunner

theorem AppLifecycle.install_platform (hi : install i m P.state = .ok (a, s)) :
    a.installationId = i ∧ a.manifest = m ∧ a ∉ P.apps ∧
      ∃ hA : P.Accepts a, s = (P.withApp a hA).state := by
  obtain ⟨hid, hm, hr⟩ := install_app hi
  have hnot : a ∉ P.apps := fun ha =>
    ((register_ofApps.mp hr).1 a ha).installationId rfl
  exact ⟨hid, hm, hnot, (Platform.restore_eq_ok hnot).mp hr⟩

/-! ## What an operation makes of a platform -/

/-- The operation turns the platform `P` into `T`. -/
inductive Staged (P : Platform) (h : Header) : Platform → Prop
  | install (hkind : h.kind = .install) (hA : P.Accepts h.app) : Staged P h (P.withApp h.app hA)
  | uninstall (hkind : h.kind = .uninstall) (hS : P.Separates h.app) :
      Staged P h (P.withoutApp h.app hS)

namespace Staged

variable {T T' : Platform}

theorem ne_update (hs : Staged P h T) : h.kind ≠ .update := by
  cases hs with
  | install hkind | uninstall hkind => rw [hkind]; nofun

theorem unique (hs : Staged P h T) (hs' : Staged P h T') : T = T' := by
  cases hs with
  | install hkind hA =>
    cases hs' with
    | install _ hA' => rfl
    | uninstall hkind' => rw [hkind] at hkind'; cases hkind'
  | uninstall hkind hS =>
    cases hs' with
    | install hkind' => rw [hkind] at hkind'; cases hkind'
    | uninstall _ hS' => rfl

theorem again (hs : Staged P h T) : Staged T h T := by
  cases hs with
  | install hkind hA =>
    have hmem : h.app ∈ (P.withApp h.app hA).apps := Platform.mem_withApp.mpr (.inr rfl)
    have := Staged.install hkind (Platform.accepts_of_mem hmem)
    rwa [Platform.withApp_of_mem hmem] at this
  | uninstall hkind hS =>
    have hnot : ∀ b ∈ (P.withoutApp h.app hS).apps, b.installationId ≠ h.app.installationId :=
      fun b hb => (Platform.mem_withoutApp.mp hb).2
    have hS' : (P.withoutApp h.app hS).Separates h.app := fun b hb hid =>
      hS b (Platform.mem_withoutApp.mp hb).1 hid
    have := Staged.uninstall hkind hS'
    rwa [Platform.withoutApp_of_not_mem hnot] at this

end Staged

/-! ## Calls on a platform -/

/-- The calls that enter an operation of their own. -/
def Command.Opens : Command → Prop
  | .install _ | .uninstall _ => True
  | _ => False

/-- The call entered the operation `h`, which makes `T` of the live platform `P`. -/
inductive Entered (P : Platform) (w : World) (h : Header) (w1 : World) :
    Command → Platform → Prop
  | install (hin : Installing m w h staged w1) (hnew : h.app ∉ P.apps) (hA : P.Accepts h.app)
      (hs : staged = (P.withApp h.app hA).state) :
      Entered P w h w1 (.install m) (P.withApp h.app hA)
  | uninstall (hun : Uninstalling h.app.installationId w h staged g w1) (hmem : h.app ∈ P.apps)
      (hS : P.Separates h.app) (hs : staged = (P.withoutApp h.app hS).state)
      (hg : g = (P.withoutApp h.app hS).grants) :
      Entered P w h w1 (.uninstall h.app.installationId) (P.withoutApp h.app hS)

namespace Entered

variable {T : Platform} {w w1 : World} {c : Command}

section

variable (he : Entered P w h w1 c T)
include he

theorem opening : Opening h.kind w h w1 := by
  cases he with
  | install hin => exact hin.kind_eq ▸ hin.toOpening
  | uninstall hun => exact hun.kind_eq ▸ hun.toOpening

theorem staged : Staged P h T := by
  cases he with
  | install hin _ hA => exact .install hin.kind_eq hA
  | uninstall hun _ hS => exact .uninstall hun.kind_eq hS

theorem sound (hw : w.Sound) : w1.Sound :=
  he.opening.sound hw he.staged.ne_update

theorem find (hw : w.Sound) :
    Journal.find w1.journal h.id = some (h.operation (.applying 0) h.startedAt) :=
  he.opening.find hw he.staged.ne_update

end

end Entered

section Calls

variable {allows : Allows} {K : World → Prop} {w : World} {T : Platform}

theorem AppOperationRunner.install_entered (hw : w.Sound) (hs : w.state = P.state)
    (hg : w.grants = P.grants) (hbad : Faulty allows)
    (hK : ∀ is, w.issued ⊆ is → K { w with issued := is })
    (hrun : ∀ h T w1, Entered P w h w1 (.install m) T →
      ∀ w', Interrupted h T.snapshot 0 w1 w' → K w')
    (hQ : ∀ h T w1, Entered P w h w1 (.install m) T → ∀ u w', Committed h T.snapshot 0 u w1 w' →
      w'.state = T.state → w'.grants = T.grants → Q ⟨h.id, h.app⟩ w') :
    Spec allows K (install m) Q w := by
  have hstaged : ∀ h staged w1, Installing m w h staged w1 → ∃ hA : P.Accepts h.app,
      staged = (P.withApp h.app hA).state ∧
      Entered P w h w1 (.install m) (P.withApp h.app hA) := by
    intro h staged w1 hin
    have hi := hin.staged_eq
    rw [hs] at hi
    obtain ⟨-, -, hnew, hA, he⟩ := install_platform hi
    exact ⟨hA, he, .install hin hnew hA he⟩
  apply install_spec hw (.inl hbad) hK
  · intro h staged w1 hin w' hi
    obtain ⟨hA, rfl, he⟩ := hstaged h staged w1 hin
    rw [hg] at hi
    exact hrun h _ w1 he w' hi
  · intro h staged w1 hin u w' hc hs' hg'
    obtain ⟨hA, rfl, he⟩ := hstaged h staged w1 hin
    rw [hg] at hc hg'
    exact hQ h _ w1 he u w' hc hs' hg'

theorem Command.opens_spec (hc : c.Opens) (hw : w.Sound) (hs : w.state = P.state)
    (hg : w.grants = P.grants) (hbad : Faulty allows)
    (hK : ∀ is, w.issued ⊆ is → K { w with issued := is })
    (hrun : ∀ h T w1, Entered P w h w1 c T → ∀ w', Interrupted h T.snapshot 0 w1 w' → K w')
    (hQ : ∀ h T w1, Entered P w h w1 c T → ∀ u w', Committed h T.snapshot 0 u w1 w' →
      w'.state = T.state → w'.grants = T.grants → Q () w') : Spec allows K c.program Q w := by
  cases c with
  | compensateInstall i | recoverIncomplete => exact hc.elim
  | install m =>
    exact Spec.bind (install_entered hw hs hg hbad hK hrun hQ) fun _ _ h => Spec.ret h
  | uninstall i =>
    have hstaged : ∀ h staged g w1, Uninstalling i w h staged g w1 → ∃ hS : P.Separates h.app,
        staged = (P.withoutApp h.app hS).state ∧ g = (P.withoutApp h.app hS).grants ∧
        Entered P w h w1 (.uninstall i) (P.withoutApp h.app hS) := by
      intro h staged g w1 hun
      have hfound := hun.found
      have hst := hun.staged_eq
      rw [hs] at hfound hst
      rw [hg] at hst
      obtain ⟨hmem, rfl⟩ := Platform.getByInstallationId_eq_some.mp hfound
      rw [Platform.uninstall_eq hmem] at hst
      obtain ⟨rfl, rfl⟩ := Prod.mk.inj (Except.ok.inj hst)
      exact ⟨(Platform.accepts_of_mem hmem).separates, rfl, rfl, .uninstall hun hmem _ rfl rfl⟩
    refine Spec.bind (uninstall_spec hw (.inl hbad) hK ?_ ?_) fun _ _ h => Spec.ret h
    · intro h staged g w1 hun w' hi
      obtain ⟨hS, rfl, rfl, he⟩ := hstaged h staged g w1 hun
      exact hrun h _ w1 he w' hi
    · intro h staged g w1 hun u w' hc hs' hg'
      obtain ⟨hS, rfl, rfl, he⟩ := hstaged h staged g w1 hun
      exact hQ h _ w1 he u w' hc hs' hg'

theorem recoverOperation_spec (hw : w.Sound) (hs : w.state = P.state) (hg : w.grants = P.grants)
    (hf : Journal.find w.journal h.id = some (h.operation (.applying p) u))
    (hp : p ≤ 2 * h.plan.length) (hkind : h.kind ≠ .update)
    (hbad : Faulty allows ∨ ∃ T, Staged P h T) (hK : K w)
    (hrun : ∀ T, Staged P h T → ∀ w', Interrupted h T.snapshot p w w' → K w')
    (hQ : ∀ T, Staged P h T → ∀ u w', Committed h T.snapshot p u w w' → w'.state = T.state →
      w'.grants = T.grants → Q false w') :
    Spec allows K (recoverOperation (h.operation (.applying p) u)) Q w := by
  cases hk : h.kind with
  | update => exact absurd hk hkind
  | install =>
    refine recoverInstall_spec hw hk hf hp (hbad.imp_right ?_) hK ?_ ?_
    · rintro ⟨T, hT⟩
      cases hT with
      | install _ hA => exact ⟨_, by
          rw [hs]
          exact stageInstallTarget_eq_ret.mpr ⟨hA, rfl⟩⟩
      | uninstall hk' => rw [hk] at hk'; cases hk'
    · intro staged hst w' hi
      rw [hs] at hst
      obtain ⟨hA, rfl⟩ := stageInstallTarget_eq_ret.mp hst
      rw [hg] at hi
      exact hrun _ (.install hk hA) w' hi
    · intro staged hst t w' hc hs' hg'
      rw [hs] at hst
      obtain ⟨hA, rfl⟩ := stageInstallTarget_eq_ret.mp hst
      rw [hg] at hc hg'
      exact hQ _ (.install hk hA) t w' hc hs' hg'
  | uninstall =>
    refine recoverUninstall_spec hw hk hf hp (hbad.imp_right ?_) hK ?_ ?_
    · rintro ⟨T, hT⟩
      cases hT with
      | install hk' => rw [hk] at hk'; cases hk'
      | uninstall _ hS => exact ⟨_, by
          rw [hs, hg]
          exact stageWithoutTarget_eq_ret.mpr ⟨hS, rfl, rfl⟩⟩
    · intro staged g hst w' hi
      rw [hs, hg] at hst
      obtain ⟨hS, rfl, rfl⟩ := stageWithoutTarget_eq_ret.mp hst
      exact hrun _ (.uninstall hk hS) w' hi
    · intro staged g hst t w' hc hs' hg'
      rw [hs, hg] at hst
      obtain ⟨hS, rfl, rfl⟩ := stageWithoutTarget_eq_ret.mp hst
      exact hQ _ (.uninstall hk hS) t w' hc hs' hg'

end Calls

end Rumahl
