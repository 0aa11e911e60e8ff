import Rumahl.Core.LifecycleLemmas

/-!
# Platform snapshots

`PlatformSnapshot.capture` takes the installed apps and the grants; `PlatformRecovery.recover`
rebuilds the state from them through the lifecycle. `PlatformRecovery.recover_eq_ok` says which
snapshots recover and to what, and `recover_capture` that capturing loses nothing.
-/

open List

namespace Rumahl

def platformSnapshotVersion : UInt32 := 1

structure PlatformSnapshot where
  version : UInt32
  installedApps : List InstalledApp
  grants : List PermissionGrant
  deriving DecidableEq

def PlatformSnapshot.capture (s : PlatformState) (g : InMemoryGrantStore) : PlatformSnapshot :=
  ⟨platformSnapshotVersion, s.installedApps.apps, g.grants⟩

inductive PlatformRecoveryError where
  | unsupportedVersion (found supported : UInt32)
  | appRestoreFailed (error : AppLifecycleError)
  | duplicateGrantId (id : GrantId)
  | grantSubjectNotInstalled (id : GrantId)
  | appCannotIssueGrant (id : GrantId)
  deriving DecidableEq

namespace PlatformRecovery

def restoreApps : List InstalledApp → PlatformState → Except PlatformRecoveryError PlatformState
  | [], s => .ok s
  | app :: apps, s => do
    let s ← (AppLifecycle.restore app s).mapError .appRestoreFailed
    restoreApps apps s

def validateGrant (grant : PermissionGrant) (s : PlatformState) :
    Except PlatformRecoveryError Unit := do
  if let .app subject := grant.subject then
    let installed := (s.installedApps.getByInstallationId subject.installationId).filter
      fun installed => installed.identity = subject
    if installed.isNone then
      throw (.grantSubjectNotInstalled grant.id)
  if grant.grantedBy.isApp then
    throw (.appCannotIssueGrant grant.id)

/-- The grant ids seen so far are those of the grants recovered so far. -/
def restoreGrants (s : PlatformState) : List PermissionGrant → InMemoryGrantStore →
    Except PlatformRecoveryError InMemoryGrantStore
  | [], recovered => .ok recovered
  | grant :: grants, recovered =>
    if grant.id ∈ recovered.grants.map PermissionGrant.id then .error (.duplicateGrantId grant.id)
    else do
      validateGrant grant s
      restoreGrants s grants (recovered.insert grant)

def recover (snapshot : PlatformSnapshot) :
    Except PlatformRecoveryError (PlatformState × InMemoryGrantStore) :=
  if snapshot.version ≠ platformSnapshotVersion then
    .error (.unsupportedVersion snapshot.version platformSnapshotVersion)
  else do
    let recovered ← restoreApps snapshot.installedApps {}
    let recoveredGrants ← restoreGrants recovered snapshot.grants {}
    pure (recovered, recoveredGrants)

end PlatformRecovery

/-- What a process starts from: the recovered snapshot, or an empty platform if none is stored. -/
def loadPlatform (snapshot : Option PlatformSnapshot) :
    Except PlatformRecoveryError (PlatformState × InMemoryGrantStore) :=
  match snapshot with
  | none => .ok ({}, {})
  | some snapshot => PlatformRecovery.recover snapshot

/-! ## Which snapshots recover -/

/-- A grant whose subject, if an app, is installed and that no app issued. -/
structure PermissionGrant.ValidFor (l : List InstalledApp) (grant : PermissionGrant) : Prop where
  subject : ∀ i, grant.subject = .app i → ∃ a ∈ l, a.identity = i
  grantedBy : grant.grantedBy.isApp = false

/-- Grants with distinct ids, each valid for the installed apps. -/
structure GrantsValid (l : List InstalledApp) (grants : List PermissionGrant) : Prop where
  nodup : (grants.map PermissionGrant.id).Nodup
  valid : ∀ grant ∈ grants, grant.ValidFor l

namespace PlatformRecovery

theorem restoreApps_ofApps (hl : Coexist l) :
    restoreApps apps (.ofApps l) = .ok s ↔ Coexist (l ++ apps) ∧ s = .ofApps (l ++ apps) := by
  induction apps generalizing l with
  | nil => simp [restoreApps, hl, eq_comm]
  | cons a apps ih =>
    rw [restoreApps, Except.bind_eq_ok]
    simp only [Except.mapError_eq_ok, AppLifecycle.restore, AppLifecycle.register_ofApps]
    constructor
    · rintro ⟨_, ⟨ha, rfl⟩, h⟩
      simpa using (ih (Coexist.append_iff.mpr ⟨hl, ha⟩)).mp h
    · rintro ⟨h, rfl⟩
      have ha : Coexist (l ++ [a]) := by
        rw [append_cons] at h
        exact (pairwise_append.mp h).1
      exact ⟨_, ⟨(Coexist.append_iff.mp ha).2, rfl⟩, (ih ha).mpr (by simpa using h)⟩

theorem validateGrant_ofApps (hl : Coexist l) :
    validateGrant grant (.ofApps l) = .ok () ↔ grant.ValidFor l := by
  have hsub : (∀ i, grant.subject = .app i → ∃ a ∈ l, a.identity = i) ↔
      ∀ i, grant.subject = .app i →
        (((PlatformState.ofApps l).installedApps.getByInstallationId i.installationId).filter
          fun installed => installed.identity = i).isNone = false := by
    refine forall_congr' fun i => imp_congr_right fun _ => ?_
    simp only [Option.isNone_eq_false_iff, Option.isSome_iff_exists, Option.filter_eq_some_iff]
    constructor
    · rintro ⟨a, ha, rfl⟩
      exact ⟨a, (InstalledAppRegistry.getByInstallationId_eq_some hl).mpr ⟨ha, rfl⟩, by simp⟩
    · rintro ⟨a, ha, hi⟩
      exact ⟨a, ((InstalledAppRegistry.getByInstallationId_eq_some hl).mp ha).1, by simpa using hi⟩
  have hvalid : grant.ValidFor l ↔ (∀ i, grant.subject = .app i → ∃ a ∈ l, a.identity = i) ∧
      grant.grantedBy.isApp = false := ⟨fun h => ⟨h.1, h.2⟩, fun h => ⟨h.1, h.2⟩⟩
  rw [hvalid, hsub, validateGrant]
  cases grant.subject with
  | app i =>
    simp only [Identity.app.injEq, forall_eq']
    split <;> split <;> simp_all [pure, Except.pure, throw, throwThe, MonadExceptOf.throw, bind,
      Except.bind]
  | _ => split <;> simp_all [pure, Except.pure, throw, throwThe, MonadExceptOf.throw]

theorem restoreGrants_ofApps (hl : Coexist l) (hg : GrantsValid l g) :
    restoreGrants (.ofApps l) grants ⟨g⟩ = .ok store ↔
      GrantsValid l (g ++ grants) ∧ store = ⟨g ++ grants⟩ := by
  induction grants generalizing g with
  | nil => simp [restoreGrants, hg, eq_comm]
  | cons grant grants ih =>
    have hstep : GrantsValid l (g ++ [grant]) ↔
        grant.id ∉ g.map PermissionGrant.id ∧ grant.ValidFor l := by
      constructor
      · rintro ⟨hn, hv⟩
        rw [map_append, nodup_append] at hn
        exact ⟨fun hm => hn.2.2 _ hm _ (mem_singleton_self _) rfl, hv grant (by simp)⟩
      · rintro ⟨hn, hv⟩
        refine ⟨?_, fun x hx => ?_⟩
        · rw [map_append, nodup_append]
          refine ⟨hg.nodup, nodup_singleton _, fun x hx y hy => ?_⟩
          rw [mem_singleton.mp hy]
          exact fun h => hn (h ▸ hx)
        · rcases mem_append.mp hx with hx | hx
          · exact hg.valid x hx
          · exact mem_singleton.mp hx ▸ hv
    rw [restoreGrants]
    split
    · next hmem =>
      refine ⟨(nomatch ·), fun ⟨h, _⟩ => ?_⟩
      have hn := h.nodup
      rw [map_append, nodup_append] at hn
      exact absurd rfl (hn.2.2 _ hmem grant.id (by simp))
    · next hmem =>
      rw [Except.seq_eq_ok, validateGrant_ofApps hl, InMemoryGrantStore.insert,
        append_cons g grant grants]
      constructor
      · rintro ⟨hv, h⟩
        exact (ih (hstep.mpr ⟨hmem, hv⟩)).mp h
      · rintro ⟨h, hs⟩
        have hv : grant.ValidFor l := h.valid grant (by simp)
        exact ⟨hv, (ih (hstep.mpr ⟨hmem, hv⟩)).mpr ⟨h, hs⟩⟩

/-- A snapshot recovers if it has the current version, its apps can be installed side by side and
its grants are valid for them; it then recovers to the state the apps stand for. -/
theorem recover_eq_ok :
    recover p = .ok (s, g) ↔ p.version = platformSnapshotVersion ∧ Coexist p.installedApps ∧
      GrantsValid p.installedApps p.grants ∧ s = .ofApps p.installedApps ∧ g = ⟨p.grants⟩ := by
  have happs : restoreApps p.installedApps {} = restoreApps p.installedApps (.ofApps []) := rfl
  have hnil : ∀ l, GrantsValid l [] := fun l => ⟨nodup_nil, fun _ h => nomatch h⟩
  rw [recover]
  split
  · next h => exact ⟨(nomatch ·), fun h' => absurd h'.1 h⟩
  · next h =>
    simp only [Except.bind_eq_ok, happs, restoreApps_ofApps Coexist.nil, nil_append]
    constructor
    · rintro ⟨_, ⟨hl, rfl⟩, _, hg, h'⟩
      obtain ⟨hv, rfl⟩ := (restoreGrants_ofApps hl (hnil _)).mp hg
      cases h'
      exact ⟨not_not.mp h, hl, hv, rfl, rfl⟩
    · rintro ⟨-, hl, hg, rfl, rfl⟩
      exact ⟨_, ⟨hl, rfl⟩, _, (restoreGrants_ofApps hl (hnil _)).mpr ⟨hg, rfl⟩, rfl⟩

end PlatformRecovery

theorem recover_capture (hl : Coexist l) (hg : GrantsValid l g.grants) :
    PlatformRecovery.recover (.capture (.ofApps l) g) = .ok (.ofApps l, g) :=
  PlatformRecovery.recover_eq_ok.mpr ⟨rfl, hl, hg, rfl, rfl⟩

namespace GrantsValid

theorem mono (h : GrantsValid l g) (hl : ∀ a ∈ l, a ∈ l') : GrantsValid l' g where
  nodup := h.nodup
  valid x hx := ⟨fun i hi => by
    obtain ⟨a, ha, rfl⟩ := (h.valid x hx).subject i hi
    exact ⟨a, hl a ha, rfl⟩, (h.valid x hx).grantedBy⟩

/-- Removing an app together with its grants leaves grants that are valid for the others. -/
theorem removeForSubject {g : InMemoryGrantStore} (h : GrantsValid l g.grants) (hl : Coexist l)
    (ha : a ∈ l) :
    GrantsValid (without a.installationId l) (g.removeForSubject (.app a.identity)).grants where
  nodup := h.nodup.sublist (List.Sublist.map _ filter_sublist)
  valid x hx := by
    obtain ⟨hx, hne⟩ := mem_filter.mp hx
    refine ⟨fun i hi => ?_, (h.valid x hx).grantedBy⟩
    obtain ⟨b, hb, rfl⟩ := (h.valid x hx).subject i hi
    refine ⟨b, mem_without.mpr ⟨hb, fun hid => ?_⟩, rfl⟩
    rw [hi, hl.eq_of_installationId hb ha hid] at hne
    simp at hne

theorem removeForSubject_eq {g : InMemoryGrantStore} (h : GrantsValid l g.grants)
    (ha : ∀ b ∈ l, b.identity ≠ i) : g.removeForSubject (.app i) = g := by
  refine congrArg InMemoryGrantStore.mk (filter_eq_self.mpr fun x hx => ?_)
  refine decide_eq_true fun hi => ?_
  obtain ⟨b, hb, hbi⟩ := (h.valid x hx).subject i hi
  exact ha b hb hbi

end GrantsValid

end Rumahl
