import Rumahl.Effect.Sequence
import Rumahl.Operations.Coherence
import Rumahl.Packages.Verifier

/-!
# Importing a package

`PackageImporter.install` verifies a package, has the runner install it, and publishes its payload
under the installation id. When the runner fails, it looks for an incomplete install of the same app
id, publishes for that one, and recovers.
-/

namespace Rumahl

open Effect World List AppOperationRunner PackageVerifier Journal

/-! ## The importer -/

inductive PublishedInstall where
  | web
  | container (images : Nat)
  deriving DecidableEq

structure InstalledPackage where
  installationId : InstallationId
  published : PublishedInstall
  deriving DecidableEq

inductive PackageImportError where
  | verification (error : PackageVerificationError)
  | manifest (error : PackageManifestError)
  | publisher (error : ProviderError)
  | imageImport (error : ProviderError)
  | journal (error : JournalError)
  | install (error : AppOperationRunnerError)
  | unsupportedRuntime (kind : RuntimeKind)
  | missingWebEntrypoint
  | missingContainerArtifact
  deriving DecidableEq

abbrev Importer := Prog Call Answer PackageImportError

def RuntimeEntrypointTarget.packagePath : RuntimeEntrypointTarget → Option PackagePath
  | .webAsset path | .containerArtifact path => some path
  | .endpoint _ => none

namespace PackageImporter

/-- All paths are looked up; that there are none is noticed afterwards. -/
def requireWebEntrypoints (package : VerifiedPackage) : Except PackageImportError Unit := do
  let paths := package.manifest.app.runtime.entrypoints.filterMap fun e => e.target.packagePath
  paths.forM fun path =>
    if package.files.any fun file => file.path = path then .ok ()
    else .error (.verification (.missingFile path.value))
  if paths = [] then .error .missingWebEntrypoint else .ok ()

def containerArtifacts (package : VerifiedPackage) : Except PackageImportError (List PackagePath) :=
  let artifacts := package.manifest.app.runtime.entrypoints.filterMap fun e =>
    match e.target with
    | .containerArtifact path => some path
    | _ => none
  if artifacts = [] then .error .missingContainerArtifact else .ok artifacts

def stageImages (id : InstallationId) : List PackagePath → Importer Unit
  | [] => pure ()
  | artifact :: artifacts => do
    let staged ← Prog.perform (.stageImage id artifact)
    Prog.ofExcept .imageImport staged
    stageImages id artifacts

/-- Native runtimes have no import path. -/
def publish (id : InstallationId) (package : VerifiedPackage) : Importer PublishedInstall :=
  match package.manifest.app.runtime.kind with
  | .web => do
    Prog.ofExcept (fun e => e) (requireWebEntrypoints package)
    let published ← Prog.perform (.publishAssets id)
    Prog.ofExcept .publisher published
    pure .web
  | .container => do
    let artifacts ← Prog.ofExcept (fun e => e) (containerArtifacts package)
    stageImages id artifacts
    pure (.container artifacts.length)
  | .native => Prog.throw (.unsupportedRuntime .native)

def selectIncompleteInstall (operations : List AppOperation) (appId : AppId) :
    Option AppOperation :=
  operations.find? fun op => op.kind = .install &&
    (op.targetApp.map fun target => decide (target.identity.appId = appId)).getD false

/-- The branch of `install` for an error of the runner. -/
def resume (verified : VerifiedPackage) (error : AppOperationRunnerError) :
    Importer InstalledPackage := do
  let answer ← Prog.perform Call.listIncomplete
  let operations ← Prog.ofExcept .journal answer
  match selectIncompleteInstall operations verified.manifest.app.appId with
  | none => Prog.throw (.install error)
  | some operation =>
    let installationId := operation.installationId
    let published ← publish installationId verified
    let _ ← AppOperationRunner.recoverIncomplete.mapError .install
    pure ⟨installationId, published⟩

variable (P : Primitives)

def install (store : TrustStore) (path : String) (root : PackageRoot P.Bytes) :
    Importer InstalledPackage := do
  let verified ← Prog.ofExcept .verification (verify P store path root)
  let manifest ← Prog.ofExcept .manifest verified.toAppManifest
  match ← (AppOperationRunner.install manifest).attempt with
  | .ok result =>
    let installationId := result.app.installationId
    let published ← publish installationId verified
    pure ⟨installationId, published⟩
  | .error error => resume verified error

end PackageImporter

/-! ## What is published for whom -/

/-- The installation that a call publishes for. -/
def Call.publishes : Call → Option InstallationId
  | .publishAssets id | .stageImage id _ => some id
  | _ => none

/-- The app is installed under the id, or an incomplete install has it as its target. -/
def World.Carries (w : World) (i : InstallationId) (a : InstalledApp) : Prop :=
  a.installationId = i ∧ (a ∈ w.state.installedApps.apps ∨ w.Pending .install a)

/-- Something carries the id, and nothing with another manifest does. -/
def World.CarriesManifest (w : World) (i : InstallationId) (m : AppManifest) : Prop :=
  (∃ a, w.Carries i a) ∧ ∀ a, w.Carries i a → a.manifest = m

/-- A run that imports the manifest: whatever is published is published for an id that carries it,
and the result names an app that is installed with it. -/
structure Imports (m : AppManifest) (p : Importer InstalledPackage) (is : List Decision)
    (w : World) : Prop where
  published : ∀ e ∈ trace World.handler p is w, ∀ i, e.call.publishes = some i →
    e.before.CarriesManifest i m
  installed : ∀ r w', exec World.handler p is w = (.done r, w') →
    ∃ a ∈ w'.state.installedApps.apps, a.installationId = r.installationId ∧ a.manifest = m

/-- Taking up the incomplete operations turns the live platform into `T`. -/
def World.Resumes (w : World) (T : Platform) : Prop :=
  ∃ P : Platform, w.state = P.state ∧ w.grants = P.grants ∧
    Resumed P (listIncomplete w.journal) T

/-- The payload can be published as far as the package is concerned. -/
def VerifiedPackage.publishable (package : VerifiedPackage) : Bool :=
  match package.manifest.app.runtime.kind with
  | .web => (PackageImporter.requireWebEntrypoints package).isOk
  | .container => (PackageImporter.containerArtifacts package).isOk
  | .native => false

/-- The incomplete install of the same app that is listed first, if there is one, is of the same
manifest. If the incomplete operations can be taken up, the last one on its target installs it. -/
def World.Matches (w : World) (m : AppManifest) : Prop :=
  ∀ op, PackageImporter.selectIncompleteInstall (listIncomplete w.journal) m.appId = some op →
    ∃ a, op.targetApp = some a ∧ a.manifest = m ∧
      ((∃ T, w.Resumes T) → Installs (listIncomplete w.journal) a)

theorem World.CoherentWith.carries {w : World} (hc : w.CoherentWith L S) (ha : w.Carries i a) :
    w.CarriesManifest i a.manifest := by
  have hknown : ∀ b, w.Carries i b → w.Knows L S b := by
    rintro b ⟨-, hb | ⟨op, hop, -, -, ht⟩⟩
    · rw [hc.state] at hb
      exact .inl hb
    · exact .inr (.inr ⟨op, hop, ht⟩)
  refine ⟨⟨a, ha⟩, fun b hb => ?_⟩
  rw [hc.same b a (hknown b hb) (hknown a ha) (hb.1.trans ha.1.symm)]

namespace PackageImporter

variable {w : World} {i : InstallationId} {package : VerifiedPackage}

/-! ## Publishing -/

private theorem stageImages_wp (hΦ : ∀ c, c.publishes = some i → Φ c w) (hdone : Q.done () w)
    (hfailed : ∀ e, Q.failed e w) (hstopped : Q.stopped w) (artifacts : List PackagePath) :
    wp handler ⟨allows, Φ⟩ (stageImages i artifacts) Q w := by
  induction artifacts with
  | nil => exact hdone
  | cons artifact artifacts ih =>
    refine ⟨hΦ _ rfl, fun _ => hstopped, fun d a w' hstep _ => ?_⟩
    cases d with
    | stop => cases hstep
    | ok n => cases hstep; exact ih
    | fail | lost => cases hstep; exact hfailed _

/-- Publishing leaves the world as it is, and can be followed under any guard if the package has
nothing to publish. -/
theorem publish_wp (hΦ : package.publishable = true → ∀ c, c.publishes = some i → Φ c w)
    (hdone : ∀ r, package.publishable = true → Q.done r w) (hfailed : ∀ e, Q.failed e w)
    (hstopped : Q.stopped w) : wp handler ⟨allows, Φ⟩ (publish i package) Q w := by
  unfold publish
  cases hk : package.manifest.app.runtime.kind with
  | native => exact hfailed _
  | web =>
    cases hr : requireWebEntrypoints package with
    | error e => exact hfailed e
    | ok u =>
      have hpub : package.publishable = true := by rw [VerifiedPackage.publishable, hk, hr]; rfl
      refine ⟨hΦ hpub _ rfl, fun _ => hstopped, fun d a w' hstep _ => ?_⟩
      cases d with
      | stop => cases hstep
      | ok n => cases hstep; exact hdone _ hpub
      | fail | lost => cases hstep; exact hfailed _
  | container =>
    cases hr : containerArtifacts package with
    | error e => exact hfailed e
    | ok artifacts =>
      have hpub : package.publishable = true := by rw [VerifiedPackage.publishable, hk, hr]; rfl
      rw [Prog.ofExcept, Prog.ret_bind]
      exact wp.bind (stageImages_wp (hΦ hpub) (hdone _ hpub) hfailed hstopped artifacts)

/-- Without a failure everything that can be published is, for the given id. -/
theorem publish_calm (hpub : package.publishable = true) (i : InstallationId) (w : World) :
    (∃ r, exec handler (publish i package) [] w = (.done r, w)) ∧
      ∃ e ∈ trace handler (publish i package) [] w, e.call.publishes = some i ∧ e.before = w := by
  have hstage : ∀ artifacts (f : Unit → Importer PublishedInstall),
      exec handler (stageImages i artifacts >>= f) [] w = exec handler (f ()) [] w := by
    intro artifacts f
    induction artifacts with
    | nil => rfl
    | cons artifact artifacts ih => exact ih
  rw [VerifiedPackage.publishable] at hpub
  unfold publish
  cases hk : package.manifest.app.runtime.kind with
  | native => simp only [hk] at hpub; cases hpub
  | web =>
    simp only [hk] at hpub
    obtain ⟨u, hu⟩ := Except.isOk_iff.mp hpub
    rw [hu]
    exact ⟨⟨_, rfl⟩, _, mem_cons_self, rfl, rfl⟩
  | container =>
    simp only [hk] at hpub
    obtain ⟨artifacts, hr⟩ := Except.isOk_iff.mp hpub
    rw [hr]
    refine ⟨⟨_, hstage artifacts _⟩, ?_⟩
    cases artifacts with
    | nil =>
      rw [containerArtifacts] at hr
      split at hr
      · cases hr
      · next hne => exact absurd (Except.ok.inj hr) hne
    | cons artifact artifacts => exact ⟨_, mem_cons_self, rfl, rfl⟩

/-! ## Installs that fail -/

/-- What an install of the manifest leaves behind when it fails: the incomplete operations are those
of before, or one more that installs the manifest under an id that no other has. -/
structure FailedInstall (m : AppManifest) (w w' : World) : Prop where
  coherent : w'.Coherent
  state : w'.state = w.state
  grants : w'.grants = w.grants
  listed : listIncomplete w'.journal = listIncomplete w.journal ∨
    ∃ op a l1 l2, op.kind = .install ∧ op.phase = .applying ∧ op.targetApp = some a ∧
      a.manifest = m ∧
      (∀ o ∈ w.journal, ∀ b ∈ o.targetApp, b.installationId ≠ a.installationId) ∧
      listIncomplete w'.journal = l1 ++ op :: l2 ∧
      listIncomplete w.journal = l1 ++ l2

private theorem journal_opened {w1 w' : World} {h : Header} (hw : w.Sound)
    (he : Entered L w h w1 c T)
    (hj : w'.journal = Table.put AppOperation.id w1.journal (h.operation st u)) :
    w'.journal = w.journal ++ [h.operation st u] := by
  have ho := he.opening
  rw [hj, ho.journal]
  refine Table.put_append (fun op hop hid => ho.fresh ?_) rfl
  rw [show h.id = op.id from hid.symm]
  exact hw.issued op hop

theorem install_failed {m : AppManifest} (hc : w.CoherentWith L S) :
    Spec anyAnswer (FailedInstall m w) (AppOperationRunner.install m) (fun r w' => w'.Coherent ∧
      r.app ∈ w'.state.installedApps.apps ∧ r.app.manifest = m) w := by
  apply install_entered hc.sound hc.state hc.grants faulty_anyAnswer
  · intro is hi
    exact ⟨⟨L, S, hc.draw hi⟩, rfl, rfl, .inl rfl⟩
  · intro h T w1 he w' hi
    have hsound := (he.sound hc.sound).interrupted he.staged.ne_update hi
    have hcoherent := hc.run he (hi.touched ..) hsound (.inl rfl)
      (hi.live.1.trans (hc.entered he).state) (hi.live.2.trans (hc.entered he).grants)
    refine ⟨hcoherent, hi.live.1.trans he.opening.state, hi.live.2.trans he.opening.grants, ?_⟩
    cases hi with
    | committed u hd =>
      left
      rw [journal_opened hc.sound he hd.journal, Journal.listIncomplete, filter_append]
      exact congrArg _ (append_nil _)
    | within q u hd =>
      right
      have hj := journal_opened hc.sound he hd.journal
      obtain ⟨l1, l2, hl, hl'⟩ := exists_listIncomplete
        (h.operation (.applying q) u) (hj ▸ hsound.keyed) rfl
      cases he with
      | install hin hnew hA =>
        refine ⟨h.operation (.applying q) u, h.app, l1, l2, hin.kind_eq, rfl, rfl,
          (AppLifecycle.install_app hin.staged_eq).2.1, fun o ho b hb hid => ?_, hj ▸ hl, hl'⟩
        exact hin.freshApp (hid ▸ hc.drawn b (.inr (.inr ⟨o, ho, hb⟩)))
  · intro h T w1 he u w' hd hs hg
    refine ⟨hc.run he (hd.touched ..) ((he.sound hc.sound).committed he.staged.ne_update hd)
      (.inr rfl) hs hg, ?_⟩
    cases he with
    | install hin hnew hA =>
      refine ⟨?_, (AppLifecycle.install_app hin.staged_eq).2.1⟩
      rw [hs]
      exact (Platform.mem_withApp (h := hA)).mpr (.inr rfl)

/-! ## Selecting an operation -/

theorem selectIncompleteInstall_eq_some (h : selectIncompleteInstall ops appId = some op) :
    op ∈ ops ∧ op.kind = .install := by
  refine ⟨mem_of_find?_eq_some h, ?_⟩
  have hmatch := List.find?_some h
  rw [Bool.and_eq_true] at hmatch
  exact of_decide_eq_true hmatch.1

/-- Beside an install of the app nothing that is listed behind it can be selected. -/
theorem selectIncompleteInstall_insert (hk : op.kind = .install) (ht : op.targetApp = some a)
    (ha : a.appId = appId) (h : selectIncompleteInstall (l1 ++ op :: l2) appId = some o) :
    o = op ∨ selectIncompleteInstall (l1 ++ l2) appId = some o := by
  rw [selectIncompleteInstall, List.find?_append] at h
  rw [selectIncompleteInstall, List.find?_append]
  rcases Option.or_eq_some_iff.mp h with h | ⟨-, h⟩
  · exact .inr (by rw [h]; rfl)
  · left
    have hmatch : (decide (op.kind = .install) &&
        (op.targetApp.map fun target => decide (target.identity.appId = appId)).getD false) =
          true := by
      rw [hk, ht]
      exact decide_eq_true ha
    rw [List.find?_cons, hmatch] at h
    exact (Option.some.inj h).symm

/-! ## Every run under the condition -/

/-- What is owed at every call of the importer. -/
def owed (m : AppManifest) (c : Call) (w : World) : Prop :=
  ∀ i, c.publishes = some i → w.CarriesManifest i m

/-- Where a run of the importer that returns has to end. -/
def returned (m : AppManifest) : Post World PackageImportError InstalledPackage where
  done r w := ∃ a ∈ w.state.installedApps.apps, a.installationId = r.installationId ∧ a.manifest = m
  failed _ _ := True
  stopped _ := True

theorem owed_of_permits (κ : Learned) (c : Call) (w : World) (hc : κ.permits opens c) :
    owed m c w := by
  intro i hi
  cases c with
  | publishAssets | stageImage => exact hc.elim
  | _ => cases hi

/-- The operation that is selected has the manifest, and its target stays if operations can be taken
up. -/
private theorem FailedInstall.selected (hc : w.CoherentWith L S) (hf : FailedInstall m w w')
    (hw : w.Matches m)
    (hsel : selectIncompleteInstall (listIncomplete w'.journal) m.appId = some op) :
    ∃ a, op.targetApp = some a ∧ a.manifest = m ∧
      ∀ T, Resumed L (listIncomplete w'.journal) T → a ∈ T.apps := by
  have hold : ∀ op, selectIncompleteInstall (listIncomplete w.journal) m.appId = some op →
      ∃ a, op.targetApp = some a ∧ a.manifest = m ∧
        ∀ T, Resumed L (listIncomplete w.journal) T → a ∈ T.apps := by
    intro op hop
    obtain ⟨a, ht, hm, hT⟩ := hw op hop
    refine ⟨a, ht, hm, fun T hR => ?_⟩
    obtain ⟨l1, o, l2, hl, hk, hp, ho, hlater⟩ := hT ⟨T, L, hc.state, hc.grants, hR⟩
    rw [hl] at hR
    exact (hR.insert ho hk hp).2 hlater
  rcases hf.listed with hl | ⟨o, a, l1, l2, hk, hp, ht, hm, hfresh, hl, hl'⟩
  · rw [hl] at hsel ⊢
    exact hold op hsel
  · have happ : a.appId = m.appId := hm ▸ a.appId_eq
    rw [hl] at hsel ⊢
    rcases selectIncompleteInstall_insert hk ht happ hsel with rfl | hsel
    · refine ⟨a, ht, hm, fun T hR => (hR.insert ht hk hp).2 fun o ho => hfresh o ?_⟩
      have hmem : o ∈ listIncomplete w.journal := hl' ▸ mem_append_right _ ho
      exact (Journal.mem_listIncomplete.mp hmem).1
    · obtain ⟨b, hb, hbm, hbT⟩ := hold op (hl' ▸ hsel)
      refine ⟨b, hb, hbm, fun T hR => ?_⟩
      obtain ⟨T', hR', hsub⟩ := (hR.insert ht hk hp).1
      exact hsub (hbT T' (hl' ▸ hR'))

theorem resume_wp {L S : Platform} {w' : World} (hc : w.CoherentWith L S)
    (hf : FailedInstall m w w') (hw : package.publishable = true → w.Matches m)
    (happ : package.manifest.app.appId = m.appId) (error : AppOperationRunnerError) :
    wp handler ⟨anyAnswer, owed m⟩ (resume package error) (returned m) w' := by
  obtain ⟨L', S', hc'⟩ := hf.coherent
  refine ⟨fun _ hi => (nomatch hi), fun _ => trivial, fun d answer w1 hstep _ => ?_⟩
  cases d with
  | stop => cases hstep
  | fail | lost => cases hstep; trivial
  | ok n =>
    cases hstep
    simp only [Prog.bind, Prog.ofExcept, Prog.ret_bind, happ]
    split
    · trivial
    · next op hsel =>
      obtain ⟨hlisted, hkind⟩ := selectIncompleteInstall_eq_some hsel
      obtain ⟨hop, hterm⟩ := Journal.mem_listIncomplete.mp hlisted
      obtain ⟨h, st, u, rfl, -⟩ := hc'.sound.entries op hop
      have hselected := fun hpub => hf.selected hc (hw hpub) hsel
      apply wp.bind
      apply publish_wp
      · -- the target of the operation carries the id, so nothing else does
        intro hpub c hpc i hi
        cases hpc.symm.trans hi
        obtain ⟨a, ht, rfl, -⟩ := hselected hpub
        refine hc'.carries ⟨?_, .inr ⟨_, hop, hterm, hkind, ht⟩⟩
        cases ht
        rfl
      · intro r hpub
        obtain ⟨a, ht, hm, hT⟩ := hselected hpub
        have hspec := recoverIncomplete_resumed hc'.sound
          (hf.state.trans hc.state) (hf.grants.trans hc.grants) (.inl faulty_anyAnswer)
        have hdisciplined : Disciplined False (fun _ _ => True) {}
            recoverIncomplete := recoverIncomplete_disciplined
        refine wp.bind (wp.mapError (wp.mono (hdisciplined.guarded hspec (fun _ h => h)
          owed_of_permits) ?_ (fun _ _ _ => trivial) fun _ _ => trivial))
        rintro _ w2 ⟨T, hR, hs, -⟩
        refine ⟨a, ?_, ?_, hm⟩
        · rw [hs]
          exact hT T hR
        · cases ht
          rfl
      · exact fun _ => trivial
      · trivial

/-- Under the condition everything that is published is owed to the package, and what is returned is
installed. -/
theorem install_wp (P : Primitives) {root : PackageRoot P.Bytes} {m : AppManifest}
    (hc : w.CoherentWith L S) (hv : verify P store path root = .ok package)
    (hm : package.toAppManifest = .ok m) (hw : package.publishable = true → w.Matches m) :
    wp handler ⟨anyAnswer, owed m⟩ (install P store path root) (returned m) w := by
  have happ : package.manifest.app.appId = m.appId :=
    (PackageAppManifest.toAppManifest_describes hm).appId.symm
  have hinstall := (install_disciplined (κ := {}) trivial m).guarded
    (install_failed hc) (fun _ h => h.coherent.elim fun _ ⟨_, h⟩ => h.sound)
    (owed_of_permits (m := m))
  rw [install, hv, Prog.ofExcept, Prog.ret_bind, hm, Prog.ofExcept, Prog.ret_bind]
  refine wp.bind (wp.attempt (wp.mono hinstall ?_ ?_ fun _ _ => trivial))
  · rintro r w' ⟨⟨L', S', hc'⟩, happ', rfl⟩
    apply wp.bind
    apply publish_wp
    · intro _ c hpc i hi
      cases hpc.symm.trans hi
      exact hc'.carries ⟨rfl, .inl happ'⟩
    · exact fun _ _ => ⟨r.app, happ', rfl, rfl⟩
    · exact fun _ => trivial
    · trivial
  · rintro e w' ⟨-, hf⟩
    exact resume_wp hc hf hw happ e

/-! ## Runs that need the condition -/

/-- An install can fail before anything is entered: the clock may be wrong. -/
private theorem install_refused (m : AppManifest) (w : World) : ∃ is e w',
    exec handler (AppOperationRunner.install m) is w = (.failed e, w') ∧
    (trace handler (AppOperationRunner.install m) is w).length = is.length ∧
    w' = { w with issued := draw w.issued 0 :: w.issued } := by
  cases hl : AppLifecycle.install ⟨draw w.issued 0⟩ m w.state with
  | error e =>
    refine ⟨[.ok 0, .ok 0], .appLifecycle e, _, ?_, ?_, rfl⟩
    · simp [AppOperationRunner.install, live, newUuid,
        Prog.perform, exec, handler, respond, hl, Prog.ofExcept]
    · simp [AppOperationRunner.install, live, newUuid,
        Prog.perform, trace, handler, respond, hl, Prog.ofExcept]
  | ok r =>
    refine ⟨[.ok 0, .ok 0, .fail], .clock .beforeEpoch, _, ?_, ?_, rfl⟩
    · simp [AppOperationRunner.install, live, newUuid,
        now, Prog.perform, exec, handler, respond, hl, Prog.ofExcept]
    · simp [AppOperationRunner.install, live, newUuid,
        now, Prog.perform, trace, handler, respond, hl,
        Prog.ofExcept]

/-- The importer publishes for the operation that is selected, and returns its id once the
operations have been taken up. -/
private theorem resume_calm {m : AppManifest} (hpub : package.publishable = true)
    (happ : package.manifest.app.appId = m.appId) (error : AppOperationRunnerError)
    (hsel : selectIncompleteInstall (listIncomplete w.journal) m.appId = some op) :
    (∃ e ∈ trace handler (resume package error) [] w,
      e.call.publishes = some op.installationId ∧ e.before = w) ∧
    (w.Sound → w.InRange → ∀ T, w.Resumes T → ∃ r w', r.installationId = op.installationId ∧
      exec handler (resume package error) [] w = (.done r, w') ∧ w'.state = T.state) := by
  obtain ⟨⟨r, hr⟩, e, he, hcall, hbefore⟩ := publish_calm hpub op.installationId w
  have hstep : handler.step .listIncomplete default w =
      some (.ok (listIncomplete w.journal), w) := rfl
  constructor
  · refine ⟨e, ?_, hcall, hbefore⟩
    simp only [resume, Prog.perform, Prog.call_bind, Prog.ret_bind, trace, hstep, Prog.ofExcept,
      happ, hsel, headD_nil, tail_nil]
    rw [trace_bind]
    exact mem_cons_of_mem _ (mem_append_left _ he)
  · rintro hsound hrange T ⟨P, hs, hg, hR⟩
    obtain ⟨report, w', hrec, hs', -⟩ := hR.recovers hsound hs hg hrange
    refine ⟨⟨op.installationId, r⟩, w', rfl, ?_, hs'⟩
    simp only [resume, Prog.perform, Prog.call_bind, Prog.ret_bind, exec, hstep, Prog.ofExcept,
      happ, hsel, headD_nil, tail_nil]
    exact (exec_bind_nil _ hr).trans (exec_bind_nil _ (exec_mapError _ hrec))

theorem matches_of_imports (P : Primitives) {root : PackageRoot P.Bytes} {m : AppManifest}
    (hc : w.CoherentWith L S) (hrange : w.InRange)
    (hv : verify P store path root = .ok package)
    (hm : package.toAppManifest = .ok m) (hpub : package.publishable = true)
    (h : ∀ is, Imports m (install P store path root) is w) : w.Matches m := by
  have happ : package.manifest.app.appId = m.appId :=
    (PackageAppManifest.toAppManifest_describes hm).appId.symm
  intro op hsel
  obtain ⟨hlisted, hkind⟩ := selectIncompleteInstall_eq_some hsel
  obtain ⟨hop, hterm⟩ := Journal.mem_listIncomplete.mp hlisted
  obtain ⟨hd, st, u, rfl, -⟩ := hc.sound.entries op hop
  -- the run in which the install fails at the clock and nothing fails afterwards
  obtain ⟨is, e, w', hex, hlen, rfl⟩ := install_refused m w
  have hc' : ({ w with issued := draw w.issued 0 :: w.issued } : World).CoherentWith L S :=
    hc.draw fun _ h => mem_cons_of_mem _ h
  obtain ⟨⟨ev, hev, hcall, hbefore⟩, hdone⟩ := resume_calm
    (w := { w with issued := draw w.issued 0 :: w.issued }) hpub happ e hsel
  have hrun := h is
  rw [install, hv, Prog.ofExcept, Prog.ret_bind, hm, Prog.ofExcept, Prog.ret_bind] at hrun
  obtain ⟨hexec, htrace⟩ := exec_attempt_bind handler hex
  rw [remaining, hlen, drop_length] at hexec htrace
  refine ⟨hd.app, rfl, ?_, ?_⟩
  · have hcarries := (hrun.published ev (htrace hev) _ hcall).2
    rw [hbefore] at hcarries
    exact hcarries hd.app ⟨rfl, .inr ⟨_, hop, hterm, hkind, rfl⟩⟩
  · rintro ⟨T, hT⟩
    obtain ⟨r, w'', hid, hexec', hs⟩ := hdone hc'.sound hrange T hT
    obtain ⟨b, hb, hbid, -⟩ := hrun.installed r w'' (hexec.trans hexec')
    obtain ⟨P', -, -, hR⟩ := hT
    rw [hs] at hb
    rcases hR.mem_cases hb with ⟨-, hnone⟩ | hinstalls
    · exact absurd (hbid.trans hid).symm (hnone _ hlisted hd.app rfl)
    · obtain ⟨l1, o, l2, hl, -, -, ht, -⟩ := id hinstalls
      have ho : o ∈ listIncomplete w.journal := hl ▸ mem_append_right _ mem_cons_self
      rw [← hc.same b hd.app (.inr (.inr ⟨o, (Journal.mem_listIncomplete.mp ho).1, ht⟩))
        (.inr (.inr ⟨_, hop, rfl⟩)) (hbid.trans hid)]
      exact hinstalls

/-- After every run, importing a package does as it should whatever fails, if and only if there is
nothing to publish or the incomplete install that would be selected is the package's own and is not
taken back by recovery. -/
theorem install_imports (w : World) (hw : w.Initial) (es : List RunnerEvent) (P : Primitives)
    (store : TrustStore) (path : String) (root : PackageRoot P.Bytes) (package : VerifiedPackage)
    (m : AppManifest) (hv : verify P store path root = .ok package)
    (hm : package.toAppManifest = .ok m) :
    (∀ is, Imports m (install P store path root) is (after RunnerEvent.next es w)) ↔
      package.publishable = false ∨ (after RunnerEvent.next es w).Matches m := by
  obtain ⟨⟨L, S, hc⟩, hrange⟩ := coherent_after hw es
  constructor
  · intro h
    cases hpub : package.publishable with
    | false => exact .inl rfl
    | true => exact .inr (matches_of_imports P hc hrange hv hm hpub h)
  · intro h is
    have hmatches : package.publishable = true → (after RunnerEvent.next es w).Matches m := by
      intro hpub
      exact h.resolve_left (by rw [hpub]; nofun)
    have hwp := install_wp P hc hv hm hmatches
    refine ⟨wp_trace hwp fun _ _ => trivial, fun r w' hx => ?_⟩
    have hend : Post.holds _ _ (exec World.handler (install P store path root) is _).1 :=
      wp_exec hwp fun _ _ => trivial
    rw [hx] at hend
    exact hend

private theorem notes_package : ∃ package m, verify .plain releaseKey "/notes"
        (.directory (notesEntries notesIndex) true) = .ok package ∧
      package.toAppManifest = .ok m ∧ m.version = ⟨1, 0, 0⟩ := by
  have hversion : (verify .plain releaseKey "/notes"
      (.directory (notesEntries notesIndex) true)).toOption.map
        (fun package => package.manifest.app.version) = some ⟨1, 0, 0⟩ := by decide +kernel
  obtain ⟨package, hv, hversion⟩ := Option.map_eq_some_iff.mp hversion
  obtain ⟨m, hm⟩ := Except.isOk_iff.mp package.manifest.app_ok
  exact ⟨package, m, Except.toOption_eq_some.mp hv, hm,
    (PackageAppManifest.toAppManifest_describes hm).version.trans hversion⟩

/-- Importing a package on a new platform. -/
theorem install_imports_notes : ∃ package m, verify .plain releaseKey "/notes"
        (.directory (notesEntries notesIndex) true) = .ok package ∧
      package.toAppManifest = .ok m ∧
      ∀ is, Imports m (install .plain releaseKey "/notes"
        (.directory (notesEntries notesIndex) true)) is {} := by
  obtain ⟨package, m, hv, hm, -⟩ := notes_package
  refine ⟨package, m, hv, hm, ?_⟩
  exact (install_imports {} .default [] .plain _ _ _ package m hv hm).mpr
    (.inr fun _ h => nomatch h)

def olderNotes : AppManifest := { AppManifest.notes with version := ⟨0, 9, 0⟩ }

/-- An install of an older version was stopped. -/
def staleInstall : World :=
  after RunnerEvent.next [.call (.install olderNotes) (List.replicate 7 (.ok 0) ++ [.stop])] {}

/-- When the install of the new version fails at the clock, its payload is published for the older
one, and that one is what is installed in the end. -/
theorem import_completes_stale_install :
    ∃ package m, verify .plain releaseKey "/notes"
        (.directory (notesEntries notesIndex) true) = .ok package ∧
      package.toAppManifest = .ok m ∧
      (∃ e ∈ trace World.handler (install .plain releaseKey "/notes"
          (.directory (notesEntries notesIndex) true)) [.ok 0, .ok 0, .fail] staleInstall,
        e.call.publishes = some ⟨0⟩ ∧ ¬e.before.CarriesManifest ⟨0⟩ m) ∧
      ∃ r w', exec World.handler (install .plain releaseKey "/notes"
          (.directory (notesEntries notesIndex) true)) [.ok 0, .ok 0, .fail] staleInstall =
          (.done r, w') ∧
        ∀ a ∈ w'.state.installedApps.apps, a.manifest ≠ m := by
  obtain ⟨package, m, hv, hm, hversion⟩ := notes_package
  have hne : olderNotes ≠ m := by
    rintro rfl
    cases hversion
  refine ⟨package, m, hv, hm, ?_, ?_⟩
  · have hpublished : ∃ e ∈ trace World.handler (install .plain releaseKey "/notes"
          (.directory (notesEntries notesIndex) true)) [.ok 0, .ok 0, .fail] staleInstall,
        e.call.publishes = some ⟨0⟩ ∧ ∃ op ∈ e.before.journal, op.isTerminal = false ∧
          op.kind = .install ∧ (op.targetApp.map fun a => (a.installationId, a.manifest)) =
            some (⟨0⟩, olderNotes) := by decide +kernel
    obtain ⟨e, he, hcall, op, hop, hterm, hkind, ht⟩ := hpublished
    obtain ⟨a, ha, hpair⟩ := Option.map_eq_some_iff.mp ht
    obtain ⟨hid, hold⟩ := Prod.mk.inj hpair
    refine ⟨e, he, hcall, fun hcarries => hne ?_⟩
    exact hold ▸ hcarries.2 a ⟨hid, .inr ⟨op, hop, hterm, hkind, ha⟩⟩
  · have hinstalled : (exec World.handler (install .plain releaseKey "/notes"
          (.directory (notesEntries notesIndex) true)) [.ok 0, .ok 0, .fail] staleInstall).1 =
          .done ⟨⟨0⟩, .web⟩ ∧
        ∀ a ∈ (exec World.handler (install .plain releaseKey "/notes"
          (.directory (notesEntries notesIndex) true)) [.ok 0, .ok 0, .fail]
            staleInstall).2.state.installedApps.apps, a.manifest = olderNotes := by decide +kernel
    generalize exec World.handler _ _ _ = out at hinstalled ⊢
    obtain ⟨_, w'⟩ := out
    obtain ⟨rfl, hold⟩ := hinstalled
    exact ⟨_, w', rfl, fun a ha => hold a ha ▸ hne⟩

end PackageImporter

end Rumahl
