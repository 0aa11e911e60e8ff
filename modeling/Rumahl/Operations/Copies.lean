import Rumahl.Effect.Concurrent
import Rumahl.Operations.RunnerRuns

/-!
# The copies a runner works on

A runner never stores an operation that it made up. It works on copies: operations that it created
or that the journal gave it. What it stores is one transition of its latest copy, which then is its
latest copy. `discipline` states this as a protocol. `copying` asks less: the copy may be any that
the runner ever had.
-/

namespace Rumahl

open Effect AppLifecycle

/-- A new operation. -/
inductive AppOperation.Created (op : AppOperation) : Prop
  | new {i installation k resources t} (h : AppOperation.new i installation k resources t = .ok op)
  | forApp {i app k t} (h : AppOperation.forApp i app k t = .ok op)

/-- The copies that a runner has got, the latest first, and the times that the clock has told it. -/
structure Learned where
  copies : List AppOperation := []
  times : List UnixTimestamp := []

open Learned

namespace Learned

/-- The copy of an operation that counts. -/
def latest (κ : Learned) (i : AppOperationId) : Option AppOperation :=
  Table.find AppOperation.id κ.copies i

def learn (κ : Learned) : (c : Call) → Answer c → Learned
  | .now, .ok t => { κ with times := t :: κ.times }
  | .createOperation op, .ok () => { κ with copies := op :: κ.copies }
  | .storeTransition op, .ok () => { κ with copies := op :: κ.copies }
  | .findOperation _, .ok (some op) => { κ with copies := op :: κ.copies }
  | .listIncomplete, .ok ops => { κ with copies := ops ++ κ.copies }
  | _, _ => κ

/-- The journal lists an operation once. -/
def expects : (c : Call) → Answer c → Prop
  | .listIncomplete, .ok ops => Table.Keyed AppOperation.id ops
  | _, _ => True

/-- A transition is taken at a time of the clock, or at the time of the last one if the clock is
behind. Clients are registered for apps that the staged platform has. Not every program `opens`
operations. Publishing is not for the runner. -/
def permits (opens : Prop) (κ : Learned) : Call → Prop
  | .createOperation op => opens ∧ op.Created
  | .storeTransition op' => ∃ op t transition, κ.latest op'.id = some op ∧
      (t ∈ κ.times ∨ t = op.updatedAt) ∧ op.transition t transition = .ok op'
  | .provider _ _ (.registerOrRecoverInstalledApp staged i _) =>
    (staged.installedApps.getByInstallationId i).isSome = true
  | .publishAssets _ | .stageImage .. => False
  | _ => True

/-- What is stored is a transition of some copy. -/
def permitsAny (κ : Learned) : Call → Prop
  | .createOperation op => op.Created
  | .storeTransition op' => ∃ op ∈ κ.copies, ∃ t transition, op.transition t transition = .ok op'
  | _ => True

/-- `op'` has taken the place of the copy `op`; the copies of other operations are as before. -/
structure Moved (κ : Learned) (op : AppOperation) (κ' : Learned) (op' : AppOperation) : Prop where
  id : op'.id = op.id
  latest : κ'.latest op'.id = some op'
  others : ∀ i, i ≠ op.id → κ'.latest i = κ.latest i

end Learned

def discipline (opens : Prop) : Protocol Call Answer Learned :=
  ⟨permits opens, expects, learn⟩

def copying : Protocol Call Answer Learned := ⟨permitsAny, expects, learn⟩

/-- The program follows the discipline and ends in `Ψ`. -/
abbrev Disciplined (opens : Prop) (Ψ : Learned → α → Prop) (κ : Learned)
    (p : Prog Call Answer ε α) : Prop :=
  p.Follows (discipline opens) Ψ κ

/-- The program stores only what comes of its copies. -/
def Copying (p : Prog Call Answer ε α) : Prop := p.Follows copying (fun _ _ => True) {}

theorem Disciplined.copying (h : Disciplined opens Ψ {} p) : Copying p := by
  refine (h.weaken fun κ c hc => ?_).mono fun _ _ _ => trivial
  unfold permitsAny
  split
  · exact hc.2
  · obtain ⟨op, t, transition, hf, -, ht⟩ := hc
    exact ⟨op, List.mem_of_find?_eq_some hf, t, transition, ht⟩
  · trivial

open Disciplined

namespace Learned

theorem latest_cons {κ : Learned} : latest ⟨op :: κ.copies, ts⟩ op.id = some op := by
  simp [latest, Table.find]

theorem latest_cons_ne {κ : Learned} (h : i ≠ op.id) :
    latest ⟨op :: κ.copies, ts⟩ i = κ.latest i := by
  simp [latest, Table.find, h.symm]

theorem latest_append {κ : Learned} (hk : Table.Keyed AppOperation.id ops) (hop : op ∈ ops) :
    latest ⟨ops ++ κ.copies, ts⟩ op.id = some op := by
  have hf : Table.find AppOperation.id ops op.id = some op := (Table.find_eq_some hk).mpr ⟨hop, rfl⟩
  rw [Table.find] at hf
  rw [latest, Table.find, List.find?_append, hf]
  rfl

theorem Moved.trans (h : Moved κ op κ1 op1) (h' : Moved κ1 op1 κ2 op2) : Moved κ op κ2 op2 where
  id := h'.id.trans h.id
  latest := h'.latest
  others i hi := (h'.others i (h.id ▸ hi)).trans (h.others i hi)

end Learned

/-- After a first part that moves a copy on, a second part goes on with the copy it moved to. -/
theorem Disciplined.then_moved (hp : Disciplined opens (κ.Moved op) κ p)
    (hf : ∀ κ' op', κ'.latest op'.id = some op' → Disciplined opens (κ'.Moved op') κ' (f op')) :
    Disciplined opens (κ.Moved op) κ (p >>= f) :=
  hp.bind fun _ _ h => (hf _ _ h.latest).mono fun _ _ h' => h.trans h'

theorem UnixTimestamp.max_eq (a b : UnixTimestamp) : a.max b = a ∨ a.max b = b := by
  rcases Nat.le_total a.seconds b.seconds with h | h
  · exact .inr (congrArg UnixTimestamp.mk (Nat.max_eq_right h))
  · exact .inl (congrArg UnixTimestamp.mk (Nat.max_eq_left h))

theorem AppLifecycle.register_has (h : register app s = .ok s') :
    (s'.installedApps.getByInstallationId app.installationId).isSome = true := by
  simp only [register, Except.bind_eq_ok, Except.mapError_eq_ok,
    InstalledAppRegistry.register_eq_ok, PlatformRegistrar.applyRegistration_eq_ok] at h
  obtain ⟨r, -, -, -, -, -, apps, ⟨-, rfl⟩, -, -, rfl⟩ := h
  simp [InstalledAppRegistry.getByInstallationId, PlatformState.append]

namespace AppOperationRunner

variable {opens : Prop} {κ : Learned} {op : AppOperation}

/-! ## Single calls -/

theorem now_disciplined : Disciplined opens
    (fun κ' t => κ' = { κ with times := t :: κ.times }) κ now := by
  refine Prog.Follows.performOk _ trivial fun a t _ ha => ?_
  subst ha
  rfl

theorem newUuid_disciplined : Disciplined opens (fun κ' _ => κ' = κ) κ newUuid :=
  ⟨trivial, fun _ _ => rfl⟩

theorem live_disciplined : Disciplined opens (fun κ' _ => κ' = κ) κ live :=
  ⟨trivial, fun _ _ => rfl⟩

theorem setLive_disciplined (i : AppOperationId) (s : PlatformState) (g : InMemoryGrantStore) :
    Disciplined opens (fun κ' _ => κ' = κ) κ (setLive i s g) := ⟨trivial, fun _ _ => rfl⟩

theorem createOperation_disciplined (ho : opens) (h : op.Created) :
    Disciplined opens (fun κ' _ => κ' = { κ with copies := op :: κ.copies }) κ
      (createOperation op) := by
  refine Prog.Follows.performOk _ ⟨ho, h⟩ fun a t _ ha => ?_
  subst ha
  rfl

theorem provider_disciplined (hq : κ.permits opens (.provider op.id r q)) :
    Disciplined opens (fun κ' _ => κ' = κ) κ (provider op r wrap q) := by
  refine Prog.Follows.performOk _ hq fun a _ _ _ => rfl

theorem target_disciplined : Disciplined opens (fun κ' app => κ' = κ ∧ op.targetApp = some app) κ
    (target op) := by
  unfold target
  split
  · trivial
  · next app h => exact ⟨rfl, h⟩

/-- A transition of the latest copy, whenever the clock says it is. -/
theorem advance_disciplined (hop : κ.latest op.id = some op) (transition : Transition)
    (hf : ∀ t, f t = op.transition t transition) :
    Disciplined opens (κ.Moved op) κ (advance op f) := by
  refine Prog.Follows.bind (Ψ := fun κ' t => κ'.copies = κ.copies ∧
    (t ∈ κ'.times ∨ t = op.updatedAt)) (now_disciplined.bind ?_) ?_
  · rintro _ t rfl
    refine ⟨rfl, ?_⟩
    rcases t.max_eq op.updatedAt with h | h
    · rw [h]
      exact .inl List.mem_cons_self
    · exact .inr h
  · intro κ1 t ⟨hc, ht⟩
    refine Prog.Follows.bind (Ψ := fun κ' op' => κ' = κ1 ∧ op.transition t transition = .ok op')
      (.ofExcept _ fun op' h => ⟨rfl, by rw [← hf, h]⟩) ?_
    rintro κ1 op' ⟨rfl, htr⟩
    have hid : op'.id = op.id := (AppOperation.transition_precedes htr).id
    have hlatest : κ1.latest op'.id = some op := by
      rw [hid, latest, hc]
      exact hop
    refine Prog.Follows.bind (Ψ := fun κ' _ => κ' = { κ1 with copies := op' :: κ1.copies })
      (Prog.Follows.performOk _ ⟨op, t, transition, hlatest, ht, htr⟩ fun a _ _ ha => ?_) ?_
    · subst ha
      rfl
    · rintro _ _ rfl
      refine ⟨hid, latest_cons, fun i hi => ?_⟩
      rw [latest_cons_ne (hid ▸ hi), latest, hc]
      rfl

/-! ## Loops -/

/-- Working on a resource teaches nothing. -/
def Works (opens : Prop) (work : AppOperation → AppOperationResource → Runner Unit) : Prop :=
  ∀ κ op r, Disciplined opens (fun κ' _ => κ' = κ) κ (work op r)

theorem applyResource_works
    (h : (staged.installedApps.getByInstallationId app.installationId).isSome = true)
    (g : InMemoryGrantStore) : Works opens (applyResource app staged g) := by
  intro κ op r
  cases r with
  | appDatabases | runtimeInstance | runtimeActivation | platformSnapshot =>
    exact provider_disciplined trivial
  | oidcClient =>
    refine Prog.Follows.bind (provider_disciplined h) ?_
    rintro κ registration rfl
    split
    · rfl
    · exact provider_disciplined trivial

theorem removeResource_works (app : InstalledApp) (staged : PlatformState)
    (g : InMemoryGrantStore) : Works opens (removeResource app staged g) := by
  intro κ op r
  cases r with
  | appDatabases | runtimeInstance | runtimeActivation | platformSnapshot =>
    exact provider_disciplined trivial
  | oidcClient =>
    refine Prog.Follows.bind (provider_disciplined trivial) ?_
    rintro κ _ rfl
    refine Prog.Follows.bind (provider_disciplined trivial) ?_
    rintro κ _ rfl
    exact provider_disciplined trivial

variable {work : AppOperation → AppOperationResource → Runner Unit}

theorem finishStep_disciplined (hw : Works opens work) (hop : κ.latest op.id = some op)
    (r : AppOperationResource) : Disciplined opens (κ.Moved op) κ (finishStep work op r) := by
  refine (hw κ op r).bind ?_
  rintro κ _ rfl
  exact advance_disciplined hop (.completeResource r) fun _ => rfl

theorem finishCompensationStep_disciplined (hw : Works opens work) (hop : κ.latest op.id = some op)
    (r : AppOperationResource) :
    Disciplined opens (κ.Moved op) κ (finishCompensationStep work op r) := by
  refine (hw κ op r).bind ?_
  rintro κ _ rfl
  exact advance_disciplined hop (.completeResourceCompensation r) fun _ => rfl

theorem applySteps_disciplined (hw : Works opens work) (steps : List AppOperationStep)
    (hop : κ.latest op.id = some op) :
      Disciplined opens (κ.Moved op) κ (applySteps work steps op) := by
  induction steps generalizing κ op with
  | nil => exact ⟨rfl, hop, fun _ _ => rfl⟩
  | cons step steps ih =>
    rw [applySteps]
    split
    · exact ih hop
    · refine then_moved (advance_disciplined hop (.beginResource step.resource) fun _ => rfl)
        fun κ1 op1 h1 => ?_
      exact then_moved (finishStep_disciplined hw h1 step.resource) fun _ _ h2 => ih h2
    · exact then_moved (finishStep_disciplined hw hop step.resource) fun _ _ h1 => ih h1
    · trivial

theorem compensateSteps_disciplined (hw : Works opens work) (steps : List AppOperationStep)
    (hop : κ.latest op.id = some op) :
    Disciplined opens (κ.Moved op) κ (compensateSteps work steps op) := by
  induction steps generalizing κ op with
  | nil => exact ⟨rfl, hop, fun _ _ => rfl⟩
  | cons step steps ih =>
    rw [compensateSteps]
    split
    · exact ih hop
    · exact ih hop
    · refine then_moved
        (advance_disciplined hop (.beginResourceCompensation step.resource) fun _ => rfl)
        fun κ1 op1 h1 => ?_
      exact then_moved (finishCompensationStep_disciplined hw h1 step.resource) fun _ _ h2 => ih h2
    · exact then_moved (finishCompensationStep_disciplined hw hop step.resource)
        fun _ _ h1 => ih h1
    · trivial

/-! ## Operations -/

/-- The platform has the target of the operation. -/
def HasTarget (op : AppOperation) (s : PlatformState) : Prop :=
  ∀ app ∈ op.targetApp, (s.installedApps.getByInstallationId app.installationId).isSome = true

/-- Only the copy of one operation has changed. -/
def OnlyMoved (κ : Learned) (i : AppOperationId) (κ' : Learned) (_ : α) : Prop :=
  ∀ j, j ≠ i → κ'.latest j = κ.latest j

theorem validateOperationPlan_disciplined (app : InstalledApp) :
    Disciplined opens (fun κ' _ => κ' = κ) κ (validateOperationPlan op app) := by
  refine Prog.Follows.bind (Ψ := fun κ' _ => κ' = κ) (.ofExcept _ fun _ _ => rfl) ?_
  rintro κ expected rfl
  split
  · trivial
  · rfl

/-- How every operation ends: the last transition, and then the live state. -/
theorem finish_disciplined (hp : Disciplined opens (κ.Moved op) κ p) (transition : Transition)
    {f : AppOperation → UnixTimestamp → Except AppOperationError AppOperation}
    (hf : ∀ op t, f op t = op.transition t transition) (s : PlatformState)
      (g : InMemoryGrantStore) :
    Disciplined opens (OnlyMoved κ op.id) κ (do
      let op ← p
      let op ← advance op (f op)
      setLive op.id s g) := by
  refine hp.bind fun κ1 op1 h1 => ?_
  refine (advance_disciplined h1.latest transition (hf op1)).bind fun κ2 op2 h2 => ?_
  refine (setLive_disciplined _ s g).mono ?_
  rintro κ3 _ rfl
  exact (h1.trans h2).others

theorem applyInstall_disciplined (hop : κ.latest op.id = some op) {staged : PlatformState}
    (hs : HasTarget op staged) (g : InMemoryGrantStore) :
    Disciplined opens (OnlyMoved κ op.id) κ (applyInstall op staged g) := by
  refine target_disciplined.bind ?_
  rintro κ app ⟨rfl, happ⟩
  refine (validateOperationPlan_disciplined app).bind ?_
  rintro κ _ rfl
  exact finish_disciplined
    (applySteps_disciplined (applyResource_works (hs app happ) g) op.steps hop) .commit
    (fun _ _ => rfl) staged g

theorem applyUninstall_disciplined (hop : κ.latest op.id = some op) (staged : PlatformState)
    (g : InMemoryGrantStore) : Disciplined opens (OnlyMoved κ op.id) κ
      (applyUninstall op staged g) := by
  refine target_disciplined.bind ?_
  rintro κ app ⟨rfl, -⟩
  refine (validateOperationPlan_disciplined app).bind ?_
  rintro κ _ rfl
  exact finish_disciplined
    (applySteps_disciplined (removeResource_works app staged g) op.steps hop) .commit
    (fun _ _ => rfl) staged g

theorem stageInstallTarget_disciplined (s : PlatformState) :
    Disciplined opens (fun κ' staged => κ' = κ ∧ HasTarget op staged) κ
      (stageInstallTarget op s) := by
  refine target_disciplined.bind ?_
  rintro κ app ⟨rfl, happ⟩
  have htarget : ∀ staged, (staged.installedApps.getByInstallationId app.installationId).isSome →
      HasTarget op staged := by
    intro staged hs a ha
    cases happ.symm.trans ha
    exact hs
  split
  · next existing hf =>
    split
    · exact ⟨rfl, htarget s (by rw [hf]; rfl)⟩
    · trivial
  · exact .ofExcept _ fun staged h => ⟨rfl, htarget staged (register_has h)⟩

theorem stageWithoutTarget_disciplined (s : PlatformState) (g : InMemoryGrantStore) :
    Disciplined opens (fun κ' _ => κ' = κ) κ (stageWithoutTarget op s g) := by
  refine target_disciplined.bind ?_
  rintro κ app ⟨rfl, -⟩
  split
  · split
    · exact .ofExcept _ fun _ _ => rfl
    · trivial
  · split
    · trivial
    · rfl

theorem compensateInstallOperation_disciplined (hop : κ.latest op.id = some op) :
    Disciplined opens (OnlyMoved κ op.id) κ (compensateInstallOperation op) := by
  refine target_disciplined.bind ?_
  rintro κ app ⟨rfl, -⟩
  refine (validateOperationPlan_disciplined app).bind ?_
  rintro κ _ rfl
  refine live_disciplined.bind ?_
  rintro κ ⟨s, g⟩ rfl
  refine (stageWithoutTarget_disciplined s g).bind ?_
  rintro κ ⟨staged, g'⟩ rfl
  exact finish_disciplined (compensateSteps_disciplined (removeResource_works app staged g')
    op.steps.reverse hop) .finishCompensation (fun _ _ => rfl) staged g'

/-- How an install and an uninstall begin: a new operation is the latest copy. -/
private theorem open_disciplined {f : AppOperation → Runner α} (ho : opens) (app : InstalledApp)
    (kind : AppOperationKind)
    (hf : ∀ κ op, κ.latest op.id = some op → op.targetApp = some app →
      Disciplined opens Ψ κ (f op)) :
    Disciplined opens Ψ κ (do
      let startedAt ← now
      let operationId ← newUuid
      let op ← Prog.ofExcept .operation (AppOperation.forApp ⟨operationId⟩ app kind startedAt)
      createOperation op
      f op) := by
  refine now_disciplined.bind ?_
  rintro _ t rfl
  refine newUuid_disciplined.bind ?_
  rintro _ n rfl
  have hfor := Header.forApp ⟨⟨n⟩, kind, t, app⟩
  simp only [hfor, Prog.ofExcept, Prog.ret_bind]
  refine (createOperation_disciplined ho (.forApp hfor)).bind ?_
  rintro _ _ rfl
  exact hf _ _ latest_cons rfl

theorem install_disciplined (ho : opens) (m : AppManifest) :
    Disciplined opens (fun _ _ => True) κ (install m) := by
  refine live_disciplined.bind ?_
  rintro κ ⟨s, g⟩ rfl
  refine newUuid_disciplined.bind ?_
  rintro κ n rfl
  refine Prog.Follows.bind (Ψ := fun κ' r => κ' = κ ∧
    AppLifecycle.install ⟨n⟩ m s = .ok r) (.ofExcept _ fun r hr => ⟨rfl, hr⟩) ?_
  rintro κ ⟨app, staged⟩ ⟨rfl, hl⟩
  refine open_disciplined ho app .install fun κ op hop htarget => ?_
  have hs : HasTarget op staged := by
    intro a ha
    cases htarget.symm.trans ha
    exact register_has (install_app hl).2.2
  exact (applyInstall_disciplined hop hs g).bind fun _ _ _ => trivial

theorem uninstall_disciplined (ho : opens) (i : InstallationId) :
    Disciplined opens (fun _ _ => True) κ (uninstall i) := by
  refine live_disciplined.bind ?_
  rintro κ ⟨s, g⟩ rfl
  cases hf : s.installedApps.getByInstallationId i with
  | none =>
    simp only [hf]
    trivial
  | some app =>
    simp only [hf]
    refine Prog.Follows.bind (Ψ := fun κ' _ => κ' = κ) (.ofExcept _ fun _ _ => rfl) ?_
    rintro κ ⟨staged, g'⟩ rfl
    refine open_disciplined ho app .uninstall fun κ op hop _ => ?_
    exact (applyUninstall_disciplined hop staged g').bind fun _ _ _ => trivial

theorem compensateInstall_disciplined (i : AppOperationId) :
    Disciplined opens (fun _ _ => True) κ (compensateInstall i) := by
  refine ⟨trivial, fun a _ => ?_⟩
  obtain _ | _ | op := a
  · trivial
  · trivial
  have hop : (κ.learn (.findOperation i) (.ok (some op))).latest op.id = some op := latest_cons
  simp only [Prog.bind, Prog.ofExcept, Prog.ret_bind]
  split
  · trivial
  split
  · refine (advance_disciplined hop .beginCompensation fun _ => rfl).bind fun κ1 op1 h1 => ?_
    exact (compensateInstallOperation_disciplined h1.latest).mono fun _ _ _ => trivial
  · exact (compensateInstallOperation_disciplined hop).mono fun _ _ _ => trivial
  · trivial

theorem recoverOperation_disciplined (hop : κ.latest op.id = some op) :
    Disciplined opens (OnlyMoved κ op.id) κ (recoverOperation op) := by
  unfold recoverOperation
  split
  · refine live_disciplined.bind ?_
    rintro κ ⟨s, g⟩ rfl
    refine (stageInstallTarget_disciplined s).bind ?_
    rintro κ staged ⟨rfl, hs⟩
    exact (applyInstall_disciplined hop hs g).bind fun _ _ h => h
  · exact (compensateInstallOperation_disciplined hop).bind fun _ _ h => h
  · refine live_disciplined.bind ?_
    rintro κ ⟨s, g⟩ rfl
    refine (stageWithoutTarget_disciplined s g).bind ?_
    rintro κ ⟨staged, g'⟩ rfl
    exact (applyUninstall_disciplined hop staged g').bind fun _ _ h => h
  · trivial
  · trivial

/-- The loop takes up one copy after the other, and leaves those that are still to come alone. -/
theorem recoverOperations_disciplined (hk : Table.Keyed AppOperation.id ops)
    (hops : ∀ op ∈ ops, κ.latest op.id = some op) (report : AppOperationRecoveryReport) :
    Disciplined opens (fun _ _ => True) κ (recoverOperations ops report) := by
  induction ops generalizing κ report with
  | nil => trivial
  | cons op ops ih =>
    obtain ⟨hne, hk'⟩ := List.nodup_cons.mp hk
    refine (recoverOperation_disciplined (hops op List.mem_cons_self)).bind fun κ' _ h' => ?_
    refine ih hk' (fun op' hop' => ?_) _
    rw [h' op'.id fun he => hne (he ▸ List.mem_map_of_mem hop')]
    exact hops op' (List.mem_cons_of_mem _ hop')

theorem recoverIncomplete_disciplined :
    Disciplined opens (fun _ _ => True) κ recoverIncomplete := by
  refine Prog.Follows.bind (Ψ := fun κ' ops => Table.Keyed AppOperation.id ops ∧
    ∀ op ∈ ops, κ'.latest op.id = some op) (Prog.Follows.performOk _ trivial fun a ops hk ha => ?_)
    fun κ1 ops h => recoverOperations_disciplined h.1 h.2 _
  subst ha
  exact ⟨hk, fun op hop => latest_append hk hop⟩

end AppOperationRunner

open AppOperationRunner in
/-- Every method of the runner works on copies. -/
theorem Command.copying (c : Command) : Copying c.program := by
  suffices h : Disciplined True (fun _ _ => True) {} c.program from h.copying
  cases c with
  | install m => exact (install_disciplined trivial m).bind fun _ _ _ => trivial
  | uninstall i => exact (uninstall_disciplined trivial i).bind fun _ _ _ => trivial
  | compensateInstall i => exact compensateInstall_disciplined i
  | recoverIncomplete => exact recoverIncomplete_disciplined.bind fun _ _ _ => trivial

end Rumahl
