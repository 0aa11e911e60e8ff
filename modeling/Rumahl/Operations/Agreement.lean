import Rumahl.Operations.Recovery

/-!
# The stored platform and what recovery makes of it

The platform service loads the stored snapshot before every call. Recovery takes up old operations
against what newer ones have stored since: an operation whose steps are all applied is committed
without storing anything, and the live platform is replaced all the same. `World.Consistent` is the
invariant under which this changes nothing. Every call keeps it except an uninstall of an app whose
install is still incomplete (`Settled`). `no_resurrection` and `snapshot_agreement` are what follows
for whole runs, `resurrected_by_recovery` and `recovery_leaves_disagreement` the runs that show why
the condition is there.
-/

namespace Rumahl

open Effect AppOperationRunner

/-- All steps of the operation have been applied. -/
def AppOperation.AllApplied (op : AppOperation) : Prop := ∀ s ∈ op.steps, s.state = .applied

theorem Header.allApplied_applying {h : Header} {u : UnixTimestamp} :
    (h.operation (.applying p) u).AllApplied ↔ 2 * h.plan.length ≤ p := by
  have hpos := h.plan_length_pos
  constructor
  · intro ha
    obtain ⟨r, hr⟩ : ∃ r, h.plan[h.plan.length - 1]? = some r :=
      ⟨_, List.getElem?_eq_getElem (by omega)⟩
    have hmem := ha ⟨r, (Progress.applying p).state (h.plan.length - 1)⟩
      (Progress.mem_steps.mpr ⟨_, r, hr, rfl⟩)
    by_contra hp
    rw [Progress.state, if_neg (by omega)] at hmem
    split at hmem <;> cases hmem
  · intro hp s hs
    obtain ⟨i, r, hi, rfl⟩ := Progress.mem_steps.mp hs
    have hlt : i < h.plan.length := (List.getElem?_eq_some_iff.mp hi).1
    exact Progress.applying_applied (by omega)

namespace Staged

variable {P T : Platform} {h : Header}

section

variable (hs : Staged P h T)
include hs

theorem mem_cases (ha : a ∈ T.apps) : a ∈ P.apps ∨ h.kind = .install ∧ a = h.app := by
  cases hs with
  | install hkind hA => exact (Platform.mem_withApp.mp ha).imp_right fun he => ⟨hkind, he⟩
  | uninstall hkind hS => exact .inl (Platform.mem_withoutApp.mp ha).1

theorem mem_of_mem (ha : a ∈ P.apps) :
    a ∈ T.apps ∨ h.kind = .uninstall ∧ a.installationId = h.app.installationId := by
  cases hs with
  | install hkind hA => exact .inl (Platform.mem_withApp.mpr (.inl ha))
  | uninstall hkind hS =>
    by_cases hid : a.installationId = h.app.installationId
    · exact .inr ⟨hkind, hid⟩
    · exact .inl (Platform.mem_withoutApp.mpr ⟨ha, hid⟩)

theorem target_mem (hkind : h.kind = .install) : h.app ∈ T.apps := by
  cases hs with
  | install _ hA => exact Platform.mem_withApp.mpr (.inr rfl)
  | uninstall hk => rw [hkind] at hk; cases hk

theorem target_not_mem (hkind : h.kind = .uninstall) (ha : a ∈ T.apps) :
    a.installationId ≠ h.app.installationId := by
  cases hs with
  | install hk => rw [hkind] at hk; cases hk
  | uninstall _ hS => exact (Platform.mem_withoutApp.mp ha).2

/-- An operation that finds the platform as it wants it changes nothing. -/
theorem eq_self (hin : h.kind = .install → h.app ∈ P.apps)
    (hout : h.kind = .uninstall → ∀ a ∈ P.apps, a.installationId ≠ h.app.installationId) :
    T = P := by
  cases hs with
  | install hkind hA => exact Platform.withApp_of_mem (hin hkind)
  | uninstall hkind hS => exact Platform.withoutApp_of_not_mem (hout hkind)

end

end Staged

/-! ## The invariant -/

/-- The stored platform is `S`, and recovery can make no other use of the journal than to go on
from it; nothing will bring back the installations that `gone` holds of. -/
structure World.Consistent (gone : InstallationId → Prop) (w : World) (S : Platform) : Prop where
  sound : w.Sound
  forward : ∀ op ∈ w.journal, op.isTerminal = false → op.phase = .applying
  stored : Stored w.snapshot S
  issued : ∀ a ∈ S.apps, a.installationId.value ∈ w.issued
  drawn : ∀ op ∈ w.journal, op.installationId.value ∈ w.issued
  apart : ∀ op ∈ w.journal, op.kind = .uninstall → ∀ a, w.Pending .install a →
    a.installationId ≠ op.installationId
  removed : ∀ op ∈ w.journal, op.kind = .uninstall → op.AllApplied → ∀ a ∈ S.apps,
    a.installationId ≠ op.installationId
  installed : ∀ op ∈ w.journal, op.kind = .install → op.isTerminal = false → op.AllApplied →
    ∀ a ∈ op.targetApp, a ∈ S.apps
  gone : ∀ i, gone i → i.value ∈ w.issued ∧ (∀ a ∈ S.apps, a.installationId ≠ i) ∧
    ∀ a, w.Pending .install a → a.installationId ≠ i

namespace World.Consistent

variable {gone : InstallationId → Prop} {w w' w1 : World} {S S' T : Platform} {h : Header}
  {p : Nat} {u t : UnixTimestamp} {st : Progress}

section

variable (hw : w.Consistent gone S)
include hw

/-- Ids that are drawn and not used, and the live platform, do not matter. -/
theorem mono (hj : w'.journal = w.journal) (hs : w'.snapshot = w.snapshot)
    (hi : w.issued ⊆ w'.issued) : w'.Consistent gone S where
  sound := hw.sound.mono hj hi
  forward := by rw [hj]; exact hw.forward
  stored := by rw [hs]; exact hw.stored
  issued a ha := hi (hw.issued a ha)
  drawn op hop := hi (hw.drawn op (hj ▸ hop))
  apart op hop hk a ha := hw.apart op (hj ▸ hop) hk a (by rwa [Pending, ← hj])
  removed := by rw [hj]; exact hw.removed
  installed := by rw [hj]; exact hw.installed
  gone i hg := ⟨hi (hw.gone i hg).1, (hw.gone i hg).2.1,
    fun a ha => (hw.gone i hg).2.2 a (by rwa [Pending, ← hj])⟩

/-- An operation whose steps are all applied stages what is stored. -/
theorem staged_eq (hf : Journal.find w.journal h.id = some (h.operation (.applying p) u))
    (hp : 2 * h.plan.length ≤ p) (hT : Staged S h T) : T = S := by
  have hmem := (hw.sound.mem hf).1
  have happlied : (h.operation (.applying p) u).AllApplied := Header.allApplied_applying.mpr hp
  exact hT.eq_self (fun hk => hw.installed _ hmem hk rfl happlied _ rfl)
    fun hk => hw.removed _ hmem hk happlied

/-- The operation moves on. What is stored then is what it stages, unless it has either not got as
far as that or had got there before. -/
theorem move (hf : Journal.find w.journal h.id = some (h.operation (.applying p) u))
    (hT : Staged S h T) (hst : h.Admits st)
    (hphase : (h.operation st t).isTerminal = false → (h.operation st t).phase = .applying)
    (hj : w'.journal = Table.put AppOperation.id w.journal (h.operation st t))
    (hi : w'.issued = w.issued) (hstored : Stored w'.snapshot S')
    (hS : S' = T ∨ S' = S ∧ ((h.operation st t).AllApplied → 2 * h.plan.length ≤ p)) :
    w'.Consistent gone S' := by
  have hmem := (hw.sound.mem hf).1
  have hpend : w.Pending h.kind h.app := .of_find hw.sound hf rfl
  have hback : ∀ k a, w'.Pending k a → w.Pending k a := fun _ _ =>
    Pending.of_put hw.sound hf rfl hj
  have hcases : ∀ op ∈ w'.journal, op = h.operation st t ∨ op ∈ w.journal := fun op hop => by
    rw [hj, Table.mem_put] at hop
    exact hop.imp And.left And.left
  -- what the new stored platform has and has lost, compared with the old one
  have hnew : ∀ a ∈ S'.apps, a ∈ S.apps ∨ w.Pending .install a ∧ a = h.app := fun a ha => by
    rcases hS with rfl | ⟨rfl, -⟩
    · rcases hT.mem_cases ha with ha | ⟨hk, rfl⟩
      · exact .inl ha
      · exact .inr ⟨hk ▸ hpend, rfl⟩
    · exact .inl ha
  have hold : ∀ a ∈ S.apps, w.Pending .install a → a ∈ S'.apps := fun a ha hpa => by
    rcases hS with rfl | ⟨rfl, -⟩
    · rcases hT.mem_of_mem ha with ha | ⟨hk, hid⟩
      · exact ha
      · exact absurd hid (hw.apart _ hmem hk a hpa)
    · exact ha
  refine
    { sound := hw.sound.put hst hj hi
      forward := fun op hop ht => ?_
      stored := hstored
      issued := fun a ha => ?_
      drawn := fun op hop => ?_
      apart := fun op hop hk a ha => ?_
      removed := fun op hop hk happ a ha => ?_
      installed := fun op hop hk ht happ a ha => ?_
      gone := fun i hg => ?_ }
  · rcases hcases op hop with rfl | hop
    · exact hphase ht
    · exact hw.forward op hop ht
  · rw [hi]
    rcases hnew a ha with ha | ⟨-, rfl⟩
    · exact hw.issued a ha
    · exact hw.drawn _ hmem
  · rw [hi]
    rcases hcases op hop with rfl | hop
    · exact hw.drawn (h.operation (.applying p) u) hmem
    · exact hw.drawn op hop
  · rcases hcases op hop with rfl | hop
    · exact hw.apart (h.operation (.applying p) u) hmem hk a (hback _ a ha)
    · exact hw.apart op hop hk a (hback _ a ha)
  · rcases hcases op hop with rfl | hop
    · rcases hS with rfl | ⟨rfl, hp⟩
      · exact hT.target_not_mem hk ha
      · exact hw.removed (h.operation (.applying p) u) hmem hk
          (Header.allApplied_applying.mpr (hp happ)) a ha
    · rcases hnew a ha with ha | ⟨hpa, -⟩
      · exact hw.removed op hop hk happ a ha
      · exact hw.apart op hop hk a hpa
  · rcases hcases op hop with rfl | hop
    · cases ha
      rcases hS with rfl | ⟨rfl, hp⟩
      · exact hT.target_mem hk
      · exact hw.installed (h.operation (.applying p) u) hmem hk rfl
          (Header.allApplied_applying.mpr (hp happ)) _ rfl
    · exact hold a (hw.installed op hop hk ht happ a ha) ⟨op, hop, ht, hk, ha⟩
  · obtain ⟨hid, happs, hpending⟩ := hw.gone i hg
    refine ⟨hi ▸ hid, fun a ha => ?_, fun a ha => hpending a (hback _ a ha)⟩
    rcases hnew a ha with ha | ⟨hpa, -⟩
    · exact happs a ha
    · exact hpending a hpa

/-- An operation that is committed has stored what it stages, now or before. -/
theorem committed (hf : Journal.find w.journal h.id = some (h.operation (.applying p) u))
    (hT : Staged S h T) (hc : Committed h T.snapshot p t w w') : w'.Consistent gone T := by
  refine hw.move hf hT (h.admits_committed hT.ne_update)
    (fun ht : (h.operation .committed t).isTerminal = false => nomatch ht) hc.journal hc.issued
    ?_ (.inl rfl)
  rw [hc.snapshot]
  split
  · exact .inl rfl
  · next hp =>
    rw [hw.staged_eq hf (by omega) hT]
    exact hw.stored

/-- An operation that is interrupted leaves the stored platform as it was or what it stages. -/
theorem interrupted (hf : Journal.find w.journal h.id = some (h.operation (.applying p) u))
    (hT : Staged S h T) (hi : Interrupted h T.snapshot p w w') : ∃ S', w'.Consistent gone S' := by
  cases hi with
  | within q t hq =>
    have hadm := h.admits_applying hT.ne_update hq.le_plan
    by_cases hs : w'.snapshot = some T.snapshot
    · exact ⟨T, hw.move hf hT hadm (fun _ => rfl) hq.journal hq.issued (.inl hs) (.inl rfl)⟩
    · have hsame : w'.snapshot = w.snapshot := hq.snapshot_or.resolve_right hs
      refine ⟨S, hw.move hf hT hadm (fun _ => rfl) hq.journal hq.issued (hsame ▸ hw.stored)
        (.inr ⟨rfl, fun ha => ?_⟩)⟩
      by_contra hp
      exact hs (hq.snapshot_new (by omega) (Header.allApplied_applying.mp ha))
  | committed t hc => exact ⟨T, hw.committed hf hT hc⟩

/-- A new operation, whose id is new if it installs and is not being installed if it uninstalls. -/
theorem opening (ho : Opening h.kind w h w1) (hkind : h.kind ≠ .update)
    (hdrawn : h.app.installationId.value ∈ w1.issued)
    (hin : h.kind = .install → h.app.installationId.value ∉ w.issued)
    (hout : h.kind = .uninstall → ∀ a, w.Pending .install a →
      a.installationId ≠ h.app.installationId) : w1.Consistent gone S := by
  have hcases : ∀ op ∈ w1.journal,
      op ∈ w.journal ∨ op = h.operation (.applying 0) h.startedAt := fun op hop => by
    rwa [ho.journal, List.mem_append, List.mem_singleton] at hop
  have hpend : ∀ k a, w1.Pending k a → w.Pending k a ∨ k = h.kind ∧ a = h.app :=
    fun _ _ => Pending.of_opening ho
  have hnot : ¬(h.operation (.applying 0) h.startedAt).AllApplied := fun ha => by
    have := Header.allApplied_applying.mp ha
    have := h.plan_length_pos
    omega
  refine
    { sound := ho.sound hw.sound hkind
      forward := fun op hop ht => ?_
      stored := ho.snapshot ▸ hw.stored
      issued := fun a ha => ho.issued (hw.issued a ha)
      drawn := fun op hop => ?_
      apart := fun op hop hk a ha => ?_
      removed := fun op hop hk happ => ?_
      installed := fun op hop hk ht happ => ?_
      gone := fun i hg => ?_ }
  · rcases hcases op hop with hop | rfl
    · exact hw.forward op hop ht
    · rfl
  · rcases hcases op hop with hop | rfl
    · exact ho.issued (hw.drawn op hop)
    · exact hdrawn
  · rcases hpend _ a ha with ha | ⟨hk', rfl⟩
    · rcases hcases op hop with hop | rfl
      · exact hw.apart op hop hk a ha
      · exact hout hk a ha
    · rcases hcases op hop with hop | rfl
      · exact fun he => hin hk'.symm (he ▸ hw.drawn op hop)
      · exact absurd (hk'.trans hk) nofun
  · rcases hcases op hop with hop | rfl
    · exact hw.removed op hop hk happ
    · exact absurd happ hnot
  · rcases hcases op hop with hop | rfl
    · exact hw.installed op hop hk ht happ
    · exact absurd happ hnot
  · obtain ⟨hid, happs, hpending⟩ := hw.gone i hg
    refine ⟨ho.issued hid, happs, fun a ha => ?_⟩
    rcases hpend _ a ha with ha | ⟨hk', rfl⟩
    · exact hpending a ha
    · exact fun he => hin hk'.symm (he ▸ hid)

/-- The installations whose uninstall is committed are gone as well. -/
theorem uninstalled :
    w.Consistent (fun i => ∃ op ∈ w.journal, op.kind = .uninstall ∧ op.phase = .committed ∧
      op.installationId = i) S := by
  refine { hw with gone := fun i hi => ?_ }
  obtain ⟨op, hop, hk, hphase, rfl⟩ := hi
  refine ⟨hw.drawn op hop, hw.removed op hop hk ?_, hw.apart op hop hk⟩
  obtain ⟨h, st, u, rfl, -⟩ := hw.sound.entries op hop
  cases st with
  | applying p | compensating p q | compensated p => cases hphase
  | committed =>
    intro s hs
    obtain ⟨i, r, -, rfl⟩ := Progress.mem_steps.mp hs
    rfl

end

end World.Consistent

/-! ## Calls on the loaded platform -/

variable {gone : InstallationId → Prop} {w : World}

/-- The live platform is the stored one. -/
def World.Loaded (gone : InstallationId → Prop) (w : World) : Prop :=
  ∃ S, w.Consistent gone S ∧ w.state = S.state ∧ w.grants = S.grants

/-- Whatever the live platform is, it does not have what is gone. -/
def World.Hidden (gone : InstallationId → Prop) (w : World) : Prop :=
  (∃ S, w.Consistent gone S) ∧
    ∀ i, gone i → w.state.installedApps.getByInstallationId i = none

/-- The stored snapshot captures the live platform; without one the live platform is empty. -/
def World.Captured (w : World) : Prop :=
  w.snapshot = some (.capture w.state w.grants) ∨
    w.snapshot = none ∧ w.state = {} ∧ w.grants = {}

namespace World.Consistent

variable {S T : Platform} {w' : World}

theorem hidden_of_state (hw : w.Consistent gone S) (hs : w.state = S.state) (hi : gone i) :
    w.state.installedApps.getByInstallationId i = none := by
  rw [hs]
  exact Platform.getByInstallationId_eq_none.mpr (hw.gone i hi).2.1

theorem hidden (hw : w.Consistent gone S) (hs : w.state = S.state)
    (hf : Journal.find w1.journal h.id = some (h.operation (.applying p) u)) (hT : Staged S h T)
    (hw1 : w1.Consistent gone S) (hs1 : w1.state = w.state)
    (hi : Interrupted h T.snapshot p w1 w') : w'.Hidden gone := by
  refine ⟨hw1.interrupted hf hT hi, fun i hg => ?_⟩
  rw [hi.live.1, hs1]
  exact hw.hidden_of_state hs hg

end World.Consistent

theorem World.Loaded.hidden (hw : w.Loaded gone) : w.Hidden gone := by
  obtain ⟨S, hS, hs, -⟩ := hw
  exact ⟨⟨S, hS⟩, fun i hi => hS.hidden_of_state hs hi⟩

theorem World.Loaded.captured (hw : w.Loaded gone) : w.Captured := by
  obtain ⟨S, hS, hs, hg⟩ := hw
  rcases hS.stored with h | ⟨h, rfl⟩
  · refine .inl ?_
    rw [h, hs, hg]
    rfl
  · exact .inr ⟨h, hs, hg⟩

/-- An operation that is taken up leaves the live platform as it is stored, if it goes through. -/
theorem recoverOperation_loaded (hw : w.Loaded gone) (hop : op ∈ w.journal)
    (ht : op.isTerminal = false) :
    Spec anyAnswer (World.Hidden gone) (recoverOperation op)
      (fun _ w' => w'.Loaded gone ∧ Resolved op w w') w := by
  obtain ⟨S, hS, hs, hg⟩ := hw
  have hf := hS.sound.find hop
  have hphase := hS.forward op hop ht
  obtain ⟨h, st, u, rfl, hst, hadm⟩ := hS.sound.entries op hop
  cases st with
  | committed | compensated p | compensating p q => cases hphase
  | applying p =>
    have hkind : h.kind ≠ .update := fun hk => by simp [hk] at hadm
    refine recoverOperation_spec hS.sound hs hg hf hst hkind (.inl faulty_anyAnswer)
      (World.Loaded.hidden ⟨S, hS, hs, hg⟩) ?_ ?_
    · intro T hT w' hi
      exact hS.hidden hs hf hT hS rfl hi
    · intro T hT t w' hc hs' hg'
      exact ⟨⟨T, hS.committed hf hT hc, hs', hg'⟩, hc.resolved ..⟩

/-! ## Runs of the platform service -/

/-- A call of the service, under a schedule of decisions. -/
inductive ServiceCall where
  | install (manifest : AppManifest) (schedule : List Decision)
  | uninstall (id : InstallationId) (schedule : List Decision)
  | recoverIncomplete (schedule : List Decision)

namespace ServiceCall

def command : ServiceCall → Command
  | install m _ => .install m
  | uninstall i _ => .uninstall i
  | recoverIncomplete _ => .recoverIncomplete

def schedule : ServiceCall → List Decision
  | install _ is | uninstall _ is | recoverIncomplete is => is

/-- The service loads the stored snapshot and calls the runner with what it loaded. -/
def run (e : ServiceCall) (w : World) :
    Except PlatformRecoveryError (Exit AppOperationRunnerError Unit × World) := do
  let (state, grants) ← loadPlatform w.snapshot
  pure (exec World.handler e.command.program e.schedule { w with state, grants })

def next (e : ServiceCall) (w : World) : World :=
  match e.run w with
  | .ok (_, w') => w'
  | .error _ => w

end ServiceCall

/-- If the installation is stored, no incomplete operation is installing it. -/
def World.Settled (w : World) (i : InstallationId) : Prop :=
  (∃ a ∈ w.storedApps, a.installationId = i) → ∀ op ∈ w.journal, op.isTerminal = false →
    op.kind = .install → op.installationId ≠ i

/-- The condition on a call of a run: what is uninstalled is not being installed. -/
def ServiceCall.Settled : ServiceCall → World → Prop
  | .uninstall i _, w => w.Settled i
  | _, _ => True

instance (w : World) (i : InstallationId) : Decidable (w.Settled i) :=
  inferInstanceAs (Decidable ((∃ a ∈ w.storedApps, a.installationId = i) →
    ∀ op ∈ w.journal, op.isTerminal = false → op.kind = .install → op.installationId ≠ i))

theorem World.Consistent.entered {e : ServiceCall} (hw : w.Consistent gone S)
    (hsettled : e.Settled w) (he : Entered S w h w1 c T) (hc : e.command = c) :
    w1.Consistent gone S := by
  refine hw.opening he.opening he.staged.ne_update ?_ ?_ ?_
  · cases he with
    | install hin => rw [hin.issued_eq]; simp
    | uninstall hun hmem => exact hun.issued (hw.issued _ hmem)
  · intro hk
    cases he with
    | install hin => exact hin.freshApp
    | uninstall hun => rw [hun.kind_eq] at hk; cases hk
  · intro hk a ha
    cases he with
    | install hin => rw [hin.kind_eq] at hk; cases hk
    | uninstall hun hmem =>
      cases e with
      | install m is | recoverIncomplete is => cases hc
      | uninstall i is =>
        cases hc
        obtain ⟨op, hop, ht, hkind, ha⟩ := ha
        have hne := hsettled ⟨_, hw.stored.storedApps ▸ hmem, rfl⟩ op hop ht hkind
        obtain ⟨h', st, u, rfl, -⟩ := hw.sound.entries op hop
        cases ha
        exact hne

/-- A call that goes through leaves the live platform as it is stored. -/
theorem ServiceCall.spec (e : ServiceCall) (hw : w.Loaded gone) (hsettled : e.Settled w) :
    Spec anyAnswer (World.Hidden gone) e.command.program (fun _ => World.Loaded gone) w := by
  have hopens : e.command.Opens → Spec anyAnswer (World.Hidden gone) e.command.program
      (fun _ => World.Loaded gone) w := fun hc => by
    obtain ⟨S, hS, hs, hg⟩ := hw
    refine e.command.opens_spec hc hS.sound hs hg faulty_anyAnswer ?_ ?_ ?_
    · intro is hi
      exact World.Loaded.hidden ⟨S, hS.mono rfl rfl hi, hs, hg⟩
    · intro h T w1 he w' hi
      exact hS.hidden hs (he.find hS.sound) he.staged (hS.entered hsettled he rfl)
        he.opening.state hi
    · intro h T w1 he u w' hc hs' hg'
      exact ⟨T, (hS.entered hsettled he rfl).committed (he.find hS.sound) he.staged hc, hs', hg'⟩
  cases e with
  | install m is | uninstall i is => exact hopens trivial
  | recoverIncomplete is =>
    refine Spec.bind (recoverIncomplete_spec hw hw.hidden (fun _ ⟨_, h, _⟩ => h.sound)
      fun _ _ hw hop ht => recoverOperation_loaded hw hop ht) ?_
    exact fun _ _ h => Spec.ret h.1

theorem ServiceCall.run_spec (e : ServiceCall) (hw : w.Consistent gone S)
    (hsettled : e.Settled w) :
    ∃ exit w', e.run w = .ok (exit, w') ∧ w'.Hidden gone ∧
      ∀ u, exit = .done u → w'.Loaded gone := by
  let w0 : World := { w with state := S.state, grants := S.grants }
  have hw0 : w0.Loaded gone := ⟨S, hw.mono rfl rfl fun _ h => h, rfl, rfl⟩
  have hsettled0 : e.Settled w0 := by cases e <;> exact hsettled
  have hrun : e.run w = .ok (exec World.handler e.command.program e.schedule w0) := by
    rw [ServiceCall.run, hw.stored.load]
    rfl
  have hend : Post.holds _ (exec World.handler e.command.program e.schedule w0).2
      (exec World.handler e.command.program e.schedule w0).1 :=
    wp_exec (e.spec hw0 hsettled0) fun _ _ => trivial
  refine ⟨_, _, hrun, ?_⟩
  cases hx : (exec World.handler e.command.program e.schedule w0).1 with
  | stopped =>
    rw [hx] at hend
    exact ⟨hend, nofun⟩
  | failed err =>
    rw [hx] at hend
    exact ⟨hend.2, nofun⟩
  | done a =>
    rw [hx] at hend
    exact ⟨World.Loaded.hidden hend, fun _ _ => hend⟩

theorem ServiceCall.next_hidden (e : ServiceCall) (hw : w.Consistent gone S)
    (hsettled : e.Settled w) : (e.next w).Hidden gone := by
  obtain ⟨exit, w', hrun, hh, -⟩ := e.run_spec hw hsettled
  rw [ServiceCall.next, hrun]
  exact hh

theorem consistent_after (hw : ∃ S, w.Consistent gone S)
    (hu : Along ServiceCall.next ServiceCall.Settled es w) :
    ∃ S, (after ServiceCall.next es w).Consistent gone S :=
  hu.invariant (P := fun w => ∃ S, w.Consistent gone S)
    (fun e _ ⟨_, hS⟩ he => (e.next_hidden hS he).1) hw

theorem World.Initial.consistent (hw : w.Initial) :
    ∃ S, w.Consistent (fun _ => False) S := by
  obtain ⟨S, hS, -, -⟩ := loadPlatform_eq_ok.mp hw.loaded
  have hnone : ∀ op, op ∉ w.journal := fun op hop => by
    rw [hw.journal] at hop
    cases hop
  exact ⟨S,
    { sound := .of_empty hw.journal
      forward := fun op hop => absurd hop (hnone op)
      stored := hS
      issued := fun a ha => hw.issued a (hS.storedApps ▸ ha)
      drawn := fun op hop => absurd hop (hnone op)
      apart := fun op hop => absurd hop (hnone op)
      removed := fun op hop => absurd hop (hnone op)
      installed := fun op hop => absurd hop (hnone op)
      gone := fun _ hi => hi.elim }⟩

/-- Once an uninstall is committed, its installation is in no later stored snapshot, and no later
recovery leaves it in the live platform, in every run that uninstalls nothing whose install is
incomplete. -/
theorem no_resurrection (w : World) (hw : w.Initial) (es es' : List ServiceCall)
    (hu : Along ServiceCall.next ServiceCall.Settled (es ++ es') w) (op : AppOperation)
    (hop : op ∈ (after ServiceCall.next es w).journal) (hkind : op.kind = .uninstall)
    (hphase : op.phase = .committed) :
    let w' := after ServiceCall.next es' (after ServiceCall.next es w)
    (∀ a ∈ w'.storedApps, a.installationId ≠ op.installationId) ∧
    ∀ is, ((ServiceCall.recoverIncomplete is).next w').state.installedApps.getByInstallationId
      op.installationId = none := by
  obtain ⟨hes, hes'⟩ := Along.append.mp hu
  obtain ⟨S, hS⟩ := consistent_after hw.consistent hes
  obtain ⟨S', hS'⟩ := consistent_after ⟨S, hS.uninstalled⟩ hes'
  refine ⟨fun a ha => ?_, fun is => ?_⟩
  · exact (hS'.gone _ ⟨op, hop, hkind, hphase, rfl⟩).2.1 a (hS'.stored.storedApps ▸ ha)
  · exact ((ServiceCall.recoverIncomplete is).next_hidden hS' trivial).2 _
      ⟨op, hop, hkind, hphase, rfl⟩

/-- An install that is interrupted before its commit and recovered, and then an uninstall. -/
def uninstalledAfterRecovery : List ServiceCall :=
  [.install .notes (List.replicate 21 (.ok 0) ++ [.stop]), .recoverIncomplete [],
    .uninstall ⟨0⟩ []]

theorem settled_uninstalledAfterRecovery : Along ServiceCall.next ServiceCall.Settled
    (uninstalledAfterRecovery ++ [.install .notes []]) {} := by
  simp only [uninstalledAfterRecovery, List.cons_append, List.nil_append, Along,
    ServiceCall.Settled, true_and, and_true]
  decide +kernel

theorem no_resurrection_after_recovery :
    let w := after ServiceCall.next uninstalledAfterRecovery {}
    ∃ op ∈ w.journal, op.kind = .uninstall ∧ op.phase = .committed ∧
      ∀ a ∈ (after ServiceCall.next [.install .notes []] w).storedApps,
        a.installationId ≠ op.installationId := by
  obtain ⟨op, hop, hkind, hphase⟩ :
      ∃ op ∈ (after ServiceCall.next uninstalledAfterRecovery {}).journal,
        op.kind = .uninstall ∧ op.phase = .committed := by decide +kernel
  obtain ⟨hstored, -⟩ := no_resurrection {} .default _ _ settled_uninstalledAfterRecovery
    op hop hkind hphase
  exact ⟨op, hop, hkind, hphase, hstored⟩

/-- An install that is interrupted after the snapshot was stored and before that was recorded, and
then an uninstall. -/
def uninstalledUnrecorded : List ServiceCall :=
  [.install .notes (List.replicate 18 (.ok 0) ++ [.stop]), .uninstall ⟨0⟩ []]

/-- The uninstall is committed and nothing is stored any more. The recovery of the install stores
the app again and leaves it in the live platform. -/
theorem resurrected_by_recovery :
    let w := after ServiceCall.next uninstalledUnrecorded {}
    let w' := (ServiceCall.recoverIncomplete []).next w
    (∃ op ∈ w.journal, op.kind = .uninstall ∧ op.phase = .committed ∧ op.installationId = ⟨0⟩) ∧
      w.storedApps = [] ∧ (∃ a ∈ w'.storedApps, a.installationId = ⟨0⟩) ∧
      (w'.state.installedApps.getByInstallationId ⟨0⟩).isSome := by
  decide +kernel

/-- A call that returns leaves a stored snapshot that captures the live platform, in every run that
uninstalls nothing whose install is incomplete. -/
theorem snapshot_agreement (w : World) (hw : w.Initial) (es : List ServiceCall) (e : ServiceCall)
    (hu : Along ServiceCall.next ServiceCall.Settled (es ++ [e]) w) (w' : World)
    (hrun : e.run (after ServiceCall.next es w) = .ok (.done (), w')) : w'.Captured := by
  obtain ⟨hes, he⟩ := Along.append.mp hu
  obtain ⟨S, hS⟩ := consistent_after hw.consistent hes
  obtain ⟨exit, w'', hrun', -, hdone⟩ := e.run_spec hS he.1
  rw [hrun] at hrun'
  obtain ⟨rfl, rfl⟩ := Prod.mk.inj (Except.ok.inj hrun')
  exact (hdone () rfl).captured

theorem snapshot_agreement_after_recovery :
    let w := after ServiceCall.next uninstalledAfterRecovery {}
    (ServiceCall.install .notes []).run w =
        .ok (.done (), (ServiceCall.install .notes []).next w) ∧
      ((ServiceCall.install .notes []).next w).Captured := by
  have hrun : (ServiceCall.install .notes []).run
      (after ServiceCall.next uninstalledAfterRecovery {}) =
        .ok (.done (), (ServiceCall.install .notes []).next
          (after ServiceCall.next uninstalledAfterRecovery {})) := by decide +kernel
  exact ⟨hrun, snapshot_agreement {} .default _ _ settled_uninstalledAfterRecovery _ hrun⟩

/-- An install that is interrupted before its commit, and then an uninstall. -/
def uninstalledBeforeRecovery : List ServiceCall :=
  [.install .notes (List.replicate 21 (.ok 0) ++ [.stop]), .uninstall ⟨0⟩ []]

/-- The recovery of the install returns. It has stored nothing, since the journal has the snapshot
step as applied, and yet it leaves the app in the live platform. -/
theorem recovery_leaves_disagreement :
    let w := after ServiceCall.next uninstalledBeforeRecovery {}
    let w' := (ServiceCall.recoverIncomplete []).next w
    (ServiceCall.recoverIncomplete []).run w = .ok (.done (), w') ∧
      w'.snapshot ≠ none ∧ w'.snapshot ≠ some (.capture w'.state w'.grants) := by
  decide +kernel

end Rumahl
