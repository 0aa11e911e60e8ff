import Rumahl.Operations.Compensation
import Rumahl.Sqlite.Databases

/-!
# Compensating an install whose databases were being provisioned

The runner on a machine with a file system: its requests for databases are carried out by the SQLite
provider, so that a process can stop inside of a request. `Machine.databaseCall_spec` says that what
was proved of the runner with an abstract provider carries over. A directory that is still under
construction is the one state in which the provider refuses to retain, and an install that left it
cannot be compensated (`compensation_of_interrupted_provisioning`).
-/

namespace Rumahl

open Effect AppOperationRunner World List SqliteAppDatabaseProvider Command

abbrev Machine := World × Directories

abbrev MachineProg (α : Type) :=
  Prog (Call ⊕ FileCall) (Sum.elim Answer FileAnswer) AppOperationRunnerError α

namespace Machine

def handler : Handler (Call ⊕ FileCall) (Sum.elim Answer FileAnswer) Decision Machine :=
  World.handler.sum Directories.handler

/-- What the runner is told of the result of the provider. -/
def report (r : Except SqliteAppDatabaseProviderError α) : Except ProviderError Unit :=
  match r with
  | .ok _ => .ok ()
  | .error _ => .error .unavailable

/-- The requests for databases go to the SQLite provider. -/
def databaseCall : (c : Call) → MachineProg (Answer c)
  | .provider _ _ (.provisionInstallation bindings) => do
    let r ← (provisionInstallation bindings).attempt.inr
    pure (report r)
  | .provider _ _ (.retainInstallation id) => do
    let r ← (retainInstallation id).attempt.inr
    pure (report r)
  | c => Prog.perform (Sum.inl c)

def program (p : Runner α) : MachineProg α := p.refine databaseCall

/-- A new process loads the stored snapshot; the directories are as they were. -/
def reload (m : Machine) : Machine := (m.1.reload, m.2)

/-! ## The abstract provider -/

/-- The world of a machine, but for the log of the calls. -/
def Shows (m : Machine) (w : World) : Prop := w = { m.1 with calls := w.calls }

theorem Shows.refl (m : Machine) : m.Shows m.1 := rfl

theorem Shows.journal {m : Machine} (h : m.Shows w) : w.journal = m.1.journal := by
  rw [h]

theorem respond_calls (w : World) (cs : List ProviderCall) (d : Decision) (c : Call) :
    ∃ cs', ({ w with calls := cs } : World).respond d c =
      ((w.respond d c).1, { (w.respond d c).2 with calls := cs' }) := by
  cases c with
  | createOperation op | storeTransition op =>
    simp only [respond, journalWrite]
    split <;> exact ⟨cs, rfl⟩
  | provider op r q =>
    cases d with
    | ok value =>
      simp only [respond]
      cases serve value q with
      | ok a => cases q <;> exact ⟨_, rfl⟩
      | error e => exact ⟨_, rfl⟩
    | lost => cases q <;> exact ⟨_, rfl⟩
    | fail | stop => exact ⟨_, rfl⟩
  | now | findOperation i | listIncomplete | publishAssets i | stageImage i a =>
    cases d <;> exact ⟨cs, rfl⟩
  | newUuid | live | setLive o s g => exact ⟨cs, rfl⟩

theorem Shows.step {m : Machine} (h : m.Shows w) (hs : World.handler.step c d m.1 = some (a, w1)) :
    ∃ w', World.handler.step c d w = some (a, w') ∧ Shows (w1, m.2) w' := by
  simp only [World.handler] at hs ⊢
  split at hs
  · cases hs
  · next hd =>
    obtain ⟨cs', hr⟩ := respond_calls m.1 w.calls d c
    have hw : w.respond d c = _ := (congrArg (fun w => w.respond d c) h).trans hr
    have hs' := Option.some.inj hs
    rw [if_neg hd, hw, hs']
    exact ⟨_, rfl, rfl⟩

theorem Shows.reload {m : Machine} (h : m.Shows w) : m.reload.Shows w.reload := by
  rw [h]
  simp only [Machine.reload, Shows, World.reload]
  split <;> rfl

/-- The requests for databases. -/
def IsDatabaseCall : Call → Prop
  | .provider _ _ (.provisionInstallation _) | .provider _ _ (.retainInstallation _) => True
  | _ => False

/-- How a request for databases can end: the provider returns, fails or is stopped, and the
abstract environment may then answer with success, with an error, or not at all. -/
def ending (J : Directories → Prop) (ok error stop : Prop) :
    Post Directories SqliteAppDatabaseProviderError α where
  done _ d := J d ∧ ok
  failed _ d := J d ∧ error
  stopped d := J d ∧ stop

/-- The file system under `files` and the other providers under `allows` do what the abstract
contract `D` says, and keep `J` of the directories. -/
structure Serves (D : Contract Call Answer World) (allows : Allows) (files : FileAllows)
    (J : Directories → Prop) : Prop where
  direct : ∀ c a, ¬IsDatabaseCall c → allows c a → D.allows c a
  provision : ∀ op r bindings w d, let c := Call.provider op r (.provisionInstallation bindings)
    D.requires c w → J d → wp Directories.handler ⟨files, fun _ _ => True⟩
      (provisionInstallation bindings)
      (ending J (D.allows c (some (.ok ()))) (D.allows c (some (.error .unavailable)))
        (D.allows c none)) d
  retain : ∀ op r id w d, let c := Call.provider op r (.retainInstallation id)
    D.requires c w → J d → wp Directories.handler ⟨files, fun _ _ => True⟩
      (retainInstallation id)
      (ending J (D.allows c (some (.ok ()))) (D.allows c (some (.error .unavailable)))
        (D.allows c none)) d

section

variable {D : Contract Call Answer World} {allows : Allows} {files : FileAllows}
  {J : Directories → Prop} {w : World} {m : Machine}

private theorem report_spec
    (h : wp Directories.handler ⟨files, fun _ _ => True⟩ p (ending J ok error stop) m.2) :
    wp handler (.sum allows files)
      (do let r ← p.attempt.inr; pure (report r) : MachineProg (Except ProviderError Unit))
      ⟨fun a m' => m'.1 = m.1 ∧ J m'.2 ∧ (a = .ok () ∧ ok ∨ a = .error .unavailable ∧ error),
        fun _ _ => False, fun m' => m'.1 = m.1 ∧ J m'.2 ∧ stop⟩ m := by
  refine wp.bind (wp.inr (wp.attempt (wp.mono h ?_ ?_ ?_)))
  · exact fun a d hd => ⟨rfl, hd.1, .inl ⟨rfl, hd.2⟩⟩
  · exact fun e d hd => ⟨rfl, hd.1, .inr ⟨rfl, hd.2⟩⟩
  · exact fun d hd => ⟨rfl, hd⟩

/-- Each call does what one step of the abstract environment may do. -/
theorem Serves.databaseCall (hs : Serves D allows files J) (c : Call) (hr : D.requires c w)
    (hR : m.Shows w) (hJ : J m.2) :
    wp handler (.sum allows files) (databaseCall c)
      (.answers World.handler D Shows (fun m => J m.2) c w) m := by
  have hdirect : ¬IsDatabaseCall c → wp handler (.sum allows files) (Prog.perform (Sum.inl c))
      (.answers World.handler D Shows (fun m => J m.2) c w : Post Machine AppOperationRunnerError _)
      m := by
    intro hc
    refine wp.perform_inl (fun ha => ⟨hJ, hs.direct c none hc ha, hR⟩) fun d a w1 hstep ha => ?_
    obtain ⟨w', hstep', hR'⟩ := hR.step hstep
    exact ⟨hJ, d, w', hstep', hs.direct c (some a) hc ha, hR'⟩
  -- a request that was answered is logged, a machine does not show the log
  have hlogged : ∀ op r q b (m' : Machine), m'.1 = m.1 → m'.Shows (w.logged op r q b) := by
    intro op r q b m' hm
    rw [Shows, hm]
    exact congrArg (fun v : World => v.logged op r q b) hR
  cases c with
  | provider op r q =>
    cases q with
    | provisionInstallation bindings =>
      refine wp.mono (report_spec (hs.provision op r bindings w m.2 hr hJ)) ?_
        (fun _ _ hfalse => hfalse) fun m' h => ⟨h.2.1, h.2.2, by rw [Shows, h.1]; exact hR⟩
      rintro a m' ⟨hm, hJ', ⟨rfl, ha⟩ | ⟨rfl, ha⟩⟩
      · exact ⟨hJ', .ok 0, _, rfl, ha, hlogged op r _ true m' hm⟩
      · exact ⟨hJ', .fail, _, rfl, ha, hlogged op r _ false m' hm⟩
    | retainInstallation id =>
      refine wp.mono (report_spec (hs.retain op r id w m.2 hr hJ)) ?_
        (fun _ _ hfalse => hfalse) fun m' h => ⟨h.2.1, h.2.2, by rw [Shows, h.1]; exact hR⟩
      rintro a m' ⟨hm, hJ', ⟨rfl, ha⟩ | ⟨rfl, ha⟩⟩
      · exact ⟨hJ', .ok 0, _, rfl, ha, hlogged op r _ true m' hm⟩
      · exact ⟨hJ', .fail, _, rfl, ha, hlogged op r _ false m' hm⟩
    | _ => exact hdirect id
  | _ => exact hdirect id

/-- What was proved of the runner holds of the runner on the machine. -/
theorem Serves.program (hs : Serves D allows files J) (h : wp World.handler D p Q w)
    (hR : m.Shows w) (hJ : J m.2) :
    wp handler (.sum allows files) (program p) (.refined Shows (fun m => J m.2) Q) m :=
  wp.refine h hR hJ fun c _ _ hr hR hJ => hs.databaseCall c hr hR hJ

end

end Machine

/-! ## The requests of a compensation -/

/-- Of the requests for databases, only to retain those of the installation. -/
def RetainsOnly (id : InstallationId) : Call → Prop
  | .provider _ _ (.provisionInstallation _) => False
  | .provider _ _ (.retainInstallation i) => i = id
  | _ => True

section

variable {id : InstallationId} {app : InstalledApp} {op : AppOperation}

private theorem advance_only (h : ∀ t op', transition t = .ok op' → Ψ op') :
    (advance op transition).Only (RetainsOnly id) Ψ := by
  have htime : (transitionTime op).Only (RetainsOnly id) fun _ => True :=
    .bind (⟨trivial, fun a => .ofExcept _ fun _ _ => trivial⟩ : now.Only _ fun _ => True)
      fun _ _ => trivial
  refine .bind htime fun t _ => .bind (.ofExcept _ (h t)) fun op' hop' => ?_
  exact .bind (⟨trivial, fun a => .ofExcept _ fun _ _ => trivial⟩ :
    (storeTransition op').Only _ fun _ => True) fun _ _ => hop'

private theorem provider_only (h : RetainsOnly id (.provider op.id r q)) :
    (provider op r wrap q).Only (RetainsOnly id) fun _ => True :=
  ⟨h, fun _ => .ofExcept _ fun _ _ => trivial⟩

private theorem removeResource_only (hid : app.installationId = id) (staged : PlatformState)
    (grants : InMemoryGrantStore) (r : AppOperationResource) :
    (removeResource app staged grants op r).Only (RetainsOnly id) fun _ => True := by
  cases r with
  | appDatabases => exact provider_only hid
  | oidcClient =>
    exact .bind (provider_only trivial) fun _ _ => .bind (provider_only trivial) fun _ _ =>
      provider_only trivial
  | runtimeInstance | runtimeActivation | platformSnapshot => exact provider_only trivial

private theorem compensateSteps_only
    (hwork : ∀ op r, (work op r).Only (RetainsOnly id) fun _ => True)
    (steps : List AppOperationStep) (op : AppOperation) :
    (compensateSteps work steps op).Only (RetainsOnly id) fun _ => True := by
  have hfinish : ∀ op r, (finishCompensationStep work op r).Only (RetainsOnly id) fun _ => True :=
    fun op r => .bind (hwork op r) fun _ _ => advance_only fun _ _ _ => trivial
  induction steps generalizing op with
  | nil => trivial
  | cons step steps ih =>
    rw [compensateSteps]
    split
    · exact ih op
    · exact ih op
    · exact .bind (advance_only fun _ _ _ => trivial) fun op' _ =>
        .bind (hfinish op' _) fun op'' _ => ih op''
    · exact .bind (hfinish op _) fun op' _ => ih op'
    · trivial

private theorem compensateInstallOperation_only (hop : op.targetApp = some app)
    (hid : app.installationId = id) :
    (compensateInstallOperation op).Only (RetainsOnly id) fun _ => True := by
  simp only [compensateInstallOperation, target, hop, Prog.ret_bind]
  refine .bind (Ψ := fun _ => True) (.bind (.ofExcept _ fun _ _ => trivial) fun _ _ => ?_)
    fun _ _ => .bind ⟨trivial, fun _ => trivial⟩ fun live _ =>
      .bind (Ψ := fun _ => True) ?_ fun staged _ => ?_
  · split <;> trivial
  · simp only [stageWithoutTarget, target, hop, Prog.ret_bind]
    split
    · split
      · exact .ofExcept _ fun _ _ => trivial
      · trivial
    · split <;> trivial
  · refine .bind (compensateSteps_only (fun _ r => removeResource_only hid _ _ r) _ _)
      fun op' _ => ?_
    exact .bind (advance_only (Ψ := fun _ => True) fun _ _ _ => trivial) fun _ _ =>
      ⟨trivial, fun _ => trivial⟩

/-- A compensation asks for no other databases than those of its target. -/
theorem compensateInstall_retainsOnly (i : AppOperationId)
    (hop : ∀ op, Journal.find w.journal i = some op →
      ∃ app, op.targetApp = some app ∧ app.installationId = id) :
    wp handler ⟨allows, fun c _ => RetainsOnly id c⟩ (compensateInstall i)
      ⟨fun _ _ => True, fun _ _ => True, fun _ => True⟩ w := by
  refine ⟨trivial, fun _ => trivial, fun d a w' hstep _ => ?_⟩
  cases a with
  | error e => trivial
  | ok found =>
    have hfound : found = Journal.find w.journal i := by
      cases d <;> cases hstep
      rfl
    subst hfound
    cases hf : Journal.find w.journal i with
    | none => trivial
    | some op =>
      obtain ⟨app, happ, hid⟩ := hop op hf
      refine Prog.Only.wp (Ψ := fun _ => True) ?_ w'
      change Prog.Only _ _ (if op.kind ≠ .install then _ else _)
      split
      · trivial
      · split
        · have hbegin : ∀ t op', op.beginCompensation t = .ok op' → op'.targetApp = op.targetApp :=
            fun t _ h => (AppOperation.transition_precedes
              (show op.transition t .beginCompensation = _ from h)).targetApp
          exact .bind (advance_only hbegin) fun op' hop' =>
            compensateInstallOperation_only (hop'.trans happ) hid
        · exact compensateInstallOperation_only happ hid
        · trivial

end

/-! ## The interrupted install -/

section

variable {m m' : Machine} {w : World} {P T : Platform} {h : Header} {p : Nat}

/-- Of installations that have no id yet, at most one directory exists; provisioning keeps that. -/
private theorem serves_any (issued : List Nat) (requires : Call → World → Prop) :
    Machine.Serves ⟨anyAnswer, requires⟩ anyAnswer anyFileAnswer
      fun d => ∀ id : InstallationId, id.value ∉ issued → d.Exclusive id where
  direct _ _ _ _ := trivial
  provision _ _ bindings _ d _ hd :=
    have hkeep : ∀ d', SqliteAppDatabaseProvider.Keeps d d' →
        (∀ id : InstallationId, id.value ∉ issued → d'.Exclusive id) ∧ True :=
      fun _ hk => ⟨fun id hid => hk id (hd id hid), trivial⟩
    wp.mono (provisionInstallation_keeps bindings)
      (fun _ d' => hkeep d') (fun _ d' h => hkeep d' h.2) hkeep
  retain _ _ _ _ d _ hd :=
    have hkeep : ∀ d', SqliteAppDatabaseProvider.Keeps d d' →
        (∀ id : InstallationId, id.value ∉ issued → d'.Exclusive id) ∧ True :=
      fun _ hk => ⟨fun id hid => hk id (hd id hid), trivial⟩
    wp.mono retainInstallation_keeps
      (fun _ d' => hkeep d') (fun _ d' h => hkeep d' h.2) hkeep

/-- An install that was stopped on the machine has halted, and of its databases at most one
directory exists. -/
private theorem install_stopped (hw : m.1.Sound) (hP : Stored m.1.snapshot P)
    (hs : m.1.state = P.state) (hg : m.1.grants = P.grants)
    (hdirs : ∀ id : InstallationId, id.value ∉ m.1.issued → m.2.Exclusive id)
    (hx : exec Machine.handler (Machine.program (Command.install manifest).program) first m =
      (.stopped, m'))
    (hnew : Journal.find m.1.journal i = none) (hop : Journal.find m'.1.journal i = some op)
    (hphase : op.phase = .applying) :
    ∃ h T p u w, op = Header.operation h (.applying p) u ∧ h.id = i ∧ HaltedIn m.1 P w h T p ∧
      m'.reload.Shows w ∧ m'.2.Exclusive h.app.installationId := by
  have hpost : Post.holds _ _ (exec Machine.handler _ first m).1 :=
    wp_exec ((serves_any m.1.issued _).program (install_halts (m := manifest) hw hs hg)
      (.refl m) hdirs) fun ⟨c, _, _⟩ _ => by cases c <;> trivial
  rw [hx] at hpost
  obtain ⟨hJ, w, hR, hhalts⟩ : (∀ id : InstallationId, id.value ∉ m.1.issued → m'.2.Exclusive id) ∧
    ∃ w, m'.Shows w ∧ InstallHalts P manifest m.1 w := hpost
  obtain ⟨h, T, p, u, hopeq, hid, hh⟩ := hhalts.haltedIn hw hP hs hg hnew (hR.journal ▸ hop) hphase
  exact ⟨h, T, p, u, w.reload, hopeq, hid, hh.reload, hR.reload, hJ _ hh.fresh⟩

/-! ## Its compensation -/

/-- Every call of the runner and of the provider is answered, with success. -/
def Machine.working : Contract (Call ⊕ FileCall) (Sum.elim Answer FileAnswer) Machine :=
  .sum onlySuccess onlyFileSuccess

instance : (c : Call ⊕ FileCall) → (a : Option (Sum.elim Answer FileAnswer c)) →
    Decidable (Machine.working.allows c a)
  | .inl c => fun a : Option (Answer c) => inferInstanceAs (Decidable (onlySuccess c a))
  | .inr c => fun a : Option (FileAnswer c) => inferInstanceAs (Decidable (onlyFileSuccess c a))

theorem Machine.not_working_stopped : ∀ c, ¬Machine.working.allows c none
  | .inl _ => fun ⟨_, h, _⟩ => nomatch h
  | .inr _ => fun ⟨_, h, _⟩ => nomatch h

/-- On a machine that works, the directories of an installation that is not under construction are
retained. -/
private theorem serves_working (id : InstallationId) :
    Machine.Serves ⟨onlySuccess, fun c _ => RetainsOnly id c⟩ onlySuccess onlyFileSuccess
      fun d => d.Exclusive id ∧ d.installationState id ≠ .ok .staged where
  direct _ _ _ h := h
  provision _ _ _ _ _ hr := hr.elim
  retain op r i w d hr hd := by
    subst hr
    refine wp.mono (wp.unstopped (retainInstallation_spec
      (excuses_onlyFileSuccess False) hd.1 hd.2
      (Q := fun _ d' => d'.Exclusive i ∧ d'.installationState i ≠ .ok .staged) trivial
      (fun _ _ _ => trivial) fun _ _ h h' => ⟨h, h'⟩) (fun _ h => by simp [onlyFileSuccess] at h)
      fun _ => False) ?_ ?_ fun _ h => h.elim
    · exact fun _ d' hd' => ⟨hd', _, rfl, rfl⟩
    · exact fun _ _ h => h.1.elim

/-- A request to retain databases is not answered with success. -/
def refusesRetain : Allows
  | .provider _ _ (.retainInstallation _), a => a ≠ some (.ok ())
  | _, _ => True

/-- While the directory is under construction, no request to retain it is. -/
private theorem serves_staged (id : InstallationId) :
    Machine.Serves ⟨refusesRetain, fun c _ => RetainsOnly id c⟩ anyAnswer anyFileAnswer
      fun d => d.installationState id = .ok .staged where
  direct c a hc _ := by
    cases c with
    | provider op r q =>
      cases q with
      | retainInstallation i => exact (hc trivial).elim
      | _ => trivial
    | _ => trivial
  provision _ _ _ _ _ hr := hr.elim
  retain op r i w d hr hd := by
    subst hr
    refine wp.mono (retainInstallation_staged
      (K := fun d => d.installationState i = .ok .staged) (Q := fun _ _ => False)
      (excuses_any : Excuses True anyFileAnswer) trivial hd hd)
      (fun _ _ h => h.elim) ?_ ?_
    · exact fun _ d' h => ⟨h.2, nofun⟩
    · exact fun d' h => ⟨h, nofun⟩

/-- The log records every provider call with its answer, and nothing else. -/
theorem World.step_calls (hs : handler.step c d w = some (a, w')) :
    w'.calls = w.calls ∨ ∃ op r q, c = .provider op r q ∧
      w'.calls = w.calls ++ [⟨op, r, q, succeeded c a⟩] := by
  simp only [handler] at hs
  split at hs
  · cases hs
  · have hs := Option.some.inj hs
    cases c with
    | provider op r q =>
      refine .inr ⟨op, r, q, rfl, ?_⟩
      cases d with
      | ok value =>
        simp only [respond] at hs
        cases hserve : serve value q with
        | ok b => rw [hserve] at hs; cases hs; cases q <;> rfl
        | error e => rw [hserve] at hs; cases hs; rfl
      | lost => cases hs; cases q <;> rfl
      | fail | stop => cases hs; rfl
    | createOperation op | storeTransition op =>
      simp only [respond, journalWrite] at hs
      split at hs <;> cases hs <;> exact .inl rfl
    | now | findOperation i | listIncomplete | publishAssets i | stageImage i a =>
      cases d <;> cases hs <;> exact .inl rfl
    | newUuid | live | setLive o s g => cases hs; exact .inl rfl

/-- No databases have been retained since `w0`. -/
def NoneRetained (w0 w : World) : Prop :=
  ∃ cs, w.calls = w0.calls ++ cs ∧
    ∀ c ∈ cs, ∀ id, c.request = .retainInstallation id → c.succeeded = false

private theorem NoneRetained.step (hw : NoneRetained w0 w)
    (hs : handler.step c d w = some (a, w')) (ha : refusesRetain c (some a)) :
    NoneRetained w0 w' := by
  obtain ⟨cs, hcs, hnone⟩ := hw
  rcases step_calls hs with hc | ⟨op, r, q, rfl, hc⟩
  · exact ⟨cs, hc.trans hcs, hnone⟩
  · refine ⟨cs ++ [_], by rw [hc, hcs, append_assoc], fun c hmem id hreq => ?_⟩
    rcases mem_append.mp hmem with hmem | hmem
    · exact hnone c hmem id hreq
    · cases mem_singleton.mp hmem
      obtain rfl : q = .retainInstallation id := hreq
      cases a with
      | ok u => exact absurd rfl ha
      | error e => rfl

/-- A compensation that is finished has retained the databases, if they had been begun. -/
private theorem Reverted.not_noneRetained (hr : Reverted w0 w1 h P p g w)
    (hp : p ≤ 2 * h.plan.length) (hdb : .appDatabases ∈ h.begunResources p) :
    ¬NoneRetained w1 w := by
  rintro ⟨cs, hcs, hnone⟩
  obtain ⟨cs', hcs', hrem⟩ := hr.calls
  obtain rfl := append_cancel_left (hcs.symm.trans hcs')
  obtain ⟨j, hj⟩ := mem_iff_getElem?.mp hdb
  have hlt : j < Progress.begun p :=
    Header.begunResources_length hp ▸ (List.getElem?_eq_some_iff.mp hj).1
  have hmem := hrem.mem_removals (by omega) ((Header.begunResources_getElem? hp hlt).symm.trans hj)
  obtain ⟨c, hc, hres⟩ := mem_map.mp hmem
  obtain ⟨hc, hremoved⟩ := mem_filter.mp hc
  have hreq := (hrem.mem hp le_rfl c hc).2.2
  rw [hres] at hreq
  have hfalse := hnone c hc _ (mem_singleton.mp hreq)
  simp [ProviderCall.removed, hfalse] at hremoved

/-- While the directory is under construction, no compensation returns. -/
private theorem compensation_refused (hh : HaltedIn w0 P w h T p)
    (hdb : .appDatabases ∈ h.begunResources p)
    (hop : Journal.find w.journal h.id = some (h.operation (.applying p) u)) (hR : m.Shows w)
    (hstaged : m.2.installationState h.app.installationId = .ok .staged)
      (schedule : List Decision) :
    (exec Machine.handler (Machine.program (Command.compensateInstall h.id).program) schedule m).1 ≠
      .done () := by
  intro hdone
  have hfaulty : Faulty refusesRetain := ⟨.findOperation h.id, .error .database, trivial, rfl⟩
  have hspec := hh.halted.attempt_spec hh.reverting hh.held (.compensateInstall h.id, []) (.inl rfl)
    nofun (.inl hfaulty)
  have hinv := wp.invariant (J := NoneRetained w) hspec ⟨[], by simp, fun _ hc => nomatch hc⟩
    fun _ _ _ _ _ hn hs ha => hn.step hs ha
  have honly := wp.guarded hinv (compensateInstall_retainsOnly h.id fun op' hop' =>
    ⟨h.app, by rw [← Option.some.inj (hop.symm.trans hop')]; rfl, rfl⟩)
  have hpost : Post.holds _ _ (exec Machine.handler _ schedule m).1 :=
    wp_exec ((serves_staged h.app.installationId).program honly hR hstaged)
      fun ⟨c, _, _⟩ _ => by cases c <;> trivial
  rw [hdone] at hpost
  obtain ⟨-, w', -, ⟨hr, -, -⟩, hnone⟩ := hpost
  exact hr.not_noneRetained hh.halted.le hdb hnone

/-- Otherwise the compensation goes through on a machine that works. -/
private theorem compensation_returns (hh : HaltedIn w0 P w h T p)
    (hop : Journal.find w.journal h.id = some (h.operation (.applying p) u)) (hR : m.Shows w)
    (hex : m.2.Exclusive h.app.installationId)
    (hstate : m.2.installationState h.app.installationId ≠ .ok .staged) (schedule : List Decision)
    (hall : ∀ e ∈ trace Machine.handler (Machine.program (Command.compensateInstall h.id).program)
      schedule m, Machine.working.allows e.call e.answer) :
    let r := exec Machine.handler (Machine.program (Command.compensateInstall h.id).program)
      schedule m
    r.1 = .done () ∧ ∃ op, Journal.find r.2.1.journal h.id = some op ∧ op.phase = .compensated := by
  have hnot : ¬Reverted w0 w h P p 0 w := by
    intro hr
    obtain ⟨t, hj⟩ := hr.journal
    rw [hr.sound.find_last hj] at hop
    exact absurd (congrArg AppOperation.phase (Option.some.inj hop)) nofun
  have hspec := hh.halted.attempt_spec hh.reverting hh.held (.compensateInstall h.id, []) (.inl rfl)
    nofun (show Faulty onlySuccess ∨ _ from .inr hnot)
  have honly := wp.guarded hspec (compensateInstall_retainsOnly h.id fun op' hop' =>
    ⟨h.app, by rw [← Option.some.inj (hop.symm.trans hop')]; rfl, rfl⟩)
  have hpost : Post.holds _ _ (exec Machine.handler _ schedule m).1 :=
    wp_exec (wp.unstopped ((serves_working h.app.installationId).program honly hR ⟨hex, hstate⟩)
      Machine.not_working_stopped fun _ => False) hall
  cases hx : exec Machine.handler (Machine.program (Command.compensateInstall h.id).program)
    schedule m with
  | mk exit m' =>
    rw [hx] at hpost
    cases exit with
    | stopped => exact hpost.elim
    | failed e =>
      obtain ⟨-, w', -, hfaulty, -⟩ := hpost
      exact absurd hfaulty not_faulty_onlySuccess
    | done a =>
      obtain ⟨-, w', hR', hr, -, -⟩ := hpost
      obtain ⟨t, hj⟩ := hr.journal
      exact ⟨rfl, _, hR'.journal ▸ hr.sound.find_last hj, rfl⟩

end

/-- An install is stopped while its databases are being provisioned. On a machine that works,
compensating it returns and ends in phase compensated, exactly if the stop has not left the
directory of the databases under construction. -/
theorem compensation_of_interrupted_provisioning (m m' : Machine) (hw : m.1.Sound)
    (hload : loadPlatform m.1.snapshot = .ok (m.1.state, m.1.grants))
    (hdirs : ∀ id : InstallationId, id.value ∉ m.1.issued → m.2.Exclusive id)
    (manifest : AppManifest) (first : List Decision)
    (hstop : exec Machine.handler (Machine.program (Command.install manifest).program) first m =
      (.stopped, m'))
    (i : AppOperationId) (op : AppOperation) (hnew : Journal.find m.1.journal i = none)
    (hop : Journal.find m'.1.journal i = some op) (hphase : op.phase = .applying)
    (hstep : ⟨.appDatabases, .applying⟩ ∈ op.steps) (schedule : List Decision)
    (hall : ∀ e ∈ trace Machine.handler (Machine.program (Command.compensateInstall i).program)
      schedule m'.reload, Machine.working.allows e.call e.answer) :
    let r := exec Machine.handler (Machine.program (Command.compensateInstall i).program) schedule
      m'.reload
    (r.1 = .done () ∧ ∃ op', Journal.find r.2.1.journal i = some op' ∧ op'.phase = .compensated) ↔
      m'.2.installationState op.installationId ≠ .ok .staged := by
  obtain ⟨P, hP, hs, hg⟩ := loadPlatform_eq_ok.mp hload
  obtain ⟨h, T, p, u, w, rfl, rfl, hh, hR, hex⟩ :=
    install_stopped hw hP hs hg hdirs hstop hnew hop hphase
  have hop' : Journal.find w.journal h.id = some (h.operation (.applying p) u) := by
    rw [hR.journal, Machine.reload, World.reload_journal]
    exact hop
  have hdb : .appDatabases ∈ h.begunResources p := by
    rw [Header.begunResources, mem_reverse, ← h.begun_steps p u]
    exact mem_map_of_mem (mem_filter.mpr ⟨hstep, by simp⟩)
  constructor
  · exact fun hr hstaged => compensation_refused hh hdb hop' hR hstaged schedule hr.1
  · exact fun hstate => compensation_returns hh hop' hR hex hstate schedule hall

/-- An app with one database. -/
def AppManifest.ledger : AppManifest :=
  { AppManifest.notes with
    databases := [⟨{ value := "main" }⟩]
    databases_nodup := by decide
    databases_le := by decide }

/-- An install of it on an empty machine, stopped after `n` calls. -/
def stoppedInstall (n : Nat) : Exit AppOperationRunnerError Unit × Machine :=
  exec Machine.handler (Machine.program (Command.install .ledger).program)
    (List.replicate n (.ok 0) ++ [.stop]) ({}, fun _ _ => none)

/-- Stopped after the renaming, the install is compensated. -/
theorem compensation_after_rename :
    (exec Machine.handler (Machine.program (Command.compensateInstall ⟨1⟩).program) []
      (stoppedInstall 14).2.reload).1 = .done () := by
  have hstop : stoppedInstall 14 = (.stopped, (stoppedInstall 14).2) :=
    Prod.ext (by decide +kernel) rfl
  obtain ⟨op, hop, hphase, hstep, hid⟩ :
      ∃ op ∈ Journal.find (stoppedInstall 14).2.1.journal ⟨1⟩, op.phase = .applying ∧
        ⟨.appDatabases, .applying⟩ ∈ op.steps ∧ op.installationId = ⟨0⟩ := by decide +kernel
  have hall : ∀ e ∈ trace Machine.handler
      (Machine.program (Command.compensateInstall ⟨1⟩).program) [] (stoppedInstall 14).2.reload,
      Machine.working.allows e.call e.answer := by decide +kernel
  have hstate : (stoppedInstall 14).2.2.installationState ⟨0⟩ = .ok .active := by decide +kernel
  exact ((compensation_of_interrupted_provisioning ({}, fun _ _ => none) (stoppedInstall 14).2
    (.of_empty rfl) rfl (fun _ _ => Directories.exclusive_of_absent fun _ => rfl) .ledger
    (List.replicate 14 (Decision.ok 0) ++ [Decision.stop]) hstop ⟨1⟩ op rfl hop hphase hstep []
    hall).mpr (by rw [hid, hstate]; nofun)).1

/-- Stopped after the staging directory was created, it is not: every call is answered with success,
and the compensation fails. -/
theorem compensation_refused_while_staged : (stoppedInstall 11).1 = .stopped ∧
    (∃ op ∈ Journal.find (stoppedInstall 11).2.1.journal ⟨1⟩, op.phase = .applying ∧
      ⟨.appDatabases, .applying⟩ ∈ op.steps) ∧
    (∀ e ∈ trace Machine.handler (Machine.program (Command.compensateInstall ⟨1⟩).program) []
      (stoppedInstall 11).2.reload, Machine.working.allows e.call e.answer) ∧
    (exec Machine.handler (Machine.program (Command.compensateInstall ⟨1⟩).program) []
      (stoppedInstall 11).2.reload).1 = .failed (.databaseProvider .unavailable) := by
  decide +kernel

end Rumahl
