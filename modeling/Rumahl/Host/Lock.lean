import Rumahl.Host.Marker
import Rumahl.Effect.Runs

/-!
# The maintenance lock

The broker runs one job at a time, under a lock that the job itself gives back at the end of its
`finally` block. `untilRelease` is a job up to there: it returns if the lock is released, and fails
if an exception leaves the job before. `Maintenance.job_frees_lock` says which failures of calls do
that.
-/

namespace Rumahl.Host

open Effect List

/-! ## A job, block by block -/

/-- How a `try` block ended, and the units to start again if the services were stopped. -/
structure Tried where
  outcome : Except BrokerError Unit
  stopped : Option (List ServiceUnit)

def tryBlock (ticket : Ticket) (action : Action) : Broker Tried :=
  if action = .fsck then do
    let outcome : Except BrokerError Unit ← (checkFilesystems ticket action).attempt
    pure ⟨outcome, none⟩
  else do
    match ← (prepare action).attempt with
    | .error (e : BrokerError) => pure ⟨.error e, none⟩
    | .ok active => do
      match ← (act ticket action).attempt with
      | .ok () => pure ⟨.ok (), if action.halts then none else some active⟩
      | .error (e : BrokerError) => pure ⟨.error e, some active⟩

/-- The exception that is left when the failure was to be noted. -/
def exceptBlock (ticket : Ticket) (action : Action) :
    Except BrokerError Unit → Broker (Except BrokerError Unit)
  | .ok () => pure (.ok ())
  | .error e => (putFailure ticket action e.name).attempt

def finallyBlock (ticket : Ticket) (action : Action) : Option (List ServiceUnit) → Broker Unit
  | none => pure ()
  | some active => restart ticket action active

/-- A job until it releases the lock, with the exception that it then still raises. -/
def untilRelease (ticket : Ticket) (action : Action) : Broker (Except BrokerError Unit) := do
  onStore (.putJob (ticket.status action))
  let tried ← tryBlock ticket action
  let left ← exceptBlock ticket action tried.outcome
  finallyBlock ticket action tried.stopped
  pure left

private theorem exceptBlock_bind_ofExcept (ticket : Ticket) (action : Action)
    (outcome : Except BrokerError Unit) :
    (exceptBlock ticket action outcome >>= fun left => .ret left) >>= Prog.ofExcept id =
      match outcome with
      | .ok () => pure ()
      | .error e => putFailure ticket action e.name := by
  cases outcome with
  | ok => rfl
  | error e =>
    rw [Prog.bind_ret]
    exact Prog.attempt_bind_ofExcept _

theorem job_eq (ticket : Ticket) (action : Action) :
    job ticket action = untilRelease ticket action >>= Prog.ofExcept id := by
  rw [job, untilRelease, Prog.bind_assoc]
  refine congrArg _ (funext fun _ => ?_)
  rw [Prog.bind_assoc, tryBlock]
  by_cases hfsck : action = .fsck
  · rw [if_pos hfsck, if_pos hfsck, Prog.bind_assoc]
    refine congrArg _ (funext fun outcome => ?_)
    exact (exceptBlock_bind_ofExcept ticket action outcome).symm
  · rw [if_neg hfsck, if_neg hfsck, Prog.bind_assoc]
    refine congrArg _ (funext fun prepared => ?_)
    cases prepared with
    | error e => exact (exceptBlock_bind_ofExcept ticket action (.error e)).symm
    | ok active =>
      change (act ticket action).attempt >>= finishJob ticket action active =
        ((act ticket action).attempt >>= _) >>= _
      rw [Prog.bind_assoc]
      refine congrArg _ (funext fun outcome => ?_)
      cases outcome with
      | ok =>
        cases hhalts : action.halts with
        | true => simp [finishJob, hhalts]; rfl
        | false =>
          simp only [finishJob, hhalts]
          change restart ticket action active =
            (restart ticket action active >>= fun _ => .ret (.ok ())) >>= Prog.ofExcept id
          rw [Prog.bind_assoc]
          exact (Prog.bind_ret _).symm
      | error e =>
        change (putFailure ticket action e.name).attempt >>= _ =
          ((putFailure ticket action e.name).attempt >>= _) >>= _
        rw [Prog.bind_assoc]
        refine congrArg _ (funext fun left => ?_)
        rw [Prog.bind_assoc]
        rfl

/-! ## Runs -/

/-- A call as the broker sees it. -/
abbrev Seen := Event Call Answer Machine

def Seen.Failed (e : Seen) : Prop := ∃ error, e.answer = some (.error error)

/-- The units that were active, as far as the job has asked. -/
def Active (units : List ServiceUnit) (calls : List Seen) : Prop :=
  ∃ w, ⟨.system .active, w, some (.ok units)⟩ ∈ calls

def HaltRequested (calls : List Seen) : Prop :=
  ∃ w, ⟨.system .reboot, w, some (.ok ())⟩ ∈ calls ∨ ⟨.system .poweroff, w, some (.ok ())⟩ ∈ calls

def StartTried (units : List ServiceUnit) (calls : List Seen) : Prop :=
  ∃ w answer, ⟨.system (.start units), w, answer⟩ ∈ calls

section

variable {sha256 : Archive → String} {m m' : Machine} {ticket : Ticket} {action : Action}
  {units : List ServiceUnit} {calls : List Seen}

/-- What the environment may answer. -/
def Answers (sha256 : Archive → String) (c : Call) (m : Machine) (answer : Answer c)
    (m' : Machine) :
    Prop :=
  (∃ chance, c.carry sha256 chance m = (answer, m')) ∨
    ∃ chance, c.fail sha256 chance m = (answer, m')

theorem call_bind_ran (h : Ran (device sha256).handler (call c >>= f) m exit m' calls)
    (hstop : exit ≠ .stopped) :
    ∃ answer m1 after, calls = ⟨c, m, some answer⟩ :: after ∧ Answers sha256 c m answer m1 ∧
      ((∃ r, answer = .ok r ∧ Ran (device sha256).handler (f r) m1 exit m' after) ∨
      ∃ e, answer = .error e ∧ exit = .failed e ∧ m' = m1 ∧ after = []) := by
  cases h with
  | stop i hstep => exact absurd rfl hstop
  | call i hstep hk =>
    next m1 after answer =>
    refine ⟨answer, m1, after, rfl, ?_, ?_⟩
    · obtain ⟨d, hd⟩ | ⟨-, -, d, hd⟩ := (device sha256).handler_serves c i m answer m1 hstep
      · exact .inl ⟨d, hd⟩
      · exact .inr ⟨d, hd⟩
    · cases answer with
      | ok r => exact .inl ⟨r, rfl, hk⟩
      | error e =>
        cases hk
        exact .inr ⟨e, rfl, rfl, rfl, rfl⟩

theorem call_ran (h : Ran (device sha256).handler (call c) m exit m' calls)
    (hstop : exit ≠ .stopped) :
    ∃ answer, calls = [⟨c, m, some answer⟩] ∧ Answers sha256 c m answer m' ∧
      ((∃ r, answer = .ok r ∧ exit = .done r) ∨ ∃ e, answer = .error e ∧ exit = .failed e) := by
  rw [← Prog.bind_ret (call c)] at h
  obtain ⟨answer, m1, after, rfl, hanswer, ⟨r, rfl, hr⟩ | ⟨e, rfl, rfl, rfl, rfl⟩⟩ :=
    call_bind_ran h hstop
  · cases hr
    exact ⟨_, rfl, hanswer, .inl ⟨r, rfl, rfl⟩⟩
  · exact ⟨_, rfl, hanswer, .inr ⟨e, rfl, rfl⟩⟩

theorem Answers.carried {r : c.Result} (h : Answers sha256 c m (.ok r) m') :
    ∃ chance, c.carry sha256 chance m = (.ok r, m') := by
  obtain hcarry | ⟨_, hfail⟩ := h
  · exact hcarry
  · cases c <;> cases hfail

/-- A call that returned was carried out. -/
theorem call_done (h : Ran (device sha256).handler (call c) m (.done r) m' calls) :
    calls = [⟨c, m, some (.ok r)⟩] ∧ ∃ chance, c.carry sha256 chance m = (.ok r, m') := by
  obtain ⟨_, rfl, hanswer, ⟨_, rfl, he⟩ | ⟨_, -, he⟩⟩ := call_ran h fun he => by cases he
  · cases he
    exact ⟨rfl, hanswer.carried⟩
  · cases he

/-! ## The `try` block -/

/-- A call that neither starts services nor asks for the marker. -/
def Early (c : Call) : Prop := (∀ units, c ≠ .system (.start units)) ∧ c ≠ .store .pendingExists

/-- Such a call that does not ask for the active units either. -/
def Busy (c : Call) : Prop := Early c ∧ c ≠ .system .active

theorem admits_busy : Admits (fun _ => True) Busy where
  volume _ _ _ := ⟨⟨nofun, nofun⟩, nofun⟩
  store c _ _ hask := ⟨⟨nofun, by simpa using hask⟩, nofun⟩
  system c hstart hactive := ⟨⟨by simpa using hstart, nofun⟩, by simpa using hactive⟩

theorem act_busy (ticket : Ticket) (action : Action) :
    Makes Busy (act ticket action) :=
  admits_busy.act (fun _ => trivial) (fun _ => ⟨⟨nofun, nofun⟩, nofun⟩) ⟨⟨nofun, nofun⟩, nofun⟩ _ _

theorem not_active (h : Ran (device sha256).handler p m exit m' calls)
    (hp : Makes Busy p) : ¬Active units calls :=
  fun ⟨_, hmem⟩ => (h.only hp _ hmem).2 rfl

/-- An action that ends with a restart of the machine has requested it when it returns. -/
theorem act_requests (h : Ran (device sha256).handler (act ticket action) m (.done ()) m' calls)
    (hhalts : action.halts) : HaltRequested calls := by
  obtain ⟨_, _, _, _, -, h1, rfl⟩ := h.bind_done
  obtain ⟨_, _, _, _, -, h2, rfl⟩ := h1.bind_done
  obtain ⟨_, _, _, _, -, h3, rfl⟩ := h2.bind_done
  obtain ⟨_, w, _, _, -, h4, rfl⟩ := h3.bind_done
  refine ⟨w, ?_⟩
  simp only [mem_append]
  have hlast {c : SystemCall} {r : c.Result} {after : List Seen}
      (h : Ran (device sha256).handler (onSystem c) w (.done r) m' after) :
      ⟨.system c, w, some (.ok r)⟩ ∈ after := by
    rw [(call_done h).1]
    exact mem_singleton_self _
  by_cases hoff : action = .poweroff
  · rw [if_pos hoff] at h4
    exact .inr (.inr (.inr (.inr (.inr (hlast h4)))))
  · rw [if_neg hoff, if_pos hhalts] at h4
    exact .inl (.inr (.inr (.inr (.inr (hlast h4)))))

theorem prepare_eq (action : Action) : ∃ checks : Broker Unit, Makes Busy checks ∧
    prepare action = checks >>= fun _ => onSystem .active := by
  cases action with
  | restore identifier =>
    refine ⟨onSystem .binding >>= fun binding => verify identifier binding, ?_, ?_⟩
    · exact Makes.bind (admits_busy.onSystem nofun nofun) fun binding =>
        admits_busy.verify identifier binding
    · exact (Prog.bind_assoc ..).symm
  | _ => exact ⟨.ret (), trivial, rfl⟩

theorem prepare_early (action : Action) : Makes Early (prepare action) := by
  obtain ⟨checks, hchecks, heq⟩ := prepare_eq action
  rw [heq]
  exact .bind (hchecks.mono fun _ hc => hc.1) fun _ => .call ⟨nofun, nofun⟩

theorem prepare_active (h : Ran (device sha256).handler (prepare action) m exit m' calls)
    (hstop : exit ≠ .stopped) (hactive : Active units calls) : exit = .done units := by
  obtain ⟨checks, hchecks, heq⟩ := prepare_eq action
  rw [heq] at h
  obtain ⟨_, _, before, after, hbefore, hafter, rfl⟩ | ⟨e, -, hbefore⟩ | ⟨he, -⟩ := h.bind_inv
  · obtain ⟨answer, rfl, -, hexit⟩ := call_ran hafter hstop
    obtain ⟨w, hmem⟩ := hactive
    rcases mem_append.mp hmem with hmem | hmem
    · exact absurd ⟨w, hmem⟩ (not_active hbefore hchecks)
    · cases mem_singleton.mp hmem
      obtain ⟨r, hr, rfl⟩ | ⟨e, he, -⟩ := hexit
      · cases hr
        rfl
      · cases he
  · exact absurd hactive (not_active hbefore hchecks)
  · exact absurd he hstop

theorem checkFilesystems_busy (ticket : Ticket) (action : Action) :
    Makes Busy (checkFilesystems ticket action) :=
  Makes.bind (admits_busy.onSystem nofun nofun) fun _ =>
    admits_busy.onStore nofun nofun nofun

theorem Active.append :
    Active units (calls ++ calls') ↔ Active units calls ∨ Active units calls' := by
  simp only [Active, mem_append, exists_or]

/-- The `try` block does not fail, and remembers the units that were active. -/
theorem tryBlock_ran (h : Ran (device sha256).handler (tryBlock ticket action) m exit m' calls)
    (hstop : exit ≠ .stopped) :
    ∃ tried, exit = .done tried ∧ (∀ e ∈ calls, Early e.call) ∧
      ∀ units, Active units calls → tried.stopped = some units ∨ HaltRequested calls := by
  unfold tryBlock at h
  split at h
  · obtain ⟨_, before, after, rfl, ⟨_, hp, hf⟩ | ⟨e, hp, hf⟩⟩ := h.attempt_bind_inv hstop <;>
    · cases hf
      have hcalls := hp.only (checkFilesystems_busy ticket action)
      rw [append_nil]
      exact ⟨_, rfl, fun e he => (hcalls e he).1, fun units hactive =>
        absurd hactive (not_active hp (checkFilesystems_busy ticket action))⟩
  · obtain ⟨m1, before, after, rfl, ⟨active, hp, hf⟩ | ⟨e, hp, hf⟩⟩ := h.attempt_bind_inv hstop
    · have hearly := hp.only (prepare_early action)
      obtain ⟨m2, during, rest, rfl, hact⟩ := hf.attempt_bind_inv hstop
      have hbusy : ∀ e ∈ during, Busy e.call := by
        obtain ⟨_, hrun, -⟩ | ⟨_, hrun, -⟩ := hact <;> exact hrun.only (act_busy ticket action)
      have hactive {units : List ServiceUnit} (h : Active units (before ++ during)) :
          units = active := by
        rcases Active.append.mp h with h | ⟨w, hmem⟩
        · cases prepare_active hp nofun h
          rfl
        · exact absurd rfl (hbusy _ hmem).2
      have hcalls : ∀ e ∈ before ++ during, Early e.call :=
        forall_mem_append.mpr ⟨hearly, fun e he => (hbusy e he).1⟩
      obtain ⟨_, hrun, hrest⟩ | ⟨e, hrun, hrest⟩ := hact
      · cases hrest
        rw [append_nil]
        refine ⟨_, rfl, hcalls, fun units h => ?_⟩
        cases hhalts : action.halts with
        | true =>
          obtain ⟨w, hw⟩ := act_requests hrun hhalts
          exact .inr ⟨w, hw.imp (mem_append_right _) (mem_append_right _)⟩
        | false => exact .inl (by simp [hactive h])
      · cases hrest
        rw [append_nil]
        exact ⟨_, rfl, hcalls, fun units h => .inl (congrArg some (hactive h).symm)⟩
    · cases hf
      rw [append_nil]
      refine ⟨_, rfl, hp.only (prepare_early action), fun units hactive => ?_⟩
      cases prepare_active hp nofun hactive

/-! ## The handler and the `finally` block -/

theorem exceptBlock_ran
    (h : Ran (device sha256).handler (exceptBlock ticket action outcome) m exit m' calls)
    (hstop : exit ≠ .stopped) : (∃ left, exit = .done left) ∧ ∀ e ∈ calls, Busy e.call := by
  cases outcome with
  | ok =>
    cases h
    exact ⟨⟨_, rfl⟩, fun e he => nomatch he⟩
  | error e =>
    obtain ⟨a, rfl, hrun⟩ | ⟨e, rfl, hrun⟩ | ⟨he, -⟩ := h.attempt_inv
    · exact ⟨⟨_, rfl⟩, hrun.only (admits_busy.onStore nofun nofun nofun)⟩
    · exact ⟨⟨_, rfl⟩, hrun.only (admits_busy.onStore nofun nofun nofun)⟩
    · exact absurd he hstop

/-- After the first call of a job, two more stand outside of its handlers: the question for the
marker, and the status that tells of a failed start. Neither of them failed. -/
structure Covered (calls : List Seen) : Prop where
  asked : ∀ e ∈ calls, e.call = .store .pendingExists → ¬e.Failed
  noted : ∀ units w answer e, [⟨.system (.start units), w, answer⟩, e] <:+: calls → ¬e.Failed

theorem covered_nil : Covered [] := ⟨fun _ he => (nomatch he), fun _ _ _ _ h => by simp at h⟩

theorem covered_cons : Covered (e :: calls) ↔
    (e.call = .store .pendingExists → ¬e.Failed) ∧
    (∀ units, e.call = .system (.start units) → ∀ e', calls.head? = some e' → ¬e'.Failed) ∧
    Covered calls := by
  constructor
  · intro h
    refine ⟨h.asked e mem_cons_self, ?_, fun e' he' => h.asked e' (mem_cons_of_mem _ he'),
      fun units w answer e' hinfix => h.noted units w answer e' (infix_cons hinfix)⟩
    intro units hcall e' he'
    obtain ⟨c, w, answer⟩ := e
    cases hcall
    obtain ⟨rest, rfl⟩ := List.head?_eq_some_iff.mp he'
    exact h.noted units w answer e' ⟨[], rest, rfl⟩
  · rintro ⟨hasked, hnoted, hcalls⟩
    refine ⟨forall_mem_cons.mpr ⟨hasked, hcalls.asked⟩, ?_⟩
    intro units w answer e' hinfix
    rcases infix_cons_iff.mp hinfix with hprefix | hinfix
    · obtain ⟨rfl, rest, rfl⟩ := cons_prefix_cons.mp hprefix
      exact hnoted units rfl e' rfl
    · exact hcalls.noted units w answer e' hinfix

theorem covered_append (h : ∀ e ∈ calls, Early e.call) :
    Covered (calls ++ calls') ↔ Covered calls' := by
  induction calls with
  | nil => rfl
  | cons e calls ih =>
    obtain ⟨he, hcalls⟩ := forall_mem_cons.mp h
    rw [cons_append, covered_cons, ih hcalls]
    exact ⟨fun h => h.2.2, fun h => ⟨fun hcall => absurd hcall he.2,
      fun units hcall => absurd hcall (he.1 units), h⟩⟩

theorem restart_only (ticket : Ticket) (action : Action) (active : List ServiceUnit) :
    (restart ticket action active).Only (fun c => c ≠ .system .active) fun _ => True := by
  refine Makes.bind (Makes.call nofun) fun pending => ?_
  split
  · trivial
  · refine Makes.caught (Makes.call nofun) fun started => ?_
    cases started with
    | ok => trivial
    | error e =>
      have hput : Makes (fun c => c ≠ .system .active)
          (putFailure ticket action "ServiceStartFailed") := Makes.call nofun
      exact hput

theorem restart_ran (h : Ran (device sha256).handler (restart ticket action active) m exit m' calls)
    (hstop : exit ≠ .stopped) : (exit = .done () ∧ Covered calls ∧
      (active = [] ∨ m'.store.pending = true ∨ StartTried active.reverse calls)) ∨
    (∃ e, exit = .failed e) ∧ ¬Covered calls := by
  obtain ⟨answer, m1, after, rfl, hanswer, ⟨pending, rfl, hrun⟩ | ⟨e, rfl, rfl, -, rfl⟩⟩ :=
    call_bind_ran h hstop
  · obtain ⟨rfl, rfl⟩ : pending = m.store.pending ∧ m1 = m := by
      obtain ⟨_, hcarry⟩ := hanswer.carried
      cases hcarry
      exact ⟨rfl, rfl⟩
    have hasked : Covered (⟨.store .pendingExists, m1, some (.ok m1.store.pending)⟩ :: after) ↔
        Covered after := by
      simp [covered_cons, Seen.Failed]
    rw [hasked]
    split at hrun
    · next hnone =>
      cases hrun
      exact .inl ⟨rfl, covered_nil, hnone.symm.imp_right .inl⟩
    · obtain ⟨m2, before, rest, rfl, ⟨_, hstart, hrest⟩ | ⟨e, hstart, hrest⟩⟩ :=
        hrun.attempt_bind_inv hstop
      · obtain ⟨rfl, -⟩ := call_done hstart
        cases hrest
        refine .inl ⟨rfl, covered_cons.mpr ⟨(nomatch ·), fun _ _ _ he => (nomatch he), covered_nil⟩,
          .inr (.inr ⟨m1, _, mem_cons_of_mem _ mem_cons_self⟩)⟩
      · obtain ⟨answer, rfl, -⟩ := call_ran hstart nofun
        obtain ⟨put, rfl, -, ⟨_, rfl, rfl⟩ | ⟨e', rfl, rfl⟩⟩ := call_ran hrest hstop
        · refine .inl ⟨rfl, ?_, .inr (.inr ⟨m1, some answer, mem_cons_of_mem _ mem_cons_self⟩)⟩
          simp [covered_cons, covered_nil, Seen.Failed]
        · refine .inr ⟨⟨e', rfl⟩, fun hcovered => ?_⟩
          exact (covered_cons.mp hcovered).2.1 _ rfl _ rfl ⟨e', rfl⟩
  · refine .inr ⟨⟨e, rfl⟩, fun hcovered => ?_⟩
    exact hcovered.asked _ mem_cons_self rfl ⟨e, rfl⟩

/-! ## What a job does to the lock -/

/-- The lock is released, and the units that were active are being started unless a restore is
pending or the machine is going down. -/
structure Frees (exit : Exit BrokerError (Except BrokerError Unit)) (m' : Machine)
    (calls : List Seen) : Prop where
  released : ∃ left, exit = .done left
  restarted : ∀ units, Active units calls → units = [] ∨ m'.store.pending = true ∨
    HaltRequested calls ∨ StartTried units.reverse calls

/-- Nothing failed that no handler stands around: the first call, and those of `Covered`. -/
def Shielded (calls : List Seen) : Prop :=
  (∀ e, calls.head? = some e → ¬e.Failed) ∧ Covered calls

theorem HaltRequested.mono (h : HaltRequested calls) (hsub : calls ⊆ calls') :
    HaltRequested calls' := by
  obtain ⟨w, hw⟩ := h
  exact ⟨w, hw.imp (hsub ·) (hsub ·)⟩

theorem StartTried.mono (h : StartTried units calls) (hsub : calls ⊆ calls') :
    StartTried units calls' := by
  obtain ⟨w, answer, hw⟩ := h
  exact ⟨w, answer, hsub hw⟩

theorem blocks_ran {tried : Tried}
    (hexcept : Ran (device sha256).handler (exceptBlock ticket action tried.outcome) m (.done left)
      m1 handled)
    (hfinally : Ran (device sha256).handler
      (finallyBlock ticket action tried.stopped >>= fun _ => .ret left) m1 exit m' rest)
    (hstop : exit ≠ .stopped)
    (hactive : ∀ units, Active units before → tried.stopped = some units ∨ HaltRequested before) :
    Frees exit m' (before ++ (handled ++ rest)) ↔ Covered rest := by
  have hbusy := (exceptBlock_ran hexcept nofun).2
  have hunits {units : List ServiceUnit} (hrest : ∀ e ∈ rest, e.call ≠ .system .active)
      (h : Active units (before ++ (handled ++ rest))) : Active units before := by
    obtain ⟨w, hmem⟩ := h
    simp only [mem_append] at hmem
    obtain hmem | hmem | hmem := hmem
    · exact ⟨w, hmem⟩
    · exact absurd rfl (hbusy _ hmem).2
    · exact absurd rfl (hrest _ hmem)
  cases hstopped : tried.stopped with
  | none =>
    rw [hstopped] at hfinally
    cases hfinally
    refine iff_of_true ⟨⟨left, rfl⟩, fun units h => ?_⟩ covered_nil
    obtain he | hhalt := hactive units (hunits (fun e he => (nomatch he)) h)
    · rw [hstopped] at he
      cases he
    · exact .inr (.inr (.inl (hhalt.mono (subset_append_left ..))))
  | some active =>
    rw [hstopped] at hfinally
    obtain ⟨_, _, rest, _, hrestart, hret, rfl⟩ | ⟨e, rfl, hrestart⟩ | ⟨rfl, -⟩ := hfinally.bind_inv
    · cases hret
      rw [append_nil] at hunits ⊢
      obtain ⟨-, hcovered, hstarted⟩ | ⟨⟨e, he⟩, -⟩ := restart_ran hrestart nofun
      · refine iff_of_true ⟨⟨left, rfl⟩, fun units h => ?_⟩ hcovered
        obtain he | hhalt := hactive units (hunits (hrestart.only (restart_only ..)) h)
        · rw [hstopped] at he
          cases he
          refine hstarted.imp_right (Or.imp_right fun h => .inr (h.mono ?_))
          exact List.Subset.trans (subset_append_right ..) (subset_append_right ..)
        · exact .inr (.inr (.inl (hhalt.mono (subset_append_left ..))))
      · cases he
    · obtain ⟨he, -⟩ | ⟨-, huncovered⟩ := restart_ran hrestart nofun
      · cases he
      · refine iff_of_false (fun hfrees => ?_) huncovered
        obtain ⟨_, he⟩ := hfrees.released
        cases he
    · exact absurd rfl hstop

theorem frees_iff_shielded
    (h : Ran (device sha256).handler (untilRelease ticket action) m exit m' calls)
    (hstop : exit ≠ .stopped) : Frees exit m' calls ↔ Shielded calls := by
  obtain ⟨answer, m1, after, rfl, -, ⟨_, rfl, hrun⟩ | ⟨e, rfl, rfl, -, rfl⟩⟩ :=
    call_bind_ran h hstop
  · obtain ⟨tried, m2, before, rest, htry, hrest, rfl⟩ | ⟨e, rfl, htry⟩ | ⟨rfl, -⟩ := hrun.bind_inv
    · obtain ⟨_, he, hearly, hactive⟩ := tryBlock_ran htry nofun
      cases he
      obtain ⟨left, m3, handled, rest, hexcept, hfinally, rfl⟩ | ⟨e, rfl, hexcept⟩ | ⟨rfl, -⟩ :=
        hrest.bind_inv
      · have hbusy := (exceptBlock_ran hexcept nofun).2
        have hbegun : ¬Seen.Failed ⟨.store (.putJob (ticket.status action)), m, some (.ok ())⟩ := by
          rintro ⟨e, he⟩
          cases he
        have hbefore : ∀ units, Active units (⟨.store (.putJob (ticket.status action)), m,
            some (.ok ())⟩ :: before) → tried.stopped = some units ∨ HaltRequested
              (⟨.store (.putJob (ticket.status action)), m, some (.ok ())⟩ :: before) := by
          rintro units ⟨w, hmem⟩
          rcases mem_cons.mp hmem with he | hmem
          · cases he
          · exact (hactive units ⟨w, hmem⟩).imp_right (·.mono (subset_cons_self ..))
        refine (blocks_ran hexcept hfinally hstop hbefore).trans ?_
        rw [Shielded, covered_cons, covered_append hearly,
          covered_append fun e he => (hbusy e he).1]
        refine ⟨fun h => ⟨?_, (nomatch ·), nofun, h⟩, fun h => h.2.2.2⟩
        rintro _ ⟨⟩
        exact hbegun
      · obtain ⟨⟨_, he⟩, -⟩ := exceptBlock_ran hexcept nofun
        cases he
      · exact absurd rfl hstop
    · obtain ⟨_, he, -⟩ := tryBlock_ran htry nofun
      cases he
    · exact absurd rfl hstop
  · constructor
    · intro hfrees
      obtain ⟨left, he⟩ := hfrees.released
      cases he
    · intro hshielded
      exact absurd ⟨e, rfl⟩ (hshielded.1 _ rfl)

end

/-! ## One job after the other -/

/-- The machine, and whether the lock is held. -/
structure Maintenance where
  machine : Machine
  locked : Bool := false

/-- A request for a job, or a backup that is due, with what happens to the calls of the job. -/
structure Request where
  ticket : Ticket
  action : Action
  turns : List (Turn Chance)

namespace Maintenance

variable (sha256 : Archive → String)

/-- The calls of the job that a request starts. -/
def calls (r : Request) (m : Machine) : List Seen :=
  trace (device sha256).handler (untilRelease r.ticket r.action) r.turns m

/-- A request is refused while a restore is pending or the lock is held. A broker that was stopped
comes back with a lock of its own. -/
def serve (r : Request) (s : Maintenance) : Maintenance :=
  if s.machine.store.pending ∨ s.locked then s
  else
    match exec (device sha256).handler (untilRelease r.ticket r.action) r.turns s.machine with
    | (.failed _, m) => ⟨m, true⟩
    | (_, m) => ⟨m, false⟩

variable {sha256}

theorem serve_locked (h : s.locked = true) (r : Request) : (serve sha256 r s).locked = true := by
  rw [serve, if_pos (.inr h)]
  exact h

theorem after_locked (h : s.locked = true) (rs : List Request) :
    (after (serve sha256) rs s).locked = true := by
  induction rs generalizing s with
  | nil => exact h
  | cons r rs ih => exact ih (serve_locked h r)

theorem serve_unlocked (h : s.locked = false) (hr : Shielded (calls sha256 r s.machine)) :
    (serve sha256 r s).locked = false := by
  have hran := ran_exec (H := (device sha256).handler)
    (untilRelease r.ticket r.action) r.turns s.machine
  rw [serve]
  split
  · exact h
  split
  · next e m hexec =>
    rw [hexec] at hran
    obtain ⟨left, he⟩ := ((frees_iff_shielded hran nofun).mpr hr).released
    cases he
  · rfl

/-- A job that is not stopped releases the lock and starts the services again exactly if none of the
calls failed that no handler stands around; so the lock is never held between jobs whose calls are
such. -/
theorem job_frees_lock (sha256 : Archive → String) : (∀ ticket action m exit m' calls,
      Ran (device sha256).handler (untilRelease ticket action) m exit m' calls → exit ≠ .stopped →
      (Frees exit m' calls ↔ Shielded calls)) ∧
    ∀ m rs, Along (serve sha256) (fun r s => Shielded (calls sha256 r s.machine)) rs ⟨m, false⟩ →
      (after (serve sha256) rs ⟨m, false⟩).locked = false := by
  refine ⟨fun ticket action m exit m' calls h hstop => frees_iff_shielded h hstop, ?_⟩
  intro m rs hrs
  exact hrs.invariant (P := fun s => s.locked = false) (fun r s hs hr => serve_unlocked hs hr) rfl

/-- A backup that cannot note its intent. -/
def intentLost : Request := ⟨⟨"0", 0⟩, .backup, [.done {}, .done {}, .failed {}]⟩

def dockerRunning : Machine := ⟨fun _ => {}, {}, { running := [.docker] }⟩

theorem intentLost_frees_lock :
    (∃ e ∈ calls (fun _ => "") intentLost dockerRunning, e.Failed) ∧
    (after (serve fun _ => "") [intentLost] ⟨dockerRunning, false⟩).locked = false := by
  have hcalls : calls (fun _ => "") intentLost dockerRunning = [_, _, _, _, _, _] := rfl
  have hshielded : Shielded (calls (fun _ => "") intentLost dockerRunning) := by
    rw [hcalls]
    simp [Shielded, covered_cons, covered_nil, Seen.Failed]
  refine ⟨?_, (job_frees_lock fun _ => "").2 dockerRunning [intentLost] ⟨hshielded, trivial⟩⟩
  rw [hcalls]
  simp [Seen.Failed]

/-- The store cannot be written when the job begins. -/
def fullStore : Request := ⟨⟨"0", 0⟩, .backup, [.failed {}]⟩

/-- The first status is written before anything is caught: the lock stays held, and every later
request is refused. -/
theorem first_status_keeps_lock :
    (exec (device fun _ => "").handler (untilRelease fullStore.ticket fullStore.action)
      fullStore.turns ⟨fun _ => {}, {}, {}⟩).1 = .failed ⟨"OSError", ""⟩ ∧
    ∀ rs, (after (serve fun _ => "") (fullStore :: rs) ⟨⟨fun _ => {}, {}, {}⟩, false⟩).locked =
      true :=
  ⟨rfl, fun rs => after_locked rfl rs⟩

end Maintenance

end Rumahl.Host
