import Rumahl.Host.Programs

/-!
# The marker of a restore

What verifies a backup leaves the volumes alone (`Quiet`), and only the last part of a restore
removes the marker (`KeepsMarker`). So the marker is there at every change of a volume
(`restoreSnapshot_marked`).
-/

namespace Rumahl.Host

open Effect

/-- A call that does not remove the marker. -/
def KeepsMarker : Call → Prop
  | .store c => c ≠ .clearPending
  | _ => True

/-- A call that does not change a volume either. -/
def Quiet : Call → Prop
  | .volume _ c => c.Looks
  | .store c => c ≠ .clearPending
  | .system _ => True

theorem admits_keepsMarker : Admits (fun _ => True) KeepsMarker where
  volume _ _ _ := trivial
  store _ _ hclear _ := hclear
  system _ _ _ := trivial

theorem admits_quiet : Admits VolumeCall.Looks Quiet where
  volume _ _ hc := hc
  store _ _ hclear _ := hclear
  system _ _ _ := trivial

/-! ## Where the marker is -/

section

variable {sha256 : Archive → String} {m : Machine}

theorem StoreCall.apply_pending {c : StoreCall} {r : c.Result} (hset : ∀ id, c ≠ .setPending id)
    (hclear : c ≠ .clearPending) (h : c.apply sha256 s = .ok (r, s')) : s'.pending = s.pending := by
  cases c with
  | clearPending => exact absurd rfl hclear
  | setPending id => exact absurd rfl (hset id)
  | pendingExists | putJob | setSafeMode | putLastRestore | names | remove | loadSchedule =>
    cases h
    rfl
  | makeDirectory | putArchive | readArchive | digest | putManifest | readManifest =>
    simp only [StoreCall.apply] at h
    split at h <;> cases h
    rfl
  | rename =>
    simp only [StoreCall.apply] at h
    split at h
    · cases h
    split at h <;> cases h
    rfl

theorem step_store (hstep : (device sha256).handler.step c turn m = some (a, m')) :
    m'.store = m.store ∨ ∃ c' r, c = .store c' ∧ c'.apply sha256 m.store = .ok (r, m'.store) := by
  have hcarry (chance : Chance) : (c.carry sha256 chance m).2.store = m.store ∨
      ∃ c' r, c = .store c' ∧ c'.apply sha256 m.store =
        .ok (r, (c.carry sha256 chance m).2.store) := by
    cases c with
    | volume v c =>
      simp only [Call.carry]
      split <;> exact .inl rfl
    | system c => exact .inl rfl
    | store c =>
      simp only [Call.carry]
      split
      · next r s happly => exact .inr ⟨c, r, rfl, happly⟩
      · exact .inl rfl
  have hfail (chance : Chance) : (c.fail sha256 chance m).2.store = m.store ∨
      ∃ c' r, c = .store c' ∧ c'.apply sha256 m.store =
        .ok (r, (c.fail sha256 chance m).2.store) := by
    cases c with
    | volume v c =>
      simp only [Call.fail]
      split <;> exact .inl rfl
    | _ =>
      simp only [Call.fail]
      split
      · exact hcarry chance
      · exact .inl rfl
  obtain ⟨chance, hcase⟩ | ⟨-, -, chance, hcase⟩ :=
    (device sha256).handler_serves c turn m a m' hstep
  · have hkept := hcarry chance
    rwa [show c.carry sha256 chance m = (a, m') from hcase] at hkept
  · have hkept := hfail chance
    rwa [show c.fail sha256 chance m = (a, m') from hcase] at hkept

/-- The marker stays through a call that does not remove it, and through one that fails. -/
theorem KeepsMarker.step {c : Call} {a : Answer c} (hc : KeepsMarker c)
    (h : m.store.pending = true) (hstep : (device sha256).handler.step c turn m = some (a, m')) :
    m'.store.pending = true := by
  obtain he | ⟨c, r, rfl, happly⟩ := step_store hstep
  · rw [he, h]
  · by_cases hset : ∃ id, c = .setPending id
    · obtain ⟨id, rfl⟩ := hset
      exact congrArg (·.pending) (Prod.mk.inj (Except.ok.inj happly)).2 ▸ rfl
    · rw [StoreCall.apply_pending (fun id he => hset ⟨id, he⟩) hc happly, h]

/-- At a call that changes a volume the marker is there. -/
def Marked (c : Call) (m : Machine) : Prop :=
  ∀ v c', c = .volume v c' → ¬c'.Looks → m.store.pending = true

def marked : Contract Call Answer Machine where
  allows _ _ := True
  requires := Marked

/-- Nothing is asked of the end. -/
def anyEnd : Post Machine BrokerError α := ⟨fun _ _ => True, fun _ _ => True, fun _ => True⟩

theorem Quiet.marked (h : Quiet c) (m : Machine) : Marked c m := by
  rintro v c' rfl hlooks
  exact absurd h hlooks

theorem marked_bind {f : α → Broker β} (hp : Makes KeepsMarker p) (hm : m.store.pending = true)
    (hf : ∀ a m', m'.store.pending = true → wp (device sha256).handler marked (f a) anyEnd m') :
    wp (device sha256).handler marked (p >>= f) anyEnd m := by
  refine wp.bind (wp.mono (Prog.Only.keeps hp (fun c w _ hw => ?_)
    (fun c i a w w' hc hw hstep => KeepsMarker.step hc hw hstep) hm) ?_ ?_ ?_)
  · exact fun _ _ _ _ => hw
  · rintro a m' ⟨-, hm'⟩
    exact hf a m' hm'
  · exact fun _ _ _ => trivial
  · exact fun _ _ => trivial

theorem quiet_bind (hp : Makes Quiet p)
    (hf : ∀ a m', wp (device sha256).handler marked (f a) anyEnd m') (m : Machine) :
    wp (device sha256).handler marked (p >>= f) anyEnd m := by
  refine wp.bind (wp.mono (Prog.Only.keeps hp (fun c w hc _ => hc.marked w)
    (fun _ _ _ _ _ _ _ _ => trivial) trivial) ?_ ?_ ?_)
  · exact fun a m' _ => hf a m'
  · exact fun _ _ _ => trivial
  · exact fun _ _ => trivial

theorem setPending_bind {f : Unit → Broker β} (identifier : String)
    (hf : ∀ m', m'.store.pending = true → wp (device sha256).handler marked (f ()) anyEnd m')
    (m : Machine) :
    wp (device sha256).handler marked (onStore (.setPending identifier) >>= f) anyEnd m := by
  refine ⟨nofun, fun _ => trivial, fun turn a m' hstep _ => ?_⟩
  cases turn with
  | done chance =>
    cases hstep
    exact hf _ rfl
  | failed chance =>
    cases hstep
    trivial
  | stopped => cases hstep

theorem restoreSnapshot_marked (sha256 : Archive → String) (identifier : String)
    (binding : List (String × String)) (turns : List (Turn Chance)) (m : Machine) :
    ∀ e ∈ trace (device sha256).handler (restoreSnapshot identifier binding) turns m,
      Marked e.call e.before := by
  refine wp_trace (D := marked) (Q := anyEnd) ?_ fun _ _ => trivial
  have hkeeps := admits_keepsMarker
  refine quiet_bind (admits_quiet.verify identifier binding) (fun _ => ?_) m
  refine setPending_bind identifier fun m hm => ?_
  refine marked_bind (hkeeps.stageVolumes (fun _ => trivial) ..) hm fun _ m hm => ?_
  refine marked_bind (hkeeps.invalidateSessions (fun _ => trivial) _) hm fun _ m hm => ?_
  refine marked_bind (hkeeps.onVolume _ trivial) hm fun settings m hm => ?_
  split
  · trivial
  refine marked_bind (hkeeps.writeSettings (fun _ => trivial) ..) hm fun _ m hm => ?_
  refine setPending_bind identifier (fun m hm => ?_) m
  refine marked_bind (hkeeps.replaceVolumes (fun _ => trivial) _) hm fun _ m hm => ?_
  refine marked_bind (hkeeps.onSystem nofun nofun) hm fun _ m hm => ?_
  refine marked_bind (hkeeps.removePrevious (fun _ => trivial) _) hm fun _ m hm => ?_
  refine marked_bind (hkeeps.onStore nofun nofun nofun) hm fun _ m hm => ?_
  refine marked_bind (hkeeps.onStore nofun nofun nofun) hm fun _ m hm => ?_
  -- after the marker is removed no volume is changed
  refine ⟨nofun, fun _ => trivial, fun _ a m' _ _ => ?_⟩
  cases a with
  | error e => trivial
  | ok _ =>
    refine ⟨nofun, fun _ => trivial, fun _ a m' _ _ => ?_⟩
    cases a <;> trivial

end

end Rumahl.Host
