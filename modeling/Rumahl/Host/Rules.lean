import Rumahl.Host.Jobs

/-!
# Rules for the calls of the broker

One rule for the calls on volumes (`volume_spec`), one for those that only look at a volume
(`look_spec`), one for the store and one for the system.
-/

namespace Rumahl.Host

open Effect

@[simp] theorem Machine.setVolume_self (m : Machine) (v : VolumeName) :
    m.setVolume v (m.volumes v) = m := by
  have h : (fun v' => if v' = v then m.volumes v else m.volumes v') = m.volumes := by
    funext v'
    split
    · next h => rw [h]
    · rfl
  rw [setVolume, h]

@[simp] theorem Machine.setVolume_volumes (m : Machine) (v v' : VolumeName) (w : Volume) :
    (m.setVolume v w).volumes v' = if v' = v then w else m.volumes v' := rfl

theorem Machine.setVolume_same (m : Machine) (v : VolumeName) (w : Volume) :
    (m.setVolume v w).volumes v = w := if_pos rfl

@[simp] theorem Machine.setVolume_setVolume (m : Machine) (v : VolumeName) (w w' : Volume) :
    (m.setVolume v w).setVolume v w' = m.setVolume v w' := by
  simp only [setVolume, Machine.mk.injEq, and_true]
  funext v'
  split <;> rfl

@[simp] theorem Machine.setVolume_store (m : Machine) (v : VolumeName) (w : Volume) :
    (m.setVolume v w).store = m.store := rfl

/-- A call that only looks at a volume. -/
def VolumeCall.Looks : VolumeCall → Prop
  | .status | .look _ | .list _ | .touch _ | .archive | .tables _ => True
  | _ => False

theorem VolumeCall.apply_of_looks {c : VolumeCall} {r : c.Result} (hc : c.Looks)
    (h : c.apply left w = .ok (r, w')) : w' = w := by
  cases c with
  | status | look p | touch p | archive => cases h; rfl
  | list p =>
    simp only [VolumeCall.apply] at h
    split at h <;> cases h
    rfl
  | tables p =>
    simp only [VolumeCall.apply] at h
    split at h
    · split at h <;> cases h
      rfl
    · cases h
  | _ => exact hc.elim

theorem VolumeCall.disturb_of_looks {c : VolumeCall} (hc : c.Looks) (chance : Chance) :
    c.disturb chance w = w := by
  unfold disturb
  split
  all_goals first | exact hc.elim | skip
  split
  · next h => exact apply_of_looks hc h
  · rfl

/-- A call that has its whole effect or none. -/
def VolumeCall.Whole : VolumeCall → Prop
  | .extract .. | .rmtree _ | .write .. => False
  | _ => True

theorem VolumeCall.disturb_of_whole {c : VolumeCall} (hc : c.Whole) (chance : Chance) (w : Volume) :
    c.disturb chance w = w ∨ ∃ r, c.apply chance.left w = .ok (r, c.disturb chance w) := by
  unfold disturb
  split
  all_goals first | exact hc.elim | skip
  split
  · next r w' h => exact .inr ⟨r, h⟩
  · exact .inl rfl

/-- A call that only reads the store. -/
def StoreCall.Reads : StoreCall → Prop
  | .pendingExists | .names | .readArchive .. | .digest .. | .readManifest _ | .loadSchedule => True
  | _ => False

theorem StoreCall.apply_of_reads {c : StoreCall} {r : c.Result} (hc : c.Reads)
    (h : c.apply sha256 s = .ok (r, s')) : s' = s := by
  cases c with
  | pendingExists | names | loadSchedule => cases h; rfl
  | readArchive | digest | readManifest =>
    simp only [StoreCall.apply] at h
    split at h <;> cases h
    rfl
  | _ => exact hc.elim

section

variable {sha256 : Archive → String} {faulty : Prop} {may : Call → Machine → Prop}
  {H : Handler Call Answer I Machine} {K : Machine → Prop} {m : Machine}

section

variable (hH : (device sha256).Serves faulty may H)
include hH

theorem call_spec (hK : K m) (hfail : faulty → may c m → ∀ chance, K (c.fail sha256 chance m).2)
    (hdone : ∀ chance r m', c.carry sha256 chance m = (.ok r, m') → Q r m')
    (herr : ∀ chance e m', c.carry sha256 chance m = (.error e, m') → faulty ∧ K m') :
    Completes H faulty K (call c) Q m := by
  refine Device.call_spec hH hK (fun chance => ?_) fun hf hm chance => ?_
  · cases hcarry : (device sha256).carry c chance m with
    | mk a m' =>
      cases a with
      | ok r => exact hdone chance r m' hcarry
      | error e =>
        obtain ⟨hf, hK'⟩ := herr chance e m' hcarry
        exact ⟨hf, hf, hK'⟩
  · have hfail := hfail hf hm chance
    cases c <;> exact ⟨hf, hf, hfail⟩

theorem volume_spec (hK : K m) (hfail : faulty → may (.volume v c) m → ∀ chance,
      K (m.setVolume v (c.disturb chance (m.volumes v))))
    (hdone : ∀ left r w, c.apply left (m.volumes v) = .ok (r, w) → Q r (m.setVolume v w))
    (herr : ∀ left e, c.apply left (m.volumes v) = .error e → faulty) :
    Completes H faulty K (onVolume v c) Q m := by
  refine call_spec hH hK (fun hf hm chance => ?_) (fun chance r m' hcarry => ?_)
    fun chance e m' hcarry => ?_
  · simp only [Call.fail]
    split
    · exact hfail hf hm chance
    · exact hK
  · simp only [Call.carry] at hcarry
    split at hcarry
    · next r' w happly =>
      cases hcarry
      exact hdone _ _ _ happly
    · cases hcarry
  · simp only [Call.carry] at hcarry
    split at hcarry
    · cases hcarry
    · next e' happly =>
      cases hcarry
      exact ⟨herr _ _ happly, hK⟩

/-- A call that has its whole effect or none, also when it is disturbed. -/
theorem effect_spec {Q : c.Result → Machine → Prop} (hc : c.Whole) (hK : K m)
    (hdone : ∀ left r w, c.apply left (m.volumes v) = .ok (r, w) →
      K (m.setVolume v w) ∧ Q r (m.setVolume v w))
    (herr : ∀ left e, c.apply left (m.volumes v) = .error e → faulty) :
    Completes H faulty K (onVolume v c) Q m := by
  refine volume_spec hH hK (fun _ _ chance => ?_) (fun left r w h => (hdone left r w h).2) herr
  obtain hsame | ⟨r, h⟩ := VolumeCall.disturb_of_whole hc chance (m.volumes v)
  · rw [hsame, m.setVolume_self]
    exact hK
  · exact (hdone _ r _ h).1

/-- A call that only looks, and fails only if it is disturbed. -/
theorem look_spec {c : VolumeCall} {Q : c.Result → Machine → Prop} (hc : c.Looks) (hK : K m)
    (hdone : ∀ left r, c.apply left (m.volumes v) = .ok (r, m.volumes v) → Q r m)
    (herr : ∀ left e, c.apply left (m.volumes v) = .error e → faulty) :
    Completes H faulty K (onVolume v c) Q m := by
  refine volume_spec hH hK (fun _ _ chance => ?_) (fun left r w happly => ?_) herr
  · rw [VolumeCall.disturb_of_looks hc, m.setVolume_self]
    exact hK
  · cases VolumeCall.apply_of_looks hc happly
    rw [m.setVolume_self]
    exact hdone left r happly

theorem store_spec {Q : c.Result → Machine → Prop} (hK : K m)
    (hdone : ∀ r s, c.apply sha256 m.store = .ok (r, s) →
      K { m with store := s } ∧ Q r { m with store := s })
    (herr : ∀ e, c.apply sha256 m.store = .error e → faulty) :
    Completes H faulty K (onStore c) Q m := by
  have hcarry : ∀ chance, K ((Call.store c).carry sha256 chance m).2 := by
    intro chance
    simp only [Call.carry]
    split
    · next r s happly => exact (hdone r s happly).1
    · exact hK
  refine call_spec hH hK (fun _ _ chance => ?_) (fun chance r m' h => ?_) fun chance e m' h => ?_
  · simp only [Call.fail]
    split
    · exact hcarry chance
    · exact hK
  · simp only [Call.carry] at h
    split at h
    · next happly =>
      cases h
      exact (hdone _ _ happly).2
    · cases h
  · simp only [Call.carry] at h
    split at h
    · cases h
    · next happly =>
      cases h
      exact ⟨herr _ happly, hK⟩

theorem read_spec {c : StoreCall} {Q : c.Result → Machine → Prop} (hc : c.Reads) (hK : K m)
    (hdone : ∀ r, c.apply sha256 m.store = .ok (r, m.store) → Q r m)
    (herr : ∀ e, c.apply sha256 m.store = .error e → faulty) :
    Completes H faulty K (onStore c) Q m := by
  refine store_spec hH hK (fun r s happly => ?_) herr
  cases StoreCall.apply_of_reads hc happly
  exact ⟨hK, hdone r happly⟩

theorem system_spec {Q : c.Result → Machine → Prop} (hK : K m)
    (hdone : K { m with system := (c.apply m.system).2 } ∧
      Q (c.apply m.system).1 { m with system := (c.apply m.system).2 }) :
    Completes H faulty K (onSystem c) Q m := by
  refine call_spec hH hK (fun _ _ chance => ?_) (fun chance r m' h => ?_) fun chance e m' h => ?_
  · simp only [Call.fail]
    split
    · exact hdone.1
    · exact hK
  · cases h
    exact hdone.2
  · cases h

end

/-! ## Calls with a known result -/

variable {Q : α → Machine → Prop}

section

variable (hH : (device sha256).Serves faulty may H)
include hH

theorem look_bind {c : VolumeCall} {r : c.Result} {f : c.Result → Broker α} (hc : c.Looks)
    (hK : K m) (happly : ∀ left, c.apply left (m.volumes v) = .ok (r, m.volumes v))
    (hf : Completes H faulty K (f r) Q m) : Completes H faulty K (onVolume v c >>= f) Q m := by
  refine Completes.bind_eq (look_spec hH hc hK (fun left r' h => ?_) fun left e h => ?_) hf
  · cases (happly left).symm.trans h
    exact ⟨rfl, rfl⟩
  · cases (happly left).symm.trans h

theorem store_bind {r : c.Result} {f : c.Result → Broker α} (hK : K m)
    (hK' : K { m with store := s }) (happly : c.apply sha256 m.store = .ok (r, s))
    (hf : Completes H faulty K (f r) Q { m with store := s }) :
    Completes H faulty K (onStore c >>= f) Q m := by
  refine Completes.bind_eq (store_spec hH hK (fun r' s' h => ?_) fun e h => ?_) hf
  · cases happly.symm.trans h
    exact ⟨hK', rfl, rfl⟩
  · cases happly.symm.trans h

theorem read_bind {r : c.Result} {f : c.Result → Broker α} (hK : K m)
    (happly : c.apply sha256 m.store = .ok (r, m.store)) (hf : Completes H faulty K (f r) Q m) :
    Completes H faulty K (onStore c >>= f) Q m :=
  store_bind hH hK hK happly hf

theorem sync_bind {f : Unit → Broker α} (hK : K m) (hf : Completes H faulty K (f ()) Q m) :
    Completes H faulty K (onSystem .sync >>= f) Q m :=
  Completes.bind_eq (system_spec hH hK ⟨hK, rfl, rfl⟩) hf

end

/-! ## Calls that may fail -/

section

variable (hH : (device sha256).Serves True may H)

include hH

/-- A call that only looks, whatever it finds. -/
theorem look_then {c : VolumeCall} {f : c.Result → Broker α} (hc : c.Looks) (hK : K m)
    (hf : ∀ left r, c.apply left (m.volumes v) = .ok (r, m.volumes v) →
      Completes H True K (f r) Q m) : Completes H True K (onVolume v c >>= f) Q m := by
  refine Completes.bind (look_spec (Q := fun r m' => m' = m ∧ Completes H True K (f r) Q m) hH hc hK
    (fun left r h => ⟨rfl, hf left r h⟩) fun _ _ _ => trivial) ?_
  rintro r m' ⟨rfl, h⟩
  exact h

theorem read_then {c : StoreCall} {f : c.Result → Broker α} (hc : c.Reads) (hK : K m)
    (hf : ∀ r, c.apply sha256 m.store = .ok (r, m.store) → Completes H True K (f r) Q m) :
    Completes H True K (onStore c >>= f) Q m := by
  refine Completes.bind (read_spec (Q := fun r m' => m' = m ∧ Completes H True K (f r) Q m) hH hc hK
    (fun r h => ⟨rfl, hf r h⟩) fun _ _ => trivial) ?_
  rintro r m' ⟨rfl, h⟩
  exact h

theorem effect_then {c : VolumeCall} {f : c.Result → Broker α} (hc : c.Whole) (hK : K m)
    (hf : ∀ left r w, c.apply left (m.volumes v) = .ok (r, w) →
      K (m.setVolume v w) ∧ Completes H True K (f r) Q (m.setVolume v w)) :
    Completes H True K (onVolume v c >>= f) Q m :=
  Completes.bind (effect_spec hH hc hK hf fun _ _ _ => trivial) fun _ _ h => h

end

theorem check_bind (hK : K m) (hx : faulty ∨ x = .ok ())
    (hf : x = .ok () → Completes H faulty K (f ()) Q m) :
    Completes H faulty K (Prog.ofExcept id x >>= f) Q m := by
  cases x with
  | ok => exact hf rfl
  | error e => exact Completes.throw (hx.resolve_right (nomatch ·)) hK

end

theorem readArchive_apply
    (h : (Store.find name s.backups).bind (fun b => Store.archive? v b.archives) = some members) :
    StoreCall.apply sha256 s (.readArchive name v) = .ok (members, s) := by
  simp only [StoreCall.apply, h]

theorem readArchive_eq_ok (h : StoreCall.apply sha256 s (.readArchive name v) = .ok (members, s')) :
    (Store.find name s.backups).bind (fun b => Store.archive? v b.archives) = some members := by
  simp only [StoreCall.apply] at h
  split at h <;> cases h
  assumption

theorem digest_apply
    (h : (Store.find name s.backups).bind (fun b => Store.archive? v b.archives) = some members) :
    StoreCall.apply sha256 s (.digest name v) = .ok (sha256 members, s) := by
  simp only [StoreCall.apply, h]

end Rumahl.Host
