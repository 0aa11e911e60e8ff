import Rumahl.Effect.CrashLogic

/-!
# Devices that fail

A `Device` carries a call out, or fails it after a part of its effect; both may depend on a choice
that is not the program's. Its handler also lets the process stop before a call. `Device.call_spec`
is the rule for a call under any handler that fails a call only where it may (`Device.Serves`).
-/

namespace Effect

structure Device (C : Type) (A : C → Type) (D W : Type) where
  carry : (c : C) → D → W → A c × W
  fail : (c : C) → D → W → A c × W

/-- What becomes of a call. -/
inductive Turn (D : Type) where
  | done (d : D)
  | failed (d : D)
  | stopped

instance [Inhabited D] : Inhabited (Turn D) := ⟨.done default⟩

namespace Device

variable {C : Type} {A : C → Type} {D I W ε α : Type}

def handler (dev : Device C A D W) : Handler C A (Turn D) W where
  step c turn w :=
    match turn with
    | .done d => some (dev.carry c d w)
    | .failed d => some (dev.fail c d w)
    | .stopped => none

/-- The environment carries calls out, and fails one only if it is faulty and the call may fail in
this world. -/
def Serves (dev : Device C A D W) (faulty : Prop) (may : C → W → Prop) (H : Handler C A I W) :
    Prop :=
  ∀ c i w a w', H.step c i w = some (a, w') →
    (∃ d, dev.carry c d w = (a, w')) ∨ faulty ∧ may c w ∧ ∃ d, dev.fail c d w = (a, w')

theorem handler_serves (dev : Device C A D W) : dev.Serves True (fun _ _ => True) dev.handler := by
  intro c turn w a w' hstep
  cases turn with
  | done d => exact .inl ⟨d, Option.some.inj hstep⟩
  | failed d => exact .inr ⟨trivial, trivial, d, Option.some.inj hstep⟩
  | stopped => cases hstep

theorem undisturbed_serves (dev : Device C A D W) (may : C → W → Prop) :
    dev.Serves False may (dev.handler.comap Turn.done) := by
  intro c d w a w' hstep
  exact .inl ⟨d, Option.some.inj hstep⟩

variable {dev : Device C A D W} {faulty : Prop} {may : C → W → Prop} {H : Handler C A I W}
  {K : W → Prop} {Q : α → W → Prop}

theorem call_spec {k : A c → Prog C A ε α} (hH : dev.Serves faulty may H) (hK : K w)
    (hdone : ∀ d, Completes H faulty K (k (dev.carry c d w).1) Q (dev.carry c d w).2)
    (hfail : faulty → may c w → ∀ d, Completes H faulty K (k (dev.fail c d w).1) Q
      (dev.fail c d w).2) :
    Completes H faulty K (.call c k) Q w := by
  refine ⟨trivial, fun hf => ⟨hf rfl, hK⟩, fun i a w' hstep _ => ?_⟩
  obtain ⟨d, hd⟩ | ⟨hf, hmay, d, hd⟩ := hH c i w a w' hstep
  · have h := hdone d
    rwa [hd] at h
  · have h := hfail hf hmay d
    rwa [hd] at h

/-- A program that fails only where it is disturbed returns when it is not. -/
theorem returns_undisturbed [Inhabited D]
    (h : Completes (dev.handler.comap Turn.done) False K p Q w) (ds : List D) :
    ∃ a w', exec dev.handler p (ds.map Turn.done) w = (.done a, w') ∧ Q a w' := by
  have hreturns := h.returns (fun _ _ _ => rfl) ds
  rwa [exec_comap dev.handler (f := Turn.done) rfl] at hreturns

end Device

end Effect
