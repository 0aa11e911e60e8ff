import Rumahl.Effect.CrashLogic

/-!
# Calls that are programs themselves

`Prog.refine` replaces every call of a program by a program that answers it, so that a stop can also
fall inside of what was one call before. `wp.refine` carries a specification over: if each of the
inner programs does what one step of the abstract environment may do, then the refined program meets
the specification of the abstract one, whatever happens to the part of the world that only the inner
programs see. That part is kept by an invariant, over the calls that the contract lets the program
make; `Prog.Only` and `wp.guarded` say which these are.
-/

namespace Effect

namespace Prog

variable {C C' : Type} {A : C → Type} {A' : C' → Type} {ε ε' α β : Type}

/-- Under whatever answers, the program only makes calls of `Φ` and only returns results of `Ψ`. -/
def Only (Φ : C → Prop) (Ψ : α → Prop) : Prog C A ε α → Prop
  | .ret a => Ψ a
  | .throw _ => True
  | .call c k => Φ c ∧ ∀ a, (k a).Only Φ Ψ

namespace Only

variable {Φ : C → Prop} {Ψ : α → Prop} {Ψ' : β → Prop}

theorem bind {f : α → Prog C A ε β} (hp : p.Only Φ Ψ) (hf : ∀ a, Ψ a → (f a).Only Φ Ψ') :
    (p >>= f).Only Φ Ψ' := by
  induction p with
  | ret a => exact hf a hp
  | throw e => trivial
  | call c k ih => exact ⟨hp.1, fun a => ih a (hp.2 a)⟩

theorem mono {p : Prog C A ε α} (hp : p.Only Φ Ψ) (h : ∀ c, Φ c → Φ' c) : p.Only Φ' Ψ := by
  induction p with
  | ret a => exact hp
  | throw e => trivial
  | call c k ih => exact ⟨h c hp.1, fun a => ih a (hp.2 a)⟩

theorem ofExcept (wrap : ε' → ε) (h : ∀ a, x = .ok a → Ψ a) :
    (Prog.ofExcept wrap x : Prog C A ε α).Only Φ Ψ := by
  cases x with
  | ok a => exact h a rfl
  | error e => trivial

theorem attempt {Ψ : Except ε α → Prop} {p : Prog C A ε α} (hp : p.Only Φ fun a => Ψ (.ok a))
    (he : ∀ e, Ψ (.error e)) : (p.attempt : Prog C A ε' (Except ε α)).Only Φ Ψ := by
  induction p with
  | ret a => exact hp
  | throw e => exact he e
  | call c k ih => exact ⟨hp.1, fun a => ih a (hp.2 a)⟩

end Only

/-- The program with every call replaced by a program that answers it. -/
def refine (f : (c : C) → Prog C' A' ε (A c)) : Prog C A ε α → Prog C' A' ε α
  | .ret a => .ret a
  | .throw e => .throw e
  | .call c k => f c >>= fun a => (k a).refine f

/-- The program in an environment that answers other calls as well. -/
def inr : Prog C' A' ε α → Prog (C ⊕ C') (Sum.elim A A') ε α
  | .ret a => .ret a
  | .throw e => .throw e
  | .call c k => .call (.inr c) fun a => (k a).inr

end Prog

section
variable {C C' : Type} {A : C → Type} {A' : C' → Type} {I W W' ε α : Type}

/-- Two environments side by side. -/
def Handler.sum (H : Handler C A I W) (H' : Handler C' A' I W') :
    Handler (C ⊕ C') (Sum.elim A A') I (W × W') where
  step
    | .inl c, i, w => (H.step c i w.1).map fun r => (r.1, (r.2, w.2))
    | .inr c, i, w => (H'.step c i w.2).map fun r => (r.1, (w.1, r.2))

/-- A contract for two environments that owes nothing at a call. -/
def Contract.sum (allows : (c : C) → Option (A c) → Prop)
    (allows' : (c : C') → Option (A' c) → Prop) : Contract (C ⊕ C') (Sum.elim A A') (W × W') where
  allows
    | .inl c => allows c
    | .inr c => allows' c
  requires _ _ := True

variable {H : Handler C A I W} {H' : Handler C' A' I W'}
  {allows : (c : C) → Option (A c) → Prop} {allows' : (c : C') → Option (A' c) → Prop}

theorem wp.perform_inl (hstop : allows c none → Q.stopped w)
    (hdone : ∀ i a w1, H.step c i w.1 = some (a, w1) → allows c (some a) → Q.done a (w1, w.2)) :
    wp (H.sum H') (.sum allows allows')
      (Prog.perform (Sum.inl c) : Prog (C ⊕ C') (Sum.elim A A') ε (A c)) Q w := by
  refine ⟨trivial, hstop, fun i a w' hstep ha => ?_⟩
  obtain ⟨⟨a', w1⟩, hs, he⟩ := Option.map_eq_some_iff.mp hstep
  cases he
  exact hdone i a' w1 hs ha

theorem wp.inr {Q : Post (W × W') ε α} {w : W} {w' : W'} (h : wp H' ⟨allows', fun _ _ => True⟩ p
      ⟨fun a w' => Q.done a (w, w'), fun e w' => Q.failed e (w, w'), fun w' => Q.stopped (w, w')⟩
      w') : wp (H.sum H') (.sum allows allows') p.inr Q (w, w') := by
  induction p generalizing w' with
  | ret a => exact h
  | throw e => exact h
  | call c k ih =>
    obtain ⟨-, hs, hk⟩ := h
    refine ⟨trivial, hs, fun i a w1 hstep ha => ?_⟩
    obtain ⟨⟨a', w2⟩, hs', he⟩ := Option.map_eq_some_iff.mp hstep
    cases he
    exact ih a' (hk i a' w2 hs' ha)

end

section
variable {C C' : Type} {A : C → Type} {A' : C' → Type} {I I' W W' ε α : Type}
variable {H : Handler C A I W} {D : Contract C A W} {H' : Handler C' A' I' W'}
  {D' : Contract C' A' W'}

/-- What every step keeps holds wherever a run ends, beside what the run is specified to do. -/
theorem wp.invariant {Q : Post W ε α} {J : W → Prop} (h : wp H D p Q w) (hw : J w)
    (hstep : ∀ c i a w w', J w → H.step c i w = some (a, w') → D.allows c (some a) → J w') :
    wp H D p ⟨fun a w => Q.done a w ∧ J w, fun e w => Q.failed e w ∧ J w,
      fun w => Q.stopped w ∧ J w⟩ w := by
  induction p generalizing w with
  | ret a => exact ⟨h, hw⟩
  | throw e => exact ⟨h, hw⟩
  | call c k ih =>
    obtain ⟨hr, hs, hk⟩ := h
    exact ⟨hr, fun ha => ⟨hs ha, hw⟩,
      fun i a w' hi ha => ih a (hk i a w' hi ha) (hstep c i a w w' hw hi ha)⟩

theorem wp.unstopped (h : wp H D p Q w) (hstop : ∀ c, ¬D.allows c none) (K : W → Prop) :
    wp H D p ⟨Q.done, Q.failed, K⟩ w := by
  induction p generalizing w with
  | ret a => exact h
  | throw e => exact h
  | call c k ih =>
    obtain ⟨hr, -, hk⟩ := h
    exact ⟨hr, fun ha => absurd ha (hstop c), fun i a w' hi ha => ih a (hk i a w' hi ha)⟩

/-- What the calls of `Φ` keep holds along a program that can make no others. -/
theorem Prog.Only.keeps (hp : p.Only Φ Ψ) (hreq : ∀ c w, Φ c → J w → D.requires c w)
    (hstep : ∀ c i a w w', Φ c → J w → H.step c i w = some (a, w') → J w') (hw : J w) :
    Effect.wp H D p ⟨fun a w => Ψ a ∧ J w, fun _ w => J w, J⟩ w := by
  induction p generalizing w with
  | ret a => exact ⟨hp, hw⟩
  | throw e => exact hw
  | call c k ih =>
    exact ⟨hreq c w hp.1 hw, fun _ => hw,
      fun i a w' hi _ => ih a (hp.2 a) (hstep c i a w w' hp.1 hw hi)⟩

/-- A program that can only make calls of `Φ` owes nothing else. -/
theorem Prog.Only.wp (hp : p.Only Φ Ψ) (w : W) : Effect.wp H ⟨allows, fun c _ => Φ c⟩ p
      ⟨fun _ _ => True, fun _ _ => True, fun _ => True⟩ w :=
  wp.mono (hp.keeps (fun _ _ hc _ => hc) (fun _ _ _ _ _ _ _ _ => trivial)
    trivial) (fun _ _ _ => trivial) (fun _ _ _ => trivial) fun _ _ => trivial

theorem Prog.Only.trace [Inhabited I] (hp : p.Only Φ Ψ) (is : List I) (w : W) :
    ∀ e ∈ Effect.trace H p is w, Φ e.call :=
  wp_trace (hp.wp w) fun _ _ => trivial

/-- What is owed at the calls can be shown by a specification of its own. -/
theorem wp.guarded (h : wp H D p Q w)
    (h' : wp H ⟨D.allows, Φ⟩ p ⟨fun _ _ => True, fun _ _ => True, fun _ => True⟩ w) :
    wp H ⟨D.allows, Φ⟩ p Q w := by
  induction p generalizing w with
  | ret a => exact h
  | throw e => exact h
  | call c k ih =>
    obtain ⟨-, hs, hk⟩ := h
    obtain ⟨hr, -, hk'⟩ := h'
    exact ⟨hr, hs, fun i a w' hi ha => ih a (hk i a w' hi ha) (hk' i a w' hi ha)⟩

/-- The worlds where a refined run ends: those of the abstract run, and the invariant. -/
def Post.refined (R : W' → W → Prop) (J : W' → Prop) (Q : Post W ε α) : Post W' ε α where
  done a w' := J w' ∧ ∃ w, R w' w ∧ Q.done a w
  failed e w' := J w' ∧ ∃ w, R w' w ∧ Q.failed e w
  stopped w' := J w' ∧ ∃ w, R w' w ∧ Q.stopped w

/-- An inner program answers the call as a step of the abstract environment does, or stops where
that may stop, having done nothing that the abstract world shows. -/
def Post.answers (H : Handler C A I W) (D : Contract C A W) (R : W' → W → Prop) (J : W' → Prop)
    (c : C) (w : W) : Post W' ε (A c) where
  done a w' := J w' ∧ ∃ i w1, H.step c i w = some (a, w1) ∧ D.allows c (some a) ∧ R w' w1
  failed _ _ := False
  stopped w' := J w' ∧ D.allows c none ∧ R w' w

theorem wp.refine (h : wp H D p Q w) (hR : R w' w) (hJ : J w')
    (hf : ∀ c w w', D.requires c w → R w' w → J w' → wp H' D' (f c) (.answers H D R J c w) w') :
    wp H' D' (p.refine f) (.refined R J Q) w' := by
  induction p generalizing w w' with
  | ret a => exact ⟨hJ, w, hR, h⟩
  | throw e => exact ⟨hJ, w, hR, h⟩
  | call c k ih =>
    obtain ⟨hr, hs, hk⟩ := h
    refine wp.bind (wp.mono (hf c w w' hr hR hJ) ?_ (fun _ _ hfalse => hfalse.elim) ?_)
    · rintro a w1' ⟨hJ1, i, w1, hi, ha, hR1⟩
      exact ih a (hk i a w1 hi ha) hR1 hJ1
    · rintro w1' ⟨hJ1, ha, hR1⟩
      exact ⟨hJ1, w, hR1, hs ha⟩

end

end Effect
