import Rumahl.Effect.Prog

/-!
# A program logic with stops and failures

`wp` is the weakest condition on a world under which a program may run: every call meets the guard
of the `Contract`, and every way the run can end (result, error, stop at a call) meets the
postcondition for it, as long as the answers are among those the contract allows. `wp_exec` and
`wp_trace` read it off a run.

Most specifications are `Runs`: one crash condition `K` for stops and errors alike, and errors only
where the contract allows an answer that excuses them.
-/

namespace Effect

/-- What a proof may assume of the answers, `none` being a stop, and what it owes at each call. -/
structure Contract (C : Type) (A : C → Type) (W : Type) where
  allows : (c : C) → Option (A c) → Prop
  requires : C → W → Prop

/-- A postcondition for each way a run can end. -/
structure Post (W ε α : Type) where
  done : α → W → Prop
  failed : ε → W → Prop
  stopped : W → Prop

def Post.holds (Q : Post W ε α) (w : W) : Exit ε α → Prop
  | .done a => Q.done a w
  | .failed e => Q.failed e w
  | .stopped => Q.stopped w

/-- One crash condition for stops and errors; errors only under `excuse`. -/
def Post.crash (excuse : Prop) (K : W → Prop) (Q : α → W → Prop) : Post W ε α where
  done := Q
  failed _ w := excuse ∧ K w
  stopped := K

section
variable {C : Type} {A : C → Type} {I W ε ε' α β : Type}
variable (H : Handler C A I W) (D : Contract C A W)

def wp : Prog C A ε α → Post W ε α → W → Prop
  | .ret a, Q, w => Q.done a w
  | .throw e, Q, w => Q.failed e w
  | .call c k, Q, w =>
    D.requires c w ∧ (D.allows c none → Q.stopped w) ∧
    ∀ i a w', H.step c i w = some (a, w') → D.allows c (some a) → wp (k a) Q w'

/-- The postcondition of the first part of a sequence. -/
def Post.andThen (f : α → Prog C A ε β) (Q : Post W ε β) : Post W ε α where
  done a w := wp H D (f a) Q w
  failed := Q.failed
  stopped := Q.stopped

variable {H D}

theorem wp.mono {Q Q' : Post W ε α} (h : wp H D p Q w)
    (done : ∀ a w, Q.done a w → Q'.done a w) (failed : ∀ e w, Q.failed e w → Q'.failed e w)
    (stopped : ∀ w, Q.stopped w → Q'.stopped w) : wp H D p Q' w := by
  induction p generalizing w with
  | ret a => exact done a w h
  | throw e => exact failed e w h
  | call c k ih =>
    obtain ⟨hr, hs, hk⟩ := h
    exact ⟨hr, fun ha => stopped w (hs ha), fun i a w' hi ha => ih a (hk i a w' hi ha)⟩

theorem wp.bind (h : wp H D p (Post.andThen H D f Q) w) : wp H D (p >>= f) Q w := by
  induction p generalizing w with
  | ret a => exact h
  | throw e => exact h
  | call c k ih =>
    obtain ⟨hr, hs, hk⟩ := h
    exact ⟨hr, hs, fun i a w' hi ha => ih a (hk i a w' hi ha)⟩

theorem wp.attempt {Q : Post W ε' (Except ε α)}
    (h : wp H D p ⟨fun a => Q.done (.ok a), fun e => Q.done (.error e), Q.stopped⟩ w) :
    wp H D (p.attempt : Prog C A ε' _) Q w := by
  induction p generalizing w with
  | ret a => exact h
  | throw e => exact h
  | call c k ih =>
    obtain ⟨hr, hs, hk⟩ := h
    exact ⟨hr, hs, fun i a w' hi ha => ih a (hk i a w' hi ha)⟩

theorem wp.mapError {g : ε' → ε} {Q : Post W ε α}
    (h : wp H D p ⟨Q.done, fun e => Q.failed (g e), Q.stopped⟩ w) : wp H D (p.mapError g) Q w := by
  induction p generalizing w with
  | ret a => exact h
  | throw e => exact h
  | call c k ih =>
    obtain ⟨hr, hs, hk⟩ := h
    exact ⟨hr, hs, fun i a w' hi ha => ih a (hk i a w' hi ha)⟩

/-! ## Reading a run -/

section
variable [Inhabited I]

/-- A run whose answers are all allowed ends in the postcondition. -/
theorem wp_exec (h : wp H D p Q w) (hd : ∀ e ∈ trace H p is w, D.allows e.call e.answer) :
    Q.holds (exec H p is w).2 (exec H p is w).1 := by
  induction p generalizing w is with
  | ret a => exact h
  | throw e => exact h
  | call c k ih =>
    obtain ⟨-, hs, hk⟩ := h
    rw [exec]
    rw [trace] at hd
    split at hd
    · exact hs (hd _ List.mem_cons_self)
    · next a w' hstep =>
      exact ih a (hk _ a w' hstep (hd _ List.mem_cons_self))
        fun e he => hd e (List.mem_cons_of_mem _ he)

/-- Where every answer is allowed, every call of a run meets its guard. -/
theorem wp_trace (h : wp H D p Q w) (hd : ∀ c a, D.allows c a) :
    ∀ e ∈ trace H p is w, D.requires e.call e.before := by
  induction p generalizing w is with
  | ret a => exact fun e he => nomatch he
  | throw e => exact fun e he => nomatch he
  | call c k ih =>
    obtain ⟨hr, -, hk⟩ := h
    rw [trace]
    split
    · simpa using hr
    · next a w' hstep =>
      intro e he
      rcases List.mem_cons.mp he with rfl | he
      · exact hr
      · exact ih a (hk _ a w' hstep (hd _ _)) e he

end

/-! ## Specifications with one crash condition -/

variable (H D) in
/-- From `w` the program ends in `Q`, or in `K` if it is stopped or fails, and it fails only under
`excuse`. -/
def Runs (excuse : Prop) (K : W → Prop) (p : Prog C A ε α) (Q : α → W → Prop) (w : W) : Prop :=
  wp H D p (.crash excuse K Q) w

theorem Runs.ret (h : Q a w) : Runs H D ex K (.ret a : Prog C A ε α) Q w := h

theorem Runs.throw (hx : ex) (h : K w) : Runs H D ex K (.throw e : Prog C A ε α) Q w := ⟨hx, h⟩

theorem Runs.mono {p : Prog C A ε α} (h : Runs H D ex K p Q w) (hK : ∀ w, K w → K' w)
    (hQ : ∀ a w, Q a w → Q' a w) : Runs H D ex K' p Q' w :=
  wp.mono h hQ (fun _ w h => ⟨h.1, hK w h.2⟩) hK

theorem Runs.bind {f : α → Prog C A ε β} (h : Runs H D ex K p Q w)
    (hf : ∀ a w, Q a w → Runs H D ex K (f a) Q' w) : Runs H D ex K (p >>= f) Q' w :=
  wp.bind (wp.mono h hf (fun _ _ h => h) fun _ h => h)

/-- The rest of the program as what is to hold after its first part. -/
theorem Runs.seq {f : α → Prog C A ε β} (h : Runs H D ex K p (fun a => Runs H D ex K (f a) Q) w) :
    Runs H D ex K (p >>= f) Q w :=
  wp.bind h

theorem Runs.attempt {p : Prog C A ε' α} (h : Runs H D ex' K p Q w) :
    Runs H D ex K (p.attempt : Prog C A ε _)
      (fun r w => match r with | .ok a => Q a w | .error _ => K w) w :=
  wp.attempt (wp.mono h (fun _ _ h => h) (fun _ _ h => h.2) fun _ h => h)

/-! ## Disturbed and undisturbed runs -/

/-- Only a faulty environment leaves a call unanswered. -/
def answered (faulty : Prop) : Contract C A W where
  allows _ a := a = none → faulty
  requires _ _ := True

variable (H) in
/-- The program ends in `Q`, or in `K` if the environment is faulty. -/
def Completes (faulty : Prop) (K : W → Prop) (p : Prog C A ε α) (Q : α → W → Prop) (w : W) : Prop :=
  Runs H (answered faulty) faulty (fun w => faulty ∧ K w) p Q w

namespace Completes

variable {p : Prog C A ε α} {Q : α → W → Prop} {K K' : W → Prop} {faulty : Prop}

theorem ret (h : Q a w) : Completes H faulty K (.ret a : Prog C A ε α) Q w := h

theorem throw (hx : faulty) (h : K w) : Completes H faulty K (.throw e : Prog C A ε α) Q w :=
  ⟨hx, hx, h⟩

theorem mono (h : Completes H faulty K p Q w) (hK : ∀ w, K w → K' w)
    (hQ : ∀ a w, Q a w → Q' a w) : Completes H faulty K' p Q' w :=
  Runs.mono h (fun w h => ⟨h.1, hK w h.2⟩) hQ

theorem bind (h : Completes H faulty K p Q w)
    (hf : ∀ a w, Q a w → Completes H faulty K (f a) Q' w) :
    Completes H faulty K (p >>= f) Q' w :=
  Runs.bind h hf

protected theorem seq {f : α → Prog C A ε β}
    (h : Completes H faulty K p (fun a => Completes H faulty K (f a) Q') w) :
    Completes H faulty K (p >>= f) Q' w :=
  Runs.seq h

/-- The next part starts from a world that is known. -/
theorem bind_eq (h : Completes H faulty K p (fun a' w' => a' = a ∧ w' = w1) w)
    (hf : Completes H faulty K (f a) Q' w1) : Completes H faulty K (p >>= f) Q' w := by
  refine bind h fun a' w' ⟨ha, hw⟩ => ?_
  rw [ha, hw]
  exact hf

theorem attempt (h : Completes H faulty K p Q w) : Completes H faulty K (p.attempt : Prog C A ε' _)
      (fun r w => match r with | .ok a => Q a w | .error _ => faulty ∧ K w) w :=
  Runs.attempt h

variable [Inhabited I]

/-- Where every call is answered, a program that cannot fail returns. -/
theorem returns (h : Completes H False K p Q w) (hH : ∀ c i w, (H.step c i w).isSome)
    (is : List I) : ∃ a w', exec H p is w = (.done a, w') ∧ Q a w' := by
  have hanswered : ∀ e ∈ trace H p is w, e.answer = none → False := by
    intro e he hnone
    have hsome := answer_isSome H hH p is w e he
    rw [hnone] at hsome
    cases hsome
  have hend := wp_exec h hanswered
  cases hexit : exec H p is w with
  | mk exit w' =>
    rw [hexit] at hend
    cases exit with
    | done a => exact ⟨a, w', rfl, hend⟩
    | failed e => exact hend.1.elim
    | stopped => exact hend.1.elim

/-- A run that returns ends in `Q`, whatever disturbed it. -/
theorem done (h : Completes H True K p Q w) (hexec : exec H p is w = (.done a, w')) : Q a w' := by
  have hend : (Post.crash True (fun w => True ∧ K w) Q).holds (exec H p is w).2 (exec H p is w).1 :=
    wp_exec h fun _ _ _ => trivial
  rw [hexec] at hend
  exact hend

/-- However a run ends, it leaves the crash condition behind. -/
theorem leaves (h : Completes H True K p Q w) (hQ : ∀ a w', Q a w' → K w') (is : List I) :
    K (exec H p is w).2 := by
  have hend : (Post.crash True (fun w => True ∧ K w) Q).holds (exec H p is w).2 (exec H p is w).1 :=
    wp_exec h fun _ _ _ => trivial
  cases hexit : exec H p is w with
  | mk exit w' =>
    rw [hexit] at hend
    cases exit with
    | done a => exact hQ a w' hend
    | failed e => exact hend.2.2
    | stopped => exact hend.2

end Completes

end

end Effect
