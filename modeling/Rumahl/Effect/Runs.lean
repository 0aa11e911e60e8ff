import Rumahl.Effect.Refine

/-!
# Runs as a relation

`Ran` relates a program and a world to the ways it can end, with the calls it makes until then; the
decisions of the environment are left out. `ran_exec` says that every execution is such a run, and
the inversion rules (`Ran.bind_inv`, `Ran.attempt_inv`) take a run of a sequence apart.
-/

namespace Effect

section
variable {C : Type} {A : C → Type} {I W ε ε' α β : Type} {H : Handler C A I W}

inductive Ran (H : Handler C A I W) :
    Prog C A ε α → W → Exit ε α → W → List (Event C A W) → Prop
  | ret (a : α) (w : W) : Ran H (.ret a) w (.done a) w []
  | throw (e : ε) (w : W) : Ran H (.throw e) w (.failed e) w []
  | stop (i : I) (hstep : H.step c i w = none) : Ran H (.call c k) w .stopped w [⟨c, w, none⟩]
  | call (i : I) (hstep : H.step c i w = some (a, w1)) (hk : Ran H (k a) w1 exit w' calls) :
    Ran H (.call c k) w exit w' (⟨c, w, some a⟩ :: calls)

theorem ran_exec [Inhabited I] (p : Prog C A ε α) (is : List I) (w : W) :
    Ran H p w (exec H p is w).1 (exec H p is w).2 (trace H p is w) := by
  induction p generalizing is w with
  | ret a => exact .ret a w
  | throw e => exact .throw e w
  | call c k ih =>
    rw [exec, trace]
    split
    · next hstep => exact .stop _ hstep
    · next a w' hstep => exact .call _ hstep (ih a _ _)

namespace Ran

theorem bind_inv (h : Ran H (p >>= f) w exit w' calls) :
    (∃ a w1 before after, Ran H p w (.done a) w1 before ∧ Ran H (f a) w1 exit w' after ∧
      calls = before ++ after) ∨
    (∃ e, exit = .failed e ∧ Ran H p w (.failed e) w' calls) ∨
    exit = .stopped ∧ Ran H p w .stopped w' calls := by
  induction p generalizing w calls with
  | ret a => exact .inl ⟨a, w, [], calls, .ret a w, h, rfl⟩
  | throw e =>
    cases h
    exact .inr (.inl ⟨e, rfl, .throw e _⟩)
  | call c k ih =>
    rw [Prog.call_bind] at h
    cases h with
    | stop i hstep => exact .inr (.inr ⟨rfl, .stop i hstep⟩)
    | call i hstep hk =>
      obtain ⟨a, w1, before, after, hp, hf, rfl⟩ | ⟨e, rfl, hp⟩ | ⟨rfl, hp⟩ := ih _ hk
      · exact .inl ⟨a, w1, _, after, .call i hstep hp, hf, rfl⟩
      · exact .inr (.inl ⟨e, rfl, .call i hstep hp⟩)
      · exact .inr (.inr ⟨rfl, .call i hstep hp⟩)

theorem exists_exec [Inhabited I] (h : Ran H p w exit w' calls) :
    ∃ is, exec H p is w = (exit, w') := by
  induction h with
  | ret | throw => exact ⟨[], rfl⟩
  | stop i hstep => exact ⟨[i], by simp [exec, hstep]⟩
  | call i hstep _ ih =>
    obtain ⟨is, his⟩ := ih
    exact ⟨i :: is, by simp [exec, hstep, his]⟩

theorem bind_done (h : Ran H (p >>= f) w (.done b) w' calls) :
    ∃ a w1 before after, Ran H p w (.done a) w1 before ∧ Ran H (f a) w1 (.done b) w' after ∧
      calls = before ++ after := by
  obtain h | ⟨e, he, -⟩ | ⟨he, -⟩ := bind_inv h
  · exact h
  · cases he
  · cases he

theorem attempt_inv {exit : Exit ε' (Except ε α)} (h : Ran H p.attempt w exit w' calls) :
    (∃ a, exit = .done (.ok a) ∧ Ran H p w (.done a) w' calls) ∨
    (∃ e, exit = .done (.error e) ∧ Ran H p w (.failed e) w' calls) ∨
    exit = .stopped ∧ Ran H p w .stopped w' calls := by
  induction p generalizing w calls with
  | ret a =>
    cases h
    exact .inl ⟨a, rfl, .ret a _⟩
  | throw e =>
    cases h
    exact .inr (.inl ⟨e, rfl, .throw e _⟩)
  | call c k ih =>
    cases h with
    | stop i hstep => exact .inr (.inr ⟨rfl, .stop i hstep⟩)
    | call i hstep hk =>
      obtain ⟨a, rfl, hp⟩ | ⟨e, rfl, hp⟩ | ⟨rfl, hp⟩ := ih _ hk
      · exact .inl ⟨a, rfl, .call i hstep hp⟩
      · exact .inr (.inl ⟨e, rfl, .call i hstep hp⟩)
      · exact .inr (.inr ⟨rfl, .call i hstep hp⟩)

/-- A program whose error is caught goes on, unless it is stopped. -/
theorem attempt_bind_inv {f : Except ε α → Prog C A ε' β}
    (h : Ran H (p.attempt >>= f) w exit w' calls) (hstop : exit ≠ .stopped) :
    ∃ w1 before after, calls = before ++ after ∧
      ((∃ a, Ran H p w (.done a) w1 before ∧ Ran H (f (.ok a)) w1 exit w' after) ∨
      ∃ e, Ran H p w (.failed e) w1 before ∧ Ran H (f (.error e)) w1 exit w' after) := by
  obtain ⟨r, w1, before, after, hp, hf, rfl⟩ | ⟨e, -, hp⟩ | ⟨he, -⟩ := bind_inv h
  · refine ⟨w1, before, after, rfl, ?_⟩
    obtain ⟨a, he, hrun⟩ | ⟨e, he, hrun⟩ | ⟨he, -⟩ := attempt_inv hp
    · cases he
      exact .inl ⟨a, hrun, hf⟩
    · cases he
      exact .inr ⟨e, hrun, hf⟩
    · cases he
  · obtain ⟨a, he, -⟩ | ⟨e, he, -⟩ | ⟨he, -⟩ := attempt_inv hp <;> cases he
  · exact absurd he hstop

theorem only (h : Ran H p w exit w' calls) (hp : p.Only Φ Ψ) : ∀ e ∈ calls, Φ e.call := by
  induction h with
  | ret | throw => exact fun e he => nomatch he
  | stop i hstep => simpa using hp.1
  | call i hstep hk ih =>
    intro e he
    rcases List.mem_cons.mp he with rfl | he
    · exact hp.1
    · exact ih (hp.2 _) e he

/-- What the calls of a program keep holds at each of them and at the end. -/
theorem keeps {Φ : C → Prop} {Ψ : α → Prop} {J : W → Prop} (h : Ran H p w exit w' calls)
    (hp : p.Only Φ Ψ) (hstep : ∀ c i a w w', Φ c → J w → H.step c i w = some (a, w') → J w')
    (hw : J w) : J w' ∧ ∀ e ∈ calls, J e.before := by
  induction h with
  | ret | throw => exact ⟨hw, fun e he => (nomatch he)⟩
  | stop => exact ⟨hw, by simpa using hw⟩
  | call i hi hk ih =>
    obtain ⟨hend, hcalls⟩ := ih (hp.2 _) (hstep _ i _ _ _ hp.1 hw hi)
    exact ⟨hend, List.forall_mem_cons.mpr ⟨hw, hcalls⟩⟩

end Ran

end

end Effect
