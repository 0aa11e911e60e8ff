import Rumahl.Data.Growth
import Rumahl.Effect.Refine

/-!
# Threads that share a world

A `Pool` has any number of threads, each with the rest of its program and a memory of its own, and a
state that they share. One call of one thread is a step; between two calls of a thread the others
may make any number of theirs. A thread that is never scheduled again has been stopped.

`Pool.Run.invariant` is the rule for such runs. A thread has to show what it knows to be true of
the shared state after its own steps, and that nothing the others may do to that state makes it
false. What a thread knows it has learned from the answers it got: `Prog.Follows` says that a
program makes each of its calls on the strength of what it has learned before.
-/

open List

namespace Effect

/-! ## Programs that act on what they have learned -/

/-- What a call needs to be known before it and teaches by its answer, among the answers that a
program may rely on getting. -/
structure Protocol (C : Type) (A : C → Type) (K : Type) where
  permits : K → C → Prop
  expects : (c : C) → A c → Prop
  learn : K → (c : C) → A c → K

/-- Nothing is forgotten: calls are permitted by all the calls and answers before them. -/
def Protocol.traced {C : Type} {A : C → Type} (permits : List ((c : C) × A c) → C → Prop) :
    Protocol C A (List ((c : C) × A c)) where
  permits := permits
  expects _ _ := True
  learn κ c a := κ ++ [⟨c, a⟩]

namespace Prog

variable {C C' : Type} {A : C → Type} {A' : C' → Type} {ε ε' α β K K' : Type}

/-- Under whatever answers, every call of the program is permitted by what was learned up to it,
and `Ψ` holds of the result and what is known at the end. -/
def Follows (R : Protocol C A K) (Ψ : K → α → Prop) : K → Prog C A ε α → Prop
  | κ, .ret a => Ψ κ a
  | _, .throw _ => True
  | κ, .call c k => R.permits κ c ∧ ∀ a, R.expects c a → (k a).Follows R Ψ (R.learn κ c a)

namespace Follows

variable {R : Protocol C A K} {Ψ : K → α → Prop} {Ψ' : K → β → Prop} {κ : K}

theorem mono {p : Prog C A ε α} {Ψ' : K → α → Prop} (h : p.Follows R Ψ κ)
    (hΨ : ∀ κ a, Ψ κ a → Ψ' κ a) : p.Follows R Ψ' κ := by
  induction p generalizing κ with
  | ret a => exact hΨ κ a h
  | throw e => trivial
  | call c k ih => exact ⟨h.1, fun a ha => ih a (h.2 a ha)⟩

theorem weaken {p : Prog C A ε α} (h : p.Follows R Ψ κ) (hp : ∀ κ c, R.permits κ c → permits κ c) :
    p.Follows ⟨permits, R.expects, R.learn⟩ Ψ κ := by
  induction p generalizing κ with
  | ret a => exact h
  | throw e => trivial
  | call c k ih => exact ⟨hp κ c h.1, fun a ha => ih a (h.2 a ha)⟩

theorem bind {f : α → Prog C A ε β} (hp : p.Follows R Ψ κ)
    (hf : ∀ κ a, Ψ κ a → (f a).Follows R Ψ' κ) : (p >>= f).Follows R Ψ' κ := by
  induction p generalizing κ with
  | ret a => exact hf κ a hp
  | throw e => trivial
  | call c k ih => exact ⟨hp.1, fun a ha => ih a (hp.2 a ha)⟩

theorem ofExcept (wrap : ε' → ε) (h : ∀ a, x = .ok a → Ψ κ a) :
    (Prog.ofExcept wrap x : Prog C A ε α).Follows R Ψ κ := by
  cases x with
  | ok a => exact h a rfl
  | error e => trivial

theorem performOk (wrap : ε' → ε) {f : A c → Except ε' α} (hc : R.permits κ c)
    (h : ∀ a b, R.expects c a → f a = .ok b → Ψ (R.learn κ c a) b) :
    ((do let a ← Prog.perform c; Prog.ofExcept wrap (f a)) : Prog C A ε α).Follows R Ψ κ :=
  ⟨hc, fun a ha => ofExcept wrap fun b hb => h a b ha hb⟩

theorem performOk_bind {wrap : ε' → ε} {f : A c → Except ε' α} {k : α → Prog C A ε β}
    (hc : R.permits κ c)
    (h : ∀ a b, R.expects c a → f a = .ok b → (k b).Follows R Ψ' (R.learn κ c a)) :
    ((do let a ← Prog.perform c; let b ← Prog.ofExcept wrap (f a); k b) :
      Prog C A ε β).Follows R Ψ' κ := by
  refine ⟨hc, fun a ha => ?_⟩
  exact bind (Ψ := fun κ' b => κ' = R.learn κ c a ∧ f a = .ok b)
    (ofExcept wrap fun b hb => ⟨rfl, hb⟩) fun _ b hb => hb.1 ▸ h a b ha hb.2

theorem mapError {p : Prog C A ε' α} (h : p.Follows R Ψ κ) : (p.mapError f).Follows R Ψ κ := by
  induction p generalizing κ with
  | ret a => exact h
  | throw e => trivial
  | call c k ih => exact ⟨h.1, fun a ha => ih a (h.2 a ha)⟩

theorem attempt {p : Prog C A ε α} {Φ : K → Prop} (h : p.Follows R Ψ κ) (hκ : Φ κ)
    (hlearn : ∀ κ c a, Φ κ → Φ (R.learn κ c a)) :
    (p.attempt : Prog C A ε' _).Follows R (fun κ r => Φ κ ∧ ∀ a, r = .ok a → Ψ κ a) κ := by
  induction p generalizing κ with
  | ret a => exact ⟨hκ, fun b hb => Except.ok.inj hb ▸ h⟩
  | throw e => exact ⟨hκ, nofun⟩
  | call c k ih => exact ⟨h.1, fun a ha => ih a (h.2 a ha) (hlearn κ c a hκ)⟩

/-- The inner programs follow a protocol of their own, in which `V` says what the outer one may
take for known. -/
theorem refine {V : K → K' → Prop} {p : Prog C A ε α} {f : (c : C) → Prog C' A' ε (A c)}
    (hp : p.Follows R Ψ κ) (hκ : V κ κ') (hf : ∀ c κ κ', R.permits κ c → V κ κ' →
      (f c).Follows R' (fun κ' a => R.expects c a ∧ V (R.learn κ c a) κ') κ') :
    (p.refine f).Follows R' (fun κ' a => ∃ κ, V κ κ' ∧ Ψ κ a) κ' := by
  induction p generalizing κ κ' with
  | ret a => exact ⟨κ, hκ, hp⟩
  | throw e => trivial
  | call c k ih =>
    exact (hf c κ κ' hp.1 hκ).bind fun κ' a ha => ih a (hp.2 a ha.1) ha.2

end Follows

end Prog

/-- What holds of each element and those before it, as a relation of any two elements. -/
theorem pairwise_of_split (h : ∀ l1 b l2, l = l1 ++ b :: l2 → ∀ a ∈ l1, R a b) : l.Pairwise R := by
  induction l with
  | nil => exact .nil
  | cons a l ih =>
    refine .cons (fun b hb => ?_) (ih fun l1 b l2 hl c hc => ?_)
    · obtain ⟨l1, l2, rfl⟩ := append_of_mem hb
      exact h (a :: l1) b l2 rfl a mem_cons_self
    · exact h (a :: l1) b l2 (by rw [hl, cons_append]) c (mem_cons_of_mem _ hc)

/-! ## Pools -/

section

variable {ι C : Type} {A : C → Type} {ε α S L : Type}

variable (ι C A S) in
/-- A call as the shared state sees it. -/
structure PoolEvent where
  thread : ι
  call : C
  answer : A call
  before : S
  after : S

variable (ι C A ε α S L) in
structure Pool where
  program : ι → Prog C A ε α
  own : ι → L
  shared : S

variable [DecidableEq ι] (env : (c : C) → S → L → A c → S → L → Prop)

namespace Pool

/-- The thread `i` gets an answer to its next call. -/
inductive Step : Pool ι C A ε α S L → PoolEvent ι C A S → Pool ι C A ε α S L → Prop where
  | mk {P : Pool ι C A ε α S L} (i : ι) {c : C} {k : A c → Prog C A ε α} {a : A c} {s : S} {l : L}
      (hp : P.program i = .call c k) (he : env c P.shared (P.own i) a s l) :
      Step P ⟨i, c, a, P.shared, s⟩
        ⟨Function.update P.program i (k a), Function.update P.own i l, s⟩

inductive Run : Pool ι C A ε α S L → List (PoolEvent ι C A S) → Pool ι C A ε α S L → Prop where
  | nil (P : Pool ι C A ε α S L) : Run P [] P
  | cons {P P1 P' : Pool ι C A ε α S L} {e : PoolEvent ι C A S} {es : List (PoolEvent ι C A S)} :
      Step env P e P1 → Run P1 es P' → Run P (e :: es) P'

variable {env}

/-- What every thread knows of the shared state, if its own steps keep it and change the state only
as `G` says, and if changes as `G` says do not affect it. -/
theorem Run.invariant {J : S → Prop} {I : Prog C A ε α → L → S → Prop} {G : S → S → Prop}
    {E : PoolEvent ι C A S → Prop} (hrun : Run env P es P')
    (hstep : ∀ i c k s l a s' l', J s → I (.call c k) l s → env c s l a s' l' →
      J s' ∧ I (k a) l' s' ∧ G s s' ∧ E ⟨i, c, a, s, s'⟩)
    (hstable : ∀ p l s s', J s → I p l s → G s s' → I p l s') (hJ : J P.shared)
    (hI : ∀ i, I (P.program i) (P.own i) P.shared) :
    J P'.shared ∧ (∀ i, I (P'.program i) (P'.own i) P'.shared) ∧
      ∀ e ∈ es, G e.before e.after ∧ E e := by
  induction hrun with
  | nil P => exact ⟨hJ, hI, fun _ h => nomatch h⟩
  | @cons P _ _ _ _ h _ ih =>
    cases h with
    | @mk i c k a s l hp he =>
      have hi := hI i
      rw [hp] at hi
      obtain ⟨hJ', hI', hG, hE⟩ := hstep i c k _ _ a s l hJ hi he
      have hall : ∀ j, I (Function.update P.program i (k a) j) (Function.update P.own i l j) s := by
        intro j
        by_cases hj : j = i
        · subst hj
          rw [Function.update_self, Function.update_self]
          exact hI'
        · rw [Function.update_of_ne hj, Function.update_of_ne hj]
          exact hstable _ _ _ _ hJ (hI j) hG
      obtain ⟨hJ'', hI'', hE'⟩ := ih hJ' hall
      exact ⟨hJ'', hI'', forall_mem_cons.mpr ⟨⟨hG, hE⟩, hE'⟩⟩

/-- What the thread `i` has learned from its calls among those of a run. -/
def learned (R : Protocol C A K) (i : ι) (es : List (PoolEvent ι C A S)) (κ : K) : K :=
  es.foldl (fun κ e => if e.thread = i then R.learn κ e.call e.answer else κ) κ

/-- Programs that follow a protocol do so in every run: a call is permitted by what its thread has
learned up to it, and so is the result of a thread. -/
theorem Run.follows {R : ι → Protocol C A K} {Ψ : ι → K → α → Prop} {κ : ι → K}
    (hrun : Run env P es P') (hexpects : ∀ i c s l a s' l', env c s l a s' l' → (R i).expects c a)
    (hP : ∀ i, (P.program i).Follows (R i) (Ψ i) (κ i)) :
    (∀ i, (P'.program i).Follows (R i) (Ψ i) (learned (R i) i es (κ i))) ∧
      ∀ es1 e es2, es = es1 ++ e :: es2 →
        (R e.thread).permits (learned (R e.thread) e.thread es1 (κ e.thread)) e.call := by
  induction hrun generalizing κ with
  | nil P => exact ⟨hP, fun es1 e es2 h => by simp at h⟩
  | @cons P _ _ e es h _ ih =>
    cases h with
    | @mk i c k a s l hp he =>
      have hi := hP i
      rw [hp] at hi
      have hnext : ∀ j, (Function.update P.program i (k a) j).Follows (R j) (Ψ j)
          (learned (R j) j [⟨i, c, a, P.shared, s⟩] (κ j)) := by
        intro j
        by_cases hj : j = i
        · subst hj
          simp only [Function.update_self, learned, foldl_cons, foldl_nil, if_true]
          exact hi.2 a (hexpects _ _ _ _ _ _ _ he)
        · simp only [Function.update_of_ne hj, learned, foldl_cons, foldl_nil,
            if_neg (Ne.symm hj)]
          exact hP j
      obtain ⟨hend, hcalls⟩ := ih hnext
      refine ⟨hend, fun es1 e es2 hes => ?_⟩
      cases es1 with
      | nil =>
        cases hes
        exact hi.1
      | cons e' es1 =>
        obtain ⟨rfl, htail⟩ := List.cons.inj hes
        exact hcalls es1 e es2 htail

/-- What the thread `i` has called and been answered. -/
def traceOf (i : ι) (es : List (PoolEvent ι C A S)) : List ((c : C) × A c) :=
  (es.filter (·.thread = i)).map fun e => ⟨e.call, e.answer⟩

theorem mem_traceOf {i : ι} {es : List (PoolEvent ι C A S)} :
    x ∈ traceOf i es ↔ ∃ e ∈ es, e.thread = i ∧ ⟨e.call, e.answer⟩ = x := by
  simp [traceOf, and_assoc]

private theorem learned_traced (permits : List ((c : C) × A c) → C → Prop) (i : ι)
    (es : List (PoolEvent ι C A S)) (κ : List ((c : C) × A c)) :
    learned (Protocol.traced permits) i es κ = κ ++ traceOf i es := by
  induction es generalizing κ with
  | nil => simp [learned, traceOf]
  | cons e es ih =>
    rw [learned, foldl_cons, ← learned, ih]
    by_cases h : e.thread = i
    · simp [traceOf, h, Protocol.traced]
    · simp [traceOf, h]

/-- `Run.follows` for programs that go by all that they have been answered. -/
theorem Run.traced {permits : ι → List ((c : C) × A c) → C → Prop}
    {Ψ : ι → List ((c : C) × A c) → α → Prop} (hrun : Run env P es P')
    (hP : ∀ i, (P.program i).Follows (.traced (permits i)) (Ψ i) []) :
    (∀ i, (P'.program i).Follows (.traced (permits i)) (Ψ i) (traceOf i es)) ∧
      ∀ es1 e es2, es = es1 ++ e :: es2 → permits e.thread (traceOf e.thread es1) e.call := by
  have h := hrun.follows (fun _ _ _ _ _ _ _ _ => trivial) hP
  simp only [learned_traced, nil_append] at h
  exact h

theorem Run.append_inv {P P' : Pool ι C A ε α S L} (hrun : Run env P (es ++ es') P') :
    ∃ P1, Run env P es P1 ∧ Run env P1 es' P' := by
  induction es generalizing P with
  | nil => exact ⟨P, .nil P, hrun⟩
  | cons e es ih =>
    cases hrun with
    | cons hstep hrun =>
      obtain ⟨P1, h1, h2⟩ := ih hrun
      exact ⟨P1, .cons hstep h1, h2⟩

theorem Run.append {P P1 P' : Pool ι C A ε α S L} (h : Run env P es P1) (h' : Run env P1 es' P') :
    Run env P (es ++ es') P' := by
  induction h with
  | nil => exact h'
  | cons hstep _ ih => exact .cons hstep (ih h')

theorem Run.thread_ne {P P' : Pool ι C A ε α S L} (hrun : Run env P es P')
    (hended : ∀ c k, P.program i ≠ .call c k) : ∀ e ∈ es, e.thread ≠ i := by
  induction hrun with
  | nil => exact fun _ h => nomatch h
  | cons hstep _ ih =>
    cases hstep with
    | mk j hp he =>
      have hne : j ≠ i := fun h => hended _ _ (h ▸ hp)
      refine forall_mem_cons.mpr ⟨hne, ih fun c k => ?_⟩
      simp only [Function.update_of_ne (Ne.symm hne)]
      exact hended c k

theorem Run.split {P P' : Pool ι C A ε α S L} (hrun : Run env P (es ++ e :: es') P') :
    ∃ P1 P2 l l', Run env P es P1 ∧ e.before = P1.shared ∧
      env e.call e.before l e.answer e.after l' ∧ P2.shared = e.after ∧ Run env P2 es' P' := by
  obtain ⟨P1, h1, h2⟩ := hrun.append_inv
  cases h2 with
  | cons hstep hrest =>
    cases hstep with
    | mk i hp he => exact ⟨P1, _, _, _, h1, rfl, he, rfl, hrest⟩

theorem Run.answers {P P' : Pool ι C A ε α S L} (hrun : Run env P es P') :
    ∀ e ∈ es, ∃ l l', env e.call e.before l e.answer e.after l' := by
  induction hrun with
  | nil P => exact fun _ h => nomatch h
  | cons h _ ih =>
    refine forall_mem_cons.mpr ⟨?_, ih⟩
    cases h with
    | mk i hp he => exact ⟨_, _, he⟩

/-- What every call keeps is true of all states of a run. -/
theorem Run.always {J : S → Prop} {P P' : Pool ι C A ε α S L} (hrun : Run env P es P')
    (hstep : ∀ e ∈ es, J e.before → J e.after) (hP : J P.shared) :
    (∀ e ∈ es, J e.before) ∧ J P'.shared := by
  induction hrun with
  | nil P => exact ⟨fun _ h => (nomatch h), hP⟩
  | cons h _ ih =>
    obtain ⟨he, hes⟩ := forall_mem_cons.mp hstep
    cases h with
    | mk i hp _ =>
      obtain ⟨hall, hend⟩ := ih hes (he hP)
      exact ⟨forall_mem_cons.mpr ⟨hP, hall⟩, hend⟩

/-- A relation of states that composes, with what happens in between as a label, holds of a run if
it holds of each call. -/
theorem Run.compose {R : S → List β → S → Prop} {P P' : Pool ι C A ε α S L} (hrun : Run env P es P')
    (hnil : ∀ s, R s [] s) (htrans : ∀ {s s' s'' l l'}, R s l s' → R s' l' s'' → R s (l ++ l') s'')
    (hstep : ∀ e ∈ es, R e.before (label e) e.after) : R P.shared (es.flatMap label) P'.shared := by
  induction hrun with
  | nil P => exact hnil P.shared
  | cons h _ ih =>
    obtain ⟨he, hes⟩ := forall_mem_cons.mp hstep
    cases h with
    | mk i hp _ => exact htrans he (ih hes)

/-- A table of the shared state grows in a run by what the calls add to it. -/
theorem Run.grows {G : Table.Growth β γ κ} {f : S → List β} {P P' : Pool ι C A ε α S L}
    (hrun : Run env P es P') (hstep : ∀ e ∈ es, Table.Keyed G.key (f e.before) →
      G.Grows (f e.before) (label e) (f e.after)) (hk : Table.Keyed G.key (f P.shared)) :
    G.Grows (f P.shared) (es.flatMap label) (f P'.shared) := by
  refine hrun.compose (R := fun s l s' => Table.Keyed G.key (f s) → G.Grows (f s) l (f s'))
    (fun s hk => .refl hk) (fun h h' hk => ?_) hstep hk
  exact (h hk).trans (h' (h hk).keyed)

theorem Run.grows_split {G : Table.Growth β γ κ} {f : S → List β} {P P' : Pool ι C A ε α S L}
    {e : PoolEvent ι C A S} (hrun : Run env P (es ++ e :: es') P')
    (hstep : ∀ e' ∈ es ++ e :: es', Table.Keyed G.key (f e'.before) →
      G.Grows (f e'.before) (label e') (f e'.after)) (hk : Table.Keyed G.key (f P.shared)) :
    G.Grows (f P.shared) (es.flatMap label) (f e.before) ∧
      G.Grows (f e.before) (label e) (f e.after) ∧
      G.Grows (f e.after) (es'.flatMap label) (f P'.shared) := by
  obtain ⟨P1, P2, l, l', h1, hbefore, -, hafter, h2⟩ := hrun.split
  have hpre := h1.grows (fun e he => hstep e (mem_append_left _ he)) hk
  rw [← hbefore] at hpre
  have hmid := hstep e (mem_append_right _ mem_cons_self) hpre.keyed
  rw [← hafter] at hmid ⊢
  refine ⟨hpre, hmid, h2.grows (fun e' he' => ?_) hmid.keyed⟩
  exact hstep e' (mem_append_right _ (mem_cons_of_mem _ he'))

/-- A row of a table that was empty at the start was added by one of the calls. -/
theorem Run.origin {G : Table.Growth β γ κ} {f : S → List β} {label : PoolEvent ι C A S → List γ}
    (hrun : Run env P es P') (hstep : ∀ e ∈ es, Table.Keyed G.key (f e.before) →
      G.Grows (f e.before) (label e) (f e.after)) (hempty : f P.shared = [])
        (hy : y ∈ f P'.shared) :
    ∃ es1 e es2, es = es1 ++ e :: es2 ∧ ∃ b ∈ label e, G.Born b y := by
  have hk : Table.Keyed G.key (f P.shared) := by
    rw [hempty]
    exact .nil
  obtain ⟨x, hx, -⟩ | ⟨b, hb, hby⟩ := (hrun.grows hstep hk).origin y hy
  · rw [hempty] at hx
    cases hx
  · obtain ⟨e, he, hlabel⟩ := mem_flatMap.mp hb
    obtain ⟨es1, es2, rfl⟩ := append_of_mem he
    exact ⟨es1, e, es2, rfl, b, hlabel, hby⟩

theorem Run.reaches {P P' : Pool ι C A ε α S L} (hrun : Run env P es P')
    (hs : s ∈ P.shared :: es.map PoolEvent.after) :
    ∃ es1 es2 P1, es = es1 ++ es2 ∧ Run env P es1 P1 ∧ P1.shared = s := by
  induction hrun with
  | nil P => exact ⟨[], [], P, rfl, .nil P, (mem_singleton.mp hs).symm⟩
  | @cons P P1 _ e es h _ ih =>
    obtain rfl | hs := mem_cons.mp hs
    · exact ⟨[], e :: es, P, rfl, .nil P, rfl⟩
    · have hafter : P1.shared = e.after := by
        cases h
        rfl
      rw [map_cons, ← hafter] at hs
      obtain ⟨es1, es2, P2, rfl, hrun, hP⟩ := ih hs
      exact ⟨e :: es1, es2, P2, rfl, .cons h hrun, hP⟩

/-- The states of the run, one after the other, are related as each call relates them. -/
theorem Run.isChain {P P' : Pool ι C A ε α S L} {f : S → β} (hrun : Run env P es P')
    (h : ∀ e ∈ es, R (f e.before) (f e.after)) :
    List.IsChain R (f P.shared :: es.map fun e => f e.after) := by
  induction hrun with
  | nil P => exact .singleton _
  | cons hstep _ ih =>
    obtain ⟨he, hes⟩ := forall_mem_cons.mp h
    cases hstep with
    | mk i hp he' => exact .cons_cons he (ih hes)

/-! ## Running a pool

A schedule says which thread makes its next call and decides, where there is a choice, how it is
answered. Threads that have ended are passed over. -/

section

variable {D : Type} (respond : D → (c : C) → S → L → A c × S × L)

/-- The calls of the schedule and the pool after them. -/
def exec : List (ι × D) → Pool ι C A ε α S L → List (PoolEvent ι C A S) × Pool ι C A ε α S L
  | [], P => ([], P)
  | (i, d) :: is, P =>
    match P.program i with
    | .call c k =>
      let r := respond d c P.shared (P.own i)
      let (es, P') := exec is
        ⟨Function.update P.program i (k r.1), Function.update P.own i r.2.2, r.2.1⟩
      (⟨i, c, r.1, P.shared, r.2.1⟩ :: es, P')
    | _ => exec is P

variable {respond}

theorem exec_run (h : ∀ d c s l, env c s l (respond d c s l).1 (respond d c s l).2.1
    (respond d c s l).2.2) (is : List (ι × D)) (P : Pool ι C A ε α S L) :
    Run env P (exec respond is P).1 (exec respond is P).2 := by
  induction is generalizing P with
  | nil => exact .nil P
  | cons x is ih =>
    obtain ⟨i, d⟩ := x
    rw [exec]
    split
    · next c k hp => exact .cons (.mk i hp (h d c P.shared (P.own i))) (ih _)
    · exact ih P

end

end Pool

end

end Effect
