import Mathlib

/-!
# Computations that check something

`Except` as the source uses it: a check returns nothing or an error, a parser returns a value that
carries the check it passed (`Except.checked`, for text `Checked`), and a loop feeds a list into an
accumulator that can refuse an element (`Except.foldlM_parsed`).
-/

instance Except.decidableEq [DecidableEq ε] [DecidableEq α] : DecidableEq (Except ε α)
  | .ok a, .ok b => decidable_of_iff (a = b) ⟨congrArg _, Except.ok.inj⟩
  | .error a, .error b => decidable_of_iff (a = b) ⟨congrArg _, Except.error.inj⟩
  | .ok _, .error _ | .error _, .ok _ => isFalse nofun

@[simp] theorem Except.ok_bind (a : α) (f : α → Except ε β) : (Except.ok a >>= f) = f a := rfl

@[simp] theorem Except.pure_eq_ok (a : α) : (pure a : Except ε α) = .ok a := rfl

theorem Except.bind_eq_ok {f : α → Except ε β} :
    (x >>= f) = .ok b ↔ ∃ a, x = .ok a ∧ f a = .ok b := by
  cases x with
  | error e => exact ⟨(nomatch ·), fun ⟨_, h, _⟩ => nomatch h⟩
  | ok a => exact ⟨fun h => ⟨a, rfl, h⟩, fun ⟨_, rfl, h⟩ => h⟩

theorem Except.seq_eq_ok {f : Unit → Except ε β} :
    (x >>= f) = .ok b ↔ x = .ok () ∧ f () = .ok b := by
  rw [bind_eq_ok]
  exact ⟨fun ⟨_, h, h'⟩ => ⟨h, h'⟩, fun ⟨h, h'⟩ => ⟨(), h, h'⟩⟩

@[simp] theorem Except.mapError_ok (a : α) (f : ε → ε') :
    (Except.ok a : Except ε α).mapError f = .ok a := rfl

theorem Except.mapError_eq_ok {x : Except ε α} : x.mapError f = .ok a ↔ x = .ok a := by
  cases x with
  | error e => exact ⟨(nomatch ·), (nomatch ·)⟩
  | ok b => rw [mapError_ok, Except.ok.injEq, Except.ok.injEq]

theorem Except.isOk_iff {x : Except ε α} : x.isOk = true ↔ ∃ a, x = .ok a := by
  cases x with
  | error e => exact ⟨(nomatch ·), fun ⟨_, h⟩ => nomatch h⟩
  | ok a => exact ⟨fun _ => ⟨a, rfl⟩, fun _ => rfl⟩

theorem Except.toOption_eq_some {x : Except ε α} : x.toOption = some a ↔ x = .ok a := by
  cases x <;> simp [Except.toOption]

/-- The outcome of a method that changes the state only if it succeeds. -/
def Except.commit (s : σ) : Except ε (α × σ) → Except ε α × σ
  | .error e => (.error e, s)
  | .ok (a, s') => (.ok a, s')

theorem Except.commit_eq_ok : Except.commit s r = (.ok a, s') ↔ r = .ok (a, s') := by
  cases r with
  | error e => exact ⟨(nomatch ·), (nomatch ·)⟩
  | ok r =>
    obtain ⟨b, s1⟩ := r
    simp [Except.commit]

theorem Except.commit_error (h : Except.commit s r = (.error e, s')) : s' = s := by
  cases r with
  | error _ =>
    cases h
    rfl
  | ok _ => cases h

theorem Except.commit_cases (h : Except.commit s r = (x, s')) :
    (∃ e, x = .error e ∧ s' = s) ∨ ∃ a, x = .ok a ∧ r = .ok (a, s') := by
  cases x with
  | error e => exact .inl ⟨e, rfl, commit_error h⟩
  | ok a => exact .inr ⟨a, rfl, commit_eq_ok.mp h⟩

theorem Except.forM_eq_ok {f : α → Except ε Unit} :
    List.forM l f = .ok () ↔ ∀ a ∈ l, f a = .ok () := by
  induction l with
  | nil => simp [List.forM, pure, Except.pure]
  | cons a l ih =>
    rw [List.forM, seq_eq_ok, List.forall_mem_cons, ← ih]

open List Except

namespace Except

variable {ε ε' α β γ σ κ : Type}

/-- The value, built from the proof that it passes the check. -/
def checked (check : α → Except ε Unit) (mk : (a : α) → check a = .ok () → β) (a : α) :
    Except ε β :=
  match h : check a with
  | .ok () => .ok (mk a h)
  | .error e => .error e

theorem checked_of_ok (h : check a = .ok ()) : checked check mk a = .ok (mk a h) := by
  unfold checked
  split
  · rfl
  · next e he =>
    rw [h] at he
    cases he

theorem checked_eq_ok : checked check mk a = .ok b ↔ ∃ h, mk a h = b := by
  constructor
  · intro h
    unfold checked at h
    split at h
    · next hc => exact ⟨hc, Except.ok.inj h⟩
    · cases h
  · rintro ⟨h, rfl⟩
    exact checked_of_ok h

theorem mapM_cons_eq_ok {f : α → Except ε β} : List.mapM f (a :: l) = .ok bs ↔
      ∃ b bs', f a = .ok b ∧ List.mapM f l = .ok bs' ∧ bs = b :: bs' := by
  rw [mapM_cons, bind_eq_ok]
  refine exists_congr fun b => ?_
  rw [bind_eq_ok]
  constructor
  · rintro ⟨hb, bs', hbs', h⟩
    exact ⟨bs', hb, hbs', (Except.ok.inj h).symm⟩
  · rintro ⟨bs', hb, hbs', rfl⟩
    exact ⟨hb, bs', hbs', rfl⟩

theorem mapM_exists {f : α → Except ε β} {P : β → Prop} {Q : α → Prop}
    (hf : ∀ a b, f a = .ok b → (P b ↔ Q a)) (h : List.mapM f l = .ok bs) :
    (∃ b ∈ bs, P b) ↔ ∃ a ∈ l, Q a := by
  induction l generalizing bs with
  | nil =>
    cases h
    simp
  | cons a l ih =>
    obtain ⟨b, bs', hb, hbs, rfl⟩ := mapM_cons_eq_ok.mp h
    rw [exists_mem_cons_iff, exists_mem_cons_iff, hf a b hb, ih hbs]

theorem mapM_all {f : α → Except ε β} {P : β → Prop} {Q : α → Prop}
    (hf : ∀ a b, f a = .ok b → (P b ↔ Q a)) (h : List.mapM f l = .ok bs) :
    (∀ b ∈ bs, P b) ↔ ∀ a ∈ l, Q a := by
  induction l generalizing bs with
  | nil =>
    cases h
    simp
  | cons a l ih =>
    obtain ⟨b, bs', hb, hbs, rfl⟩ := mapM_cons_eq_ok.mp h
    rw [forall_mem_cons, forall_mem_cons, hf a b hb, ih hbs]

theorem length_mapM {f : α → Except ε β} (h : List.mapM f l = .ok bs) : l.length = bs.length := by
  induction l generalizing bs with
  | nil =>
    cases h
    rfl
  | cons a l ih =>
    obtain ⟨b, bs', -, hbs, rfl⟩ := mapM_cons_eq_ok.mp h
    rw [length_cons, length_cons, ih hbs]

theorem mapM_map {f : β → Except ε α} {g : α → β} (h : ∀ a ∈ l, f (g a) = .ok a) :
    List.mapM f (l.map g) = .ok l := by
  induction l with
  | nil => rfl
  | cons a l ih =>
    rw [map_cons, mapM_cons_eq_ok]
    exact ⟨a, l, h a mem_cons_self, ih fun b hb => h b (mem_cons_of_mem _ hb), rfl⟩

/-- A loop that parses every element before it adds it does on printed elements what the loop
without the parser does. -/
theorem foldlM_parsed {l : List α} {parse : β → Except ε α} {add : γ → α → Except ε' γ}
    {wrap : ε' → ε} (h : ∀ a ∈ l, parse (print a) = .ok a) (hadd : l.foldlM add c = .ok c') :
    (l.map print).foldlM (fun c b => do let a ← parse b; (add c a).mapError wrap) c = .ok c' := by
  induction l generalizing c with
  | nil =>
    cases hadd
    rfl
  | cons a l ih =>
    rw [foldlM_cons, bind_eq_ok] at hadd
    obtain ⟨c1, hc1, hadd⟩ := hadd
    rw [map_cons, foldlM_cons, bind_eq_ok]
    refine ⟨c1, ?_, ih (fun b hb => h b (mem_cons_of_mem _ hb)) hadd⟩
    rw [h a mem_cons_self]
    exact mapError_eq_ok.mpr hc1

theorem foldlM_parsed_eq_ok {l : List β} {add : γ → α → Except ε' γ} {wrap : ε' → ε}
    (h : l.foldlM (fun c b => do let a ← parse b; (add c a).mapError wrap) c = .ok c') :
    ∃ as, List.mapM parse l = .ok as ∧ as.foldlM add c = .ok c' := by
  induction l generalizing c with
  | nil => exact ⟨[], rfl, by simpa using h⟩
  | cons b l ih =>
    rw [foldlM_cons, bind_eq_ok] at h
    obtain ⟨c1, hb, h⟩ := h
    obtain ⟨a, ha, hc1⟩ := bind_eq_ok.mp hb
    obtain ⟨as, has, hfold⟩ := ih h
    refine ⟨a :: as, mapM_cons_eq_ok.mpr ⟨a, as, ha, has, rfl⟩, ?_⟩
    rw [foldlM_cons, mapError_eq_ok.mp hc1]
    exact hfold

/-- What a loop does with a list, from what it does with one element and then the rest. -/
theorem foldlM_rel {step : σ → α → Except ε σ} {R : σ → List α → σ → Prop} (hnil : ∀ s, R s [] s)
    (hcons : ∀ s a s' l s'', step s a = .ok s' → R s' l s'' → R s (a :: l) s'')
    (h : l.foldlM step s = .ok s') : R s l s' := by
  induction l generalizing s with
  | nil =>
    cases h
    exact hnil _
  | cons a l ih =>
    rw [foldlM_cons, bind_eq_ok] at h
    obtain ⟨s1, ha, h⟩ := h
    exact hcons s a s1 l s' ha (ih h)

theorem foldlM_mapError {l : List α} {step : σ → α → Except ε σ} :
    l.foldlM (fun s a => (step s a).mapError wrap) s = .ok s' ↔ l.foldlM step s = .ok s' := by
  induction l generalizing s with
  | nil => exact ⟨fun h => by cases h; rfl, fun h => by cases h; rfl⟩
  | cons a l ih =>
    simp only [foldlM_cons, bind_eq_ok, mapError_eq_ok, ih]

/-- Parse every element and refuse one whose key was there before. -/
def distinctM [DecidableEq κ] (parse : β → Except ε α) (key : α → κ) (duplicate : ε)
    (l : List β) : Except ε (List α) :=
  l.foldlM (fun found b => do
    let a ← parse b
    if key a ∈ found.map key then throw duplicate
    pure (found ++ [a])) []

private theorem distinctM_aux [DecidableEq κ] {parse : β → Except ε α} {key : α → κ} {l : List β}
    {found : List α} (hf : (found.map key).Nodup) : l.foldlM (fun found b => do
        let a ← parse b
        if key a ∈ found.map key then throw e
        pure (found ++ [a])) found = .ok as ↔
      ∃ new, List.mapM parse l = .ok new ∧ ((found ++ new).map key).Nodup ∧ as = found ++ new := by
  induction l generalizing found with
  | nil =>
    constructor
    · intro h
      cases h
      exact ⟨[], rfl, by simpa using hf, by simp⟩
    · rintro ⟨new, hnew, -, rfl⟩
      cases hnew
      simp
  | cons b l ih =>
    rw [foldlM_cons, bind_eq_ok]
    constructor
    · rintro ⟨found', hb, h⟩
      obtain ⟨a, ha, hb⟩ := bind_eq_ok.mp hb
      split at hb
      · cases hb
      · next hnew =>
        cases hb
        have hf' : ((found ++ [a]).map key).Nodup := by
          rw [map_append, nodup_append]
          refine ⟨hf, nodup_singleton _, fun x hx y hy hxy => hnew ?_⟩
          rwa [← mem_singleton.mp hy, ← hxy]
        obtain ⟨new, hl, hnodup, rfl⟩ := (ih hf').mp h
        rw [← append_cons found a new] at hnodup ⊢
        exact ⟨a :: new, mapM_cons_eq_ok.mpr ⟨a, new, ha, hl, rfl⟩, hnodup, rfl⟩
    · rintro ⟨new, hl, hnodup, rfl⟩
      obtain ⟨a, new, ha, hrest, rfl⟩ := mapM_cons_eq_ok.mp hl
      rw [append_cons found a new] at hnodup
      have hf' : ((found ++ [a]).map key).Nodup := by
        rw [map_append, nodup_append] at hnodup
        exact hnodup.1
      have hnew : key a ∉ found.map key := fun hm => by
        rw [map_append, nodup_append] at hf'
        exact hf'.2.2 _ hm _ mem_cons_self rfl
      refine ⟨found ++ [a], ?_, (ih hf').mpr ⟨new, hrest, hnodup, append_cons found a new⟩⟩
      rw [ha, ok_bind, if_neg hnew]
      rfl

theorem distinctM_eq_ok [DecidableEq κ] {parse : β → Except ε α} {key : α → κ} {l : List β} :
    distinctM parse key e l = .ok as ↔ List.mapM parse l = .ok as ∧ (as.map key).Nodup := by
  rw [distinctM, distinctM_aux (show (([] : List α).map key).Nodup from nodup_nil)]
  simp only [nil_append]
  constructor
  · rintro ⟨_, h, hn, rfl⟩
    exact ⟨h, hn⟩
  · rintro ⟨h, hn⟩
    exact ⟨as, h, hn, rfl⟩

/-- A loop whose step on the `i`-th element leads from stage `i` to the next one. -/
theorem foldlM_stages {l : List α} {step : σ → α → Except ε σ} (stage : Nat → σ) (hs : stage 0 = s)
    (h : ∀ i a, l[i]? = some a → step (stage i) a = .ok (stage (i + 1))) :
    l.foldlM step s = .ok (stage l.length) := by
  induction l generalizing stage s with
  | nil =>
    subst hs
    rfl
  | cons a l ih =>
    rw [foldlM_cons, ← hs, h 0 a rfl, ok_bind]
    exact ih (fun i => stage (i + 1)) rfl fun i b hb => h (i + 1) b hb

end Except

/-- The first element that is among those before it or in `seen`. -/
def firstRepeat [DecidableEq α] (seen : List α) : List α → Option α
  | [] => none
  | a :: l => if a ∈ seen then some a else firstRepeat (a :: seen) l

private theorem firstRepeat_eq_none_aux [DecidableEq α] {seen l : List α} :
    firstRepeat seen l = none ↔ l.Nodup ∧ ∀ a ∈ l, a ∉ seen := by
  induction l generalizing seen with
  | nil => simp [firstRepeat]
  | cons a l ih =>
    rw [firstRepeat]
    split
    · next ha => simp [ha]
    · next ha =>
      rw [ih, nodup_cons]
      simp only [mem_cons, not_or, forall_eq_or_imp]
      exact ⟨fun ⟨hl, h⟩ => ⟨⟨fun hm => (h a hm).1 rfl, hl⟩, ha, fun b hb => (h b hb).2⟩,
        fun ⟨⟨hal, hl⟩, _, h⟩ => ⟨hl, fun b hb => ⟨fun hba => hal (hba ▸ hb), h b hb⟩⟩⟩

theorem firstRepeat_eq_none [DecidableEq α] {l : List α} : firstRepeat [] l = none ↔ l.Nodup := by
  simp [firstRepeat_eq_none_aux]

theorem nodup_of_firstRepeat [DecidableEq α] {l : List α} (h : firstRepeat [] l = none) : l.Nodup :=
  firstRepeat_eq_none.mp h

/-- Text that has passed a check. -/
@[ext] structure Checked {ε : Type} (check : String → Except ε Unit) where
  value : String
  valid : check value = .ok () := by decide
  deriving DecidableEq

namespace Checked

variable {ε : Type} {check : String → Except ε Unit}

def parse (check : String → Except ε Unit) : String → Except ε (Checked check) :=
  Except.checked check fun value valid => ⟨value, valid⟩

@[simp] theorem parse_value (text : Checked check) : parse check text.value = .ok text :=
  checked_of_ok text.valid

theorem parse_eq_ok : parse check s = .ok text ↔ text.value = s := by
  rw [parse, checked_eq_ok]
  constructor
  · rintro ⟨_, rfl⟩
    rfl
  · rintro rfl
    exact ⟨text.valid, rfl⟩

end Checked
