import Rumahl.Data.Checks

/-!
# Registries

A registry is a list that entries are appended to, unless one already there clashes with the new
one, and from which all entries of an owner are removed. `registerAll_eq_ok` says when a whole
batch goes in, and `removeOwned_flatMap` what removing an owner does to a registry that is put
together from parts with an owner each.
-/

open List

namespace Registry

variable {α β ε ω : Type} (clash : α → α → Bool) (e : ε)

/-- Refuse an entry that clashes with one already registered. -/
def canRegister (l : List α) (a : α) : Except ε Unit :=
  if l.any (clash · a) then .error e else .ok ()

def register (l : List α) (a : α) : Except ε (List α) := do
  canRegister clash e l a
  pure (l ++ [a])

def canRegisterAll (l as : List α) : Except ε Unit :=
  as.forM (canRegister clash e l)

/-- Register entries one after the other; each is checked against those before it. -/
def registerAll : List α → List α → Except ε (List α)
  | l, [] => .ok l
  | l, a :: as => do
    let l ← register clash e l a
    registerAll l as

def removeOwned [DecidableEq ω] (owner : α → ω) (l : List α) (o : ω) : List α :=
  l.filter fun a => owner a ≠ o

variable {clash e}

theorem canRegister_eq_ok : canRegister clash e l a = .ok () ↔ ∀ b ∈ l, clash b a = false := by
  have hany : l.any (clash · a) = false ↔ ∀ b ∈ l, clash b a = false := by simp
  rw [← hany, canRegister]
  cases l.any (clash · a) <;> simp

theorem canRegisterAll_eq_ok :
    canRegisterAll clash e l as = .ok () ↔ ∀ a ∈ as, ∀ b ∈ l, clash b a = false := by
  simp only [canRegisterAll, Except.forM_eq_ok, canRegister_eq_ok]

theorem register_eq_ok :
    register clash e l a = .ok l' ↔ (∀ b ∈ l, clash b a = false) ∧ l' = l ++ [a] := by
  rw [register, Except.bind_eq_ok, ← canRegister_eq_ok]
  constructor
  · rintro ⟨⟨⟩, h, h'⟩
    exact ⟨h, (Except.ok.inj h').symm⟩
  · rintro ⟨h, rfl⟩
    exact ⟨(), h, rfl⟩

/-- A batch goes in if no entry clashes with one registered before or with one ahead of it. -/
theorem registerAll_eq_ok : registerAll clash e l as = .ok l' ↔
      (∀ a ∈ as, ∀ b ∈ l, clash b a = false) ∧
      as.Pairwise (fun b a => clash b a = false) ∧ l' = l ++ as := by
  induction as generalizing l with
  | nil => simpa [registerAll] using eq_comm
  | cons a as ih =>
    rw [registerAll, Except.bind_eq_ok, pairwise_cons]
    constructor
    · rintro ⟨l1, h, h'⟩
      obtain ⟨ha, rfl⟩ := register_eq_ok.mp h
      obtain ⟨hl, hp, rfl⟩ := ih.mp h'
      refine ⟨forall_mem_cons.mpr ⟨ha, fun x hx b hb => ?_⟩, ⟨fun x hx => ?_, hp⟩, by simp⟩
      · exact hl x hx b (mem_append_left _ hb)
      · exact hl x hx a (mem_append_right _ (mem_singleton_self a))
    · rintro ⟨hl, ⟨hpa, hp⟩, rfl⟩
      obtain ⟨ha, hl⟩ := forall_mem_cons.mp hl
      refine ⟨l ++ [a], register_eq_ok.mpr ⟨ha, rfl⟩, ih.mpr ⟨fun x hx b hb => ?_, hp, by simp⟩⟩
      rcases mem_append.mp hb with hb | hb
      · exact hl x hx b hb
      · exact mem_singleton.mp hb ▸ hpa x hx

/-- Removing an owner from a registry put together from parts keeps the parts of the others. -/
theorem removeOwned_flatMap [DecidableEq ω] {f : α → List β} {g : α → ω} {l : List α}
    (h : ∀ a ∈ l, ∀ b ∈ f a, owner b = g a) (o : ω) :
    removeOwned owner (l.flatMap f) o = (l.filter fun a => g a ≠ o).flatMap f := by
  induction l with
  | nil => rfl
  | cons a l ih =>
    have ih := ih fun a ha => h a (mem_cons_of_mem _ ha)
    have ha : ∀ b ∈ f a, owner b = g a := h a mem_cons_self
    simp only [removeOwned, flatMap_cons, filter_append] at ih ⊢
    rw [ih]
    by_cases hg : g a = o
    · rw [filter_cons_of_neg (by simpa using hg),
        filter_eq_nil_iff.mpr fun b hb => by simp [ha b hb, hg], nil_append]
    · rw [filter_cons_of_pos (by simpa using hg), flatMap_cons,
        filter_eq_self.mpr fun b hb => by simp [ha b hb, hg]]

end Registry
