import Mathlib

/-!
# Tables with a key

A table is a list of rows with distinct keys. `find` looks a row up, `put` replaces the row with
the same key; rows are never reordered.
-/

open List

namespace Table

variable {α κ : Type} [DecidableEq κ] (key : α → κ)

def find (t : List α) (k : κ) : Option α := t.find? fun a => key a = k

/-- Replace the row that has the key of `a`. -/
def put (t : List α) (a : α) : List α := t.map fun b => if key b = key a then a else b

/-- The rows have distinct keys. -/
def Keyed (t : List α) : Prop := (t.map key).Nodup

instance (t : List α) : Decidable (Keyed key t) := inferInstanceAs (Decidable (t.map key).Nodup)

variable {key}

omit [DecidableEq κ] in
theorem Keyed.eq (h : Keyed key t) (ha : a ∈ t) (hb : b ∈ t) (he : key a = key b) : a = b :=
  inj_on_of_nodup_map h ha hb he

omit [DecidableEq κ] in
theorem Keyed.left (h : Keyed key (t ++ t')) : Keyed key t :=
  (map_append ▸ h : (t.map key ++ t'.map key).Nodup).of_append_left

theorem key_of_find (h : find key t k = some a) : key a = k := by
  simpa using List.find?_some h

theorem find_eq_some (h : Keyed key t) : find key t k = some a ↔ a ∈ t ∧ key a = k := by
  constructor
  · intro hf
    exact ⟨mem_of_find?_eq_some hf, key_of_find hf⟩
  · rintro ⟨ha, rfl⟩
    cases hf : find key t (key a) with
    | none => simpa using List.find?_eq_none.mp hf a ha
    | some b =>
      rw [h.eq (mem_of_find?_eq_some hf) ha (key_of_find hf)]

theorem find_eq_none : find key t k = none ↔ ∀ a ∈ t, key a ≠ k := by
  simp [find]

@[simp] theorem map_key_put (t : List α) (a : α) : (put key t a).map key = t.map key := by
  rw [put, map_map]
  refine map_congr_left fun b _ => ?_
  simp only [Function.comp_apply]
  split <;> simp_all

theorem Keyed.put (h : Keyed key t) (a : α) : Keyed key (put key t a) := by
  rw [Keyed, map_key_put]
  exact h

theorem mem_put : b ∈ put key t a ↔ (b = a ∧ ∃ c ∈ t, key c = key a) ∨ (b ∈ t ∧ key b ≠ key a) := by
  rw [put, mem_map]
  constructor
  · rintro ⟨c, hc, hb⟩
    split at hb
    · next h => exact .inl ⟨hb.symm, c, hc, h⟩
    · next h => exact .inr ⟨hb ▸ hc, hb ▸ h⟩
  · rintro (⟨rfl, c, hc, h⟩ | ⟨hb, h⟩)
    · exact ⟨c, hc, if_pos h⟩
    · exact ⟨b, hb, if_neg h⟩

theorem find_put_self (h : find key t (key a) = some b) :
    find key (put key t a) (key a) = some a := by
  induction t with
  | nil => cases h
  | cons c t ih =>
    by_cases hc : key c = key a
    · simp [find, put, hc]
    · have : find key t (key a) = some b := by simpa [find, hc] using h
      simpa [find, put, hc] using ih this

theorem find_put_ne (h : k ≠ key a) : find key (put key t a) k = find key t k := by
  induction t with
  | nil => rfl
  | cons c t ih =>
    by_cases hc : key c = key a
    · simpa [find, put, hc, h.symm] using ih
    · by_cases hk : key c = k
      · subst hk
        simp [find, put, hc]
      · simpa [find, put, hc, hk] using ih

theorem put_put (h : key a = key b) : put key (put key t a) b = put key t b := by
  rw [put, put, put, map_map]
  refine map_congr_left fun c _ => ?_
  by_cases hc : key c = key b <;> simp [hc, h]

theorem put_self (ht : Keyed key t) (h : find key t (key a) = some a) : put key t a = t := by
  obtain ⟨ha, -⟩ := (find_eq_some ht).mp h
  refine (map_congr_left fun b hb => ?_).trans (map_id' t)
  split
  · next hk => exact (ht.eq hb ha hk).symm
  · rfl

theorem put_append (h : ∀ b ∈ t, key b ≠ key a) (hc : key c = key a) :
    put key (t ++ [c]) a = t ++ [a] := by
  have ht : put key t a = t := by
    refine (map_congr_left fun b hb => if_neg (h b hb)).trans (map_id' t)
  rw [put, map_append, ← put, ht]
  simp [hc]

omit [DecidableEq κ] in
theorem keyed_append : Keyed key (t ++ [a]) ↔ Keyed key t ∧ ∀ b ∈ t, key b ≠ key a := by
  simp [Keyed, nodup_append]

end Table
