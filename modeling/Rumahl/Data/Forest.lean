import Mathlib

/-!
# Parent pointers

A partial map `up` gives each node its parent; a node that `up` does not know does not exist. `Path`
is the way from a node up to the root. It is unique, so it never repeats a node, and it survives the
three changes a tree can take: a leaf is added (`Path.mono`), a childless node is removed
(`Path.remove`), a node is moved under one that is not below it (`Path.move`).
-/

namespace Forest

variable {κ : Type} {up up' : κ → Option κ} {root : κ}

/-- The nodes from `k` up to the root, which is not among them. -/
inductive Path (up : κ → Option κ) (root : κ) : κ → List κ → Prop
  | root : Path up root root []
  | step : k ≠ root → up k = some p → Path up root p l → Path up root k (k :: l)

namespace Path

theorem unique (h : Path up root k l) (h' : Path up root k l') : l = l' := by
  induction h generalizing l' with
  | root =>
    cases h' with
    | root => rfl
    | step hne _ _ => exact (hne rfl).elim
  | step hne hup _ ih =>
    cases h' with
    | root => exact (hne rfl).elim
    | step _ hup' htail =>
      cases hup.symm.trans hup'
      rw [ih htail]

/-- From a node on the way the rest of the way is shorter. -/
theorem of_mem (h : Path up root k l) (hx : x ∈ l) :
    ∃ l', Path up root x (x :: l') ∧ (x :: l').length ≤ l.length := by
  induction h with
  | root => cases hx
  | @step k p l hne hup htail ih =>
    obtain rfl | hx := List.mem_cons.mp hx
    · exact ⟨l, .step hne hup htail, Nat.le_refl _⟩
    · obtain ⟨l', hl', hle⟩ := ih hx
      exact ⟨l', hl', Nat.le_trans hle (Nat.le_succ _)⟩

theorem nodup (h : Path up root k l) : l.Nodup := by
  induction h with
  | root => exact .nil
  | @step k p l hne hup htail ih =>
    refine List.nodup_cons.mpr ⟨fun hk => ?_, ih⟩
    obtain ⟨l', hl', hle⟩ := htail.of_mem hk
    cases hl'.unique (.step hne hup htail)
    exact Nat.not_succ_le_self _ hle

theorem isSome (h : Path up root k l) (hx : x ∈ l) : (up x).isSome := by
  induction h with
  | root => cases hx
  | @step k p l hne hup htail ih =>
    obtain rfl | hx := List.mem_cons.mp hx
    · rw [hup]
      rfl
    · exact ih hx

theorem mono (h : Path up root k l) (hup : ∀ x ∈ l, up' x = up x) : Path up' root k l := by
  induction h with
  | root => exact .root
  | @step k p l hne hk htail ih =>
    exact .step hne ((hup k List.mem_cons_self).trans hk)
      (ih fun x hx => hup x (List.mem_cons_of_mem _ hx))

theorem remove (h : Path up root k l) (hk : k ≠ gone) (hleaf : ∀ x p, up x = some p → p ≠ gone)
    (hup : ∀ x, x ≠ gone → up' x = up x) : Path up' root k l := by
  induction h with
  | root => exact .root
  | @step k p l hne hkp htail ih =>
    exact .step hne ((hup k hk).trans hkp) (ih (hleaf k p hkp))

/-- A node is moved under one that is not below it. -/
theorem move (h : Path up root k l) (hp : Path up root p l0) (hfree : moved ∉ l0)
    (hmoved : up' moved = some p) (hup : ∀ x, x ≠ moved → up' x = up x) :
    ∃ l', Path up' root k l' := by
  have hp' : Path up' root p l0 := hp.mono fun x hx => hup x fun heq => hfree (heq ▸ hx)
  induction h with
  | root => exact ⟨[], .root⟩
  | @step k q l hne hkq htail ih =>
    by_cases heq : k = moved
    · exact ⟨k :: l0, .step hne (heq ▸ hmoved) hp'⟩
    · obtain ⟨l', hl'⟩ := ih
      exact ⟨k :: l', .step hne ((hup k heq).trans hkq) hl'⟩

end Path

end Forest
