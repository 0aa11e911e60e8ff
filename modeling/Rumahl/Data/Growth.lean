import Rumahl.Data.Table

/-!
# Tables that only grow

In many tables rows are added and changed but never taken out, and a change only goes one way: a row
that is revoked stays revoked. `Growth` says how the rows of a table may change and which rows stand
for something that was added; `Growth.Grows` relates a table to a later one by what was added in
between. Growth composes, so it follows for whole runs from single steps.
-/

open List

namespace Table

variable {α β κ : Type}

/-- How a table with the key `key` may grow: `Later` relates a row to what becomes of it, and `Born`
says of what was added which row it has. -/
structure Growth (α β κ : Type) where
  key : α → κ
  newKey : β → κ
  Later : α → α → Prop
  Born : β → α → Prop
  refl : ∀ x, Later x x
  trans : ∀ {x y z}, Later x y → Later y z → Later x z
  key_later : ∀ {x y}, Later x y → key y = key x
  key_born : ∀ {b y}, Born b y → key y = newKey b
  born_later : ∀ {b y z}, Born b y → Later y z → Born b z

/-- The growth of a table in which what is added is known by its key. -/
def Growth.ofKey (key : α → κ) (Later : α → α → Prop) (refl : ∀ x, Later x x)
    (trans : ∀ {x y z}, Later x y → Later y z → Later x z)
    (key_later : ∀ {x y}, Later x y → key y = key x) : Growth α κ κ where
  key := key
  newKey := id
  Later := Later
  Born k y := key y = k
  refl := refl
  trans := trans
  key_later := key_later
  key_born h := h
  born_later h h' := (key_later h').trans h

namespace Growth

variable (G : Growth α β κ)

/-- The table `t'` is what became of `t` after `new` was added. -/
structure Grows (t : List α) (new : List β) (t' : List α) : Prop where
  keyed : Keyed G.key t'
  later : ∀ x ∈ t, ∃ y ∈ t', G.Later x y
  origin : ∀ y ∈ t', (∃ x ∈ t, G.Later x y) ∨ ∃ b ∈ new, G.Born b y
  fresh : ∀ b ∈ new, ∀ x ∈ t, G.key x ≠ G.newKey b
  stays : ∀ b ∈ new, ∃ y ∈ t', G.Born b y
  once : (new.map G.newKey).Nodup

variable {G} {t t' t'' : List α} {new new' : List β}

namespace Grows

theorem map (hk : Keyed G.key t) (hf : ∀ x ∈ t, G.Later x (f x)) : G.Grows t [] (t.map f) where
  keyed := by
    have : (t.map f).map G.key = t.map G.key := by
      rw [map_map]
      exact map_congr_left fun x hx => G.key_later (hf x hx)
    rw [Keyed, this]
    exact hk
  later x hx := ⟨f x, mem_map_of_mem hx, hf x hx⟩
  origin y hy := by
    obtain ⟨x, hx, rfl⟩ := mem_map.mp hy
    exact .inl ⟨x, hx, hf x hx⟩
  fresh _ h := nomatch h
  stays _ h := nomatch h
  once := .nil

protected theorem refl (hk : Keyed G.key t) : G.Grows t [] t := by
  simpa using map hk fun x _ => G.refl x

theorem put [DecidableEq κ] (hk : Keyed G.key t) (hx : x ∈ t) (hxa : G.Later x a) :
    G.Grows t [] (Table.put G.key t a) := by
  refine map hk fun y hy => ?_
  split
  · next h =>
    rw [hk.eq hy hx (h.trans (G.key_later hxa))]
    exact hxa
  · exact G.refl y

theorem append (hk : Keyed G.key t) (hb : G.Born b a) (hnew : ∀ x ∈ t, G.key x ≠ G.key a) :
    G.Grows t [b] (t ++ [a]) where
  keyed := keyed_append.mpr ⟨hk, hnew⟩
  later x hx := ⟨x, mem_append_left _ hx, G.refl x⟩
  origin y hy := by
    obtain hy | hy := mem_append.mp hy
    · exact .inl ⟨y, hy, G.refl y⟩
    · obtain rfl := mem_singleton.mp hy
      exact .inr ⟨b, mem_singleton_self b, hb⟩
  fresh b' hb' := by
    obtain rfl := mem_singleton.mp hb'
    rw [← G.key_born hb]
    exact hnew
  stays b' hb' := by
    obtain rfl := mem_singleton.mp hb'
    exact ⟨a, mem_append_right _ (mem_singleton_self a), hb⟩
  once := nodup_singleton _

theorem trans (h : G.Grows t new t') (h' : G.Grows t' new' t'') : G.Grows t (new ++ new') t'' where
  keyed := h'.keyed
  later x hx := by
    obtain ⟨y, hy, hxy⟩ := h.later x hx
    obtain ⟨z, hz, hyz⟩ := h'.later y hy
    exact ⟨z, hz, G.trans hxy hyz⟩
  origin z hz := by
    obtain ⟨y, hy, hyz⟩ | ⟨b, hb, hbz⟩ := h'.origin z hz
    · obtain ⟨x, hx, hxy⟩ | ⟨b, hb, hby⟩ := h.origin y hy
      · exact .inl ⟨x, hx, G.trans hxy hyz⟩
      · exact .inr ⟨b, mem_append_left _ hb, G.born_later hby hyz⟩
    · exact .inr ⟨b, mem_append_right _ hb, hbz⟩
  fresh b hb x hx := by
    obtain hb | hb := mem_append.mp hb
    · exact h.fresh b hb x hx
    · obtain ⟨y, hy, hxy⟩ := h.later x hx
      exact G.key_later hxy ▸ h'.fresh b hb y hy
  stays b hb := by
    obtain hb | hb := mem_append.mp hb
    · obtain ⟨y, hy, hby⟩ := h.stays b hb
      obtain ⟨z, hz, hyz⟩ := h'.later y hy
      exact ⟨z, hz, G.born_later hby hyz⟩
    · exact h'.stays b hb
  once := by
    rw [map_append]
    refine nodup_append.mpr ⟨h.once, h'.once, fun k hk k' hk' heq => ?_⟩
    obtain ⟨b, hb, rfl⟩ := mem_map.mp hk
    obtain ⟨b', hb', rfl⟩ := mem_map.mp hk'
    obtain ⟨y, hy, hby⟩ := h.stays b hb
    exact h'.fresh b' hb' y hy ((G.key_born hby).trans heq)

theorem later_of_key (h : G.Grows t new t') (hx : x ∈ t) (hy : y ∈ t') (hkey : G.key y = G.key x) :
    G.Later x y := by
  obtain ⟨z, hz, hxz⟩ := h.later x hx
  rwa [h.keyed.eq hy hz (hkey.trans (G.key_later hxz).symm)]

theorem born_of_key (h : G.Grows t new t') (hb : b ∈ new) (hy : y ∈ t')
    (hkey : G.key y = G.newKey b) : G.Born b y := by
  obtain ⟨z, hz, hbz⟩ := h.stays b hb
  rwa [h.keyed.eq hy hz (hkey.trans (G.key_born hbz).symm)]

theorem new_unique (h : G.Grows t new t') (hb : b ∈ new) (hb' : b' ∈ new)
    (hkey : G.newKey b = G.newKey b') : b = b' :=
  inj_on_of_nodup_map h.once hb hb' hkey

end Grows

end Growth

end Table
