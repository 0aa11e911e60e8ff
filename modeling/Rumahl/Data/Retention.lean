import Mathlib

/-!
# Keeping the entries with the highest stamps

A list grows at its end, and of its entries those are kept that come first in another order. When
these are the ones that were added last is said by `new_kept_iff`. For an order by stamps,
`idxOf_sorted_lt` says which of two entries comes first.
-/

open List

namespace Retention

variable {α : Type} [BEq α] [LawfulBEq α] {stamp : α → Nat} {keep : Nat} {l order : List α}

/-- By stamp, the highest first, and among equal ones in the order of the list. -/
def sorted (stamp : α → Nat) (l : List α) : List α := l.insertionSort fun a b => stamp b ≤ stamp a

def kept (order : List α) (keep : Nat) (l : List α) : List α :=
  l.filter fun a => a ∉ order.drop keep

theorem mem_kept : a ∈ kept order keep l ↔ a ∈ l ∧ a ∉ order.drop keep := by
  simp [kept]

theorem idxOf_lt_iff_sublist (hn : l.Nodup) (hb : b ∈ l) :
    l.idxOf a < l.idxOf b ↔ [a, b].Sublist l := by
  induction l with
  | nil => cases hb
  | cons c l ih =>
    obtain ⟨hc, hn⟩ := nodup_cons.mp hn
    by_cases ha : c = a
    · subst ha
      by_cases hb' : c = b
      · subst hb'
        simp [hc]
      · simp [idxOf_cons_ne l hb', (mem_cons.mp hb).resolve_left (Ne.symm hb')]
    · have hskip : [a, b].Sublist (c :: l) ↔ [a, b].Sublist l := by
        rw [sublist_cons_iff]
        simp [Ne.symm ha]
      rw [hskip, idxOf_cons_ne l ha]
      by_cases hb' : c = b
      · subst hb'
        simp only [idxOf_cons_self, Nat.not_lt_zero, false_iff]
        exact fun h => hc (h.subset (by simp))
      · rw [idxOf_cons_ne l hb', Nat.succ_lt_succ_iff]
        exact ih hn ((mem_cons.mp hb).resolve_left (Ne.symm hb'))

/-- The one with the higher stamp comes first, and of equal ones the one that is listed first. -/
theorem idxOf_sorted_lt (hn : l.Nodup) (ha : a ∈ l) (hb : b ∈ l) :
    (sorted stamp l).idxOf b < (sorted stamp l).idxOf a ↔
      stamp a < stamp b ∨ stamp a = stamp b ∧ l.idxOf b < l.idxOf a := by
  have hmem : ∀ {c}, c ∈ sorted stamp l ↔ c ∈ l := mem_insertionSort _
  have hns : (sorted stamp l).Nodup := (perm_insertionSort ..).nodup_iff.mpr hn
  have : Std.Total fun a b => stamp b ≤ stamp a := ⟨fun a b => Nat.le_total ..⟩
  have : IsTrans α fun a b => stamp b ≤ stamp a := ⟨fun a b c h h' => h'.trans h⟩
  have hsorted := pairwise_insertionSort (fun a b => stamp b ≤ stamp a) l
  have hle : ∀ {a b}, a ∈ l → (sorted stamp l).idxOf b < (sorted stamp l).idxOf a →
      stamp a ≤ stamp b := fun ha h =>
    pairwise_iff_forall_sublist.mp hsorted ((idxOf_lt_iff_sublist hns (hmem.mpr ha)).mp h)
  have hstable : ∀ {a b}, a ∈ l → stamp a ≤ stamp b → l.idxOf b < l.idxOf a →
      (sorted stamp l).idxOf b < (sorted stamp l).idxOf a := fun ha hle h =>
    (idxOf_lt_iff_sublist hns (hmem.mpr ha)).mpr
      (pair_sublist_insertionSort hle ((idxOf_lt_iff_sublist hn ha).mp h))
  by_cases hab : a = b
  · simp [hab]
  have hne := (idxOf_inj ha).not.mpr hab
  have hne' := (idxOf_inj (hmem.mpr ha)).not.mpr hab
  constructor
  · intro h
    have hab := hle ha h
    by_cases heq : stamp a = stamp b
    · refine .inr ⟨heq, Nat.not_le.mp fun hle => ?_⟩
      have := hstable hb heq.ge (by omega)
      omega
    · exact .inl (by omega)
  · rintro (h | ⟨h, hidx⟩)
    · by_contra hlt
      have := hle hb (b := a) (by omega)
      omega
    · exact hstable ha h.le hidx

omit [BEq α] [LawfulBEq α] in
theorem pairwise_mem_drop (hn : l.Nodup) (k : Nat) :
    l.Pairwise fun a b => a ∈ l.drop k → b ∈ l.drop k := by
  induction l generalizing k with
  | nil => exact .nil
  | cons a l ih =>
    obtain ⟨ha, hn⟩ := nodup_cons.mp hn
    cases k with
    | zero => exact pairwise_of_forall_mem_list fun _ _ b hb _ => hb
    | succ k =>
      exact pairwise_cons.mpr ⟨fun b _ h => absurd (mem_of_mem_drop (i := k) h) ha, ih hn k⟩

omit [BEq α] [LawfulBEq α] in
theorem mem_take_iff (hn : l.Nodup) (k : Nat) : a ∈ l.take k ↔ a ∈ l ∧ a ∉ l.drop k := by
  rw [← take_append_drop k l] at hn
  have hdisjoint := disjoint_of_nodup_append hn
  constructor
  · exact fun h => ⟨mem_of_mem_take h, hdisjoint h⟩
  · rintro ⟨h, hnot⟩
    rw [← take_append_drop k l] at h
    exact (mem_append.mp h).resolve_right hnot

section

variable (hn : l.Nodup) (ho : order.Perm l)

include hn ho

theorem mem_kept_iff_take : a ∈ kept order keep l ↔ a ∈ order.take keep := by
  rw [mem_kept, mem_take_iff (ho.nodup_iff.mpr hn), ho.mem_iff]

theorem mem_kept_iff_idxOf (ha : a ∈ l) : a ∈ kept order keep l ↔ order.idxOf a < keep := by
  rw [mem_kept_iff_take hn ho, mem_take_iff_idxOf_lt (ho.mem_iff.mpr ha)]

theorem length_kept : (kept order keep l).length = min keep l.length := by
  have hperm : (kept order keep l).Perm (order.take keep) :=
    (perm_ext_iff_of_nodup (hn.filter _) (ho.nodup_iff.mpr hn).take).mpr fun a =>
      mem_kept_iff_take hn ho
  rw [hperm.length_eq, length_take, ho.length_eq]

/-- The kept ones are the last ones if one of the others is kept only together with them, since they
would be too many. -/
theorem mem_kept_iff_drop (h : ∀ a ∈ l.take (l.length - keep), a ∈ kept order keep l →
      ∀ b ∈ l.drop (l.length - keep), b ∈ kept order keep l) :
    a ∈ kept order keep l ↔ a ∈ l.drop (l.length - keep) := by
  have hlength : (l.drop (l.length - keep)).length = (kept order keep l).length := by
    rw [length_drop, length_kept hn ho]
    omega
  have hsub : kept order keep l ⊆ l.drop (l.length - keep) := by
    intro a ha
    by_contra hnot
    have htake := (mem_take_iff hn _).mpr ⟨(mem_kept.mp ha).1, hnot⟩
    have hle := (subperm_of_subset (nodup_cons.mpr ⟨hnot, hn.drop⟩)
      (cons_subset.mpr ⟨ha, h a htake ha⟩)).length_le
    rw [length_cons, hlength] at hle
    omega
  exact ((subperm_of_subset (hn.filter _) hsub).perm_of_length_le (Nat.le_of_eq hlength)).mem_iff

end

/-- An entry that was added is kept, and none is dropped while an older one is kept, exactly if the
last ones come before all others in the order. -/
theorem new_kept_iff (keep : Nat) (hn : (l ++ [x]).Nodup) (ho : order.Perm (l ++ [x])) :
    (x ∈ kept order keep (l ++ [x]) ∧
      l.Pairwise fun a b => a ∈ kept order keep (l ++ [x]) → b ∈ kept order keep (l ++ [x])) ↔
      0 < keep ∧ ∀ a ∈ (l ++ [x]).take ((l ++ [x]).length - keep),
        ∀ b ∈ (l ++ [x]).drop ((l ++ [x]).length - keep), order.idxOf b < order.idxOf a := by
  have hidx {a} (ha : a ∈ l ++ [x]) : a ∈ kept order keep (l ++ [x]) ↔ order.idxOf a < keep :=
    mem_kept_iff_idxOf hn ho ha
  constructor
  · rintro ⟨hx, hl⟩
    have hall : ((l ++ [x]).take ((l ++ [x]).length - keep) ++
        (l ++ [x]).drop ((l ++ [x]).length - keep)).Pairwise fun a b =>
          a ∈ kept order keep (l ++ [x]) → b ∈ kept order keep (l ++ [x]) := by
      rw [take_append_drop]
      exact pairwise_append.mpr ⟨hl, pairwise_singleton ..,
        fun a _ b hb _ => mem_singleton.mp hb ▸ hx⟩
    have hmem := fun a => mem_kept_iff_drop (a := a) hn ho fun a ha hk b hb =>
      (pairwise_append.mp hall).2.2 a ha b hb hk
    refine ⟨Nat.zero_lt_of_lt ((hidx (by simp)).mp hx), fun a ha b hb => ?_⟩
    have hnot := (not_congr (hmem a)).mpr ((mem_take_iff hn _).mp ha).2
    rw [hidx (mem_of_mem_take ha)] at hnot
    have hkept := (hidx (mem_of_mem_drop hb)).mp ((hmem b).mpr hb)
    omega
  · rintro ⟨hpos, h⟩
    have hmem := fun a => mem_kept_iff_drop (a := a) hn ho fun a ha hk b hb =>
      (hidx (mem_of_mem_drop hb)).mpr
        ((h a ha b hb).trans ((hidx (mem_of_mem_take ha)).mp hk))
    simp only [hmem]
    refine ⟨?_, (pairwise_append.mp (pairwise_mem_drop hn _)).1⟩
    rw [drop_append_of_le_length (by simp; omega)]
    simp

section

variable {listed ranked left : List α} {gone : α → Prop} [DecidablePred gone]
  (hgone : ∀ a ∈ l, gone a → a ∈ (sorted stamp ranked).drop keep)
  (hleft : left = l.filter fun a => ¬gone a)

include hgone hleft

theorem left_eq_kept (hdrop : ∀ a ∈ (sorted stamp ranked).drop keep, gone a) :
    left = kept (sorted stamp ranked) keep l := by
  rw [hleft]
  exact filter_congr fun a ha => decide_eq_decide.mpr (not_congr ⟨hgone a ha, hdrop a⟩)

omit [BEq α] [LawfulBEq α] in
/-- Too many are left if one was not ordered or not removed. -/
theorem all_gone (hn : l.Nodup) (hl : listed.Perm l) (hranked : ranked.Sublist listed)
    (hk : keep < l.length) (hle : left.length ≤ keep) :
    ranked = listed ∧ ∀ a ∈ (sorted stamp ranked).drop keep, gone a := by
  have hsub : (l.filter gone).Subperm ((sorted stamp ranked).drop keep) :=
    subperm_of_subset (hn.filter gone) fun a ha =>
      hgone a (mem_filter.mp ha).1 (of_decide_eq_true (mem_filter.mp ha).2)
  have hsplit := length_eq_length_filter_add (l := l) fun a => decide (gone a)
  have hleft' : left = l.filter fun a => !decide (gone a) := by
    rw [hleft]
    exact filter_congr fun a _ => decide_not
  rw [← hleft'] at hsplit
  have hlength := hl.length_eq
  have hsorted : ((sorted stamp ranked).drop keep).length = ranked.length - keep := by
    rw [length_drop]
    exact congrArg (· - keep) (length_insertionSort ..)
  have hcount := hsub.length_le
  rw [hsorted] at hcount
  have hle' := hranked.length_le
  refine ⟨hranked.eq_of_length_le (by omega), fun a ha => ?_⟩
  have hperm := hsub.perm_of_length_le (by omega)
  exact of_decide_eq_true (mem_filter.mp (hperm.mem_iff.mpr ha)).2

end

/-- The same where not all entries were ordered, and of those beyond the first ones some are still
there: either there is room for all, or the rest was ordered and removed as it should. -/
theorem new_left_iff {listed ranked left : List α} (gone : α → Prop) [DecidablePred gone]
    (hn : (l ++ [x]).Nodup) (hl : listed.Perm (l ++ [x])) (hranked : ranked.Sublist listed)
    (hgone : ∀ a ∈ l ++ [x], gone a → a ∈ (sorted stamp ranked).drop keep)
    (hleft : left = (l ++ [x]).filter fun a => ¬gone a) :
    (x ∈ left ∧ (l.Pairwise fun a b => a ∈ left → b ∈ left) ∧ left.length ≤ keep) ↔
      0 < keep ∧ (keep ≤ l.length → ranked = listed ∧
        (∀ a ∈ (sorted stamp ranked).drop keep, gone a) ∧
        ∀ a ∈ (l ++ [x]).take ((l ++ [x]).length - keep),
          ∀ b ∈ (l ++ [x]).drop ((l ++ [x]).length - keep),
            stamp a < stamp b ∨ stamp a = stamp b ∧ listed.idxOf b < listed.idxOf a) := by
  have hlength : (l ++ [x]).length = l.length + 1 := length_append
  by_cases hk : keep ≤ l.length
  · have ho : (sorted stamp listed).Perm (l ++ [x]) := (perm_insertionSort ..).trans hl
    have hnew := new_kept_iff keep hn ho
    have hidx : ∀ a ∈ l ++ [x], ∀ b ∈ l ++ [x],
        ((sorted stamp listed).idxOf b < (sorted stamp listed).idxOf a ↔ _) := fun a ha b hb =>
      idxOf_sorted_lt (hl.nodup_iff.mpr hn) (hl.mem_iff.mpr ha) (hl.mem_iff.mpr hb)
    constructor
    · rintro ⟨hx, hpair, hle⟩
      obtain ⟨rfl, hdrop⟩ := all_gone hgone hleft hn hl hranked (by omega) hle
      rw [left_eq_kept hgone hleft hdrop] at hx hpair
      obtain ⟨hpos, hfirst⟩ := hnew.mp ⟨hx, hpair⟩
      exact ⟨hpos, fun _ => ⟨rfl, hdrop, fun a ha b hb =>
        (hidx a (mem_of_mem_take ha) b (mem_of_mem_drop hb)).mp (hfirst a ha b hb)⟩⟩
    · rintro ⟨hpos, h⟩
      obtain ⟨rfl, hdrop, hfirst⟩ := h hk
      have hkept := hnew.mpr ⟨hpos, fun a ha b hb =>
        (hidx a (mem_of_mem_take ha) b (mem_of_mem_drop hb)).mpr (hfirst a ha b hb)⟩
      rw [left_eq_kept hgone hleft hdrop]
      refine ⟨hkept.1, hkept.2, ?_⟩
      rw [length_kept hn ho]
      exact Nat.min_le_left ..
  · have hnone : left = l ++ [x] := by
      refine hleft.trans (filter_eq_self.mpr fun a ha => decide_eq_true fun h => ?_)
      have hdrop := hgone a ha h
      have hsorted : (sorted stamp ranked).length = ranked.length := length_insertionSort ..
      have hle := hranked.length_le
      have hlisted := hl.length_eq
      rw [drop_of_length_le (by omega)] at hdrop
      cases hdrop
    refine iff_of_true ⟨?_, ?_, ?_⟩ ⟨by omega, fun h => absurd h hk⟩
    · simp [hnone]
    · exact pairwise_of_forall_mem_list fun _ _ b hb _ => hnone ▸ mem_append_left _ hb
    · rw [hnone]
      omega

end Retention
