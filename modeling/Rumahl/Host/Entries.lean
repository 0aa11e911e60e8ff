import Rumahl.Host.Broker

/-!
# Lists of entries

How looking up, removing and renaming act on the entries of a volume, and what an unpacked archive
looks like (`Unpacked`).
-/

open List

namespace Rumahl.Host.Entries

variable {es : List Entry} {p q : List String} {e : Entry}

theorem find_eq_some (h : find p es = some e) : e ∈ es ∧ e.path = p :=
  ⟨mem_of_find?_eq_some h, by simpa using List.find?_some h⟩

theorem find_eq_none : find p es = none ↔ ∀ e ∈ es, e.path ≠ p := by
  simp [find]

theorem find_isSome : (find p es).isSome = true ↔ ∃ e ∈ es, e.path = p := by
  simp [find]

theorem mem_remove : e ∈ remove p es ↔ e ∈ es ∧ ¬p <+: e.path := by
  simp [remove]

theorem mem_move : e ∈ move p q es ↔
    (∃ f ∈ es, p <+: f.path ∧ e = { f with path := q ++ f.path.drop p.length }) ∨
      e ∈ es ∧ ¬p <+: e.path := by
  simp only [move, mem_map]
  constructor
  · rintro ⟨f, hf, rfl⟩
    split
    · next h => exact .inl ⟨f, hf, isPrefixOf_iff_prefix.mp h, rfl⟩
    · next h => exact .inr ⟨hf, fun hp => h (List.isPrefixOf_iff_prefix.mpr hp)⟩
  · rintro (⟨f, hf, hp, rfl⟩ | ⟨he, hp⟩)
    · exact ⟨f, hf, if_pos (List.isPrefixOf_iff_prefix.mpr hp)⟩
    · exact ⟨e, he, if_neg fun h => hp (List.isPrefixOf_iff_prefix.mp h)⟩

theorem mem_children : c ∈ children p es ↔ ∃ e ∈ es, e.path = p ++ [c] := by
  simp only [children, mem_filterMap]
  refine exists_congr fun e => and_congr_right fun _ => ?_
  constructor
  · intro h
    split at h
    · next hp =>
      obtain ⟨l, hl⟩ := List.getLast?_eq_some_iff.mp h
      rw [hl, ← hp, hl, dropLast_concat]
    · cases h
  · intro h
    rw [h, dropLast_concat, if_pos rfl, List.getLast?_concat]

theorem lt_fresh (he : e ∈ es) : e.inode < fresh es := by
  induction es with
  | nil => cases he
  | cons f es ih =>
    rw [fresh, foldr_cons]
    rcases mem_cons.mp he with rfl | he
    · omega
    · have := ih he
      rw [fresh] at this
      omega

theorem fresh_append (es es' : List Entry) : fresh (es ++ es') = max (fresh es) (fresh es') := by
  induction es with
  | nil => simp [fresh]
  | cons e es ih =>
    rw [fresh] at ih
    rw [fresh, cons_append, foldr_cons, ih, ← Nat.max_assoc]
    rfl

theorem setData_append (inode : Nat) (data : FileData) (es es' : List Entry) :
    setData inode data (es ++ es') = setData inode data es ++ setData inode data es' :=
  map_append

@[simp] theorem overwrite_path (inode : Nat) (data : FileData) (e : Entry) :
    (overwrite inode data e).path = e.path := by
  unfold overwrite
  split
  · split <;> rfl
  · rfl

@[simp] theorem overwrite_inode (inode : Nat) (data : FileData) (e : Entry) :
    (overwrite inode data e).inode = e.inode := by
  unfold overwrite
  split
  · split <;> rfl
  · rfl

theorem mem_setData : e ∈ setData inode data es ↔ ∃ f ∈ es, overwrite inode data f = e :=
  mem_map

theorem setData_of_ne (h : ∀ e ∈ es, e.inode ≠ inode) : setData inode data es = es := by
  conv_rhs => rw [← map_id es]
  refine map_congr_left fun e he => ?_
  unfold overwrite
  split
  · rw [if_neg (h e he)]
    rfl
  · rfl

/-- What an archive can be unpacked to. -/
structure Unpacked (base : Nat) (es : List Entry) : Prop where
  path_ne : ∀ e ∈ es, e.path ≠ []
  nodup : (es.map Entry.path).Nodup
  top : ∀ e ∈ es, ∃ d ∈ es, d.path = e.path.take 1
  base_le : ∀ e ∈ es, base ≤ e.inode
  shared : ∀ e ∈ es, ∀ f ∈ es, e.inode = f.inode → e.node = f.node

theorem mem_above : p ∈ above path ↔ p ≠ [] ∧ p <+: path ∧ p.length < path.length := by
  simp only [above, mem_filter, mem_map, mem_range, decide_eq_true_eq]
  constructor
  · rintro ⟨⟨n, hn, rfl⟩, hne⟩
    exact ⟨hne, take_prefix n path, by rw [length_take]; omega⟩
  · rintro ⟨hne, hp, hlt⟩
    exact ⟨⟨p.length, hlt, (prefix_iff_eq_take.mp hp).symm⟩, hne⟩

theorem above_nodup (path : List String) : (above path).Nodup := by
  refine List.Nodup.filter _ ((nodup_range).map_on fun i hi j hj h => ?_)
  have hlen := congrArg List.length h
  rw [length_take, length_take] at hlen
  have := mem_range.mp hi
  have := mem_range.mp hj
  omega

theorem map_path_implied (n : Nat) (es : List Entry) (path : List String) :
    (implied n es path).map Entry.path = (above path).filter fun p => find p es = none := by
  rw [implied, map_map]
  exact zipIdx_map_fst 0 _

theorem mem_implied (h : e ∈ implied n es path) :
    e.path ∈ above path ∧ find e.path es = none ∧ n ≤ e.inode ∧
      e.inode < n + (implied n es path).length ∧ e.node = .directory := by
  have hpath := mem_map_of_mem (f := Entry.path) h
  rw [map_path_implied, mem_filter] at hpath
  obtain ⟨i, hi, rfl⟩ := mem_map.mp h
  have hlt := (mem_zipIdx hi).2.1
  refine ⟨hpath.1, by simpa using hpath.2, Nat.le_add_right _ _, ?_, rfl⟩
  rw [implied, length_map, length_zipIdx]
  change n + i.2 < _
  omega

theorem mem_add : e ∈ add base es path entry ↔
    e ∈ es ∨ e ∈ implied (max base (fresh es)) es path ∨
      e = entry (max base (fresh es) + (implied (max base (fresh es)) es path).length) := by
  simp [add]

/-- The directory in the root that a new path lies in is there with it. -/
theorem exists_top (hne : path ≠ []) (hentry : ∀ n, (entry n).path = path) :
    ∃ d ∈ add base es path entry, d.path = path.take 1 := by
  have hpos : 0 < path.length := length_pos_iff.mpr hne
  by_cases hone : path.length = 1
  · refine ⟨_, mem_add.mpr (.inr (.inr rfl)), ?_⟩
    rw [hentry, take_of_length_le (by omega)]
  have habove : path.take 1 ∈ above path := by
    have hlen : (path.take 1).length = 1 := by rw [length_take]; omega
    refine mem_above.mpr ⟨fun h => ?_, take_prefix 1 path, by omega⟩
    rw [h] at hlen
    cases hlen
  cases hfind : find (path.take 1) es with
  | some d =>
    obtain ⟨hd, hpath⟩ := find_eq_some hfind
    exact ⟨d, mem_add.mpr (.inl hd), hpath⟩
  | none =>
    have hmem : path.take 1 ∈ (implied (max base (fresh es)) es path).map Entry.path := by
      rw [map_path_implied, mem_filter]
      exact ⟨habove, by simpa using hfind⟩
    obtain ⟨d, hd, hpath⟩ := mem_map.mp hmem
    exact ⟨d, mem_add.mpr (.inr (.inl hd)), hpath⟩

theorem Unpacked.add (h : Unpacked base es) (hne : path ≠ []) (hnew : find path es = none)
    (hentry : ∀ n, (entry n).path = path) (hnode : (∀ n, (entry n).inode = n) ∨
      ∃ f ∈ es, ∀ n, (entry n).inode = f.inode ∧ (entry n).node = f.node) :
    Unpacked base (add base es path entry) := by
  have hlt : ∀ {e}, e ∈ es → e.inode < max base (fresh es) := fun he =>
    Nat.lt_of_lt_of_le (lt_fresh he) (Nat.le_max_right _ _)
  have hbase : base ≤ max base (fresh es) := Nat.le_max_left _ _
  have hpath : ∀ {e}, e ∈ implied (max base (fresh es)) es path → e.path ∈ above path :=
    fun he => (mem_implied he).1
  refine ⟨fun e he => ?_, ?_, fun e he => ?_, fun e he => ?_, fun e he f hf hinode => ?_⟩
  · rcases mem_add.mp he with he | he | rfl
    · exact h.path_ne e he
    · exact (mem_above.mp (hpath he)).1
    · rw [hentry]
      exact hne
  · rw [Entries.add, map_append, map_append, map_path_implied, map_singleton, hentry,
      nodup_append, nodup_append]
    refine ⟨⟨h.nodup, (above_nodup path).filter _, ?_⟩, nodup_singleton _, ?_⟩
    · intro p hp p' hp' heq
      obtain ⟨e, he, rfl⟩ := mem_map.mp hp
      have hnone := (mem_filter.mp hp').2
      exact find_eq_none.mp (by simpa using hnone) e he heq
    · intro p hp p' hp' heq
      rw [mem_singleton.mp hp'] at heq
      subst heq
      rcases mem_append.mp hp with hp | hp
      · obtain ⟨e, he, heq⟩ := mem_map.mp hp
        exact find_eq_none.mp hnew e he heq
      · have := (mem_above.mp (mem_filter.mp hp).1).2.2
        omega
  · rcases mem_add.mp he with he | he | rfl
    · obtain ⟨d, hd, hdpath⟩ := h.top e he
      exact ⟨d, mem_add.mpr (.inl hd), hdpath⟩
    · obtain ⟨hepath, hprefix, -⟩ := mem_above.mp (hpath he)
      have htake : e.path.take 1 = path.take 1 := by
        obtain ⟨t, ht⟩ := hprefix
        rw [← ht, take_append_of_le_length (length_pos_iff.mpr hepath)]
      rw [htake]
      exact exists_top hne hentry
    · rw [hentry]
      exact exists_top hne hentry
  · rcases mem_add.mp he with he | he | rfl
    · exact h.base_le e he
    · exact Nat.le_trans hbase (mem_implied he).2.2.1
    · obtain hnode | ⟨f, hf, hnode⟩ := hnode
      · rw [hnode]
        omega
      · rw [(hnode _).1]
        exact h.base_le f hf
  · -- the inodes of new directories and of a new node are above those of all entries before them
    have hold : ∀ e ∈ es, ∀ f ∈ Entries.add base es path entry, f.inode = e.inode →
        f.node = e.node := by
      intro e he f hf hinode
      rcases mem_add.mp hf with hf | hf | rfl
      · exact h.shared f hf e he hinode
      · have := (mem_implied hf).2.2.1
        have := hlt he
        omega
      · obtain hnode | ⟨g, hg, hnode⟩ := hnode
        · rw [hnode] at hinode
          have := hlt he
          omega
        · rw [(hnode _).1] at hinode
          rw [(hnode _).2]
          exact h.shared g hg e he hinode
    rcases mem_add.mp he with he' | he' | rfl
    · exact (hold e he' f hf hinode.symm).symm
    · obtain ⟨-, -, hle, hlt', hdir⟩ := mem_implied he'
      rcases mem_add.mp hf with hf | hf | rfl
      · exact hold f hf e he hinode
      · rw [hdir, (mem_implied hf).2.2.2.2]
      · obtain hnode | ⟨g, hg, hnode⟩ := hnode
        · rw [hnode] at hinode
          omega
        · rw [(hnode _).1] at hinode
          have := hlt hg
          omega
    · obtain hnode | ⟨g, hg, hnode⟩ := hnode
      · rcases mem_add.mp hf with hf | hf | rfl
        · exact hold f hf _ he hinode
        · have := (mem_implied hf).2.2.2.1
          rw [hnode] at hinode
          omega
        · rfl
      · rw [(hnode _).2]
        exact (hold g hg f hf (hinode.symm.trans (hnode _).1)).symm

theorem unpack_unpacked (h : Unpacked base es) (hunpack : unpack base es ms = some es') :
    Unpacked base es' := by
  induction ms generalizing es with
  | nil =>
    cases hunpack
    exact h
  | cons m ms ih =>
    unfold unpack at hunpack
    split at hunpack
    · exact ih h hunpack
    next hne =>
    split at hunpack
    · cases hunpack
    split at hunpack
    · split at hunpack
      · exact ih h hunpack
      · cases hunpack
    next hnew =>
    split at hunpack
    · split at hunpack
      · next f hf =>
        split at hunpack
        · cases hunpack
        · have hadd : Unpacked base (Entries.add base es m.path.parts
              fun _ => ⟨m.path.parts, f.inode, f.node⟩) :=
            h.add hne hnew (fun _ => rfl) (.inr ⟨f, (find_eq_some hf).1, fun _ => ⟨rfl, rfl⟩⟩)
          exact ih hadd hunpack
      · cases hunpack
    · exact ih (h.add hne hnew (fun _ => rfl) (.inl fun _ => rfl)) hunpack

theorem unpacked_nil : Unpacked base [] :=
  ⟨fun _ h => (nomatch h), nodup_nil, fun _ h => (nomatch h), fun _ h => (nomatch h),
    fun _ h => (nomatch h)⟩

/-- Every path that was unpacked is one of a member or lies above one. -/
theorem unpack_path (hunpack : unpack base es ms = some es') :
    ∀ e ∈ es', e ∈ es ∨ ∃ m ∈ ms, e.path <+: m.path.parts := by
  induction ms generalizing es with
  | nil =>
    cases hunpack
    exact fun e he => .inl he
  | cons m ms ih =>
    have hskip : ∀ {es1}, unpack base es1 ms = some es' →
        (∀ e ∈ es1, e ∈ es ∨ e.path <+: m.path.parts) →
        ∀ e ∈ es', e ∈ es ∨ ∃ m' ∈ m :: ms, e.path <+: m'.path.parts := by
      intro es1 h hes e he
      rcases ih h e he with he | ⟨m', hm', hp⟩
      · exact (hes e he).imp_right fun hp => ⟨m, mem_cons_self, hp⟩
      · exact .inr ⟨m', mem_cons_of_mem _ hm', hp⟩
    have hadd : ∀ {entry : Nat → Entry}, (∀ n, (entry n).path = m.path.parts) →
        ∀ e ∈ add base es m.path.parts entry, e ∈ es ∨ e.path <+: m.path.parts := by
      intro entry hentry e he
      rcases mem_add.mp he with he | he | rfl
      · exact .inl he
      · exact .inr (mem_above.mp (mem_implied he).1).2.1
      · exact .inr ((hentry _).symm ▸ prefix_rfl)
    unfold unpack at hunpack
    split at hunpack
    · exact hskip hunpack fun e he => .inl he
    split at hunpack
    · cases hunpack
    split at hunpack
    · split at hunpack
      · exact hskip hunpack fun e he => .inl he
      · cases hunpack
    split at hunpack
    · split at hunpack
      · split at hunpack
        · cases hunpack
        · exact hskip hunpack (hadd fun _ => rfl)
      · cases hunpack
    · exact hskip hunpack (hadd fun _ => rfl)

end Rumahl.Host.Entries
