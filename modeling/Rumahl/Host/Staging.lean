import Rumahl.Host.Replacing

/-!
# Staging a volume

A restore unpacks each archive into the stage directory, and in that of the state volume it empties
the tables with sessions. The old entries are not touched (`StagedList`), and the staged ones are
those of the archive up to that (`Cleaned`).
-/

namespace Rumahl.Host

open Effect Entries List

/-- The stage directory as it is made in a volume with these entries. -/
def stageEntry (old : List Entry) : Entry := ⟨[stageName], fresh old, .directory⟩

/-- What the volume holds when the archive is unpacked. -/
def withStage (old : List Entry) : List Entry := old ++ [stageEntry old]

/-- The old entries, and beside them those in the stage directory. -/
def StagedList (old new : List Entry) (w : Volume) : Prop :=
  w.entries = withStage old ++ new.map Entry.staged

theorem StagedList.kept (h : StagedList old new w) : Kept old w := by
  intro e he
  rw [h, withStage]
  simp [he]

theorem StagedList.staged (h : StagedList old new w) : Staged old new w := by
  refine ⟨stageEntry old, rfl, fun e => ?_⟩
  rw [h, withStage]
  simp [eq_comm]

/-! ## Paths in the stage directory -/

section

variable {old new : List Entry} {name a b : String}

theorem not_prefix_withStage (hold : ∀ e ∈ old, e.top ≠ stageName) (p : List String)
    (hp : p ≠ []) : ∀ e ∈ withStage old, ¬stageName :: p <+: e.path := by
  intro e he hprefix
  rcases mem_append.mp he with he | he
  · refine hold e he ?_
    rw [Entry.top]
    cases hpath : e.path with
    | nil =>
      rw [hpath] at hprefix
      cases prefix_nil.mp hprefix
    | cons c l =>
      rw [hpath, cons_prefix_cons] at hprefix
      exact hprefix.1.symm
  · rw [mem_singleton.mp he, stageEntry, cons_prefix_cons] at hprefix
    exact hp (prefix_nil.mp hprefix.2)

theorem staged_prefix (p : List String) (e : Entry) :
    stageName :: p <+: e.staged.path ↔ p <+: e.path := by
  rw [Entry.staged, cons_prefix_cons]
  exact ⟨And.right, fun h => ⟨rfl, h⟩⟩

theorem find_staged (hold : ∀ e ∈ old, e.top ≠ stageName) (p : List String) (hp : p ≠ []) :
    find (stageName :: p) (withStage old ++ new.map Entry.staged) =
      (find p new).map Entry.staged := by
  have hnone : (withStage old).find? (fun e => decide (e.path = stageName :: p)) = none := by
    rw [List.find?_eq_none]
    intro e he h
    exact not_prefix_withStage hold p hp e he (of_decide_eq_true h ▸ prefix_rfl)
  rw [find, List.find?_append, hnone, Option.none_or, List.find?_map]
  have hpred : ((fun e : Entry => decide (e.path = stageName :: p)) ∘ Entry.staged) =
      fun e => decide (e.path = p) := by
    funext e
    simp [Entry.staged]
  rw [hpred]
  rfl

theorem setData_staged (inode : Nat) (data : FileData) (es : List Entry) :
    setData inode data (es.map Entry.staged) = (setData inode data es).map Entry.staged := by
  rw [setData, setData, map_map, map_map]
  refine map_congr_left fun e _ => ?_
  obtain ⟨path, i, node⟩ := e
  cases node with
  | file d => by_cases h : i = inode <;> simp [Entry.staged, overwrite, h]
  | _ => rfl

theorem remove_staged (hold : ∀ e ∈ old, e.top ≠ stageName) (p : List String) (hp : p ≠ []) :
    remove (stageName :: p) (withStage old ++ new.map Entry.staged) =
      withStage old ++ (remove p new).map Entry.staged := by
  rw [remove, filter_append, filter_eq_self.mpr, remove, filter_map]
  · rfl
  · intro e he
    simpa using not_prefix_withStage hold p hp e he

theorem move_staged (hold : ∀ e ∈ old, e.top ≠ stageName) :
    move [stageName, a] [stageName, b] (withStage old ++ new.map Entry.staged) =
      withStage old ++ (move [a] [b] new).map Entry.staged := by
  rw [move, map_append, move, map_map, map_map]
  congr 1
  · conv_rhs => rw [← map_id (withStage old)]
    refine map_congr_left fun e he => if_neg fun h => ?_
    exact not_prefix_withStage hold [a] (by simp) e he (List.isPrefixOf_iff_prefix.mp h)
  · refine map_congr_left fun e _ => ?_
    have h := staged_prefix [a] e
    rw [← isPrefixOf_iff_prefix, ← isPrefixOf_iff_prefix] at h
    simp only [Function.comp, Bool.eq_iff_iff.mpr h]
    split <;> rfl

theorem setData_withStage (h : fresh (withStage old) ≤ inode) :
    setData inode data (withStage old ++ new.map Entry.staged) =
      withStage old ++ (setData inode data new).map Entry.staged := by
  rw [setData_append, setData_staged, setData_of_ne fun e he => ?_]
  have := lt_fresh he
  omega

end

/-! ## Unpacking -/

section

variable {sha256 : Archive → String} {may : Call → Machine → Prop}
  {H : Handler Call Answer I Machine} {K : Machine → Prop} {m : Machine} {v : VolumeName}
  {old : List Entry}

/-- What the archive of a volume is unpacked to. -/
def archiveEntries (m : Machine) (identifier : String) (v : VolumeName) : Option (List Entry) :=
  ((Store.find identifier m.store.backups).bind fun b => Store.archive? v b.archives).bind
    (unpack (fresh (withStage (m.volumes v).entries)) [])

theorem stageVolume_spec (hH : (device sha256).Serves True may H)
    (hK : ∀ w, Kept (m.volumes v).entries w → K (m.setVolume v w))
    (htop : ∀ e ∈ (m.volumes v).entries, ∃ d ∈ (m.volumes v).entries, d.path = [e.top]) :
    Completes H True K (stageVolume identifier v)
      (fun _ m' => (∀ e ∈ (m.volumes v).entries, e.top ≠ stageName) ∧
        ∃ w new, m' = m.setVolume v w ∧ archiveEntries m identifier v = some new ∧
          StagedList (m.volumes v).entries new w) m := by
  have hKm : K m := by
    have h := hK (m.volumes v) fun e he => .inl he
    rwa [m.setVolume_self] at h
  refine look_then hH trivial hKm fun _ status _ => ?_
  split
  · exact Completes.throw trivial hKm
  refine look_then hH trivial hKm fun left r happly => ?_
  cases happly
  cases hfind : find [stageName] (m.volumes v).entries with
  | some e => exact Completes.throw trivial hKm
  | none =>
  have hstage : ∀ e ∈ (m.volumes v).entries, e.top ≠ stageName := by
    intro e he hs
    obtain ⟨d, hd, hdpath⟩ := htop e he
    exact find_eq_none.mp hfind d hd (by rw [hdpath, hs])
  -- the stage directory is made
  refine effect_then hH trivial hKm fun left r w happly => ?_
  have hentries : w.entries = withStage (m.volumes v).entries := by
    simp only [VolumeCall.apply, hfind, Option.isSome_none, Bool.false_eq_true, if_false] at happly
    split at happly <;> cases happly
    rfl
  have hkept : ∀ w' : Volume, (∃ es, w'.entries = w.entries ++ es) →
      Kept (m.volumes v).entries w' := by
    rintro w' ⟨es, hes⟩ e he
    rw [hes, hentries, withStage]
    exact .inl (mem_append_left _ (mem_append_left _ he))
  have hKw := hK w (hkept w ⟨[], by rw [append_nil]⟩)
  refine ⟨hKw, read_then hH trivial hKw fun members happly => ?_⟩
  have hread := readArchive_eq_ok (m.setVolume_store v w ▸ happly)
  -- and the archive is unpacked into it
  refine volume_spec hH hKw (fun _ _ chance => ?_) (fun left r w' happly => ?_) fun _ _ _ => trivial
  · rw [Machine.setVolume_setVolume]
    refine hK _ (hkept _ ⟨below [stageName] chance.left, ?_⟩)
    rw [VolumeCall.disturb, Machine.setVolume_same]
  · rw [Machine.setVolume_same, VolumeCall.apply] at happly
    split at happly
    · next new hunpack =>
      cases happly
      refine ⟨hstage, _, new, by rw [Machine.setVolume_setVolume], ?_, ?_⟩
      · rw [archiveEntries, hread, ← hentries]
        exact hunpack
      · rw [StagedList, ← hentries]
        rfl
    · cases happly

end

/-! ## Emptying the tables with sessions -/

/-- A path of a journal file of a database in the root, or below one. -/
def IsJournal (archive : List Entry) (path : List String) : Prop :=
  ∃ a ∈ archive, ∃ name, a.path = [name] ∧ isDatabaseName name = true ∧
    underJournal [name] path = true

/-- A file whose inode is in the list, with its session tables emptied. -/
def clean (inodes : List Nat) (a : Entry) : Entry :=
  match a.node with
  | .file data =>
    if a.inode ∈ inodes then { a with node := .file (cleared sessionTables data) } else a
  | _ => a

/-- The entries of the archive, with the tables emptied in these files; journal files aside. -/
def Cleaned (archive : List Entry) (inodes : List Nat) (new : List Entry) : Prop :=
  ∀ e, ¬IsJournal archive e.path → (e ∈ new ↔ ∃ a ∈ archive, e = clean inodes a)

@[simp] theorem clean_path (inodes : List Nat) (a : Entry) : (clean inodes a).path = a.path := by
  unfold clean
  split
  · split <;> rfl
  · rfl

@[simp] theorem clean_inode (inodes : List Nat) (a : Entry) : (clean inodes a).inode = a.inode := by
  unfold clean
  split
  · split <;> rfl
  · rfl

theorem cleared_cleared (names : List String) (data : FileData) :
    cleared names (cleared names data) = cleared names data := by
  cases data with
  | database tables =>
    simp only [cleared, map_map, FileData.database.injEq]
    refine map_congr_left fun t _ => ?_
    by_cases h : t.1 ∈ names <;> simp [h]
  | _ => rfl

/-- Only tables that are there can be emptied. -/
theorem cleared_filter (h : tables data = some content) (names : List String) :
    cleared (names.filter fun table => table ∈ content.map Prod.fst) data = cleared names data := by
  cases data with
  | database tables =>
    cases h
    simp only [cleared, FileData.database.injEq]
    refine map_congr_left fun t ht => ?_
    have hmem : t.1 ∈ content.map Prod.fst := mem_map_of_mem ht
    simp [mem_filter, hmem]
  | _ => rfl

theorem journals_staged (name : String) :
    journals [stageName, name] = (journals [name]).map (stageName :: ·) := rfl

theorem underJournal_iff : underJournal p path = true ↔ ∃ j ∈ journals p, j <+: path := by
  simp [underJournal]

theorem setDatabase_staged {old new : List Entry} {x : Entry} (hold : ∀ e ∈ old, e.top ≠ stageName)
    (hx : x.path = [name]) (hinode : fresh (withStage old) ≤ x.inode) (data : FileData)
    (left : List Entry) :
    ∃ left', (∀ e ∈ left', e.path ∈ journals [name]) ∧
      setDatabase x.staged data left (withStage old ++ new.map Entry.staged) = withStage old ++
        (((setData x.inode data new).filter fun f => ¬underJournal [name] f.path) ++
          left').map Entry.staged := by
  have hpath : x.staged.path = [stageName, name] := by rw [Entry.staged, hx]
  refine ⟨(left.filter fun f => f.path ∈ journals [stageName, name]).map fun f =>
    { f with path := f.path.tail }, fun e he => ?_, ?_⟩
  · obtain ⟨f, hf, rfl⟩ := mem_map.mp he
    have hmem : f.path ∈ journals [stageName, name] := by simpa using (mem_filter.mp hf).2
    rw [journals_staged] at hmem
    obtain ⟨j, hj, hjpath⟩ := mem_map.mp hmem
    rw [← hjpath]
    exact hj
  · have hkeep : (withStage old).filter (fun f => ¬underJournal [stageName, name] f.path) =
        withStage old := by
      refine filter_eq_self.mpr fun e he => ?_
      have hnot : ¬underJournal [stageName, name] e.path = true := by
        rw [underJournal_iff, journals_staged]
        rintro ⟨_, hj, hprefix⟩
        obtain ⟨j, hj, rfl⟩ := mem_map.mp hj
        refine not_prefix_withStage hold j ?_ e he hprefix
        rintro rfl
        simp [journals] at hj
      simpa using hnot
    have hleft : (left.filter fun f => f.path ∈ journals [stageName, name]).map
        (Entry.staged ∘ fun f : Entry => { f with path := f.path.tail }) =
        left.filter fun f => f.path ∈ journals [stageName, name] := by
      conv_rhs => rw [← map_id (left.filter _)]
      refine map_congr_left fun f hf => ?_
      have hmem : f.path ∈ journals [stageName, name] := by simpa using (mem_filter.mp hf).2
      obtain ⟨j, -, hjpath⟩ := mem_map.mp hmem
      obtain ⟨path, i, node⟩ := f
      cases hjpath
      rfl
    have hfilter : ((setData x.inode data new).map Entry.staged).filter
        (fun f => ¬underJournal [stageName, name] f.path) =
        ((setData x.inode data new).filter fun f => ¬underJournal [name] f.path).map
          Entry.staged := by
      rw [filter_map]
      rfl
    have hset : setData x.staged.inode data (withStage old ++ new.map Entry.staged) =
        withStage old ++ (setData x.inode data new).map Entry.staged := setData_withStage hinode
    rw [setDatabase, hset, hpath, filter_append, hkeep, hfilter, map_append,
      map_map, hleft, append_assoc]

theorem last_of_suffix {s t : List Char} (h : s.isSuffixOf t = true) (hs : s ≠ []) :
    t.getLast? = s.getLast? := by
  obtain ⟨l, rfl⟩ := isSuffixOf_iff_suffix.mp h
  rw [List.getLast?_append_of_ne_nil _ hs]

theorem last_of_mem_journals (h : j ∈ journals [name]) :
    ∃ n, j = [n] ∧ (n.toList.getLast? = some 'l' ∨ n.toList.getLast? = some 'm') := by
  simp only [journals, map_cons, map_nil, mem_cons, not_mem_nil, or_false] at h
  rcases h with rfl | rfl | rfl
  · exact ⟨_, rfl, .inl (by simp [String.toList_append])⟩
  · exact ⟨_, rfl, .inr (by simp [String.toList_append])⟩
  · exact ⟨_, rfl, .inl (by simp [String.toList_append])⟩

theorem not_isJournal_cons (hl : name.toList.getLast? ≠ some 'l')
    (hm : name.toList.getLast? ≠ some 'm') (rest : List String) :
    ¬IsJournal archive (name :: rest) := by
  rintro ⟨-, -, n, -, -, hu⟩
  obtain ⟨j, hj, hprefix⟩ := underJournal_iff.mp hu
  obtain ⟨n', rfl, hlast⟩ := last_of_mem_journals hj
  rw [cons_prefix_cons] at hprefix
  obtain ⟨rfl, -⟩ := hprefix
  exact hlast.elim hl hm

theorem not_isJournal_database (h : isDatabaseName name = true) (rest : List String) :
    ¬IsJournal archive (name :: rest) := by
  have hlast := last_of_suffix h (by decide)
  refine not_isJournal_cons ?_ ?_ rest <;> rw [hlast] <;> decide

/-- What stays when files get other content and journal files change. -/
theorem Proper.clear (h : Proper new) (hleft : ∀ e ∈ left, e.path ∈ journals [name])
    (inode : Nat) (data : FileData) :
    Proper (((setData inode data new).filter fun f => ¬underJournal [name] f.path) ++ left) := by
  have hmem : ∀ {e}, e ∈ ((setData inode data new).filter fun f => ¬underJournal [name] f.path) →
      (∃ f ∈ new, e.path = f.path) ∧ ¬underJournal [name] e.path = true := by
    intro e he
    obtain ⟨he, hu⟩ := mem_filter.mp he
    obtain ⟨f, hf, rfl⟩ := mem_setData.mp he
    exact ⟨⟨f, hf, overwrite_path ..⟩, by simpa using hu⟩
  refine ⟨fun e he => ?_, fun e he => ?_, fun e he => ?_⟩
  · rcases mem_append.mp he with he | he
    · obtain ⟨⟨f, hf, hpath⟩, -⟩ := hmem he
      rw [hpath]
      exact h.path_ne f hf
    · obtain ⟨n, hn, -⟩ := last_of_mem_journals (hleft e he)
      rw [hn]
      simp
  · rcases mem_append.mp he with he | he
    · obtain ⟨⟨f, hf, hpath⟩, -⟩ := hmem he
      rw [Entry.top, hpath]
      exact h.free f hf
    · obtain ⟨n, hn, hlast⟩ := last_of_mem_journals (hleft e he)
      have htop : e.top = n := by rw [Entry.top, hn]; rfl
      rw [htop]
      intro hres
      have hother : ∀ r ∈ reserved, r.toList.getLast? ≠ some 'l' ∧
        r.toList.getLast? ≠ some 'm' := by
        decide
      exact hlast.elim (hother n hres).1 (hother n hres).2
  · rcases mem_append.mp he with he | he
    · obtain ⟨⟨f, hf, hpath⟩, hu⟩ := hmem he
      obtain ⟨d, hd, hdpath⟩ := h.top f hf
      have htop : e.top = f.top := by rw [Entry.top, hpath]; rfl
      -- with its directory an entry would be a journal file itself
      have hdu : ¬underJournal [name] [f.top] = true := by
        intro hu'
        obtain ⟨j, hj, hprefix⟩ := underJournal_iff.mp hu'
        refine hu (underJournal_iff.mpr ⟨j, hj, hprefix.trans ?_⟩)
        rw [hpath]
        exact (Entry.prefix_iff_top (h.path_ne f hf)).mpr rfl
      refine ⟨overwrite inode data d, mem_append_left _ (mem_filter.mpr
        ⟨mem_setData.mpr ⟨d, hd, rfl⟩, ?_⟩), ?_⟩
      · rw [overwrite_path, hdpath]
        simpa using hdu
      · rw [overwrite_path, hdpath, htop]
    · obtain ⟨n, hn, -⟩ := last_of_mem_journals (hleft e he)
      refine ⟨e, mem_append_right _ he, ?_⟩
      rw [Entry.top, hn]
      rfl

theorem clean_congr (h : ∀ i, i ∈ is ↔ i ∈ js) : clean is = clean js := by
  funext a
  simp only [clean, h]

theorem overwrite_clean (hshared : a.inode = a'.inode → a.node = a'.node)
    (hdata : (clean inodes a).node = .file data) :
    overwrite a.inode (cleared sessionTables data) (clean inodes a') =
      clean (a.inode :: inodes) a' := by
  obtain ⟨path, i, node⟩ := a
  obtain ⟨path', i', node'⟩ := a'
  by_cases hi : i' = i
  · subst hi
    cases hshared rfl
    cases node with
    | file d =>
      by_cases hmem : i' ∈ inodes
      · simp only [clean, hmem, if_true, Node.file.injEq] at hdata
        simp [clean, overwrite, hmem, ← hdata, cleared_cleared]
      · simp only [clean, hmem, if_false, Node.file.injEq] at hdata
        simp [clean, overwrite, hmem, ← hdata]
    | _ => simp [clean] at hdata
  · cases node' with
    | file d => by_cases hmem : i' ∈ inodes <;> simp [clean, overwrite, hmem, hi]
    | _ => simp [clean, overwrite]

theorem Cleaned.clear (h : Cleaned archive inodes new)
    (hshared : ∀ e ∈ archive, ∀ f ∈ archive, e.inode = f.inode → e.node = f.node)
    (ha : a ∈ archive) (hpath : a.path = [name]) (hdata : (clean inodes a).node = .file data)
    (hdb : isDatabaseName name = true) (hleft : ∀ e ∈ left, e.path ∈ journals [name]) :
    Cleaned archive (a.inode :: inodes) (((setData a.inode (cleared sessionTables data) new).filter
        fun f => ¬underJournal [name] f.path) ++ left) := by
  intro e he
  have hnot : ¬underJournal [name] e.path = true := fun hu => he ⟨a, ha, name, hpath, hdb, hu⟩
  have hleft' : e ∉ left := fun hmem =>
    hnot (underJournal_iff.mpr ⟨_, hleft e hmem, prefix_refl _⟩)
  have hclean : ∀ a' ∈ archive, overwrite a.inode (cleared sessionTables data) (clean inodes a') =
      clean (a.inode :: inodes) a' := fun a' ha' => overwrite_clean (hshared a ha a' ha') hdata
  rw [mem_append, mem_filter, mem_setData]
  constructor
  · rintro (⟨⟨f, hf, rfl⟩, -⟩ | hmem)
    · rw [overwrite_path] at he
      obtain ⟨a', ha', rfl⟩ := (h f he).mp hf
      exact ⟨a', ha', hclean a' ha'⟩
    · exact absurd hmem hleft'
  · rintro ⟨a', ha', rfl⟩
    rw [clean_path] at he hnot
    refine .inl ⟨⟨clean inodes a', (h _ (by rwa [clean_path])).mpr ⟨a', ha', rfl⟩,
      hclean a' ha'⟩, ?_⟩
    simpa using hnot

/-! ## The programs -/

section

variable {sha256 : Archive → String} {may : Call → Machine → Prop}
  {H : Handler Call Answer I Machine} {K : Machine → Prop} {m : Machine}
  {old archive new : List Entry} {inodes : List Nat} {w : Volume}

/-- The entries that are staged for the state volume while the databases are gone through. -/
structure Clearing (old archive : List Entry) (inodes : List Nat) (new : List Entry) (w : Volume) :
    Prop where
  list : StagedList old new w
  cleaned : Cleaned archive inodes new
  proper : Proper new

theorem requireFile_then {f : Unit → Broker Unit} (hH : (device sha256).Serves True may H)
    (hK : K m) (hf : ∀ e data, find p (m.volumes .state).entries = some e → e.node = .file data →
      Completes H True K (f ()) Q m) : Completes H True K (requireFile p >>= f) Q m := by
  suffices h : Completes H True K (requireFile p)
      (fun _ m' => m' = m ∧ Completes H True K (f ()) Q m) m by
    refine Completes.bind h ?_
    rintro _ m' ⟨rfl, h⟩
    exact h
  refine look_then hH trivial hK fun left r happly => ?_
  cases happly
  cases hfind : find p (m.volumes .state).entries with
  | none => exact Completes.throw trivial hK
  | some e =>
    obtain ⟨path, inode, node⟩ := e
    cases node with
    | file data => exact Completes.ret ⟨rfl, hf _ data hfind rfl⟩
    | _ => exact Completes.throw trivial hK

/-- What clearing one database does to the staged entries. -/
theorem Clearing.clear (h : Clearing old archive inodes new w)
    (hold : ∀ e ∈ old, e.top ≠ stageName) (harchive : Unpacked (fresh (withStage old)) archive)
    (hdb : isDatabaseName name = true)
    (hnames : tables data = some content) (hx : find [stageName, name] w.entries = some x)
    (hnode : x.node = .file data)
    (happly : VolumeCall.apply left w (.clear [stageName, name]
      (sessionTables.filter fun table => table ∈ content.map Prod.fst)) = .ok (r, w')) :
    ∃ a ∈ archive, a.path = [name] ∧ ∃ new', Clearing old archive (a.inode :: inodes) new' w' := by
  have hfind : find [stageName, name] (withStage old ++ new.map Entry.staged) = _ :=
    find_staged hold [name] (by simp)
  rw [← h.list, hx] at hfind
  cases hnew : find [name] new with
  | none =>
    rw [hnew] at hfind
    cases hfind
  | some y =>
  rw [hnew, Option.map_some, Option.some.injEq] at hfind
  obtain ⟨hy, hypath⟩ := find_eq_some hnew
  -- it is an entry of the archive, since no database is a journal file
  obtain ⟨a, ha, rfl⟩ := (h.cleaned y (by rw [hypath]; exact not_isJournal_database hdb [])).mp hy
  rw [clean_path] at hypath
  have hdata : (clean inodes a).node = .file data := by rw [← hnode, hfind]; rfl
  have hinode : fresh (withStage old) ≤ (clean inodes a).inode := by
    rw [clean_inode]
    exact harchive.base_le a ha
  simp only [VolumeCall.apply, hx, hnode, hnames] at happly
  cases happly
  have hset := fun es => @setDatabase_staged name old es (clean inodes a) hold
    (by rw [clean_path, hypath]) hinode
    (cleared (sessionTables.filter fun table => table ∈ content.map Prod.fst) data) left
  obtain ⟨left', hleft', heq⟩ := hset new
  rw [cleared_filter hnames, clean_inode] at heq
  refine ⟨a, ha, hypath, _, ?_, h.cleaned.clear harchive.shared ha hypath hdata hdb hleft',
    h.proper.clear hleft' _ _⟩
  rw [StagedList, cleared_filter hnames, h.list, hfind]
  exact heq

/-- The inodes of the databases with these names. -/
def Cleared (archive : List Entry) (names : List String) (inodes inodes' : List Nat) : Prop :=
  ∀ i, i ∈ inodes' ↔ i ∈ inodes ∨ ∃ a ∈ archive, ∃ name ∈ names, a.path = [name] ∧ a.inode = i

theorem clearDatabases_spec (hH : (device sha256).Serves True may H)
    (hK : ∀ w, Kept old w → K (m.setVolume .state w)) (hold : ∀ e ∈ old, e.top ≠ stageName)
    (harchive : Unpacked (fresh (withStage old)) archive)
    (hnames : ∀ name ∈ names, isDatabaseName name = true)
    (h : Clearing old archive inodes new w) :
    Completes H True K (clearDatabases [stageName] names)
      (fun _ m' => ∃ w' inodes' new', m' = m.setVolume .state w' ∧
        Cleared archive names inodes inodes' ∧ Clearing old archive inodes' new' w')
      (m.setVolume .state w) := by
  induction names generalizing w inodes new with
  | nil => exact Completes.ret ⟨w, inodes, new, rfl, by simp [Cleared], h⟩
  | cons name names ih =>
    obtain ⟨hdb, hnames⟩ := forall_mem_cons.mp hnames
    have hKw := hK w h.list.kept
    refine requireFile_then hH hKw fun x data hx hnode => ?_
    rw [Machine.setVolume_same] at hx
    refine look_then hH trivial hKw fun left r happly => ?_
    simp only [Machine.setVolume_same, VolumeCall.apply, hx, Option.map_some, hnode] at happly
    split at happly
    case h_2 => cases happly
    next content htables =>
    cases happly
    refine effect_then hH trivial hKw fun left r w' happly => ?_
    obtain ⟨a, ha, hpath, new', hclear⟩ := h.clear hold harchive hdb htables hx hnode happly
    rw [Machine.setVolume_setVolume]
    refine ⟨hK w' hclear.list.kept, Completes.mono (ih hnames hclear) (fun _ h => h) ?_⟩
    rintro _ _ ⟨w'', inodes', new'', rfl, hinodes, hclear'⟩
    refine ⟨w'', inodes', new'', rfl, fun i => ?_, hclear'⟩
    rw [hinodes i, mem_cons, or_assoc, or_left_comm]
    refine or_congr_right ⟨?_, ?_⟩
    · rintro (rfl | ⟨b, hb, n, hn, hbpath⟩)
      · exact ⟨a, ha, name, mem_cons_self, hpath, rfl⟩
      · exact ⟨b, hb, n, mem_cons_of_mem _ hn, hbpath⟩
    · rintro ⟨b, hb, n, hn, hbpath, hinode⟩
      rcases mem_cons.mp hn with rfl | hn
      · left
        rw [← hinode, inj_on_of_nodup_map harchive.nodup hb ha (hbpath.trans hpath.symm)]
      · exact .inr ⟨b, hb, n, hn, hbpath, hinode⟩

/-- The inodes of the databases in the root. -/
def databaseInodes (archive : List Entry) : List Nat :=
  (archive.filter fun a => match a.path with
    | [name] => isDatabaseName name
    | _ => false).map Entry.inode

theorem mem_databaseInodes : i ∈ databaseInodes archive ↔
    ∃ a ∈ archive, ∃ name, isDatabaseName name = true ∧ a.path = [name] ∧ a.inode = i := by
  simp only [databaseInodes, mem_map, mem_filter, and_assoc]
  refine exists_congr fun a => and_congr_right fun _ => ?_
  constructor
  · rintro ⟨hdb, hinode⟩
    split at hdb
    · next name hpath => exact ⟨name, hdb, hpath, hinode⟩
    · cases hdb
  · rintro ⟨name, hdb, hpath, hinode⟩
    rw [hpath]
    exact ⟨hdb, hinode⟩

theorem invalidateSessions_spec (hH : (device sha256).Serves True may H)
    (hK : ∀ w, Kept old w → K (m.setVolume .state w)) (hold : ∀ e ∈ old, e.top ≠ stageName)
    (harchive : Unpacked (fresh (withStage old)) archive) (hproper : Proper archive)
    (h : StagedList old archive (m.volumes .state)) :
    Completes H True K (invalidateSessions [stageName])
      (fun _ m' => ∃ w' new', m' = m.setVolume .state w' ∧
        Clearing old archive (databaseInodes archive) new' w') m := by
  have hKm : K m := by
    have hKm := hK _ h.kept
    rwa [m.setVolume_self] at hKm
  refine requireFile_then hH hKm fun _ _ _ _ => requireFile_then hH hKm fun _ _ _ _ => ?_
  refine look_then hH trivial hKm fun left r happly => ?_
  simp only [VolumeCall.apply] at happly
  split at happly <;> cases happly
  have hclean : clean [] = id := by
    funext a
    unfold clean
    split <;> simp
  have hstart : Clearing old archive [] archive (m.volumes .state) := by
    refine ⟨h, fun e _ => ?_, hproper⟩
    rw [hclean]
    simp
  have hdatabases : ∀ name ∈ (children [stageName] (m.volumes .state).entries).filter
      (fun name => isDatabaseName name), isDatabaseName name = true := fun name hname => by
    simpa using (mem_filter.mp hname).2
  have hclear := clearDatabases_spec hH hK hold harchive hdatabases hstart
  rw [m.setVolume_self] at hclear
  refine Completes.mono hclear (fun _ h => h) ?_
  rintro _ _ ⟨w', inodes, new', rfl, hinodes, hclear⟩
  refine ⟨w', new', rfl, hclear.list, ?_, hclear.proper⟩
  -- every database of the archive is in the directory that was listed
  have hall : ∀ i, i ∈ inodes ↔ i ∈ databaseInodes archive := by
    intro i
    rw [hinodes i, mem_databaseInodes]
    simp only [not_mem_nil, false_or]
    refine exists_congr fun a => and_congr_right fun ha => exists_congr fun name => ?_
    constructor
    · rintro ⟨hname, hpath⟩
      exact ⟨by simpa using (mem_filter.mp hname).2, hpath⟩
    · rintro ⟨hdb, hpath, hinode⟩
      refine ⟨mem_filter.mpr ⟨mem_children.mpr ⟨a.staged, ?_, ?_⟩, by simpa using hdb⟩,
        hpath, hinode⟩
      · rw [h]
        exact mem_append_right _ (mem_map_of_mem ha)
      · rw [Entry.staged, hpath]
        rfl
  have hcleaned := hclear.cleaned
  rw [Cleaned, clean_congr hall] at hcleaned
  exact hcleaned

end

end Rumahl.Host
