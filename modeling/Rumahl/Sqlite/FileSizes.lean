import Rumahl.Sqlite.PersonalFiles

/-!
# The sizes of personal files

A row says how long its content is, because a sealed content is longer than the content itself.
Opening the store fills in the sizes of rows from before there was such a column: those whose size
is zero. A sealed empty file is such a row as well, and gets the length of its envelope. The sizes
are exact at all times, `sizes_exact_iff`, exactly if the store is never opened while there is one.
-/

namespace Rumahl

open SqlitePersonalFiles List

namespace SqlitePersonalFiles

def backfillRow (r : PersonalFileRow) : PersonalFileRow :=
  if r.size = 0 ∧ r.data.isSome ∧ r.directory = false then
    { r with size := (r.data.getD []).length }
  else r

/-- `open_with`, the same for both ways to open the store. -/
def openWith (t : PersonalFileTable) : PersonalFileTable := t.map backfillRow

/-- Wherever a file is listed with a size and can be read, its content has that size. -/
def SizesExact (t : PersonalFileTable) : Prop :=
  ∀ u p files, list u p t = .ok files → ∀ f ∈ files, f.directory = false →
    ∀ (S : SqlitePersonalFiles) name content, S.read u f.id t = .ok (name, content) →
      f.size = content.length

/-- Every sealed row is a file that some store can read. -/
def Readable (t : PersonalFileTable) : Prop :=
  ∀ r ∈ t, r.encrypted = true → r.directory = false ∧
    ∃ S : SqlitePersonalFiles, ∃ content, S.decrypt r.owner r.id (r.data.getD []) = .ok content

/-! ## Rows and what is read of them -/

theorem decrypt_eq_ok {S : SqlitePersonalFiles} (h : S.decrypt u fid bytes = .ok content) :
    ∃ e, FieldEnvelope.decode bytes = .ok e ∧ e.ciphertext.length = content.length + 16 := by
  unfold decrypt at h
  split at h
  · cases h
  · split at h
    · cases h
    · next e hdecode =>
      split at h
      · cases h
      · next hopen =>
        cases h
        exact ⟨e, hdecode, length_of_openField hopen⟩

theorem length_of_content {S : SqlitePersonalFiles} (h : S.rowContent u fid r = .ok content) :
    r.contentLength = content.length := by
  unfold SqlitePersonalFiles.rowContent at h
  split at h
  · next henc =>
    obtain ⟨e, hdecode, hlength⟩ := decrypt_eq_ok h
    simp [PersonalFileRow.contentLength, henc, hdecode, hlength]
  · next henc =>
    cases h
    simp [PersonalFileRow.contentLength, henc]

theorem read_eq_ok {S : SqlitePersonalFiles} (h : S.read u fid t = .ok (name, content)) :
    ∃ r ∈ t, r.owner = u ∧ r.id = fid ∧ r.contentLength = content.length := by
  unfold read at h
  split at h
  · cases h
  · next r hr =>
    have hrow := List.find?_some hr
    simp only [Bool.and_eq_true, decide_eq_true_eq, Bool.not_eq_true'] at hrow
    obtain ⟨bytes, hbytes, h⟩ := Except.bind_eq_ok.mp h
    cases h
    exact ⟨r, mem_of_find?_eq_some hr, hrow.1.1, hrow.1.2, length_of_content hbytes⟩

theorem mem_of_list (h : list u p t = .ok files) (hf : f ∈ files) :
    ∃ r ∈ t, r.owner = u ∧ r.parent = p ∧ f = ⟨r.id, r.parent, r.name, r.directory, r.size⟩ := by
  obtain ⟨_, -, h⟩ := Except.bind_eq_ok.mp h
  cases h
  have hf := mem_mergeSort.mp (mem_of_mem_take hf)
  obtain ⟨r, hr, rfl⟩ := mem_map.mp hf
  obtain ⟨hr, howner⟩ := mem_filter.mp hr
  simp only [Bool.and_eq_true, decide_eq_true_eq] at howner
  exact ⟨r, hr, howner.1, howner.2, rfl⟩

theorem exists_list (h : FileTree (rowsOf r.owner t)) (hr : r ∈ t) :
    ∃ files, list r.owner r.parent t = .ok files ∧
      ⟨r.id, r.parent, r.name, r.directory, r.size⟩ ∈ files := by
  have hparent : parent r.owner r.parent t = .ok () := by
    unfold parent
    split_ifs with hroot hany
    · rfl
    · rfl
    · obtain hp | ⟨d, hd, hid, hdirectory⟩ := h.parents r (mem_rowsOf.mpr ⟨hr, rfl⟩)
      · exact (hroot hp).elim
      · obtain ⟨hd, howner⟩ := mem_rowsOf.mp hd
        exact (hany (any_eq_true.mpr ⟨d, hd, by simp [howner, hid, hdirectory]⟩)).elim
  refine ⟨_, by rw [list, hparent]; rfl, ?_⟩
  rw [take_of_length_le, mem_mergeSort]
  · refine mem_map.mpr ⟨r, mem_filter.mpr ⟨hr, by simp⟩, rfl⟩
  · rw [length_mergeSort, length_map]
    have hle : (t.filter fun r' => r'.owner = r.owner && r'.parent = r.parent).length ≤
        (rowsOf r.owner t).length := by
      rw [rowsOf, ← countP_eq_length_filter, ← countP_eq_length_filter]
      refine countP_mono_left fun r' _ h' => ?_
      simp only [Bool.and_eq_true] at h'
      exact h'.1
    exact hle.trans (h.count_le.trans (Nat.le_succ _))

theorem exists_read {S : SqlitePersonalFiles} (h : FileTree (rowsOf r.owner t)) (hr : r ∈ t)
    (hdirectory : r.directory = false) (hc : S.rowContent r.owner r.id r = .ok content) :
    S.read r.owner r.id t = .ok (r.name, content) := by
  cases hfind : t.find? fun r' => r'.owner = r.owner && r'.id = r.id && !r'.directory with
  | none => simpa [hdirectory] using List.find?_eq_none.mp hfind r hr
  | some r' =>
    have hrow := List.find?_some hfind
    simp only [Bool.and_eq_true, decide_eq_true_eq] at hrow
    have hmem := mem_rowsOf.mpr ⟨mem_of_find?_eq_some hfind, hrow.1.1⟩
    obtain rfl := h.ids.eq hmem (mem_rowsOf.mpr ⟨hr, rfl⟩) hrow.1.2
    rw [read, hfind]
    simp only [hc]
    rfl

/-- A sealed row that was just inserted can be read by a store with its key. -/
theorem readable_of_inserts (h : Inserts S u p n data drawn t row) (henc : row.encrypted = true) :
    row.directory = false ∧ ∃ S' : SqlitePersonalFiles, ∃ content,
      S'.decrypt row.owner row.id (row.data.getD []) = .ok content := by
  obtain ⟨stored, hdata, hstored⟩ := h.content
  rw [h.directory_eq, h.owner, hdata]
  cases data with
  | none =>
    obtain ⟨-, hplain⟩ := Prod.mk.inj (Except.ok.inj hstored)
    rw [henc] at hplain
    cases hplain
  | some bytes =>
    simp only [storedContent, encrypt] at hstored
    split at hstored
    · next provider hprovider =>
      split at hstored
      · next e hseal =>
        obtain ⟨rfl, -⟩ := Prod.mk.inj (Except.ok.inj hstored)
        refine ⟨rfl, ⟨S.aes, some ⟨provider.activeKey, fun _ => provider.activeKey⟩⟩, bytes, ?_⟩
        have hopen : openField S.aes ⟨provider.activeKey, fun _ => provider.activeKey⟩
            (contentContext u row.id) e = .ok bytes := openField_of_sealField hseal rfl
        simp only [decrypt, Option.getD_some, FieldEnvelope.decode_encode, hopen]
      · cases hstored
    · obtain ⟨-, hplain⟩ := Prod.mk.inj (Except.ok.inj hstored)
      rw [henc] at hplain
      cases hplain

/-- What holds of the table at all times. -/
structure Sound (t : PersonalFileTable) : Prop where
  trees : ∀ u, FileTree (rowsOf u t)
  readable : Readable t

theorem sizesExact_iff (h : Sound t) :
    SizesExact t ↔ ∀ r ∈ t, r.directory = false → r.size = r.contentLength := by
  constructor
  · intro hexact r hr hdirectory
    obtain ⟨files, hlist, hf⟩ := exists_list (h.trees _) hr
    obtain ⟨S, content, hc⟩ : ∃ S : SqlitePersonalFiles, ∃ content,
        S.rowContent r.owner r.id r = .ok content := by
      cases henc : r.encrypted with
      | true =>
        obtain ⟨-, S, content, hc⟩ := h.readable r hr henc
        exact ⟨S, content, (if_pos henc).trans hc⟩
      | false => exact ⟨⟨.tagging, none⟩, r.data.getD [], if_neg (by simp [henc])⟩
    rw [length_of_content hc]
    exact hexact _ _ files hlist _ hf hdirectory S _ content
      (exists_read (h.trees _) hr hdirectory hc)
  · intro hrows u p files hlist f hf hdirectory S name content hread
    obtain ⟨r, hr, rfl, rfl, rfl⟩ := mem_of_list hlist hf
    obtain ⟨r', hr', howner, hid, hlength⟩ := read_eq_ok hread
    obtain rfl := (h.trees _).ids.eq (mem_rowsOf.mpr ⟨hr', howner⟩) (mem_rowsOf.mpr ⟨hr, rfl⟩) hid
    rw [← hlength]
    exact hrows r' hr hdirectory

/-! ## Opening the store -/

theorem backfillRow_eq (r : PersonalFileRow) : ∃ n, backfillRow r = { r with size := n } := by
  unfold backfillRow
  split
  · exact ⟨_, rfl⟩
  · exact ⟨r.size, rfl⟩

theorem backfillRow_contentLength (r : PersonalFileRow) :
    (backfillRow r).contentLength = r.contentLength := by
  obtain ⟨n, hn⟩ := backfillRow_eq r
  rw [hn]
  rfl

theorem rowsOf_openWith (u : UserId) (t : PersonalFileTable) :
    rowsOf u (openWith t) = openWith (rowsOf u t) := by
  have howner : ∀ r, (backfillRow r).owner = r.owner := by
    intro r
    obtain ⟨n, hn⟩ := backfillRow_eq r
    rw [hn]
  rw [rowsOf, openWith, filter_map]
  simp only [Function.comp_def, howner]
  rfl

/-- A sealed row whose content is empty. -/
def EmptySealed (r : PersonalFileRow) : Prop := r.encrypted = true ∧ r.contentLength = 0

/-- Opening the store keeps the sizes exact unless there is a sealed empty file. -/
theorem openWith_exact_iff (h : Readable t)
    (hexact : ∀ r ∈ t, r.directory = false → r.size = r.contentLength) :
    (∀ r ∈ openWith t, r.directory = false → r.size = r.contentLength) ↔
      ∀ r ∈ t, ¬ EmptySealed r := by
  rw [openWith, forall_mem_map]
  refine forall₂_congr fun r hr => ?_
  rw [backfillRow_contentLength]
  constructor
  · rintro hafter ⟨henc, hzero⟩
    obtain ⟨hdirectory, S, content, hc⟩ := h r hr henc
    obtain ⟨e, hdecode, -⟩ := decrypt_eq_ok hc
    have hlong := FieldEnvelope.length_of_decode hdecode
    have hdata : r.data.isSome := by
      cases hd : r.data with
      | some d => rfl
      | none =>
        rw [hd] at hlong
        cases hlong
    rw [backfillRow, if_pos ⟨(hexact r hr hdirectory).trans hzero, hdata, hdirectory⟩] at hafter
    have := hafter hdirectory
    simp only [hzero] at this
    omega
  · intro hsealed hdirectory
    unfold backfillRow at hdirectory ⊢
    split
    · next hcond =>
      have hzero := (hexact r hr hcond.2.2).symm.trans hcond.1
      have henc : ¬ r.encrypted = true := fun henc => hsealed ⟨henc, hzero⟩
      simp [PersonalFileRow.contentLength, henc]
    · next hcond => exact hexact r hr (by rwa [if_neg hcond] at hdirectory)

namespace Sound

theorem openWith (h : Sound t) : Sound (openWith t) where
  trees u := by
    rw [rowsOf_openWith]
    refine (h.trees u).map fun r => ?_
    obtain ⟨n, hn⟩ := backfillRow_eq r
    rw [hn]
    exact ⟨rfl, rfl, rfl, rfl⟩
  readable := by
    refine forall_mem_map.mpr fun r hr => ?_
    obtain ⟨n, hn⟩ := backfillRow_eq r
    rw [hn]
    exact h.readable r hr

theorem call (h : Sound t) (u : UserId) (c : PersonalFileCall) :
    Sound (PersonalFileCall.step (u, c) t) := by
  obtain hsame | hdoes := PersonalFileCall.step_cases (u, c) t
  · rwa [hsame]
  · refine ⟨hdoes.fileTree h.trees, hdoes.forall_mem h.readable readable_of_inserts ?_⟩
    intro fid p n r hr
    unfold moveRow
    split <;> exact hr

end Sound

end SqlitePersonalFiles

/-! ## Histories -/

/-- The store is opened, plain or encrypted, or a method of an open store is called. -/
inductive StoreEvent where
  | opened (S : SqlitePersonalFiles)
  | called (u : UserId) (c : PersonalFileCall)

namespace StoreEvent

def step : StoreEvent → PersonalFileTable → PersonalFileTable
  | opened _, t => openWith t
  | called u c, t => PersonalFileCall.step (u, c) t

/-- The store is not opened while there is a sealed empty file. -/
def Harmless : StoreEvent → PersonalFileTable → Prop
  | opened _, t => ∀ r ∈ t, ¬ EmptySealed r
  | called _ _, _ => True

theorem step_sound (h : Sound t) (e : StoreEvent) : Sound (e.step t) := by
  cases e with
  | opened S => exact h.openWith
  | called u c => exact h.call u c

theorem step_exact_iff (h : Sound t)
    (hexact : ∀ r ∈ t, r.directory = false → r.size = r.contentLength) (e : StoreEvent) :
    (∀ r ∈ e.step t, r.directory = false → r.size = r.contentLength) ↔ e.Harmless t := by
  cases e with
  | opened S => exact openWith_exact_iff h.readable hexact
  | called u c =>
    refine iff_of_true ?_ trivial
    obtain hsame | hdoes := PersonalFileCall.step_cases (u, c) t
    · rwa [step, hsame]
    · refine hdoes.forall_mem hexact (fun hi _ => (contentLength_of_inserts hi).symm) ?_
      intro fid p n r hr
      rw [moveRow_directory, moveRow_size, moveRow_contentLength]
      exact hr

theorem prefixes_exact_iff (h : Sound t)
    (hexact : ∀ r ∈ t, r.directory = false → r.size = r.contentLength) (es : List StoreEvent) :
    (∀ done rest, es = done ++ rest → SizesExact (Effect.after step done t)) ↔
      Effect.Along step Harmless es t := by
  induction es generalizing t with
  | nil =>
    refine iff_of_true (fun done rest hsplit => ?_) trivial
    obtain rfl := (nil_eq_append_iff.mp hsplit).1
    exact (sizesExact_iff h).mpr hexact
  | cons e es ih =>
    have hsound := step_sound h e
    constructor
    · intro hall
      have hstep := (sizesExact_iff hsound).mp (hall [e] es rfl)
      refine ⟨(step_exact_iff h hexact e).mp hstep, (ih hsound hstep).mp ?_⟩
      rintro done rest rfl
      exact hall (e :: done) rest rfl
    · rintro ⟨hharmless, hrest⟩ done rest hsplit
      have hstep := (step_exact_iff h hexact e).mpr hharmless
      cases done with
      | nil => exact (sizesExact_iff h).mpr hexact
      | cons e' done =>
        obtain ⟨rfl, hsplit'⟩ := List.cons.inj hsplit
        exact (ih hsound hstep).mpr hrest done rest hsplit'

end StoreEvent

/-- After every part of a history the sizes are exact, exactly if the store is never opened in it
while there is a sealed empty file. -/
theorem sizes_exact_iff (es : List StoreEvent) :
    (∀ done rest, es = done ++ rest → SizesExact (Effect.after StoreEvent.step done [])) ↔
      Effect.Along StoreEvent.step StoreEvent.Harmless es [] := by
  have hempty : Sound [] := ⟨fun _ => .empty, fun r hr => (nomatch hr)⟩
  exact StoreEvent.prefixes_exact_iff hempty (fun r hr => (nomatch hr)) es

/-- A store with one key. -/
def sealedStore : SqlitePersonalFiles where
  aes := .tagging
  keyProvider :=
    some ⟨some ⟨{ value := "key-1" }, List.replicate 32 7, rfl⟩,
      fun _ => some ⟨{ value := "key-1" }, List.replicate 32 7, rfl⟩⟩

/-- An empty file is created in an encrypted store, and the store is opened again. -/
def reopened : List StoreEvent :=
  [.opened sealedStore, .called ⟨1⟩ (.create sealedStore "root" "note.txt" (some [])
      ⟨⟨List.replicate 16 1, rfl⟩, ⟨List.replicate 12 2, rfl⟩⟩),
    .opened sealedStore]

/-- The file is now listed with the length of its envelope. -/
theorem reopened_size :
    (list ⟨1⟩ "root" (Effect.after StoreEvent.step reopened [])).map (·.map (·.size)) = .ok [39] ∧
      sealedStore.read ⟨1⟩ "01010101010101010101010101010101"
        (Effect.after StoreEvent.step reopened []) = .ok ("note.txt", []) := by
  decide +kernel

end Rumahl
