import Rumahl.Core.Accounts
import Rumahl.Data.Forest
import Rumahl.Sqlite.FieldCipher

/-!
# Personal files

The files of all users are rows of one table; every entry names its parent, and `"root"` is the
parent of the entries at the top. `FileTree` says that the entries of an owner form a tree within
the limits. Every method keeps it for every owner, and a method called for one owner depends on the
rows of that owner alone.
-/

namespace Rumahl

open List

inductive FileError where
  | missing | invalid | conflict | limit | unavailable
  deriving DecidableEq

/-- A row of `personal_files`. -/
structure PersonalFileRow where
  owner : UserId
  id : String
  parent : String
  name : String
  directory : Bool
  data : Option (List UInt8)
  size : Nat
  encrypted : Bool

structure PersonalFile where
  id : String
  parent : String
  name : String
  directory : Bool
  size : Nat

abbrev PersonalFileTable := List PersonalFileRow

def nameValid (name : String) : Bool :=
  trim name ≠ "" && byteLength name.toList ≤ 255 && !(name = "." || name = "..") &&
    !(name.toList.any fun c => isControl c || c == '/' || c == '\\')

/-- A store that was opened, with the keys for its content if it was opened encrypted. -/
structure SqlitePersonalFiles where
  aes : Aes256Gcm
  keyProvider : Option FieldKeyProvider

open SqlitePersonalFiles

/-- What the generators draw for a new file: its id and a nonce. -/
structure FileDraws where
  id : ByteVector 16
  nonce : ByteVector 12

namespace SqlitePersonalFiles

/-! ## Queries -/

/-- The rows of an owner. -/
def rowsOf (u : UserId) (t : PersonalFileTable) : PersonalFileTable := t.filter (·.owner = u)

def parent (u : UserId) (id : String) (t : PersonalFileTable) : Except FileError Unit :=
  if id = "root" then .ok ()
  else if t.any fun r => r.owner = u && r.id = id && r.directory then .ok ()
  else .error .missing

def duplicate (u : UserId) (p n id : String) (t : PersonalFileTable) : Except FileError Unit :=
  if t.any fun r => r.owner = u && r.parent = p && r.name = n && r.id ≠ id then .error .conflict
  else .ok ()

def row? (u : UserId) (id : String) (t : PersonalFileTable) : Option PersonalFileRow :=
  t.find? fun r => r.owner = u && r.id = id

/-! ## Content -/

def contentContext (owner : UserId) (id : String) : List UInt8 :=
  textBytes ("personal-file:" ++ toString owner.value ++ ":" ++ id)

def encrypt (S : SqlitePersonalFiles) (owner : UserId) (id : String) (nonce : ByteVector 12)
    (data : List UInt8) : Except FileError (List UInt8 × Bool) :=
  match S.keyProvider with
  | some provider =>
    match sealField S.aes provider nonce (contentContext owner id) data with
    | .ok envelope => .ok (envelope.encode, true)
    | .error _ => .error .unavailable
  | none => .ok (data, false)

def decrypt (S : SqlitePersonalFiles) (owner : UserId) (id : String) (data : List UInt8) :
    Except FileError (List UInt8) :=
  match S.keyProvider with
  | none => .error .unavailable
  | some provider =>
    match FieldEnvelope.decode data with
    | .error _ => .error .unavailable
    | .ok envelope =>
      match openField S.aes provider (contentContext owner id) envelope with
      | .error _ => .error .unavailable
      | .ok plaintext => .ok plaintext

/-! ## Methods -/

/-- `ORDER BY directory DESC, name, id`. -/
def listedBefore (a b : PersonalFile) : Bool :=
  if a.directory = b.directory then
    if a.name = b.name then a.id ≤ b.id else a.name ≤ b.name
  else a.directory

def list (u : UserId) (p : String) (t : PersonalFileTable) :
    Except FileError (List PersonalFile) := do
  parent u p t
  let files := (t.filter fun r => r.owner = u && r.parent = p).map fun r =>
    (⟨r.id, r.parent, r.name, r.directory, r.size⟩ : PersonalFile)
  pure ((files.mergeSort listedBefore).take 1001)

/-- The content of a new row; a directory has none. -/
def storedContent (S : SqlitePersonalFiles) (u : UserId) (id : String) (nonce : ByteVector 12) :
    Option (List UInt8) → Except FileError (List UInt8 × Bool)
  | some bytes => S.encrypt u id nonce bytes
  | none => .ok ([], false)

/-- The row that `create` inserts. -/
def newRow (S : SqlitePersonalFiles) (u : UserId) (p n : String) (data : Option (List UInt8))
    (drawn : FileDraws) (t : PersonalFileTable) : Except FileError PersonalFileRow :=
  if !nameValid n then .error .invalid
  else if data.any fun v => 16 * 1024 * 1024 < v.length then .error .limit
  else do
    parent u p t
    duplicate u p n "" t
    let plaintextLength := (data.map List.length).getD 0
    if 1000 ≤ (rowsOf u t).length ∨
        128 * 1024 * 1024 < ((rowsOf u t).map (·.size)).sum + plaintextLength then
      .error .limit
    else do
      let id := String.ofList (Hex.encode drawn.id.1)
      let (stored, encrypted) ← S.storedContent u id drawn.nonce data
      -- the primary key
      if (row? u id t).isSome then .error .unavailable
      else pure ⟨u, id, p, n, data.isNone, some stored, plaintextLength, encrypted⟩

def create (S : SqlitePersonalFiles) (u : UserId) (p n : String) (data : Option (List UInt8))
    (drawn : FileDraws) (t : PersonalFileTable) : Except FileError Unit × PersonalFileTable :=
  Except.commit t do
    let row ← S.newRow u p n data drawn t
    pure ((), t ++ [row])

/-- The content of a row that was found. -/
def rowContent (S : SqlitePersonalFiles) (u : UserId) (id : String) (row : PersonalFileRow) :
    Except FileError (List UInt8) :=
  if row.encrypted then S.decrypt u id (row.data.getD []) else .ok (row.data.getD [])

def read (S : SqlitePersonalFiles) (u : UserId) (id : String) (t : PersonalFileTable) :
    Except FileError (String × List UInt8) :=
  match t.find? fun r => r.owner = u && r.id = id && !r.directory with
  | none => .error .missing
  | some row => do
    let content ← S.rowContent u id row
    pure (row.name, content)

/-- The loop of `relocate`: from `ancestor` up to the root, in at most `steps` steps, without
meeting `id`. -/
def walk (u : UserId) (id : String) (t : PersonalFileTable) :
    (steps : Nat) → (ancestor : String) → Except FileError Unit
  | 0, ancestor => if ancestor = "root" then .ok () else .error .invalid
  | steps + 1, ancestor =>
    if ancestor = "root" then .ok ()
    else if ancestor = id then .error .invalid
    else
      match row? u ancestor t with
      | none => .error .unavailable
      | some row => walk u id t steps row.parent

/-- Whether `relocate` may update the row, with a limit on the steps of its loop: it ends once more
than `limit` steps are taken. -/
def mayRelocate (limit : Nat) (u : UserId) (id p n : String) (t : PersonalFileTable) :
    Except FileError Unit :=
  if !nameValid n then .error .invalid
  else do
    parent u p t
    duplicate u p n id t
    walk u id t (limit + 1) p
    if (row? u id t).isNone then .error .missing else pure ()

/-- The `UPDATE` of `relocate`. -/
def moveRow (u : UserId) (id p n : String) (r : PersonalFileRow) : PersonalFileRow :=
  if r.owner = u ∧ r.id = id then { r with parent := p, name := n } else r

def relocateWithin (limit : Nat) (u : UserId) (id p n : String) (t : PersonalFileTable) :
    Except FileError Unit × PersonalFileTable :=
  Except.commit t do
    mayRelocate limit u id p n t
    pure ((), t.map (moveRow u id p n))

def relocate : (u : UserId) → (id p n : String) → (t : PersonalFileTable) →
    Except FileError Unit × PersonalFileTable :=
  relocateWithin 1000

def mayDelete (u : UserId) (id : String) (t : PersonalFileTable) : Except FileError Unit :=
  if t.any fun r => r.owner = u && r.parent = id then .error .conflict
  else if (row? u id t).isNone then .error .missing
  else pure ()

def delete (u : UserId) (id : String) (t : PersonalFileTable) :
    Except FileError Unit × PersonalFileTable :=
  Except.commit t do
    mayDelete u id t
    pure ((), t.filter fun r => !(r.owner = u && r.id = id))

end SqlitePersonalFiles

/-- A call that changes the files of its user. -/
inductive PersonalFileCall where
  | create (S : SqlitePersonalFiles) (p n : String) (data : Option (List UInt8)) (drawn : FileDraws)
  | relocate (id p n : String)
  | delete (id : String)

namespace PersonalFileCall

open SqlitePersonalFiles Except

def run (u : UserId) (t : PersonalFileTable) : PersonalFileCall →
    Except FileError Unit × PersonalFileTable
  | create S p n data drawn => S.create u p n data drawn t
  | relocate id p n => SqlitePersonalFiles.relocate u id p n t
  | delete id => SqlitePersonalFiles.delete u id t

/-- What a call does to the table once it is allowed. -/
inductive Does (u : UserId) (t : PersonalFileTable) : PersonalFileCall → PersonalFileTable → Prop
  | created (h : S.newRow u p n data drawn t = .ok row) :
    Does u t (.create S p n data drawn) (t ++ [row])
  | relocated (h : mayRelocate 1000 u fid p n t = .ok ()) :
    Does u t (.relocate fid p n) (t.map (moveRow u fid p n))
  | deleted (h : mayDelete u fid t = .ok ()) :
    Does u t (.delete fid) (t.filter fun r => !(r.owner = u && r.id = fid))

theorem run_eq_ok {c : PersonalFileCall} (h : c.run u t = (.ok (), t')) : c.Does u t t' := by
  cases c with
  | create S p n data drawn =>
    obtain ⟨row, hrow, h⟩ := bind_eq_ok.mp (commit_eq_ok.mp h)
    cases h
    exact .created hrow
  | relocate id p n =>
    obtain ⟨_, hmay, h⟩ := bind_eq_ok.mp (commit_eq_ok.mp h)
    cases h
    exact .relocated hmay
  | delete id =>
    obtain ⟨_, hmay, h⟩ := bind_eq_ok.mp (commit_eq_ok.mp h)
    cases h
    exact .deleted hmay

theorem run_error {c : PersonalFileCall} (h : c.run u t = (.error e, t')) : t' = t := by
  cases c <;> exact commit_error h

end PersonalFileCall

namespace SqlitePersonalFiles

/-! ## The rows of one owner -/

@[simp] theorem rowsOf_rowsOf (u : UserId) (t : PersonalFileTable) :
    rowsOf u (rowsOf u t) = rowsOf u t := by
  simp [rowsOf, filter_filter]

theorem mem_rowsOf : r ∈ rowsOf u t ↔ r ∈ t ∧ r.owner = u := by
  simp [rowsOf]

theorem any_rowsOf (u : UserId) (p : PersonalFileRow → Bool) (t : PersonalFileTable) :
    ((rowsOf u t).any fun r => r.owner = u && p r) = t.any fun r => r.owner = u && p r := by
  rw [rowsOf, any_filter]
  congr 1
  funext r
  rw [← Bool.and_assoc, Bool.and_self]

theorem find?_rowsOf (u : UserId) (p : PersonalFileRow → Bool) (t : PersonalFileTable) :
    ((rowsOf u t).find? fun r => r.owner = u && p r) = t.find? fun r => r.owner = u && p r := by
  rw [rowsOf, find?_filter]
  congr 1
  funext r
  cases h : decide (r.owner = u) <;> simp_all

@[simp] theorem parent_rowsOf (u : UserId) (id : String) (t : PersonalFileTable) :
    parent u id (rowsOf u t) = parent u id t := by
  have h := any_rowsOf u (fun r => r.id = id && r.directory) t
  simp only [← Bool.and_assoc] at h
  rw [parent, h, parent]

@[simp] theorem duplicate_rowsOf (u : UserId) (p n id : String) (t : PersonalFileTable) :
    duplicate u p n id (rowsOf u t) = duplicate u p n id t := by
  have h := any_rowsOf u (fun r => r.parent = p && (r.name = n && r.id ≠ id)) t
  simp only [← Bool.and_assoc] at h
  rw [duplicate, h, duplicate]

@[simp] theorem row?_rowsOf (u : UserId) (id : String) (t : PersonalFileTable) :
    row? u id (rowsOf u t) = row? u id t :=
  find?_rowsOf u (fun r => r.id = id) t

@[simp] theorem walk_rowsOf (u : UserId) (id : String) (t : PersonalFileTable) (steps : Nat)
    (ancestor : String) : walk u id (rowsOf u t) steps ancestor = walk u id t steps ancestor := by
  induction steps generalizing ancestor with
  | zero => rfl
  | succ steps ih => simp only [walk, row?_rowsOf, ih]

@[simp] theorem newRow_rowsOf (S : SqlitePersonalFiles) (u : UserId) (p n : String)
    (data : Option (List UInt8)) (drawn : FileDraws) (t : PersonalFileTable) :
    S.newRow u p n data drawn (rowsOf u t) = S.newRow u p n data drawn t := by
  simp only [newRow, parent_rowsOf, duplicate_rowsOf, rowsOf_rowsOf, row?_rowsOf]

@[simp] theorem mayRelocate_rowsOf (limit : Nat) (u : UserId) (id p n : String)
    (t : PersonalFileTable) :
    mayRelocate limit u id p n (rowsOf u t) = mayRelocate limit u id p n t := by
  simp only [mayRelocate, parent_rowsOf, duplicate_rowsOf, walk_rowsOf, row?_rowsOf]

@[simp] theorem mayDelete_rowsOf (u : UserId) (id : String) (t : PersonalFileTable) :
    mayDelete u id (rowsOf u t) = mayDelete u id t := by
  simp only [mayDelete, row?_rowsOf, any_rowsOf u (fun r => r.parent = id) t]

end SqlitePersonalFiles

open SqlitePersonalFiles

namespace SqlitePersonalFiles

/-- What `create` has checked when it inserts a row, and the row. -/
structure Inserts (S : SqlitePersonalFiles) (u : UserId) (p n : String) (data : Option (List UInt8))
    (drawn : FileDraws) (t : PersonalFileTable) (row : PersonalFileRow) : Prop where
  parent_ok : parent u p t = .ok ()
  duplicate_ok : duplicate u p n "" t = .ok ()
  count_lt : (rowsOf u t).length < 1000
  size_le : ((rowsOf u t).map (·.size)).sum + row.size ≤ 128 * 1024 * 1024
  fresh : row? u row.id t = none
  owner : row.owner = u
  id_eq : row.id = String.ofList (Hex.encode drawn.id.1)
  parent_eq : row.parent = p
  name_eq : row.name = n
  directory_eq : row.directory = data.isNone
  size_eq : row.size = (data.map List.length).getD 0
  content : ∃ stored, row.data = some stored ∧
    S.storedContent u row.id drawn.nonce data = .ok (stored, row.encrypted)

theorem newRow_eq_ok (h : S.newRow u p n data drawn t = .ok row) :
    Inserts S u p n data drawn t row := by
  unfold newRow at h
  split_ifs at h with hname hlarge
  obtain ⟨_, hparent, h⟩ := Except.bind_eq_ok.mp h
  obtain ⟨_, hduplicate, h⟩ := Except.bind_eq_ok.mp h
  simp only at h
  split_ifs at h with hlimit hfresh
  · obtain ⟨_, -, h⟩ := Except.bind_eq_ok.mp h
    cases h
  · obtain ⟨⟨stored, encrypted⟩, hstored, h⟩ := Except.bind_eq_ok.mp h
    cases h
    obtain ⟨hcount, hsize⟩ := not_or.mp hlimit
    exact ⟨hparent, hduplicate, not_le.mp hcount, not_lt.mp hsize, by simpa using hfresh, rfl, rfl,
      rfl, rfl, rfl, rfl, stored, rfl, hstored⟩

theorem moveRow_owner (u : UserId) (fid p n : String) (r : PersonalFileRow) :
    (moveRow u fid p n r).owner = r.owner := by
  unfold moveRow
  split <;> rfl

theorem rowsOf_moveRow (v u : UserId) (fid p n : String) (t : PersonalFileTable) :
    rowsOf v (t.map (moveRow u fid p n)) = (rowsOf v t).map (moveRow u fid p n) := by
  rw [rowsOf, filter_map]
  simp only [Function.comp_def, moveRow_owner]
  rfl

@[simp] theorem moveRow_id (u : UserId) (fid p n : String) (r : PersonalFileRow) :
    (moveRow u fid p n r).id = r.id := by
  unfold moveRow
  split <;> rfl

@[simp] theorem moveRow_directory (u : UserId) (fid p n : String) (r : PersonalFileRow) :
    (moveRow u fid p n r).directory = r.directory := by
  unfold moveRow
  split <;> rfl

@[simp] theorem moveRow_size (u : UserId) (fid p n : String) (r : PersonalFileRow) :
    (moveRow u fid p n r).size = r.size := by
  unfold moveRow
  split <;> rfl

theorem moveRow_of_ne (h : r.owner = u → r.id ≠ fid) : moveRow u fid p n r = r :=
  if_neg fun ⟨howner, hid⟩ => h howner hid

theorem rowsOf_append_own (h : row.owner = u) : rowsOf u (t ++ [row]) = rowsOf u t ++ [row] := by
  simp [rowsOf, h]

theorem rowsOf_delete (v u : UserId) (fid : String) (t : PersonalFileTable) :
    rowsOf v (t.filter fun r => !(r.owner = u && r.id = fid)) =
      (rowsOf v t).filter fun r => !(r.owner = u && r.id = fid) := by
  simp only [rowsOf, filter_filter, Bool.and_comm]

/-- A transaction whose check and whose change keep to the rows of the user. -/
theorem commit_rowsOf {c : PersonalFileTable → Except FileError α}
    {f : α → PersonalFileTable → PersonalFileTable} (hc : c (rowsOf u t) = c t)
    (hf : ∀ a, c t = .ok a → f a (rowsOf u t) = rowsOf u (f a t)) :
    Except.commit (rowsOf u t) (do
        let a ← c (rowsOf u t)
        pure ((), f a (rowsOf u t))) =
      ((Except.commit t (do let a ← c t; pure ((), f a t))).1,
        rowsOf u (Except.commit t (do let a ← c t; pure ((), f a t))).2) := by
  rw [hc]
  cases h : c t with
  | error e => rfl
  | ok a =>
    simp only [Except.ok_bind, hf a h]
    rfl

end SqlitePersonalFiles

/-- What a call does to the rows of each user. -/
theorem PersonalFileCall.Does.rowsOf {c : PersonalFileCall} (h : c.Does u t t') :
    c.Does u (rowsOf u t) (rowsOf u t') ∧
      ∀ v ≠ u, rowsOf v t' = rowsOf v t := by
  cases h with
  | @created S p n data drawn row hrow =>
    have howner := (newRow_eq_ok hrow).owner
    refine ⟨rowsOf_append_own howner ▸ .created (by rwa [newRow_rowsOf]), fun v hv => ?_⟩
    simp [SqlitePersonalFiles.rowsOf, howner, hv.symm]
  | @relocated fid p n hmay =>
    refine ⟨rowsOf_moveRow u u fid p n t ▸ .relocated (by rwa [mayRelocate_rowsOf]), fun v hv => ?_⟩
    rw [rowsOf_moveRow]
    refine (map_congr_left fun r hr => ?_).trans (map_id _)
    exact moveRow_of_ne fun howner => (hv ((mem_rowsOf.mp hr).2.symm.trans howner)).elim
  | @deleted fid hmay =>
    refine ⟨rowsOf_delete u u fid t ▸ .deleted (by rwa [mayDelete_rowsOf]), fun v hv => ?_⟩
    rw [rowsOf_delete, filter_eq_self]
    intro r hr
    simp [(mem_rowsOf.mp hr).2, hv]

/-! ## Trees -/

/-- The length of the content that a row holds. -/
def PersonalFileRow.contentLength (r : PersonalFileRow) : Nat :=
  if r.encrypted then
    match FieldEnvelope.decode (r.data.getD []) with
    | .ok envelope => envelope.ciphertext.length - 16
    | .error _ => 0
  else (r.data.getD []).length

namespace SqlitePersonalFiles

theorem moveRow_contentLength (u : UserId) (fid p n : String) (r : PersonalFileRow) :
    (moveRow u fid p n r).contentLength = r.contentLength := by
  unfold moveRow
  split <;> rfl

/-- The parent of an entry. -/
def up (t : PersonalFileTable) (id : String) : Option String :=
  (Table.find PersonalFileRow.id t id).map (·.parent)

/-- The rows of one owner are a tree of at most 1000 entries. -/
structure FileTree (t : PersonalFileTable) : Prop where
  ids : Table.Keyed PersonalFileRow.id t
  names : Table.Keyed (fun r : PersonalFileRow => (r.parent, r.name)) t
  id_length : ∀ r ∈ t, r.id.toList.length = 32
  parents : ∀ r ∈ t, r.parent = "root" ∨ ∃ d ∈ t, d.id = r.parent ∧ d.directory = true
  reaches : ∀ r ∈ t, ∃ l, Forest.Path (up t) "root" r.id l
  count_le : t.length ≤ 1000

theorem row?_eq_find (u : UserId) (fid : String) (t : PersonalFileTable) :
    row? u fid t = Table.find PersonalFileRow.id (rowsOf u t) fid := by
  rw [row?, Table.find, rowsOf, find?_filter]
  simp

theorem up_eq_some (h : Table.Keyed PersonalFileRow.id t) :
    up t x = some p ↔ ∃ r ∈ t, r.id = x ∧ r.parent = p := by
  simp only [up, Option.map_eq_some_iff, Table.find_eq_some h, and_assoc]

namespace FileTree

theorem mem_of_parent (hp : parent u p t = .ok ()) :
    p = "root" ∨ ∃ d ∈ t, d.id = p ∧ d.directory = true := by
  unfold parent at hp
  split_ifs at hp with hroot hany
  · exact .inl hroot
  · simp only [any_eq_true, Bool.and_eq_true, decide_eq_true_eq] at hany
    obtain ⟨d, hd, ⟨-, hid⟩, hdirectory⟩ := hany
    exact .inr ⟨d, hd, hid, hdirectory⟩

theorem path_of_parent (h : FileTree t) (hp : parent u p t = .ok ()) :
    ∃ l, Forest.Path (up t) "root" p l := by
  obtain rfl | ⟨d, hd, rfl, -⟩ := mem_of_parent hp
  · exact ⟨[], .root⟩
  · exact h.reaches d hd

/-- A way is no longer than there are entries. -/
theorem length_le (h : FileTree t) (hl : Forest.Path (up t) "root" x l) : l.length ≤ 1000 := by
  have hsub : l ⊆ t.map (·.id) := by
    intro y hy
    obtain ⟨p, hp⟩ := Option.isSome_iff_exists.mp (hl.isSome hy)
    obtain ⟨r, hr, hid, -⟩ := (up_eq_some h.ids).mp hp
    exact List.mem_map.mpr ⟨r, hr, hid⟩
  have hle := (hl.nodup.subperm hsub).length_le
  rw [length_map] at hle
  exact hle.trans h.count_le

end FileTree

/-- The loop of `relocate` has enough steps, and looks for the entry on the way to the root. -/
theorem walk_eq (hl : Forest.Path (up (rowsOf u t)) "root" a l) (hle : l.length ≤ steps) :
    walk u fid t steps a = if fid ∈ l then .error .invalid else .ok () := by
  induction hl generalizing steps with
  | root => cases steps <;> simp [walk]
  | @step a p l hne hup htail ih =>
    obtain ⟨steps, rfl⟩ := Nat.exists_eq_succ_of_ne_zero (show steps ≠ 0 by simp at hle; omega)
    obtain ⟨r, hr, hp⟩ := Option.map_eq_some_iff.mp hup
    rw [walk, if_neg hne, row?_eq_find, hr]
    by_cases heq : a = fid
    · simp [heq]
    · rw [if_neg heq]
      simp only [hp]
      rw [ih (by simpa using hle)]
      simp [Ne.symm heq]

namespace FileTree

theorem empty : FileTree [] where
  ids := .nil
  names := .nil
  id_length _ hr := nomatch hr
  parents _ hr := nomatch hr
  reaches _ hr := nomatch hr
  count_le := Nat.zero_le _

theorem mayRelocate_eq_ok (hown : rowsOf u t = t) (h : mayRelocate limit u fid p n t = .ok ()) :
    parent u p t = .ok () ∧ duplicate u p n fid t = .ok () ∧ walk u fid t (limit + 1) p = .ok () ∧
      ∃ r ∈ t, r.id = fid := by
  unfold mayRelocate at h
  split_ifs at h with hname hmissing
  · obtain ⟨_, -, h⟩ := Except.bind_eq_ok.mp h
    obtain ⟨_, -, h⟩ := Except.bind_eq_ok.mp h
    obtain ⟨_, -, h⟩ := Except.bind_eq_ok.mp h
    cases h
  · obtain ⟨_, hparent, h⟩ := Except.bind_eq_ok.mp h
    obtain ⟨_, hduplicate, h⟩ := Except.bind_eq_ok.mp h
    obtain ⟨_, hwalk, -⟩ := Except.bind_eq_ok.mp h
    rw [Bool.not_eq_true, Option.isNone_eq_false_iff, Option.isSome_iff_exists] at hmissing
    obtain ⟨r, hr⟩ := hmissing
    rw [row?_eq_find, hown] at hr
    exact ⟨hparent, hduplicate, hwalk, r, mem_of_find?_eq_some hr, Table.key_of_find hr⟩

/-- Rows whose ids, parents, names and kinds stay as they are. -/
theorem map (h : FileTree t)
    (hf : ∀ r, (f r).id = r.id ∧ (f r).parent = r.parent ∧ (f r).name = r.name ∧
      (f r).directory = r.directory) : FileTree (t.map f) := by
  have hids : Table.Keyed PersonalFileRow.id (t.map f) := by
    rw [Table.Keyed, map_map]
    simp only [Function.comp_def, hf]
    exact h.ids
  have hup : up (t.map f) = up t := by
    ext q
    simp [up_eq_some hids, up_eq_some h.ids, hf]
  refine ⟨hids, ?_, List.forall_mem_map.mpr fun r hr => ?_, List.forall_mem_map.mpr fun r hr => ?_,
    List.forall_mem_map.mpr fun r hr => ?_, ?_⟩
  · rw [Table.Keyed, map_map]
    simp only [Function.comp_def, hf]
    exact h.names
  · rw [(hf r).1]
    exact h.id_length r hr
  · rw [(hf r).2.1]
    obtain hroot | ⟨d, hd, hid, hdirectory⟩ := h.parents r hr
    · exact .inl hroot
    · refine .inr ⟨f d, mem_map_of_mem hd, ?_, ?_⟩
      · rw [(hf d).1, hid]
      · rw [(hf d).2.2.2, hdirectory]
  · rw [(hf r).1, hup]
    exact h.reaches r hr
  · rw [length_map]
    exact h.count_le

private theorem owner_eq (hown : rowsOf u t = t) (hr : r ∈ t) : r.owner = u :=
  (mem_rowsOf.mp (hown.symm ▸ hr)).2

private theorem names_ne (hown : rowsOf u t = t)
    (hdup : duplicate u p n fid t = .ok ()) (hr : r ∈ t) (hid : r.id ≠ fid) :
    (r.parent, r.name) ≠ (p, n) := by
  intro heq
  obtain ⟨hp, hn⟩ := Prod.mk.inj heq
  unfold duplicate at hdup
  split_ifs at hdup with hany
  refine hany (List.any_eq_true.mpr ⟨r, hr, ?_⟩)
  simp [owner_eq hown hr, hp, hn, hid]

theorem created (h : FileTree t) (hown : rowsOf u t = t) (hi : Inserts S u p n data drawn t row) :
    FileTree (t ++ [row]) := by
  have hnew : ∀ r ∈ t, r.id ≠ row.id := by
    have := hi.fresh
    rw [row?_eq_find, hown] at this
    exact Table.find_eq_none.mp this
  have hids : Table.Keyed PersonalFileRow.id (t ++ [row]) := Table.keyed_append.mpr ⟨h.ids, hnew⟩
  have hup : ∀ x, x ≠ row.id → up (t ++ [row]) x = up t x := by
    intro x hx
    ext q
    simp [up_eq_some hids, up_eq_some h.ids, or_and_right, exists_or, Ne.symm hx]
  have hpath : ∀ {x l}, Forest.Path (up t) "root" x l →
      Forest.Path (up (t ++ [row])) "root" x l := by
    intro x l hl
    refine hl.mono fun y hy => hup y ?_
    rintro rfl
    obtain ⟨q, hq⟩ := Option.isSome_iff_exists.mp (hl.isSome hy)
    obtain ⟨r, hr, hid, -⟩ := (up_eq_some h.ids).mp hq
    exact hnew r hr hid
  have hlength : row.id.toList.length = 32 := by
    rw [hi.id_eq, String.toList_ofList, Hex.length_encode, drawn.id.2]
  have hroot : row.id ≠ "root" := by
    intro heq
    rw [heq] at hlength
    cases hlength
  refine ⟨hids, Table.keyed_append.mpr ⟨h.names, fun r hr => ?_⟩, fun r hr => ?_, fun r hr => ?_,
    fun r hr => ?_, ?_⟩
  · rw [hi.parent_eq, hi.name_eq]
    refine names_ne hown hi.duplicate_ok hr fun hid => ?_
    have := h.id_length r hr
    rw [hid] at this
    cases this
  · obtain hr | hr := List.mem_append.mp hr
    · exact h.id_length r hr
    · obtain rfl := List.mem_singleton.mp hr
      exact hlength
  · obtain hr | hr := List.mem_append.mp hr
    · exact (h.parents r hr).imp_right fun ⟨d, hd, hd'⟩ => ⟨d, mem_append_left _ hd, hd'⟩
    · obtain rfl := List.mem_singleton.mp hr
      obtain hp | ⟨d, hd, hd'⟩ := mem_of_parent hi.parent_ok
      · exact .inl (hi.parent_eq.trans hp)
      · exact .inr ⟨d, mem_append_left _ hd, hi.parent_eq ▸ hd'⟩
  · obtain hr | hr := List.mem_append.mp hr
    · exact (h.reaches r hr).imp fun l hl => hpath hl
    · obtain rfl := List.mem_singleton.mp hr
      obtain ⟨l, hl⟩ := h.path_of_parent hi.parent_ok
      have hup' := (up_eq_some hids).mpr ⟨r, by simp, rfl, hi.parent_eq⟩
      exact ⟨r.id :: l, .step hroot hup' (hpath hl)⟩
  · have := hi.count_lt
    rw [hown] at this
    rw [length_append]
    exact this

theorem relocated (h : FileTree t) (hown : rowsOf u t = t)
    (hmay : mayRelocate 1000 u fid p n t = .ok ()) : FileTree (t.map (moveRow u fid p n)) := by
  obtain ⟨hparent, hduplicate, hwalk, moved, hmoved, hmid⟩ := mayRelocate_eq_ok hown hmay
  obtain ⟨lp, hlp⟩ := h.path_of_parent hparent
  have hfree : fid ∉ lp := by
    rw [walk_eq (hown.symm ▸ hlp) ((h.length_le hlp).trans (Nat.le_succ _))] at hwalk
    split_ifs at hwalk with hmem
    exact hmem
  have hself : moveRow u fid p n moved = { moved with parent := p, name := n } :=
    if_pos ⟨owner_eq hown hmoved, hmid⟩
  have hother : ∀ r ∈ t, r.id ≠ fid → moveRow u fid p n r = r := fun r _ hid =>
    moveRow_of_ne fun _ => hid
  have hids : Table.Keyed PersonalFileRow.id (t.map (moveRow u fid p n)) := by
    rw [Table.Keyed, map_map]
    simp only [Function.comp_def, moveRow_id]
    exact h.ids
  have hup : ∀ x, x ≠ fid → up (t.map (moveRow u fid p n)) x = up t x := by
    intro x hx
    ext q
    rw [up_eq_some hids, up_eq_some h.ids]
    constructor
    · rintro ⟨_, hr', rfl, rfl⟩
      obtain ⟨r, hr, rfl⟩ := List.mem_map.mp hr'
      rw [moveRow_id] at hx ⊢
      exact ⟨r, hr, rfl, by rw [hother r hr hx]⟩
    · rintro ⟨r, hr, rfl, rfl⟩
      exact ⟨r, List.mem_map.mpr ⟨r, hr, hother r hr hx⟩, rfl, rfl⟩
  have hupMoved : up (t.map (moveRow u fid p n)) fid = some p := by
    refine (up_eq_some hids).mpr ⟨_, mem_map_of_mem hmoved, ?_, ?_⟩ <;> simp [hself, hmid]
  have hparents : ∀ q, (q = "root" ∨ ∃ d ∈ t, d.id = q ∧ d.directory = true) →
      q = "root" ∨ ∃ d ∈ t.map (moveRow u fid p n), d.id = q ∧ d.directory = true := by
    rintro q (hq | ⟨d, hd, hid, hdirectory⟩)
    · exact .inl hq
    · exact .inr ⟨_, mem_map_of_mem hd, by rwa [moveRow_id], by rwa [moveRow_directory]⟩
  refine ⟨hids, ?_, List.forall_mem_map.mpr fun r hr => ?_, List.forall_mem_map.mpr fun r hr => ?_,
    List.forall_mem_map.mpr fun r hr => ?_, ?_⟩
  · rw [Table.Keyed, map_map, nodup_map_iff_inj_on h.ids.of_map]
    intro a ha b hb heq
    by_cases haid : a.id = fid <;> by_cases hbid : b.id = fid
    · exact h.ids.eq ha hb (haid.trans hbid.symm)
    · obtain rfl := h.ids.eq ha hmoved (haid.trans hmid.symm)
      rw [Function.comp_apply, Function.comp_apply, hself, hother b hb hbid] at heq
      exact (names_ne hown hduplicate hb hbid heq.symm).elim
    · obtain rfl := h.ids.eq hb hmoved (hbid.trans hmid.symm)
      rw [Function.comp_apply, Function.comp_apply, hself, hother a ha haid] at heq
      exact (names_ne hown hduplicate ha haid heq).elim
    · rw [Function.comp_apply, Function.comp_apply, hother a ha haid, hother b hb hbid] at heq
      exact h.names.eq ha hb heq
  · rw [moveRow_id]
    exact h.id_length r hr
  · by_cases hid : r.id = fid
    · obtain rfl := h.ids.eq hr hmoved (hid.trans hmid.symm)
      rw [hself]
      exact hparents p (mem_of_parent hparent)
    · rw [hother r hr hid]
      exact hparents _ (h.parents r hr)
  · obtain ⟨l, hl⟩ := h.reaches r hr
    rw [moveRow_id]
    exact hl.move hlp hfree hupMoved hup
  · rw [length_map]
    exact h.count_le

theorem deleted (h : FileTree t) (hown : rowsOf u t = t) (hmay : mayDelete u fid t = .ok ()) :
    FileTree (t.filter fun r => !(r.owner = u && r.id = fid)) := by
  have hkept : (t.filter fun r => !(r.owner = u && r.id = fid)) = t.filter (·.id ≠ fid) := by
    refine filter_congr fun r hr => ?_
    simp [owner_eq hown hr]
  rw [hkept]
  have hleaf : ∀ r ∈ t, r.parent ≠ fid := by
    intro r hr heq
    unfold mayDelete at hmay
    split_ifs at hmay with hany
    refine hany (List.any_eq_true.mpr ⟨r, hr, ?_⟩)
    simp [owner_eq hown hr, heq]
  have hsub : (t.filter (·.id ≠ fid)).Sublist t := filter_sublist
  have hids : Table.Keyed PersonalFileRow.id (t.filter (·.id ≠ fid)) :=
    h.ids.sublist (hsub.map _)
  have hup : ∀ x, x ≠ fid → up (t.filter (·.id ≠ fid)) x = up t x := by
    intro x hx
    ext q
    rw [up_eq_some hids, up_eq_some h.ids]
    constructor
    · rintro ⟨r, hr, hid, hq⟩
      exact ⟨r, hsub.subset hr, hid, hq⟩
    · rintro ⟨r, hr, rfl, hq⟩
      exact ⟨r, List.mem_filter.mpr ⟨hr, by simpa using hx⟩, rfl, hq⟩
  refine ⟨hids, h.names.sublist (hsub.map _), fun r hr => h.id_length r (hsub.subset hr),
    fun r hr => ?_, fun r hr => ?_, hsub.length_le.trans h.count_le⟩
  · obtain ⟨hr, hid⟩ := List.mem_filter.mp hr
    refine (h.parents r hr).imp_right fun ⟨d, hd, hdid, hdirectory⟩ => ⟨d, ?_, hdid, hdirectory⟩
    exact List.mem_filter.mpr ⟨hd, by simpa [hdid] using hleaf r hr⟩
  · obtain ⟨hr, hid⟩ := List.mem_filter.mp hr
    obtain ⟨l, hl⟩ := h.reaches r hr
    refine ⟨l, hl.remove (by simpa using hid) (fun x q hq => ?_) hup⟩
    obtain ⟨r', hr', -, rfl⟩ := (up_eq_some h.ids).mp hq
    exact hleaf r' hr'

end FileTree

/-- The limit on the steps of its loop makes no difference to `relocate`. -/
theorem relocateWithin_eq (h : FileTree (rowsOf u t)) (hle : 1000 ≤ limit) (fid p n : String) :
    relocateWithin limit u fid p n t = relocate u fid p n t := by
  have hmay : mayRelocate limit u fid p n t = mayRelocate 1000 u fid p n t := by
    unfold mayRelocate
    cases hparent : parent u p t with
    | error e => rfl
    | ok _ =>
      obtain ⟨l, hl⟩ := h.path_of_parent (by rwa [parent_rowsOf])
      have hlength := h.length_le hl
      rw [walk_eq hl (hlength.trans (hle.trans (Nat.le_succ _))),
        walk_eq hl (hlength.trans (Nat.le_succ _))]
  rw [relocate, relocateWithin, relocateWithin, hmay]

theorem contentLength_of_inserts (h : Inserts S u p n data drawn t row) :
    row.contentLength = row.size := by
  obtain ⟨stored, hdata, hstored⟩ := h.content
  rw [h.size_eq, PersonalFileRow.contentLength, hdata]
  cases data with
  | none =>
    obtain ⟨rfl, henc⟩ := Prod.mk.inj (Except.ok.inj hstored)
    simp [← henc]
  | some bytes =>
    simp only [storedContent, encrypt] at hstored
    split at hstored
    · split at hstored
      · next e hseal =>
        obtain ⟨rfl, henc⟩ := Prod.mk.inj (Except.ok.inj hstored)
        simp [← henc, FieldEnvelope.decode_encode, length_of_sealField hseal]
      · cases hstored
    · obtain ⟨rfl, henc⟩ := Prod.mk.inj (Except.ok.inj hstored)
      simp [← henc]

end SqlitePersonalFiles

open SqlitePersonalFiles

namespace PersonalFileCall

theorem Does.fileTree {c : PersonalFileCall} (h : c.Does u t t')
    (ht : ∀ v, FileTree (SqlitePersonalFiles.rowsOf v t)) (v : UserId) :
    FileTree (SqlitePersonalFiles.rowsOf v t') := by
  obtain ⟨hown, hothers⟩ := h.rowsOf
  by_cases hv : v = u
  · subst hv
    have hrows := rowsOf_rowsOf v t
    have htree := ht v
    generalize SqlitePersonalFiles.rowsOf v t' = own' at hown
    cases hown with
    | created hrow => exact htree.created hrows (newRow_eq_ok hrow)
    | relocated hmay => exact htree.relocated hrows hmay
    | deleted hmay => exact htree.deleted hrows hmay
  · rw [hothers v hv]
    exact ht v

/-- What holds of new rows and does not depend on where a row is holds of every row. -/
theorem Does.forall_mem {P : PersonalFileRow → Prop} {c : PersonalFileCall} (h : c.Does u t t')
    (ht : ∀ r ∈ t, P r)
    (hnew : ∀ {S p n data drawn row}, Inserts S u p n data drawn t row → P row)
    (hmove : ∀ fid p n r, P r → P (moveRow u fid p n r)) : ∀ r ∈ t', P r := by
  cases h with
  | @created S p n data drawn row hrow =>
    intro r hr
    obtain hr | hr := List.mem_append.mp hr
    · exact ht r hr
    · obtain rfl := List.mem_singleton.mp hr
      exact hnew (newRow_eq_ok hrow)
  | relocated hmay => exact List.forall_mem_map.mpr fun r hr => hmove _ _ _ r (ht r hr)
  | deleted hmay => exact fun r hr => ht r (mem_of_mem_filter hr)

/-- Every row says how long its content is, after a call too. -/
theorem Does.content_eq {c : PersonalFileCall} (h : c.Does u t t')
    (ht : ∀ r ∈ t, r.contentLength = r.size) : ∀ r ∈ t', r.contentLength = r.size :=
  h.forall_mem ht contentLength_of_inserts fun fid p n r hr => by
    rw [moveRow_contentLength, moveRow_size, hr]

/-- The files of a user are not too long together, after a call too. -/
theorem Does.size_le {c : PersonalFileCall} (h : c.Does u t t')
    (ht : ∀ v, ((SqlitePersonalFiles.rowsOf v t).map (·.size)).sum ≤ 128 * 1024 * 1024)
    (v : UserId) : ((SqlitePersonalFiles.rowsOf v t').map (·.size)).sum ≤ 128 * 1024 * 1024 := by
  cases h with
  | @created S p n data drawn row hrow =>
    have hi := newRow_eq_ok hrow
    by_cases hv : row.owner = v
    · rw [rowsOf_append_own hv, map_append, sum_append]
      obtain rfl := hi.owner.symm.trans hv
      simpa using hi.size_le
    · have hsame : SqlitePersonalFiles.rowsOf v (t ++ [row]) = SqlitePersonalFiles.rowsOf v t := by
        simp [SqlitePersonalFiles.rowsOf, hv]
      rw [hsame]
      exact ht v
  | relocated hmay =>
    rw [rowsOf_moveRow, map_map]
    simpa only [Function.comp_def, moveRow_size] using ht v
  | @deleted fid hmay =>
    rw [rowsOf_delete]
    exact ((List.filter_sublist.map _).sum_le_sum fun _ _ => Nat.zero_le _).trans (ht v)

/-- The table after a call, whether or not it succeeded. -/
def step (e : UserId × PersonalFileCall) (t : PersonalFileTable) : PersonalFileTable :=
  (e.2.run e.1 t).2

theorem step_cases (e : UserId × PersonalFileCall) (t : PersonalFileTable) :
    step e t = t ∨ e.2.Does e.1 t (step e t) := by
  cases h : e.2.run e.1 t with
  | mk r t' =>
    cases r with
    | error e => exact .inl (by rw [step, h]; exact run_error h)
    | ok _ => exact .inr (by rw [step, h]; exact run_eq_ok h)

/-- A call on the rows of its user alone has the same answer and leaves the same rows. -/
theorem run_rowsOf (c : PersonalFileCall) (u : UserId) (t : PersonalFileTable) :
    c.run u (rowsOf u t) =
      ((c.run u t).1, rowsOf u (c.run u t).2) := by
  cases c with
  | create S p n data drawn =>
    exact commit_rowsOf (f := fun row t => t ++ [row]) (newRow_rowsOf ..) fun row hrow =>
      (rowsOf_append_own (newRow_eq_ok hrow).owner).symm
  | relocate fid p n =>
    exact commit_rowsOf (mayRelocate_rowsOf ..) fun _ _ => (rowsOf_moveRow ..).symm
  | delete fid => exact commit_rowsOf (mayDelete_rowsOf ..) fun _ _ => (rowsOf_delete ..).symm

end PersonalFileCall

/-- The files of all users after any calls by any users: trees within their limits, in which the
loop of `relocate` always reaches the root, and which do not depend on each other. -/
theorem personal_files_tree (es : List (UserId × PersonalFileCall)) :
    (∀ u, let rows := rowsOf u (Effect.after PersonalFileCall.step es []);
      (∀ r ∈ rows, r.parent = "root" ∨ ∃ d ∈ rows, d.id = r.parent ∧ d.directory = true) ∧
      (∀ r ∈ rows, ∃ l, Forest.Path (up rows) "root" r.id l ∧ l.Nodup) ∧
      (rows.map fun r => (r.parent, r.name)).Nodup ∧
      rows.length ≤ 1000 ∧
      (rows.map (·.contentLength)).sum ≤ 128 * 1024 * 1024) ∧
    (∀ u fid p n limit, 1000 ≤ limit →
      relocateWithin limit u fid p n (Effect.after PersonalFileCall.step es []) =
        relocate u fid p n (Effect.after PersonalFileCall.step es [])) ∧
    (∀ u (c : PersonalFileCall) t, c.run u (rowsOf u t) = ((c.run u t).1, rowsOf u (c.run u t).2) ∧
      ∀ v ≠ u, rowsOf v (c.run u t).2 = rowsOf v t) := by
  obtain ⟨htree, hcontent, hsize⟩ :
      (∀ u, FileTree (rowsOf u (Effect.after PersonalFileCall.step es []))) ∧
      (∀ r ∈ Effect.after PersonalFileCall.step es [], r.contentLength = r.size) ∧
      ∀ u, ((rowsOf u (Effect.after PersonalFileCall.step es [])).map (·.size)).sum ≤
        128 * 1024 * 1024 := by
    refine (Effect.Along.of_forall (fun _ _ => trivial) es []).invariant
      (P := fun t => (∀ u, FileTree (rowsOf u t)) ∧ (∀ r ∈ t, r.contentLength = r.size) ∧
        ∀ u, ((rowsOf u t).map (·.size)).sum ≤ 128 * 1024 * 1024) (fun e t ht _ => ?_)
      ⟨fun u => .empty, fun r hr => (nomatch hr), fun u => Nat.zero_le _⟩
    obtain hsame | hdoes := PersonalFileCall.step_cases e t
    · rwa [hsame]
    · exact ⟨hdoes.fileTree ht.1, hdoes.content_eq ht.2.1, hdoes.size_le ht.2.2⟩
  refine ⟨fun u => ?_, fun u fid p n limit hle => relocateWithin_eq (htree u) hle fid p n,
    fun u c t => ⟨c.run_rowsOf u t, fun v hv => ?_⟩⟩
  · refine ⟨(htree u).parents, fun r hr => ?_, (htree u).names, (htree u).count_le, ?_⟩
    · obtain ⟨l, hl⟩ := (htree u).reaches r hr
      exact ⟨l, hl, hl.nodup⟩
    · rw [map_congr_left fun r hr => hcontent r (mem_rowsOf.mp hr).1]
      exact hsize u
  · obtain hsame | hdoes := PersonalFileCall.step_cases (u, c) t
    · exact congrArg (rowsOf v) hsame
    · exact hdoes.rowsOf.2 v hv

end Rumahl
