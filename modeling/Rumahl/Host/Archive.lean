import Rumahl.Data.Checks

/-!
# Archives of volumes

The recovery broker packs every managed volume with `tar` and checks an archive before it trusts it:
its own output, and every archive that it unpacks. `checkArchive_pack` says which volumes pass
the check.
-/

open List

namespace Rumahl.Host

/-- An exception, with the class that the job status shows. -/
structure BrokerError where
  name : String
  message : String := ""
  deriving DecidableEq

def valueError (message : String) : BrokerError := ⟨"ValueError", message⟩

/-- The managed volumes, in the order of `ROOTS`. -/
inductive VolumeName where
  | state | home | apps | docker | images
  deriving DecidableEq

def VolumeName.all : List VolumeName := [state, home, apps, docker, images]

theorem VolumeName.mem_all (v : VolumeName) : v ∈ all := by
  cases v <;> decide

/-! ## Volumes -/

/-- A value of an object in JSON, as far as the recovery settings know it. -/
inductive Setting where
  | bool (value : Bool)
  | texts (values : List String)
  | other (text : String)
  deriving DecidableEq

/-- What is in a regular file: of an object in JSON its fields, of a database its tables with their
rows. -/
inductive FileData where
  | bytes (content : String)
  | object (fields : List (String × Setting))
  | database (tables : List (String × List String))
  deriving DecidableEq

inductive Node where
  | directory
  | file (data : FileData)
  | symlink (target : String)
  | fifo
  | character (major minor : Nat)
  | block
  deriving DecidableEq

/-- A name in a volume. Hard links are entries with one inode. -/
structure Entry where
  path : List String
  inode : Nat
  node : Node
  deriving DecidableEq

/-- What the file system takes for a name. -/
def IsName (name : String) : Prop :=
  name ≠ "" ∧ name ≠ "." ∧ name ≠ ".." ∧ '/' ∉ name.toList

instance : DecidablePred IsName := fun name =>
  inferInstanceAs (Decidable (name ≠ "" ∧ name ≠ "." ∧ name ≠ ".." ∧ '/' ∉ name.toList))

/-- What a file system can hold below a directory. -/
structure FileTree where
  entries : List Entry
  path_ne : ∀ e ∈ entries, e.path ≠ []
  names : ∀ e ∈ entries, ∀ name ∈ e.path, IsName name
  nodup : (entries.map Entry.path).Nodup
  parents : ∀ e ∈ entries, e.path.dropLast ≠ [] →
    ∃ d ∈ entries, d.path = e.path.dropLast ∧ d.node = .directory
  shared : ∀ e ∈ entries, ∀ f ∈ entries, e.inode = f.inode → e.node = f.node

/-! ## Members -/

structure PurePosixPath where
  root : String
  parts : List String
  deriving DecidableEq

namespace PurePosixPath

/-- Empty parts and single dots mean nothing. -/
def parse (text : String) : PurePosixPath where
  root :=
    if text.toList.take 2 = ['/', '/'] ∧ text.toList.take 3 ≠ ['/', '/', '/'] then "//"
    else if text.toList.take 1 = ['/'] then "/"
    else ""
  parts := ((text.toList.splitOn '/').map String.ofList).filter fun part =>
    part ≠ "" ∧ part ≠ "."

def isAbsolute (p : PurePosixPath) : Bool := p.root ≠ ""

def parents (p : PurePosixPath) : List PurePosixPath :=
  (List.range p.parts.length).map fun n => ⟨p.root, p.parts.take n⟩

end PurePosixPath

inductive MemberType where
  | file | directory | symlink | hardlink | fifo | character (major minor : Nat) | block
  deriving DecidableEq

structure Member where
  name : String
  type : MemberType
  linkname : String := ""
  data : Option FileData := none
  deriving DecidableEq

abbrev Archive := List Member

namespace Member

def path (m : Member) : PurePosixPath := .parse m.name

def isLink (m : Member) : Bool := m.type = .symlink ∨ m.type = .hardlink

/-- The types that are unpacked; the layers of the container engine hide files behind a device. -/
def supported (v : VolumeName) (m : Member) : Bool :=
  match m.type with
  | .file | .directory | .symlink | .hardlink => true
  | .character major minor => v = .docker ∧ major = 0 ∧ minor = 0
  | .fifo | .block => false

end Member

/-- The directories that a restore works in. -/
def reserved : List String := [".rre-stage", ".rre-previous"]

def checkMember (v : VolumeName) (seen : List PurePosixPath) (m : Member) :
    Except BrokerError Unit :=
  if m.path.isAbsolute ∨ ".." ∈ m.path.parts ∨ (m.path.parts.any fun part => part ∈ reserved) ∨
      m.path ∈ seen then
    .error (valueError "unsafe archive path")
  else if m.supported v = false then .error (valueError "unsupported archive entry")
  else if m.type = .hardlink ∧ ((PurePosixPath.parse m.linkname).isAbsolute ∨
      ".." ∈ (PurePosixPath.parse m.linkname).parts) then
    .error (valueError "unsafe hard link")
  else .ok ()

/-- The first pass over an archive, with the paths that were met. -/
def checkMembers (v : VolumeName) (seen : List PurePosixPath) : Archive → Except BrokerError Unit
  | [] => .ok ()
  | m :: ms => do
    checkMember v seen m
    checkMembers v (m.path :: seen) ms

def links (archive : Archive) : List PurePosixPath := (archive.filter Member.isLink).map Member.path

def checkArchive (v : VolumeName) (archive : Archive) : Except BrokerError Unit := do
  checkMembers v [] archive
  archive.forM fun m =>
    if m.path.parents.any fun parent => parent ∈ links archive then
      .error (valueError "archive writes through link")
    else .ok ()

/-- A member that the first pass takes, if it has not met its path. -/
structure Sound (v : VolumeName) (m : Member) : Prop where
  relative : m.path.root = ""
  inside : ".." ∉ m.path.parts
  free : ∀ part ∈ m.path.parts, part ∉ reserved
  supported : m.supported v = true
  link : m.type = .hardlink → (PurePosixPath.parse m.linkname).root = "" ∧
    ".." ∉ (PurePosixPath.parse m.linkname).parts

theorem checkMember_eq_ok : checkMember v seen m = .ok () ↔ Sound v m ∧ m.path ∉ seen := by
  unfold checkMember
  split
  · next h =>
    refine ⟨(nomatch ·), fun ⟨hs, hseen⟩ => ?_⟩
    simp only [PurePosixPath.isAbsolute, ne_eq, decide_not, Bool.not_eq_true',
      decide_eq_false_iff_not,
      any_eq_true, decide_eq_true_eq] at h
    rcases h with h | h | ⟨part, hpart, h⟩ | h
    · exact absurd hs.relative h
    · exact absurd h hs.inside
    · exact absurd h (hs.free part hpart)
    · exact absurd h hseen
  next h =>
  simp only [PurePosixPath.isAbsolute, ne_eq, decide_not, Bool.not_eq_true',
    decide_eq_false_iff_not,
    any_eq_true, decide_eq_true_eq, not_or, not_not, not_exists, not_and] at h
  obtain ⟨hroot, hinside, hfree, hseen⟩ := h
  split
  · next hsup =>
    refine ⟨(nomatch ·), fun ⟨hs, _⟩ => ?_⟩
    cases hsup.symm.trans hs.supported
  next hsup =>
  split
  · next hlink =>
    refine ⟨(nomatch ·), fun ⟨hs, _⟩ => ?_⟩
    obtain ⟨hroot, hparts⟩ := hs.link hlink.1
    simp [PurePosixPath.isAbsolute, hroot, hparts] at hlink
  next hlink =>
  refine ⟨fun _ => ⟨⟨hroot, hinside, hfree, by simpa using hsup, fun ht => ?_⟩, hseen⟩,
    fun _ => rfl⟩
  simpa [ht, PurePosixPath.isAbsolute] using hlink

theorem checkMembers_eq_ok : checkMembers v seen ms = .ok () ↔
    (∀ m ∈ ms, Sound v m ∧ m.path ∉ seen) ∧ (ms.map Member.path).Nodup := by
  induction ms generalizing seen with
  | nil => simp [checkMembers]
  | cons m ms ih =>
    rw [checkMembers, Except.seq_eq_ok, checkMember_eq_ok, ih, forall_mem_cons, map_cons,
      nodup_cons]
    simp only [mem_cons, not_or, mem_map, not_exists, not_and]
    constructor
    · rintro ⟨hm, hms, hnodup⟩
      exact ⟨⟨hm, fun m' hm' => ⟨(hms m' hm').1, (hms m' hm').2.2⟩⟩,
        fun m' hm' => (hms m' hm').2.1, hnodup⟩
    · rintro ⟨⟨hm, hms⟩, hne, hnodup⟩
      exact ⟨hm, fun m' hm' => ⟨(hms m' hm').1, hne m' hm', (hms m' hm').2⟩, hnodup⟩

theorem mem_links : p ∈ links ms ↔ ∃ l ∈ ms, l.isLink = true ∧ l.path = p := by
  simp [links, and_assoc]

theorem checkArchive_eq_ok : checkArchive v ms = .ok () ↔
    (∀ m ∈ ms, Sound v m) ∧ (ms.map Member.path).Nodup ∧
      ∀ m ∈ ms, ∀ l ∈ ms, l.isLink = true → l.path ∉ m.path.parents := by
  rw [checkArchive, Except.seq_eq_ok, checkMembers_eq_ok, Except.forM_eq_ok, and_assoc]
  refine and_congr (by simp) (and_congr Iff.rfl (forall₂_congr fun m _ => ?_))
  constructor
  · intro h l hl hlink hparent
    rw [if_pos (any_eq_true.mpr ⟨_, hparent, decide_eq_true (mem_links.mpr ⟨l, hl, hlink, rfl⟩)⟩)]
      at h
    cases h
  · intro h
    rw [if_neg]
    intro hany
    obtain ⟨parent, hparent, hmem⟩ := any_eq_true.mp hany
    obtain ⟨l, hl, hlink, rfl⟩ := mem_links.mp (of_decide_eq_true hmem)
    exact h l hl hlink hparent

/-! ## Packing -/

def tarName (path : List String) : String :=
  String.ofList (['/'].intercalate (['.'] :: path.map String.toList))

theorem parse_tarName (h : ∀ name ∈ path, IsName name) :
    PurePosixPath.parse (tarName path) = ⟨"", path⟩ := by
  have hsplit : (['/'].intercalate (['.'] :: path.map String.toList)).splitOn '/' =
      ['.'] :: path.map String.toList := by
    refine splitOn_intercalate _ (fun l hl => ?_) (by simp)
    rcases mem_cons.mp hl with rfl | hl
    · decide
    · obtain ⟨name, hname, rfl⟩ := mem_map.mp hl
      exact (h name hname).2.2.2
  have hhead : ∃ rest, ['/'].intercalate (['.'] :: path.map String.toList) = '.' :: rest := by
    cases path with
    | nil => exact ⟨[], rfl⟩
    | cons name path => exact ⟨_, rfl⟩
  obtain ⟨rest, hrest⟩ := hhead
  have hparts : (("." :: path).filter fun part => decide (part ≠ "" ∧ part ≠ ".")) = path := by
    rw [filter_cons_of_neg (by simp), filter_eq_self]
    exact fun name hname => decide_eq_true ⟨(h name hname).1, (h name hname).2.1⟩
  have hmap : (['.'] :: path.map String.toList).map String.ofList = "." :: path := by
    rw [map_cons, map_map]
    refine congrArg₂ _ rfl ?_
    conv_rhs => rw [← map_id path]
    exact map_congr_left fun name _ => String.ofList_toList
  rw [PurePosixPath.parse, tarName, String.toList_ofList, hsplit, hmap, hparts, hrest]
  simp

/-- How an entry is packed when its inode is met for the first time. -/
def Entry.member (e : Entry) : Member :=
  match e.node with
  | .directory => ⟨tarName e.path, .directory, "", none⟩
  | .file data => ⟨tarName e.path, .file, "", some data⟩
  | .symlink target => ⟨tarName e.path, .symlink, target, none⟩
  | .fifo => ⟨tarName e.path, .fifo, "", none⟩
  | .character major minor => ⟨tarName e.path, .character major minor, "", none⟩
  | .block => ⟨tarName e.path, .block, "", none⟩

/-- A further name of an inode is packed as a link to the first one. -/
def packed (es : List Entry) (e : Entry) : Member :=
  match es.find? fun f => f.inode = e.inode with
  | some f =>
    if f = e ∨ e.node = .directory then e.member
    else ⟨tarName e.path, .hardlink, tarName f.path, none⟩
  | none => e.member

/-- `tar --create` of a directory, in the order in which it is walked. -/
def pack (entries : List Entry) : Archive :=
  ⟨".", .directory, "", none⟩ :: entries.map (packed entries)

/-- How an entry may be packed. -/
inductive Packs (es : List Entry) (e : Entry) : Member → Prop
  | first : Packs es e e.member
  | again (hf : f ∈ es) : e.node ≠ .directory →
    Packs es e ⟨tarName e.path, .hardlink, tarName f.path, none⟩

theorem packed_packs (es : List Entry) (e : Entry) : Packs es e (packed es e) := by
  unfold packed
  split
  · next f hf =>
    split
    · exact .first
    · next hne =>
      exact .again (mem_of_find?_eq_some hf) (not_or.mp hne).2
  · exact .first

/-- The first name of an inode is packed with the node itself. -/
theorem exists_first (he : e ∈ es) : ∃ f ∈ es, f.inode = e.inode ∧ packed es f = f.member := by
  cases hfind : es.find? fun f => f.inode = e.inode with
  | none => simpa using List.find?_eq_none.mp hfind e he
  | some f =>
    have hinode : f.inode = e.inode := by simpa using List.find?_some hfind
    refine ⟨f, mem_of_find?_eq_some hfind, hinode, ?_⟩
    rw [packed, hinode, hfind]
    exact if_pos (.inl rfl)

/-- What the broker can keep: no special file, apart from what hides files in container layers. -/
def Storable (v : VolumeName) : Node → Prop
  | .directory | .file _ | .symlink _ => True
  | .character major minor => v = .docker ∧ major = 0 ∧ minor = 0
  | .fifo | .block => False

/-- An entry that does not stand in the way of a backup. -/
def Admissible (v : VolumeName) (e : Entry) : Prop :=
  (∀ name ∈ e.path, name ∉ reserved) ∧ Storable v e.node

theorem Entry.member_supported (e : Entry) : e.member.supported v = true ↔ Storable v e.node := by
  unfold member
  cases e.node <;> simp [Member.supported, Storable]

@[simp] theorem Entry.member_name (e : Entry) : e.member.name = tarName e.path := by
  unfold member
  split <;> rfl

theorem Entry.member_isLink {e : Entry} (h : e.member.isLink = true) : e.node ≠ .directory := by
  intro hdir
  simp [member, hdir, Member.isLink] at h

theorem Entry.member_ne_hardlink (e : Entry) : e.member.type ≠ .hardlink := by
  unfold member
  split <;> simp

theorem FileTree.take_directory (t : FileTree) (he : e ∈ t.entries) (hpos : 0 < n)
    (hn : n < e.path.length) : ∃ d ∈ t.entries, d.path = e.path.take n ∧ d.node = .directory := by
  -- up one directory at a time
  induction hk : e.path.length - n generalizing e with
  | zero => omega
  | succ k ih =>
    have hlen : e.path.dropLast.length = e.path.length - 1 := length_dropLast
    obtain ⟨d, hd, hpath, hdir⟩ := t.parents e he fun hnil => by
      rw [hnil] at hlen
      simp only [length_nil] at hlen
      omega
    by_cases hlast : n = e.path.length - 1
    · exact ⟨d, hd, by rw [hpath, hlast, dropLast_eq_take], hdir⟩
    · have hdlen : d.path.length = e.path.length - 1 := by rw [hpath, hlen]
      obtain ⟨d', hd', hpath', hdir'⟩ := ih hd (by omega) (by omega)
      refine ⟨d', hd', ?_, hdir'⟩
      rw [hpath', hpath, dropLast_eq_take, take_take, Nat.min_eq_left (by omega)]

theorem Packs.path {t : FileTree} (h : Packs t.entries e m) (he : e ∈ t.entries) :
    m.path = ⟨"", e.path⟩ := by
  cases h with
  | first => rw [Member.path, e.member_name, parse_tarName (t.names e he)]
  | again => rw [Member.path, parse_tarName (t.names e he)]

theorem Packs.isLink (h : Packs es e m) (hlink : m.isLink = true) : e.node ≠ .directory := by
  cases h with
  | first => exact Entry.member_isLink hlink
  | again _ hnd => exact hnd

theorem Packs.sound {t : FileTree} (h : Packs t.entries e m) (he : e ∈ t.entries)
    (hadm : Admissible v e) : Sound v m := by
  have hinside : ∀ {f : Entry}, f ∈ t.entries → ".." ∉ f.path := fun hf hmem =>
    (t.names _ hf _ hmem).2.2.1 rfl
  have hpath := h.path he
  refine ⟨by rw [hpath], ?_, ?_, ?_, fun ht => ?_⟩
  · rw [hpath]
    exact hinside he
  · rw [hpath]
    exact hadm.1
  · cases h with
    | first => exact e.member_supported.mpr hadm.2
    | again => rfl
  · cases h with
    | first => exact absurd ht e.member_ne_hardlink
    | again hf =>
      rw [parse_tarName (t.names _ hf)]
      exact ⟨rfl, hinside hf⟩

theorem pack_root : (⟨".", .directory, "", none⟩ : Member).path = ⟨"", []⟩ := by decide

theorem mem_pack (hm : m ∈ pack es) : m = ⟨".", .directory, "", none⟩ ∨ ∃ e ∈ es, Packs es e m := by
  rcases mem_cons.mp hm with rfl | hm
  · exact .inl rfl
  · obtain ⟨e, he, rfl⟩ := mem_map.mp hm
    exact .inr ⟨e, he, packed_packs es e⟩

theorem map_path_pack (t : FileTree) :
    (pack t.entries).map Member.path = ⟨"", []⟩ :: t.entries.map fun e => ⟨"", e.path⟩ := by
  rw [pack, map_cons, pack_root, map_map]
  exact congrArg _ (map_congr_left fun e he => (packed_packs _ e).path he)

/-- A volume passes the check of its archive if it has no reserved name and no special file. -/
theorem checkArchive_pack (v : VolumeName) (t : FileTree) :
    checkArchive v (pack t.entries) = .ok () ↔ ∀ e ∈ t.entries, Admissible v e := by
  rw [checkArchive_eq_ok]
  constructor
  · rintro ⟨hsound, -, -⟩ e he
    have hsound' : ∀ f ∈ t.entries, Sound v (packed t.entries f) := fun f hf =>
      hsound _ (mem_cons_of_mem _ (mem_map_of_mem hf))
    refine ⟨?_, ?_⟩
    · have hfree := (hsound' e he).free
      rwa [(packed_packs _ e).path he] at hfree
    · obtain ⟨f, hf, hinode, hfirst⟩ := exists_first he
      have hsup := (hsound' f hf).supported
      rwa [hfirst, f.member_supported, t.shared f hf e he hinode] at hsup
  · intro hadm
    refine ⟨fun m hm => ?_, ?_, fun m hm l hl hlink hparent => ?_⟩
    · rcases mem_pack hm with rfl | ⟨e, he, hpack⟩
      · exact ⟨by decide, by decide, by decide, by rfl, fun h => nomatch h⟩
      · exact hpack.sound he (hadm e he)
    · rw [map_path_pack, nodup_cons]
      refine ⟨fun hmem => ?_, ?_⟩
      · obtain ⟨e, he, heq⟩ := mem_map.mp hmem
        exact t.path_ne e he (congrArg PurePosixPath.parts heq)
      · have hnodup := t.nodup.map (f := fun p => (⟨"", p⟩ : PurePosixPath)) fun _ _ h =>
          congrArg PurePosixPath.parts h
        rwa [map_map] at hnodup
    · rcases mem_pack hl with rfl | ⟨f, hf, hl⟩
      · cases hlink
      rcases mem_pack hm with rfl | ⟨e, he, hm⟩
      · rw [pack_root] at hparent
        cases hparent
      rw [hl.path hf, hm.path he] at hparent
      obtain ⟨n, hn, heq⟩ := mem_map.mp hparent
      have hn := mem_range.mp hn
      have heq : e.path.take n = f.path := congrArg PurePosixPath.parts heq
      have hpos : 0 < n := Nat.pos_of_ne_zero fun h0 => t.path_ne f hf (by rw [← heq, h0]; rfl)
      obtain ⟨d, hd, hpath, hdir⟩ := t.take_directory he hpos hn
      have hsame : d = f := inj_on_of_nodup_map t.nodup hd hf (hpath.trans heq)
      exact hl.isLink hlink (hsame ▸ hdir)

end Rumahl.Host
