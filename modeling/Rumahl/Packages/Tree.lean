import Rumahl.Packages.Signature

/-!
# Package trees

A package is a directory tree. `Listing` is what reading a directory yields, entry by entry, with
the trees of its subdirectories. The walk over the tree (`collectPayloadFiles`) collects the regular
files but for the two documents at the root, and refuses links and special files.

`collectPayloadFiles_eq_ok` says when the walk succeeds and what it finds, in terms of the regular
files of the tree (`Listing.payload`), which are given by the names on the way to them.
-/

open List

namespace Rumahl

def manifestFile : String := "package.json"
def signatureFile : String := "package.sig.json"

theorem manifestFile_ne : manifestFile ≠ "" := by decide

theorem signatureFile_ne : signatureFile ≠ "" := by decide

/-- The name of a directory entry, which is text unless it is not UTF-8. -/
inductive FileName where
  | text (value : String) (nonempty : value ≠ "")
  | nonUtf8 (bytes : List UInt8)

def FileName.display : FileName → String
  | .text value _ => value
  | .nonUtf8 _ => "�"

/-- An entry that is not a directory. Whether it can be read is told apart from what it is; of an
entry in `unknown` not even that can be found out. -/
inductive Leaf (B : Type) where
  | file (content : B) (readable : Bool)
  | symlink
  | special
  | unknown

def Leaf.isFile : Leaf B → Bool
  | .file _ _ => true
  | _ => false

/-- The entries of a directory in the order in which they are read. -/
inductive Listing (B : Type) where
  | nil
  | leaf (name : FileName) (leaf : Leaf B) (rest : Listing B)
  | directory (name : FileName) (entries : Listing B) (readable : Bool) (rest : Listing B)

/-! ## The walk -/

inductive PackageVerificationError where
  | rootIsNotDirectory
  | documentRead (file : String)
  | documentSymlink (file : String)
  | documentNotRegular (file : String)
  | documentTooLarge (file : String)
  | manifest (error : PackageManifestError)
  | signature (error : SignatureEnvelopeError)
  | unknownSigningKey
  | invalidSignature
  | walk (path : String)
  | nonUtf8Name
  | tooManyFiles
  | symlinkRejected (path : String)
  | unsupportedEntry (path : String)
  | unlistedFile (path : String)
  | missingFile (path : String)
  | fileRead (path : String)
  | fileSizeMismatch (path : String) (expected actual : Nat)
  | fileDigestMismatch (path : String)
  deriving DecidableEq

structure FoundFile (B : Type) where
  path : String
  content : B
  readable : Bool

def joinPath (pre name : String) : String := if pre = "" then name else pre ++ "/" ++ name

/-- The loop over the entries of `directory`, whose path below the root is `pre`. -/
def collectEntries (directory pre : String) (found : List (FoundFile B)) :
    Listing B → Except PackageVerificationError (List (FoundFile B))
  | .nil => .ok found
  | .leaf name leaf rest =>
    match name with
    | .nonUtf8 _ => .error .nonUtf8Name
    | .text name _ =>
      match leaf with
      | .unknown => .error (.walk (joinPath pre name))
      | .symlink => .error (.symlinkRejected (joinPath pre name))
      | .special => .error (.unsupportedEntry (joinPath pre name))
      | .file content readable =>
        if pre = "" ∧ (name = manifestFile ∨ name = signatureFile) then
          collectEntries directory pre found rest
        else if maxFiles ≤ found.length then .error .tooManyFiles
        else collectEntries directory pre (found ++ [⟨joinPath pre name, content, readable⟩]) rest
  | .directory name entries readable rest =>
    match name with
    | .nonUtf8 _ => .error .nonUtf8Name
    | .text name _ =>
      if maxFiles < found.length then .error .tooManyFiles
      else if !readable then .error (.walk (directory ++ "/" ++ name))
      else do
        let found ← collectEntries (directory ++ "/" ++ name) (joinPath pre name) found entries
        collectEntries directory pre found rest

/-- The walk from a root that can be read or not; nothing has been found yet. -/
def collectPayloadFiles (root : String) (entries : Listing B) (readable : Bool) :
    Except PackageVerificationError (List (FoundFile B)) :=
  if !readable then .error (.walk root) else collectEntries root "" [] entries

/-! ## What the tree contains -/

/-- A regular file, by the names on the way to it. -/
structure RegularFile (B : Type) where
  path : List FileName
  content : B
  readable : Bool

/-- The path of a file as text. -/
def pathText (path : List FileName) : String :=
  path.foldl (fun pre name => joinPath pre name.display) ""

namespace Listing

/-- The regular files below a directory, whose own path is `parents`. -/
def regularFiles (parents : List FileName) : Listing B → List (RegularFile B)
  | .nil => []
  | .leaf name entry rest =>
    match entry with
    | .file content readable =>
      ⟨parents ++ [name], content, readable⟩ :: rest.regularFiles parents
    | _ => rest.regularFiles parents
  | .directory name entries _ rest =>
    entries.regularFiles (parents ++ [name]) ++ rest.regularFiles parents

/-- The entries of the tree that are no directories. -/
def leaves : Listing B → List (Leaf B)
  | .nil => []
  | .leaf _ entry rest => entry :: rest.leaves
  | .directory _ entries _ rest => entries.leaves ++ rest.leaves

/-- The names are text and every directory can be read. -/
def Legible : Listing B → Prop
  | .nil => True
  | .leaf name _ rest => (∃ value h, name = .text value h) ∧ rest.Legible
  | .directory name entries readable rest =>
    (∃ value h, name = .text value h) ∧ readable = true ∧ entries.Legible ∧ rest.Legible

end Listing

/-- A document of the package, at the root. -/
def isDocument (path : List FileName) : Bool :=
  match path with
  | [.text name _] => name = manifestFile ∨ name = signatureFile
  | _ => false

/-- The regular files that are not documents. -/
def Listing.payload (l : Listing B) : List (RegularFile B) :=
  (l.regularFiles []).filter fun file => !isDocument file.path

def RegularFile.found (file : RegularFile B) : FoundFile B :=
  ⟨pathText file.path, file.content, file.readable⟩

/-! ## What the walk finds -/

theorem joinPath_ne (h : name ≠ "") : joinPath pre name ≠ "" := by
  rw [joinPath]
  split
  · exact h
  · next hpre =>
    intro he
    have := congrArg String.toList he
    simp at this

theorem pathText_append (path : List FileName) (name : FileName) :
    pathText (path ++ [name]) = joinPath (pathText path) name.display := by
  rw [pathText, foldl_append]
  rfl

theorem FileName.display_ne (name : FileName) : name.display ≠ "" := by
  cases name with
  | text value h => exact h
  | nonUtf8 bytes => exact (by decide : "�" ≠ "")

theorem pathText_eq_empty : pathText path = "" ↔ path = [] := by
  constructor
  · intro h
    rcases path.eq_nil_or_concat with rfl | ⟨parents, name, rfl⟩
    · rfl
    · rw [concat_eq_append, pathText_append] at h
      exact absurd h (joinPath_ne name.display_ne)
  · rintro rfl
    rfl

/-- Files at the root under the names of the documents are the documents. -/
theorem isDocument_append (parents : List FileName) (h : name ≠ "") :
    isDocument (parents ++ [.text name h]) = true ↔
      pathText parents = "" ∧ (name = manifestFile ∨ name = signatureFile) := by
  rw [pathText_eq_empty]
  cases parents with
  | nil => simp [isDocument]
  | cons parent parents => simp [isDocument]

/-- The regular files below a directory that the walk keeps. -/
def Listing.kept (parents : List FileName) (l : Listing B) : List (FoundFile B) :=
  ((l.regularFiles parents).filter fun file => !isDocument file.path).map RegularFile.found

namespace Listing

variable {parents : List FileName} {rest entries : Listing B}

theorem kept_file : (Listing.leaf (.text name h) (.file content readable) rest).kept parents =
      (if pathText parents = "" ∧ (name = manifestFile ∨ name = signatureFile) then []
        else [⟨joinPath (pathText parents) name, content, readable⟩]) ++ rest.kept parents := by
  rw [kept, regularFiles, filter_cons]
  split
  · next hdoc =>
    rw [if_neg fun h' => by simp [(isDocument_append parents h).mpr h'] at hdoc]
    rw [map_cons, RegularFile.found, pathText_append]
    rfl
  · next hdoc =>
    rw [if_pos ((isDocument_append parents h).mp (by simpa using hdoc))]
    rfl

theorem kept_directory : (Listing.directory name entries readable rest).kept parents =
      entries.kept (parents ++ [name]) ++ rest.kept parents := by
  rw [kept, regularFiles, filter_append, map_append]
  rfl

end Listing

/-- The loop succeeds on legible trees of regular files that are not too many, and finds those it
keeps. -/
theorem collectEntries_eq_ok {found : List (FoundFile B)} (hfound : found.length ≤ maxFiles) :
    collectEntries directory (pathText parents) found l = .ok found' ↔
      l.Legible ∧ (∀ leaf ∈ l.leaves, leaf.isFile = true) ∧
        (found ++ l.kept parents).length ≤ maxFiles ∧ found' = found ++ l.kept parents := by
  induction l generalizing directory parents found found' with
  | nil =>
    have hkept : (Listing.nil : Listing B).kept parents = [] := rfl
    rw [collectEntries, hkept, append_nil]
    constructor
    · intro h
      exact ⟨trivial, fun _ h => (nomatch h), hfound, (Except.ok.inj h).symm⟩
    · rintro ⟨-, -, -, rfl⟩
      rfl
  | leaf name leaf rest ih =>
    cases name with
    | nonUtf8 bytes => simp [collectEntries, Listing.Legible]
    | text name h =>
      cases leaf with
      | unknown => simp [collectEntries, Listing.leaves, Leaf.isFile]
      | symlink => simp [collectEntries, Listing.leaves, Leaf.isFile]
      | special => simp [collectEntries, Listing.leaves, Leaf.isFile]
      | file content readable =>
        have hlegible : (Listing.leaf (.text name h) (.file content readable) rest).Legible ↔
            rest.Legible := by
          simp [Listing.Legible, h]
        have hleaves : (∀ leaf ∈ (Listing.leaf (.text name h) (.file content readable) rest).leaves,
            leaf.isFile = true) ↔ ∀ leaf ∈ rest.leaves, leaf.isFile = true := by
          simp [Listing.leaves, Leaf.isFile]
        rw [hlegible, hleaves, Listing.kept_file, collectEntries]
        split
        · rw [nil_append]
          exact ih hfound
        · split
          · next hmax =>
            refine ⟨(nomatch ·), fun ⟨_, _, hlen, _⟩ => ?_⟩
            simp only [length_append, length_cons, length_nil] at hlen
            omega
          · next hmax =>
            rw [← append_assoc]
            apply ih
            rw [length_append, length_singleton]
            omega
  | directory name entries readable rest ihentries ihrest =>
    cases name with
    | nonUtf8 bytes => simp [collectEntries, Listing.Legible]
    | text name h =>
      cases readable with
      | false => simp [collectEntries, Listing.Legible, Nat.not_lt.mpr hfound]
      | true =>
        have hlegible : (Listing.directory (.text name h) entries true rest).Legible ↔
            entries.Legible ∧ rest.Legible := by
          simp [Listing.Legible, h]
        have hpath : joinPath (pathText parents) name = pathText (parents ++ [.text name h]) := by
          rw [pathText_append]
          rfl
        rw [hlegible, Listing.kept_directory, Listing.leaves, forall_mem_append, collectEntries]
        rw [if_neg (Nat.not_lt.mpr hfound), if_neg (by decide), Except.bind_eq_ok, hpath]
        constructor
        · rintro ⟨found1, hentries, hrest⟩
          obtain ⟨hl, hfiles, hlen, rfl⟩ := (ihentries hfound).mp hentries
          obtain ⟨hl', hfiles', hlen', rfl⟩ := (ihrest hlen).mp hrest
          rw [append_assoc] at hlen' ⊢
          exact ⟨⟨hl, hl'⟩, ⟨hfiles, hfiles'⟩, hlen', rfl⟩
        · rintro ⟨⟨hl, hl'⟩, ⟨hfiles, hfiles'⟩, hlen, rfl⟩
          rw [← append_assoc] at hlen ⊢
          have hlen1 : (found ++ entries.kept (parents ++ [.text name h])).length ≤ maxFiles := by
            rw [length_append] at hlen
            omega
          exact ⟨_, (ihentries hfound).mpr ⟨hl, hfiles, hlen1, rfl⟩,
            (ihrest hlen1).mpr ⟨hl', hfiles', hlen, rfl⟩⟩

theorem collectPayloadFiles_eq_ok : collectPayloadFiles root entries readable = .ok found ↔
      readable = true ∧ entries.Legible ∧ (∀ leaf ∈ entries.leaves, leaf.isFile = true) ∧
        entries.payload.length ≤ maxFiles ∧ found = entries.payload.map RegularFile.found := by
  cases readable with
  | false => exact ⟨(nomatch ·), fun h => nomatch h.1⟩
  | true =>
    have hloop : collectEntries root (pathText []) [] entries = .ok found ↔ _ :=
      collectEntries_eq_ok (Nat.zero_le _)
    rw [nil_append, Listing.kept, length_map] at hloop
    exact hloop.trans ⟨fun h => ⟨rfl, h⟩, fun h => h.2⟩

end Rumahl
