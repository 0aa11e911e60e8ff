import Rumahl.Effect.Faults
import Rumahl.Host.Archive

/-!
# What the recovery broker works on

The managed volumes, the broker's own store with its backups, and the services of the machine, with
the calls that the broker makes on them (`device`). Every call can fail after a part of its effect,
and the process can stop at any of them.
-/

namespace Rumahl.Host

open Effect

/-! ## Volumes -/

structure Volume where
  /-- The root is a directory and no link. -/
  available : Bool := true
  /-- Something else is mounted below the root. -/
  nested : Bool := false
  entries : List Entry := []

inductive VolumeCall where
  | status
  | look (p : List String)
  | list (p : List String)
  | mkdir (p : List String)
  | rename (p q : List String)
  | rmdir (p : List String)
  | rmtree (p : List String)
  | unlink (p : List String)
  | openWrite (p : List String)
  | write (p : List String) (data : FileData)
  /-- Modes, owners and what is flushed are not kept, but such a call can fail. -/
  | touch (p : List String)
  | archive
  | extract (p : List String) (members : Archive)
  | tables (p : List String)
  | clear (p : List String) (names : List String)
  deriving DecidableEq

structure VolumeStatus where
  available : Bool
  nested : Bool

@[reducible] def VolumeCall.Result : VolumeCall → Type
  | .status => VolumeStatus
  | .look _ => Option Node
  | .list _ | .tables _ => List String
  | .archive => Archive
  | _ => Unit

namespace Entries

def find (p : List String) (es : List Entry) : Option Entry := es.find? fun e => e.path = p

/-- Nothing below the path or at it. -/
def remove (p : List String) (es : List Entry) : List Entry :=
  es.filter fun e => ¬p.isPrefixOf e.path

/-- The path and all below it under another name. -/
def move (p q : List String) (es : List Entry) : List Entry :=
  es.map fun e => if p.isPrefixOf e.path then { e with path := q ++ e.path.drop p.length } else e

/-- The names in a directory. -/
def children (p : List String) (es : List Entry) : List String :=
  es.filterMap fun e => if e.path.dropLast = p then e.path.getLast? else none

/-- The entry after a file was written: its content is that of its inode. -/
def overwrite (inode : Nat) (data : FileData) (e : Entry) : Entry :=
  match e.node with
  | .file _ => if e.inode = inode then { e with node := .file data } else e
  | _ => e

def setData (inode : Nat) (data : FileData) (es : List Entry) : List Entry :=
  es.map (overwrite inode data)

def fresh (es : List Entry) : Nat := es.foldr (fun e n => max (e.inode + 1) n) 0

def isDirectory (p : List String) (es : List Entry) : Bool :=
  p = [] ∨ ((find p es).any fun e => e.node = .directory) = true

/-- The proper parts of a path that name a directory above it. -/
def above (path : List String) : List (List String) :=
  ((List.range path.length).map path.take).filter fun p => p ≠ []

/-- The directories above a path that are not there, with inodes from `n` on. -/
def implied (n : Nat) (es : List Entry) (path : List String) : List Entry :=
  ((above path).filter fun p => find p es = none).zipIdx.map fun p => ⟨p.1, n + p.2, .directory⟩

/-- What a member becomes, if it is no link to another one. -/
def node (m : Member) : Node :=
  match m.type with
  | .directory => .directory
  | .file | .hardlink => .file (m.data.getD (.bytes ""))
  | .symlink => .symlink m.linkname
  | .fifo => .fifo
  | .character major minor => .character major minor
  | .block => .block

/-- Add an entry for a new path, with the directories above it. -/
def add (base : Nat) (es : List Entry) (path : List String) (entry : Nat → Entry) : List Entry :=
  let n := max base (fresh es)
  es ++ implied n es path ++ [entry (n + (implied n es path).length)]

/-- `tar --extract` into an empty directory, with new inodes from `base` on. A link needs its
target, what is above a member must be a directory, and the member for the directory itself makes no
entry. -/
def unpack (base : Nat) (es : List Entry) : Archive → Option (List Entry)
  | [] => some es
  | m :: ms =>
    if m.path.parts = [] then unpack base es ms
    else if (above m.path.parts).any fun p => (find p es).any fun e => e.node ≠ .directory then none
    else
      match find m.path.parts es with
      | some e => if m.type = .directory ∧ e.node = .directory then unpack base es ms else none
      | none =>
        if m.type = .hardlink then
          match find (PurePosixPath.parse m.linkname).parts es with
          | some f =>
            if f.node = .directory then none
            else unpack base (add base es m.path.parts fun _ => ⟨m.path.parts, f.inode, f.node⟩) ms
          | none => none
        else unpack base (add base es m.path.parts fun n => ⟨m.path.parts, n, node m⟩) ms

/-- What is put below a directory. -/
def below (p : List String) (es : List Entry) : List Entry :=
  es.map fun e => { e with path := p ++ e.path }

/-- The tables of a database; an empty file is one. -/
def tables : FileData → Option (List (String × List String))
  | .database tables => some tables
  | .bytes "" => some []
  | _ => none

/-- The database without the rows of some tables. -/
def cleared (names : List String) : FileData → FileData
  | .database tables => .database (tables.map fun t => if t.1 ∈ names then (t.1, []) else t)
  | data => data

/-- The paths of the journal files of a database. -/
def journals (p : List String) : List (List String) :=
  ["-wal", "-shm", "-journal"].map fun suffix =>
    p.dropLast ++ [p.getLast?.getD "" ++ suffix]

/-- A path of a journal file, or below one. -/
def underJournal (p path : List String) : Bool := (journals p).any fun j => j.isPrefixOf path

/-- The entries after a database was changed; its journal files are what is left. -/
def setDatabase (e : Entry) (data : FileData) (left es : List Entry) : List Entry :=
  (setData e.inode data es).filter (fun f => ¬underJournal e.path f.path) ++
    left.filter fun f => f.path ∈ journals e.path

end Entries

open Entries

/-- What a call does; `left` is what it leaves in journal files. -/
def VolumeCall.apply (left : List Entry) (w : Volume) :
    (c : VolumeCall) → Except BrokerError (c.Result × Volume)
  | .status => .ok (⟨w.available, w.nested⟩, w)
  | .look p => .ok ((find p w.entries).map Entry.node, w)
  | .list p =>
    if isDirectory p w.entries then .ok (children p w.entries, w)
    else .error ⟨"FileNotFoundError", ""⟩
  | .mkdir p =>
    if (find p w.entries).isSome then .error ⟨"FileExistsError", ""⟩
    else if isDirectory p.dropLast w.entries then
      .ok ((), { w with entries := w.entries ++ [⟨p, fresh w.entries, .directory⟩] })
    else .error ⟨"FileNotFoundError", ""⟩
  | .rename p q =>
    if (find p w.entries).isNone then .error ⟨"FileNotFoundError", ""⟩
    else if isDirectory q w.entries ∨ ¬isDirectory q.dropLast w.entries then .error ⟨"OSError", ""⟩
    else .ok ((), { w with entries := move p q (remove q w.entries) })
  | .rmdir p =>
    if isDirectory p w.entries ∧ children p w.entries = [] then
      .ok ((), { w with entries := remove p w.entries })
    else .error ⟨"OSError", ""⟩
  | .rmtree p =>
    if isDirectory p w.entries then .ok ((), { w with entries := remove p w.entries })
    else .error ⟨"FileNotFoundError", ""⟩
  | .unlink p =>
    match find p w.entries with
    | some e =>
      if e.node = .directory then .error ⟨"IsADirectoryError", ""⟩
      else .ok ((), { w with entries := remove p w.entries })
    | none => .error ⟨"FileNotFoundError", ""⟩
  | .openWrite p =>
    match find p w.entries with
    | some e =>
      match e.node with
      | .file _ => .ok ((), { w with entries := setData e.inode (.bytes "") w.entries })
      -- the link is followed, and what it leads to is not kept: the results about what is written
      -- here are for files that are no links
      | .symlink _ => .ok ((), w)
      | _ => .error ⟨"IsADirectoryError", ""⟩
    | none =>
      if isDirectory p.dropLast w.entries then
        .ok ((), { w with entries := w.entries ++ [⟨p, fresh w.entries, .file (.bytes "")⟩] })
      else .error ⟨"FileNotFoundError", ""⟩
  | .write p data =>
    match find p w.entries with
    | some e => .ok ((), { w with entries := setData e.inode data w.entries })
    | none => .ok ((), w)
  | .touch _ => .ok ((), w)
  | .archive => .ok (pack w.entries, w)
  | .extract p members =>
    match unpack (fresh w.entries) [] members with
    | some es => .ok ((), { w with entries := w.entries ++ below p es })
    | none => .error ⟨"CalledProcessError", ""⟩
  | .tables p =>
    match (find p w.entries).map Entry.node with
    | some (.file data) =>
      match Entries.tables data with
      | some content => .ok (content.map Prod.fst, w)
      | none => .error ⟨"DatabaseError", ""⟩
    | _ => .error ⟨"OperationalError", ""⟩
  | .clear p names =>
    match find p w.entries with
    | some e =>
      match e.node with
      | .file data =>
        match Entries.tables data with
        | some _ =>
          .ok ((), { w with entries := setDatabase e (cleared names data) left w.entries })
        | none => .error ⟨"DatabaseError", ""⟩
      | _ => .error ⟨"OperationalError", ""⟩
    | none => .error ⟨"OperationalError", ""⟩

/-! ## The store of the broker -/

structure Manifest where
  version : Nat
  id : String
  at_ : Nat
  binding : List (String × String)
  volumes : List (VolumeName × String)
  deriving DecidableEq

structure Backup where
  manifest : Option Manifest := none
  archives : List (VolumeName × Archive) := []

def Backup.addArchive (v : VolumeName) (archive : Archive) (b : Backup) : Backup :=
  { b with archives := (v, archive) :: b.archives }

def Backup.setManifest (manifest : Manifest) (b : Backup) : Backup :=
  { b with manifest := some manifest }

inductive Action where
  | backup
  | restore (backupId : String)
  | reboot (safeMode : Bool)
  | fsck | reset | reinstall | rollback | poweroff
  deriving DecidableEq

inductive JobState where
  | running | complete | failed
  deriving DecidableEq

structure JobStatus where
  action : Action
  state : JobState
  at_ : Nat
  error : Option String := none
  deriving DecidableEq

structure Store where
  /-- `restore-pending.json` is there. -/
  pending : Bool := false
  job : Option JobStatus := none
  safeMode : Bool := false
  lastRestore : Option String := none
  /-- The directories of backups, by name, in the order in which they were made. -/
  backups : List (String × Backup) := []
  /-- The order in which the file system lists names; those that are not in it come last. -/
  order : List String := []
  keep : Nat := 3

inductive StoreCall where
  | setPending (backupId : String)
  | clearPending
  | pendingExists
  | putJob (status : JobStatus)
  | setSafeMode (enabled : Bool)
  | putLastRestore (backupId : String)
  | names
  | makeDirectory (name : String)
  | putArchive (name : String) (v : VolumeName) (archive : Archive)
  | readArchive (name : String) (v : VolumeName)
  | digest (name : String) (v : VolumeName)
  | putManifest (name : String) (manifest : Manifest)
  | readManifest (name : String)
  | rename (name target : String)
  | remove (name : String)
  | loadSchedule
  deriving DecidableEq

@[reducible] def StoreCall.Result : StoreCall → Type
  | .pendingExists => Bool
  | .names => List String
  | .readArchive .. => Archive
  | .digest .. => String
  | .readManifest _ => Manifest
  | .loadSchedule => Nat
  | _ => Unit

namespace Store

def find (name : String) : List (String × Backup) → Option Backup
  | [] => none
  | b :: backups => if b.1 = name then some b.2 else find name backups

def update (name : String) (f : Backup → Backup) (backups : List (String × Backup)) :
    List (String × Backup) :=
  backups.map fun b => if b.1 = name then (b.1, f b.2) else b

def rename (name target : String) (backups : List (String × Backup)) : List (String × Backup) :=
  backups.map fun b => if b.1 = name then (target, b.2) else b

/-- The names as they are listed. -/
def arrange (order names : List String) : List String :=
  (order.dedup.filter fun name => name ∈ names) ++ names.filter fun name => name ∉ order

def archive? (v : VolumeName) : List (VolumeName × Archive) → Option Archive
  | [] => none
  | a :: archives => if a.1 = v then some a.2 else archive? v archives

end Store

def StoreCall.apply (sha256 : Archive → String) (s : Store) :
    (c : StoreCall) → Except BrokerError (c.Result × Store)
  | .setPending _ => .ok ((), { s with pending := true })
  | .clearPending =>
    if s.pending then .ok ((), { s with pending := false }) else .error ⟨"FileNotFoundError", ""⟩
  | .pendingExists => .ok (s.pending, s)
  | .putJob status => .ok ((), { s with job := some status })
  | .setSafeMode enabled => .ok ((), { s with safeMode := enabled })
  | .putLastRestore id => .ok ((), { s with lastRestore := some id })
  | .names => .ok (Store.arrange s.order (s.backups.map Prod.fst), s)
  | .makeDirectory name =>
    if (Store.find name s.backups).isSome then .error ⟨"FileExistsError", ""⟩
    else .ok ((), { s with backups := s.backups ++ [(name, {})] })
  | .putArchive name v archive =>
    if (Store.find name s.backups).isSome then
      .ok ((), { s with backups := Store.update name (Backup.addArchive v archive) s.backups })
    else .error ⟨"CalledProcessError", ""⟩
  | .readArchive name v =>
    match (Store.find name s.backups).bind fun b => Store.archive? v b.archives with
    | some archive => .ok (archive, s)
    | none => .error ⟨"FileNotFoundError", ""⟩
  | .digest name v =>
    match (Store.find name s.backups).bind fun b => Store.archive? v b.archives with
    | some archive => .ok (sha256 archive, s)
    | none => .error (valueError "backup checksum mismatch")
  | .putManifest name manifest =>
    if (Store.find name s.backups).isSome then
      .ok ((), { s with backups := Store.update name (Backup.setManifest manifest) s.backups })
    else .error ⟨"FileNotFoundError", ""⟩
  | .readManifest name =>
    match (Store.find name s.backups).bind Backup.manifest with
    | some manifest => .ok (manifest, s)
    | none => .error ⟨"FileNotFoundError", ""⟩
  | .rename name target =>
    if (Store.find name s.backups).isNone then .error ⟨"FileNotFoundError", ""⟩
    else if (Store.find target s.backups).isSome then .error ⟨"OSError", ""⟩
    else .ok ((), { s with backups := Store.rename name target s.backups })
  | .remove name => .ok ((), { s with backups := s.backups.filter fun b => b.1 ≠ name })
  | .loadSchedule => .ok (s.keep, s)

/-! ## The system -/

/-- The services that write to the volumes, in the order of `UNITS`. -/
inductive ServiceUnit where
  | platform | shell | supervisor | docker | dockerSocket
  deriving DecidableEq

def ServiceUnit.all : List ServiceUnit := [platform, shell, supervisor, docker, dockerSocket]

/-- The units that are stopped before the containers. -/
def ServiceUnit.front : List ServiceUnit := [platform, shell, supervisor]

def ServiceUnit.engine : List ServiceUnit := [docker, dockerSocket]

inductive SystemCall where
  | binding
  | active
  | stop (units : List ServiceUnit)
  | start (units : List ServiceUnit)
  | containers
  | stopContainer (id : String)
  | reboot | poweroff
  | sync
  /-- The table of mounts, from which `fsck_report` starts. -/
  | mounts
  deriving DecidableEq

@[reducible] def SystemCall.Result : SystemCall → Type
  | .binding => List (String × String)
  | .active => List ServiceUnit
  | .containers => List String
  | _ => Unit

structure System where
  binding : List (String × String) := []
  running : List ServiceUnit := []
  containers : List String := []
  halting : Bool := false

def SystemCall.apply (s : System) : (c : SystemCall) → c.Result × System
  | .binding => (s.binding, s)
  | .active => (ServiceUnit.all.filter fun unit => unit ∈ s.running, s)
  | .stop units => ((), { s with running := s.running.filter fun unit => unit ∉ units })
  | .start units =>
    ((), { s with running := s.running ++ units.filter fun unit => unit ∉ s.running })
  | .containers => (if .docker ∈ s.running then s.containers else [], s)
  | .stopContainer id => ((), { s with containers := s.containers.filter fun c => c ≠ id })
  | .reboot | .poweroff => ((), { s with halting := true })
  | .sync | .mounts => ((), s)

/-! ## The machine -/

structure Machine where
  volumes : VolumeName → Volume
  store : Store := {}
  system : System := {}

def Machine.setVolume (h : Machine) (v : VolumeName) (w : Volume) : Machine :=
  { h with volumes := fun v' => if v' = v then w else h.volumes v' }

inductive Call where
  | volume (v : VolumeName) (c : VolumeCall)
  | store (c : StoreCall)
  | system (c : SystemCall)
  deriving DecidableEq

@[reducible] def Call.Result : Call → Type
  | .volume _ c => c.Result
  | .store c => c.Result
  | .system c => c.Result

@[reducible] def Answer (c : Call) : Type := Except BrokerError c.Result

/-- What the program does not decide: the journal files, or the exception of a call that failed and
how much of it was done. -/
structure Chance where
  left : List Entry := []
  exception : String := "OSError"
  progress : Bool := false
  junk : String := ""

instance : Inhabited Chance := ⟨{}⟩

section

variable (sha256 : Archive → String)

def Call.carry (chance : Chance) (h : Machine) : (c : Call) → Answer c × Machine
  | .volume v c =>
    match c.apply chance.left (h.volumes v) with
    | .ok (r, w) => (.ok r, h.setVolume v w)
    | .error e => (.error e, h)
  | .store c =>
    match c.apply sha256 h.store with
    | .ok (r, s) => (.ok r, { h with store := s })
    | .error e => (.error e, h)
  | .system c => (.ok (c.apply h.system).1, { h with system := (c.apply h.system).2 })

/-- What a call on a volume that failed has done: an archive is unpacked, a directory removed or a
file written in part, anything else is done. -/
def VolumeCall.disturb (chance : Chance) (w : Volume) : VolumeCall → Volume
  | .extract p _ => { w with entries := w.entries ++ below p chance.left }
  | .rmtree p =>
    { w with entries := w.entries.filter fun e => ¬p.isPrefixOf e.path ∨ e ∈ chance.left }
  | .write p _ =>
    match VolumeCall.apply chance.left w (.write p (.bytes chance.junk)) with
    | .ok (_, w') => w'
    | .error _ => w
  | c =>
    match c.apply chance.left w with
    | .ok (_, w') => w'
    | .error _ => w

def Call.fail (chance : Chance) (h : Machine) : (c : Call) → Answer c × Machine
  | .volume v c =>
    (.error ⟨chance.exception, ""⟩,
      if chance.progress then h.setVolume v (c.disturb chance (h.volumes v)) else h)
  | c => (.error ⟨chance.exception, ""⟩, if chance.progress then (c.carry sha256 chance h).2 else h)

def device : Device Call Answer Chance Machine where
  carry c chance h := c.carry sha256 chance h
  fail c chance h := c.fail sha256 chance h

end

end Rumahl.Host
