import Mathlib

/-!
# The report on the mounted file systems

`mounted_devices` reads the block devices out of the kernel's mount table and `fsck_report` makes
one entry for each. The table is told apart at the characters that Python's `splitlines` and `split`
take for line breaks and blanks. The third field of a line is the device *number*, and this is the
one that is taken for the device, so the report leaves out every device there is. Only what follows
a line break inside of a field can be taken for a device (`report_complete_iff`).
-/

namespace Rumahl.Host

open List

abbrev Text := List Char

def isBreak (c : Char) : Bool :=
  c.toNat ∈ [0x0a, 0x0b, 0x0c, 0x0d, 0x1c, 0x1d, 0x1e, 0x85, 0x2028, 0x2029]

def isBlank (c : Char) : Bool :=
  isBreak c || c.toNat ∈ [0x09, 0x1f, 0x20, 0xa0, 0x1680, 0x202f, 0x205f, 0x3000] ||
    0x2000 ≤ c.toNat && c.toNat ≤ 0x200a

/-- The lines of a text, with empty ones where two breaks follow each other: these have no
fields. -/
def splitlines (text : Text) : List Text := text.splitOnP isBreak

def split (line : Text) : List Text := (line.splitOnP isBlank).filter (· ≠ [])

def isOctal (c : Char) : Bool := '0' ≤ c && c ≤ '7'

def octal (c : Char) : Nat := c.toNat - '0'.toNat

/-- Puts a character in the place of each backslash with three octal digits. -/
def unescape : Text → Text
  | '\\' :: a :: b :: c :: rest =>
    if isOctal a && isOctal b && isOctal c then
      Char.ofNat (octal a * 64 + octal b * 8 + octal c) :: unescape rest
    else '\\' :: unescape (a :: b :: c :: rest)
  | c :: rest => c :: unescape rest
  | [] => []

def devDirectory : Text := "/dev/".toList

/-- The mount points of each device, the devices in the order of their first lines. -/
abbrev Mounted := List (Text × List Text)

/-- `result.setdefault(device, []).append(mount)` -/
def appendMount (device mount : Text) : Mounted → Mounted
  | [] => [(device, [mount])]
  | (d, mounts) :: rest =>
    if d = device then (d, mounts ++ [mount]) :: rest
    else (d, mounts) :: appendMount device mount rest

def addMount (result : Mounted) (line : Text) : Mounted :=
  match split line with
  | _ :: _ :: device :: _ :: mount :: _ =>
    if devDirectory.isPrefixOf device then appendMount device (unescape mount) result else result
  | _ => result

def mountedDevices (text : Text) : Mounted := (splitlines text).foldl addMount []

inductive FsckState where
  | mounted | checked | unavailable
  deriving DecidableEq

structure FsckEntry where
  device : Text
  state : FsckState
  ok : Option Bool
  detail : Option Text
  deriving DecidableEq

/-- What running `fsck -n -f` on a device came to. -/
inductive FsckRun where
  | passed (output : Text)
  | failed (output : Text)
  | unavailable

def sortTexts (texts : List Text) : List Text := texts.mergeSort fun a b => !decide (b < a)

def fsckEntry (command : Text → FsckRun) (item : Text × List Text) : FsckEntry :=
  let (device, mounts) := item
  let tail (output : Text) := output.drop (output.length - 2000)
  if mounts.any fun mount => mount ≠ "none".toList && mount ≠ [] then
    ⟨device, .mounted, none, some (", ".toList.intercalate (sortTexts mounts.dedup))⟩
  else match command device with
    | .passed output => ⟨device, .checked, some true, some (tail output)⟩
    | .failed output => ⟨device, .checked, some false, some (tail output)⟩
    | .unavailable => ⟨device, .unavailable, none, none⟩

/-- The keys of a dictionary are distinct, so its items are sorted by them. -/
def fsckReport (command : Text → FsckRun) (text : Text) : List FsckEntry :=
  ((mountedDevices text).mergeSort fun a b => !decide (b.1 < a.1)).map (fsckEntry command)

/-! ## The kernel's format -/

/-- A field of a line: the kernel escapes blanks, tabs and line feeds. -/
def Field := { w : Text // w ≠ [] ∧ w.any (· ∈ [' ', '\t', '\n']) = false }

structure MountLine where
  mountId : Nat
  parentId : Nat
  major : Nat
  minor : Nat
  root : Field
  mountPoint : Field
  options : Field
  optionalFields : List { f : Field // f.1 ≠ ['-'] }
  fsType : Field
  source : Field
  superOptions : Field

namespace MountLine

def deviceNumber (l : MountLine) : Text := Nat.toDigits 10 l.major ++ ':' :: Nat.toDigits 10 l.minor

def fields (l : MountLine) : List Text :=
  Nat.toDigits 10 l.mountId :: Nat.toDigits 10 l.parentId :: l.deviceNumber :: l.root.1 ::
    l.mountPoint.1 :: l.options.1 ::
      (l.optionalFields.map (·.1.1) ++ [['-'], l.fsType.1, l.source.1, l.superOptions.1])

def render (l : MountLine) : Text := [' '].intercalate l.fields

end MountLine

def mountinfo (lines : List MountLine) : Text := lines.flatMap fun l => l.render ++ ['\n']

/-- Every source below `/dev/` is mapped to the mount points of its lines and has one entry in the
report. -/
structure ReportComplete (command : Text → FsckRun) (lines : List MountLine) : Prop where
  mounts : ∀ device, devDirectory <+: device →
    ((mountedDevices (mountinfo lines)).lookup device).getD [] =
      (lines.filter (·.source.1 = device)).map (unescape ·.mountPoint.1)
  entries : ∀ device, ((fsckReport command (mountinfo lines)).filter (·.device = device)).length =
    if devDirectory <+: device ∧ ∃ l ∈ lines, l.source.1 = device then 1 else 0

/-! ## What is read -/

/-- The device and the mount point that are read from a line. -/
def mountOf (line : Text) : Option (Text × Text) :=
  match split line with
  | _ :: _ :: device :: _ :: mount :: _ =>
    if devDirectory.isPrefixOf device then some (device, unescape mount) else none
  | _ => none

/-- What is read from a line of the table after a character that Python takes for a line break; the
kernel escapes the line feed only. -/
def MountLine.strays (l : MountLine) : List (Text × Text) :=
  (splitlines l.render).tail.filterMap mountOf

def collect (ps : List (Text × Text)) (r : Mounted) : Mounted :=
  ps.foldl (fun r p => appendMount p.1 p.2 r) r

theorem mountOf_dev (h : mountOf line = some p) : devDirectory <+: p.1 := by
  unfold mountOf at h
  split at h
  · split at h <;> cases h
    exact isPrefixOf_iff_prefix.mp ‹_›
  · cases h

theorem foldl_addMount (ls : List Text) (r : Mounted) :
    ls.foldl addMount r = collect (ls.filterMap mountOf) r := by
  induction ls generalizing r with
  | nil => rfl
  | cons line ls ih =>
    have hadd : addMount r line = collect ((mountOf line).toList) r := by
      unfold addMount mountOf
      split
      · split <;> rfl
      · rfl
    rw [foldl_cons, ih, hadd, filterMap_cons]
    cases mountOf line <;> rfl

theorem lookup_appendMount {device : Text} (d m : Text) (r : Mounted) :
    ((appendMount d m r).lookup device).getD [] =
      (r.lookup device).getD [] ++ if d = device then [m] else [] := by
  induction r with
  | nil => grind [appendMount]
  | cons item r ih => grind [appendMount]

theorem keys_appendMount (d m : Text) (r : Mounted) : (appendMount d m r).map Prod.fst =
    if d ∈ r.map Prod.fst then r.map Prod.fst else r.map Prod.fst ++ [d] := by
  induction r with
  | nil => rfl
  | cons item r ih => grind [appendMount]

/-- Each device that is read is collected once, with the mount points that are read for it. -/
theorem collect_spec (ps : List (Text × Text)) (r : Mounted) (hr : (r.map Prod.fst).Nodup) :
    ((collect ps r).map Prod.fst).Nodup ∧ (∀ device, device ∈ (collect ps r).map Prod.fst ↔
      device ∈ r.map Prod.fst ∨ device ∈ ps.map Prod.fst) ∧
    ∀ device, ((collect ps r).lookup device).getD [] =
      (r.lookup device).getD [] ++ (ps.filter (·.1 = device)).map Prod.snd := by
  induction ps generalizing r with
  | nil => exact ⟨hr, by simp [collect], by simp [collect]⟩
  | cons p ps ih =>
    have hkeys := keys_appendMount p.1 p.2 r
    obtain ⟨hnodup, hmem, hlookup⟩ := ih (appendMount p.1 p.2 r) (by
      rw [hkeys]
      split
      · exact hr
      · next h => exact (concat_eq_append ..).symm ▸ hr.concat h)
    refine ⟨hnodup, fun device => (hmem device).trans ?_, fun device => (hlookup device).trans ?_⟩
    · rw [hkeys]
      split <;> grind
    · rw [lookup_appendMount, append_assoc, filter_cons]
      by_cases h : p.1 = device <;> simp [h]

theorem isBlank_of_isDigit {c : Char} (h : c.isDigit = true) : isBlank c = false := by
  rw [Char.isDigit, Bool.and_eq_true, decide_eq_true_eq, decide_eq_true_eq] at h
  have hlow : 48 ≤ c.toNat := h.1
  have hhigh : c.toNat ≤ 57 := h.2
  simp [isBlank, isBreak]
  omega

theorem split_append {w : Text} (hne : w ≠ []) (hw : ∀ c ∈ w, isBlank c = false) (rest : Text) :
    split (w ++ ' ' :: rest) = w :: split rest := by
  rw [split, splitOnP_append_cons_of_forall_mem hw ' ' (by decide) rest,
    filter_cons_of_pos (by simpa using hne)]
  rfl

theorem splitOnP_append {p : Char → Bool} (h : ∀ c ∈ pre, p c = false) (rest : Text) :
    (pre ++ rest).splitOnP p = (rest.splitOnP p).modifyHead (pre ++ ·) := by
  induction pre with
  | nil =>
    rw [nil_append]
    cases rest.splitOnP p <;> rfl
  | cons c pre ih =>
    rw [cons_append, splitOnP_cons_eq_if_modifyHead, if_neg (by simp [h c]),
      ih fun c hc => h c (mem_cons_of_mem _ hc), modifyHead_modifyHead]
    rfl

namespace MountLine

theorem toDigits_not_blank (n : Nat) : ∀ c ∈ Nat.toDigits 10 n, isBlank c = false :=
  fun _ hc => isBlank_of_isDigit (Nat.isDigit_of_mem_toDigits (by decide) (by decide) hc)

theorem deviceNumber_not_blank (l : MountLine) : ∀ c ∈ l.deviceNumber, isBlank c = false := by
  intro c hc
  obtain hc | hc := mem_append.mp hc
  · exact toDigits_not_blank _ c hc
  · obtain rfl | hc := mem_cons.mp hc
    · rfl
    · exact toDigits_not_blank _ c hc

theorem deviceNumber_not_dev (l : MountLine) : devDirectory.isPrefixOf l.deviceNumber = false := by
  unfold deviceNumber
  cases hdigits : Nat.toDigits 10 l.major with
  | nil => exact absurd hdigits Nat.toDigits_ne_nil
  | cons c cs =>
    have hdigit : c.isDigit = true :=
      Nat.isDigit_of_mem_toDigits (by decide) (by decide) (hdigits ▸ mem_cons_self)
    have hne : '/' ≠ c := by
      rintro rfl
      exact absurd hdigit (by decide)
    simp [devDirectory, List.isPrefixOf, hne]

/-- The first three fields. -/
def numbers (l : MountLine) : Text :=
  Nat.toDigits 10 l.mountId ++ ' ' ::
    (Nat.toDigits 10 l.parentId ++ ' ' :: (l.deviceNumber ++ [' ']))

theorem render_eq (l : MountLine) : ∃ rest, l.render = l.numbers ++ rest := by
  have hrender : ∃ rest, l.render = Nat.toDigits 10 l.mountId ++ ' ' ::
      (Nat.toDigits 10 l.parentId ++ ' ' :: (l.deviceNumber ++ ' ' :: rest)) := ⟨_, rfl⟩
  obtain ⟨rest, hrender⟩ := hrender
  exact ⟨rest, hrender.trans (by simp [numbers])⟩

theorem numbers_not_break (l : MountLine) : ∀ c ∈ l.numbers, isBreak c = false := by
  have hbreak : ∀ {c}, isBlank c = false → isBreak c = false := by
    intro c h
    simp only [isBlank, Bool.or_eq_false_iff] at h
    exact h.1.1
  simp only [numbers, mem_append, mem_cons]
  rintro c (hc | rfl | hc | rfl | hc | rfl | hc)
  · exact hbreak (toDigits_not_blank _ c hc)
  · rfl
  · exact hbreak (toDigits_not_blank _ c hc)
  · rfl
  · exact hbreak (l.deviceNumber_not_blank c hc)
  · rfl
  · cases hc

theorem mountOf_numbers (l : MountLine) (w : Text) : mountOf (l.numbers ++ w) = none := by
  obtain ⟨rest, hsplit⟩ : ∃ rest, split (l.numbers ++ w) = Nat.toDigits 10 l.mountId ::
      Nat.toDigits 10 l.parentId :: l.deviceNumber :: rest := by
    simp only [numbers, append_assoc, cons_append, nil_append]
    rw [split_append Nat.toDigits_ne_nil (toDigits_not_blank _),
      split_append Nat.toDigits_ne_nil (toDigits_not_blank _),
      split_append (by simp [deviceNumber]) l.deviceNumber_not_blank]
    exact ⟨_, rfl⟩
  unfold mountOf
  split
  next hfields =>
    cases hsplit.symm.trans hfields
    rw [l.deviceNumber_not_dev]
    rfl
  next => rfl

/-- Up to the first break the third field is the number of the device. -/
theorem filterMap_mountOf (l : MountLine) : (splitlines l.render).filterMap mountOf = l.strays := by
  obtain ⟨rest, hrender⟩ := l.render_eq
  rw [strays, splitlines, hrender, splitOnP_append l.numbers_not_break]
  cases h : rest.splitOnP isBreak with
  | nil => exact absurd h (splitOnP_ne_nil _ _)
  | cons w ws => rw [modifyHead_cons, filterMap_cons_none (l.mountOf_numbers w), tail_cons]

end MountLine

theorem mountedDevices_mountinfo (lines : List MountLine) :
    mountedDevices (mountinfo lines) = collect (lines.flatMap MountLine.strays) [] := by
  rw [mountedDevices, foldl_addMount]
  congr 1
  induction lines with
  | nil => rfl
  | cons l lines ih =>
    have hlines : splitlines (mountinfo (l :: lines)) =
        splitlines l.render ++ splitlines (mountinfo lines) := by
      rw [splitlines, splitlines, splitlines, ← splitOnP_append_cons _ _
        (show isBreak '\n' = true from rfl)]
      simp [mountinfo]
    rw [hlines, filterMap_append, l.filterMap_mountOf, ih, flatMap_cons]

theorem length_filter_report (command : Text → FsckRun) (text device : Text) :
    ((fsckReport command text).filter (·.device = device)).length =
      ((mountedDevices text).map Prod.fst).count device := by
  have hdevice : ∀ item, (fsckEntry command item).device = item.1 := by
    rintro ⟨device, mounts⟩
    simp only [fsckEntry]
    split
    · rfl
    · split <;> rfl
  rw [fsckReport, ← countP_eq_length_filter, countP_map, count, countP_map]
  refine (mergeSort_perm ..).countP_congr fun item _ => ?_
  rw [Bool.eq_iff_iff]
  simp [hdevice]

theorem map_filter_eq_nil {device : Text} {f : α → Text} {g : α → β} {xs : List α} :
    (xs.filter (f · = device)).map g = [] ↔ ¬∃ x ∈ xs, f x = device := by
  simp

/-- The report is complete exactly if the right mount points are read after line breaks inside of
fields. Where no device is read there, it is complete only if there is nothing to report. -/
theorem report_complete_iff (command : Text → FsckRun) (lines : List MountLine) :
    (ReportComplete command lines ↔ ∀ device, devDirectory <+: device →
      ((lines.flatMap MountLine.strays).filter (·.1 = device)).map Prod.snd =
        (lines.filter (·.source.1 = device)).map (unescape ·.mountPoint.1)) ∧
    ((∀ l ∈ lines, l.strays = []) →
      (ReportComplete command lines ↔ ∀ l ∈ lines, ¬devDirectory <+: l.source.1)) := by
  obtain ⟨hnodup, hmem, hlookup⟩ := collect_spec (lines.flatMap MountLine.strays) [] nodup_nil
  rw [← mountedDevices_mountinfo] at hnodup hmem hlookup
  have hiff : ReportComplete command lines ↔ ∀ device, devDirectory <+: device →
      ((lines.flatMap MountLine.strays).filter (·.1 = device)).map Prod.snd =
        (lines.filter (·.source.1 = device)).map (unescape ·.mountPoint.1) := by
    refine ⟨fun h device hdev => (hlookup device).symm.trans (h.mounts device hdev),
      fun h => ⟨fun device hdev => (hlookup device).trans (h device hdev), fun device => ?_⟩⟩
    have hread : device ∈ (mountedDevices (mountinfo lines)).map Prod.fst ↔
        devDirectory <+: device ∧ ∃ l ∈ lines, l.source.1 = device := by
      rw [hmem, map_nil, or_iff_right not_mem_nil, mem_map]
      by_cases hdev : devDirectory <+: device
      · rw [and_iff_right hdev, ← not_iff_not, ← map_filter_eq_nil, h device hdev,
          map_filter_eq_nil]
      · refine iff_of_false ?_ fun h => hdev h.1
        rintro ⟨p, hp, rfl⟩
        obtain ⟨l, -, hp⟩ := mem_flatMap.mp hp
        obtain ⟨line, -, hline⟩ := mem_filterMap.mp hp
        exact hdev (mountOf_dev hline)
    rw [length_filter_report, hnodup.count]
    simp only [hread]
  refine ⟨hiff, fun hnone => hiff.trans ?_⟩
  simp only [flatMap_eq_nil_iff.mpr hnone, filter_nil, map_nil, eq_comm (a := []),
    map_filter_eq_nil]
  exact ⟨fun h l hl hdev => h _ hdev ⟨l, hl, rfl⟩, fun h device hdev hl => by
    obtain ⟨l, hl, rfl⟩ := hl
    exact h l hl hdev⟩

/-- `1 0 8:1 / / rw - fsType source rw` -/
def slashMount (fsType source : Field) : MountLine :=
  let slash : Field := ⟨['/'], by decide⟩
  let rw : Field := ⟨['r', 'w'], by decide⟩
  ⟨1, 0, 8, 1, slash, slash, rw, [], fsType, source, rw⟩

def tmpfs : Field := ⟨"tmpfs".toList, by decide +kernel⟩

theorem tmpfs_report_complete : ReportComplete (fun _ => .unavailable) [slashMount tmpfs tmpfs] :=
  ((report_complete_iff _ _).2 (by decide +kernel)).mpr (by decide +kernel)

/-- A partition that is mounted is not found. -/
theorem partition_missing : ¬ReportComplete (fun _ => .unavailable)
    [slashMount ⟨"ext4".toList, by decide +kernel⟩ ⟨"/dev/sda1".toList, by decide +kernel⟩] :=
  fun h => absurd (h.mounts "/dev/sda1".toList (by decide +kernel)) (by decide +kernel)

end Rumahl.Host
