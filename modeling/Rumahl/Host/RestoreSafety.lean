import Rumahl.Host.Backups
import Rumahl.Host.Marker
import Rumahl.Host.Restore

/-!
# What a restore does to the data

Wherever a restore ends, the old data or all of the restored data is there, the marker covers every
change of a volume, and a restore that returns has put exactly the archives in place
(`RestoreSafe`). That holds if the state archive has no `recovery-settings.new`
(`restore_keeps_data`); the broker writes its own file under that name.
-/

namespace Rumahl.Host

open Effect Entries

/-- The state volume after a restore: the archive with the tables emptied, and new settings. -/
structure StateRestored (archive es : List Entry) : Prop where
  entries : ∀ e, ¬IsJournal archive e.path → ¬[settingsName] <+: e.path →
    (e ∈ es ↔ ∃ a ∈ archive, e = clean (databaseInodes archive) a)
  settings : ∃ inode, ∀ e, [settingsName] <+: e.path →
    (e ∈ es ↔ e = ⟨[settingsName], inode, .file restoredSettings⟩)

/-- The content of a volume after a restore. -/
def Restored (v : VolumeName) (archive es : List Entry) : Prop :=
  if v = .state then StateRestored archive es else ∀ e, e ∈ es ↔ e ∈ archive

theorem Restored.congr (h : ∀ e, e ∈ es ↔ e ∈ es') (hr : Restored v archive es') :
    Restored v archive es := by
  unfold Restored at hr ⊢
  split
  · next hv =>
    rw [if_pos hv] at hr
    obtain ⟨inode, hsettings⟩ := hr.settings
    exact ⟨fun e hj hs => (h e).trans (hr.entries e hj hs), inode,
      fun e hs => (h e).trans (hsettings e hs)⟩
  · next hv =>
    rw [if_neg hv] at hr
    exact fun e => (h e).trans (hr e)

/-- The name under which the broker writes the settings is free. -/
def NoTemporary (archive : List Entry) : Prop := ∀ a ∈ archive, a.path ≠ [settingsTemporary]

theorem not_isJournal_temporary : ¬IsJournal archive [settingsTemporary] :=
  not_isJournal_cons (by decide) (by decide) []

/-- The file is in the archive if and only if it is among the staged entries. -/
theorem Cleaned.noTemporary (h : Cleaned archive inodes cleaned) :
    (∀ e ∈ cleaned, e.path ≠ [settingsTemporary]) ↔ NoTemporary archive := by
  constructor
  · intro hnone a ha hpath
    have hclean : (clean inodes a).path = [settingsTemporary] := (clean_path ..).trans hpath
    refine hnone _ ((h _ ?_).mpr ⟨a, ha, rfl⟩) hclean
    rw [hclean]
    exact not_isJournal_temporary
  · intro hnone e he hpath
    obtain ⟨a, ha, rfl⟩ := (h e (hpath ▸ not_isJournal_temporary)).mp he
    exact hnone a ha ((clean_path ..).symm.trans hpath)

theorem Outcome.stateRestored (h : Outcome contents new) :
    StateRestored (contents .state) (new .state) ↔ NoTemporary (contents .state) := by
  obtain ⟨-, cleaned, hcleaned, hsettled⟩ := h
  rw [← hcleaned.noTemporary]
  generalize new .state = es at hsettled
  cases hsettled with
  | @replaced inode hnone =>
    refine ⟨fun _ => hnone, fun _ => ⟨fun e hj hs => ?_, inode, fun e hs => ?_⟩⟩
    · rw [← hcleaned e hj, List.mem_append, mem_remove, List.mem_singleton]
      constructor
      · rintro (⟨he, -⟩ | rfl)
        · exact he
        · exact absurd (List.prefix_refl _) hs
      · exact fun he => .inl ⟨he, hs⟩
    · rw [List.mem_append, mem_remove, List.mem_singleton]
      exact ⟨fun he => he.resolve_left fun he => he.2 hs, .inr⟩
  | lost hmem hy hgone =>
    refine ⟨fun hstate => ?_, fun hnone => absurd hy (hnone _ hmem)⟩
    -- the entry of the archive is among those that have to be there
    obtain ⟨a, ha, rfl⟩ := (hcleaned _ (hy ▸ not_isJournal_temporary)).mp hmem
    rw [clean_path] at hy
    have hclean : (clean (databaseInodes (contents .state)) a).path = [settingsTemporary] :=
      (clean_path ..).trans hy
    refine absurd hclean (hgone _ ((hstate.entries _ ?_ ?_).mpr ⟨a, ha, rfl⟩))
    · rw [hclean]
      exact not_isJournal_temporary
    · rw [hclean]
      decide

theorem Outcome.restored (h : Outcome contents new) :
    (∀ v, Restored v (contents v) (new v)) ↔ NoTemporary (contents .state) := by
  rw [← h.stateRestored]
  refine ⟨fun hr => ?_, fun hr v => ?_⟩
  · have hstate := hr .state
    rwa [Restored, if_pos rfl] at hstate
  · unfold Restored
    split
    · next hv => exact hv ▸ hr
    · next hv => exact fun e => by rw [h.others v hv]

/-- A run of a restore loses no data. -/
structure RestoreSafe (sha256 : Archive → String) (identifier : String)
    (binding : List (String × String)) (turns : List (Turn Chance)) (m : Machine) : Prop where
  /-- Until every volume holds its restored content, the old entries are in place or aside. -/
  kept : (∀ v, Kept (m.volumes v).entries ((exec (device sha256).handler
      (restoreSnapshot identifier binding) turns m).2.volumes v)) ∨
    ∀ v, ∃ es, Restored v (archives m identifier v) es ∧ Holds es ((exec (device sha256).handler
      (restoreSnapshot identifier binding) turns m).2.volumes v)
  /-- The marker is there at every change of a volume. -/
  marked : ∀ e ∈ trace (device sha256).handler (restoreSnapshot identifier binding) turns m,
    ∀ v c, e.call = .volume v c → ¬c.Looks → e.before.store.pending = true
  /-- A restore that returns has unpacked every archive and put it in place. -/
  restored : (exec (device sha256).handler (restoreSnapshot identifier binding) turns m).1 =
    .done () → ∀ v, archiveEntries m identifier v = some (archives m identifier v) ∧
      Restored v (archives m identifier v) ((exec (device sha256).handler
        (restoreSnapshot identifier binding) turns m).2.volumes v).entries

/-- No data is lost if the state archive has no `recovery-settings.new`, and in a restore that
returns only then. -/
theorem restore_keeps_data (sha256 : Archive → String) (t : VolumeName → FileTree) (m : Machine)
    (identifier : String) (binding : List (String × String)) (turns : List (Turn Chance))
    (htree : ∀ v, (m.volumes v).entries = (t v).entries) :
    ((∀ a ∈ archives m identifier .state, a.path ≠ [settingsTemporary]) →
      RestoreSafe sha256 identifier binding turns m) ∧
    ((exec (device sha256).handler (restoreSnapshot identifier binding) turns m).1 = .done () →
      (RestoreSafe sha256 identifier binding turns m ↔
        ∀ a ∈ archives m identifier .state, a.path ≠ [settingsTemporary])) := by
  have hspec : Completes (device sha256).handler True (DataKept m (archives m identifier))
      (restoreSnapshot identifier binding) _ m :=
    restoreSnapshot_spec (device sha256).handler_serves t htree
  have hkept := hspec.leaves (fun _ m' h => by
    obtain ⟨-, new, houtcome, hfinal⟩ := h
    exact .inr ⟨new, houtcome, fun v e _ => hfinal v e⟩) turns
  have hdone : (exec (device sha256).handler (restoreSnapshot identifier binding) turns m).1 =
      .done () → _ := fun hexit => hspec.done (Prod.ext hexit rfl)
  have hsafe : NoTemporary (archives m identifier .state) →
      RestoreSafe sha256 identifier binding turns m := by
    intro hnone
    refine ⟨hkept.imp_right ?_, restoreSnapshot_marked sha256 identifier binding turns m, ?_⟩
    · rintro ⟨new, houtcome, hholds⟩ v
      exact ⟨new v, houtcome.restored.mpr hnone v, hholds v⟩
    · intro hexit v
      obtain ⟨hunpacked, new, houtcome, hfinal⟩ := hdone hexit
      exact ⟨hunpacked v, (houtcome.restored.mpr hnone v).congr (hfinal v)⟩
  refine ⟨hsafe, fun hexit => ⟨fun h => ?_, hsafe⟩⟩
  obtain ⟨-, new, houtcome, hfinal⟩ := hdone hexit
  exact houtcome.restored.mp fun v =>
    ((h.restored hexit v).2).congr fun e => (hfinal v e).symm

/-! ## A backup with two databases -/

/-- An archive of the state volume. -/
def stateMembers (others : Archive) : Archive :=
  ⟨".", .directory, "", none⟩ ::
  ⟨"./accounts.sqlite", .file, "", some (.database [("session_credential", ["token"])])⟩ ::
  ⟨"./platform.sqlite", .file, "", some (.database [])⟩ :: others

def stateBackup (others : Archive) : Backup where
  manifest := some ⟨1, anaBackup, 1, [], VolumeName.all.map fun v => (v, "digest")⟩
  archives := VolumeName.all.map fun v =>
    (v, if v = .state then stateMembers others else [⟨".", .directory, "", none⟩])

def restoreMachine (others : Archive) : Machine :=
  { anaMachine (anaTree "link" (by decide) (.symlink "/etc")) with
    store := { backups := [(anaBackup, stateBackup others)] } }

theorem sessions_restored_safely :
    (exec (device fun _ => "digest").handler (restoreSnapshot anaBackup []) []
      (restoreMachine [])).1 = .done () ∧
    RestoreSafe (fun _ => "digest") anaBackup [] [] (restoreMachine []) := by
  refine ⟨by decide +kernel, (restore_keeps_data (fun _ => "digest")
    (anaVolumes (anaTree "link" (by decide) (.symlink "/etc"))) (restoreMachine []) anaBackup [] []
    fun _ => rfl).1 ?_⟩
  decide +kernel

/-- A link in the place of the broker's own file becomes the settings; what the broker writes goes
to where the link leads. -/
theorem link_becomes_settings :
    ∃ m : Machine, m = restoreMachine [⟨"./recovery-settings.new", .symlink, "/etc/passwd", none⟩] ∧
      (exec (device fun _ => "digest").handler (restoreSnapshot anaBackup []) [] m).1 = .done () ∧
      (find [settingsName] ((exec (device fun _ => "digest").handler
        (restoreSnapshot anaBackup []) [] m).2.volumes .state).entries).map Entry.node =
          some (.symlink "/etc/passwd") ∧
      ¬RestoreSafe (fun _ => "digest") anaBackup [] [] m := by
  refine ⟨_, rfl, ?_⟩
  have hdone : (exec (device fun _ => "digest").handler (restoreSnapshot anaBackup []) []
      (restoreMachine [⟨"./recovery-settings.new", .symlink, "/etc/passwd", none⟩])).1 =
        .done () := by decide +kernel
  have hfind : (find [settingsName] ((exec (device fun _ => "digest").handler
      (restoreSnapshot anaBackup []) [] (restoreMachine
        [⟨"./recovery-settings.new", .symlink, "/etc/passwd", none⟩])).2.volumes
          .state).entries).map
          Entry.node = some (.symlink "/etc/passwd") := by decide +kernel
  refine ⟨hdone, hfind, fun h => ?_⟩
  have hstate : StateRestored _ _ := (h.restored hdone .state).2
  obtain ⟨inode, hsettings⟩ := hstate.settings
  obtain ⟨e, he, hnode⟩ := Option.map_eq_some_iff.mp hfind
  obtain ⟨hmem, hpath⟩ := find_eq_some he
  have heq := (hsettings e (hpath ▸ List.prefix_refl _)).mp hmem
  rw [heq] at hnode
  cases hnode

end Rumahl.Host
