import Rumahl.Host.Staging

/-!
# The settings in the stage directory

The recovery settings are written beside their place and renamed, which is where an entry of the
archive can get lost (`Settled`): the file that is written first may have been one.
-/

namespace Rumahl.Host

open Effect Entries List

/-! ## Entries under other paths -/

theorem Proper.of_paths (h : Proper new) (hpaths : es.map Entry.path = new.map Entry.path) :
    Proper es := by
  have hmem : ∀ e ∈ es, ∃ f ∈ new, f.path = e.path := by
    intro e he
    have hpath := mem_map_of_mem (f := Entry.path) he
    rw [hpaths] at hpath
    exact mem_map.mp hpath
  have hmem' : ∀ f ∈ new, ∃ e ∈ es, e.path = f.path := by
    intro f hf
    have hpath := mem_map_of_mem (f := Entry.path) hf
    rw [← hpaths] at hpath
    exact mem_map.mp hpath
  have htop : ∀ {e f : Entry}, f.path = e.path → f.top = e.top := fun h => by
    rw [Entry.top, h]
    rfl
  refine ⟨fun e he => ?_, fun e he => ?_, fun e he => ?_⟩
  · obtain ⟨f, hf, hpath⟩ := hmem e he
    rw [← hpath]
    exact h.path_ne f hf
  · obtain ⟨f, hf, hpath⟩ := hmem e he
    rw [← htop hpath]
    exact h.free f hf
  · obtain ⟨f, hf, hpath⟩ := hmem e he
    obtain ⟨d, hd, hdpath⟩ := h.top f hf
    obtain ⟨d', hd', hdpath'⟩ := hmem' d hd
    exact ⟨d', hd', by rw [hdpath', hdpath, htop hpath]⟩

theorem Proper.concat (h : Proper new) (hname : name ∉ reserved) :
    Proper (new ++ [⟨[name], inode, content⟩]) := by
  refine ⟨fun e he => ?_, fun e he => ?_, fun e he => ?_⟩ <;>
    rcases mem_append.mp he with he | he
  · exact h.path_ne e he
  · rw [mem_singleton.mp he]
    simp
  · exact h.free e he
  · rw [mem_singleton.mp he]
    exact hname
  · obtain ⟨d, hd, hpath⟩ := h.top e he
    exact ⟨d, mem_append_left _ hd, hpath⟩
  · refine ⟨e, mem_append_right _ he, ?_⟩
    rw [mem_singleton.mp he]
    rfl

theorem Proper.rename (h : Proper new) (hb : b ∉ reserved) :
    Proper (move [a] [b] (remove [b] new)) := by
  have hcases : ∀ {e}, e ∈ move [a] [b] (remove [b] new) →
      (∃ f ∈ new, f.top = a ∧ f.top ≠ b ∧ e = { f with path := [b] ++ f.path.drop 1 }) ∨
        e ∈ new ∧ e.top ≠ a ∧ e.top ≠ b := by
    intro e he
    simp only [mem_move, mem_remove] at he
    rcases he with ⟨f, ⟨hf, hnot⟩, hprefix, rfl⟩ | ⟨⟨he, hnot⟩, hprefix⟩
    · rw [Entry.prefix_iff_top (h.path_ne f hf)] at hnot hprefix
      exact .inl ⟨f, hf, hprefix, hnot, rfl⟩
    · rw [Entry.prefix_iff_top (h.path_ne e he)] at hnot hprefix
      exact .inr ⟨he, hprefix, hnot⟩
  refine ⟨fun e he => ?_, fun e he => ?_, fun e he => ?_⟩ <;>
    rcases hcases he with ⟨f, hf, hfa, hfb, rfl⟩ | ⟨hmem, hea, heb⟩
  · simp
  · exact h.path_ne e hmem
  · exact hb
  · exact h.free e hmem
  · obtain ⟨d, hd, hdpath⟩ := h.top f hf
    refine ⟨{ d with path := [b] }, ?_, rfl⟩
    rw [hfa] at hdpath
    refine mem_move.mpr (.inl ⟨d, mem_remove.mpr ⟨hd, ?_⟩, ?_, ?_⟩)
    · rw [hdpath, cons_prefix_cons]
      exact fun hp => hfb (hfa.trans hp.1.symm)
    · exact hdpath ▸ prefix_rfl
    · rw [hdpath]
      rfl
  · obtain ⟨d, hd, hdpath⟩ := h.top e hmem
    refine ⟨d, mem_move.mpr (.inr ⟨mem_remove.mpr ⟨hd, ?_⟩, ?_⟩), hdpath⟩ <;>
      rw [hdpath, cons_prefix_cons]
    · exact fun hp => heb hp.1.symm
    · exact fun hp => hea hp.1.symm

theorem map_path_setData (inode : Nat) (data : FileData) (es : List Entry) :
    (setData inode data es).map Entry.path = es.map Entry.path := by
  rw [setData, map_map]
  exact map_congr_left fun e _ => overwrite_path inode data e

/-! ## Writing -/

/-- Every entry is one of these, or has been overwritten with something that is no database. -/
def Overwritten (new es : List Entry) : Prop :=
  ∀ e ∈ es, ∃ f ∈ new, f.path = e.path ∧
    (e.node = f.node ∨ ∃ data, (∀ content, data ≠ .database content) ∧ e.node = .file data)

theorem Overwritten.refl (es : List Entry) : Overwritten es es := fun e he => ⟨e, he, rfl, .inl rfl⟩

theorem Overwritten.setData (h : Overwritten new es) (hdata : ∀ content, data ≠ .database content) :
    Overwritten new (setData inode data es) := by
  intro x hx
  obtain ⟨e, he, rfl⟩ := mem_setData.mp hx
  obtain ⟨f, hf, hpath, hnode⟩ := h e he
  refine ⟨f, hf, by rw [overwrite_path, hpath], ?_⟩
  unfold overwrite
  split
  · split
    · exact .inr ⟨data, hdata, rfl⟩
    · exact hnode
  · exact hnode

/-- The staged entries while the settings are written: the file for them is a new one, or it was in
the archive. -/
inductive Writing (base : Nat) (new : List Entry) (data : FileData) : List Entry → Prop where
  | fresh (hnone : ∀ e ∈ new, e.path ≠ [settingsTemporary]) (hbase : base ≤ inode)
    (hinode : ∀ e ∈ new, e.inode ≠ inode) :
    Writing base new data (new ++ [⟨[settingsTemporary], inode, .file data⟩])
  | there (hmem : y ∈ new) (hy : y.path = [settingsTemporary])
    (hpaths : es.map Entry.path = new.map Entry.path)
    (hbase : ∀ e ∈ es, e.path = [settingsTemporary] → base ≤ e.inode) (hrest : Overwritten new es) :
    Writing base new data es

theorem Writing.base_le (h : Writing base new data es) (he : e ∈ es)
    (hpath : e.path = [settingsTemporary]) : base ≤ e.inode := by
  cases h with
  | fresh hnone hbase =>
    rcases mem_append.mp he with he | he
    · exact absurd hpath (hnone e he)
    · rw [mem_singleton.mp he]
      exact hbase
  | there _ _ _ hbase => exact hbase e he hpath

theorem Writing.write (h : Writing base new data es) (he : e ∈ es)
    (hpath : e.path = [settingsTemporary]) (hdata : ∀ content, data' ≠ .database content) :
    Writing base new data' (setData e.inode data' es) := by
  cases h with
  | @fresh inode hnone hbase hinode =>
    rcases mem_append.mp he with he | he
    · exact absurd hpath (hnone e he)
    · have heq : e.inode = inode := by rw [mem_singleton.mp he]
      rw [heq, setData_append, setData_of_ne hinode]
      simp only [setData, map_singleton, overwrite, if_true]
      exact .fresh hnone hbase hinode
  | there hmem hy hpaths hbase hrest =>
    refine .there hmem hy ((map_path_setData ..).trans hpaths) (fun f hf hfpath => ?_)
      (hrest.setData hdata)
    obtain ⟨g, hg, rfl⟩ := mem_setData.mp hf
    rw [overwrite_path] at hfpath
    rw [overwrite_inode]
    exact hbase g hg hfpath

theorem Writing.proper (h : Writing base new data es) (hnew : Proper new) : Proper es := by
  cases h with
  | fresh => exact hnew.concat (by decide)
  | there _ _ hpaths => exact hnew.of_paths hpaths

/-- The staged entries when the settings are in their place. What was there in the place of the file
that is renamed is gone. -/
inductive Settled (new : List Entry) (data : FileData) : List Entry → Prop where
  | replaced (hnone : ∀ e ∈ new, e.path ≠ [settingsTemporary]) :
    Settled new data (remove [settingsName] new ++ [⟨[settingsName], inode, .file data⟩])
  | lost (hmem : y ∈ new) (hy : y.path = [settingsTemporary])
    (hgone : ∀ e ∈ es, e.path ≠ [settingsTemporary])
    (hrest : Overwritten new (remove [settingsName] es)) : Settled new data es

theorem Writing.rename (h : Writing base new data es) (hnew : Proper new) :
    Settled new data (move [settingsTemporary] [settingsName] (remove [settingsName] es)) := by
  cases h with
  | @fresh inode hnone =>
    have hprefix : ∀ e ∈ new, ¬[settingsTemporary] <+: e.path := by
      intro e he hp
      obtain ⟨d, hd, hdpath⟩ := hnew.top e he
      rw [Entry.prefix_iff_top (hnew.path_ne e he)] at hp
      exact hnone d hd (by rw [hdpath, hp])
    have hremove : remove [settingsName] (new ++ [⟨[settingsTemporary], inode, .file data⟩]) =
        remove [settingsName] new ++ [⟨[settingsTemporary], inode, .file data⟩] := by
      rw [remove, filter_append]
      rfl
    have hmove : move [settingsTemporary] [settingsName] (remove [settingsName] new) =
        remove [settingsName] new := by
      conv_rhs => rw [← map_id (remove [settingsName] new)]
      refine map_congr_left fun e he => if_neg fun hp => ?_
      exact hprefix e (mem_remove.mp he).1 (List.isPrefixOf_iff_prefix.mp hp)
    rw [hremove, move, map_append]
    rw [move] at hmove
    rw [hmove]
    exact .replaced hnone
  | there hmem hy _ _ hrest =>
    refine .lost hmem hy (fun e he hpath => ?_) fun e he => ?_
    · rcases mem_move.mp he with ⟨f, -, -, rfl⟩ | ⟨-, hp⟩
      · exact absurd (List.cons.inj hpath).1 (by decide)
      · rw [hpath] at hp
        exact hp (prefix_refl _)
    · obtain ⟨he, hnot⟩ := mem_remove.mp he
      rcases mem_move.mp he with ⟨f, -, -, rfl⟩ | ⟨he, -⟩
      · exact absurd (prefix_append ..) hnot
      · exact hrest e (mem_remove.mp he).1

/-! ## The program -/

section

variable {sha256 : Archive → String} {may : Call → Machine → Prop}
  {H : Handler Call Answer I Machine} {K : Machine → Prop} {m : Machine}
  {old new es : List Entry} {data : FileData} {w w' : Volume}

theorem StagedList.openWrite (h : StagedList old new w) (hold : ∀ e ∈ old, e.top ≠ stageName)
    (hbase : ∀ e ∈ new, e.path = [settingsTemporary] → fresh (withStage old) ≤ e.inode)
    (happly : VolumeCall.apply left w (.openWrite [stageName, settingsTemporary]) = .ok (r, w')) :
    ∃ es, StagedList old es w' ∧ Writing (fresh (withStage old)) new (.bytes "") es := by
  have hfind : find [stageName, settingsTemporary] (withStage old ++ new.map Entry.staged) = _ :=
    find_staged hold [settingsTemporary] (by simp)
  simp only [VolumeCall.apply] at happly
  rw [h, hfind] at happly
  cases hy : find [settingsTemporary] new with
  | some y =>
    obtain ⟨hmem, hpath⟩ := find_eq_some hy
    have hyb := hbase y hmem hpath
    rw [hy] at happly
    obtain ⟨path, inode, node⟩ := y
    cases node with
    | file d =>
      cases happly
      refine ⟨_, setData_withStage hyb, .there hmem hpath (map_path_setData ..) (fun e he hp => ?_)
        ((Overwritten.refl new).setData fun _ h => by cases h)⟩
      obtain ⟨f, hf, rfl⟩ := mem_setData.mp he
      rw [overwrite_path] at hp
      rw [overwrite_inode]
      exact hbase f hf hp
    | symlink target =>
      cases happly
      exact ⟨new, h, .there hmem hpath rfl hbase (.refl new)⟩
    | _ => cases happly
  | none =>
    rw [hy] at happly
    dsimp only [Option.map_none] at happly
    split at happly
    · cases happly
      refine ⟨new ++ [⟨[settingsTemporary], fresh w.entries, .file (.bytes "")⟩], ?_,
        .fresh (find_eq_none.mp hy) ?_ fun e he heq => ?_⟩
      · rw [StagedList, map_append, ← append_assoc, h]
        rfl
      · rw [h, fresh_append]
        exact Nat.le_max_left _ _
      · have hmem : e.staged ∈ w.entries := by
          rw [h]
          exact mem_append_right _ (mem_map_of_mem he)
        have hlt : e.staged.inode < fresh w.entries := lt_fresh hmem
        exact absurd heq (Nat.ne_of_lt hlt)
    · cases happly

theorem Writing.exists (h : Writing base new data es) : ∃ e ∈ es, e.path = [settingsTemporary] := by
  cases h with
  | fresh => exact ⟨_, mem_append_right _ mem_cons_self, rfl⟩
  | @there y _ hmem hy hpaths =>
    have hpath := mem_map_of_mem (f := Entry.path) hmem
    rw [← hpaths, hy] at hpath
    exact mem_map.mp hpath

theorem StagedList.write (h : StagedList old es w) (hold : ∀ e ∈ old, e.top ≠ stageName)
    (hwriting : Writing (fresh (withStage old)) new data es)
    (hdata : ∀ content, data' ≠ .database content)
    (happly : VolumeCall.apply left w (.write [stageName, settingsTemporary] data') = .ok (r, w')) :
    ∃ es', StagedList old es' w' ∧ Writing (fresh (withStage old)) new data' es' := by
  have hfind : find [stageName, settingsTemporary] (withStage old ++ es.map Entry.staged) = _ :=
    find_staged hold [settingsTemporary] (by simp)
  simp only [VolumeCall.apply] at happly
  rw [h, hfind] at happly
  cases hy : find [settingsTemporary] es with
  | some y =>
    obtain ⟨hmem, hpath⟩ := find_eq_some hy
    rw [hy] at happly
    cases happly
    have hyb := hwriting.base_le hmem hpath
    have hwrite := hwriting.write hmem hpath hdata
    exact ⟨_, setData_withStage hyb, hwrite⟩
  | none =>
    obtain ⟨e, he, hpath⟩ := hwriting.exists
    exact absurd hpath (find_eq_none.mp hy e he)

theorem writeSettings_spec (hH : (device sha256).Serves True may H)
    (hK : ∀ w, Kept old w → K (m.setVolume .state w)) (hold : ∀ e ∈ old, e.top ≠ stageName)
    (hnew : Proper new)
    (hbase : ∀ e ∈ new, e.path = [settingsTemporary] → fresh (withStage old) ≤ e.inode)
    (h : StagedList old new (m.volumes .state)) :
    Completes H True K (writeSettings [stageName] safe repair)
      (fun _ m' => ∃ w es, m' = m.setVolume .state w ∧ StagedList old es w ∧ Proper es ∧
        Settled new (.object [("safeMode", .bool safe), ("autoRepair", .bool repair)]) es) m := by
  have hKm : K m := by
    have hKm := hK _ h.kept
    rwa [m.setVolume_self] at hKm
  have hreplace : ∀ data, (∀ content, data ≠ .database content) →
    Completes H True K (writeReplacing .state [stageName] settingsTemporary
      settingsName data) (fun _ m' => ∃ w es, m' = m.setVolume .state w ∧ StagedList old es w ∧
        Proper es ∧ Settled new data es) m := by
    intro data hdata
    refine effect_then hH trivial hKm fun left r w happly => ?_
    obtain ⟨es, hes, hwriting⟩ := h.openWrite hold hbase happly
    refine ⟨hK w hes.kept, look_then hH trivial (hK w hes.kept) fun _ _ _ => ?_⟩
    -- what is written in part is written to the same file
    refine Completes.bind (volume_spec (c := .write [stageName, settingsTemporary] data)
      (Q := fun _ m' => ∃ w es, m' = m.setVolume .state w ∧ StagedList old es w ∧
        Writing (fresh (withStage old)) new data es) hH (hK w hes.kept) (fun _ _ chance => ?_)
      (fun left r w' happly => ?_) fun _ _ _ => trivial) ?_
    · rw [Machine.setVolume_setVolume, Machine.setVolume_same]
      refine hK _ ?_
      simp only [VolumeCall.disturb]
      split
      · next happly =>
        obtain ⟨es', hes', -⟩ := hes.write hold hwriting (by simp) happly
        exact hes'.kept
      · exact hes.kept
    · rw [Machine.setVolume_same] at happly
      obtain ⟨es', hes', hwriting'⟩ := hes.write hold hwriting hdata happly
      exact ⟨w', es', Machine.setVolume_setVolume .., hes', hwriting'⟩
    rintro _ _ ⟨w', es', rfl, hes', hwriting'⟩
    refine look_then hH trivial (hK w' hes'.kept) fun _ _ _ => ?_
    refine effect_spec (c := .rename [stageName, settingsTemporary] [stageName, settingsName]) hH
      trivial (hK w' hes'.kept) (fun left r w'' happly => ?_) fun _ _ _ => trivial
    rw [Machine.setVolume_same] at happly
    obtain ⟨-, -, rfl⟩ := rename_eq_ok happly
    have hmove : move [stageName, settingsTemporary] [stageName, settingsName]
        (remove [stageName, settingsName] w'.entries) = withStage old ++
          (move [settingsTemporary] [settingsName] (remove [settingsName] es')).map
            Entry.staged := by
      rw [hes', remove_staged hold [settingsName] (by simp), move_staged hold]
    rw [Machine.setVolume_setVolume]
    exact ⟨hK _ (StagedList.kept hmove), _, _, rfl, hmove,
      (hwriting'.proper hnew).rename (by decide), hwriting'.rename hnew⟩
  refine Completes.bind (hreplace _ fun _ h => by cases h) ?_
  rintro _ _ ⟨w, es, rfl, hes, hproper, hsettled⟩
  exact look_spec hH trivial (hK w hes.kept) (fun _ _ _ => ⟨w, es, rfl, hes, hproper, hsettled⟩)
    fun _ _ _ => trivial

end

end Rumahl.Host
