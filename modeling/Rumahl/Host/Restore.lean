import Rumahl.Host.StagedSettings

/-!
# Restoring a backup

A restore goes through the volumes three times: it stages all of them, replaces all of them, and
removes what lies aside. `restoreSnapshot_spec` says what it leaves behind wherever it ends.
-/

namespace Rumahl.Host

open Effect Entries List

/-! ## Volume by volume -/

section

variable {sha256 : Archive → String} {may : Call → Machine → Prop}
  {H : Handler Call Answer I Machine} {K : Machine → Prop} {m : Machine}
  {Before After : VolumeName → Volume → Prop} {loop : List VolumeName → Broker Unit}
  {body : VolumeName → Broker Unit}

variable (Before After body) in
/-- A loop over the volumes that changes them one after the other. -/
theorem each_spec (hnil : loop [] = .ret ())
    (hcons : ∀ v vs, loop (v :: vs) = body v >>= fun _ => loop vs) (store : Store)
    (hbody : ∀ v m, m.store = store → Before v (m.volumes v) →
      (∀ v', Before v' (m.volumes v') ∨ After v' (m.volumes v')) →
      Completes H True K (body v) (fun _ m' => ∃ w, m' = m.setVolume v w ∧ After v w) m)
    (vs : List VolumeName) (hnodup : vs.Nodup) (hstore : m.store = store)
    (hbefore : ∀ v ∈ vs, Before v (m.volumes v)) (hafter : ∀ v ∉ vs, After v (m.volumes v)) :
    Completes H True K (loop vs)
      (fun _ m' => m'.store = store ∧ ∀ v, After v (m'.volumes v)) m := by
  induction vs generalizing m with
  | nil =>
    rw [hnil]
    exact Completes.ret ⟨hstore, fun v => hafter v not_mem_nil⟩
  | cons v vs ih =>
    obtain ⟨hv, hnodup⟩ := nodup_cons.mp hnodup
    rw [hcons]
    refine Completes.bind (hbody v m hstore (hbefore v mem_cons_self) fun v' => ?_) ?_
    · by_cases h : v' ∈ v :: vs
      · exact .inl (hbefore v' h)
      · exact .inr (hafter v' h)
    rintro _ _ ⟨w, rfl, hw⟩
    refine ih hnodup hstore (fun v' hv' => ?_) fun v' hv' => ?_
    · have hne : v' ≠ v := by
        rintro rfl
        exact hv hv'
      rw [Machine.setVolume_volumes, if_neg hne]
      exact hbefore v' (mem_cons_of_mem _ hv')
    · rw [Machine.setVolume_volumes]
      split
      · next h => exact h ▸ hw
      · next h => exact hafter v' fun hmem => hv' ((mem_cons.mp hmem).resolve_left h)

end

/-! ## What is unpacked -/

/-- The entries that the archives of a backup are unpacked to. -/
def archives (m : Machine) (identifier : String) (v : VolumeName) : List Entry :=
  (archiveEntries m identifier v).getD []

theorem proper_of_check (hcheck : checkArchive v members = .ok ())
    (hunpack : unpack base [] members = some es) : Proper es := by
  have hunpacked := unpack_unpacked unpacked_nil hunpack
  obtain ⟨hsound, -⟩ := checkArchive_eq_ok.mp hcheck
  refine ⟨hunpacked.path_ne, fun e he hres => ?_, fun e he => ?_⟩
  · rcases unpack_path hunpack e he with h | ⟨m, hm, hpath⟩
    · cases h
    · refine (hsound m hm).free e.top (hpath.subset ?_) hres
      rw [e.path_eq_cons (hunpacked.path_ne e he)]
      exact mem_cons_self
  · obtain ⟨d, hd, hpath⟩ := hunpacked.top e he
    refine ⟨d, hd, hpath.trans ?_⟩
    rw [e.path_eq_cons (hunpacked.path_ne e he)]
    rfl

/-- The archives of a backup that was verified. -/
def Verified (m : Machine) (identifier : String) : Prop :=
  ∀ v members, (Store.find identifier m.store.backups).bind
    (fun b => Store.archive? v b.archives) = some members → checkArchive v members = .ok ()

theorem Verified.proper (h : Verified m identifier) (v : VolumeName) :
    Proper (archives m identifier v) := by
  unfold archives archiveEntries
  cases hread : (Store.find identifier m.store.backups).bind
      fun b => Store.archive? v b.archives with
  | none => exact ⟨fun _ h => (nomatch h), fun _ h => (nomatch h), fun _ h => (nomatch h)⟩
  | some members =>
    rw [Option.bind_some]
    cases hunpack : unpack (fresh (withStage (m.volumes v).entries)) [] members with
    | none => exact ⟨fun _ h => (nomatch h), fun _ h => (nomatch h), fun _ h => (nomatch h)⟩
    | some es => exact proper_of_check (h v members hread) hunpack

theorem archives_unpacked (m : Machine) (identifier : String) (v : VolumeName) :
    Unpacked (fresh (withStage (m.volumes v).entries)) (archives m identifier v) := by
  unfold archives
  cases h : archiveEntries m identifier v with
  | none => exact unpacked_nil
  | some es =>
    obtain ⟨members, -, hunpack⟩ := Option.bind_eq_some_iff.mp h
    exact unpack_unpacked unpacked_nil hunpack

section

variable {sha256 : Archive → String} {may : Call → Machine → Prop}
  {H : Handler Call Answer I Machine} {K : Machine → Prop} {m : Machine}

theorem verifyVolumes_checks (hH : (device sha256).Serves True may H) (hK : K m) :
    Completes H True K (verifyVolumes identifier rest)
      (fun _ m' => m' = m ∧ ∀ p ∈ rest, ∀ members, (Store.find identifier m.store.backups).bind
        (fun b => Store.archive? p.1 b.archives) = some members →
          checkArchive p.1 members = .ok ()) m := by
  induction rest with
  | nil => exact Completes.ret ⟨rfl, fun _ h => (nomatch h)⟩
  | cons p rest ih =>
    refine read_then hH trivial hK fun digest _ => ?_
    split
    · exact Completes.throw trivial hK
    refine read_then hH trivial hK fun members happly => ?_
    refine check_bind hK (.inl trivial) fun hcheck => Completes.mono ih (fun _ h => h) ?_
    rintro _ m' ⟨hm, hrest⟩
    refine ⟨hm, forall_mem_cons.mpr ⟨fun members' hread' => ?_, hrest⟩⟩
    cases (readArchive_eq_ok happly).symm.trans hread'
    exact hcheck

theorem verify_checks (hH : (device sha256).Serves True may H) (hK : K m) :
    Completes H True K (verify identifier binding)
      (fun _ m' => m' = m ∧ Verified m identifier) m := by
  have hpath : Completes H True K (snapshotPath identifier) (fun _ m' => m' = m) m := by
    unfold snapshotPath
    split
    · exact Completes.throw trivial hK
    refine read_then hH trivial hK fun names _ => ?_
    split
    · exact Completes.ret rfl
    · exact Completes.throw trivial hK
  refine Completes.bind hpath ?_
  rintro _ m' hm
  subst m'
  refine read_then hH trivial hK fun manifest _ => ?_
  split
  · exact Completes.throw trivial hK
  split
  · exact Completes.throw trivial hK
  next hall =>
  refine Completes.mono (verifyVolumes_checks hH hK) (fun _ h => h) ?_
  rintro _ m' ⟨hm, hchecks⟩
  refine ⟨hm, fun v members hread => ?_⟩
  obtain ⟨p, hp, rfl⟩ := mem_map.mp (not_not.mp hall v v.mem_all)
  exact hchecks p hp members hread

end

/-! ## The whole restore -/

/-- The settings that a restored system starts with. -/
def restoredSettings : FileData :=
  .object [("safeMode", .bool true), ("autoRepair", .bool false)]

/-- What the restored volumes hold: the archives, and for the state volume with the tables emptied
and the settings replaced. -/
structure Outcome (archives new : VolumeName → List Entry) : Prop where
  others : ∀ v ≠ .state, new v = archives v
  state : ∃ cleaned, Cleaned (archives .state) (databaseInodes (archives .state)) cleaned ∧
    Settled cleaned restoredSettings (new .state)

/-- The volume holds these entries, and what is left aside. -/
def Holds (new : List Entry) (w : Volume) : Prop :=
  ∀ e, ¬[previousName] <+: e.path → (e ∈ w.entries ↔ e ∈ new)

theorem Replaced.holds_filter (h : Replaced old new w)
    (hf : ∀ e, ¬[previousName] <+: e.path → f e = true) :
    Holds new { w with entries := w.entries.filter f } := by
  obtain ⟨p, hp, h⟩ := h
  intro e he
  rw [mem_filter, h e]
  constructor
  · rintro ⟨⟨a, -, rfl⟩ | rfl | hmem, -⟩
    · refine absurd ?_ he
      rw [Entry.aside, cons_prefix_cons]
      exact ⟨rfl, nil_prefix⟩
    · exact absurd (hp ▸ prefix_refl _) he
    · exact hmem
  · exact fun hmem => ⟨.inr (.inr hmem), hf e he⟩

theorem Proper.not_previous (h : Proper new) (he : e ∈ new) : ¬[previousName] <+: e.path := by
  rw [Entry.prefix_iff_top (h.path_ne e he)]
  exact fun htop => h.free e he (htop ▸ mem_reserved_previous)

section

variable {sha256 : Archive → String} {may : Call → Machine → Prop}
  {H : Handler Call Answer I Machine} {K : Machine → Prop} {m m0 : Machine}
  {old new : VolumeName → List Entry}

section

variable (hH : (device sha256).Serves True may H)
include hH

theorem stageVolumes_spec (hK : ∀ m, (∀ v, Kept (m0.volumes v).entries (m.volumes v)) → K m)
    (htop : ∀ v, ∀ e ∈ (m0.volumes v).entries, ∃ d ∈ (m0.volumes v).entries, d.path = [e.top])
    (hvolumes : m.volumes = m0.volumes) (hstore : m.store.backups = m0.store.backups) :
    Completes H True K (stageVolumes identifier VolumeName.all)
      (fun _ m' => m'.store = m.store ∧ ∀ v, (∀ e ∈ (m0.volumes v).entries, e.top ≠ stageName) ∧
        archiveEntries m0 identifier v = some (archives m0 identifier v) ∧
        StagedList (m0.volumes v).entries (archives m0 identifier v) (m'.volumes v)) m := by
  refine each_spec (fun v w => w = m0.volumes v) (fun v w =>
    (∀ e ∈ (m0.volumes v).entries, e.top ≠ stageName) ∧
      archiveEntries m0 identifier v = some (archives m0 identifier v) ∧
      StagedList (m0.volumes v).entries (archives m0 identifier v) w) (stageVolume identifier)
    rfl (fun _ _ => rfl) m.store ?_ _ (by decide) rfl (fun v _ => congrFun hvolumes v)
    fun v hv => absurd v.mem_all hv
  intro v m1 hstore1 hbefore hall
  have hkept : ∀ w, Kept (m0.volumes v).entries w → K (m1.setVolume v w) := by
    intro w hw
    refine hK _ fun v' => ?_
    rw [Machine.setVolume_volumes]
    split
    · next h => exact h ▸ hw
    · rcases hall v' with h | h
      · exact fun e he => .inl (h ▸ he)
      · exact h.2.2.kept
  have harchive : archiveEntries m1 identifier v = archiveEntries m0 identifier v := by
    rw [archiveEntries, archiveEntries, hstore1, hstore, hbefore]
  rw [← hbefore] at hkept
  refine Completes.mono (stageVolume_spec hH hkept ?_) (fun _ h => h) ?_
  · rw [hbefore]
    exact htop v
  rintro _ m' ⟨hstage, w, new, rfl, hnew, hlist⟩
  rw [hbefore] at hstage hlist
  rw [harchive] at hnew
  have harchives : archives m0 identifier v = new := by rw [archives, hnew]; rfl
  exact ⟨w, rfl, hstage, harchives ▸ hnew, harchives ▸ hlist⟩

theorem replaceVolumes_spec (hK : ∀ m, (∀ v, Kept (m0.volumes v).entries (m.volumes v)) → K m)
    (hne : ∀ v, ∀ e ∈ (m0.volumes v).entries, e.path ≠ [])
    (hstage : ∀ v, ∀ e ∈ (m0.volumes v).entries, e.top ≠ stageName)
    (htop : ∀ v, ∀ e ∈ (m0.volumes v).entries, ∃ d ∈ (m0.volumes v).entries, d.path = [e.top])
    (hnew : ∀ v, Proper (new v))
    (hstaged : ∀ v, Staged (m0.volumes v).entries (new v) (m.volumes v)) :
    Completes H True K (replaceVolumes VolumeName.all) (fun _ m' => m'.store = m.store ∧
        ∀ v, Replaced (m0.volumes v).entries (new v) (m'.volumes v)) m := by
  refine each_spec (fun v w => Staged (m0.volumes v).entries (new v) w)
    (fun v w => Replaced (m0.volumes v).entries (new v) w) replaceVolume rfl (fun _ _ => rfl)
    m.store ?_ _ (by decide) rfl (fun v _ => hstaged v) fun v hv => absurd v.mem_all hv
  intro v m1 _ hbefore hall
  refine replaceVolume_spec hH (fun w hw => hK _ fun v' => ?_) (hne v) (hstage v) (htop v) (hnew v)
    hbefore
  rw [Machine.setVolume_volumes]
  split
  · next h => exact h ▸ hw
  · rcases hall v' with ⟨d, -, h⟩ | h
    · exact fun e he => .inl ((h e).mpr (.inl he))
    · exact h.kept

theorem removePrevious_spec (hK : ∀ m, (∀ v, Holds (new v) (m.volumes v)) → K m)
    (hnew : ∀ v, Proper (new v)) (hreplaced : ∀ v, Replaced (old v) (new v) (m.volumes v)) :
    Completes H True K (removePrevious VolumeName.all)
      (fun _ m' => m'.store = m.store ∧ ∀ v, ∀ e, e ∈ (m'.volumes v).entries ↔ e ∈ new v) m := by
  have hholds : ∀ {v w}, Replaced (old v) (new v) w → Holds (new v) w := by
    intro v w h
    have hfilter := h.holds_filter fun _ _ => rfl
    rwa [filter_eq_self.mpr fun _ _ => rfl] at hfilter
  refine each_spec (fun v w => Replaced (old v) (new v) w)
    (fun v w => ∀ e, e ∈ w.entries ↔ e ∈ new v) (fun v => onVolume v (.rmtree [previousName])) rfl
    (fun _ _ => rfl) m.store ?_ _ (by decide) rfl (fun v _ => hreplaced v)
    fun v hv => absurd v.mem_all hv
  intro v m1 _ hbefore hall
  have hrest : ∀ v', Holds (new v') (m1.volumes v') := by
    intro v'
    rcases hall v' with h | h
    · exact hholds h
    · exact fun e _ => h e
  refine volume_spec hH (hK m1 hrest) (fun _ _ chance => hK _ fun v' => ?_)
    (fun left r w happly => ?_) fun _ _ _ => trivial
  · rw [Machine.setVolume_volumes]
    split
    · next h =>
      subst h
      refine hbefore.holds_filter fun e he => ?_
      simp [he]
    · exact hrest v'
  · simp only [VolumeCall.apply] at happly
    split at happly
    · cases happly
      refine ⟨_, rfl, fun e => ?_⟩
      by_cases hp : [previousName] <+: e.path
      · rw [mem_remove]
        exact ⟨fun h => absurd hp h.2, fun h => absurd hp ((hnew v).not_previous h)⟩
      · rw [mem_remove, hrest v e hp]
        exact ⟨And.left, fun h => ⟨h, hp⟩⟩
    · cases happly

end

theorem FileTree.exists_top (t : FileTree) (he : e ∈ t.entries) :
    ∃ d ∈ t.entries, d.path = [e.top] := by
  have hcons := e.path_eq_cons (t.path_ne e he)
  cases htail : e.path.tail with
  | nil => exact ⟨e, he, hcons.trans (by rw [htail])⟩
  | cons name rest =>
    rw [htail] at hcons
    obtain ⟨d, hd, hpath, -⟩ := t.take_directory (n := 1) he (by decide) (by rw [hcons]; simp)
    refine ⟨d, hd, hpath.trans ?_⟩
    rw [hcons]
    rfl

/-- The old entries are all there, or the new ones are. -/
def DataKept (m0 : Machine) (archives : VolumeName → List Entry) (m : Machine) : Prop :=
  (∀ v, Kept (m0.volumes v).entries (m.volumes v)) ∨
    ∃ new, Outcome archives new ∧ ∀ v, Holds (new v) (m.volumes v)

theorem restoreSnapshot_spec (hH : (device sha256).Serves True may H) (t : VolumeName → FileTree)
    (htree : ∀ v, (m.volumes v).entries = (t v).entries) :
    Completes H True (DataKept m (archives m identifier)) (restoreSnapshot identifier binding)
      (fun _ m' => (∀ v, archiveEntries m identifier v = some (archives m identifier v)) ∧
        ∃ new, Outcome (archives m identifier) new ∧
          ∀ v e, e ∈ (m'.volumes v).entries ↔ e ∈ new v) m := by
  have hKold : ∀ m', (∀ v, Kept (m.volumes v).entries (m'.volumes v)) →
      DataKept m (archives m identifier) m' := fun _ h => .inl h
  have hne : ∀ v, ∀ e ∈ (m.volumes v).entries, e.path ≠ [] := by
    intro v
    rw [htree]
    exact (t v).path_ne
  have htop : ∀ v, ∀ e ∈ (m.volumes v).entries, ∃ d ∈ (m.volumes v).entries, d.path = [e.top] := by
    intro v
    rw [htree]
    exact fun e he => (t v).exists_top he
  refine Completes.bind (verify_checks hH (hKold m fun v e he => .inl he)) ?_
  rintro _ m' ⟨hm, hverified⟩
  subst m'
  refine Completes.bind (store_spec (Q := fun _ m' =>
    m'.volumes = m.volumes ∧ m'.store.backups = m.store.backups) hH (hKold m fun v e he => .inl he)
    (fun r s happly => ?_) fun _ _ => trivial) ?_
  · cases happly
    exact ⟨hKold _ fun v e he => .inl he, rfl, rfl⟩
  rintro _ m1 ⟨hvolumes, hbackups⟩
  refine Completes.bind (stageVolumes_spec hH hKold htop hvolumes hbackups) ?_
  rintro _ m2 ⟨-, hstaged⟩
  have hstage := fun v => (hstaged v).1
  have hlist := fun v => (hstaged v).2.2
  -- from here to the replacement only the staged entries of the state volume change
  have hKstate : ∀ w, Kept (m.volumes .state).entries w →
      DataKept m (archives m identifier) (m2.setVolume .state w) := by
    intro w hw
    refine hKold _ fun v => ?_
    rw [Machine.setVolume_volumes]
    split
    · next h => exact h ▸ hw
    · exact (hlist v).kept
  refine Completes.bind (invalidateSessions_spec hH hKstate (hstage .state)
    (archives_unpacked m identifier .state) (hverified.proper .state) (hlist .state)) ?_
  rintro _ _ ⟨w, cleaned, rfl, hclear⟩
  refine look_then hH trivial (hKstate w hclear.list.kept) fun left settings _ => ?_
  split
  · exact Completes.throw trivial (hKstate w hclear.list.kept)
  have hbase : ∀ e ∈ cleaned, e.path = [settingsTemporary] →
      fresh (withStage (m.volumes .state).entries) ≤ e.inode := by
    intro e he hpath
    have hjournal : ¬IsJournal (archives m identifier .state) e.path := by
      rw [hpath]
      exact not_isJournal_cons (by decide) (by decide) []
    obtain ⟨a, ha, rfl⟩ := (hclear.cleaned e hjournal).mp he
    rw [clean_inode]
    exact (archives_unpacked m identifier .state).base_le a ha
  have hwrite : Completes H True (DataKept m (archives m identifier))
      (writeSettings [stageName] true false) _ (m2.setVolume .state w) :=
    writeSettings_spec hH (fun w' hw' => by rw [Machine.setVolume_setVolume]; exact hKstate w' hw')
      (hstage .state) hclear.proper hbase hclear.list
  refine Completes.bind hwrite ?_
  rintro _ _ ⟨w', settled, rfl, hsettled, hproper, hstate⟩
  rw [Machine.setVolume_setVolume]
  let new : VolumeName → List Entry :=
    fun v => if v = .state then settled else archives m identifier v
  have houtcome : Outcome (archives m identifier) new :=
    ⟨fun v hv => if_neg hv, cleaned, hclear.cleaned, hstate⟩
  have hnew : ∀ v, Proper (new v) := by
    intro v
    by_cases h : v = .state
    · rw [show new v = settled from if_pos h]
      exact hproper
    · rw [show new v = _ from if_neg h]
      exact hverified.proper v
  have hready : ∀ v, Staged (m.volumes v).entries (new v) ((m2.setVolume .state w').volumes v) := by
    intro v
    rw [Machine.setVolume_volumes]
    split
    · next h =>
      rw [show new v = settled from if_pos h, h]
      exact hsettled.staged
    · next h =>
      rw [show new v = _ from if_neg h]
      exact (hlist v).staged
  refine Completes.bind (store_spec (c := .setPending identifier) (Q := fun _ m' =>
    m'.volumes = (m2.setVolume .state w').volumes) hH (hKstate w' hsettled.kept)
    (fun r s happly => ?_) fun _ _ => trivial) ?_
  · cases happly
    exact ⟨hKstate w' hsettled.kept, rfl⟩
  rintro _ m3 hvolumes3
  refine Completes.bind (replaceVolumes_spec hH hKold hne hstage htop hnew
    (fun v => by rw [hvolumes3]; exact hready v)) ?_
  rintro _ m4 ⟨-, hreplaced⟩
  refine sync_bind hH (hKold _ fun v => (hreplaced v).kept) ?_
  have hKnew : ∀ m', (∀ v, Holds (new v) (m'.volumes v)) → DataKept m (archives m identifier) m' :=
    fun m' h => .inr ⟨new, houtcome, h⟩
  refine Completes.bind (removePrevious_spec hH hKnew hnew hreplaced) ?_
  rintro _ m5 ⟨-, hfinal⟩
  -- what follows does not touch the volumes
  have hKfinal : ∀ m', m'.volumes = m5.volumes → DataKept m (archives m identifier) m' :=
    fun m' h => hKnew m' fun v e _ => by rw [h]; exact hfinal v e
  have hstore : ∀ (c : StoreCall) (m' : Machine), m'.volumes = m5.volumes →
      Completes H True (DataKept m (archives m identifier)) (onStore c)
        (fun _ m' => m'.volumes = m5.volumes) m' := fun c m' h =>
    store_spec hH (hKfinal m' h) (fun r s _ => ⟨hKfinal _ h, h⟩) fun _ _ => trivial
  refine Completes.bind (hstore (.putLastRestore identifier) m5 rfl) ?_
  rintro _ m6 hvolumes6
  refine Completes.bind (hstore (.setSafeMode true) m6 hvolumes6) ?_
  rintro _ m7 hvolumes7
  refine Completes.bind (hstore .clearPending m7 hvolumes7) ?_
  rintro _ m8 hvolumes8
  refine system_spec (c := .sync) hH (hKfinal m8 hvolumes8) ⟨hKfinal _ hvolumes8,
    fun v => (hstaged v).2.1, new, houtcome, ?_⟩
  change ∀ v e, e ∈ (m8.volumes v).entries ↔ e ∈ new v
  rw [hvolumes8]
  exact hfinal

end

end Rumahl.Host
