import Rumahl.Host.Rules

/-!
# Backups of user content

A backup is made and accepted again exactly if no volume holds a special file or a name that the
broker has reserved for itself (`backup_accepted`), and users can make both.
-/

namespace Rumahl.Host

open Effect List

namespace Store

variable {bs : List (String × Backup)} {name target : String} {b : Backup}
  {order names : List String}

theorem find_eq_none : find name bs = none ↔ name ∉ bs.map Prod.fst := by
  induction bs with
  | nil => simp [find]
  | cons c bs ih =>
    rw [find, map_cons, mem_cons, not_or, ← ih]
    split
    · next hc => simp [hc]
    · next hc => simp [Ne.symm hc]

theorem find_append (hnone : name ∉ bs.map Prod.fst) : find name (bs ++ [(name, b)]) = some b := by
  induction bs with
  | nil => simp [find]
  | cons c bs ih =>
    rw [map_cons, mem_cons, not_or] at hnone
    rw [cons_append, find, if_neg (Ne.symm hnone.1), ih hnone.2]

theorem map_append (hnone : name ∉ bs.map Prod.fst) (f : String × Backup → String × Backup) :
    (bs ++ [(name, b)]).map (fun c => if c.1 = name then f c else c) = bs ++ [f (name, b)] := by
  have hsame : bs.map (fun c => if c.1 = name then f c else c) = bs.map id :=
    map_congr_left fun c hc => if_neg fun h : c.1 = name => hnone (h ▸ mem_map_of_mem hc)
  rw [List.map_append, hsame, List.map_id, List.map_singleton, if_pos rfl]

theorem mem_arrange : name ∈ arrange order names ↔ name ∈ names := by
  simp only [arrange, mem_append, mem_filter, mem_dedup, decide_eq_true_eq]
  tauto

theorem arrange_perm (order : List String) (hn : names.Nodup) :
    (arrange order names).Perm names := by
  refine (perm_ext_iff_of_nodup ?_ hn).mpr fun name => mem_arrange
  refine nodup_append.mpr ⟨(nodup_dedup order).filter _, hn.filter _, ?_⟩
  rintro a ha _ hb rfl
  simp_all

end Store

section

variable {sha256 : Archive → String} {faulty : Prop} {may : Call → Machine → Prop}
  {H : Handler Call Answer I Machine} {m m0 : Machine} {es : VolumeName → List Entry}
  {directory identifier : String} {vs : List VolumeName}

/-- What the store has gained: a directory with archives of volumes, with all else as it was. -/
structure Packed (directory : String) (b : Backup) (vs : List VolumeName) (m m' : Machine) :
    Prop where
  fresh : directory ∉ m.store.backups.map Prod.fst
  volumes : m'.volumes = m.volumes
  store : m'.store = { m.store with backups := m.store.backups ++ [(directory, b)] }
  archives : ∀ v ∈ vs, Store.archive? v b.archives = some (pack (m.volumes v).entries)

theorem Packed.find (hp : Packed directory b vs m0 m) :
    Store.find directory m.store.backups = some b := by
  rw [hp.store]
  exact Store.find_append hp.fresh

theorem Packed.read (hp : Packed directory b vs m0 m) (hv : v ∈ vs) :
    (Store.find directory m.store.backups).bind (fun b => Store.archive? v b.archives) =
      some (pack (m0.volumes v).entries) := by
  rw [hp.find]
  exact hp.archives v hv

def Machine.setBackups (m : Machine) (bs : List (String × Backup)) : Machine :=
  { m with store := { m.store with backups := bs } }

/-- The machine with one archive more. -/
def Machine.addArchive (m : Machine) (directory : String) (v : VolumeName) (members : Archive) :
    Machine :=
  m.setBackups (Store.update directory (Backup.addArchive v members) m.store.backups)

theorem Packed.add (hp : Packed directory b vs m0 m) (v : VolumeName) :
    Packed directory (b.addArchive v (pack (m0.volumes v).entries)) (v :: vs) m0
      (m.addArchive directory v (pack (m0.volumes v).entries)) where
  fresh := hp.fresh
  volumes := hp.volumes
  store := by
    rw [Machine.addArchive, Machine.setBackups, hp.store, Store.update]
    simp only [Store.map_append hp.fresh]
  archives v' hv' := by
    rw [Backup.addArchive, Store.archive?]
    split
    · next h => rw [show v = v' from h]
    · next h => exact hp.archives v' ((mem_cons.mp hv').resolve_left (Ne.symm h))

/-- A volume that can be backed up. -/
structure Packable (v : VolumeName) (w : Volume) : Prop where
  available : w.available = true
  nested : w.nested = false
  check : checkArchive v (pack w.entries) = .ok ()

theorem snapshotVolume_spec (hH : (device sha256).Serves faulty may H)
    (hx : faulty ∨ Packable v (m0.volumes v)) (hp : Packed directory b vs m0 m) :
    Completes H faulty (fun _ => True) (snapshotVolume directory v)
      (fun d m' => checkArchive v (pack (m0.volumes v).entries) = .ok () ∧
        d = sha256 (pack (m0.volumes v).entries) ∧ ∃ b, Packed directory b (v :: vs) m0 m') m := by
  refine look_bind hH trivial trivial (fun _ => rfl) ?_
  rw [hp.volumes]
  split
  · next h =>
    exact Completes.throw (hx.resolve_right fun hx => Bool.noConfusion (hx.available.symm.trans h))
      trivial
  split
  · next h =>
    exact Completes.throw (hx.resolve_right fun hx => Bool.noConfusion (hx.nested.symm.trans h))
      trivial
  refine look_bind hH trivial trivial (fun _ => rfl) ?_
  rw [hp.volumes]
  have hput : StoreCall.apply sha256 m.store
    (.putArchive directory v (pack (m0.volumes v).entries)) =
      .ok ((), (m.addArchive directory v (pack (m0.volumes v).entries)).store) :=
    if_pos (by rw [hp.find]; rfl)
  refine store_bind hH trivial trivial hput ?_
  have hadd := hp.add v
  have hread := hadd.read mem_cons_self
  refine read_bind hH trivial (readArchive_apply hread) ?_
  refine check_bind trivial (hx.imp_right Packable.check) fun hcheck => ?_
  refine read_bind hH trivial (digest_apply hread) ?_
  exact sync_bind hH trivial (Completes.ret ⟨hcheck, rfl, _, hadd⟩)

theorem snapshotVolumes_spec (hH : (device sha256).Serves faulty may H)
    (hx : faulty ∨ ∀ v, Packable v (m0.volumes v)) (hp : Packed directory b vs m0 m) :
    Completes H faulty (fun _ => True) (snapshotVolumes directory vs')
      (fun ds m' => (∀ v ∈ vs', checkArchive v (pack (m0.volumes v).entries) = .ok ()) ∧
        ds = vs'.map (fun v => (v, sha256 (pack (m0.volumes v).entries))) ∧
        ∃ b, Packed directory b (vs'.reverse ++ vs) m0 m') m := by
  induction vs' generalizing vs m b with
  | nil => exact Completes.ret ⟨fun _ h => (nomatch h), rfl, b, hp⟩
  | cons v vs' ih =>
    refine Completes.bind (snapshotVolume_spec hH (hx.imp_right (· v)) hp) ?_
    rintro d m1 ⟨hcheck, rfl, b1, hp1⟩
    refine Completes.bind (ih hp1) ?_
    rintro ds m2 ⟨hchecks, rfl, b2, hp2⟩
    refine Completes.ret ⟨forall_mem_cons.mpr ⟨hcheck, hchecks⟩, rfl, b2, ?_⟩
    rwa [reverse_cons, append_assoc]

/-- A backup that holds what the volumes hold. -/
structure HasBackup (sha256 : Archive → String) (es : VolumeName → List Entry)
    (identifier : String) (time : Nat) (binding : List (String × String)) (m : Machine) : Prop where
  find : ∃ b, Store.find identifier m.store.backups = some b ∧
    b.manifest = some ⟨1, identifier, time, binding,
      VolumeName.all.map fun v => (v, sha256 (pack (es v)))⟩ ∧
    ∀ v, Store.archive? v b.archives = some (pack (es v))

/-- A backup is made only where every volume can be packed and its name is free, and then it is the
last directory of the store. -/
theorem createSnapshot_spec (hH : (device sha256).Serves faulty may H)
    (hx : faulty ∨ (∀ v, Packable v (m.volumes v)) ∧ Store.find identifier m.store.backups = none ∧
      Store.find (identifier ++ ".partial") m.store.backups = none) :
    Completes H faulty (fun _ => True) (createSnapshot identifier time binding)
      (fun r m' => (∀ v, checkArchive v (pack (m.volumes v).entries) = .ok ()) ∧ r = identifier ∧
        ∃ b, Packed identifier b VolumeName.all m m' ∧ b.manifest =
          some ⟨1, identifier, time, binding,
          VolumeName.all.map fun v => (v, sha256 (pack (m.volumes v).entries))⟩) m := by
  refine Completes.seq (store_spec hH trivial (fun _ s happly => ⟨trivial, ?_⟩) fun e happly =>
    hx.resolve_right fun h => ?_)
  case refine_2 => simp [StoreCall.apply, h.2.2] at happly
  simp only [StoreCall.apply] at happly
  split at happly <;> cases happly
  next hsome =>
  have hfresh := Store.find_eq_none.mp (Option.not_isSome_iff_eq_none.mp hsome)
  have hstart : Packed (identifier ++ ".partial") {} [] m (m.setBackups
    (m.store.backups ++ [(identifier ++ ".partial", ({} : Backup))])) :=
      ⟨hfresh, rfl, rfl, List.forall_mem_nil _⟩
  refine Completes.bind (snapshotVolumes_spec hH (hx.imp_right And.left) hstart) ?_
  rintro ds m1 ⟨hchecks, rfl, b, hp⟩
  generalize (⟨1, identifier, time, binding,
    VolumeName.all.map fun v => (v, sha256 (pack (m.volumes v).entries))⟩ : Manifest) = manifest
  have hput : StoreCall.apply sha256 m1.store (.putManifest (identifier ++ ".partial") manifest) =
      .ok ((), { m.store with backups :=
        m.store.backups ++ [(identifier ++ ".partial", b.setManifest manifest)] }) := by
    refine (if_pos (by rw [hp.find]; rfl)).trans ?_
    simp only [hp.store, Store.update, Store.map_append hfresh]
  refine store_bind hH trivial trivial hput ?_
  -- the directory with the manifest gets its final name
  have hfind := Store.find_append (b := b.setManifest manifest) hfresh
  have hfree : Store.find identifier (m.store.backups ++
      [(identifier ++ ".partial", b.setManifest manifest)]) = none ↔
        identifier ∉ m.store.backups.map Prod.fst := by
    have hne : identifier ≠ identifier ++ ".partial" := by
      intro h
      have := congrArg String.length h
      rw [String.length_append] at this
      simp at this
    rw [Store.find_eq_none, map_append, mem_append]
    simp [hne]
  refine Completes.seq (store_spec hH trivial (fun _ s happly => ⟨trivial, ?_⟩) fun e happly =>
    hx.resolve_right fun h => ?_)
  case refine_2 =>
    simp [StoreCall.apply, hfind, hfree.mpr (Store.find_eq_none.mp h.2.1)] at happly
  simp only [StoreCall.apply, hfind, Option.isNone_some, Bool.false_eq_true, if_false] at happly
  split at happly <;> cases happly
  next hnone =>
  refine sync_bind hH trivial (Completes.ret ⟨fun v => hchecks v v.mem_all, rfl,
    b.setManifest manifest, ⟨hfree.mp (Option.not_isSome_iff_eq_none.mp hnone), hp.volumes, ?_,
      fun v _ => hp.archives v (by simp [v.mem_all])⟩, rfl⟩)
  simp only [Store.rename, Store.map_append hfresh]

theorem Packed.hasBackup (hp : Packed identifier b VolumeName.all m0 m)
    (hmanifest : b.manifest = some ⟨1, identifier, time, binding,
      VolumeName.all.map fun v => (v, sha256 (pack (m0.volumes v).entries))⟩) :
    HasBackup sha256 (fun v => (m0.volumes v).entries) identifier time binding m :=
  ⟨b, hp.find, hmanifest, fun v => hp.archives v v.mem_all⟩

theorem verifyVolumes_spec (hH : (device sha256).Serves faulty may H)
    (hfind : Store.find identifier m.store.backups = some b)
    (harchives : ∀ v, Store.archive? v b.archives = some (pack (es v)))
    (hchecks : ∀ v, checkArchive v (pack (es v)) = .ok ()) :
    Completes H faulty (fun _ => True)
      (verifyVolumes identifier (vs.map fun v => (v, sha256 (pack (es v)))))
        (fun _ _ => True) m := by
  have harchive : ∀ v, (Store.find identifier m.store.backups).bind
      (fun b => Store.archive? v b.archives) = some (pack (es v)) := fun v => by
    rw [hfind]
    exact harchives v
  induction vs with
  | nil => exact Completes.ret trivial
  | cons v vs ih =>
    refine read_bind hH trivial (digest_apply (harchive v)) ?_
    rw [if_neg (not_not.mpr rfl)]
    refine read_bind hH trivial (readArchive_apply (harchive v)) ?_
    exact check_bind trivial (.inr (hchecks v)) fun _ => ih

theorem verify_spec (hH : (device sha256).Serves faulty may H)
    (hb : HasBackup sha256 es identifier time binding m) (hid : isId identifier = true)
    (hchecks : ∀ v, checkArchive v (pack (es v)) = .ok ()) :
    Completes H faulty (fun _ => True) (verify identifier binding) (fun _ _ => True) m := by
  obtain ⟨b, hfind, hmanifest, harchives⟩ := hb.find
  have hpath : Completes H faulty (fun _ => True) (snapshotPath identifier)
      (fun _ m' => m' = m) m := by
    unfold snapshotPath
    rw [if_neg (by rw [hid]; nofun)]
    refine read_bind hH trivial rfl ?_
    rw [if_pos (Store.mem_arrange.mpr (not_not.mp fun h => by
      rw [Store.find_eq_none.mpr h] at hfind
      cases hfind))]
    exact Completes.ret rfl
  refine Completes.bind hpath ?_
  rintro _ m' rfl
  have hread : StoreCall.apply sha256 m'.store (.readManifest identifier) =
      .ok (⟨1, identifier, time, binding, VolumeName.all.map fun v => (v, sha256 (pack (es v)))⟩,
        m'.store) := by
    simp only [StoreCall.apply, hfind, Option.bind_some, hmanifest]
  refine read_bind hH trivial hread ?_
  rw [if_neg (by simp), if_neg (by simp)]
  exact verifyVolumes_spec hH hfind harchives hchecks

end

/-- Volumes that hold the trees, and no backup that stands in the way of a new one. -/
structure Ready (t : VolumeName → FileTree) (identifier : String) (m : Machine) : Prop where
  volumes : ∀ v, m.volumes v = ⟨true, false, (t v).entries⟩
  isId : isId identifier = true
  new : Store.find identifier m.store.backups = none
  unfinished : Store.find (identifier ++ ".partial") m.store.backups = none

/-- A backup of the trees is made and accepted. -/
def BackupAccepted (sha256 : Archive → String) (identifier : String) (time : Nat)
    (binding : List (String × String)) (m : Machine) : Prop :=
  ∃ m', exec (device sha256).handler (createSnapshot identifier time binding) [] m =
      (.done identifier, m') ∧
    (exec (device sha256).handler (verify identifier binding) [] m').1 = .done ()

/-- A backup of user content is made and accepted if and only if no name is one of the broker's own
and no file is special. -/
theorem backup_accepted (sha256 : Archive → String) (t : VolumeName → FileTree) (m : Machine)
    (identifier : String) (time : Nat) (binding : List (String × String))
    (h : Ready t identifier m) :
    BackupAccepted sha256 identifier time binding m ↔
      ∀ v, ∀ e ∈ (t v).entries, (∀ name ∈ e.path, name ∉ reserved) ∧ Storable v e.node := by
  have hcheck : (∀ v, ∀ e ∈ (t v).entries, Admissible v e) ↔
      ∀ v, checkArchive v (pack (t v).entries) = .ok () :=
    forall_congr' fun v => (checkArchive_pack v (t v)).symm
  change _ ↔ ∀ v, ∀ e ∈ (t v).entries, Admissible v e
  rw [hcheck]
  constructor
  · rintro ⟨m', hexec, -⟩ v
    have hcheck := (Completes.done (createSnapshot_spec (device sha256).handler_serves
      (.inl trivial))
      hexec).1 v
    rwa [h.volumes] at hcheck
  · intro hchecks
    have hserves := (device sha256).undisturbed_serves fun _ _ => True
    have hpackable : ∀ v, Packable v (m.volumes v) := fun v => by
      rw [h.volumes]
      exact ⟨rfl, rfl, hchecks v⟩
    have hcreate : Completes ((device sha256).handler.comap Turn.done) False (fun _ => True)
        (createSnapshot identifier time binding) _ m :=
      createSnapshot_spec hserves (.inr ⟨hpackable, h.new, h.unfinished⟩)
    obtain ⟨r, m', hexec, -, rfl, b, hp, hb⟩ := Device.returns_undisturbed hcreate []
    obtain ⟨_, m'', hexec', -⟩ := Device.returns_undisturbed
      (verify_spec hserves (hp.hasBackup hb) h.isId fun v => (hpackable v).check) []
    exact ⟨m', hexec, congrArg Prod.fst hexec'⟩

/-! ## A home with one file -/

/-- The home of one user, with one thing in it. -/
def anaTree (name : String) (hname : IsName name) (node : Node) : FileTree where
  entries := [⟨["ana"], 1, .directory⟩, ⟨["ana", name], 2, node⟩]
  path_ne := by simp
  names := by
    have hana : IsName "ana" := by decide
    simp [hname, hana]
  nodup := by simp
  parents := by simp
  shared := by simp

def emptyTree : FileTree where
  entries := []
  path_ne _ h := nomatch h
  names _ h := nomatch h
  nodup := nodup_nil
  parents _ h := nomatch h
  shared _ h := nomatch h

def anaVolumes (t : FileTree) (v : VolumeName) : FileTree := if v = .home then t else emptyTree

def anaMachine (t : FileTree) : Machine where
  volumes v := ⟨true, false, (anaVolumes t v).entries⟩

def anaBackup : String := String.ofList (List.replicate 32 'a')

theorem anaMachine_ready (t : FileTree) : Ready (anaVolumes t) anaBackup (anaMachine t) where
  volumes _ := rfl
  isId := by decide +kernel
  new := rfl
  unfinished := rfl

/-- A home with a link in it is backed up. -/
theorem link_backup_accepted : BackupAccepted (fun _ => "digest") anaBackup 1 []
      (anaMachine (anaTree "link" (by decide) (.symlink "/etc"))) := by
  rw [backup_accepted _ _ _ _ _ _ (anaMachine_ready _)]
  intro v
  cases v <;> simp [anaVolumes, anaTree, emptyTree, reserved, Storable]

/-- A named pipe in a home makes every backup fail, and so does a directory with a reserved name. -/
theorem pipe_backup_fails : Ready (anaVolumes (anaTree "pipe" (by decide) .fifo)) anaBackup
        (anaMachine (anaTree "pipe" (by decide) .fifo)) ∧
      (exec (device fun _ => "digest").handler (createSnapshot anaBackup 1 []) []
        (anaMachine (anaTree "pipe" (by decide) .fifo))).1 =
          .failed (valueError "unsupported archive entry") ∧
      (exec (device fun _ => "digest").handler (createSnapshot anaBackup 1 []) []
        (anaMachine (anaTree ".rre-stage" (by decide) .directory))).1 =
          .failed (valueError "unsafe archive path") := by
  refine ⟨anaMachine_ready _, ?_, ?_⟩ <;> decide +kernel

end Rumahl.Host
