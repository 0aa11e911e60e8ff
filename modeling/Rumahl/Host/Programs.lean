import Rumahl.Effect.Sequence
import Rumahl.Host.Rules

/-!
# Which calls the programs of the broker make

One lemma for each program, over any class of calls that contains those it makes (`Makes`).
-/

namespace Rumahl.Host

open Effect

/-- A class of calls with those on volumes of a kind, and those on the system that neither start
services nor ask which are active. -/
structure Reaches (P : VolumeCall → Prop) (Φ : Call → Prop) : Prop where
  volume : ∀ v c, P c → Φ (.volume v c)
  system : ∀ c, (∀ units, c ≠ .start units) → c ≠ .active → Φ (.system c)

/-- Such a class with those on the store that have nothing to do with the marker. -/
structure Admits (P : VolumeCall → Prop) (Φ : Call → Prop) : Prop extends Reaches P Φ where
  store : ∀ c, (∀ id, c ≠ .setPending id) → c ≠ .clearPending → c ≠ .pendingExists → Φ (.store c)

/-- A call that makes a backup. -/
def StoreCall.Packs : StoreCall → Prop
  | .makeDirectory _ | .putArchive .. | .readArchive .. | .digest .. | .putManifest ..
  | .rename .. => True
  | _ => False

/-- A program that makes calls of a class. -/
abbrev Makes (Φ : Call → Prop) (p : Broker α) : Prop := p.Only Φ fun _ => True

section

variable {Φ : Call → Prop} {P : VolumeCall → Prop}

theorem Makes.bind (hp : Makes Φ p) (hf : ∀ a, Makes Φ (f a)) : Makes Φ (p >>= f) :=
  Prog.Only.bind hp fun a _ => hf a

theorem Makes.ofExcept : Makes Φ (Prog.ofExcept id x : Broker α) :=
  Prog.Only.ofExcept _ fun _ _ => trivial

theorem Makes.call (hc : Φ c) : Makes Φ (call c) := ⟨hc, fun _ => Makes.ofExcept⟩

theorem Makes.caught {f : Except BrokerError α → Broker β} (hp : Makes Φ p)
    (hf : ∀ r, Makes Φ (f r)) : Makes Φ (p.attempt >>= f) :=
  Prog.Only.bind (.attempt hp fun _ => trivial) fun r (_ : True) => hf r

theorem Makes.verify (hreads : ∀ c : StoreCall, c.Reads → c ≠ .pendingExists → Φ (.store c))
    (identifier : String) (binding : List (String × String)) :
    Makes Φ (verify identifier binding) := by
  have hread {c : StoreCall} (hc : c.Reads) (hask : c ≠ .pendingExists) : Makes Φ (onStore c) :=
    .call (hreads c hc hask)
  have hvolumes (rest : List (VolumeName × String)) : Makes Φ (verifyVolumes identifier rest) := by
    induction rest with
    | nil => trivial
    | cons p rest ih =>
      refine Makes.bind (hread trivial nofun) fun digest => ?_
      split
      · trivial
      · refine Makes.bind (hread trivial nofun) fun members => ?_
        exact Makes.ofExcept.bind fun _ => ih
  have hpath : Makes Φ (snapshotPath identifier) := by
    unfold snapshotPath
    split
    · trivial
    · refine Makes.bind (hread trivial nofun) fun names => ?_
      split <;> trivial
  refine hpath.bind fun _ => Makes.bind (hread trivial nofun) fun manifest => ?_
  split
  · trivial
  split
  · trivial
  exact hvolumes _

section

variable (h : Reaches P Φ)
include h

theorem Reaches.onVolume (v : VolumeName) (hc : P c) : Makes Φ (onVolume v c) :=
  .call (h.volume v c hc)

theorem Reaches.onSystem (hstart : ∀ units, c ≠ .start units) (hactive : c ≠ .active) :
    Makes Φ (onSystem c) :=
  .call (h.system c hstart hactive)

theorem Reaches.writeReplacing (hP : ∀ c, P c) (v : VolumeName) (directory : List String)
    (temporary name : String) (data : FileData) :
    Makes Φ (writeReplacing v directory temporary name data) := by
  refine Makes.bind (h.onVolume v (hP _)) fun _ => ?_
  refine Makes.bind (h.onVolume v (hP _)) fun _ => ?_
  refine Makes.bind (h.onVolume v (hP _)) fun _ => ?_
  exact Makes.bind (h.onVolume v (hP _)) fun _ => h.onVolume v (hP _)

theorem Reaches.writeLifecycle (hP : ∀ c, P c) (intent : String) :
    Makes Φ (writeLifecycle intent) :=
  h.writeReplacing hP ..

theorem Reaches.stopWriters : Makes Φ stopWriters := by
  have hcontainers (ids : List String) : Makes Φ (stopContainers ids) := by
    induction ids with
    | nil => trivial
    | cons id ids ih =>
      rw [stopContainers]
      split
      · trivial
      · exact Makes.bind (h.onSystem nofun nofun) fun _ => ih
  refine Makes.bind (h.onSystem nofun nofun) fun _ => ?_
  refine Makes.bind (h.onSystem nofun nofun) fun ids => (hcontainers ids).bind fun _ => ?_
  exact Makes.bind (h.onSystem nofun nofun) fun _ => h.onSystem nofun nofun

variable (hpack : ∀ c : StoreCall, c.Packs → Φ (.store c)) (hstatus : P .status)
  (harchive : P .archive)
include hpack hstatus harchive

theorem Reaches.snapshotVolumes (directory : String) (vs : List VolumeName) :
    Makes Φ (snapshotVolumes directory vs) := by
  induction vs with
  | nil => trivial
  | cons v vs ih =>
    have hvolume : Makes Φ (snapshotVolume directory v) := by
      refine Makes.bind (h.onVolume v hstatus) fun status => ?_
      split
      · trivial
      split
      · trivial
      refine Makes.bind (h.onVolume v harchive) fun packed => ?_
      refine Makes.bind (.call (hpack _ trivial)) fun _ => ?_
      refine Makes.bind (.call (hpack _ trivial)) fun members => Makes.bind .ofExcept fun _ => ?_
      refine Makes.bind (.call (hpack _ trivial)) fun digest => ?_
      exact Makes.bind (h.onSystem nofun nofun) fun _ => trivial
    exact hvolume.bind fun digest => ih.bind fun digests => trivial

theorem Reaches.createSnapshot (identifier : String) (time : Nat)
    (binding : List (String × String)) : Makes Φ (createSnapshot identifier time binding) := by
  refine Makes.bind (.call (hpack _ trivial)) fun _ => ?_
  refine (h.snapshotVolumes hpack hstatus harchive _ _).bind fun digests => ?_
  refine Makes.bind (.call (hpack _ trivial)) fun _ => ?_
  refine Makes.bind (.call (hpack _ trivial)) fun _ => ?_
  exact Makes.bind (h.onSystem nofun nofun) fun _ => trivial

end

variable (h : Admits P Φ)
include h

theorem Admits.onStore (hset : ∀ id, c ≠ .setPending id) (hclear : c ≠ .clearPending)
    (hask : c ≠ .pendingExists) : Makes Φ (onStore c) :=
  .call (h.store c hset hclear hask)

/-! ## Backups -/

theorem Admits.createSnapshot (hstatus : P .status) (harchive : P .archive) (identifier : String)
    (time : Nat) (binding : List (String × String)) :
    Makes Φ (createSnapshot identifier time binding) := by
  refine h.toReaches.createSnapshot (fun c hc => h.store c ?_ ?_ ?_) hstatus harchive ..
  · rintro id rfl
    exact hc
  · rintro rfl
    exact hc
  · rintro rfl
    exact hc

theorem Admits.verify (identifier : String) (binding : List (String × String)) :
    Makes Φ (verify identifier binding) := by
  refine Makes.verify (fun c hreads hask => h.store c ?_ ?_ hask) identifier binding
  · rintro id rfl
    exact hreads
  · rintro rfl
    exact hreads

/-! ## Restoring -/

theorem Admits.stageVolumes (hP : ∀ c, P c) (identifier : String) (vs : List VolumeName) :
    Makes Φ (stageVolumes identifier vs) := by
  induction vs with
  | nil => trivial
  | cons v vs ih =>
    refine Makes.bind ?_ fun _ => ih
    refine Makes.bind (h.onVolume v (hP _)) fun status => ?_
    split
    · trivial
    refine Makes.bind (h.onVolume v (hP _)) fun stage => ?_
    split
    · trivial
    refine Makes.bind (h.onVolume v (hP _)) fun _ => ?_
    refine Makes.bind (h.onStore nofun nofun nofun) fun members => ?_
    exact h.onVolume v (hP _)

theorem Admits.requireFile (hP : ∀ c, P c) (p : List String) :
    Makes Φ (requireFile p) := by
  refine Makes.bind (h.onVolume _ (hP _)) fun node => ?_
  split <;> trivial

theorem Admits.invalidateSessions (hP : ∀ c, P c) (directory : List String) :
    Makes Φ (invalidateSessions directory) := by
  refine (h.requireFile hP _).bind fun _ => ?_
  refine (h.requireFile hP _).bind fun _ => ?_
  refine Makes.bind (h.onVolume _ (hP _)) fun names => ?_
  induction names.filter (fun name => isDatabaseName name) with
  | nil => trivial
  | cons name names ih =>
    refine (h.requireFile hP _).bind fun _ => ?_
    refine Makes.bind (h.onVolume _ (hP _)) fun existing => ?_
    exact Makes.bind (h.onVolume _ (hP _)) fun _ => ih

section

variable (hP : ∀ c, P c)
include hP

theorem Admits.writeSettings (directory : List String) (safe repair : Bool) :
    Makes Φ (writeSettings directory safe repair) :=
  (h.writeReplacing hP ..).bind fun _ => h.onVolume _ (hP _)

theorem Admits.moveAll (v : VolumeName) (source target : List String) (names : List String) :
    Makes Φ (moveAll v source target names) := by
  induction names with
  | nil => trivial
  | cons name names ih => exact Makes.bind (h.onVolume v (hP _)) fun _ => ih

theorem Admits.replaceVolumes (vs : List VolumeName) : Makes Φ (replaceVolumes vs) := by
  induction vs with
  | nil => trivial
  | cons v vs ih =>
    refine Makes.bind ?_ fun _ => ih
    refine Makes.bind (h.onVolume v (hP _)) fun previous => ?_
    split
    · trivial
    refine Makes.bind (h.onVolume v (hP _)) fun _ => ?_
    refine Makes.bind (h.onVolume v (hP _)) fun old => ?_
    refine (h.moveAll hP ..).bind fun _ => Makes.bind (h.onVolume v (hP _)) fun new => ?_
    exact (h.moveAll hP ..).bind fun _ => h.onVolume v (hP _)

theorem Admits.removePrevious (vs : List VolumeName) : Makes Φ (removePrevious vs) := by
  induction vs with
  | nil => trivial
  | cons v vs ih => exact Makes.bind (h.onVolume v (hP _)) fun _ => ih

end

/-- A restore also sets the marker and removes it. -/
theorem Admits.restoreSnapshot (hP : ∀ c, P c) (hset : ∀ id, Φ (.store (.setPending id)))
    (hclear : Φ (.store .clearPending)) (identifier : String) (binding : List (String × String)) :
    Makes Φ (restoreSnapshot identifier binding) := by
  refine (h.verify identifier binding).bind fun _ => ?_
  refine (Makes.call (hset identifier)).bind fun _ => ?_
  refine (h.stageVolumes hP ..).bind fun _ => (h.invalidateSessions hP _).bind fun _ => ?_
  refine Makes.bind (h.onVolume _ (hP _)) fun settings => ?_
  split
  · trivial
  refine (h.writeSettings hP ..).bind fun _ => (Makes.call (hset identifier)).bind fun _ => ?_
  refine (h.replaceVolumes hP _).bind fun _ => Makes.bind (h.onSystem nofun nofun) fun _ => ?_
  refine (h.removePrevious hP _).bind fun _ => ?_
  refine Makes.bind (h.onStore nofun nofun nofun) fun _ => ?_
  refine Makes.bind (h.onStore nofun nofun nofun) fun _ => (Makes.call hclear).bind fun _ => ?_
  exact h.onSystem nofun nofun

/-! ## Resetting -/

theorem Admits.resetVolumes (hP : ∀ c, P c) (vs : List VolumeName) :
    Makes Φ (resetVolumes vs) := by
  have herase (v : VolumeName) (names : List String) : Makes Φ (eraseAll v names) := by
    induction names with
    | nil => trivial
    | cons name names ih =>
      refine Makes.bind (h.onVolume v (hP _)) fun node => ?_
      split <;> exact Makes.bind (h.onVolume v (hP _)) fun _ => ih
  induction vs with
  | nil => trivial
  | cons v vs ih =>
    refine Makes.bind (h.onVolume v (hP _)) fun status => ?_
    split
    · trivial
    refine Makes.bind (h.onVolume v (hP _)) fun names => ?_
    exact (herase v _).bind fun _ => ih

/-! ## Jobs -/

theorem Admits.readableManifests (names : List String) :
    Makes Φ (readableManifests names) := by
  induction names with
  | nil => trivial
  | cons name names ih =>
    rw [Host.readableManifests]
    split
    · exact ih
    · refine Makes.caught (h.onStore nofun nofun nofun) fun manifest => ?_
      refine Makes.bind ih fun others => ?_
      cases manifest <;> trivial

theorem Admits.newestBackup (binding : List (String × String)) :
    Makes Φ (newestBackup binding) :=
  Makes.bind (h.onStore nofun nofun nofun) fun names =>
    Makes.bind (h.readableManifests names) fun _ => trivial

theorem Admits.loadSchedule : Makes Φ loadSchedule :=
  Makes.caught (h.onStore nofun nofun nofun) fun keep => by cases keep <;> trivial

theorem Admits.pruneBackups (keep : Nat) : Makes Φ (pruneBackups keep) := by
  have hremove (names : List String) : Makes Φ (removeBackups names) := by
    induction names with
    | nil => trivial
    | cons name names ih => exact Makes.caught (h.onStore nofun nofun nofun) fun _ => ih
  refine Makes.bind (h.onStore nofun nofun nofun) fun names => ?_
  exact Makes.bind (h.readableManifests names) fun manifests => hremove _

theorem Admits.persistMode (hP : ∀ c, P c) (safe : Bool) :
    Makes Φ (persistMode safe) := by
  refine Makes.bind (h.onVolume _ (hP _)) fun settings => ?_
  split
  · trivial
  refine Makes.caught (h.onVolume _ (hP _)) fun previous => ?_
  refine Makes.bind (h.writeSettings hP ..) fun _ => ?_
  refine Makes.bind (h.onVolume _ (hP _)) fun _ => ?_
  exact Makes.bind (h.onStore nofun nofun nofun) fun _ => h.onSystem nofun nofun

section

variable (hP : ∀ c, P c) (hset : ∀ id, Φ (.store (.setPending id)))
  (hclear : Φ (.store .clearPending))
include hP hset hclear

theorem Admits.restoreSafely (ticket : Ticket) (action : Action) (identifier : String) :
    Makes Φ (restoreSafely ticket action identifier) := by
  refine Makes.bind (h.onSystem nofun nofun) fun binding => ?_
  refine Makes.bind (h.createSnapshot (hP _) (hP _) ..) fun _ => ?_
  refine Makes.bind (h.onStore nofun nofun nofun) fun _ => ?_
  refine Makes.bind (h.onSystem nofun nofun) fun binding => ?_
  refine Makes.bind (h.restoreSnapshot hP hset hclear ..) fun _ => ?_
  exact h.persistMode hP _

theorem Admits.perform (ticket : Ticket) (action : Action) :
    Makes Φ (perform ticket action) := by
  cases action with
  | backup =>
    refine Makes.bind (h.onSystem nofun nofun) fun binding => ?_
    refine Makes.bind (h.createSnapshot (hP _) (hP _) ..) fun _ => ?_
    exact Makes.bind h.loadSchedule fun keep => h.pruneBackups keep
  | restore identifier => exact h.restoreSafely hP hset hclear ..
  | reboot safe => exact h.persistMode hP safe
  | reset | reinstall =>
    exact Makes.bind (h.resetVolumes hP _) fun _ => h.persistMode hP true
  | rollback =>
    refine Makes.bind (h.onSystem nofun nofun) fun binding => ?_
    refine Makes.bind (h.newestBackup binding) fun identifier => ?_
    cases identifier with
    | none => trivial
    | some identifier => exact h.restoreSafely hP hset hclear ..
  | poweroff | fsck => trivial

theorem Admits.act (ticket : Ticket) (action : Action) :
    Makes Φ (act ticket action) := by
  refine Makes.bind (h.writeLifecycle hP _) fun _ => ?_
  refine Makes.bind h.stopWriters fun _ => Makes.bind (h.perform hP hset hclear ..) fun _ => ?_
  refine Makes.bind (h.onStore nofun nofun nofun) fun _ => ?_
  split
  · exact h.onSystem nofun nofun
  split
  · exact h.onSystem nofun nofun
  · trivial

end

end

end Rumahl.Host
