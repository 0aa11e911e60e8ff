import Rumahl.Sqlite.Databases

/-!
# Histories of the database directories

Installations are provisioned, retained and restored in any order, and the process may stop at any
call of the file system. `database_directories` says that no installation ever has two directories,
that databases which were once in use stay where they are or move as a whole between the active and
the retained area, and that provisioning which was cut short goes through when it is repeated.
-/

namespace Rumahl

open Effect List SqliteAppDatabaseProvider Directories

/-! ## Commands -/

inductive DatabaseCommand where
  | provision (bindings : List AppDatabaseBinding)
  | retain (id : InstallationId)
  | restore (id : InstallationId)

namespace DatabaseCommand

def program : DatabaseCommand → DatabaseProvider Bool
  | .provision bindings => do
    provisionInstallation bindings
    pure true
  | .retain id => retainInstallation id
  | .restore id => restoreInstallation id

/-- A command, run under a schedule that may stop it anywhere. -/
def step (e : DatabaseCommand × List Decision) (d : Directories) : Directories :=
  (exec handler e.1.program e.2 d).2

end DatabaseCommand

/-- No directory of any installation. -/
def Directories.empty : Directories := fun _ _ => none

/-! ## What is once in use is kept -/

namespace Directories

variable {d d' : Directories} {id : InstallationId}

/-- What a command leaves: no installation has two directories, and what was in use or retained
still is, with the same entries. -/
structure Preserved (d d' : Directories) : Prop where
  exclusive : ∀ id, d'.Exclusive id
  kept : ∀ id entries, (d .active id = some entries ∨ d .retained id = some entries) →
    d' .active id = some entries ∨ d' .retained id = some entries

namespace Preserved

protected theorem refl (h : ∀ id, d.Exclusive id) : Preserved d d := ⟨h, fun _ _ h => h⟩

theorem of_alone (hd : ∀ id, d.Exclusive id) (ha : d .active id = none)
    (hr : d .retained id = none) (h : SqliteAppDatabaseProvider.Alone d id area d') :
    Preserved d d' where
  exclusive i := h.keeps i (hd i)
  kept i entries he := by
    have hi : i ≠ id := by
      rintro rfl
      rw [ha, hr] at he
      exact he.elim nofun nofun
    rw [h.others _ i hi, h.others _ i hi]
    exact he

/-- The only directory of an installation is moved between the active and the retained area. -/
theorem of_move (hd : ∀ id, d.Exclusive id) (hst : d .staging id = none)
    (hareas : (source = .active ∧ target = .retained) ∨ (source = .retained ∧ target = .active))
    (hentries : d source id = some entries) (hnone : d target id = none) :
    Preserved d ((d.set source id none).set target id (some entries)) where
  exclusive i := by
    refine (SqliteAppDatabaseProvider.Alone.of_move entries fun a hs ht => ?_).keeps i (hd i)
    obtain ⟨rfl, rfl⟩ | ⟨rfl, rfl⟩ := hareas <;> cases a <;>
      first | exact absurd rfl hs | exact absurd rfl ht | exact hst
  kept i entries' he := by
    obtain ⟨rfl, rfl⟩ | ⟨rfl, rfl⟩ := hareas <;> by_cases hi : i = id <;>
      simp_all [set_apply]

end Preserved

end Directories

namespace SqliteAppDatabaseProvider

open Directories

theorem command_preserved (c : DatabaseCommand) (decisions : List Decision)
    (hd : ∀ id, d.Exclusive id) : Preserved d (DatabaseCommand.step (c, decisions) d) := by
  have hspec : FileSpec True (fun _ a => a = none → True) (Preserved d) c.program
      (fun _ d' => Preserved d d') d := by
    cases c with
    | provision bindings =>
      refine Runs.bind (provisionInstallation_within bindings (Preserved.refl hd)
        fun id ha hr area d' h => Preserved.of_alone hd ha hr h) ?_
      exact fun _ _ h => Runs.ret h
    | retain id =>
      exact retainInstallation_within (Preserved.refl hd) fun entries he hr hst =>
        Preserved.of_move hd hst (.inl ⟨rfl, rfl⟩) he hr
    | restore id =>
      exact restoreInstallation_within (Preserved.refl hd) fun entries he ha hst =>
        Preserved.of_move hd hst (.inr ⟨rfl, rfl⟩) he ha
  exact Completes.leaves (Runs.mono hspec (fun _ h => ⟨trivial, h⟩) fun _ _ h => h)
    (fun _ _ h => h) decisions

theorem after_preserved (es : List (DatabaseCommand × List Decision)) (hd : ∀ id, d.Exclusive id) :
    Preserved d (after DatabaseCommand.step es d) := by
  induction es generalizing d with
  | nil => exact Preserved.refl hd
  | cons e es ih =>
    have hstep := command_preserved e.1 e.2 hd
    have hrest := ih hstep.exclusive
    exact ⟨hrest.exclusive, fun id entries he => hrest.kept id entries (hstep.kept id entries he)⟩

/-- The file system is changed in the staging area, or a directory is renamed. -/
def Spares : FileCall → Prop
  | .write (.createDir area _) | .write (.removeDirAll area _) => area = .staging
  | .write (.openDatabase area _ _) | .write (.configure area _ _) => area = .staging
  | _ => True

theorem tryExists_spares (area : DatabaseArea) (id : InstallationId) :
    (tryExists area id).Only Spares fun _ => True :=
  ⟨trivial, fun _ => .ofExcept _ fun _ _ => trivial⟩

theorem change_spares (error : SqliteAppDatabaseProviderError) (hc : Spares (.write c)) :
    (change error c).Only Spares fun _ => True :=
  ⟨hc, fun _ => .ofExcept _ fun _ _ => trivial⟩

theorem installationState_spares (id : InstallationId) :
    (installationState id).Only Spares fun _ => True := by
  refine (tryExists_spares _ id).bind fun _ _ => ?_
  refine (tryExists_spares _ id).bind fun _ _ => ?_
  refine (tryExists_spares _ id).bind fun _ _ => ?_
  exact .ofExcept _ fun _ _ => trivial

theorem openDatabases_spares (id : InstallationId) (bindings : List AppDatabaseBinding) :
    (openDatabases id bindings).Only Spares fun _ => True := by
  induction bindings with
  | nil => trivial
  | cons b bs ih =>
    refine Prog.Only.bind (change_spares _ rfl) fun _ _ => ?_
    exact Prog.Only.bind (change_spares _ rfl) fun _ _ => ih

theorem buildInstallation_spares (id : InstallationId) (bindings : List AppDatabaseBinding) :
    (buildInstallation id bindings).Only Spares fun _ => True := by
  refine Prog.Only.bind (change_spares _ rfl) fun _ _ => ?_
  have hinner : (do openDatabases id bindings; rename .staging .active id :
      DatabaseProvider Unit).Only Spares fun _ => True :=
    (openDatabases_spares id bindings).bind fun _ _ => change_spares _ trivial
  refine (hinner.attempt (Ψ := fun _ => True) fun _ => trivial).bind fun r _ => ?_
  cases r with
  | ok _ => trivial
  | error e => exact ⟨rfl, fun _ => trivial⟩

/-- A command changes nothing in the active and the retained area except by a rename. -/
theorem command_spares (c : DatabaseCommand) : c.program.Only Spares fun _ => True := by
  cases c with
  | provision bindings =>
    refine Prog.Only.bind (Ψ := fun _ => True) ?_ fun _ _ => trivial
    refine Prog.Only.bind (Prog.Only.ofExcept _ fun _ _ => trivial) fun target _ => ?_
    cases target with
    | none => trivial
    | some id =>
      refine (installationState_spares id).bind fun s _ => ?_
      cases s with
      | absent => exact buildInstallation_spares id bindings
      | staged =>
        exact Prog.Only.bind (change_spares _ rfl)
          fun _ _ => buildInstallation_spares id bindings
      | active => exact ⟨trivial, fun _ => (Prog.Only.ofExcept _ fun _ _ => trivial).bind
          fun _ _ => .ofExcept _ fun _ _ => trivial⟩
      | retained => trivial
  | retain id | restore id =>
    refine (installationState_spares id).bind fun s _ => ?_
    cases s <;> first
      | trivial
      | exact Prog.Only.bind (change_spares _ (c := .rename _ _ id) trivial) fun _ _ => trivial

/-! ## Provisioning goes through -/

section Completes

variable {J : Type} {f : J → Decision} {faulty : Prop} {K : Directories → Prop} {d : Directories}
  {id : InstallationId} {α β : Type} {Q : α → Directories → Prop}

/-- The file system does what it is asked for, unless it is faulty. -/
def Willing (f : J → Decision) (faulty : Prop) : Prop := ∀ j, faulty ∨ ∃ n, f j = .ok n

theorem completes_tryExists {Q : Bool → Directories → Prop} (hf : Willing f faulty) (hK : K d)
    (h : Q (d area id).isSome d) : Completes (handler.comap f) faulty K
      (tryExists area id) Q d := by
  refine ⟨trivial, fun hx => ⟨hx rfl, hK⟩, fun j a d' hstep _ => ?_⟩
  obtain hx | ⟨n, hn⟩ := hf j
  · cases hj : f j <;> simp only [Handler.comap, handler, respond, hj] at hstep <;> cases hstep
    · exact h
    all_goals exact ⟨hx, hx, hK⟩
  · simp only [Handler.comap, handler, respond, hn] at hstep
    cases hstep
    exact h

theorem completes_readDir {Q : List DirectoryEntry → Directories → Prop} (hf : Willing f faulty)
    (hK : K d) (hd : d area id = some entries) (h : Q entries d) :
    Completes (handler.comap f) faulty K (readDir area id) Q d := by
  refine ⟨trivial, fun hx => ⟨hx rfl, hK⟩, fun j a d' hstep _ => ?_⟩
  obtain hx | ⟨n, hn⟩ := hf j
  · cases hj : f j <;> simp only [Handler.comap, handler, respond, hj, hd] at hstep <;> cases hstep
    · exact h
    all_goals exact ⟨hx, hx, hK⟩
  · simp only [Handler.comap, handler, respond, hn, hd] at hstep
    cases hstep
    exact h

theorem completes_change (error : SqliteAppDatabaseProviderError) (hf : Willing f faulty) (hK : K d)
    (hR : ∀ d', R d' → K d') (h : ∀ n, ∃ d', d.write n c = some d' ∧ R d') :
    Completes (handler.comap f) faulty K (change error c) (fun _ => R) d := by
  refine ⟨trivial, fun hx => ⟨hx rfl, hK⟩, fun j a d' hstep _ => ?_⟩
  cases hj : f j with
  | ok n =>
    obtain ⟨d1, hw, h1⟩ := h n
    simp only [Handler.comap, handler, respond, hj, hw] at hstep
    cases hstep
    exact h1
  | fail =>
    have hx : faulty := (hf j).resolve_right fun h => by simp [hj] at h
    simp only [Handler.comap, handler, respond, hj] at hstep
    cases hstep
    exact ⟨hx, hx, hK⟩
  | lost =>
    have hx : faulty := (hf j).resolve_right fun h => by simp [hj] at h
    obtain ⟨d1, hw, h1⟩ := h 0
    simp only [Handler.comap, handler, respond, hj, hw] at hstep
    cases hstep
    exact ⟨hx, hx, hR d1 h1⟩
  | stop =>
    simp only [Handler.comap, handler, hj] at hstep
    cases hstep

theorem completes_installationState {Q : AppDatabaseInstallationState → Directories → Prop}
    (hf : Willing f faulty) (hK : K d) (hs : d.installationState id = .ok s) (h : Q s d) :
    Completes (handler.comap f) faulty K (installationState id) Q d := by
  refine Completes.seq (completes_tryExists hf hK (Completes.seq (completes_tryExists hf hK
    (Completes.seq (completes_tryExists hf hK ?_)))))
  change Completes (handler.comap f) faulty K (Prog.ofExcept _ (d.installationState id)) _ _
  rw [hs]
  exact Completes.ret h

end Completes

/-- The entries are files of the expected databases, and those of `opened` are among them. -/
structure Built (expected opened : List String) (entries : List DirectoryEntry) : Prop where
  recognized : ∀ e ∈ entries, recognized expected e = true
  opened : ∀ name ∈ opened, ∃ e ∈ entries, e.name = some name

namespace Built

variable {expected opened : List String} {entries : List DirectoryEntry}

theorem addFile (h : Built expected opened entries)
    (hname : SqliteAppDatabaseProvider.recognized expected ⟨some name, true⟩ = true) :
    Built expected (name :: opened) (Directories.addFile entries name) where
  recognized e he := by
    obtain rfl | he := mem_insert_iff.mp he
    · exact hname
    · exact h.recognized e he
  opened n hn := by
    obtain rfl | hn := mem_cons.mp hn
    · exact ⟨_, mem_insert_self, rfl⟩
    · obtain ⟨e, he, hen⟩ := h.opened n hn
      exact ⟨e, mem_insert_of_mem he, hen⟩

theorem addFiles (h : Built expected opened entries) (names : List String)
    (hnames : ∀ n ∈ names, SqliteAppDatabaseProvider.recognized expected ⟨some n, true⟩ = true) :
    Built expected opened (names.foldl Directories.addFile entries) := by
  induction names generalizing entries with
  | nil => exact h
  | cons n ns ih =>
    have hn := h.addFile (hnames n mem_cons_self)
    exact ih ⟨hn.recognized, fun m hm => hn.opened m (mem_cons_of_mem _ hm)⟩
      fun m hm => hnames m (mem_cons_of_mem _ hm)

theorem verifyEntries (h : Built expected opened entries) (hall : ∀ n ∈ expected, n ∈ opened) :
    verifyEntries expected entries = .ok () := by
  rw [SqliteAppDatabaseProvider.verifyEntries, if_pos]
  simp only [Bool.and_eq_true, all_eq_true, any_eq_true, decide_eq_true_eq]
  exact ⟨h.recognized, fun n hn => h.opened n (hall n hn)⟩

end Built

theorem recognized_self (h : name ∈ expected) : recognized expected ⟨some name, true⟩ = true := by
  simp [recognized, h]

theorem recognized_sidecar (h : name ∈ expected) (hn : n ∈ sidecars choice name) :
    recognized expected ⟨some n, true⟩ = true := by
  have hn' : n = name ++ "-wal" ∨ n = name ++ "-shm" := by
    simp only [sidecars, mem_append] at hn
    split_ifs at hn <;> simp_all
  simp only [recognized, Bool.true_and, Bool.or_eq_true, any_eq_true, decide_eq_true_eq]
  refine .inr ?_
  obtain rfl | rfl := hn'
  · exact ⟨"-wal", by simp, name, h, rfl⟩
  · exact ⟨"-shm", by simp, name, h, rfl⟩

section

variable {d : Directories} {id : InstallationId}

/-- The installation has a directory under construction only, with the databases opened so far. -/
structure UnderConstruction (id : InstallationId) (expected opened : List String)
    (d : Directories) : Prop where
  active : d .active id = none
  retained : d .retained id = none
  staging : ∃ entries, d .staging id = some entries ∧ Built expected opened entries

/-- The installation is in use, with the expected databases. -/
structure Provisioned (id : InstallationId) (expected : List String) (d : Directories) : Prop where
  retained : d .retained id = none
  staging : d .staging id = none
  active : ∃ entries, d .active id = some entries ∧ verifyEntries expected entries = .ok ()

theorem Provisioned.state (h : Provisioned id expected d) :
    d.installationState id = .ok .active := by
  obtain ⟨entries, ha, -⟩ := h.active
  simp [Directories.installationState, AppDatabaseInstallationState.ofExistence, ha, h.retained,
    h.staging]

/-- The bindings are those of the installation, which is not retained and not in use with other
databases. -/
structure Provisionable (bindings : List AppDatabaseBinding) (id : InstallationId)
    (d : Directories) : Prop where
  valid : validateBindings bindings = .ok (some id)
  exclusive : d.Exclusive id
  retained : d .retained id = none
  active : ∀ entries, d .active id = some entries →
    verifyEntries (bindings.map databaseFile) entries = .ok ()

theorem UnderConstruction.set (h : UnderConstruction id expected opened d)
    (hb : Built expected opened' entries) :
    UnderConstruction id expected opened' (d.set .staging id (some entries)) where
  active := by simpa [set_apply] using h.active
  retained := by simpa [set_apply] using h.retained
  staging := ⟨entries, by simp [set_apply], hb⟩

theorem UnderConstruction.provisionable (h : UnderConstruction id expected opened d)
    (hv : validateBindings bindings = .ok (some id)) : Provisionable bindings id d where
  valid := hv
  exclusive := by
    refine exclusive_of_area .staging fun a ha => ?_
    cases a with
    | active => exact h.active
    | retained => exact h.retained
    | staging => exact absurd rfl ha
  retained := h.retained
  active _ he := nomatch h.active.symm.trans he

theorem Provisioned.provisionable (h : Provisioned id (bindings.map databaseFile) d)
    (hv : validateBindings bindings = .ok (some id)) : Provisionable bindings id d where
  valid := hv
  exclusive := by
    refine exclusive_of_area .active fun a ha => ?_
    cases a with
    | active => exact absurd rfl ha
    | retained => exact h.retained
    | staging => exact h.staging
  retained := h.retained
  active entries he := by
    obtain ⟨entries', he', hverified⟩ := h.active
    cases he.symm.trans he'
    exact hverified

theorem Provisionable.clear (h : Provisionable bindings id d) :
    Provisionable bindings id (d.set .staging id none) where
  valid := h.valid
  exclusive a b ha hb := by
    simp only [set_apply] at ha hb
    split at ha
    · cases ha
    · split at hb
      · cases hb
      · exact h.exclusive a b ha hb
  retained := by simpa [set_apply] using h.retained
  active entries he := h.active entries (by simpa [set_apply] using he)

variable {J : Type} {f : J → Decision} {faulty : Prop} {bindings : List AppDatabaseBinding}

theorem completes_openDatabases (hf : Willing f faulty)
    (hv : validateBindings bindings = .ok (some id)) (bs : List AppDatabaseBinding)
    (hb : ∀ b ∈ bs, databaseFile b ∈ expected) (h : UnderConstruction id expected opened d) :
    Completes (handler.comap f) faulty (Provisionable bindings id) (openDatabases id bs)
      (fun _ => UnderConstruction id expected ((bs.map databaseFile).reverse ++ opened)) d := by
  induction bs generalizing opened d with
  | nil => exact Completes.ret h
  | cons b bs ih =>
    have hmem := hb b mem_cons_self
    have hkeep : ∀ d', UnderConstruction id expected (databaseFile b :: opened) d' →
        Provisionable bindings id d' := fun _ h => h.provisionable hv
    refine Completes.bind (completes_change _ hf (h.provisionable hv) hkeep fun n => ?_)
      fun _ d1 h1 => ?_
    · obtain ⟨entries, he, hbuilt⟩ := h.staging
      exact ⟨_, by rw [write, he, Option.map_some], h.set (hbuilt.addFile (recognized_self hmem))⟩
    refine Completes.bind (completes_change _ hf (hkeep d1 h1) hkeep fun n => ?_) fun _ d2 h2 => ?_
    · obtain ⟨entries, he, hbuilt⟩ := h1.staging
      exact ⟨_, by rw [write, he, Option.map_some],
        h1.set (hbuilt.addFiles _ fun n hn => recognized_sidecar hmem hn)⟩
    have hrest := ih (fun b' hb' => hb b' (mem_cons_of_mem _ hb')) h2
    rwa [map_cons, reverse_cons, append_assoc, singleton_append]

theorem cleanup_completes (hx : faulty) (h : Provisionable bindings id d) :
    Completes (handler.comap f) faulty (Provisionable bindings id)
      (do let _ ← Prog.perform (FileCall.write (.removeDirAll .staging id)); Prog.throw e) Q d := by
  refine ⟨trivial, fun _ => ⟨hx, h⟩, fun j a d' hstep _ => ⟨hx, hx, ?_⟩⟩
  have hclear : ∀ n d', d.write n (.removeDirAll .staging id) = some d' →
      Provisionable bindings id d' := by
    intro n d' hw
    simp only [write] at hw
    split at hw <;> cases hw
    exact h.clear
  simp only [Handler.comap, handler] at hstep
  split at hstep
  · cases hstep
  · simp only [respond] at hstep
    split at hstep
    · split at hstep <;> cases hstep
      · next hw => exact hclear _ _ hw
      · exact h
    · cases hstep
      cases hw : d.write 0 (.removeDirAll .staging id) with
      | none => exact h
      | some d' => exact hclear 0 d' hw
    · cases hstep
      exact h

theorem completes_buildInstallation (hf : Willing f faulty)
    (hv : validateBindings bindings = .ok (some id)) (hd : ∀ area, d area id = none) :
    Completes (handler.comap f) faulty (Provisionable bindings id) (buildInstallation id bindings)
      (fun _ => Provisioned id (bindings.map databaseFile)) d := by
  have hself : Provisionable bindings id d :=
    ⟨hv, exclusive_of_absent hd, hd _, fun _ he => by cases (hd _).symm.trans he⟩
  refine Completes.bind (completes_change _ hf hself
    (R := UnderConstruction id (bindings.map databaseFile) []) (fun _ h => h.provisionable hv)
    fun n => ⟨d.set .staging id (some []), ?_, ?_⟩) fun _ d1 h1 => ?_
  · simp [write, hd]
  · exact ⟨by simp [set_apply, hd], by simp [set_apply, hd],
      ⟨[], by simp [set_apply], List.forall_mem_nil _, List.forall_mem_nil _⟩⟩
  have hinner : Completes (handler.comap f) faulty (Provisionable bindings id)
      (do openDatabases id bindings; rename .staging .active id)
      (fun _ => Provisioned id (bindings.map databaseFile)) d1 := by
    refine Completes.bind (completes_openDatabases hf hv bindings
      (fun b hb => mem_map_of_mem hb) h1) fun _ d2 h2 => ?_
    obtain ⟨entries, he, hbuilt⟩ := h2.staging
    refine completes_change _ hf (h2.provisionable hv) (fun _ h => h.provisionable hv)
      fun n => ⟨(d2.set .staging id none).set .active id (some entries),
        by simp [write, h2.active, he], ?_⟩
    refine ⟨by simp [set_apply, h2.retained], by simp [set_apply], entries, by simp [set_apply], ?_⟩
    exact hbuilt.verifyEntries fun n hn => by simpa using hn
  refine Completes.bind (Completes.attempt hinner) fun r d2 h2 => ?_
  cases r with
  | ok _ => exact Completes.ret h2
  | error e => exact cleanup_completes h2.1 h2.2

theorem completes_provisionInstallation (hf : Willing f faulty) (h : Provisionable bindings id d) :
    Completes (handler.comap f) faulty (Provisionable bindings id) (provisionInstallation bindings)
      (fun _ => Provisioned id (bindings.map databaseFile)) d := by
  obtain ⟨s, hs⟩ := h.exclusive.state
  simp only [provisionInstallation, h.valid, Prog.ofExcept, Prog.ret_bind]
  refine Completes.seq (completes_installationState hf h hs ?_)
  cases s with
  | absent => exact completes_buildInstallation hf h.valid fun area => of_state hs area
  | staged =>
    obtain ⟨ha, hr, hst⟩ := of_state hs
    refine Completes.bind (completes_change _ hf h
      (fun d' hd' => ?_) fun n => ⟨d.set .staging id none, by simp [write, hst], fun area => ?_⟩)
      fun _ d1 h1 => completes_buildInstallation hf h.valid h1
    · exact ⟨h.valid, exclusive_of_absent hd', hd' _, fun _ he => by cases (hd' _).symm.trans he⟩
    · cases area <;> simp [set_apply, ha, hr]
  | active =>
    obtain ⟨ha, hr, hst⟩ := of_state hs
    obtain ⟨entries, he⟩ := Option.isSome_iff_exists.mp ha
    refine Completes.seq (completes_readDir hf h he ?_)
    rw [h.active _ he]
    exact Completes.ret ⟨hr, hst, _, he, h.active _ he⟩
  | retained =>
    have hsome := (of_state hs).1
    rw [h.retained] at hsome
    cases hsome

/-- What comes of provisioning that is cut short or fails can be provisioned again. -/
theorem Provisionable.step (h : Provisionable bindings id d) (decisions : List Decision) :
    Provisionable bindings id (DatabaseCommand.step (.provision bindings, decisions) d) := by
  have hcommand : Completes handler True (Provisionable bindings id)
      (DatabaseCommand.provision bindings).program (fun _ => Provisionable bindings id) d :=
    Completes.bind (completes_provisionInstallation (fun _ => .inl trivial) h)
      fun _ _ hd => Completes.ret (hd.provisionable h.valid)
  exact Completes.leaves hcommand (fun _ _ h => h) decisions

theorem Provisionable.after (h : Provisionable bindings id d) (interrupted : List (List Decision)) :
    Provisionable bindings id (after DatabaseCommand.step
      (interrupted.map fun decisions => (.provision bindings, decisions)) d) := by
  induction interrupted generalizing d with
  | nil => exact h
  | cons decisions rest ih => exact ih (h.step decisions)

/-- Where nothing disturbs it, provisioning ends with the databases in use. -/
theorem Provisionable.provisions (h : Provisionable bindings id d) (choices : List Nat) :
    ∃ d', exec handler (provisionInstallation bindings) (choices.map Decision.ok) d =
      (.done (), d') ∧ Provisioned id (bindings.map databaseFile) d' := by
  have hwilling : Willing Decision.ok False := fun n => .inr ⟨n, rfl⟩
  have hreturns := Completes.returns (completes_provisionInstallation hwilling h)
    (fun _ _ _ => rfl) choices
  rw [exec_comap handler (f := Decision.ok) rfl] at hreturns
  obtain ⟨_, d', hexec, hd'⟩ := hreturns
  exact ⟨d', hexec, hd'⟩

end

end SqliteAppDatabaseProvider

open SqliteAppDatabaseProvider in
/-- After any commands, each stopped or disturbed anywhere: no installation has two directories;
entries that were once in use are found in use or retained, and no command writes there except by a
rename; and provisioning that was cut short any number of times goes through, unless the
installation is retained or in use with other databases. -/
theorem database_directories (es : List (DatabaseCommand × List Decision)) :
    let d := after DatabaseCommand.step es .empty
    (∀ id, d.Exclusive id) ∧
    (∀ es1 es2, es = es1 ++ es2 → ∀ id entries,
      after DatabaseCommand.step es1 .empty .active id = some entries →
        d .active id = some entries ∨ d .retained id = some entries) ∧
    (∀ (c : DatabaseCommand) decisions,
      ∀ e ∈ trace handler c.program decisions d, Spares e.call) ∧
    ∀ bindings id, validateBindings bindings = .ok (some id) → d .retained id = none →
      (∀ entries, d .active id = some entries →
        verifyEntries (bindings.map databaseFile) entries = .ok ()) →
      ∀ (interrupted : List (List Decision)) (choices : List Nat), ∃ d' entries,
        exec handler (provisionInstallation bindings) (choices.map Decision.ok)
          (after DatabaseCommand.step
            (interrupted.map fun decisions => (.provision bindings, decisions)) d) =
          (.done (), d') ∧
        d'.installationState id = .ok .active ∧ d' .active id = some entries ∧
        verifyEntries (bindings.map databaseFile) entries = .ok () := by
  intro d
  have hempty : ∀ id, empty.Exclusive id := fun _ =>
    exclusive_of_absent fun _ => rfl
  have hd := (after_preserved es hempty).exclusive
  refine ⟨hd, ?_, fun c decisions => (command_spares c).trace decisions d, ?_⟩
  · rintro es1 es2 rfl id entries he
    have hsplit : d = after DatabaseCommand.step es2 (after DatabaseCommand.step es1 .empty) :=
      after_append es1 es2 _
    rw [hsplit]
    exact (after_preserved es2 (after_preserved es1 hempty).exclusive).kept id entries (.inl he)
  · intro bindings id hv hr ha interrupted choices
    have hprov : Provisionable bindings id d := ⟨hv, hd id, hr, ha⟩
    obtain ⟨d', hexec, hd'⟩ := (hprov.after interrupted).provisions choices
    obtain ⟨entries, hentries, hverified⟩ := hd'.active
    exact ⟨d', entries, hexec, hd'.state, hentries, hverified⟩

/-- A database of the notes app. -/
def notesDatabase : AppDatabaseBinding where
  owner := ⟨AppManifest.notes.appId, ⟨1⟩, AppManifest.notes.publisherId⟩
  declaration := ⟨{ value := "notes" }⟩

open SqliteAppDatabaseProvider in
/-- Provisioning that was stopped while the staging directory was empty, and repeated. -/
theorem provision_repeated : ∃ d' entries,
      exec handler (provisionInstallation [notesDatabase]) []
        (after DatabaseCommand.step
          [(.provision [notesDatabase], [.ok 0, .ok 0, .ok 0, .ok 0, .stop])] .empty) =
        (.done (), d') ∧
      d'.installationState ⟨1⟩ = .ok .active ∧ d' .active ⟨1⟩ = some entries ∧
      verifyEntries ([notesDatabase].map databaseFile) entries = .ok () :=
  (database_directories []).2.2.2 [notesDatabase] ⟨1⟩ (by decide +kernel) rfl nofun
    [[.ok 0, .ok 0, .ok 0, .ok 0, .stop]] []

/-- The databases of a retained installation are not provisioned again, however often one tries. -/
theorem provision_of_retained :
    (exec handler (provisionInstallation [notesDatabase]) []
      (after DatabaseCommand.step [(.provision [notesDatabase], []), (.retain ⟨1⟩, []),
        (.provision [notesDatabase], [.ok 0, .stop])] .empty)).1 = .failed .retainedDataExists ∧
    (after DatabaseCommand.step [(.provision [notesDatabase], []), (.retain ⟨1⟩, []),
      (.provision [notesDatabase], [.ok 0, .stop]), (.provision [notesDatabase], [])]
      .empty).installationState ⟨1⟩ = .ok .retained := by
  decide +kernel

end Rumahl
