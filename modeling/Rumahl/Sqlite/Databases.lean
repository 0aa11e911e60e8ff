import Rumahl.Effect.Refine
import Rumahl.Operations.World

/-!
# The SQLite database provider

`SqliteAppDatabaseProvider` keeps the databases of an installation in one directory, which is in one
of three areas: `.staging` while it is built, `active` in use, `retained` afterwards. The provider
is a program over calls of the file system, so that a process can stop between any two of them. The
state of an installation is read off which directories exist.
-/

namespace Rumahl

open Effect

/-! ## The file system -/

inductive DatabaseArea where
  | active | retained | staging
  deriving DecidableEq

/-- An entry of a directory. A name that is not valid text is `none`. -/
structure DirectoryEntry where
  name : Option String
  isFile : Bool
  deriving DecidableEq

/-- The directories of the installations. -/
abbrev Directories := DatabaseArea → InstallationId → Option (List DirectoryEntry)

/-- A call that changes directories. -/
inductive FileWrite where
  | createDir (area : DatabaseArea) (id : InstallationId)
  | removeDirAll (area : DatabaseArea) (id : InstallationId)
  | openDatabase (area : DatabaseArea) (id : InstallationId) (name : String)
  | configure (area : DatabaseArea) (id : InstallationId) (name : String)
  | rename (source target : DatabaseArea) (id : InstallationId)

inductive FileCall where
  | tryExists (area : DatabaseArea) (id : InstallationId)
  | readDir (area : DatabaseArea) (id : InstallationId)
  | write (change : FileWrite)

@[reducible] def FileAnswer : FileCall → Type
  | .tryExists .. => Except Unit Bool
  | .readDir .. => Except Unit (List DirectoryEntry)
  | .write _ => Except Unit Unit

namespace Directories

def set (d : Directories) (area : DatabaseArea) (id : InstallationId)
    (entries : Option (List DirectoryEntry)) : Directories :=
  fun area' id' => if area' = area ∧ id' = id then entries else d area' id'

def addFile (entries : List DirectoryEntry) (name : String) : List DirectoryEntry :=
  entries.insert ⟨some name, true⟩

/-- The files that SQLite may leave beside a database in WAL mode. -/
def sidecars (choice : Nat) (name : String) : List String :=
  (if choice % 2 = 1 then [name ++ "-wal"] else []) ++
    (if choice / 2 % 2 = 1 then [name ++ "-shm"] else [])

/-- What a write makes of the directories, if it can be carried out. Only the existence of a
directory under construction matters until it is renamed, so a removal that is carried out partly is
not told apart from one that is not. -/
def write (d : Directories) (choice : Nat) : FileWrite → Option Directories
  | .createDir area id => if (d area id).isSome then none else some (d.set area id (some []))
  | .removeDirAll area id => if (d area id).isSome then some (d.set area id none) else none
  | .openDatabase area id name =>
    (d area id).map fun entries => d.set area id (some (addFile entries name))
  | .configure area id name =>
    (d area id).map fun entries =>
      d.set area id (some ((sidecars choice name).foldl addFile entries))
  | .rename source target id =>
    if (d target id).isSome then none
    else (d source id).map fun entries => (d.set source id none).set target id (some entries)

def respond (d : Directories) (decision : Decision) : (c : FileCall) → FileAnswer c × Directories
  | .tryExists area id =>
    match decision with
    | .ok _ => (.ok (d area id).isSome, d)
    | _ => (.error (), d)
  | .readDir area id =>
    match decision, d area id with
    | .ok _, some entries => (.ok entries, d)
    | _, _ => (.error (), d)
  | .write change =>
    match decision with
    | .ok choice =>
      match d.write choice change with
      | some d' => (.ok (), d')
      | none => (.error (), d)
    | .lost => (.error (), (d.write 0 change).getD d)
    | _ => (.error (), d)

def handler : Handler FileCall FileAnswer Decision Directories where
  step c decision d := if decision = .stop then none else some (d.respond decision c)

end Directories

open Directories

/-! ## The provider -/

inductive AppDatabaseInstallationState where
  | absent | staged | active | retained
  deriving DecidableEq

open AppDatabaseInstallationState

inductive SqliteAppDatabaseProviderError where
  | io
  | database
  | mixedInstallationBindings
  | duplicateDatabaseBinding
  | retainedDataExists
  | stagingDataExists
  | conflictingInstallationState
  | activeDataMismatch
  deriving DecidableEq

/-- The state of an installation, from which of its directories exist. -/
def AppDatabaseInstallationState.ofExistence (active retained staging : Bool) :
    Except SqliteAppDatabaseProviderError AppDatabaseInstallationState :=
  if 1 < ([active, retained, staging].filter fun directoryExists => directoryExists).length then
    .error .conflictingInstallationState
  else .ok (if active then .active else if retained then .retained else if staging then .staged
    else .absent)

def Directories.installationState (d : Directories) (id : InstallationId) :
    Except SqliteAppDatabaseProviderError AppDatabaseInstallationState :=
  ofExistence (d .active id).isSome (d .retained id).isSome
    (d .staging id).isSome

abbrev DatabaseProvider (α : Type) := Prog FileCall FileAnswer SqliteAppDatabaseProviderError α

namespace SqliteAppDatabaseProvider

open SqliteAppDatabaseProviderError

def tryExists (area : DatabaseArea) (id : InstallationId) : DatabaseProvider Bool := do
  let answer ← Prog.perform (FileCall.tryExists area id)
  Prog.ofExcept (fun _ => io) answer

def readDir (area : DatabaseArea) (id : InstallationId) :
    DatabaseProvider (List DirectoryEntry) := do
  let answer ← Prog.perform (FileCall.readDir area id)
  Prog.ofExcept (fun _ => io) answer

def change (error : SqliteAppDatabaseProviderError) (c : FileWrite) : DatabaseProvider Unit := do
  let answer ← Prog.perform (FileCall.write c)
  Prog.ofExcept (fun _ => error) answer

def createDir (area : DatabaseArea) (id : InstallationId) : DatabaseProvider Unit :=
  change io (.createDir area id)

def removeDirAll (area : DatabaseArea) (id : InstallationId) : DatabaseProvider Unit :=
  change io (.removeDirAll area id)

def openDatabase (area : DatabaseArea) (id : InstallationId) (name : String) :
    DatabaseProvider Unit :=
  change database (.openDatabase area id name)

def configure (area : DatabaseArea) (id : InstallationId) (name : String) : DatabaseProvider Unit :=
  change database (.configure area id name)

def rename (source target : DatabaseArea) (id : InstallationId) : DatabaseProvider Unit :=
  change io (.rename source target id)

def databaseFile (binding : AppDatabaseBinding) : String :=
  binding.declaration.id.value ++ ".sqlite3"

def installationState (id : InstallationId) : DatabaseProvider AppDatabaseInstallationState := do
  let active ← tryExists .active id
  let retained ← tryExists .retained id
  let staging ← tryExists .staging id
  Prog.ofExcept (fun e => e) (ofExistence active retained staging)

/-- An expected database, or a file that SQLite keeps beside one. -/
def recognized (expected : List String) (entry : DirectoryEntry) : Bool :=
  entry.isFile && match entry.name with
    | none => false
    | some name => decide (name ∈ expected) ||
        ["-wal", "-shm", "-journal"].any fun suffix => expected.any fun base => name =
          base ++ suffix

/-- The loop over the entries has one error only, so their order plays no part. -/
def verifyEntries (expected : List String) (entries : List DirectoryEntry) :
    Except SqliteAppDatabaseProviderError Unit :=
  if entries.all (recognized expected) &&
      expected.all fun name => entries.any fun entry => entry.name = some name then .ok ()
  else .error activeDataMismatch

def verifyActiveBindings (id : InstallationId) (bindings : List AppDatabaseBinding) :
    DatabaseProvider Unit := do
  let entries ← readDir .active id
  Prog.ofExcept (fun e => e) (verifyEntries (bindings.map databaseFile) entries)

def checkBindings (owner : AppIdentity) :
    List AppDatabaseId → List AppDatabaseBinding → Except SqliteAppDatabaseProviderError Unit
  | _, [] => .ok ()
  | seen, binding :: bindings =>
    if binding.owner ≠ owner then .error mixedInstallationBindings
    else if binding.declaration.id ∈ seen then .error duplicateDatabaseBinding
    else checkBindings owner (binding.declaration.id :: seen) bindings

def validateBindings :
    List AppDatabaseBinding → Except SqliteAppDatabaseProviderError (Option InstallationId)
  | [] => .ok none
  | first :: rest => do
    checkBindings first.owner [] (first :: rest)
    .ok (some first.owner.installationId)

def openDatabases (id : InstallationId) : List AppDatabaseBinding → DatabaseProvider Unit
  | [] => pure ()
  | binding :: bindings => do
    openDatabase .staging id (databaseFile binding)
    configure .staging id (databaseFile binding)
    openDatabases id bindings

/-- Build the directory in the staging area and make it active. A failure removes it again, as far
as that works. -/
def buildInstallation (id : InstallationId) (bindings : List AppDatabaseBinding) :
    DatabaseProvider Unit := do
  createDir .staging id
  let provision : Except SqliteAppDatabaseProviderError Unit ← Prog.attempt (do
    openDatabases id bindings
    rename .staging .active id : DatabaseProvider Unit)
  match provision with
  | .ok () => pure ()
  | .error e => do
    let _ ← Prog.perform (FileCall.write (.removeDirAll .staging id))
    Prog.throw e

def provisionInstallation (bindings : List AppDatabaseBinding) : DatabaseProvider Unit := do
  match ← Prog.ofExcept (fun e => e) (validateBindings bindings) with
  | none => pure ()
  | some id =>
    match ← installationState id with
    | .active => verifyActiveBindings id bindings
    | .retained => Prog.throw retainedDataExists
    | .staged => do
      removeDirAll .staging id
      buildInstallation id bindings
    | .absent => buildInstallation id bindings

def retainInstallation (id : InstallationId) : DatabaseProvider Bool := do
  match ← installationState id with
  | .absent => pure false
  | .retained => pure true
  | .staged => Prog.throw stagingDataExists
  | .active => do
    rename .active .retained id
    pure true

def restoreInstallation (id : InstallationId) : DatabaseProvider Bool := do
  match ← installationState id with
  | .absent => pure false
  | .active => pure true
  | .staged => Prog.throw stagingDataExists
  | .retained => do
    rename .retained .active id
    pure true

end SqliteAppDatabaseProvider

/-! ## What the provider leaves behind -/

namespace Directories

variable {d : Directories} {id i : InstallationId}

/-- At most one of the directories of the installation exists. -/
def Exclusive (d : Directories) (id : InstallationId) : Prop :=
  ∀ a b, (d a id).isSome → (d b id).isSome → a = b

theorem set_apply (d : Directories) (area a : DatabaseArea) (id i : InstallationId)
    (entries : Option (List DirectoryEntry)) :
    d.set area id entries a i = if a = area ∧ i = id then entries else d a i := rfl

theorem exclusive_of_absent (h : ∀ a, d a id = none) : d.Exclusive id := by
  intro a b ha
  rw [h a] at ha
  cases ha

theorem exclusive_of_area (area : DatabaseArea) (h : ∀ a, a ≠ area → d a id = none) :
    d.Exclusive id := by
  have honly : ∀ a, (d a id).isSome → a = area := fun a ha => by
    by_contra hne
    rw [h a hne] at ha
    cases ha
  exact fun a b ha hb => (honly a ha).trans (honly b hb).symm

theorem of_state (h : d.installationState id = .ok s) :
    match s with
    | .absent => ∀ a, d a id = none
    | .staged => d .active id = none ∧ d .retained id = none ∧ (d .staging id).isSome
    | .retained => (d .retained id).isSome ∧ d .active id = none ∧ d .staging id = none
    | .active => (d .active id).isSome ∧ d .retained id = none ∧ d .staging id = none := by
  rw [installationState] at h
  cases ha : d .active id <;> cases hr : d .retained id <;> cases hs : d .staging id <;>
    simp [ha, hr, hs, ofExistence] at h <;> subst h
  · intro a
    cases a <;> assumption
  all_goals exact ⟨rfl, rfl, rfl⟩

/-- The state of an installation that has at most one directory can be told. -/
theorem Exclusive.state (h : d.Exclusive id) : ∃ s, d.installationState id = .ok s := by
  have har := h .active .retained
  have has := h .active .staging
  have hrs := h .retained .staging
  rw [installationState]
  cases ha : (d .active id).isSome <;> cases hr : (d .retained id).isSome <;>
    cases hs : (d .staging id).isSome <;>
    simp_all [ofExistence]

theorem handler_write (h : handler.step (.write c) decision d = some (a, d')) :
    (a = .ok () ∧ ∃ n, d.write n c = some d') ∨
      a = .error () ∧ (d' = d ∨ ∃ n, d.write n c = some d') := by
  simp only [handler] at h
  split at h
  · cases h
  · simp only [respond] at h
    split at h
    · split at h <;> cases h
      · next hw => exact .inl ⟨rfl, _, hw⟩
      · exact .inr ⟨rfl, .inl rfl⟩
    · cases h
      cases hw : d.write 0 c with
      | none => exact .inr ⟨rfl, .inl rfl⟩
      | some d' => exact .inr ⟨rfl, .inr ⟨0, hw⟩⟩
    · cases h
      exact .inr ⟨rfl, .inl rfl⟩

end Directories

/-! ## Specifications -/

/-- The call was answered with success. -/
def fileSucceeded : (c : FileCall) → FileAnswer c → Bool
  | .tryExists .., a => a.isOk
  | .readDir .., a => a.isOk
  | .write _, a => a.isOk

abbrev FileAllows := (c : FileCall) → Option (FileAnswer c) → Prop

/-- Every answer is possible, and so is a stop. -/
def anyFileAnswer : FileAllows := fun _ _ => True

/-- Every call is answered, with success. -/
def onlyFileSuccess : FileAllows := fun c a => ∃ b, a = some b ∧ fileSucceeded c b = true

instance (c : FileCall) (a : Option (FileAnswer c)) : Decidable (onlyFileSuccess c a) :=
  match a with
  | none => isFalse fun ⟨_, h, _⟩ => nomatch h
  | some b => decidable_of_iff (fileSucceeded c b = true)
      ⟨fun h => ⟨b, rfl, h⟩, fun ⟨_, hb, h⟩ => Option.some.inj hb ▸ h⟩

/-- The provider ends in `Q`, or in `K` if it is stopped or fails, and fails only under `excuse`. -/
def FileSpec (excuse : Prop) (allows : FileAllows) (K : Directories → Prop)
    (p : DatabaseProvider α) (Q : α → Directories → Prop) (d : Directories) : Prop :=
  Runs handler ⟨allows, fun _ _ => True⟩ excuse K p Q d

/-- A failed call excuses the failure of the provider. -/
def Excuses (excuse : Prop) (allows : FileAllows) : Prop :=
  ∀ c a, allows c (some a) → fileSucceeded c a = false → excuse

theorem excuses_onlyFileSuccess (excuse : Prop) : Excuses excuse onlyFileSuccess := by
  rintro c a ⟨b, hb, hs⟩ hf
  cases hb
  rw [hs] at hf
  cases hf

namespace SqliteAppDatabaseProvider

variable {excuse : Prop} {allows : FileAllows} {K : Directories → Prop} {d : Directories}
  {id : InstallationId}

section

variable (hx : Excuses excuse allows)
include hx

theorem tryExists_spec (hK : K d) (hQ : Q (d area id).isSome d) :
    FileSpec excuse allows K (tryExists area id) Q d := by
  refine ⟨trivial, fun _ => hK, fun decision a d' hstep ha => ?_⟩
  cases decision <;> cases hstep
  · exact hQ
  all_goals exact ⟨hx _ _ ha rfl, hK⟩

theorem readDir_spec (hK : K d) (hQ : ∀ entries, Q entries d) :
    FileSpec excuse allows K (readDir area id) Q d := by
  refine ⟨trivial, fun _ => hK, fun decision a d' hstep ha => ?_⟩
  simp only [handler] at hstep
  split at hstep
  · cases hstep
  · simp only [respond] at hstep
    split at hstep <;> cases hstep
    · exact hQ _
    · exact ⟨hx _ _ ha rfl, hK⟩

theorem change_spec (hK : K d) (hlost : ∀ n d', d.write n c = some d' → K d')
    (hQ : ∀ n d', d.write n c = some d' → Q () d') :
    FileSpec excuse allows K (change error c) Q d := by
  refine ⟨trivial, fun _ => hK, fun decision a d' hstep ha => ?_⟩
  obtain ⟨rfl, n, hw⟩ | ⟨rfl, rfl | ⟨n, hw⟩⟩ := handler_write hstep
  · exact hQ n d' hw
  · exact ⟨hx _ _ ha rfl, hK⟩
  · exact ⟨hx _ _ ha rfl, hlost n d' hw⟩

/-- The state is read off the directories. If it cannot be told, the provider fails. -/
theorem installationState_bind (hstate : excuse ∨ ∃ s, d.installationState id = .ok s) (hK : K d)
    (hk : ∀ s, d.installationState id = .ok s → FileSpec excuse allows K (k s) Q d) :
    FileSpec excuse allows K (installationState id >>= k) Q d := by
  refine Runs.bind (Q := fun s d' => d.installationState id = .ok s ∧ d' = d) ?_ ?_
  · refine Runs.seq (tryExists_spec hx hK (Runs.seq (tryExists_spec hx hK
      (Runs.seq (tryExists_spec hx hK ?_)))))
    change Runs _ _ _ _ (Prog.ofExcept _ (d.installationState id)) _ _
    cases hs : d.installationState id with
    | ok s => exact Runs.ret ⟨rfl, rfl⟩
    | error e =>
      refine Runs.throw (hstate.resolve_right ?_) hK
      rintro ⟨s, hs'⟩
      rw [hs] at hs'
      cases hs'
  · rintro s d' ⟨hs, hd⟩
    subst d'
    exact hk s hs

theorem retainInstallation_staged (he : excuse) (hs : d.installationState id = .ok .staged)
    (hK : K d) : FileSpec excuse allows K (retainInstallation id) Q d := by
  refine installationState_bind hx (.inl he) hK fun s hs' => ?_
  rw [hs] at hs'
  cases hs'
  exact Runs.throw he hK

/-- Otherwise it goes through, and nothing is under construction then. -/
theorem retainInstallation_spec (hd : d.Exclusive id) (hs : d.installationState id ≠ .ok .staged)
    (hK : K d) (hlost : ∀ d', d'.Exclusive id → d'.installationState id ≠ .ok .staged → K d')
    (hQ : ∀ b d', d'.Exclusive id → d'.installationState id ≠ .ok .staged → Q b d') :
    FileSpec excuse allows K (retainInstallation id) Q d := by
  refine installationState_bind hx (.inr hd.state) hK fun s hstate => ?_
  cases s with
  | absent | retained => exact Runs.ret (hQ _ d hd hs)
  | staged => exact absurd hstate hs
  | active =>
    obtain ⟨-, hr, hst⟩ := of_state hstate
    have hmoved : ∀ n d', d.write n (.rename .active .retained id) = some d' →
        d'.Exclusive id ∧ d'.installationState id ≠ .ok .staged := by
      intro n d' hw
      simp only [Directories.write, hr, Option.isSome_none, Bool.false_eq_true, if_false,
        Option.map_eq_some_iff] at hw
      obtain ⟨entries, -, rfl⟩ := hw
      have hother : ∀ a, a ≠ .retained →
          (d.set .active id none).set .retained id (some entries) a id = none := by
        intro a ha
        cases a <;> simp_all [set_apply]
      refine ⟨exclusive_of_area .retained hother, fun h => ?_⟩
      have := (of_state h).2.2
      rw [hother .staging nofun] at this
      cases this
    exact Runs.seq (change_spec hx hK (fun n d' hw =>
      hlost d' (hmoved n d' hw).1 (hmoved n d' hw).2)
      fun n d' hw => Runs.ret (hQ true d' (hmoved n d' hw).1 (hmoved n d' hw).2))

/-! ### However a call ends -/

end

/-- Where there was at most one directory, there still is. -/
def Keeps (d d' : Directories) : Prop := ∀ i, d.Exclusive i → d'.Exclusive i

/-- The installation has a directory in the area, or none; the others are as in `d`. -/
structure Alone (d : Directories) (id : InstallationId) (area : DatabaseArea) (d' : Directories) :
    Prop where
  others : ∀ a i, i ≠ id → d' a i = d a i
  only : ∀ a, a ≠ area → d' a id = none

namespace Alone

variable {d' : Directories} {area : DatabaseArea}

section

variable (h : Alone d id area d')
include h

theorem keeps : Keeps d d' := by
  intro i hi
  by_cases hid : i = id
  · subst hid
    exact exclusive_of_area area h.only
  · intro a b ha hb
    rw [h.others a i hid] at ha
    rw [h.others b i hid] at hb
    exact hi a b ha hb

theorem set (entries : Option (List DirectoryEntry)) :
    Alone d id area (d'.set area id entries) where
  others a i hi := by rw [set_apply, if_neg fun hc => hi hc.2, h.others a i hi]
  only a ha := by rw [set_apply, if_neg fun hc => ha hc.1, h.only a ha]

theorem clear (target : DatabaseArea) : Alone d id area (d'.set target id none) where
  others a i hi := by rw [set_apply, if_neg fun hc => hi hc.2, h.others a i hi]
  only a ha := by
    rw [set_apply]
    split
    · rfl
    · exact h.only a ha

theorem write (hc : c = .createDir area id ∨ c = .removeDirAll area id ∨
      (∃ name, c = .openDatabase area id name) ∨ ∃ name, c = .configure area id name)
    (hw : d'.write n c = some d'') : Alone d id area d'' := by
  rcases hc with rfl | rfl | ⟨name, rfl⟩ | ⟨name, rfl⟩
  · simp only [Directories.write] at hw
    split at hw <;> cases hw
    exact h.set _
  · simp only [Directories.write] at hw
    split at hw <;> cases hw
    exact h.set _
  · obtain ⟨entries, -, rfl⟩ := Option.map_eq_some_iff.mp hw
    exact h.set _
  · obtain ⟨entries, -, rfl⟩ := Option.map_eq_some_iff.mp hw
    exact h.set _

theorem rename (target : DatabaseArea) (hw : d'.write n (.rename area target id) = some d'') :
    Alone d id target d'' := by
  simp only [Directories.write] at hw
  split at hw
  · cases hw
  · obtain ⟨entries, -, rfl⟩ := Option.map_eq_some_iff.mp hw
    refine ⟨fun a i hi => ?_, fun a ha => ?_⟩
    · rw [set_apply, if_neg fun hc => hi hc.2, set_apply,
        if_neg fun hc => hi hc.2, h.others a i hi]
    · rw [set_apply, if_neg fun hc => ha hc.1, set_apply]
      split
      · rfl
      · next hne => exact h.only a fun he => hne ⟨he, rfl⟩

end

theorem of_move (entries : List DirectoryEntry)
    (honly : ∀ a, a ≠ source → a ≠ target → d a id = none) :
    Alone d id target ((d.set source id none).set target id (some entries)) where
  others a i hi := by
    rw [set_apply, if_neg fun hc => hi hc.2, set_apply,
      if_neg fun hc => hi hc.2]
  only a ha := by
    rw [set_apply, if_neg fun hc => ha hc.1, set_apply]
    split
    · rfl
    · next hne => exact honly a (fun he => hne ⟨he, rfl⟩) ha

theorem removeStaging (h : Alone d id area d')
    (hw : d'.write n (.removeDirAll .staging id) = some d'') : Alone d id area d'' := by
  simp only [Directories.write] at hw
  split at hw <;> cases hw
  exact h.clear .staging

end Alone

theorem excuses_any : Excuses True allows := fun _ _ _ _ => trivial

private theorem openDatabases_keeps (bindings : List AppDatabaseBinding)
    (h : Alone d id .staging d') :
    FileSpec True allows (fun d' => ∃ area, Alone d id area d') (openDatabases id bindings)
      (fun _ d' => Alone d id .staging d') d' := by
  induction bindings generalizing d' with
  | nil => exact Runs.ret h
  | cons b bs ih =>
    refine Runs.bind (change_spec (Q := fun _ d' => Alone d id .staging d') excuses_any
      ⟨_, h⟩ (fun n d'' hw => ⟨_, h.write (.inr (.inr (.inl ⟨_, rfl⟩))) hw⟩)
      fun n d'' hw => h.write (.inr (.inr (.inl ⟨_, rfl⟩))) hw) fun _ d1 h1 => ?_
    refine Runs.bind (change_spec excuses_any
      ⟨_, h1⟩ (fun n d'' hw => ⟨_, h1.write (.inr (.inr (.inr ⟨_, rfl⟩))) hw⟩)
      fun n d'' hw => h1.write (.inr (.inr (.inr ⟨_, rfl⟩))) hw) fun _ d2 h2 => ih h2

private theorem buildInstallation_within (bindings : List AppDatabaseBinding)
    (hK : ∀ area d', Alone d id area d' → K d') (h : Alone d id .staging d') :
    FileSpec True allows K (buildInstallation id bindings) (fun _ d' => K d') d' := by
  refine Runs.bind (change_spec (Q := fun _ d' => Alone d id .staging d') excuses_any (hK _ _ h)
    (fun n d'' hw => hK _ _ (h.write (.inl rfl) hw)) fun n d'' hw => h.write (.inl rfl) hw)
    fun _ d1 h1 => ?_
  have hinner : FileSpec True allows (fun d' => ∃ area, Alone d id area d')
      (do openDatabases id bindings; rename .staging .active id)
      (fun _ d' => ∃ area, Alone d id area d') d1 :=
    Runs.bind (openDatabases_keeps bindings h1) fun _ d2 h2 =>
      change_spec excuses_any ⟨_, h2⟩ (fun n d'' hw => ⟨_, h2.rename .active hw⟩)
        fun n d'' hw => ⟨_, h2.rename .active hw⟩
  refine Runs.bind (Q := fun _ d' => ∃ area, Alone d id area d')
    (Runs.mono (Runs.attempt hinner) (fun _ ⟨_, ha⟩ => hK _ _ ha) fun r d2 hr => ?_)
    fun r d2 hr => ?_
  · cases r with
    | ok _ => exact hr
    | error _ => exact hr
  · obtain ⟨area, ha⟩ := hr
    cases r with
    | ok _ => exact Runs.ret (hK _ _ ha)
    | error e =>
      refine ⟨trivial, fun _ => hK _ _ ha, fun decision a d3 hstep _ => ⟨trivial, ?_⟩⟩
      obtain ⟨-, n, hw⟩ | ⟨-, rfl | ⟨n, hw⟩⟩ := handler_write hstep
      · exact hK _ _ (ha.removeStaging hw)
      · exact hK _ _ ha
      · exact hK _ _ (ha.removeStaging hw)

/-- Provisioning an installation touches no directory of another one, and of its own ones only where
there is none in use or retained. -/
theorem provisionInstallation_within (bindings : List AppDatabaseBinding) (hself : K d)
    (hK : ∀ id, d .active id = none → d .retained id = none →
      ∀ area d', Alone d id area d' → K d') :
    FileSpec True allows K (provisionInstallation bindings) (fun _ d' => K d') d := by
  cases hv : validateBindings bindings with
  | error e =>
    simp only [provisionInstallation, hv]
    exact Runs.throw trivial hself
  | ok target =>
    simp only [provisionInstallation, hv, Prog.ofExcept, Prog.ret_bind]
    cases target with
    | none => exact Runs.ret hself
    | some id =>
      refine installationState_bind excuses_any (.inl trivial) hself fun s hs => ?_
      cases s with
      | active =>
        refine Runs.seq (readDir_spec excuses_any hself fun entries => ?_)
        cases verifyEntries (bindings.map databaseFile) entries with
        | ok _ => exact Runs.ret hself
        | error e => exact Runs.throw trivial hself
      | retained => exact Runs.throw trivial hself
      | absent =>
        have hnone := of_state hs
        exact buildInstallation_within bindings (hK id (hnone .active) (hnone .retained))
          ⟨fun _ _ _ => rfl, fun a _ => hnone a⟩
      | staged =>
        obtain ⟨ha, hr, -⟩ := of_state hs
        have halone : Alone d id .staging d := by
          refine ⟨fun _ _ _ => rfl, fun a hne => ?_⟩
          cases a with
          | active => exact ha
          | retained => exact hr
          | staging => exact absurd rfl hne
        refine Runs.bind (change_spec (Q := fun _ d' => Alone d id .staging d') excuses_any hself
          (fun n d' hw => hK id ha hr _ _ (halone.write (.inr (.inl rfl)) hw))
          fun n d' hw => halone.write (.inr (.inl rfl)) hw) ?_
        exact fun _ d1 h1 => buildInstallation_within bindings (hK id ha hr) h1

theorem provisionInstallation_keeps (bindings : List AppDatabaseBinding) :
    FileSpec True allows (Keeps d) (provisionInstallation bindings) (fun _ d' => Keeps d d') d :=
  provisionInstallation_within bindings (fun _ h => h) fun _ _ _ _ _ h => h.keeps

/-- A directory is moved from one area to another that has none. -/
theorem rename_within (hself : K d) (hnone : d target id = none)
    (hK : ∀ entries, d source id = some entries →
      K ((d.set source id none).set target id (some entries))) :
    FileSpec True allows K (rename source target id) (fun _ d' => K d') d := by
  have hmoved : ∀ n d', d.write n (.rename source target id) = some d' → K d' := by
    intro n d' hw
    simp only [Directories.write, hnone, Option.isSome_none, Bool.false_eq_true, if_false,
      Option.map_eq_some_iff] at hw
    obtain ⟨entries, hentries, rfl⟩ := hw
    exact hK entries hentries
  exact change_spec excuses_any hself hmoved hmoved

/-- Retaining moves a directory that is in use, and does nothing otherwise. -/
theorem retainInstallation_within (hself : K d)
    (hK : ∀ entries, d .active id = some entries → d .retained id = none → d .staging id = none →
      K ((d.set .active id none).set .retained id (some entries))) :
    FileSpec True allows K (retainInstallation id) (fun _ d' => K d') d := by
  refine installationState_bind excuses_any (.inl trivial) hself fun s hs => ?_
  cases s with
  | absent | retained => exact Runs.ret hself
  | staged => exact Runs.throw trivial hself
  | active =>
    obtain ⟨-, hr, hst⟩ := of_state hs
    refine Runs.bind (rename_within hself hr fun entries he => hK entries he hr hst) ?_
    exact fun _ _ h => Runs.ret h

theorem retainInstallation_keeps :
    FileSpec True allows (Keeps d) (retainInstallation id) (fun _ d' => Keeps d d') d := by
  refine retainInstallation_within (fun _ h => h) fun entries _ _ hst => ?_
  refine (Alone.of_move entries fun a ha hr => ?_).keeps
  cases a with
  | active => exact (ha rfl).elim
  | retained => exact (hr rfl).elim
  | staging => exact hst

/-- Restoring moves a directory that is retained, and does nothing otherwise. -/
theorem restoreInstallation_within (hself : K d)
    (hK : ∀ entries, d .retained id = some entries → d .active id = none → d .staging id = none →
      K ((d.set .retained id none).set .active id (some entries))) :
    FileSpec True allows K (restoreInstallation id) (fun _ d' => K d') d := by
  refine installationState_bind excuses_any (.inl trivial) hself fun s hs => ?_
  cases s with
  | absent | active => exact Runs.ret hself
  | staged => exact Runs.throw trivial hself
  | retained =>
    obtain ⟨-, ha, hst⟩ := of_state hs
    refine Runs.bind (rename_within hself ha fun entries he => hK entries he ha hst) ?_
    exact fun _ _ h => Runs.ret h

end SqliteAppDatabaseProvider

end Rumahl
