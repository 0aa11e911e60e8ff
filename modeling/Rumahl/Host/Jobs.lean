import Rumahl.Host.Broker

/-!
# The actions of the recovery broker

The broker makes backups of the managed volumes, restores and resets them. `job` runs one action: it
stops the services, changes the volumes call by call, and starts the services again unless a restore
is pending.
-/

namespace Rumahl.Host

open Effect

abbrev Broker := Prog Call Answer BrokerError

/-- A call whose exception is not caught. -/
def call (c : Call) : Broker c.Result := do
  let answer ← Prog.perform c
  Prog.ofExcept id answer

def onVolume (v : VolumeName) (c : VolumeCall) : Broker c.Result := call (.volume v c)

def onStore (c : StoreCall) : Broker c.Result := call (.store c)

def onSystem (c : SystemCall) : Broker c.Result := call (.system c)

def raise (e : BrokerError) : Broker α := Prog.throw e

/-! ## Files in the state volume -/

def stageName : String := ".rre-stage"

def previousName : String := ".rre-previous"

/-- The file is written beside its place and renamed. -/
def writeReplacing (v : VolumeName) (directory : List String) (temporary name : String)
    (data : FileData) : Broker Unit := do
  onVolume v (.openWrite (directory ++ [temporary]))
  onVolume v (.touch (directory ++ [temporary]))
  onVolume v (.write (directory ++ [temporary]) data)
  onVolume v (.touch (directory ++ [temporary]))
  onVolume v (.rename (directory ++ [temporary]) (directory ++ [name]))

def settingsName : String := "recovery-settings.json"

def settingsTemporary : String := "recovery-settings.new"

/-- `atomic_json` of the recovery settings. -/
def writeSettings (directory : List String) (safeMode autoRepair : Bool) : Broker Unit := do
  writeReplacing .state directory settingsTemporary settingsName
    (.object [("safeMode", .bool safeMode), ("autoRepair", .bool autoRepair)])
  onVolume .state (.touch directory)

def writeLifecycle (intent : String) : Broker Unit :=
  writeReplacing .state [] "lifecycle.new" "lifecycle" (.bytes intent)

def autoRepairOf : Option Node → Bool
  | some (.file (.object fields)) =>
    (fields.find? fun field => field.1 = "autoRepair").any fun field => field.2 = .bool true
  | _ => false

def persistMode (safe : Bool) : Broker Unit := do
  let settings ← onVolume .state (.look [settingsName])
  if (settings.any fun node => node matches .symlink _) then
    raise (valueError "invalid recovery settings")
  else do
    -- what cannot be read counts as false
    let previous : Except BrokerError (Option Node) ←
      (onVolume .state (.look [settingsName])).attempt
    let autoRepair := match previous with
      | .ok node => autoRepairOf node
      | .error _ => false
    writeSettings [] safe autoRepair
    onVolume .state (.touch [settingsName])
    onStore (.setSafeMode safe)
    onSystem .sync

/-! ## Backups -/

def isId (identifier : String) : Bool :=
  identifier.toList.length = 32 ∧
    (identifier.toList.all fun c => c.isDigit || 'a' ≤ c && c ≤ 'f') = true

def VolumeName.text : VolumeName → String
  | .state => "state"
  | .home => "home"
  | .apps => "apps"
  | .docker => "docker"
  | .images => "images"

/-- Pack one volume and check what was packed. -/
def snapshotVolume (directory : String) (v : VolumeName) : Broker String := do
  let status ← onVolume v .status
  if status.available = false then
    raise (valueError ("required volume unavailable: " ++ v.text))
  else if status.nested then
    raise (valueError "nested mounts require separate backup support")
  else do
    let packed ← onVolume v .archive
    onStore (.putArchive directory v packed)
    let members ← onStore (.readArchive directory v)
    Prog.ofExcept id (checkArchive v members)
    let digest ← onStore (.digest directory v)
    onSystem .sync
    pure digest

def snapshotVolumes (directory : String) : List VolumeName → Broker (List (VolumeName × String))
  | [] => pure []
  | v :: vs => do
    let digest ← snapshotVolume directory v
    let digests ← snapshotVolumes directory vs
    pure ((v, digest) :: digests)

def createSnapshot (identifier : String) (time : Nat) (binding : List (String × String)) :
    Broker String := do
  let directory := identifier ++ ".partial"
  onStore (.makeDirectory directory)
  let digests ← snapshotVolumes directory VolumeName.all
  onStore (.putManifest directory ⟨1, identifier, time, binding, digests⟩)
  onStore (.rename directory identifier)
  onSystem .sync
  pure identifier

def snapshotPath (identifier : String) : Broker Unit := do
  if isId identifier = false then raise (valueError "invalid backup ID")
  else do
    let names ← onStore .names
    if identifier ∈ names then pure () else raise (valueError "backup unavailable")

def verifyVolumes (identifier : String) : List (VolumeName × String) → Broker Unit
  | [] => pure ()
  | (v, expected) :: rest => do
    let digest ← onStore (.digest identifier v)
    if digest ≠ expected then raise (valueError "backup checksum mismatch")
    else do
      let members ← onStore (.readArchive identifier v)
      Prog.ofExcept id (checkArchive v members)
      verifyVolumes identifier rest

def verify (identifier : String) (binding : List (String × String)) : Broker Unit := do
  snapshotPath identifier
  let manifest ← onStore (.readManifest identifier)
  if manifest.version ≠ 1 ∨ manifest.binding ≠ binding then
    raise (valueError "backup belongs to a different device, configuration or build")
  else if ¬∀ v ∈ VolumeName.all, v ∈ manifest.volumes.map Prod.fst then
    raise (valueError "incomplete backup")
  else verifyVolumes identifier manifest.volumes

/-! ## Restoring -/

/-- The tables with sessions and tokens. -/
def sessionTables : List String :=
  ["session_credential", "account_session", "oidc_access_token", "oidc_refresh_spent",
    "oidc_token_family", "oidc_authorization_code", "oidc_authorization_transaction"]

def requireFile (p : List String) : Broker Unit := do
  match ← onVolume .state (.look p) with
  | some (.file _) => pure ()
  | _ => raise (valueError "required state database missing")

def isDatabaseName (name : String) : Bool := ".sqlite".toList.isSuffixOf name.toList

def clearDatabases (directory : List String) : List String → Broker Unit
  | [] => pure ()
  | name :: names => do
    requireFile (directory ++ [name])
    let existing ← onVolume .state (.tables (directory ++ [name]))
    onVolume .state (.clear (directory ++ [name])
      (sessionTables.filter fun table => table ∈ existing))
    clearDatabases directory names

def invalidateSessions (directory : List String) : Broker Unit := do
  requireFile (directory ++ ["accounts.sqlite"])
  requireFile (directory ++ ["platform.sqlite"])
  let names ← onVolume .state (.list directory)
  clearDatabases directory (names.filter fun name => isDatabaseName name)

/-- Unpack the archive of a volume beside its content. -/
def stageVolume (identifier : String) (v : VolumeName) : Broker Unit := do
  let status ← onVolume v .status
  if status.available = false then raise (valueError "destination volume unavailable")
  else
    match ← onVolume v (.look [stageName]) with
    | some _ => raise (valueError "unfinished staging directory")
    | none => do
      onVolume v (.mkdir [stageName])
      let members ← onStore (.readArchive identifier v)
      onVolume v (.extract [stageName] members)

def stageVolumes (identifier : String) : List VolumeName → Broker Unit
  | [] => pure ()
  | v :: vs => do
    stageVolume identifier v
    stageVolumes identifier vs

/-- Rename entries one by one. -/
def moveAll (v : VolumeName) (source target : List String) : List String → Broker Unit
  | [] => pure ()
  | name :: names => do
    onVolume v (.rename (source ++ [name]) (target ++ [name]))
    moveAll v source target names

/-- The names that are not the broker's own. -/
def unreserved (names : List String) : List String := names.filter fun name => name ∉ reserved

def replaceVolume (v : VolumeName) : Broker Unit := do
  match ← onVolume v (.look [previousName]) with
  | some _ => raise (valueError "previous restore needs operator review")
  | none => do
    onVolume v (.mkdir [previousName])
    let old ← onVolume v (.list [])
    moveAll v [] [previousName] (unreserved old)
    let new ← onVolume v (.list [stageName])
    moveAll v [stageName] [] new
    onVolume v (.rmdir [stageName])

def replaceVolumes : List VolumeName → Broker Unit
  | [] => pure ()
  | v :: vs => do
    replaceVolume v
    replaceVolumes vs

def removePrevious : List VolumeName → Broker Unit
  | [] => pure ()
  | v :: vs => do
    onVolume v (.rmtree [previousName])
    removePrevious vs

def restoreSnapshot (identifier : String) (binding : List (String × String)) : Broker Unit := do
  verify identifier binding
  onStore (.setPending identifier)
  stageVolumes identifier VolumeName.all
  invalidateSessions [stageName]
  let settings ← onVolume .state (.look [stageName, settingsName])
  if (settings.any fun node => node matches .symlink _) then
    raise (valueError "invalid recovery settings")
  else do
    writeSettings [stageName] true false
    onStore (.setPending identifier)
    replaceVolumes VolumeName.all
    onSystem .sync
    removePrevious VolumeName.all
    onStore (.putLastRestore identifier)
    onStore (.setSafeMode true)
    onStore .clearPending
    onSystem .sync

/-! ## Resetting -/

def eraseAll (v : VolumeName) : List String → Broker Unit
  | [] => pure ()
  | name :: names => do
    match ← onVolume v (.look [name]) with
    | some .directory => onVolume v (.rmtree [name])
    | _ => onVolume v (.unlink [name])
    eraseAll v names

def resetVolumes : List VolumeName → Broker Unit
  | [] => pure ()
  | v :: vs => do
    let status ← onVolume v .status
    if status.available = false then raise (valueError "volume unavailable")
    else do
      let names ← onVolume v (.list [])
      eraseAll v (unreserved names)
      resetVolumes vs

/-! ## Jobs -/

/-- The manifests of the backups that can be read, by the names of their directories. -/
def readableManifests : List String → Broker (List (String × Manifest))
  | [] => pure []
  | name :: names => do
    if isId name = false then readableManifests names
    else do
      let manifest : Except BrokerError Manifest ← (onStore (.readManifest name)).attempt
      let others ← readableManifests names
      match manifest with
      | .ok manifest => pure ((name, manifest) :: others)
      | .error _ => pure others

/-- The first of the newest. -/
def newest : Option (String × Nat) → List (String × Manifest) → Option (String × Nat)
  | best, [] => best
  | none, (name, manifest) :: rest => newest (some (name, manifest.at_)) rest
  | some best, (name, manifest) :: rest =>
    newest (some (if best.2 < manifest.at_ then (name, manifest.at_) else best)) rest

def newestBackup (binding : List (String × String)) : Broker (Option String) := do
  let names ← onStore .names
  let manifests ← readableManifests names
  pure ((newest none (manifests.filter fun m => m.2.binding = binding)).map Prod.fst)

def removeBackups : List String → Broker Unit
  | [] => pure ()
  | name :: names => do
    -- errors are ignored
    let _ : Except BrokerError Unit ← (onStore (.remove name)).attempt
    removeBackups names

/-- How many backups are kept; a schedule that cannot be read counts as the default. -/
def loadSchedule : Broker Nat := do
  let keep : Except BrokerError Nat ← (onStore .loadSchedule).attempt
  match keep with
  | .ok keep => pure keep
  | .error _ => pure 3

def pruneBackups (keep : Nat) : Broker Unit := do
  let names ← onStore .names
  let manifests ← readableManifests names
  -- equal ones stay as they are listed
  let sorted := manifests.insertionSort fun a b => b.2.at_ ≤ a.2.at_
  removeBackups ((sorted.drop keep).map Prod.fst)

def isContainerId (id : String) : Bool :=
  id ≠ "" ∧ (id.toList.all fun c => c.isDigit || 'a' ≤ c && c ≤ 'f') = true

def stopContainers : List String → Broker Unit
  | [] => pure ()
  | id :: ids => do
    if isContainerId id = false then raise (valueError "invalid container ID")
    else do
      onSystem (.stopContainer id)
      stopContainers ids

def stopWriters : Broker Unit := do
  onSystem (.stop ServiceUnit.front)
  let running ← onSystem .containers
  stopContainers running
  onSystem (.stop ServiceUnit.engine)
  onSystem .sync

/-- What a job is given from outside: the id of a new backup, and the time. -/
structure Ticket where
  identifier : String
  time : Nat

def Action.intent : Action → String
  | .poweroff => "shutting-down"
  | .reboot _ | .restore _ | .reset | .reinstall | .rollback => "restarting"
  | .backup | .fsck => "services"

/-- The action ends with a restart of the machine. -/
def Action.halts : Action → Bool
  | .reboot _ | .restore _ | .reset | .reinstall | .rollback | .poweroff => true
  | .backup | .fsck => false

def Ticket.status (ticket : Ticket) (action : Action) : JobStatus :=
  { action, state := .running, at_ := ticket.time }

/-- Restore a backup after one of the present state was made. -/
def restoreSafely (ticket : Ticket) (action : Action) (identifier : String) : Broker Unit := do
  let _ ← createSnapshot ticket.identifier ticket.time (← onSystem .binding)
  onStore (.putJob (ticket.status action))
  restoreSnapshot identifier (← onSystem .binding)
  persistMode true

/-- What an action does while the services are stopped. -/
def perform (ticket : Ticket) (action : Action) : Broker Unit :=
  match action with
  | .backup => do
    let _ ← createSnapshot ticket.identifier ticket.time (← onSystem .binding)
    pruneBackups (← loadSchedule)
  | .restore identifier => restoreSafely ticket action identifier
  | .reboot safe => persistMode safe
  | .reset | .reinstall => do
    resetVolumes VolumeName.all
    persistMode true
  | .rollback => do
    match ← newestBackup (← onSystem .binding) with
    | none => raise (valueError "no backup available")
    | some identifier => restoreSafely ticket action identifier
  | .poweroff | .fsck => pure ()

/-- The part of a job that is done with the services stopped. -/
def act (ticket : Ticket) (action : Action) : Broker Unit := do
  writeLifecycle action.intent
  stopWriters
  perform ticket action
  onStore (.putJob { ticket.status action with state := .complete })
  if action = .poweroff then onSystem .poweroff
  else if action.halts then onSystem .reboot
  else pure ()

def putFailure (ticket : Ticket) (action : Action) (error : String) : Broker Unit :=
  onStore (.putJob { ticket.status action with state := .failed, error := some error })

/-- The services are started again unless a restore is pending. -/
def restart (ticket : Ticket) (action : Action) (active : List ServiceUnit) : Broker Unit := do
  let pending ← onStore .pendingExists
  if pending ∨ active = [] then pure ()
  else
    match ← (onSystem (.start active.reverse)).attempt with
    | .ok () => pure ()
    | .error (_ : BrokerError) => putFailure ticket action "ServiceStartFailed"

/-- The action that only looks at the file systems. What `fsck` itself says is caught and
reported. -/
def checkFilesystems (ticket : Ticket) (action : Action) : Broker Unit := do
  onSystem .mounts
  onStore (.putJob { ticket.status action with state := .complete })

/-- What is checked before the services are stopped, and which of them are active. -/
def prepare (action : Action) : Broker (List ServiceUnit) := do
  match action with
  | .restore identifier => verify identifier (← onSystem .binding)
  | _ => pure ()
  onSystem .active

def finishJob (ticket : Ticket) (action : Action) (active : List ServiceUnit) :
    Except BrokerError Unit → Broker Unit
  | .ok () => if action.halts then pure () else restart ticket action active
  | .error e => do
    let put : Except BrokerError Unit ← (putFailure ticket action e.name).attempt
    restart ticket action active
    Prog.ofExcept id put

def job (ticket : Ticket) (action : Action) : Broker Unit := do
  onStore (.putJob (ticket.status action))
  if action = .fsck then
    match ← (checkFilesystems ticket action).attempt with
    | .ok () => pure ()
    | .error (e : BrokerError) => putFailure ticket action e.name
  else
    match ← (prepare action).attempt with
    | .error (e : BrokerError) => putFailure ticket action e.name
    | .ok active => do
      let outcome : Except BrokerError Unit ← (act ticket action).attempt
      finishJob ticket action active outcome

end Rumahl.Host
