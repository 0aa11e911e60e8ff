import Rumahl.Core.Uuid
import Rumahl.Effect.Disk
import Rumahl.Oidc.Domain
import Rumahl.Operations.Operation

/-!
# Secrets in runtime namespaces

`NamespaceRuntimeSecretTarget` hands an app its client secret in files: the secret and the client id
in the directory that the container sees, and beside it a file that tells a replay from other
material. Each is written under a temporary name and renamed.
-/

namespace Rumahl

open Effect Disk

inductive RuntimeSecretTargetOutcome where
  | applied | alreadyApplied | conflict | rejected
  deriving DecidableEq

def AppOperationId.text (id : AppOperationId) : String := InstallationId.text ⟨id.value⟩

/-- A delivery. Its operation id is a UUID, and its client id has been parsed. -/
structure RuntimeOidcClientSecret where
  operationId : AppOperationId
  installationId : InstallationId
  appId : AppId
  publisherId : PublisherId
  clientId : OidcClientId
  clientSecret : OidcClientSecret
  operationId_lt : operationId.value < 2 ^ 128
  clientId_parsed : OidcClientId.parse clientId.text = .ok clientId

inductive NamespaceRuntimeSecretTargetError where
  | inspect (error : IoError)
  | invalidDirectory
  | ownerMismatch (expected actual : Nat)
  | writableByNonOwner (mode : Nat)
  | openFailed (error : IoError)
  | invalidFile
  | fileOwnerMismatch (expected actual : Nat)
  | fileWritableByNonOwner (mode : Nat)
  | read (error : IoError)
  | fileTooLarge
  | write (error : IoError)
  | rename (error : IoError)
  | remove (error : IoError)
  deriving DecidableEq

abbrev SecretProgram := Prog Disk.Call Disk.Answer NamespaceRuntimeSecretTargetError

def secretDirectory : String := "secrets"

/-- The files of a namespace. -/
inductive SecretFile where
  | clientSecret | clientId | replay
  deriving DecidableEq

namespace SecretFile

def name : SecretFile → String
  | clientSecret => "oidc-client-secret"
  | clientId => "oidc-client-id"
  | replay => ".oidc-client.meta"

def maximum : SecretFile → Nat
  | clientSecret | clientId => 128
  | replay => 2048

def mode : SecretFile → Nat
  | clientSecret | clientId => 0o444
  | replay => 0o600

end SecretFile

def tempName (name : String) : String := "." ++ name ++ ".tmp"

/-- The part of a mode that lets others than the owner write. -/
def nonOwnerWrite (mode : Nat) : Nat := (mode &&& 0o777) &&& 0o022

structure NamespaceRuntimeSecretTarget where
  runtimeRoot : Path
  me : Process
  sha256 : List UInt8 → Sha256Digest

namespace NamespaceRuntimeSecretTarget

open NamespaceRuntimeSecretTargetError

variable (T : NamespaceRuntimeSecretTarget)

def installationRoot (id : InstallationId) : Path := T.runtimeRoot ++ [id.text]

def secretRoot (id : InstallationId) : Path := T.installationRoot id ++ [secretDirectory]

def directory (id : InstallationId) : SecretFile → Path
  | .clientSecret | .clientId => T.secretRoot id
  | .replay => T.installationRoot id

def path (id : InstallationId) (file : SecretFile) : Path := T.directory id file ++ [file.name]

def temporary (id : InstallationId) (file : SecretFile) : Path :=
  T.directory id file ++ [tempName file.name]

def validateDirectory (p : Path) : SecretProgram Unit := do
  let metadata ← invoke inspect (.metadata p)
  if metadata.type ≠ .directory then Prog.throw invalidDirectory
  else if metadata.uid ≠ T.me.uid then Prog.throw (ownerMismatch T.me.uid metadata.uid)
  else if nonOwnerWrite metadata.mode ≠ 0 then
    Prog.throw (writableByNonOwner (metadata.mode &&& 0o777))
  else pure ()

def openChecked (p : Path) : SecretProgram Unit := do
  let metadata ← invoke openFailed (.openFile p)
  if metadata.type ≠ .file then Prog.throw invalidFile
  else if metadata.uid ≠ T.me.uid then Prog.throw (fileOwnerMismatch T.me.uid metadata.uid)
  else if nonOwnerWrite metadata.mode ≠ 0 then
    Prog.throw (fileWritableByNonOwner (metadata.mode &&& 0o777))
  else pure ()

def readOptional (p : Path) (maximum : Nat) : SecretProgram (Option (List UInt8)) := do
  let opened : Except NamespaceRuntimeSecretTargetError Unit ← (T.openChecked p).attempt
  match opened with
  | .error (openFailed .notFound) => pure none
  | .error e => Prog.throw e
  | .ok () =>
    let bytes ← invoke read (.read p (maximum + 1))
    if maximum < bytes.length then Prog.throw fileTooLarge else pure (some bytes)

def removeOptional (p : Path) : SecretProgram Bool := do
  let opened : Except NamespaceRuntimeSecretTargetError Unit ← (T.openChecked p).attempt
  match opened with
  | .error (openFailed .notFound) => pure false
  | .error e => Prog.throw e
  | .ok () =>
    invoke remove (.removeFile p)
    pure true

def writeAtomic (directory : Path) (name : String) (value : List UInt8) (mode : Nat) :
    SecretProgram Unit := do
  let temporary := directory ++ [tempName name]
  let _ ← T.removeOptional temporary
  invoke write (.createNew temporary 0o600)
  invoke write (.writeAll temporary value)
  invoke write (.syncAll temporary)
  invoke write (.setPermissions temporary mode)
  invoke NamespaceRuntimeSecretTargetError.rename (.rename temporary (directory ++ [name]))

def digest (secret : OidcClientSecret) : Sha256Digest := T.sha256 secret.bytes.1

def expectedMetadata (request : RuntimeOidcClientSecret) : String :=
  "RSM1\n" ++ request.operationId.text ++ "\n" ++ request.appId.value ++ "\n" ++
    request.publisherId.value ++ "\n" ++ request.clientId.text ++ "\n" ++
    String.ofList (Hex.encode (T.digest request.clientSecret).1) ++ "\n"

/-- What a delivery puts into a file. -/
def material (request : RuntimeOidcClientSecret) : SecretFile → List UInt8
  | .clientSecret => textBytes request.clientSecret.encode
  | .clientId => textBytes request.clientId.text
  | .replay => textBytes (T.expectedMetadata request)

/-- The bytes are a secret with the digest of the requested one. -/
def verifies (request : RuntimeOidcClientSecret) (bytes : List UInt8) : Bool :=
  match String.fromUTF8? ⟨bytes.toArray⟩ with
  | none => false
  | some text =>
    match OidcClientSecret.parse text with
    | .error _ => false
    | .ok secret => T.digest secret = T.digest request.clientSecret

/-- What the delivery takes for its own material. -/
def accepts (request : RuntimeOidcClientSecret) : SecretFile → List UInt8 → Bool
  | .clientSecret, bytes => T.verifies request bytes
  | file, bytes => bytes = T.material request file

/-- Write a file that was not there. -/
def writeMissing (request : RuntimeOidcClientSecret) (file : SecretFile)
    (existing : Option (List UInt8)) : SecretProgram Unit :=
  match existing with
  | some _ => pure ()
  | none => T.writeAtomic (T.directory request.installationId file) file.name
      (T.material request file) file.mode

def readExisting (id : InstallationId) (file : SecretFile) : SecretProgram (Option (List UInt8)) :=
  T.readOptional (T.path id file) file.maximum

def deliverOidcClientSecret (request : RuntimeOidcClientSecret) :
    SecretProgram RuntimeSecretTargetOutcome := do
  T.validateDirectory T.runtimeRoot
  T.validateDirectory (T.installationRoot request.installationId)
  T.validateDirectory (T.secretRoot request.installationId)
  let existingSecret ← T.readExisting request.installationId .clientSecret
  let existingClient ← T.readExisting request.installationId .clientId
  let existingMetadata ← T.readExisting request.installationId .replay
  if existingSecret.any (fun bytes => !T.accepts request .clientSecret bytes) then pure .conflict
  else if existingClient.any (fun bytes => !T.accepts request .clientId bytes) ||
      existingMetadata.any (fun bytes => !T.accepts request .replay bytes) then pure .conflict
  else do
    T.writeMissing request .clientSecret existingSecret
    T.writeMissing request .clientId existingClient
    T.writeMissing request .replay existingMetadata
    pure (if existingSecret.isSome && existingClient.isSome && existingMetadata.isSome then
      .alreadyApplied else .applied)

/-- Remove the files that there are, and tell whether there was one. -/
def removePaths : List Path → SecretProgram Bool
  | [] => pure false
  | p :: ps => do
    let removed ← T.removeOptional p
    let others ← removePaths ps
    pure (removed || others)

def secretPaths (id : InstallationId) : List Path :=
  [T.path id .clientSecret, T.path id .clientId, T.path id .replay,
    T.temporary id .clientSecret, T.temporary id .clientId, T.temporary id .replay]

def removeMaterial (id : InstallationId) : SecretProgram RuntimeSecretTargetOutcome := do
  T.validateDirectory (T.installationRoot id)
  T.validateDirectory (T.secretRoot id)
  let removed ← T.removePaths (T.secretPaths id)
  pure (if removed then .applied else .alreadyApplied)

def removeForInstallation (id : InstallationId) : SecretProgram RuntimeSecretTargetOutcome := do
  T.validateDirectory T.runtimeRoot
  match ← Prog.perform (Call.metadata (T.installationRoot id)) with
  | .error .notFound => pure .alreadyApplied
  | .error e => Prog.throw (inspect e)
  | .ok _ => T.removeMaterial id

/-- Remove an empty directory, if it is there. -/
def removeDirIfPresent (p : Path) : Prog Disk.Call Disk.Answer IoError Unit := do
  match ← Prog.perform (Call.removeDir p) with
  | .ok () | .error .notFound => pure ()
  | .error e => Prog.throw e

/-- The runtime target's cleanup of a namespace, over the calls of the file system. -/
def removeNamespaceIfEmpty (p : Path) : Prog Disk.Call Disk.Answer IoError Unit := do
  removeDirIfPresent (p ++ [secretDirectory])
  removeDirIfPresent p

end NamespaceRuntimeSecretTarget

end Rumahl
