import Rumahl.Sqlite.Identity

/-!
# Secrets of apps

`SqliteSecretStore` keeps one secret for each purpose of an installation. It stores the value
encrypted, bound to its owner and purpose; here a row holds the value itself, and a key that is not
found or a value that does not decrypt is a failure of the call.
-/

namespace Rumahl

open List

structure SecretId where
  value : Nat
  deriving DecidableEq

inductive SecretPurposeError where
  | empty | tooLong | invalidFormat
  deriving DecidableEq

/-- Segments of lower case letters, digits and inner hyphens, with dots between them. -/
def SecretPurpose.check (value : String) : Except SecretPurposeError Unit :=
  if value = "" then .error .empty
  else if 120 < byteLength value.toList then .error .tooLong
  else if (value.toList.splitOn '.').any fun segment =>
      segment.isEmpty || segment.head? = some '-' || segment.getLast? = some '-' ||
        !segment.all isNameCharacter then
    .error .invalidFormat
  else .ok ()

abbrev SecretPurpose := Checked SecretPurpose.check

inductive SecretValueError where
  | empty | tooLarge
  deriving DecidableEq

structure SecretValue where
  bytes : ByteArray
  nonempty : bytes.size ≠ 0
  size_le : bytes.size ≤ 64 * 1024
  deriving DecidableEq

def SecretValue.new (bytes : ByteArray) : Except SecretValueError SecretValue :=
  if nonempty : bytes.size = 0 then .error .empty
  else if size_le : bytes.size ≤ 64 * 1024 then .ok ⟨bytes, nonempty, size_le⟩
  else .error .tooLarge

structure SecretRecord where
  id : SecretId
  owner : AppIdentity
  purpose : SecretPurpose
  value : SecretValue
  createdAt : UnixTimestamp
  deriving DecidableEq

inductive SqliteSecretStoreError where
  | database | alreadyExists | authenticationFailed
  | valueOutsideSqliteRange (field : String) (value : Nat)
  deriving DecidableEq

namespace SqliteSecretStore

def insert (secret : SecretRecord) (t : List SecretRecord) :
    Except SqliteSecretStoreError Unit × List SecretRecord :=
  Except.commit t do
    let _ ← sqliteTimestamp (.valueOutsideSqliteRange "created_at" secret.createdAt.seconds)
      secret.createdAt
    if t.any (fun s => s.id = secret.id ||
        (s.owner.installationId = secret.owner.installationId && s.purpose = secret.purpose)) then
      .error .alreadyExists
    else pure ((), t ++ [secret])

def findByOwnerAndPurpose (owner : AppIdentity) (purpose : SecretPurpose) (t : List SecretRecord) :
    Except SqliteSecretStoreError (Option SecretRecord) :=
  match t.find? fun s => s.owner.installationId = owner.installationId && s.purpose = purpose with
  | none => .ok none
  | some record =>
    if record.owner ≠ owner ∨ record.purpose ≠ purpose then .error .authenticationFailed
    else .ok (some record)

theorem insert_of_fresh (hrange : secret.createdAt.seconds < 2 ^ 63)
    (hid : ∀ s ∈ t, s.id ≠ secret.id)
    (hnone : ∀ s ∈ t, s.owner.installationId = secret.owner.installationId →
      s.purpose ≠ secret.purpose) : insert secret t = (.ok (), t ++ [secret]) := by
  have htaken : (t.any fun s => s.id = secret.id ||
      (s.owner.installationId = secret.owner.installationId && s.purpose = secret.purpose)) =
        false := by
    simp only [any_eq_false, Bool.or_eq_true, Bool.and_eq_true, decide_eq_true_eq]
    rintro s hs (heq | ⟨hinstallation, hpurpose⟩)
    · exact hid s hs heq
    · exact hnone s hs hinstallation hpurpose
  simp only [insert, sqliteTimestamp, hrange, htaken]
  rfl

end SqliteSecretStore

end Rumahl
