import Rumahl.Packages.Manifest

/-!
# Signatures and trust stores

A package carries a detached signature over the bytes of its manifest (`SignatureEnvelope`). A
`TrustStore` holds the publisher keys that are accepted; its key ids are distinct, so an id names at
most one key.
-/

namespace Rumahl

def maxSignatureBytes : Nat := 4 * 1024
def maxTrustStoreBytes : Nat := 1024 * 1024

def validKeyId (value : String) : Bool :=
  value ≠ "" && byteLength value.toList ≤ 64 &&
    value.toList.all fun c => c.isAlphanum || c == '-' || c == '_'

/-- Bytes of a fixed length in base64. -/
def decodeBytes (n : Nat) (encoding length : ε) (text : String) : Except ε (ByteVector n) :=
  match Base64.decode text.toList with
  | none => .error encoding
  | some bytes => if h : bytes.length = n then .ok ⟨bytes, h⟩ else .error length

def encodeBytes (bytes : ByteVector n) : String := String.ofList (Base64.encode bytes.1)

theorem decodeBytes_encodeBytes (encoding length : ε) (bytes : ByteVector n) :
    decodeBytes n encoding length (encodeBytes bytes) = .ok bytes := by
  rw [decodeBytes, encodeBytes, String.toList_ofList, Base64.decode_encode]
  exact dif_pos bytes.2

/-! ## The signature of a package -/

structure SignatureEnvelope where
  keyId : String
  signature : ByteVector 64

inductive SignatureEnvelopeError where
  | tooLarge | malformed
  | unsupportedFormatVersion (version : Nat)
  | unsupportedAlgorithm (algorithm : String)
  | invalidKeyId | invalidSignatureEncoding | invalidSignatureLength
  deriving DecidableEq

structure RawSignature where
  formatVersion : Nat
  algorithm : String
  keyId : String
  signature : String

open Json (field asString asNat asList)

def RawSignature.read (j : Json) : Option RawSignature := do
  let fields ← j.record ["formatVersion", "algorithm", "keyId", "signature"]
  pure {
    formatVersion := ← field (asNat (2 ^ 32)) "formatVersion" fields
    algorithm := ← field asString "algorithm" fields
    keyId := ← field asString "keyId" fields
    signature := ← field asString "signature" fields }

namespace SignatureEnvelope

def fromRaw (raw : RawSignature) : Except SignatureEnvelopeError SignatureEnvelope :=
  if raw.formatVersion ≠ 1 then .error (.unsupportedFormatVersion raw.formatVersion)
  else if raw.algorithm ≠ "ed25519" then .error (.unsupportedAlgorithm raw.algorithm)
  else if !validKeyId raw.keyId then .error .invalidKeyId
  else do
    let signature ← decodeBytes 64 SignatureEnvelopeError.invalidSignatureEncoding
      .invalidSignatureLength raw.signature
    pure ⟨raw.keyId, signature⟩

def fromBytes (P : Primitives) (bytes : P.Bytes) :
    Except SignatureEnvelopeError SignatureEnvelope :=
  if maxSignatureBytes < P.length bytes then .error .tooLarge
  else
    match (P.readJson bytes).bind RawSignature.read with
    | none => .error .malformed
    | some raw => fromRaw raw

end SignatureEnvelope

/-! ## Trusted keys -/

structure TrustedKey where
  keyId : String
  publisherId : PublisherId
  verifyingKey : ByteVector 32

/-- The keys of a verifier. -/
structure TrustStore where
  keys : List TrustedKey
  ids_nodup : (keys.map TrustedKey.keyId).Nodup

inductive TrustStoreError where
  | tooLarge | malformed
  | unsupportedFormatVersion (version : Nat)
  | empty | invalidKeyId | invalidPublisherId | invalidPublicKeyEncoding | invalidPublicKeyLength
  | invalidPublicKey | duplicateKeyId

structure RawTrustedKey where
  keyId : String
  publisherId : String
  publicKey : String

structure RawTrustStore where
  formatVersion : Nat
  keys : List RawTrustedKey

def RawTrustedKey.read (j : Json) : Option RawTrustedKey := do
  let fields ← j.record ["keyId", "publisherId", "publicKey"]
  pure {
    keyId := ← field asString "keyId" fields
    publisherId := ← field asString "publisherId" fields
    publicKey := ← field asString "publicKey" fields }

def RawTrustStore.read (j : Json) : Option RawTrustStore := do
  let fields ← j.record ["formatVersion", "keys"]
  pure {
    formatVersion := ← field (asNat (2 ^ 32)) "formatVersion" fields
    keys := ← field (asList RawTrustedKey.read) "keys" fields }

namespace TrustStore

variable (P : Primitives)

/-- The part of the loop after the key id has been checked. -/
def parseKey (raw : RawTrustedKey) : Except TrustStoreError TrustedKey := do
  let publisherId ← (PublisherId.parse raw.publisherId).mapError
    fun _ => TrustStoreError.invalidPublisherId
  let verifyingKey ← decodeBytes 32 TrustStoreError.invalidPublicKeyEncoding
    .invalidPublicKeyLength raw.publicKey
  if P.validKey verifyingKey then pure ⟨raw.keyId, publisherId, verifyingKey⟩
  else throw .invalidPublicKey

def addKey (store : TrustStore) (raw : RawTrustedKey) : Except TrustStoreError TrustStore :=
  if !validKeyId raw.keyId then .error .invalidKeyId
  else if h : raw.keyId ∈ store.keys.map TrustedKey.keyId then .error .duplicateKeyId
  else
    match hk : parseKey P raw with
    | .error e => .error e
    | .ok key => .ok {
        keys := store.keys ++ [key]
        ids_nodup := by
          have hid : key.keyId = raw.keyId := by
            obtain ⟨publisherId, -, hk⟩ := Except.bind_eq_ok.mp hk
            obtain ⟨verifyingKey, -, hk⟩ := Except.bind_eq_ok.mp hk
            split at hk
            · cases hk
              rfl
            · cases hk
          rw [List.map_append, List.nodup_append]
          refine ⟨store.ids_nodup, List.nodup_singleton _, fun x hx y hy hxy => h ?_⟩
          rwa [← hid, ← List.mem_singleton.mp hy, ← hxy] }

def fromRaw (raw : RawTrustStore) : Except TrustStoreError TrustStore :=
  if raw.formatVersion ≠ 1 then .error (.unsupportedFormatVersion raw.formatVersion)
  else if raw.keys = [] then .error .empty
  else raw.keys.foldlM (addKey P) ⟨[], List.nodup_nil⟩

def fromBytes (bytes : P.Bytes) : Except TrustStoreError TrustStore :=
  if maxTrustStoreBytes < P.length bytes then .error .tooLarge
  else
    match (P.readJson bytes).bind RawTrustStore.read with
    | none => .error .malformed
    | some raw => fromRaw P raw

def verifyingKey (store : TrustStore) (publisherId : PublisherId) (keyId : String) :
    Option (ByteVector 32) :=
  (store.keys.find? fun key => key.keyId = keyId ∧ key.publisherId = publisherId).map
    TrustedKey.verifyingKey

theorem verifyingKey_eq_some {store : TrustStore}
    (h : store.verifyingKey publisherId keyId = some k) :
    ∃ key ∈ store.keys, key.keyId = keyId ∧ key.publisherId = publisherId ∧ key.verifyingKey = k ∧
      ∀ key' ∈ store.keys, key'.keyId = keyId → key' = key := by
  obtain ⟨key, hfind, rfl⟩ := Option.map_eq_some_iff.mp h
  have hmem := List.mem_of_find?_eq_some hfind
  obtain ⟨hid, hpublisher⟩ : key.keyId = keyId ∧ key.publisherId = publisherId := by
    simpa using List.find?_some hfind
  refine ⟨key, hmem, hid, hpublisher, rfl, fun key' hmem' hid' => ?_⟩
  exact List.inj_on_of_nodup_map store.ids_nodup hmem' hmem (hid'.trans hid.symm)

end TrustStore

end Rumahl
