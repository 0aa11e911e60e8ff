import Rumahl.Core.Names
import Rumahl.Data.Encoding

/-!
# Sealed columns

A sealed value is an envelope: the id of the key, a nonce and the ciphertext, written one after the
other into one blob. What AES-256-GCM does is assumed: it lengthens a text by its tag of 16 bytes
and decrypts what it has encrypted.
-/

namespace Rumahl

/-- AES-256-GCM. -/
structure Aes256Gcm where
  encrypt : (key nonce associatedData plaintext : List UInt8) → List UInt8
  decrypt : (key nonce associatedData ciphertext : List UInt8) → Option (List UInt8)
  length_encrypt : ∀ k n a p, (encrypt k n a p).length = p.length + 16
  length_decrypt : ∀ k n a c p, decrypt k n a c = some p → c.length = p.length + 16
  decrypt_encrypt : ∀ k n a p, decrypt k n a (encrypt k n a p) = some p

/-- A cipher that only appends a tag, where a concrete one is needed. -/
def Aes256Gcm.tagging : Aes256Gcm where
  encrypt _ _ _ plaintext := plaintext ++ List.replicate 16 0
  decrypt _ _ _ ciphertext :=
    if 16 ≤ ciphertext.length then some (ciphertext.take (ciphertext.length - 16)) else none
  length_encrypt := by simp
  length_decrypt k n a c p h := by
    split_ifs at h with hle
    cases h
    rw [List.length_take]
    omega
  decrypt_encrypt := by simp

def SecretEncryptionKeyId.check : String → Except NameError Unit := checkKey 120 isKeyCharacter

abbrev SecretEncryptionKeyId := Checked SecretEncryptionKeyId.check

abbrev SecretEncryptionKeyId.parse : String → Except NameError SecretEncryptionKeyId :=
  Checked.parse SecretEncryptionKeyId.check

structure SecretEncryptionKey where
  id : SecretEncryptionKeyId
  bytes : List UInt8
  length_eq : bytes.length = 32

/-- A source of keys. An active key that cannot be had is `none`. -/
structure FieldKeyProvider where
  activeKey : Option SecretEncryptionKey
  keyById : SecretEncryptionKeyId → Option SecretEncryptionKey

structure FieldEnvelope where
  keyId : SecretEncryptionKeyId
  nonce : List UInt8
  ciphertext : List UInt8
  nonce_length : nonce.length = 12

inductive FieldCipherError where
  | keyProvider | authenticationFailed | missingKey | invalidEnvelope

def fieldAssociatedData (context : List UInt8) : List UInt8 :=
  textBytes "rumahl-field-v1" ++
    [.ofNat (context.length / 2 ^ 24), .ofNat (context.length / 2 ^ 16),
      .ofNat (context.length / 2 ^ 8), .ofNat context.length] ++ context

def sealField (aes : Aes256Gcm) (provider : FieldKeyProvider) (nonce : ByteVector 12)
    (context plaintext : List UInt8) : Except FieldCipherError FieldEnvelope :=
  match provider.activeKey with
  | none => .error .keyProvider
  | some key => .ok
    { keyId := key.id
      nonce := nonce.1
      ciphertext := aes.encrypt key.bytes nonce.1 (fieldAssociatedData context) plaintext
      nonce_length := nonce.2 }

def openField (aes : Aes256Gcm) (provider : FieldKeyProvider) (context : List UInt8)
    (envelope : FieldEnvelope) : Except FieldCipherError (List UInt8) :=
  match provider.keyById envelope.keyId with
  | none => .error .missingKey
  | some key =>
    match aes.decrypt key.bytes envelope.nonce (fieldAssociatedData context)
      envelope.ciphertext with
    | none => .error .authenticationFailed
    | some plaintext => .ok plaintext

namespace FieldEnvelope

def magic : List UInt8 := textBytes "RFE1"

def encode (e : FieldEnvelope) : List UInt8 :=
  magic ++ [.ofNat ((textBytes e.keyId.value).length / 2 ^ 8),
      .ofNat (textBytes e.keyId.value).length] ++
    textBytes e.keyId.value ++ e.nonce ++ e.ciphertext

def decode (bytes : List UInt8) : Except FieldCipherError FieldEnvelope :=
  if bytes.length < 18 ∨ bytes.take 4 ≠ magic then .error .invalidEnvelope
  else
    let keyIdLength := (bytes.getD 4 0).toNat * 2 ^ 8 + (bytes.getD 5 0).toNat
    if h : bytes.length < 6 + keyIdLength + 12 ∨ keyIdLength = 0 then .error .invalidEnvelope
    else
      match String.fromUTF8? ⟨((bytes.drop 6).take keyIdLength).toArray⟩ with
      | none => .error .invalidEnvelope
      | some keyId =>
        match SecretEncryptionKeyId.parse keyId with
        | .error _ => .error .invalidEnvelope
        | .ok keyId => .ok
          { keyId
            nonce := (bytes.drop (6 + keyIdLength)).take 12
            ciphertext := bytes.drop (6 + keyIdLength + 12)
            nonce_length := by simp; omega }

theorem length_of_decode (h : decode bytes = .ok e) : 18 ≤ bytes.length := by
  unfold decode at h
  split_ifs at h with hshort
  exact Nat.not_lt.mp (not_or.mp hshort).1

theorem length_keyId (id : SecretEncryptionKeyId) :
    (textBytes id.value).length ≠ 0 ∧ (textBytes id.value).length ≤ 120 := by
  have hsize := length_textBytes id.value
  have hvalid : checkKey 120 isKeyCharacter id.value = .ok () := id.valid
  rw [checkKey] at hvalid
  split_ifs at hvalid with hempty hlong
  refine ⟨fun hzero => hempty ?_, by omega⟩
  have : id.value.toUTF8.size = 0 := hzero
  simpa using this

theorem decode_encode (e : FieldEnvelope) : decode e.encode = .ok e := by
  obtain ⟨keyId, nonce, ciphertext, hnonce⟩ := e
  obtain ⟨hpos, hle⟩ := length_keyId keyId
  have hmagic : magic = [82, 70, 69, 49] := by decide +kernel
  generalize hk : textBytes keyId.value = k at hpos hle
  have hbytes : encode ⟨keyId, nonce, ciphertext, hnonce⟩ =
      82 :: 70 :: 69 :: 49 :: UInt8.ofNat (k.length / 2 ^ 8) :: UInt8.ofNat k.length ::
        (k ++ (nonce ++ ciphertext)) := by
    simp [encode, hmagic, hk]
  have hlength : (UInt8.ofNat (k.length / 2 ^ 8)).toNat * 2 ^ 8 + (UInt8.ofNat k.length).toNat =
      k.length := by
    simp only [UInt8.toNat_ofNat']
    omega
  have hkey : String.fromUTF8? ⟨k.toArray⟩ = some keyId.value := hk ▸ fromUTF8_textBytes _
  have hfit : ¬ ((82 :: 70 :: 69 :: 49 :: UInt8.ofNat (k.length / 2 ^ 8) :: UInt8.ofNat k.length ::
      (k ++ (nonce ++ ciphertext))).length < 6 + k.length + 12 ∨ k.length = 0) := by
    simp only [List.length_cons, List.length_append, hnonce]
    omega
  have hdrop : ∀ n, (82 :: 70 :: 69 :: 49 :: UInt8.ofNat (k.length / 2 ^ 8) ::
      UInt8.ofNat k.length :: (k ++ (nonce ++ ciphertext))).drop (6 + n) =
        (k ++ (nonce ++ ciphertext)).drop n := by
    intro n
    rw [Nat.add_comm]
    rfl
  rw [hbytes, decode, if_neg (by simp [hmagic, hnonce]; omega)]
  simp only [List.getD_cons_succ, List.getD_cons_zero, hlength]
  rw [dif_neg hfit]
  simp only [hdrop, Nat.add_assoc]
  simp [hkey, ← hnonce]

end FieldEnvelope

/-! ## Sealing and opening -/

theorem length_of_sealField (h : sealField aes provider nonce context plaintext = .ok e) :
    e.ciphertext.length = plaintext.length + 16 := by
  unfold sealField at h
  split at h
  · cases h
  · cases h
    exact aes.length_encrypt ..

theorem length_of_openField (h : openField aes provider context e = .ok plaintext) :
    e.ciphertext.length = plaintext.length + 16 := by
  unfold openField at h
  split at h
  · cases h
  · split at h
    · cases h
    · next hdecrypt =>
      cases h
      exact aes.length_decrypt _ _ _ _ _ hdecrypt

theorem openField_of_sealField (h : sealField aes provider nonce context plaintext = .ok e)
    (hkey : reader.keyById e.keyId = provider.activeKey) :
    openField aes reader context e = .ok plaintext := by
  unfold sealField at h
  split at h
  · cases h
  · next key hactive =>
    cases h
    rw [openField, hkey, hactive]
    simp only [aes.decrypt_encrypt]

end Rumahl
