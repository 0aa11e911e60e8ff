import Mathlib

/-!
# Bytes as text

Hexadecimal text with two digits for a byte, and base64 over the alphabet for URLs without padding.
Reading undoes writing: `Hex.decode_encode`, `Base64.decode_encode`.
-/

/-- A fixed number of bytes. -/
abbrev ByteVector (n : Nat) := { bytes : List UInt8 // bytes.length = n }

/-- The same byte throughout. -/
def ByteVector.fill (n : Nat) (b : UInt8) : ByteVector n :=
  ⟨List.replicate n b, List.length_replicate⟩

open List

namespace Hex

def digitValue (c : Char) : Option Nat :=
  if '0' ≤ c ∧ c ≤ '9' then some (c.toNat - '0'.toNat)
  else if 'a' ≤ c ∧ c ≤ 'f' then some (c.toNat - 'a'.toNat + 10)
  else none

def encode (bytes : List UInt8) : List Char :=
  bytes.flatMap fun b => [Nat.digitChar (b.toNat / 16), Nat.digitChar (b.toNat % 16)]

def decode : List Char → Option (List UInt8)
  | [] => some []
  | [_] => none
  | h :: l :: rest => do
    let high ← digitValue h
    let low ← digitValue l
    let bytes ← decode rest
    pure (UInt8.ofNat (high * 16 + low) :: bytes)

theorem digitValue_digitChar : ∀ n < 16, digitValue (Nat.digitChar n) = some n := by decide

theorem decode_encode (bytes : List UInt8) : decode (encode bytes) = some bytes := by
  induction bytes with
  | nil => rfl
  | cons b bytes ih =>
    have hb := b.toNat_lt
    have hhigh := digitValue_digitChar (b.toNat / 16) (by omega)
    have hlow := digitValue_digitChar (b.toNat % 16) (by omega)
    have hsum : b.toNat / 16 * 16 + b.toNat % 16 = b.toNat := by omega
    rw [encode] at ih
    rw [encode, flatMap_cons]
    simp only [cons_append, nil_append, decode, hhigh, hlow, ih, Option.bind_eq_bind,
      Option.bind_some, hsum, UInt8.ofNat_toNat, Option.pure_def]

theorem length_encode (bytes : List UInt8) : (encode bytes).length = 2 * bytes.length := by
  induction bytes with
  | nil => rfl
  | cons b bytes ih =>
    rw [encode] at ih
    rw [encode, flatMap_cons, length_append, ih, length_cons]
    simp only [length_cons, length_nil]
    omega

theorem utf8Size_encode (bytes : List UInt8) : ∀ c ∈ encode bytes, c.utf8Size = 1 := by
  have hdigit : ∀ n < 16, (Nat.digitChar n).utf8Size = 1 := by decide
  intro c hc
  obtain ⟨b, -, hc⟩ := mem_flatMap.mp hc
  have hb := b.toNat_lt
  rcases mem_pair.mp hc with rfl | rfl
  · exact hdigit _ (by omega)
  · exact hdigit _ (by omega)

end Hex

namespace Base64

def alphabet : List Char :=
  "ABCDEFGHIJKLMNOPQRSTUVWXYZabcdefghijklmnopqrstuvwxyz0123456789-_".toList

def symbol (n : Nat) : Char := alphabet.getD n 'A'

def value (c : Char) : Option Nat := alphabet.idxOf? c

/-- Three bytes become four symbols; one or two bytes at the end become two or three. -/
def encode : List UInt8 → List Char
  | [] => []
  | [a] => [symbol (a.toNat / 4), symbol (a.toNat % 4 * 16)]
  | [a, b] =>
    [symbol (a.toNat / 4), symbol (a.toNat % 4 * 16 + b.toNat / 16), symbol (b.toNat % 16 * 4)]
  | a :: b :: c :: rest =>
    symbol (a.toNat / 4) :: symbol (a.toNat % 4 * 16 + b.toNat / 16) ::
      symbol (b.toNat % 16 * 4 + c.toNat / 64) :: symbol (c.toNat % 64) :: encode rest

/-- The bits that the last symbol has too many must be zero. -/
def decode : List Char → Option (List UInt8)
  | [] => some []
  | [_] => none
  | [w, x] => do
    let w ← value w
    let x ← value x
    if x % 16 = 0 then pure [UInt8.ofNat (w * 4 + x / 16)] else none
  | [w, x, y] => do
    let w ← value w
    let x ← value x
    let y ← value y
    if y % 4 = 0 then pure [UInt8.ofNat (w * 4 + x / 16), UInt8.ofNat (x % 16 * 16 + y / 4)]
    else none
  | w :: x :: y :: z :: rest => do
    let w ← value w
    let x ← value x
    let y ← value y
    let z ← value z
    let bytes ← decode rest
    pure (UInt8.ofNat (w * 4 + x / 16) :: UInt8.ofNat (x % 16 * 16 + y / 4) ::
      UInt8.ofNat (y % 4 * 64 + z) :: bytes)

theorem value_symbol : ∀ n < 64, value (symbol n) = some n := by decide

private theorem ofNat_eq (h : n = b.toNat) : UInt8.ofNat n = b := by
  rw [h, UInt8.ofNat_toNat]

theorem decode_encode (bytes : List UInt8) : decode (encode bytes) = some bytes := by
  induction bytes using encode.induct with
  | case1 => rfl
  | case2 a =>
    have ha := a.toNat_lt
    simp only [encode, decode, value_symbol (a.toNat / 4) (by omega),
      value_symbol (a.toNat % 4 * 16) (by omega), Option.bind_eq_bind, Option.bind_some]
    rw [if_pos (by omega), ofNat_eq (b := a) (by omega)]
    rfl
  | case3 a b =>
    have ha := a.toNat_lt
    have hb := b.toNat_lt
    simp only [encode, decode, value_symbol (a.toNat / 4) (by omega),
      value_symbol (a.toNat % 4 * 16 + b.toNat / 16) (by omega),
      value_symbol (b.toNat % 16 * 4) (by omega), Option.bind_eq_bind, Option.bind_some]
    rw [if_pos (by omega), ofNat_eq (b := a) (by omega), ofNat_eq (b := b) (by omega)]
    rfl
  | case4 a b c rest ih =>
    have ha := a.toNat_lt
    have hb := b.toNat_lt
    have hc := c.toNat_lt
    simp only [encode, decode, value_symbol (a.toNat / 4) (by omega),
      value_symbol (a.toNat % 4 * 16 + b.toNat / 16) (by omega),
      value_symbol (b.toNat % 16 * 4 + c.toNat / 64) (by omega),
      value_symbol (c.toNat % 64) (by omega), ih, Option.bind_eq_bind, Option.bind_some]
    rw [ofNat_eq (b := a) (by omega), ofNat_eq (b := b) (by omega), ofNat_eq (b := c) (by omega)]
    rfl

theorem utf8Size_symbol (n : Nat) : (symbol n).utf8Size = 1 := by
  have halphabet : alphabet.all (fun c => c.utf8Size = 1) = true := by decide +kernel
  rw [symbol, getD_eq_getElem?_getD]
  cases h : alphabet[n]? with
  | none => rfl
  | some c => exact of_decide_eq_true (all_eq_true.mp halphabet c (mem_of_getElem? h))

theorem utf8Size_encode_le (bytes : List UInt8) :
    ((encode bytes).map Char.utf8Size).sum ≤ 2 * bytes.length := by
  induction bytes using encode.induct with
  | case1 => exact Nat.le_refl 0
  | case2 a => simp [encode, utf8Size_symbol]
  | case3 a b => simp [encode, utf8Size_symbol]
  | case4 a b c rest ih =>
    simp only [encode, map_cons, sum_cons, utf8Size_symbol, length_cons]
    omega

end Base64
