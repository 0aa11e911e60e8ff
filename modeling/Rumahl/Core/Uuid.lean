import Rumahl.Core.Identity
import Rumahl.Data.Encoding

/-!
# UUIDs as text

An id that was drawn as a UUID is printed with hyphens (`InstallationId.text`) and can be read in
that and in three other forms. What is printed can be read again (`Uuid.parse_text`), and no two ids
are printed alike (`InstallationId.text_injective`).
-/

open List

namespace Rumahl

namespace Uuid

def hexDigit (c : Char) : Option Nat :=
  if '0' ≤ c ∧ c ≤ '9' then some (c.toNat - '0'.toNat)
  else if 'a' ≤ c ∧ c ≤ 'f' then some (c.toNat - 'a'.toNat + 10)
  else if 'A' ≤ c ∧ c ≤ 'F' then some (c.toNat - 'A'.toNat + 10)
  else none

/-- The value of the digits, after those that gave `value`. -/
def digits (value : Nat) : List Char → Option Nat
  | [] => some value
  | c :: cs => do
    let digit ← hexDigit c
    digits (16 * value + digit) cs

def hyphenated (cs : List Char) : Option Nat :=
  if cs.length = 36 ∧ cs[8]? = some '-' ∧ cs[13]? = some '-' ∧ cs[18]? = some '-' ∧
      cs[23]? = some '-' then
    digits 0 (cs.take 8 ++ (cs.drop 9).take 4 ++ (cs.drop 14).take 4 ++ (cs.drop 19).take 4 ++
      cs.drop 24)
  else none

/-- The source counts bytes; text that is not ASCII is refused either way. -/
def parse (value : String) : Option Nat :=
  let cs := value.toList
  if cs.length = 32 then digits 0 cs
  else if cs.length = 36 then hyphenated cs
  else if cs.length = 38 ∧ cs.head? = some '{' ∧ cs.getLast? = some '}' then
    hyphenated cs.tail.dropLast
  else if cs.length = 45 ∧ cs.take 9 = "urn:uuid:".toList then hyphenated (cs.drop 9)
  else none

theorem hexDigit_digitChar : ∀ n < 16, hexDigit (Nat.digitChar n) = some n := by decide

theorem digits_append (value : Nat) (cs cs' : List Char) :
    digits value (cs ++ cs') = (digits value cs).bind fun v => digits v cs' := by
  induction cs generalizing value with
  | nil => rfl
  | cons c cs ih =>
    simp only [cons_append, digits, Option.bind_eq_bind]
    cases hexDigit c with
    | none => rfl
    | some d => exact ih _

theorem digits_zeros (k : Nat) : digits 0 (List.replicate k '0') = some 0 := by
  induction k with
  | zero => rfl
  | succ k ih => exact ih

theorem digits_toDigits (n : Nat) : digits 0 (Nat.toDigits 16 n) = some n := by
  induction n using Nat.strongRecOn with
  | ind n ih =>
    by_cases h : n < 16
    · rw [Nat.toDigits_of_lt_base h, digits, hexDigit_digitChar n h]
      simp [digits]
    · have hmod := hexDigit_digitChar (n % 16) (Nat.mod_lt _ (by decide))
      rw [Nat.toDigits_of_base_le (by decide) (Nat.not_lt.mp h), digits_append,
        ih (n / 16) (by omega)]
      simp only [Option.bind_some, digits, hmod, Option.bind_eq_bind, Option.some.injEq]
      omega

theorem digits_hexDigits (width n : Nat) : digits 0 (hexDigits width n) = some n := by
  rw [hexDigits, digits_append, digits_zeros, Option.bind_some, digits_toDigits]

theorem hexDigits_injective (width : Nat) : Function.Injective (hexDigits width) := by
  intro n m h
  have hn := digits_hexDigits width n
  rw [h, digits_hexDigits] at hn
  exact (Option.some.inj hn).symm

theorem toDigits_digit (n : Nat) : ∀ c ∈ Nat.toDigits 16 n, ∃ d < 16, c = Nat.digitChar d := by
  induction n using Nat.strongRecOn with
  | ind n ih =>
    intro c hc
    by_cases h : n < 16
    · rw [Nat.toDigits_of_lt_base h, mem_singleton] at hc
      exact ⟨n, h, hc⟩
    · rw [Nat.toDigits_of_base_le (by decide) (Nat.not_lt.mp h), mem_append, mem_singleton] at hc
      obtain hc | hc := hc
      · exact ih (n / 16) (by omega) c hc
      · exact ⟨n % 16, Nat.mod_lt _ (by decide), hc⟩

theorem hexDigits_digit (width n : Nat) :
    ∀ c ∈ hexDigits width n, ∃ d < 16, c = Nat.digitChar d := by
  intro c hc
  obtain hc | hc := mem_append.mp hc
  · exact ⟨0, by decide, eq_of_mem_replicate hc⟩
  · exact toDigits_digit n c hc

theorem length_hexDigits (h : n < 2 ^ 128) : (hexDigits 32 n).length = 32 := by
  have hle : (Nat.toDigits 16 n).length ≤ 32 :=
    (Nat.length_toDigits_le_iff (by decide) (by decide)).mpr (by simpa using h)
  rw [hexDigits, length_append, length_replicate]
  omega

theorem take_append_drop_add (k n : Nat) (l : List Char) :
    (l.drop k).take n ++ l.drop (k + n) = l.drop k := by
  rw [← drop_drop, take_append_drop]

theorem hyphenated_join (ha : a.length = 8) (hb : b.length = 4) (hc : c.length = 4)
    (hd : d.length = 4) (he : e.length = 12) :
    hyphenated (a ++ ['-'] ++ b ++ ['-'] ++ c ++ ['-'] ++ d ++ ['-'] ++ e) =
      digits 0 (a ++ b ++ c ++ d ++ e) := by
  rw [hyphenated, if_pos]
  · simp (disch := omega) [drop_append, ha, hb, hc, hd, drop_eq_nil_of_le]
  · simp [ha, hb, hc, hd, he]

end Uuid

open Uuid

inductive InstallationIdError where
  | invalidFormat
  | wrongVersion (version : Nat)

def InstallationId.parse (value : String) : Except InstallationIdError InstallationId :=
  match Uuid.parse value with
  | none => .error .invalidFormat
  | some n => if n / 2 ^ 76 % 16 = 7 then .ok ⟨n⟩ else .error (.wrongVersion (n / 2 ^ 76 % 16))

/-- The id is a UUID of version 7, as those that are drawn. -/
def InstallationId.IsUuid (id : InstallationId) : Prop :=
  id.value < 2 ^ 128 ∧ id.value / 2 ^ 76 % 16 = 7

theorem InstallationId.parse_text {id : InstallationId} (h : id.IsUuid) :
    parse id.text = .ok id := by
  have hlen := length_hexDigits h.1
  have hparts : Uuid.hyphenated id.text.toList = some id.value := by
    rw [text, String.toList_ofList, hyphenated_join (by simp [hlen]) (by simp [hlen])
      (by simp [hlen]) (by simp [hlen]) (by simp [hlen])]
    simp only [append_assoc]
    rw [take_append_drop_add, take_append_drop_add, take_append_drop_add, take_append_drop,
      digits_hexDigits]
  have hsize : id.text.toList.length = 36 := by
    rw [text, String.toList_ofList]
    simp [hlen]
  have huuid : Uuid.parse id.text = some id.value := by
    rw [Uuid.parse]
    rw [if_neg (by rw [hsize]; decide), if_pos hsize, hparts]
  rw [parse, huuid]
  exact if_pos h.2

theorem InstallationId.filter_text (id : InstallationId) :
    id.text.toList.filter (· ≠ '-') = hexDigits 32 id.value := by
  have hdigit : ∀ d < 16, Nat.digitChar d ≠ '-' := by decide
  have hall : ∀ c ∈ hexDigits 32 id.value, c ≠ '-' := by
    intro c hc
    obtain ⟨d, hd, rfl⟩ := hexDigits_digit 32 id.value c hc
    exact hdigit d hd
  have hkeep : ∀ l : List Char, (∀ c ∈ l, c ∈ hexDigits 32 id.value) →
      l.filter (· ≠ '-') = l := fun l hl =>
    filter_eq_self.mpr fun c hc => by simpa using hall c (hl c hc)
  rw [text]
  simp only [String.toList_ofList, filter_append]
  rw [hkeep _ fun c hc => mem_of_mem_take hc,
    hkeep _ fun c hc => mem_of_mem_drop (mem_of_mem_take hc),
    hkeep _ fun c hc => mem_of_mem_drop (mem_of_mem_take hc),
    hkeep _ fun c hc => mem_of_mem_drop (mem_of_mem_take hc),
    hkeep _ fun c hc => mem_of_mem_drop hc]
  simp only [filter_cons, filter_nil, ne_eq, not_true_eq_false, decide_false,
    Bool.false_eq_true, if_false, append_nil, append_assoc]
  rw [take_append_drop_add, take_append_drop_add, take_append_drop_add, take_append_drop]

theorem InstallationId.mem_text {id : InstallationId} (hc : c ∈ id.text.toList) :
    c = '-' ∨ ∃ d < 16, c = Nat.digitChar d := by
  by_cases hyphen : c = '-'
  · exact .inl hyphen
  · have hmem : c ∈ hexDigits 32 id.value := by
      rw [← filter_text]
      exact mem_filter.mpr ⟨hc, by simpa using hyphen⟩
    exact .inr (hexDigits_digit _ _ c hmem)

theorem InstallationId.byteLength_text {id : InstallationId} (h : id.value < 2 ^ 128) :
    byteLength id.text.toList = 36 := by
  have hdigit : ∀ d < 16, (Nat.digitChar d).utf8Size = 1 := by decide
  have hlen := length_hexDigits h
  have hone : ∀ c ∈ id.text.toList, c.utf8Size = 1 := by
    intro c hc
    obtain rfl | ⟨d, hd, rfl⟩ := mem_text hc
    · rfl
    · exact hdigit d hd
  rw [byteLength_eq_length hone, text, String.toList_ofList]
  simp [hlen]

theorem InstallationId.text_injective : Function.Injective InstallationId.text := by
  intro a b h
  have hdigits := a.filter_text.symm.trans ((congrArg (·.toList.filter (· ≠ '-')) h).trans
    b.filter_text)
  have hvalue := hexDigits_injective 32 hdigits
  cases a
  exact congrArg _ hvalue

end Rumahl
