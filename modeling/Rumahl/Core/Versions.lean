import Rumahl.Core.ManifestParts

/-!
# The texts of a version

`AppVersion::parse` compares nothing but the first character of a component with a zero and leaves
the rest to the integer parser of the standard library, which also takes a plus sign in front of the
digits. The accepted texts that are not the displayed form of their version are therefore those with
a plus sign (`AppVersion.display_eq_iff`).
-/

namespace Rumahl

/-! ## Reading digits back -/

/-- A digit is the character of a number below ten, its distance from the zero. -/
private theorem digitChar_sub (h : c.isDigit = true) :
    c.toNat - '0'.toNat < 10 ∧ Nat.digitChar (c.toNat - '0'.toNat) = c := by
  have hrange : 48 ≤ c.toNat ∧ c.toNat ≤ 57 := by
    simpa [Char.isDigit, UInt32.le_iff_toNat_le] using h
  have hzero : '0'.toNat = 48 := rfl
  refine ⟨by omega, Char.toNat_inj.mp ?_⟩
  rw [hzero, Nat.toNat_digitChar_of_lt_ten (by omega)]
  omega

/-- A numeral: digits, of which the first is a zero only if it is the only one. -/
structure IsNumeral (cs : List Char) : Prop where
  ne_nil : cs ≠ []
  digits : ∀ c ∈ cs, c.isDigit = true
  head : 1 < cs.length → cs.head? ≠ some '0'

theorem IsNumeral.toDigits_ofDigitChars (h : IsNumeral cs) :
    Nat.toDigits 10 (Nat.ofDigitChars 10 cs 0) = cs := by
  induction cs using List.reverseRecOn with
  | nil => exact absurd rfl h.ne_nil
  | append_singleton ds c ih =>
    obtain ⟨hlt, hc⟩ := digitChar_sub (h.digits c (by simp))
    rw [Nat.ofDigitChars_append, Nat.ofDigitChars_cons, Nat.ofDigitChars_nil]
    by_cases hne : ds = []
    · subst hne
      rw [Nat.ofDigitChars_nil, Nat.mul_zero, Nat.zero_add, Nat.toDigits_of_lt_base hlt, hc,
        List.nil_append]
    have hhead : ds.head? ≠ some '0' := by
      rw [← List.head?_append_of_ne_nil ds hne]
      exact h.head (by simpa using List.length_pos_iff.mpr hne)
    have hpre := ih ⟨hne, fun a ha => h.digits a (by simp [ha]), fun _ => hhead⟩
    have hpos : Nat.ofDigitChars 10 ds 0 ≠ 0 := by
      intro hzero
      rw [hzero] at hpre
      exact hhead (by rw [← hpre]; rfl)
    generalize c.toNat - '0'.toNat = digit at hlt hc
    have hdiv : (10 * Nat.ofDigitChars 10 ds 0 + digit) / 10 = Nat.ofDigitChars 10 ds 0 := by omega
    have hmod : (10 * Nat.ofDigitChars 10 ds 0 + digit) % 10 = digit := by omega
    rw [Nat.toDigits_eq_if (by decide), if_neg (by omega), hdiv, hmod, hc, hpre]

theorem toDigits_no_plus (n : Nat) : '+' ∉ Nat.toDigits 10 n := fun h =>
  absurd (Nat.isDigit_of_mem_toDigits (by decide) (by decide) h) (by decide)

/-! ## Components -/

theorem parseU64_eq_some (h : parseU64 cs = some n) (hplus : '+' ∉ cs) :
    cs ≠ [] ∧ (∀ c ∈ cs, c.isDigit = true) ∧ n.toNat = Nat.ofDigitChars 10 cs 0 := by
  have hhead : cs.head? ≠ some '+' := fun hm => hplus (List.mem_of_head? hm)
  simp only [parseU64, if_neg hhead] at h
  split at h
  · next hd =>
    cases h
    exact ⟨hd.1, List.all_eq_true.mp hd.2.1, UInt64.toNat_ofNat_of_lt' hd.2.2⟩
  · cases h

namespace AppVersion

theorem parseComponent_eq_ok (h : parseComponent cs = .ok n) (hplus : '+' ∉ cs) :
    Nat.toDigits 10 n.toNat = cs := by
  unfold parseComponent at h
  split at h
  · cases h
  split at h
  · cases h
  next number hu =>
  split at h
  · cases h
  next hz =>
  cases h
  obtain ⟨hne, hd, hv⟩ := parseU64_eq_some hu hplus
  have hnum : IsNumeral cs := ⟨hne, hd, fun hl hh => hz ⟨hl, hh⟩⟩
  rw [hv, hnum.toDigits_ofDigitChars]

/-- An accepted text consists of three accepted components. -/
theorem parse_eq_ok (h : parse s = .ok v) : ∃ major minor patch,
    s.toList = ['.'].intercalate [major, minor, patch] ∧ parseComponent major = .ok v.major ∧
      parseComponent minor = .ok v.minor ∧ parseComponent patch = .ok v.patch := by
  unfold parse at h
  split at h
  · next major minor patch hsplit =>
    obtain ⟨a, ha, h⟩ := Except.bind_eq_ok.mp h
    obtain ⟨b, hb, h⟩ := Except.bind_eq_ok.mp h
    obtain ⟨c, hc, h⟩ := Except.bind_eq_ok.mp h
    cases h
    refine ⟨major, minor, patch, ?_, ha, hb, hc⟩
    rw [← hsplit, List.intercalate_splitOn]
  · cases h

theorem display_no_plus (v : AppVersion) : '+' ∉ v.display.toList := by
  simp [display, toDigits_no_plus, List.intercalate]

/-- Of the accepted texts, those without a plus sign are the displayed ones. -/
theorem display_eq_iff (h : parse s = .ok v) : v.display = s ↔ '+' ∉ s.toList := by
  constructor
  · rintro rfl
    exact v.display_no_plus
  · intro hplus
    obtain ⟨major, minor, patch, hs, ha, hb, hc⟩ := parse_eq_ok h
    have hparts : '+' ∉ major ∧ '+' ∉ minor ∧ '+' ∉ patch := by
      simpa [hs, List.intercalate] using hplus
    rw [display, parseComponent_eq_ok ha hparts.1, parseComponent_eq_ok hb hparts.2.1,
      parseComponent_eq_ok hc hparts.2.2, ← hs, String.ofList_toList]

/-- An accepted text is the displayed form of its version exactly if it has no plus sign; a
displayed version is read back; and no two accepted texts without a plus sign denote one version. -/
theorem version_canonical_iff (s : String) (v : AppVersion) :
    (parse s = .ok v → (v.display = s ↔ '+' ∉ s.toList)) ∧ parse v.display = .ok v ∧
    ∀ t, parse s = .ok v → parse t = .ok v → '+' ∉ s.toList → '+' ∉ t.toList → s = t := by
  refine ⟨display_eq_iff, parse_display v, fun t hs ht hps hpt => ?_⟩
  rw [← (display_eq_iff hs).mpr hps, (display_eq_iff ht).mpr hpt]

theorem plain_version_canonical :
    parse "1.20.3" = .ok ⟨1, 20, 3⟩ ∧ (AppVersion.mk 1 20 3).display = "1.20.3" :=
  ⟨by decide +kernel,
    ((version_canonical_iff "1.20.3" ⟨1, 20, 3⟩).1 (by decide +kernel)).mpr (by decide)⟩

/-- A plus sign is taken, and hides a leading zero from the check for it. -/
theorem signed_versions_accepted : parse "1.2.3" = .ok ⟨1, 2, 3⟩ ∧ parse "+1.2.3" = .ok ⟨1, 2, 3⟩ ∧
    parse "+01.2.3" = .ok ⟨1, 2, 3⟩ ∧ parse "01.2.3" = .error .leadingZero ∧
    (AppVersion.mk 1 2 3).display ≠ "+1.2.3" := by
  decide +kernel

end AppVersion

end Rumahl
