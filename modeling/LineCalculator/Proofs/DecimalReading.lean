import Mathlib.Algebra.Group.Basic
import Mathlib.Algebra.Group.Nat.Defs
import LineCalculator.Number
import LineCalculator.Proofs.Numeral

/-!
# Decimals that read back

The written form of a decimal is read as the word nearest to it: the zeros that are left out change
no quotient. The decimal that is shown for a finite word is nearest to that word, whether it was
found among the short ones or has all its digits, so the text of a word is read as the word.
-/
namespace LineCalculator

namespace Binary64

theorem binade_pos : 0 < binade := Nat.two_pow_pos 52

-- The exponent is generalized, so that the power is not computed.
theorem unitsPerOne_pos : 0 < unitsPerOne := by
  unfold unitsPerOne
  generalize 1074 = bits
  exact Nat.two_pow_pos bits

/-- Common factors of a quotient do not matter to its rounding. -/
theorem roundQuotient_mul_right (num den : Nat) {k : Nat} (hk : 0 < k) :
    roundQuotient (num * k) (den * k) = roundQuotient num den := by
  have hbelow : 2 * (num % den * k) < den * k ↔ 2 * (num % den) < den := by
    rw [← Nat.mul_assoc, Nat.mul_lt_mul_right hk]
  have habove : den * k < 2 * (num % den * k) ↔ den < 2 * (num % den) := by
    rw [← Nat.mul_assoc, Nat.mul_lt_mul_right hk]
  simp only [roundQuotient, Nat.mul_div_mul_right _ _ hk, Nat.mul_mod_mul_right, hbelow, habove]

theorem nearest_mul_right (num den : Nat) {k : Nat} (hk : 0 < k) :
    nearest (num * k) (den * k) = nearest num den := by
  have hscaled : num * k * unitsPerOne = num * unitsPerOne * k := Nat.mul_right_comm _ _ _
  have hden (shift : Nat) : den * k * Nat.pow 2 shift = den * Nat.pow 2 shift * k :=
    Nat.mul_right_comm _ _ _
  simp only [nearest, hscaled, hden, Nat.mul_div_mul_right _ _ hk, roundQuotient_mul_right _ _ hk]

/-- A whole number needs no rounding. -/
theorem roundQuotient_mul_self (q : Nat) {den : Nat} (hden : 0 < den) :
    roundQuotient (q * den) den = q := by
  simp [roundQuotient, Nat.mul_div_cancel _ hden, hden]

/-- The magnitude of a word is a significand scaled by the power of two that the word counts, and
the word is that power in binades and the significand. -/
theorem exists_significand (word : Nat) :
    ∃ significand, units word = significand * Nat.pow 2 (word / binade - 1) ∧
      (word / binade - 1) * binade + significand = word ∧ significand < 2 * binade ∧
      (word / binade - 1 = 0 ∨ binade ≤ significand) := by
  by_cases hsmall : word < binade
  · have hzero : word / binade = 0 := Nat.div_eq_of_lt hsmall
    exact ⟨word, by simp [units, hsmall, hzero], by simp [hzero], by omega, .inl (by omega)⟩
  · have hone : 1 ≤ word / binade := (Nat.one_le_div_iff binade_pos).mpr (Nat.not_lt.mp hsmall)
    have hlow : word % binade < binade := Nat.mod_lt _ binade_pos
    refine ⟨binade + word % binade, by simp [units, hsmall], ?_, by omega, .inr (by omega)⟩
    calc (word / binade - 1) * binade + (binade + word % binade)
        = (word / binade - 1 + 1) * binade + word % binade := by
          rw [Nat.add_mul, Nat.one_mul, Nat.add_assoc]
      _ = word := by rw [Nat.sub_add_cancel hone, Nat.div_add_mod']

/-- The bits that rounding drops from the magnitude of a word are those that the word counts. -/
theorem log2_units (word : Nat) : (units word).log2 - 52 = word / binade - 1 := by
  obtain ⟨significand, hunits, -, hlt, hzero | hbinade⟩ := exists_significand word
  · have hsmall : units word < 2 ^ 53 := by
      rw [hunits, hzero]
      simpa [binade] using hlt
    have hlog : (units word).log2 < 53 := by
      by_cases hnone : units word = 0
      · simp [hnone]
      · exact (Nat.log2_lt hnone).mpr hsmall
    omega
  · have hlog : (units word).log2 = 52 + (word / binade - 1) := by
      have hpos : 0 < 2 ^ (word / binade - 1) := Nat.two_pow_pos _
      have hnone : units word ≠ 0 := by
        rw [hunits]
        exact (Nat.mul_pos (Nat.lt_of_lt_of_le binade_pos hbinade) hpos).ne'
      refine (Nat.log2_eq_iff hnone).mpr ⟨?_, ?_⟩
      · rw [hunits, Nat.pow_add]
        exact Nat.mul_le_mul_right _ hbinade
      · rw [hunits, Nat.add_right_comm, Nat.pow_add]
        refine Nat.mul_lt_mul_of_pos_right ?_ hpos
        simpa [binade] using hlt
    omega

/-- The magnitude of a word is nearest to that word, as far as the words go. -/
theorem nearest_units {word : Nat} (h : word ≤ infinity) :
    nearest (units word) unitsPerOne = word := by
  obtain ⟨significand, hunits, hword, -⟩ := exists_significand word
  have hscaled : units word * unitsPerOne =
      significand * (unitsPerOne * Nat.pow 2 (word / binade - 1)) := by
    rw [hunits, Nat.mul_assoc, Nat.mul_comm unitsPerOne]
  have hden : 0 < unitsPerOne * Nat.pow 2 (word / binade - 1) :=
    Nat.mul_pos unitsPerOne_pos (Nat.two_pow_pos _)
  have hround : roundQuotient (units word * unitsPerOne)
      (unitsPerOne * Nat.pow 2 (word / binade - 1)) = significand := by
    rw [hscaled, roundQuotient_mul_self _ hden]
  simp only [nearest, Nat.mul_div_cancel _ unitsPerOne_pos, log2_units, hround, hword]
  exact Nat.min_eq_left h

end Binary64

namespace Decimal

open Binary64

/-- The exact decimal is the magnitude in units, both sides of the quotient scaled alike. -/
theorem exists_exact (word : Nat) :
    ∃ scale, 0 < scale ∧ (exact word).numerator = units word * scale ∧
      Nat.pow 10 (exact word).places = unitsPerOne * scale := by
  unfold exact unitsPerOne
  generalize 1074 = bits
  exact ⟨Nat.pow 5 bits, Nat.pow_pos (by decide), rfl, Nat.mul_pow 2 5 bits⟩

/-- All digits of a finite magnitude read back. -/
theorem nearestWord_exact {word : Nat} (h : word ≤ infinity) : (exact word).nearestWord = word := by
  obtain ⟨scale, hscale, hnumerator, hplaces⟩ := exists_exact word
  rw [nearestWord, hnumerator, hplaces, nearest_mul_right _ _ hscale, nearest_units h]

/-- The decimal that is shown for a finite word reads back as the word. -/
theorem nearestWord_shortest {word : Nat} (h : word ≤ infinity) :
    (shortest word).nearestWord = word := by
  unfold shortest
  dsimp only
  cases hfound : (List.range 17).findSome? fun digits =>
      onGrid? word (order word - (digits + 1 : Nat)) with
  | none =>
    rw [Option.getD_none]
    exact nearestWord_exact h
  | some d =>
    obtain ⟨digits, -, hgrid⟩ := List.exists_of_findSome?_eq_some hfound
    rw [Option.getD_some]
    exact nearestWord_of_onGrid? hgrid

theorem length_fractionDigits_le (places remainder : Nat) :
    (fractionDigits places remainder).length ≤ places := by
  fun_induction fractionDigits places remainder with
  | case1 => exact Nat.zero_le _
  | case2 => exact Nat.zero_le _
  | case3 places remainder _ unit ih =>
    rw [List.length_cons]
    exact Nat.succ_le_succ ih

theorem isDigit_of_mem_fractionDigits {places remainder : Nat}
    (h : remainder < Nat.pow 10 places) :
    ∀ c ∈ fractionDigits places remainder, c.isDigit = true := by
  fun_induction fractionDigits places remainder with
  | case1 => nofun
  | case2 => nofun
  | case3 places remainder _ unit ih =>
    have hunit : 0 < unit := Nat.pow_pos (by decide)
    have hten : remainder / unit < 10 := Nat.div_lt_of_lt_mul h
    rw [List.forall_mem_cons, Nat.isDigit_digitChar, decide_eq_true_iff]
    exact ⟨hten, ih (Nat.mod_lt _ hunit)⟩

/-- The digits after the point, with the zeros that were left out behind them, are the remainder. -/
theorem ofDigitChars_fractionDigits {places remainder : Nat} (h : remainder < Nat.pow 10 places) :
    let digits := fractionDigits places remainder
    Nat.ofDigitChars 10 digits 0 * Nat.pow 10 (places - digits.length) = remainder := by
  fun_induction fractionDigits places remainder with
  | case1 remainder =>
    have hzero : remainder = 0 := Nat.lt_one_iff.mp h
    simp [hzero]
  | case2 => simp
  | case3 places remainder _ unit ih =>
    have hunit : 0 < unit := Nat.pow_pos (by decide)
    have hten : remainder / unit < 10 := Nat.div_lt_of_lt_mul h
    have hlength := length_fractionDigits_le places (remainder % unit)
    have hbehind := ih (Nat.mod_lt _ hunit)
    generalize fractionDigits places (remainder % unit) = digits at hlength hbehind ⊢
    have hscale : 10 ^ digits.length * Nat.pow 10 (places - digits.length) = unit :=
      pow_mul_pow_sub 10 hlength
    dsimp only
    rw [List.length_cons, Nat.succ_sub_succ, Nat.ofDigitChars_cons_digitChar_of_lt_ten hten,
      Nat.mul_zero, Nat.zero_add, Nat.ofDigitChars_eq_ofDigitChars_zero, Nat.add_mul, hbehind,
      Nat.mul_right_comm, hscale, Nat.div_add_mod]

/-- The digits of a decimal on both sides of its point. A point stands between them unless there is
no digit behind it, and with the zeros that are left out they are the quotient. -/
structure WrittenAs (d : Decimal) (whole fraction : List Char) : Prop where
  chars_eq : d.chars = whole ++ (if fraction = [] then [] else '.' :: fraction)
  whole_ne_nil : whole ≠ []
  isDigit_whole : ∀ c ∈ whole, c.isDigit = true
  isDigit_fraction : ∀ c ∈ fraction, c.isDigit = true
  scaled : ∃ zeros, d.numerator = Nat.ofDigitChars 10 (whole ++ fraction) 0 * Nat.pow 10 zeros ∧
    Nat.pow 10 d.places = Nat.pow 10 fraction.length * Nat.pow 10 zeros

theorem exists_writtenAs (d : Decimal) : ∃ whole fraction, d.WrittenAs whole fraction := by
  let one := Nat.pow 10 d.places
  let whole := Nat.toDigits 10 (d.numerator / one)
  let fraction := fractionDigits d.places (d.numerator % one)
  have hremainder : d.numerator % one < one := Nat.mod_lt _ (Nat.pow_pos (by decide))
  have hscale : Nat.pow 10 fraction.length * Nat.pow 10 (d.places - fraction.length) = one :=
    pow_mul_pow_sub 10 (length_fractionDigits_le _ _)
  have hbehind : Nat.ofDigitChars 10 fraction 0 * Nat.pow 10 (d.places - fraction.length) =
      d.numerator % one := ofDigitChars_fractionDigits hremainder
  have hchars : d.chars = whole ++ (if fraction = [] then [] else '.' :: fraction) := by
    unfold chars
    dsimp only
    split <;> simp_all [whole, fraction, one]
  have hnumerator : d.numerator = Nat.ofDigitChars 10 (whole ++ fraction) 0 *
      Nat.pow 10 (d.places - fraction.length) := by
    rw [Nat.ofDigitChars_append, Nat.ofDigitChars_ten_toDigits,
      Nat.ofDigitChars_eq_ofDigitChars_zero, Nat.add_mul, hbehind, Nat.mul_right_comm,
      ← Nat.pow_eq, hscale, Nat.div_add_mod]
  exact ⟨whole, fraction, {
    chars_eq := hchars
    whole_ne_nil := Nat.toDigits_ne_nil
    isDigit_whole := fun c => Nat.isDigit_of_mem_toDigits (by decide) (by decide)
    isDigit_fraction := isDigit_of_mem_fractionDigits hremainder
    scaled := ⟨_, hnumerator, hscale.symm⟩ }⟩

/-- No other characters stand in the written form. -/
theorem isNumeral_of_mem_chars (d : Decimal) : ∀ c ∈ d.chars, isNumeral c = true := by
  obtain ⟨whole, fraction, h⟩ := d.exists_writtenAs
  have hdigit {c : Char} (hc : c.isDigit = true) : isNumeral c = true := by simp [isNumeral, hc]
  rw [h.chars_eq]
  split
  · simpa using fun c hc => hdigit (h.isDigit_whole c hc)
  · rw [List.forall_mem_append, List.forall_mem_cons]
    exact ⟨fun c hc => hdigit (h.isDigit_whole c hc), rfl,
      fun c hc => hdigit (h.isDigit_fraction c hc)⟩

theorem chars_ne_nil (d : Decimal) : d.chars ≠ [] := by
  obtain ⟨whole, fraction, h⟩ := d.exists_writtenAs
  rw [h.chars_eq]
  exact List.append_ne_nil_of_left_ne_nil h.whole_ne_nil _

end Decimal

namespace Number

open Binary64

/-- Digits with a point among them are read as the quotient that they write out. -/
theorem digitsWord?_of_fraction {whole fraction : List Char} (hne : whole ≠ [])
    (hwhole : ∀ c ∈ whole, c.isDigit = true) (hfraction : ∀ c ∈ fraction, c.isDigit = true) :
    digitsWord? (whole ++ (if fraction = [] then [] else '.' :: fraction)) =
      some (nearest (Nat.ofDigitChars 10 (whole ++ fraction) 0)
        (Nat.pow 10 fraction.length)) := by
  obtain ⟨htake, hdrop⟩ := @span_digits whole (if fraction = [] then [] else '.' :: fraction)
    hwhole (by split <;> simp)
  have hpart : fractionPart (if fraction = [] then [] else '.' :: fraction) = (fraction, []) := by
    split
    · simp_all [fractionPart]
    · obtain ⟨hdigits, hbehind⟩ := span_digits hfraction (.inl rfl)
      rw [List.append_nil] at hdigits hbehind
      rw [fractionPart, hdigits, hbehind]
  have hsome : whole ++ fraction ≠ [] := List.append_ne_nil_of_left_ne_nil hne _
  simp [digitsWord?, htake, hdrop, hpart, hsome, exponent?, scaledWord]

/-- The written form of a decimal is read as the word nearest to it. -/
theorem digitsWord?_chars (d : Decimal) : digitsWord? d.chars = some d.nearestWord := by
  obtain ⟨whole, fraction, h⟩ := d.exists_writtenAs
  obtain ⟨zeros, hnumerator, hplaces⟩ := h.scaled
  have hscale : 0 < Nat.pow 10 zeros := Nat.pow_pos (by decide)
  rw [h.chars_eq, digitsWord?_of_fraction h.whole_ne_nil h.isDigit_whole h.isDigit_fraction,
    Decimal.nearestWord, hnumerator, hplaces, nearest_mul_right _ _ hscale]

/-- The text that is shown for a finite magnitude is read as that magnitude. -/
theorem read?_shortest {word : Nat} (h : word ≤ infinity) :
    read? (String.ofList (Decimal.shortest word).chars) = some (ofWord false word) := by
  have hrun : ∀ c ∈ (String.ofList (Decimal.shortest word).chars).toList, isNumeral c = true := by
    rw [String.toList_ofList]
    exact (Decimal.shortest word).isNumeral_of_mem_chars
  rw [read?_of_run hrun, String.toList_ofList, digitsWord?_chars, Decimal.nearestWord_shortest h,
    Option.map_some]

end Number

end LineCalculator
