import Mathlib
import LineCalculator.Proofs.DecimalReading
import LineCalculator.Proofs.LineAnswer
import LineCalculator.Proofs.NumberLine

/-!
# Shown values given back

What a number is shown as depends on its magnitude word and its sign bit. The words below infinity
are the finite numbers, and their texts without a sign are read back bit by bit. The other texts are
no numbers in the language: a sign is an operator, and `inf` and `NaN` are names of variables.
-/
namespace LineCalculator

namespace Binary64

open Float.Model

variable (x : Float)

/-- The exponent field is full exactly from infinity on. -/
theorem exponent_eq_iff :
    @UnpackedFloat.unpackExponent Format.binary64 x.toBits.toBitVec = -1#_ ↔
      infinity ≤ word x := by
  rw [UnpackedFloat.unpackExponent_def, ← BitVec.toNat_inj, BitVec.extractLsb'_toNat,
    Nat.shiftRight_eq_div_pow, UInt64.toNat_toBitVec]
  -- The widths of the fields stand as numbers here, for the arithmetic.
  change x.toBits.toNat / 2 ^ 52 % 2 ^ 11 = 2047 ↔ 2047 * 2 ^ 52 ≤ x.toBits.toNat % 2 ^ 63
  omega

/-- The mantissa field is the low part of the magnitude word. -/
theorem mantissa_eq_iff :
    @UnpackedFloat.unpackMantissa Format.binary64 x.toBits.toBitVec = 0#_ ↔
      word x % binade = 0 := by
  rw [UnpackedFloat.unpackMantissa_def, ← BitVec.toNat_inj, BitVec.extractLsb'_toNat,
    Nat.shiftRight_zero, UInt64.toNat_toBitVec]
  change x.toBits.toNat % 2 ^ 52 = 0 ↔ x.toBits.toNat % 2 ^ 63 % 2 ^ 52 = 0
  omega

theorem eq_infinity_iff : word x = infinity ↔ infinity ≤ word x ∧ word x % binade = 0 := by
  change x.toBits.toNat % 2 ^ 63 = 2047 * 2 ^ 52 ↔
    2047 * 2 ^ 52 ≤ x.toBits.toNat % 2 ^ 63 ∧ x.toBits.toNat % 2 ^ 63 % 2 ^ 52 = 0
  omega

/-- The three kinds of numbers lie in this order on the magnitude words. -/
theorem status_iff :
    (x.isFinite = true ↔ word x < infinity) ∧ (x.isInf = true ↔ word x = infinity) ∧
      (x.isNaN = true ↔ infinity < word x) := by
  change ((UnpackedFloat.unpack Format.binary64 x.toBits.toBitVec).isFinite = true ↔ _) ∧
    ((UnpackedFloat.unpack Format.binary64 x.toBits.toBitVec).isInf = true ↔ _) ∧
    ((UnpackedFloat.unpack Format.binary64 x.toBits.toBitVec).isNaN = true ↔ _)
  unfold UnpackedFloat.unpack
  dsimp only
  rcases Nat.lt_trichotomy (word x) infinity with hlt | heq | hgt
  · rw [if_neg (mt (exponent_eq_iff x).mp hlt.not_ge)]
    -- Zero, the numbers below the least normal one and the normal ones are all finite.
    split_ifs
    all_goals simp [UnpackedFloat.isFinite, UnpackedFloat.isInf, UnpackedFloat.isNaN, hlt,
      hlt.ne, hlt.le]
  · obtain ⟨hle, hzero⟩ := (eq_infinity_iff x).mp heq
    rw [if_pos ((exponent_eq_iff x).mpr hle), if_pos ((mantissa_eq_iff x).mpr hzero)]
    simp [UnpackedFloat.isFinite, UnpackedFloat.isInf, UnpackedFloat.isNaN, heq]
  · have hnonzero : word x % binade ≠ 0 :=
      fun hzero => hgt.ne' ((eq_infinity_iff x).mpr ⟨hgt.le, hzero⟩)
    rw [if_pos ((exponent_eq_iff x).mpr hgt.le), if_neg (mt (mantissa_eq_iff x).mp hnonzero)]
    simp [UnpackedFloat.isFinite, UnpackedFloat.isInf, UnpackedFloat.isNaN, hgt, hgt.ne', hgt.le]

theorem isFinite_iff : x.isFinite = true ↔ word x < infinity := (status_iff x).1

theorem isInf_iff : x.isInf = true ↔ word x = infinity := (status_iff x).2.1

theorem isNaN_iff : x.isNaN = true ↔ infinity < word x := (status_iff x).2.2

theorem isFinite_or_isInf_or_isNaN : x.isFinite = true ∨ x.isInf = true ∨ x.isNaN = true := by
  rw [isFinite_iff, isInf_iff, isNaN_iff]
  exact Nat.lt_trichotomy _ _

/-- A number without the sign bit is that of its magnitude word. -/
theorem ofWord_word {x : Float} (h : isSigned x = false) : ofWord false (word x) = x := by
  have hbits : word x = x.toBits.toNat := Nat.mod_eq_of_lt (by simpa [isSigned] using h)
  rw [ofWord, hbits, if_neg (by decide), UInt64.ofNat_toNat, Float.ofBits_toBits]

end Binary64

namespace Number

open Binary64

variable {x : Float} {name : String}

theorem display_of_isFinite (h : x.isFinite = true) (hsign : isSigned x = false) :
    display x = String.ofList (Decimal.shortest (word x)).chars := by
  have hlt := (isFinite_iff x).mp h
  simp [display, magnitudeChars, hlt.not_gt, hlt.ne, hsign]

/-- The sign is shown first, unless there is no number. -/
theorem display_of_signed (h : x.isFinite = true ∨ x.isInf = true) (hsign : isSigned x = true) :
    ∃ magnitude, display x = String.ofList ('-' :: magnitude) := by
  rw [isFinite_iff, isInf_iff, ← Nat.le_iff_lt_or_eq] at h
  exact ⟨magnitudeChars (word x), by simp [display, h.not_gt, hsign]⟩

/-- The name of a number without digits. -/
def HasName (x : Float) (name : String) : Prop :=
  (x.isInf = true ∧ isSigned x = false ∧ name = "inf") ∨ (x.isNaN = true ∧ name = "NaN")

theorem HasName.display_eq (h : HasName x name) : display x = name := by
  rcases h with ⟨hinf, hsign, rfl⟩ | ⟨hnan, rfl⟩
  · simp [display, magnitudeChars, (isInf_iff x).mp hinf, hsign]
  · exact if_pos ((isNaN_iff x).mp hnan)

theorem HasName.scan (h : HasName x name) : Token.scan name = [⟨.name, name⟩, .endOfLine] := by
  rcases h with ⟨-, -, rfl⟩ | ⟨-, rfl⟩
  · decide +kernel
  · decide +kernel

theorem HasName.ne_exitLine (h : HasName x name) : name ≠ Session.exitLine := by
  rcases h with ⟨-, -, rfl⟩ | ⟨-, rfl⟩
  · decide
  · decide

/-- A number is shown by its digits alone, with its sign first, or by its name. -/
theorem display_cases (x : Float) :
    (x.isFinite = true ∧ isSigned x = false) ∨
      ((x.isFinite = true ∨ x.isInf = true) ∧ isSigned x = true) ∨ ∃ name, HasName x name := by
  rcases isFinite_or_isInf_or_isNaN x with hfinite | hinf | hnan
  · cases hsign : isSigned x with
    | false => exact .inl ⟨hfinite, rfl⟩
    | true => exact .inr (.inl ⟨.inl hfinite, rfl⟩)
  · cases hsign : isSigned x with
    | false => exact .inr (.inr ⟨"inf", .inl ⟨hinf, hsign, rfl⟩⟩)
    | true => exact .inr (.inl ⟨.inr hinf, rfl⟩)
  · exact .inr (.inr ⟨"NaN", .inr ⟨hnan, rfl⟩⟩)

theorem display_ne_empty (h : x.isFinite = true) (hsign : isSigned x = false) : display x ≠ "" := by
  rw [display_of_isFinite h hsign]
  exact mt String.ofList_eq_empty_iff.mp (Decimal.chars_ne_nil _)

theorem isNumeral_of_mem_display (h : x.isFinite = true) (hsign : isSigned x = false) :
    ∀ c ∈ (display x).toList, isNumeral c = true := by
  rw [display_of_isFinite h hsign, String.toList_ofList]
  exact Decimal.isNumeral_of_mem_chars _

/-- The text of a finite number without the sign bit is read as that number. -/
theorem read?_display (h : x.isFinite = true) (hsign : isSigned x = false) :
    read? (display x) = some x := by
  rw [display_of_isFinite h hsign, read?_shortest ((isFinite_iff x).mp h).le, ofWord_word hsign]

end Number

variable {x : Float} {name : String}

/-- A line that is one name comes to what the name has. -/
theorem evaluate_name (vars : Variables) (name : String) :
    (evaluate vars [⟨.name, name⟩, .endOfLine] 0).result =
      match vars[name]? with
      | some x => .ok ⟨.expression, x⟩
      | none => .error (.value (.undefinedVariable name 0)) := by
  have hspells : Spells .expression 0 0 [⟨.name, name⟩] (.name name 0) :=
    (@Spells.name 0 0 ⟨.name, name⟩ rfl).factor.term
  cases hvalue : vars[name]? with
  | some x => exact (hspells.evaluate_ok (Variables.lookup_eq_ok_iff.mpr hvalue)).1
  | none => exact hspells.evaluate_error (Variables.lookup_eq_error_iff.mpr ⟨hvalue, rfl⟩)

/-- A line that starts with a minus sign is refused there. -/
theorem evaluateLine_minus (vars : Variables) (rest : List Char) :
    (evaluateLine vars (String.ofList ('-' :: rest))).result =
      .error (.form (.unexpectedToken "'-'" 0)) := by
  have hscan : Token.scan (String.ofList ('-' :: rest)) =
      Token.ofMark '-' :: (Token.lexemes rest ++ [.endOfLine]) := by
    rw [Token.scan, String.toList_ofList, Token.lexemes_cons]
    rfl
  have hkind : (Token.ofMark '-').kind ∉ [.number, .name, .openParen, .function] := by decide
  rw [evaluateLine, hscan]
  exact evaluate_fault_of_first (by decide) (.unexpected hkind) rfl

namespace Session

/-- The text of a finite number without the sign bit is answered with that number. -/
theorem respond_display (vars : Variables) (h : x.isFinite = true)
    (hsign : Binary64.isSigned x = false) :
    (respond vars (Number.display x)).reply = .value ⟨.expression, x⟩ ∧
      (respond vars (Number.display x)).vars = vars := by
  have hrun := Number.isNumeral_of_mem_display h hsign
  have hscan := Token.scan_run (Number.display_ne_empty h hsign) hrun
  have hexit : Number.display x ≠ exitLine := by
    intro heq
    exact absurd (hrun 'e' (by rw [heq]; decide)) (by decide)
  have hblank : ¬ IsBlankRun (Number.display x).toList := by
    rw [← Token.length_scan_eq_one_iff, hscan]
    simp
  refine respond_of_ok hexit hblank ?_
  rw [evaluateLine, hscan]
  exact evaluate_number (Number.read?_display h hsign)

/-- The text of a number with the sign bit is refused at its sign. -/
theorem respond_display_signed (vars : Variables) (h : x.isFinite = true ∨ x.isInf = true)
    (hsign : Binary64.isSigned x = true) :
    (respond vars (Number.display x)).reply = .error (.form (.unexpectedToken "'-'" 0)) ∧
      (respond vars (Number.display x)).vars = vars := by
  obtain ⟨magnitude, hmagnitude⟩ := Number.display_of_signed h hsign
  have hminus : '-' ∈ (Number.display x).toList := by simp [hmagnitude]
  have hexit : Number.display x ≠ exitLine := by
    intro heq
    rw [heq] at hminus
    exact absurd hminus (by decide)
  have hblank : ¬ IsBlankRun (Number.display x).toList :=
    fun hblank => absurd (hblank '-' hminus) (by decide)
  refine respond_of_error hexit hblank ?_
  rw [hmagnitude]
  exact evaluateLine_minus vars magnitude

/-- The name of a number is answered with what a variable of that name has. -/
theorem respond_display_name (vars : Variables) (h : Number.HasName x name) :
    (respond vars (Number.display x)).vars = vars ∧
      (respond vars (Number.display x)).reply =
        match vars[name]? with
        | some y => .value ⟨.expression, y⟩
        | none => .error (.value (.undefinedVariable name 0)) := by
  have hblank : ¬ IsBlankRun name.toList := by
    rw [← Token.length_scan_eq_one_iff, h.scan]
    simp
  have hresult := evaluate_name vars name
  rw [← h.scan] at hresult
  rw [h.display_eq]
  cases hvalue : vars[name]? with
  | some y =>
    rw [hvalue] at hresult
    exact (respond_of_ok h.ne_exitLine hblank hresult).symm
  | none =>
    rw [hvalue] at hresult
    exact (respond_of_error h.ne_exitLine hblank hresult).symm

/-- A value that is shown may be given back as a line. A finite one without the sign bit is answered
with the same value. One with the sign bit is refused at its sign, since there are no signed
numbers. Infinity and what is not a number are taken for the names `inf` and `NaN`, and answered
with what these have. None of these lines changes a variable. -/
theorem respond_shown (vars : Variables) (e : Evaluation) :
    let t := Number.display e.value
    let r := respond vars t
    let signed := Binary64.isSigned e.value
    (Reply.value e).text = (if e.form = .print then "Print: " else "Result: ") ++ t ∧
      r.vars = vars ∧
      (e.value.isFinite = true → signed = false → r.reply = .value ⟨.expression, e.value⟩) ∧
      (e.value.isFinite = true ∨ e.value.isInf = true → signed = true →
        r.reply = .error (.form (.unexpectedToken "'-'" 0))) ∧
      ∀ name, (e.value.isInf = true ∧ signed = false ∧ name = "inf") ∨
          (e.value.isNaN = true ∧ name = "NaN") →
        t = name ∧ Token.scan t = [⟨.name, name⟩, .endOfLine] ∧ r.reply =
          match vars[name]? with
          | some x => .value ⟨.expression, x⟩
          | none => .error (.value (.undefinedVariable name 0)) := by
  intro t r signed
  have hvars : r.vars = vars := by
    rcases Number.display_cases e.value with ⟨h, hsign⟩ | ⟨h, hsign⟩ | ⟨name, h⟩
    · exact (respond_display vars h hsign).2
    · exact (respond_display_signed vars h hsign).2
    · exact (respond_display_name vars h).1
  refine ⟨e.text_eq, hvars, fun h hsign => (respond_display vars h hsign).1,
    fun h hsign => (respond_display_signed vars h hsign).1, fun name h => ?_⟩
  have hname : Number.HasName e.value name := h
  have ht : t = name := hname.display_eq
  exact ⟨ht, ht ▸ hname.scan, (respond_display_name vars hname).2⟩

/-- Half a tenth is given back as it is, and zero with the sign bit is refused. What is shown for
infinity is a name as good as another: here it has a value, and `NaN` has none. -/
theorem shown_values_given_back :
    let vars : Variables := (∅ : Variables).insert "inf" 2
    let infinite := Binary64.ofWord false Binary64.infinity
    let negativeZero := Binary64.ofWord true 0
    (Reply.value ⟨.print, 0.05⟩).text = "Print: 0.05" ∧
      (respond vars (Number.display 0.05)).reply = .value ⟨.expression, 0.05⟩ ∧
      (respond vars (Number.display negativeZero)).reply =
        .error (.form (.unexpectedToken "'-'" 0)) ∧
      (respond vars (Number.display infinite)).reply = .value ⟨.expression, 2⟩ ∧
      (respond vars (Number.display Float.nan)).reply =
        .error (.value (.undefinedVariable "NaN" 0)) := by
  intro vars infinite negativeZero
  obtain ⟨-, -, hnumber, -⟩ := respond_shown vars ⟨.print, 0.05⟩
  obtain ⟨-, -, -, hminus, -⟩ := respond_shown vars ⟨.expression, negativeZero⟩
  obtain ⟨-, -, -, -, hinf⟩ := respond_shown vars ⟨.expression, infinite⟩
  obtain ⟨-, -, -, -, hnan⟩ := respond_shown vars ⟨.assignment "x", Float.nan⟩
  refine ⟨by decide +kernel, hnumber (by decide +kernel) (by decide +kernel),
    hminus (.inl (by decide +kernel)) (by decide +kernel), ?_, ?_⟩
  · rw [(hinf "inf" (.inl ⟨by decide +kernel, by decide +kernel, rfl⟩)).2.2]
    simp [vars]
  · rw [(hnan "NaN" (.inr ⟨by decide +kernel, rfl⟩)).2.2]
    simp [vars]

end Session

end LineCalculator
