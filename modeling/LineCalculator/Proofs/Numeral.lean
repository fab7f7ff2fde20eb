import LineCalculator.Number
import LineCalculator.Proofs.LexicalGrammar

/-!
# Number runs that are numbers

Scanning takes any run of digits and points for a number token. Reading accepts one exactly when
there is a digit in it and no second point, since no run has a sign, a name or an exponent.
-/
namespace LineCalculator.Number

/-- A run of digits and points that is the text of a number. -/
def IsNumeral (run : List Char) : Prop :=
  (∃ c ∈ run, c.isDigit = true) ∧ run.count '.' ≤ 1

variable {run whole rest : List Char}

theorem not_isNumeral_iff :
    ¬ IsNumeral run ↔ (∀ c ∈ run, c.isDigit = false) ∨ 2 ≤ run.count '.' := by
  rw [IsNumeral, not_and_or, Nat.not_le, Nat.lt_iff_add_one_le]
  simp

theorem eq_point_of_isNumeral {c : Char} (h : isNumeral c = true) (hdigit : c.isDigit = false) :
    c = '.' := by
  simpa [isNumeral, hdigit] using h

theorem point_notMem (hwhole : ∀ c ∈ whole, c.isDigit = true) : '.' ∉ whole := by
  intro hmem
  have hdigit := hwhole '.' hmem
  simp [Char.isDigit] at hdigit

/-- A run is digits up to its end or its first point. -/
theorem exists_whole (h : ∀ c ∈ run, isNumeral c = true) :
    ∃ whole rest, run = whole ++ rest ∧ (∀ c ∈ whole, c.isDigit = true) ∧
      (rest = [] ∨ ∃ behind, rest = '.' :: behind ∧ ∀ c ∈ behind, isNumeral c = true) := by
  refine ⟨run.takeWhile Char.isDigit, run.dropWhile Char.isDigit,
    List.takeWhile_append_dropWhile.symm, fun c hc => List.mem_takeWhile_imp hc, ?_⟩
  cases hrest : run.dropWhile Char.isDigit with
  | nil => exact .inl rfl
  | cons c behind =>
    have hmem (d : Char) (hd : d ∈ c :: behind) : isNumeral d = true :=
      h d ((List.dropWhile_sublist Char.isDigit).subset (hrest ▸ hd))
    have hdigit : c.isDigit = false := by
      have hstop := List.head?_dropWhile_not Char.isDigit run
      rw [hrest] at hstop
      exact hstop
    obtain rfl := eq_point_of_isNumeral (hmem c List.mem_cons_self) hdigit
    exact .inr ⟨behind, rfl, fun d hd => hmem d (List.mem_cons_of_mem _ hd)⟩

theorem span_digits (hwhole : ∀ c ∈ whole, c.isDigit = true)
    (hrest : rest = [] ∨ ∃ behind, rest = '.' :: behind) :
    (whole ++ rest).takeWhile Char.isDigit = whole ∧
      (whole ++ rest).dropWhile Char.isDigit = rest := by
  refine Token.span_run hwhole fun d hd => ?_
  rcases hrest with rfl | ⟨behind, rfl⟩
  · cases hd
  · cases hd
    rfl

theorem digitsWord?_of_digits (hwhole : ∀ c ∈ whole, c.isDigit = true) :
    (digitsWord? whole).isSome = true ↔ IsNumeral whole := by
  obtain ⟨htake, hdrop⟩ := span_digits hwhole (.inl rfl)
  rw [List.append_nil] at htake hdrop
  have hpoints : whole.count '.' = 0 := List.count_eq_zero.mpr (point_notMem hwhole)
  cases whole with
  | nil => simp [digitsWord?, fractionPart, IsNumeral]
  | cons c whole =>
    simp [digitsWord?, htake, hdrop, fractionPart, exponent?, IsNumeral, hpoints,
      hwhole c List.mem_cons_self]

theorem digitsWord?_of_point {behind : List Char} (hwhole : ∀ c ∈ whole, c.isDigit = true)
    (hbehind : ∀ c ∈ behind, isNumeral c = true) :
    (digitsWord? (whole ++ '.' :: behind)).isSome = true ↔ IsNumeral (whole ++ '.' :: behind) := by
  obtain ⟨htake, hdrop⟩ := span_digits hwhole (.inr ⟨behind, rfl⟩)
  have hpoints : whole.count '.' = 0 := List.count_eq_zero.mpr (point_notMem hwhole)
  obtain ⟨fraction, rest, rfl, hfraction, hrest⟩ := exists_whole hbehind
  have hfractionPoints : fraction.count '.' = 0 :=
    List.count_eq_zero.mpr (point_notMem hfraction)
  have hspan := span_digits hfraction (hrest.imp id fun ⟨last, hlast, _⟩ => ⟨last, hlast⟩)
  have hword : digitsWord? (whole ++ '.' :: (fraction ++ rest)) =
      if whole ++ fraction = [] then none
      else (exponent? rest).map fun e =>
        scaledWord (Nat.ofDigitChars 10 (whole ++ fraction) 0) (e - fraction.length) := by
    simp only [digitsWord?, htake, hdrop, fractionPart, hspan]
  rw [hword]
  rcases hrest with rfl | ⟨last, rfl, -⟩
  · by_cases hempty : whole ++ fraction = []
    · obtain ⟨rfl, rfl⟩ := List.append_eq_nil_iff.mp hempty
      simp [IsNumeral, Char.isDigit]
    · obtain ⟨c, hc⟩ := List.exists_mem_of_ne_nil _ hempty
      have hdigit : c.isDigit = true := (List.mem_append.mp hc).elim (hwhole c) (hfraction c)
      have hmem : c ∈ whole ++ '.' :: (fraction ++ []) := by
        rcases List.mem_append.mp hc with hleft | hright
        · exact List.mem_append_left _ hleft
        · simp [hright]
      rw [if_neg hempty]
      simp only [exponent?, Option.map_some, Option.isSome_some, true_iff]
      exact ⟨⟨c, hmem, hdigit⟩, by simp [hpoints, hfractionPoints]⟩
  · -- A second point: there is no exponent, and no numeral has two points.
    have hcount : (whole ++ '.' :: (fraction ++ '.' :: last)).count '.' = last.count '.' + 2 := by
      simp [hpoints, hfractionPoints]
    have hexponent : exponent? ('.' :: last) = none := by simp [exponent?]
    have hnot : ¬ IsNumeral (whole ++ '.' :: (fraction ++ '.' :: last)) := by
      intro hnumeral
      have := hnumeral.2
      omega
    rw [hexponent, Option.map_none, ite_self]
    simp [hnot]

theorem digitsWord?_isSome_iff (h : ∀ c ∈ run, isNumeral c = true) :
    (digitsWord? run).isSome = true ↔ IsNumeral run := by
  obtain ⟨whole, rest, rfl, hwhole, hrest⟩ := exists_whole h
  rcases hrest with rfl | ⟨behind, rfl, hbehind⟩
  · rw [List.append_nil]
    exact digitsWord?_of_digits hwhole
  · exact digitsWord?_of_point hwhole hbehind

theorem toLower_of_isNumeral {c : Char} (h : isNumeral c = true) : c.toLower = c := by
  have hletter : (c.isUpper || c.isLower) = false := isLetter_of_isNumeral h
  exact dif_neg (of_decide_eq_false (Bool.or_eq_false_iff.mp hletter).1)

/-- No name stands in a run of digits and points. -/
theorem namedWord?_of_run (h : ∀ c ∈ run, isNumeral c = true) : namedWord? run = none := by
  have hsame : run.map Char.toLower = run :=
    (List.map_congr_left fun c hc => toLower_of_isNumeral (h c hc)).trans (List.map_id run)
  have hi : 'i' ∉ run := fun hmem => absurd (h 'i' hmem) (by decide)
  have hn : 'n' ∉ run := fun hmem => absurd (h 'n' hmem) (by decide)
  unfold namedWord?
  rw [hsame, if_neg, if_neg]
  · rintro rfl
    simp at hn
  · rintro (rfl | rfl)
    all_goals simp at hi

/-- A run is read by its digits, neither for a sign nor as a name. -/
theorem read?_of_run {text : String} (h : ∀ c ∈ text.toList, isNumeral c = true) :
    read? text = (digitsWord? text.toList).map (Binary64.ofWord false) := by
  have hword : magnitudeWord? text.toList = digitsWord? text.toList := by
    rw [magnitudeWord?, namedWord?_of_run h, Option.or_none]
  unfold read?
  split
  · rename_i hsign
    have hminus := h '-' (by rw [hsign]; exact List.mem_cons_self)
    cases hminus
  · rename_i hsign
    have hplus := h '+' (by rw [hsign]; exact List.mem_cons_self)
    cases hplus
  · rw [hword]

theorem read?_isSome_iff {text : String} (h : ∀ c ∈ text.toList, isNumeral c = true) :
    (read? text).isSome = true ↔ IsNumeral text.toList := by
  rw [read?_of_run h, Option.isSome_map, digitsWord?_isSome_iff h]

theorem read?_isSome {text : String} (h : ∀ c ∈ text.toList, isNumeral c = true)
    (hnumeral : IsNumeral text.toList) : (read? text).isSome = true :=
  (read?_isSome_iff h).mpr hnumeral

end LineCalculator.Number
