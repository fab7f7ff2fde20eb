import LineCalculator.Proofs.Concatenation
import LineCalculator.Proofs.FaultOrigin
import LineCalculator.Proofs.Substitution
import LineCalculator.Proofs.Wrapping

/-!
# Number tokens and the numbers they are

Scanning takes every run of digits and points for one number token, and reading looks at its whole
text. So a line that is such a run has a value exactly when the run is a numeral, and whatever line
has a malformed number has it as one of its tokens, a run that is no numeral.
-/
namespace LineCalculator

open Expression

namespace Token

/-- A line that is one run of digits and points is one number token. -/
theorem scan_run {line : String} (hne : line ≠ "")
    (hrun : ∀ c ∈ line.toList, isNumeral c = true) :
    scan line = [⟨.number, line⟩, .endOfLine] := by
  have hne : line.toList ≠ [] := mt String.toList_eq_nil_iff.mp hne
  rw [scan, runClass_isNumeral.lexemes_run line.toList hne hrun, String.ofList_toList]
  rfl

end Token

variable {vars : Variables} {tokens rest : List Token} {t : Token} {start k : Nat}
  {literal : String}

/-- A line fails as its first factor does, unless it starts with a name or the keyword. -/
theorem evaluate_fault_of_first {o : Outcome Float} {fault : Fault}
    (hkind : t.kind ∉ [.name, .print]) (h : Runs vars .alternative ⟨t :: rest, 0, 0⟩ o)
    (hfault : o.result = .error fault) :
    (evaluate vars (t :: rest) 0).result = .error fault := by
  let c : Cursor := ⟨t :: rest, 0, 0⟩
  simp only [List.mem_cons, List.not_mem_nil, or_false, not_or] at hkind
  have hheading : Statement.heading c = (.expression, c) :=
    Statement.heading_of_bare (by simp [Statement.isAssignment, c, Cursor.peek, hkind]) hkind.2
  have hreading : o.after _ = factor vars c := h.factor.eq_reading
  have hfactor : (factor vars c).result = .error fault := by
    rw [← hreading]
    exact hfault
  have hstatement : evaluate vars (t :: rest) 0 = statement vars c := rfl
  rw [hstatement, Statement.result_eq_error_iff, hheading]
  exact (Leads.factor c).contains.fault fault hfactor

theorem evaluate_number {x : Float} (hread : Number.read? literal = some x) :
    (evaluate vars [⟨.number, literal⟩, .endOfLine] 0).result = .ok ⟨.expression, x⟩ :=
  ((Spells.number rfl hread).factor.term.evaluate_ok rfl).1

theorem evaluate_malformed (hread : Number.read? literal = none) :
    (evaluate vars [⟨.number, literal⟩, .endOfLine] 0).result =
      .error (.form (.malformedNumber literal 0)) :=
  evaluate_fault_of_first (by simp) (.malformed rfl hread) rfl

theorem Raises.of_malformed {c stopped : Cursor}
    (h : Raises vars c (.form (.malformedNumber literal k)) stopped) :
    c.position = k ∧ c.peek = ⟨.number, literal⟩ ∧ Number.read? literal = none := by
  cases h with
  | malformed hkind hread => exact ⟨rfl, Token.eq_of_kind hkind, hread⟩

/-- A number that is reported as malformed is a token that is not read. -/
theorem malformed_token
    (h : (evaluate vars tokens start).result = .error (.form (.malformedNumber literal k))) :
    tokens[k]? = some ⟨.number, literal⟩ ∧ Number.read? literal = none := by
  have hheading := Statement.tallies_heading (Cursor.place tokens start 0)
  have hrun := Runs.expression_reading vars (Statement.heading (.place tokens start 0)).2
  obtain ⟨d, hd, hraises⟩ := hrun.exists_raises nofun (Statement.result_eq_error_iff.mp h)
  obtain ⟨rfl, hpeek, hread⟩ := hraises.of_malformed
  rw [(hheading.trans hd).eq_place, Cursor.peek_place] at hpeek
  refine ⟨(Option.getD_eq_iff.mp hpeek).resolve_right ?_, hread⟩
  rintro ⟨-, hend⟩
  cases hend

/-- A line that is one run of digits and points is one token. It has a value, the number that the
run stands for, exactly when there is a digit in it and no second point; otherwise it is refused as
a whole. Whatever line is refused for a malformed number, that number is the token at the index of
the fault, a run without a digit or with two points. -/
theorem evaluateLine_number_run (vars : Variables) (line : String) :
    let o := evaluateLine vars line
    (line ≠ "" → (∀ c ∈ line.toList, isNumeral c = true) →
      Token.scan line = [⟨.number, line⟩, .endOfLine] ∧
      (Number.IsNumeral line.toList ↔
        ∃ x, Number.read? line = some x ∧ o.result = .ok ⟨.expression, x⟩) ∧
      (¬ Number.IsNumeral line.toList → o.result = .error (.form (.malformedNumber line 0)))) ∧
    ∀ literal k, o.result = .error (.form (.malformedNumber literal k)) →
      (Token.scan line)[k]? = some ⟨.number, literal⟩ ∧
        (∀ c ∈ literal.toList, isNumeral c = true) ∧
        ((∀ c ∈ literal.toList, c.isDigit = false) ∨ 2 ≤ literal.toList.count '.') := by
  intro o
  refine ⟨fun hne hrun => ?_, fun literal k hfault => ?_⟩
  · have hscan := Token.scan_run hne hrun
    have hread := Number.read?_isSome_iff hrun
    have ho : o = evaluate vars [⟨.number, line⟩, .endOfLine] 0 := by
      rw [← hscan]
      rfl
    rw [ho, ← hread, Option.isSome_iff_exists]
    refine ⟨hscan, ⟨fun ⟨x, hx⟩ => ⟨x, hx, evaluate_number hx⟩, fun ⟨x, hx, _⟩ => ⟨x, hx⟩⟩, ?_⟩
    intro hnone
    exact evaluate_malformed (Option.eq_none_iff_forall_ne_some.mpr fun x hx => hnone ⟨x, hx⟩)
  · obtain ⟨htoken, hread⟩ := malformed_token hfault
    have hmem : (⟨.number, literal⟩ : Token) ∈ Token.lexemes line.toList := by
      rcases List.mem_append.mp (List.mem_of_getElem? htoken) with hmem | hend
      · exact hmem
      · simp [Token.endOfLine] at hend
    obtain ⟨-, hrun⟩ := Token.wellShaped_of_mem hmem
    have hnot : ¬ Number.IsNumeral literal.toList := by
      rw [← Number.read?_isSome_iff hrun, hread]
      decide
    exact ⟨htoken, hrun, Number.not_isNumeral_iff.mp hnot⟩

/-- A point may start a number or end it. Two points are refused with all that belongs to their run,
also behind a sum, and points alone are refused too. -/
theorem points_beside_digits :
    let vars : Variables := (∅ : Variables).insert "x" 1
    ((∃ x, Number.read? "5." = some x ∧ (evaluateLine vars "5.").result = .ok ⟨.expression, x⟩) ∧
      Token.scan "5." = [⟨.number, "5."⟩, .endOfLine]) ∧
    (evaluateLine vars ".").result = .error (.form (.malformedNumber "." 0)) ∧
    (evaluateLine vars "y = x+.1.2 2").result = .error (.form (.malformedNumber ".1.2" 4)) ∧
    (Token.scan "y = x+.1.2 2")[4]? = some ⟨.number, ".1.2"⟩ := by
  intro vars
  obtain ⟨hscan, hvalue, -⟩ := (evaluateLine_number_run vars "5.").1 (by decide)
    (List.all_eq_true.mp (by decide))
  obtain ⟨-, -, hfault⟩ := (evaluateLine_number_run vars ".").1 (by decide)
    (List.all_eq_true.mp (by decide))
  have hline : (evaluateLine vars "y = x+.1.2 2").result =
      .error (.form (.malformedNumber ".1.2" 4)) := by
    have hscan : Token.scan "y = x+.1.2 2" = [⟨.name, "y"⟩, ⟨.equals, "="⟩, ⟨.name, "x"⟩,
        ⟨.operator, "+"⟩, ⟨.number, ".1.2"⟩, ⟨.number, "2"⟩, .endOfLine] := by decide +kernel
    rw [evaluateLine, hscan]
    simp only [vars]
    rfl
  have hpoint : ¬ Number.IsNumeral ".".toList := by
    rintro ⟨⟨c, hmem, hdigit⟩, -⟩
    simp_all
  exact ⟨⟨hvalue.mp ⟨⟨'5', by decide, by decide⟩, by decide⟩, hscan⟩, hfault hpoint, hline,
    ((evaluateLine_number_run vars "y = x+.1.2 2").2 ".1.2" 4 hline).1⟩

end LineCalculator
