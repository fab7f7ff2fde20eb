import LineCalculator.Proofs.LexicalGrammar
import LineCalculator.Session

/-!
# What a line is answered

Two kinds of lines are answered without being worked out: the line that leaves, which is told by its
text, and lines of blanks, which are told by having no tokens. Every other line is answered with what
it comes to by itself in the same variables, and changes them in the same way.
-/
namespace LineCalculator

namespace Token

/-- Nothing but blanks leaves no token. -/
theorem lexemes_eq_nil_iff {text : List Char} : lexemes text = [] ↔ IsBlankRun text := by
  fun_induction lexemes text with
  | case1 => simp [IsBlankRun]
  | case2 c rest hblank ih =>
    rw [ih]
    exact ⟨fun h => List.forall_mem_cons.mpr ⟨hblank, h⟩, fun h => (List.forall_mem_cons.mp h).2⟩
  | case3 c rest hblank | case4 c rest hblank | case5 c rest hblank =>
    refine iff_of_false (List.cons_ne_nil _ _) fun h => hblank ?_
    exact h c List.mem_cons_self

theorem length_scan_eq_one_iff {line : String} :
    (scan line).length = 1 ↔ IsBlankRun line.toList := by
  rw [length_scan, Nat.add_eq_right, List.length_eq_zero_iff, lexemes_eq_nil_iff]

theorem scan_of_isBlankRun {line : String} (h : IsBlankRun line.toList) :
    scan line = [.endOfLine] := by
  rw [scan, lexemes_eq_nil_iff.mpr h, List.nil_append]

end Token

/-- A line of blanks, worked out by itself, fails at its end. -/
theorem evaluateLine_of_isBlankRun {line : String} (h : IsBlankRun line.toList)
    (vars : Variables) :
    (evaluateLine vars line).result =
      .error (.form (.unexpectedToken Token.endOfLine.display 0)) := by
  rw [evaluateLine, Token.scan_of_isBlankRun h]
  rfl

namespace Session

variable {vars : Variables} {line other : String}

theorem not_isBlankRun_exitLine : ¬ IsBlankRun exitLine.toList :=
  fun h => absurd (h 'e' (by decide)) (by decide)

theorem respond_of_isBlankRun (h : IsBlankRun line.toList) :
    respond vars line = ⟨.invalidInput, [.tokenized 1], vars⟩ := by
  have hexit : line ≠ exitLine := by
    rintro rfl
    exact not_isBlankRun_exitLine h
  simp only [respond, if_neg hexit, Token.length_scan_eq_one_iff.mpr h, if_true]

/-- A line that is neither blank nor the one that leaves is answered with its outcome. -/
theorem respond_of_evaluateLine (vars : Variables) (hexit : line ≠ exitLine)
    (hblank : ¬ IsBlankRun line.toList) :
    (∃ e, (evaluateLine vars line).result = .ok e ∧ (respond vars line).reply = .value e ∧
      (respond vars line).vars = e.store vars) ∨
    ∃ fault, (evaluateLine vars line).result = .error fault ∧
      (respond vars line).reply = .error fault ∧ (respond vars line).vars = vars := by
  rcases respond_cases vars line with ⟨hleave, -⟩ | ⟨hlength, -⟩ | ⟨e, hresult, hr⟩ |
    ⟨fault, hresult, hr⟩
  · exact absurd hleave hexit
  · exact absurd (Token.length_scan_eq_one_iff.mp hlength) hblank
  · exact .inl ⟨e, hresult, by rw [hr], by rw [hr]⟩
  · exact .inr ⟨fault, hresult, by rw [hr], by rw [hr]⟩

theorem respond_of_ok {e : Evaluation} (hexit : line ≠ exitLine)
    (hblank : ¬ IsBlankRun line.toList) (h : (evaluateLine vars line).result = .ok e) :
    (respond vars line).reply = .value e ∧ (respond vars line).vars = e.store vars := by
  rcases respond_of_evaluateLine vars hexit hblank with
    ⟨other, hresult, hr⟩ | ⟨fault, hresult, -⟩
  · obtain rfl : e = other := Except.ok.inj (h.symm.trans hresult)
    exact hr
  · cases h.symm.trans hresult

theorem respond_of_error {fault : Fault} (hexit : line ≠ exitLine)
    (hblank : ¬ IsBlankRun line.toList) (h : (evaluateLine vars line).result = .error fault) :
    (respond vars line).reply = .error fault ∧ (respond vars line).vars = vars := by
  rcases respond_of_evaluateLine vars hexit hblank with
    ⟨e, hresult, -⟩ | ⟨other, hresult, hr⟩
  · cases h.symm.trans hresult
  · obtain rfl : fault = other := Except.error.inj (h.symm.trans hresult)
    exact hr

theorem reply_eq_exit_iff : (respond vars line).reply = .exit ↔ line = exitLine := by
  refine ⟨fun h => ?_, fun h => by rw [respond, if_pos h]⟩
  by_contra hexit
  by_cases hblank : IsBlankRun line.toList
  · rw [respond_of_isBlankRun hblank] at h
    cases h
  · rcases respond_of_evaluateLine vars hexit hblank with ⟨e, -, hr, -⟩ | ⟨f, -, hr, -⟩
    all_goals rw [hr] at h; cases h

theorem reply_eq_invalidInput_iff :
    (respond vars line).reply = .invalidInput ↔ IsBlankRun line.toList := by
  refine ⟨fun h => ?_, fun h => by rw [respond_of_isBlankRun h]⟩
  by_contra hblank
  by_cases hexit : line = exitLine
  · rw [reply_eq_exit_iff.mpr hexit] at h
    cases h
  · rcases respond_of_evaluateLine vars hexit hblank with ⟨e, -, hr, -⟩ | ⟨f, -, hr, -⟩
    all_goals rw [hr] at h; cases h

/-- Lines are told apart by their tokens alone, but for the one that leaves. -/
theorem respond_congr (hline : line ≠ exitLine) (hother : other ≠ exitLine)
    (h : Token.scan other = Token.scan line) : respond vars other = respond vars line := by
  simp only [respond, if_neg hline, if_neg hother, h]

/-- A session leaves at exactly one line, finds nothing in lines of blanks and keeps its variables at
both. At any other line its reply has the value or the fault that the line comes to by itself in the
same variables, and both leave the same variables. By itself a line of blanks fails at its end. The
tokens of a line are all that its reply depends on, but for the line that leaves. -/
theorem reply_agrees_with_evaluateLine (vars : Variables) (line : String) :
    let r := respond vars line
    let o := evaluateLine vars line
    (r.reply = .exit ↔ line = "exit") ∧
      (r.reply = .invalidInput ↔ ∀ c ∈ line.toList, c ∈ [' ', '\t', '\r', '\n', '\x0c', '\x0b']) ∧
      (r.reply = .exit ∨ r.reply = .invalidInput → r.vars = vars) ∧
      (r.reply ≠ .exit → r.reply ≠ .invalidInput →
        (∀ e, r.reply = .value e ↔ o.result = .ok e) ∧
        (∀ fault, r.reply = .error fault ↔ o.result = .error fault) ∧
        r.vars = o.store vars) ∧
      (r.reply = .invalidInput →
        o.result = .error (.form (.unexpectedToken "end of input" 0)) ∧ o.store vars = vars) ∧
      ∀ other, Token.scan other = Token.scan line → line ≠ "exit" → other ≠ "exit" →
        (respond vars other).reply = r.reply := by
  intro r o
  have hblanks : IsBlankRun line.toList ↔
      ∀ c ∈ line.toList, c ∈ [' ', '\t', '\r', '\n', '\x0c', '\x0b'] := by
    refine forall₂_congr fun c _ => ?_
    simp only [isBlank, Bool.or_eq_true, decide_eq_true_eq, List.mem_cons, List.not_mem_nil]
    tauto
  refine ⟨reply_eq_exit_iff, reply_eq_invalidInput_iff.trans hblanks, ?_, ?_, ?_, ?_⟩
  · rintro (hexit | hblank)
    · exact congrArg Response.vars (if_pos (reply_eq_exit_iff.mp hexit))
    · exact congrArg Response.vars (respond_of_isBlankRun (reply_eq_invalidInput_iff.mp hblank))
  · intro hexit hblank
    rcases respond_of_evaluateLine vars (mt reply_eq_exit_iff.mpr hexit)
      (mt reply_eq_invalidInput_iff.mpr hblank) with ⟨e, hresult, hr, hvars⟩ |
        ⟨fault, hresult, hr, hvars⟩
    · simp [r, o, hr, hresult, hvars]
    · simp [r, o, hr, hresult, hvars]
  · intro hblank
    have hresult := evaluateLine_of_isBlankRun (reply_eq_invalidInput_iff.mp hblank) vars
    exact ⟨hresult, Outcome.store_error hresult vars⟩
  · intro other hscan hline hother
    rw [respond_congr hline hother hscan]

/-- With a blank beside it the line that leaves is the name of a variable. -/
theorem exit_beside_blank_is_name :
    let vars : Variables := (∅ : Variables).insert "exit" 2
    (respond vars " exit").reply = .value ⟨.expression, 2⟩ ∧
      (respond vars "exit\t").reply = (respond vars " exit").reply ∧
      (respond vars " exit").vars = vars ∧
      (evaluateLine vars "\x0b").result =
        .error (.form (.unexpectedToken "end of input" 0)) := by
  intro vars
  obtain ⟨hexit, hblank, -, houtcome, -, hsame⟩ := reply_agrees_with_evaluateLine vars " exit"
  obtain ⟨-, hempty, -, -, hfault, -⟩ := reply_agrees_with_evaluateLine vars "\x0b"
  have hresult : (evaluateLine vars " exit").result = .ok ⟨.expression, 2⟩ := by
    have hscan : Token.scan " exit" = [⟨.name, "exit"⟩, .endOfLine] := by decide +kernel
    rw [evaluateLine, hscan]
    rfl
  have hname : ¬ ∀ c ∈ " exit".toList, c ∈ [' ', '\t', '\r', '\n', '\x0c', '\x0b'] :=
    fun h => absurd (h 'e' (by decide)) (by decide)
  obtain ⟨hvalue, -, hvars⟩ := houtcome (mt hexit.mp (by decide)) (mt hblank.mp hname)
  refine ⟨(hvalue _).mpr hresult, ?_, ?_, (hfault (hempty.mpr (by simp))).1⟩
  · exact hsame "exit\t" (by decide +kernel) (by decide) (by decide)
  · rw [hvars, Outcome.store_ok hresult]
    rfl

end Session

end LineCalculator
