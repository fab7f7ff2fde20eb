import Mathlib.Data.List.DropRight
import LineCalculator.Proofs.LexicalGrammar

/-!
# Texts written one behind the other

The tokens of a text behind another are the tokens of both, unless a run goes on across the place
where they meet. Then the two parts of the run are one token, and a word that is put together is
looked up anew. A place in a line is therefore inside a token exactly when the characters beside it
are of one class, and at every other place blanks may be put in.
-/
namespace LineCalculator

namespace Token

/-- The last character of a text and the first of the text behind it are of one class. -/
def Meets (p : Char → Bool) (text more : List Char) : Prop :=
  ∃ c d, text.getLast? = some c ∧ more.head? = some d ∧ p c = true ∧ p d = true

/-- No run goes on from a text into the text behind it. -/
def Apart (text more : List Char) : Prop :=
  ¬ Meets isNumeral text more ∧ ¬ Meets isLetter text more

/-- The last token of a line and the first of the line behind it become one. Its text is their
texts, and its kind is that of a token with this text. -/
def Fuses (kind : String → TokenKind) (first second both : List Token) : Prop :=
  ∃ front t u back, first = front ++ [t, .endOfLine] ∧ second = u :: back ∧
    both = front ++ ⟨kind (t.text ++ u.text), t.text ++ u.text⟩ :: back

variable {p : Char → Bool} {text more gap : List Char}

theorem Meets.append_left (h : Meets p text more) (before : List Char) :
    Meets p (before ++ text) more := by
  obtain ⟨c, d, hlast, hfirst, hc, hd⟩ := h
  exact ⟨c, d, by rw [List.getLast?_append, hlast]; rfl, hfirst, hc, hd⟩

theorem Apart.of_append_left (before : List Char) (h : Apart (before ++ text) more) :
    Apart text more :=
  ⟨fun hmeets => h.1 (hmeets.append_left before), fun hmeets => h.2 (hmeets.append_left before)⟩

/-- A run that does not go on behind its text ends where it ends in the text alone. -/
theorem span_append_of_not_meets {c : Char} (hc : p c = true) (h : ¬ Meets p (c :: text) more) :
    (text ++ more).takeWhile p = text.takeWhile p ∧
      (text ++ more).dropWhile p = text.dropWhile p ++ more := by
  induction text generalizing c with
  | nil =>
    refine @span_run p [] more (by simp) fun d hd => ?_
    by_contra hp
    exact h ⟨c, d, rfl, hd, hc, by simpa using hp⟩
  | cons d text ih =>
    have hrest : ¬ Meets p (d :: text) more := fun hmeets => h (hmeets.append_left [c])
    by_cases hd : p d = true
    · obtain ⟨htake, hdrop⟩ := ih hd hrest
      simp [hd, htake, hdrop]
    · simp [hd]

/-- Texts are scanned apart where no run goes on. -/
theorem lexemes_append_of_apart (h : Apart text more) :
    lexemes (text ++ more) = lexemes text ++ lexemes more := by
  fun_induction lexemes text with
  | case1 => rfl
  | case2 c text hblank ih =>
    rw [List.cons_append, lexemes_cons, if_pos hblank]
    exact ih (h.of_append_left [c])
  | case3 c text hblank hnumeral ih =>
    obtain ⟨htake, hdrop⟩ := span_append_of_not_meets hnumeral h.1
    have hrest : Apart (text.dropWhile isNumeral) more := by
      rw [← @List.takeWhile_append_dropWhile _ isNumeral text] at h
      exact h.of_append_left (c :: text.takeWhile isNumeral)
    rw [List.cons_append, lexemes_cons, if_neg hblank, if_pos hnumeral, htake, hdrop, ih hrest]
    rfl
  | case4 c text hblank hnumeral hletter ih =>
    obtain ⟨htake, hdrop⟩ := span_append_of_not_meets hletter h.2
    have hrest : Apart (text.dropWhile isLetter) more := by
      rw [← @List.takeWhile_append_dropWhile _ isLetter text] at h
      exact h.of_append_left (c :: text.takeWhile isLetter)
    rw [List.cons_append, lexemes_cons, if_neg hblank, if_neg hnumeral, if_pos hletter, htake,
      hdrop, ih hrest]
    rfl
  | case5 c text hblank hnumeral hletter ih =>
    rw [List.cons_append, lexemes_cons, if_neg hblank, if_neg hnumeral, if_neg hletter,
      ih (h.of_append_left [c])]
    rfl

/-- A text that ends in a class of characters ends in a run of it. -/
theorem exists_last_run {c : Char} (hlast : text.getLast? = some c) (hc : p c = true) :
    ∃ before run, text = before ++ run ∧ run ≠ [] ∧ (∀ d ∈ run, p d = true) ∧
      ∀ d, before.getLast? = some d → p d = false := by
  refine ⟨text.rdropWhile p, text.rtakeWhile p, List.rdropWhile_append_rtakeWhile.symm, ?_,
    fun d hd => List.mem_rtakeWhile_imp hd, fun d hd => ?_⟩
  · obtain ⟨init, rfl⟩ := List.getLast?_eq_some_iff.mp hlast
    simp [hc]
  · obtain ⟨init, hinit⟩ := List.getLast?_eq_some_iff.mp hd
    have hstop := List.rdropWhile_last_not p text (by simp [hinit])
    simpa [hinit] using hstop

/-- A text that starts in a class of characters starts with a run of it. -/
theorem exists_first_run {d : Char} (hfirst : text.head? = some d) (hd : p d = true) :
    ∃ run behind, text = run ++ behind ∧ run ≠ [] ∧ (∀ e ∈ run, p e = true) ∧
      ∀ e, behind.head? = some e → p e = false := by
  refine ⟨text.takeWhile p, text.dropWhile p, List.takeWhile_append_dropWhile.symm, ?_,
    fun e he => List.mem_takeWhile_imp he, fun e he => head?_dropWhile he⟩
  obtain ⟨rest, rfl⟩ := List.head?_eq_some_iff.mp hfirst
  simp [hd]

/-- A class of characters whose runs are tokens. Only characters of the class stand in one run with
a character of it. -/
structure RunClass (p : Char → Bool) (kind : String → TokenKind) : Prop where
  lexemes_run : ∀ run, run ≠ [] → (∀ d ∈ run, p d = true) →
    lexemes run = [⟨kind (String.ofList run), String.ofList run⟩]
  same_class : ∀ c d, p c = true →
    (isNumeral c = true ∧ isNumeral d = true) ∨ (isLetter c = true ∧ isLetter d = true) →
    p d = true

theorem runClass_isNumeral : RunClass isNumeral fun _ => .number where
  lexemes_run run hne hrun := by
    obtain ⟨c, run, rfl⟩ := List.exists_cons_of_ne_nil hne
    have hrun := @lexemes_append _ [] (.numeral hrun) (by simp)
    simpa [ofNumeral] using hrun
  same_class c d hc hcd := by
    have hletter := isLetter_of_isNumeral hc
    simpa [hc, hletter] using hcd

theorem runClass_isLetter : RunClass isLetter fun text => wordKind text.toList where
  lexemes_run run hne hrun := by
    obtain ⟨c, run, rfl⟩ := List.exists_cons_of_ne_nil hne
    have hrun := @lexemes_append _ [] (.word hrun) (by simp)
    simpa [ofWord] using hrun
  same_class c d hc hcd := by
    rcases hcd with ⟨hnumeral, -⟩ | ⟨-, hd⟩
    · rw [isLetter_of_isNumeral hnumeral] at hc
      cases hc
    · exact hd

namespace RunClass

variable {kind : String → TokenKind} {run : List Char}

theorem apart (hp : RunClass p kind)
    (h : ∀ c d, text.getLast? = some c → more.head? = some d → p c ≠ p d) : Apart text more := by
  have hnot (c d : Char) (hlast : text.getLast? = some c) (hfirst : more.head? = some d) :
      ¬ ((isNumeral c = true ∧ isNumeral d = true) ∨ (isLetter c = true ∧ isLetter d = true)) := by
    intro hcd
    have hne := h c d hlast hfirst
    cases hc : p c with
    | true => exact hne (hc.trans (hp.same_class c d hc hcd).symm)
    | false =>
      have hd : p d = true := by simpa [hc] using hne
      have hc' := hp.same_class d c hd (hcd.imp And.symm And.symm)
      rw [hc] at hc'
      cases hc'
  exact ⟨fun ⟨c, d, hlast, hfirst, hcd⟩ => hnot c d hlast hfirst (.inl hcd),
    fun ⟨c, d, hlast, hfirst, hcd⟩ => hnot c d hlast hfirst (.inr hcd)⟩

/-- A run is one token, whatever stands before and behind it. -/
theorem lexemes_around (hp : RunClass p kind) (before behind : List Char) (hne : run ≠ [])
    (hrun : ∀ d ∈ run, p d = true) (hbefore : ∀ c, before.getLast? = some c → p c = false)
    (hbehind : ∀ d, behind.head? = some d → p d = false) :
    lexemes (before ++ (run ++ behind)) =
      lexemes before ++ ⟨kind (String.ofList run), String.ofList run⟩ :: lexemes behind := by
  have hfirst : Apart before (run ++ behind) := by
    refine hp.apart fun c d hc hd => ?_
    obtain ⟨e, run, rfl⟩ := List.exists_cons_of_ne_nil hne
    obtain rfl : e = d := by simpa using hd
    rw [hbefore c hc, hrun e List.mem_cons_self]
    decide
  have hlast : Apart run behind := by
    refine hp.apart fun c d hc hd => ?_
    rw [hrun c (List.mem_of_getLast? hc), hbehind d hd]
    decide
  rw [lexemes_append_of_apart hfirst, lexemes_append_of_apart hlast, hp.lexemes_run run hne hrun]
  rfl

/-- Where a run goes on from a line into the next its two parts become one token. -/
theorem fuses (hp : RunClass p kind) {a b : String} (h : Meets p a.toList b.toList) :
    Fuses kind (scan a) (scan b) (scan (a ++ b)) := by
  obtain ⟨c, d, hlast, hfirst, hc, hd⟩ := h
  obtain ⟨before, run, ha, hne, hrun, hbefore⟩ := exists_last_run hlast hc
  obtain ⟨more, behind, hb, hmore, hall, hbehind⟩ := exists_first_run hfirst hd
  have hjoined : run ++ more ≠ [] := List.append_ne_nil_of_left_ne_nil hne more
  have hends := hp.lexemes_around before [] hne hrun hbefore (by simp)
  have hstarts := hp.lexemes_around [] behind hmore hall (by simp) hbehind
  have hboth := hp.lexemes_around before behind hjoined
    (fun e he => (List.mem_append.mp he).elim (hrun e) (hall e)) hbefore hbehind
  rw [List.append_nil, lexemes_nil] at hends
  rw [List.nil_append, lexemes_nil, List.nil_append] at hstarts
  rw [List.append_assoc, String.ofList_append] at hboth
  refine ⟨lexemes before, ⟨kind (String.ofList run), String.ofList run⟩,
    ⟨kind (String.ofList more), String.ofList more⟩, lexemes behind ++ [.endOfLine], ?_, ?_, ?_⟩
  · rw [scan, ha, hends, List.append_assoc]
    rfl
  · rw [scan, hb, hstarts]
    rfl
  · rw [scan, String.toList_append, ha, hb, List.append_assoc, hboth, List.append_assoc]
    rfl

end RunClass

theorem apart_nil (text : List Char) : Apart text [] := by
  constructor
  all_goals
    rintro ⟨c, d, -, hfirst, -⟩
    cases hfirst

/-- No run goes on across a blank. -/
theorem apart_blank (hgap : IsBlankRun gap) (hne : gap ≠ []) (text more : List Char) :
    Apart text (gap ++ more) := by
  obtain ⟨e, gap, rfl⟩ := List.exists_cons_of_ne_nil hne
  obtain ⟨hnumeral, hletter⟩ := not_run_of_isBlank (hgap e List.mem_cons_self)
  constructor
  · rintro ⟨c, d, -, hfirst, -, hd⟩
    obtain rfl : e = d := by simpa using hfirst
    rw [hnumeral] at hd
    cases hd
  · rintro ⟨c, d, -, hfirst, -, hd⟩
    obtain rfl : e = d := by simpa using hfirst
    rw [hletter] at hd
    cases hd

/-- Texts are scanned apart with blanks between them. -/
theorem lexemes_gap (hgap : IsBlankRun gap) (hne : gap ≠ []) (text more : List Char) :
    lexemes (text ++ (gap ++ more)) = lexemes text ++ lexemes more := by
  rw [lexemes_append_of_apart (apart_blank hgap hne text more), lexemes_blank_append hgap]

/-- Blanks change no token where no run goes on. -/
theorem lexemes_gap_of_apart (hgap : IsBlankRun gap) (h : Apart text more) :
    lexemes (text ++ (gap ++ more)) = lexemes (text ++ more) := by
  by_cases hne : gap = []
  · rw [hne, List.nil_append]
  · rw [lexemes_gap hgap hne, lexemes_append_of_apart h]

theorem Fuses.length {kind : String → TokenKind} {first second both : List Token}
    (h : Fuses kind first second both) :
    both.length + 1 = first.dropLast.length + second.length := by
  obtain ⟨front, t, u, back, rfl, rfl, rfl⟩ := h
  simp only [List.length_append, List.length_dropLast, List.length_cons, List.length_nil]
  omega

/-- The tokens of a line are those before a place and those behind it, unless a run goes on
there. -/
theorem scan_append_iff_apart {a b : String} :
    scan (a ++ b) = (scan a).dropLast ++ scan b ↔ Apart a.toList b.toList := by
  constructor
  · intro h
    have hlength := congrArg List.length h
    rw [List.length_append] at hlength
    constructor
    · intro hmeets
      have hfused := (runClass_isNumeral.fuses hmeets).length
      omega
    · intro hmeets
      have hfused := (runClass_isLetter.fuses hmeets).length
      omega
  · intro h
    rw [scan, String.toList_append, lexemes_append_of_apart h, scan, List.dropLast_concat, scan,
      List.append_assoc]

/-- The tokens of a line written behind another. Where a number run or a word goes on from one into
the other, its two parts become one token, a number or what the whole word is. Everywhere else, and
nowhere else, the tokens of both stand one behind the other. Blanks at either end of a line or at a
place where no run goes on change nothing, and neither does it matter which blanks stand at a place,
as long as there are any. -/
theorem scan_append (a b : String) :
    (Meets isNumeral a.toList b.toList →
      Fuses (fun _ => .number) (scan a) (scan b) (scan (a ++ b))) ∧
    (Meets isLetter a.toList b.toList →
      Fuses (fun text => wordKind text.toList) (scan a) (scan b) (scan (a ++ b))) ∧
    (scan (a ++ b) = (scan a).dropLast ++ scan b ↔ Apart a.toList b.toList) ∧
    ∀ gap : String, IsBlankRun gap.toList →
      scan (gap ++ a) = scan a ∧ scan (a ++ gap) = scan a ∧
      (Apart a.toList b.toList → scan (a ++ gap ++ b) = scan (a ++ b)) ∧
      ∀ other : String, IsBlankRun other.toList → gap ≠ "" → other ≠ "" →
        scan (a ++ gap ++ b) = scan (a ++ other ++ b) := by
  refine ⟨runClass_isNumeral.fuses, runClass_isLetter.fuses, scan_append_iff_apart,
    fun gap hgap => ⟨?_, ?_, fun h => ?_, fun other hother hne hne' => ?_⟩⟩
  · rw [scan, String.toList_append, lexemes_blank_append hgap, scan]
  · have hend := lexemes_gap_of_apart hgap (apart_nil a.toList)
    rw [List.append_nil, List.append_nil] at hend
    rw [scan, String.toList_append, hend, scan]
  · simp only [scan, String.toList_append, List.append_assoc, lexemes_gap_of_apart hgap h]
  · have hne : gap.toList ≠ [] := mt String.toList_eq_nil_iff.mp hne
    have hne' : other.toList ≠ [] := mt String.toList_eq_nil_iff.mp hne'
    simp only [scan, String.toList_append, List.append_assoc, lexemes_gap hgap hne,
      lexemes_gap hother hne']

/-- Parts of a number and of a keyword that are written together are one token each; a blank in the
keyword keeps its parts apart, and one behind it changes nothing. -/
theorem keyword_across_lines :
    (Meets isNumeral "1.".toList ".5".toList ∧
      Fuses (fun _ => .number) (scan "1.") (scan ".5") (scan "1..5")) ∧
    (Meets isLetter "4*ro".toList "ot(9)".toList ∧
      Fuses (fun text => wordKind text.toList) (scan "4*ro") (scan "ot(9)") (scan "4*root(9)")) ∧
    (Apart "4*root".toList "(9)".toList ∧ IsBlankRun "\t".toList ∧
      scan "4*root\t(9)" = scan "4*root(9)") ∧
    IsBlankRun " \x0c".toList ∧ scan "4*ro \x0cot(9)" = scan "4*ro\tot(9)" := by
  have hnumerals : Meets isNumeral "1.".toList ".5".toList := ⟨'.', '.', by decide⟩
  have hletters : Meets isLetter "4*ro".toList "ot(9)".toList := ⟨'o', 'o', by decide⟩
  have htab : IsBlankRun "\t".toList := by simp [IsBlankRun, isBlank]
  have hblanks : IsBlankRun " \x0c".toList := by simp [IsBlankRun, isBlank]
  have hapart : Apart "4*root".toList "(9)".toList := by
    simp [Apart, Meets, isNumeral, isLetter]
  refine ⟨⟨hnumerals, (scan_append "1." ".5").1 hnumerals⟩,
    ⟨hletters, (scan_append "4*ro" "ot(9)").2.1 hletters⟩, ⟨hapart, htab, ?_⟩, hblanks, ?_⟩
  · exact ((scan_append "4*root" "(9)").2.2.2 "\t" htab).2.2.1 hapart
  · exact ((scan_append "4*ro" "ot(9)").2.2.2 " \x0c" hblanks).2.2.2 "\t" htab (by decide)
      (by decide)

end Token

end LineCalculator
