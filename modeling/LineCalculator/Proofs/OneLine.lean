import LineCalculator.Proofs.DecimalReading
import LineCalculator.Proofs.FaultPlace
import LineCalculator.Session

/-!
# Texts of one line

What is shown for a line never breaks a line itself. Tokens and numbers have no blanks, and a line
feed is one; and a message is put together from these and from fixed texts.
-/
namespace LineCalculator

/-- A text without a line feed. -/
def OneLine (text : String) : Prop := '\n' ∉ text.toList

instance (text : String) : Decidable (OneLine text) :=
  inferInstanceAs (Decidable ('\n' ∉ text.toList))

/-- A text without blanks. -/
def BlankFree (text : String) : Prop := ∀ c ∈ text.toList, isBlank c = false

instance (text : String) : Decidable (BlankFree text) :=
  List.decidableBAll (fun c => isBlank c = false) text.toList

namespace BlankFree

variable {text more : String}

@[simp] theorem append_iff : BlankFree (text ++ more) ↔ BlankFree text ∧ BlankFree more := by
  unfold BlankFree
  rw [String.toList_append, List.forall_mem_append]

theorem not_mem {c : Char} (h : BlankFree text) (hc : isBlank c = true) : c ∉ text.toList :=
  fun hmem => by
    rw [h c hmem] at hc
    cases hc

theorem oneLine (h : BlankFree text) : OneLine text := h.not_mem rfl

end BlankFree

namespace OneLine

variable {text more lead mid tail : String}

@[simp] theorem append_iff : OneLine (text ++ more) ↔ OneLine text ∧ OneLine more := by
  unfold OneLine
  rw [String.toList_append, List.mem_append, not_or]

theorem join {texts : List String} (h : ∀ text ∈ texts, OneLine text) :
    OneLine (String.join texts) := by
  simp only [OneLine, String.toList_join, List.mem_flatMap, not_exists, not_and]
  exact h

/-- A text between two fixed ones. -/
theorem quoting (h : OneLine text) (hfixed : OneLine (lead ++ tail)) :
    OneLine (lead ++ text ++ tail) := by
  simp only [append_iff] at hfixed ⊢
  exact ⟨⟨hfixed.1, h⟩, hfixed.2⟩

/-- Two texts between three fixed ones. -/
theorem quoting_two (h : OneLine text) (hmore : OneLine more)
    (hfixed : OneLine (lead ++ mid ++ tail)) : OneLine (lead ++ text ++ mid ++ more ++ tail) := by
  simp only [append_iff] at hfixed ⊢
  exact ⟨⟨⟨⟨hfixed.1.1, h⟩, hfixed.1.2⟩, hmore⟩, hfixed.2⟩

end OneLine

namespace Number

theorem blankFree_repr (n : Nat) : BlankFree n.repr := by
  intro c hc
  have hdigits : n.repr.toList = Nat.toDigits 10 n := by simp [Nat.repr]
  rw [hdigits] at hc
  have hdigit := Nat.isDigit_of_mem_toDigits (by decide) (by decide) hc
  exact isBlank_of_isNumeral (by simp [isNumeral, hdigit])

theorem isBlank_of_mem_magnitudeChars {word : Nat} :
    ∀ c ∈ magnitudeChars word, isBlank c = false := by
  unfold magnitudeChars
  split
  · have hletters : ['i', 'n', 'f'].all isLetter = true := rfl
    exact fun c hc => isBlank_of_isLetter (List.all_eq_true.mp hletters c hc)
  · exact fun c hc => isBlank_of_isNumeral (Decimal.isNumeral_of_mem_chars _ c hc)

/-- A number is shown by a name, or by digits, a point and a sign. -/
theorem blankFree_display (x : Float) : BlankFree (display x) := by
  have hofList {text : List Char} (h : ∀ c ∈ text, isBlank c = false) :
      BlankFree (String.ofList text) := by
    rwa [BlankFree, String.toList_ofList]
  unfold display
  dsimp only
  split
  · exact (by decide : BlankFree "NaN")
  · split
    · exact hofList (List.forall_mem_cons.mpr ⟨rfl, isBlank_of_mem_magnitudeChars⟩)
    · exact hofList isBlank_of_mem_magnitudeChars

end Number

namespace Token

variable {t : Token}

theorem WellShaped.blankFree (h : t.WellShaped) : BlankFree t.text := by
  cases cut_of_wellShaped h with
  | numeral hrun => exact fun c hc => isBlank_of_isNumeral (hrun c (by simpa [ofNumeral] using hc))
  | word hrun => exact fun c hc => isBlank_of_isLetter (hrun c (by simpa [ofWord] using hc))
  | mark hblank _ _ => simpa [ofMark, BlankFree] using hblank

theorem blankFree_text {line : String} (h : t ∈ scan line) : BlankFree t.text := by
  rcases List.mem_append.mp h with hmem | hmem
  · exact (wellShaped_of_mem hmem).blankFree
  · obtain rfl := List.mem_singleton.mp hmem
    decide

theorem oneLine_display (h : BlankFree t.text) : OneLine t.display := by
  unfold display
  split
  · decide
  · exact h.oneLine.quoting (by decide)

end Token

/-- A message that quotes a token of one line has one line. -/
theorem Fault.oneLine_message {fault : Fault} {t : Token} (hquotes : fault.Quotes t)
    (ht : BlankFree t.text) : OneLine fault.message := by
  have hrepr (n : Nat) : OneLine n.repr := (Number.blankFree_repr n).oneLine
  cases fault with
  | form fault =>
    cases fault with
    | unexpectedToken found position =>
      obtain rfl : found = t.display := hquotes
      exact (Token.oneLine_display ht).quoting_two (hrepr position) (by decide +kernel)
    | malformedNumber literal position =>
      obtain rfl : literal = t.text := hquotes
      exact ht.oneLine.quoting_two (hrepr position) (by decide +kernel)
    | expectedOpenParen function position =>
      obtain ⟨f, rfl⟩ := hquotes
      have hname : OneLine f.name := by cases f; decide
      exact hname.quoting_two (hrepr position) (by decide +kernel)
    | unclosedParenthesis position | nestedTooDeep position =>
      exact (hrepr position).quoting (by decide +kernel)
  | value fault =>
    cases fault with
    | undefinedVariable name position =>
      obtain rfl : name = t.text := hquotes
      exact ht.oneLine.quoting (by decide +kernel)
    | negativeRoot argument position =>
      exact (Number.blankFree_display argument).oneLine.quoting (by decide +kernel)

theorem Evaluation.oneLine_text (e : Evaluation) : OneLine e.text := by
  have hvalue := (Number.blankFree_display e.value).oneLine
  unfold text
  split
  all_goals exact OneLine.append_iff.mpr ⟨by decide +kernel, hvalue⟩

/-- No token that a line leads to has a blank. -/
theorem Cursor.Reaches.blankFree_peek {line : String} {d : Cursor}
    (h : (Cursor.atIndex (Token.scan line) 0).Reaches d) : BlankFree d.peek.text := by
  rcases h.peek_mem with hmem | hend
  · exact Token.blankFree_text hmem
  · rw [hend]
    decide

/-- No reply to a line breaks a line. -/
theorem Session.oneLine_reply (vars : Variables) (line : String) :
    OneLine (respond vars line).reply.text := by
  rcases respond_cases vars line with ⟨-, hr⟩ | ⟨-, hr⟩ | ⟨e, -, hr⟩ | ⟨fault, hresult, hr⟩
  · rw [hr]
    exact (by decide : OneLine "")
  · rw [hr]
    exact (by decide +kernel : OneLine "Invalid input.")
  · rw [hr]
    exact e.oneLine_text
  · obtain ⟨d, hd, hfound⟩ := Statement.fault_foundAt hresult
    have hmessage := Fault.oneLine_message hfound.quotes hd.blankFree_peek
    rw [hr]
    exact OneLine.append_iff.mpr ⟨by decide +kernel, hmessage⟩

end LineCalculator
