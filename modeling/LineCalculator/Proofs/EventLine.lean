import LineCalculator.Proofs.Heading
import LineCalculator.Proofs.OneLine

/-!
# Lines of events

An event quotes at most one token of the line that it is about; the rest of it is made of numbers and
of fixed texts. So every event of a session is recorded on a line of its own, behind the name of its
severity, and none is a warning.
-/
namespace LineCalculator

namespace Event

/-- What an event quotes is taken from a token: the text of a name, the name of a token that is left
over, or what a fault quotes. A warning quotes no token. -/
def Quotes : Event → Token → Prop
  | variableRead name _, t => name = t.text
  | assignment name _, t => name = t.text
  | trailing _ token, t => token = t.display
  | failure fault, t => fault.Quotes t
  | unkept _, _ => False
  | _, _ => True

variable {e : Event} {t : Token}

theorem severity_ne_warn (hquotes : e.Quotes t) : e.severity ≠ .warn := by
  cases e with
  | unkept reason => exact hquotes.elim
  | _ => nofun

theorem oneLine_message (hquotes : e.Quotes t) (ht : BlankFree t.text) : OneLine e.message := by
  have hdisplay (x : Float) : OneLine (Number.display x) := (Number.blankFree_display x).oneLine
  cases e with
  | tokenized count => exact (by decide +kernel : OneLine "tokenized line")
  | evaluating position => exact (by decide +kernel : OneLine "evaluating tokens")
  | trailing position token => exact (by decide +kernel : OneLine "ignoring trailing tokens")
  | entering rule position depth =>
    have hrule : OneLine rule.name := by cases rule <;> decide
    exact OneLine.append_iff.mpr ⟨by decide +kernel, hrule⟩
  | number value | printing value =>
    exact OneLine.append_iff.mpr ⟨by decide +kernel, hdisplay value⟩
  | variableRead name value | assignment name value =>
    obtain rfl : name = t.text := hquotes
    exact OneLine.append_iff.mpr ⟨ht.oneLine.quoting (by decide +kernel), hdisplay value⟩
  | operation op left right result =>
    have hsymbol : OneLine op.symbol := by cases op <;> decide
    unfold message
    simp only [OneLine.append_iff, hdisplay, hsymbol, and_true]
    decide +kernel
  | call function argument result =>
    have hname : OneLine function.name := by cases function; decide
    unfold message
    simp only [OneLine.append_iff, hdisplay, hname, and_true]
    decide +kernel
  | failure fault =>
    exact OneLine.append_iff.mpr ⟨by decide +kernel, Fault.oneLine_message hquotes ht⟩
  | unkept reason => exact hquotes.elim

theorem oneLine_fields (hquotes : e.Quotes t) (ht : BlankFree t.text) :
    ∀ field ∈ e.fields, OneLine field.1 ∧ OneLine field.2 := by
  have hrepr (n : Nat) : OneLine n.repr := (Number.blankFree_repr n).oneLine
  cases e with
  | trailing position token =>
    obtain rfl : token = t.display := hquotes
    simp +decide [fields, hrepr, Token.oneLine_display ht]
  | _ => simp +decide [fields, hrepr]

/-- An event that quotes a token of one line is recorded on one line. -/
theorem oneLine_text (hquotes : e.Quotes t) (ht : BlankFree t.text) : OneLine e.text := by
  have hmessage := oneLine_message hquotes ht
  have hfields : ∀ text ∈ e.fields.map fun field => " " ++ field.1 ++ "=" ++ field.2,
      OneLine text := by
    intro text htext
    obtain ⟨field, hfield, rfl⟩ := List.mem_map.mp htext
    obtain ⟨hname, hvalue⟩ := oneLine_fields hquotes ht field hfield
    simp +decide [hname, hvalue]
  have hseverity : OneLine e.severity.name := by cases e.severity <;> decide
  unfold text
  simp only [OneLine.append_iff]
  exact ⟨⟨⟨hseverity, by decide⟩, hmessage⟩, .join hfields⟩

end Event

/-- Each of the events quotes a token that stands at a cursor or further along. -/
def Cursor.Covers (c : Cursor) (events : List Event) : Prop :=
  ∀ e ∈ events, ∃ d, c.Reaches d ∧ e.Quotes d.peek

namespace Cursor.Covers

variable {c d : Cursor} {events more : List Event} {e : Event}

theorem nil (c : Cursor) : c.Covers [] := nofun

theorem cons (h : e.Quotes c.peek) (hrest : c.Covers events) : c.Covers (e :: events) :=
  List.forall_mem_cons.mpr ⟨⟨c, .refl c, h⟩, hrest⟩

theorem singleton (h : e.Quotes c.peek) : c.Covers [e] := cons h (nil c)

theorem append (h : c.Covers events) (hmore : c.Covers more) : c.Covers (events ++ more) :=
  List.forall_mem_append.mpr ⟨h, hmore⟩

theorem of_reaches (hd : c.Reaches d) (h : d.Covers events) : c.Covers events := by
  intro e he
  obtain ⟨f, hf, hquotes⟩ := h e he
  exact ⟨f, hd.trans hf, hquotes⟩

end Cursor.Covers

open Cursor.Reaches in
/-- A run quotes the tokens that it comes to. -/
theorem Runs.covers {vars : Variables} {part : Part} {c : Cursor} {o : Outcome Float}
    (h : Runs vars part c o) : c.Covers o.events := by
  induction h with
  | number => exact .singleton trivial
  | variableRead => exact .singleton rfl
  | malformed | undefined | unexpected | tooDeep | unknown | unopened => exact .nil _
  | group _ _ _ ih => exact ih.of_reaches (deeper_advance _)
  | unargued _ _ _ _ _ _ ih | refused _ _ _ _ _ _ _ ih =>
    exact ih.of_reaches ((deeper_advance _).trans (advance _))
  | called _ _ _ _ _ _ _ ih =>
    exact (ih.of_reaches ((deeper_advance _).trans (advance _))).append (.singleton trivial)
  | unfilled _ _ ih | unclosed _ _ _ ih | closed _ _ _ ih | operand _ ih => exact ih
  | halted h _ _ _ _ ihleft ihright =>
    exact ihleft.append (ihright.of_reaches (h.reaches.trans (advance _)))
  | operation h _ _ _ _ ihleft ihright =>
    have hright := ihright.of_reaches (h.reaches.trans (advance _))
    exact (ihleft.append hright).append (.singleton trivial)
  | factor _ ih | joined _ _ ih => exact .cons trivial ih

namespace Statement

theorem heading_eq_assignment {c : Cursor} {name : String}
    (h : (heading c).1 = .assignment name) : name = c.peek.text := by
  unfold heading at h
  split at h
  · exact (StatementForm.assignment.inj h).symm
  · split at h <;> cases h

/-- A statement quotes the name that it assigns, what its expression quotes and the token that it
stops at. -/
theorem covers_events (vars : Variables) (c : Cursor) : c.Covers (statement vars c).events := by
  have hrun := Runs.expression_reading vars (heading c).2
  have hheading := (moves_heading c).reaches
  have hexpression := hrun.covers.of_reaches hheading
  cases hresult : (statement vars c).result with
  | error fault =>
    rw [events_of_error hresult]
    exact .cons trivial hexpression
  | ok e =>
    have hannouncement : c.Covers e.announcement := by
      have hform := (result_eq_ok_iff.mp hresult).1
      unfold Evaluation.announcement
      split
      · next name hname => exact .singleton (heading_eq_assignment (hform ▸ hname))
      · exact .singleton trivial
      · exact .nil c
    have hleft : c.Covers (statement vars c).cursor.leftOver := by
      rw [cursor_eq_heading]
      refine .of_reaches (hheading.trans hrun.reaches) ?_
      unfold Cursor.leftOver
      split
      · exact .nil _
      · exact .singleton rfl
    rw [events_of_ok hresult]
    exact .cons trivial ((hexpression.append hannouncement).append hleft)

end Statement

namespace Session

theorem covers_events (vars : Variables) (line : String) :
    (Cursor.atIndex (Token.scan line) 0).Covers (respond vars line).events := by
  have hstatement := Statement.covers_events vars (.atIndex (Token.scan line) 0)
  rcases respond_cases vars line with ⟨-, hr⟩ | ⟨-, hr⟩ | ⟨e, -, hr⟩ | ⟨fault, hresult, hr⟩
  · rw [hr]
    exact .nil _
  · rw [hr]
    exact .singleton trivial
  · rw [hr]
    exact .cons trivial hstatement
  · obtain ⟨d, hd, hfound⟩ := Statement.fault_foundAt hresult
    have hfailure : d.Covers [.failure fault] := .singleton hfound.quotes
    rw [hr]
    exact .cons trivial (hstatement.append (hfailure.of_reaches hd))

/-- Every event of a line quotes a token without blanks. -/
theorem exists_quotes_of_mem {vars : Variables} {line : String} {e : Event}
    (h : e ∈ (respond vars line).events) : ∃ t : Token, e.Quotes t ∧ BlankFree t.text := by
  obtain ⟨d, hd, hquotes⟩ := covers_events vars line e h
  exact ⟨d.peek, hquotes, hd.blankFree_peek⟩

end Session

end LineCalculator
