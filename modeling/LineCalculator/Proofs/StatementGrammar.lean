import LineCalculator.Proofs.GrammarAdequacy
import LineCalculator.Proofs.Heading

/-!
# The grammar of statements

    statement := name "=" expression | "print" expression | expression

A statement returns its form and value between two indices exactly when the grammar has them there.
The form is settled by the first two tokens, so that a name with an equals sign behind it is never
an expression that ends before the sign.
-/
namespace LineCalculator

open Expression

variable {vars : Variables} {depth p q : Nat} {tokens : List Token}

/-- A statement between two indices of a list, with its form and its value. -/
inductive DerivesStatement (vars : Variables) (depth : Nat) (tokens : List Token) (p q : Nat) :
    StatementForm → Float → Prop where
  | assignment {name sign : Token} {value : Float} (hfirst : tokens[p]? = some name)
      (hname : name.kind = .name) (hsecond : tokens[p + 1]? = some sign)
      (hsign : sign.kind = .equals)
      (h : Derives vars .expression depth (tokens.extract (p + 2) q) value) :
      DerivesStatement vars depth tokens p q (.assignment name.text) value
  | print {keyword : Token} {value : Float} (hfirst : tokens[p]? = some keyword)
      (hkind : keyword.kind = .print)
      (h : Derives vars .expression depth (tokens.extract (p + 1) q) value) :
      DerivesStatement vars depth tokens p q .print value
  | expression {value : Float}
      (hassignment : ¬ (tokens[p]?.map Token.kind = some .name ∧
        tokens[p + 1]?.map Token.kind = some .equals))
      (hprint : tokens[p]?.map Token.kind ≠ some .print)
      (h : Derives vars .expression depth (tokens.extract p q) value) :
      DerivesStatement vars depth tokens p q .expression value

namespace DerivesStatement

variable {form : StatementForm} {value : Float}

theorem iff_of_assignment {name sign : Token} (hfirst : tokens[p]? = some name)
    (hname : name.kind = .name) (hsecond : tokens[p + 1]? = some sign)
    (hsign : sign.kind = .equals) :
    DerivesStatement vars depth tokens p q form value ↔
      form = .assignment name.text ∧
        Derives vars .expression depth (tokens.extract (p + 2) q) value := by
  constructor
  · intro h
    cases h with
    | assignment hfirst' _ _ _ h =>
      obtain rfl := Option.some.inj (hfirst'.symm.trans hfirst)
      exact ⟨rfl, h⟩
    | print hfirst' hkind _ =>
      obtain rfl := Option.some.inj (hfirst'.symm.trans hfirst)
      rw [hname] at hkind
      cases hkind
    | expression hassignment _ _ => simp [hfirst, hsecond, hname, hsign] at hassignment
  · rintro ⟨rfl, h⟩
    exact .assignment hfirst hname hsecond hsign h

theorem iff_of_print {keyword : Token} (hfirst : tokens[p]? = some keyword)
    (hkind : keyword.kind = .print) :
    DerivesStatement vars depth tokens p q form value ↔
      form = .print ∧ Derives vars .expression depth (tokens.extract (p + 1) q) value := by
  constructor
  · intro h
    cases h with
    | assignment hfirst' hname _ _ _ =>
      obtain rfl := Option.some.inj (hfirst'.symm.trans hfirst)
      rw [hkind] at hname
      cases hname
    | print _ _ h => exact ⟨rfl, h⟩
    | expression _ hprint _ => simp [hfirst, hkind] at hprint
  · rintro ⟨rfl, h⟩
    exact .print hfirst hkind h

theorem iff_of_bare
    (hassignment : ¬ (tokens[p]?.map Token.kind = some .name ∧
      tokens[p + 1]?.map Token.kind = some .equals))
    (hprint : tokens[p]?.map Token.kind ≠ some .print) :
    DerivesStatement vars depth tokens p q form value ↔
      form = .expression ∧ Derives vars .expression depth (tokens.extract p q) value := by
  constructor
  · intro h
    cases h with
    | assignment hfirst hname hsecond hsign _ =>
      simp [hfirst, hsecond, hname, hsign] at hassignment
    | print hfirst hkind _ => simp [hfirst, hkind] at hprint
    | expression _ _ h => exact ⟨rfl, h⟩
  · rintro ⟨rfl, h⟩
    exact .expression hassignment hprint h

end DerivesStatement

namespace Cursor

theorem kind_peek_place {kind : TokenKind} (hkind : kind ≠ .endOfLine) :
    (place tokens p depth).peek.kind = kind ↔ tokens[p]?.map Token.kind = some kind := by
  rw [peek_place]
  cases tokens[p]? with
  | none => simpa using hkind.symm
  | some t => simp

theorem peekNext_place (h : (place tokens p depth).atEnd = false) :
    (place tokens p depth).peekNext = (place tokens (p + 1) depth).peek := by
  rw [peekNext, h, peek, place, place, List.tail_drop]
  rfl

end Cursor

namespace Statement

theorem statement_returns_iff {c next : Cursor} {e : Evaluation} :
    (statement vars c).Returns e next ↔
      e.form = (heading c).1 ∧ (expression vars (heading c).2).Returns e.value next := by
  unfold Outcome.Returns
  rw [result_eq_ok_iff, cursor_eq_heading, and_assoc]

theorem isAssignment_place :
    isAssignment (.place tokens p depth) = true ↔
      tokens[p]?.map Token.kind = some .name ∧ tokens[p + 1]?.map Token.kind = some .equals := by
  have hname : (Cursor.place tokens p depth).peek.kind = .name ↔ _ :=
    Cursor.kind_peek_place (by decide)
  have hsign : (Cursor.place tokens (p + 1) depth).peek.kind = .equals ↔ _ :=
    Cursor.kind_peek_place (by decide)
  rw [isAssignment, Bool.and_eq_true, decide_eq_true_eq, decide_eq_true_eq, ← hname, ← hsign]
  refine and_congr_right fun hkind => ?_
  rw [Cursor.peekNext_place (atEnd_false_of_kind hkind (by decide))]

theorem heading_of_assignment {name sign : Token} (hfirst : tokens[p]? = some name)
    (hname : name.kind = .name) (hsecond : tokens[p + 1]? = some sign)
    (hsign : sign.kind = .equals) :
    heading (.place tokens p depth) = (.assignment name.text, .place tokens (p + 2) depth) := by
  have hform : isAssignment (.place tokens p depth) = true :=
    isAssignment_place.mpr (by simp [hfirst, hsecond, hname, hsign])
  have hpeek : (Cursor.place tokens p depth).peek = name := by
    rw [Cursor.peek_place, hfirst]
    rfl
  have hbehind : (Cursor.place tokens (p + 1) depth).peek = sign := by
    rw [Cursor.peek_place, hsecond]
    rfl
  rw [heading, if_pos hform, hpeek,
    Cursor.advance_place (atEnd_false_of_kind (hpeek ▸ hname) (by decide)),
    Cursor.advance_place (atEnd_false_of_kind (hbehind ▸ hsign) (by decide))]

theorem heading_of_print (hassignment : ¬ isAssignment (.place tokens p depth) = true)
    (hprint : (Cursor.place tokens p depth).peek.kind = .print) :
    heading (.place tokens p depth) = (.print, .place tokens (p + 1) depth) := by
  have heat := Cursor.eat?_eq_some_iff.mpr ⟨hprint, rfl⟩
  rw [heading, if_neg hassignment, heat,
    Cursor.advance_place (atEnd_false_of_kind hprint (by decide))]

theorem place_returns_iff {e : Evaluation} :
    (statement vars (.place tokens p depth)).Returns e (.place tokens q depth) ↔
      q ≤ tokens.length ∧ DerivesStatement vars depth tokens p q e.form e.value ∧
        ∀ op : Operator, tokens[q]? ≠ some ⟨.operator, op.symbol⟩ := by
  rw [statement_returns_iff]
  by_cases hassignment : isAssignment (.place tokens p depth) = true
  · obtain ⟨hname, hsign⟩ := isAssignment_place.mp hassignment
    obtain ⟨name, hfirst, hname⟩ := Option.map_eq_some_iff.mp hname
    obtain ⟨sign, hsecond, hsign⟩ := Option.map_eq_some_iff.mp hsign
    rw [heading_of_assignment hfirst hname hsecond hsign, expression_returns_iff,
      DerivesStatement.iff_of_assignment hfirst hname hsecond hsign]
    simp only [and_assoc, and_left_comm]
  by_cases hprint : (Cursor.place tokens p depth).peek.kind = .print
  · obtain ⟨keyword, hfirst, hkind⟩ :=
      Option.map_eq_some_iff.mp ((Cursor.kind_peek_place (by decide)).mp hprint)
    rw [heading_of_print hassignment hprint, expression_returns_iff,
      DerivesStatement.iff_of_print hfirst hkind]
    simp only [and_assoc, and_left_comm]
  · have hform := mt isAssignment_place.mpr hassignment
    have hkind := mt (Cursor.kind_peek_place (by decide)).mpr hprint
    rw [heading_of_bare hassignment hprint, expression_returns_iff,
      DerivesStatement.iff_of_bare hform hkind]
    simp only [and_assoc, and_left_comm]

end Statement

/-- From any place of any list and with any number of groups open, a rule returns a value between
two indices exactly when the tokens between them derive it and no operator that the rule goes on
with stands behind them; and so does a statement with its form. -/
theorem returns_iff_derives (vars : Variables) (tokens : List Token) (p q depth : Nat) :
    (∀ (rule : Rule) (value : Float),
      (rule.reading vars (.place tokens p depth)).Returns value (.place tokens q depth) ↔
        q ≤ tokens.length ∧ Derives vars rule depth (tokens.extract p q) value ∧
          ∀ op ∈ rule.operators, tokens[q]? ≠ some ⟨.operator, op.symbol⟩) ∧
    ∀ e : Evaluation,
      (statement vars (.place tokens p depth)).Returns e (.place tokens q depth) ↔
        q ≤ tokens.length ∧ DerivesStatement vars depth tokens p q e.form e.value ∧
          ∀ op : Operator, tokens[q]? ≠ some ⟨.operator, op.symbol⟩ := by
  constructor
  · intro rule value
    exact reading_returns_iff rule tokens p q depth value
  · intro e
    exact Statement.place_returns_iff

end LineCalculator
