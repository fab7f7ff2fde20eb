import LineCalculator.Event
import LineCalculator.Proofs.Numeral
import LineCalculator.Proofs.Tree

/-!
# Formulas and their tokens

A formula is what one wants to write: literals and names, the five operators and the root, with no
parentheses of its own. Its tokens have them exactly where the grammar needs them: around a sum on
the right of `+` and `-`, around a sum on the left of `*`, `/` and `^`, and around anything with an
operator on their right. Its tree keeps the indices that its names and roots have in these tokens.
-/
namespace LineCalculator

/-- The text of a literal. -/
structure Literal where
  text : String
  characters : ∀ c ∈ text.toList, isNumeral c = true
  numeral : Number.IsNumeral text.toList

namespace Literal

def token (l : Literal) : Token := ⟨.number, l.text⟩

/-- The number that a literal stands for. -/
def value (l : Literal) : Float :=
  (Number.read? l.text).get (Number.read?_isSome l.characters l.numeral)

theorem read?_text (l : Literal) : Number.read? l.text = some l.value := by
  simp [value]

theorem text_ne_empty (l : Literal) : l.text ≠ "" := by
  intro h
  obtain ⟨c, hc, -⟩ := l.numeral.1
  rw [h] at hc
  cases hc

end Literal

/-- The text of a name: letters, and no keyword. -/
structure VariableName where
  text : String
  ne_empty : text ≠ ""
  letters : ∀ c ∈ text.toList, isLetter c = true
  ne_root : text ≠ "root"
  ne_print : text ≠ "print"

def VariableName.token (n : VariableName) : Token := ⟨.name, n.text⟩

def Operator.token (op : Operator) : Token := ⟨.operator, op.symbol⟩

def Builtin.token (f : Builtin) : Token := ⟨.function, f.name⟩

namespace Token

def opening : Token := ⟨.openParen, "("⟩

def closing : Token := ⟨.closeParen, ")"⟩

variable {t : Token}

theorem not_joins_left (hnumber : t.kind ≠ .number) (hword : ¬ t.IsWord) (u : Token) :
    ¬ t.Joins u := by
  simp [Joins, hnumber, hword]

theorem not_joins_right (hnumber : t.kind ≠ .number) (hword : ¬ t.IsWord) (u : Token) :
    ¬ u.Joins t := by
  simp [Joins, hnumber, hword]

end Token

/-- Tokens between parentheses. -/
def grouped (tokens : List Token) : List Token := .opening :: tokens ++ [.closing]

/-- What one rule reads stands in the place of another without parentheses. -/
def Rule.fits : Rule → Rule → Bool
  | .factor, _ => true
  | .term, .factor => false
  | .term, _ => true
  | .expression, .expression => true
  | .expression, _ => false

theorem Rule.fits_expression (rule : Rule) : rule.fits .expression = true := by
  cases rule <;> rfl

/-- The rule of the left operands of a tier. -/
def Tier.leftPlace : Tier → Rule
  | .sum => .expression
  | .product => .term

/-- The rule of the right operands of a tier. -/
def Tier.rightPlace : Tier → Rule
  | .sum => .term
  | .product => .factor

/-- An expression without its parentheses and without places. -/
inductive Formula where
  | literal (l : Literal)
  | name (n : VariableName)
  | operation (op : Operator) (left right : Formula)
  | root (argument : Formula)

namespace Formula

/-- The rule that reads the tokens of a formula. -/
def rule : Formula → Rule
  | operation op _ _ => op.tier.leftPlace
  | _ => .factor

/-- The tokens of a formula. -/
def tokens : Formula → List Token
  | literal l => [l.token]
  | name n => [n.token]
  | operation op left right =>
    (if left.rule.fits op.tier.leftPlace then left.tokens else grouped left.tokens) ++ op.token ::
      if right.rule.fits op.tier.rightPlace then right.tokens else grouped right.tokens
  | root argument => Builtin.root.token :: grouped argument.tokens

/-- The tokens of a formula in a place of the grammar. -/
def tokensAt (f : Formula) (place : Rule) : List Token :=
  if f.rule.fits place then f.tokens else grouped f.tokens

/-- The tree of a formula whose tokens start at an index; in parentheses they start one later. -/
def tree : Formula → Nat → Tree
  | literal l, _ => .number l.value
  | name n, position => .name n.text position
  | operation op left right, position =>
    let behind := position + (left.tokensAt op.tier.leftPlace).length + 1
    .operation op
      (left.tree (if left.rule.fits op.tier.leftPlace then position else position + 1))
      (right.tree (if right.rule.fits op.tier.rightPlace then behind else behind + 1))
  | root argument, position => .call .root position (argument.tree (position + 2))

theorem tokens_operation (op : Operator) (left right : Formula) :
    (operation op left right).tokens =
      left.tokensAt op.tier.leftPlace ++ op.token :: right.tokensAt op.tier.rightPlace := rfl

end Formula

/-- Tokens put together from single ones by operators, parentheses and calls. -/
inductive Composed : List Token → Prop where
  | literal (l : Literal) : Composed [l.token]
  | name (n : VariableName) : Composed [n.token]
  | operation {left right : List Token} (op : Operator) (hleft : Composed left)
      (hright : Composed right) : Composed (left ++ op.token :: right)
  | group {inside : List Token} (h : Composed inside) : Composed (grouped inside)
  | call {inside : List Token} (f : Builtin) (h : Composed inside) :
      Composed (f.token :: grouped inside)

namespace Formula

theorem tokensAt_of_composed {f : Formula} (h : Composed f.tokens) (place : Rule) :
    Composed (f.tokensAt place) := by
  unfold tokensAt
  split
  · exact h
  · exact h.group

theorem composed (f : Formula) : Composed f.tokens := by
  induction f with
  | literal l => exact .literal l
  | name n => exact .name n
  | operation op left right ihleft ihright =>
    rw [tokens_operation]
    exact .operation op (tokensAt_of_composed ihleft _) (tokensAt_of_composed ihright _)
  | root argument ih => exact .call .root ih

theorem composed_tokensAt (f : Formula) (place : Rule) : Composed (f.tokensAt place) :=
  tokensAt_of_composed f.composed place

end Formula

namespace Composed

variable {tokens : List Token}

theorem wellShaped (h : Composed tokens) : ∀ t ∈ tokens, t.WellShaped := by
  have hopening : Token.opening.WellShaped := rfl
  have hclosing : Token.closing.WellShaped := rfl
  induction h with
  | literal l =>
    simp only [List.mem_singleton, forall_eq]
    exact ⟨l.text_ne_empty, l.characters⟩
  | name n =>
    simp only [List.mem_singleton, forall_eq]
    exact ⟨n.ne_empty, n.letters, n.ne_root, n.ne_print⟩
  | operation op _ _ ihleft ihright =>
    have hop : op.token.WellShaped := by
      cases op <;> simp [Operator.token, Token.WellShaped, Operator.symbol]
    simpa [or_imp, forall_and, hop] using ⟨ihleft, ihright⟩
  | group _ ih => simpa [grouped, or_imp, forall_and, hopening, hclosing] using ih
  | call f _ ih =>
    have hname : f.token.WellShaped := by cases f; rfl
    simpa [grouped, or_imp, forall_and, hopening, hclosing, hname] using ih

theorem isChain_grouped {inside : List Token} (h : inside.IsChain fun t u => ¬ t.Joins u) :
    (grouped inside).IsChain fun t u => ¬ t.Joins u := by
  refine List.isChain_cons.mpr ⟨fun u _ => ?_, List.isChain_append.mpr ⟨h, ?_, ?_⟩⟩
  · exact Token.not_joins_left (by decide) (by decide) u
  · exact List.isChain_singleton _
  · intro t _ u hu
    obtain rfl : Token.closing = u := by simpa using hu
    exact Token.not_joins_right (by decide) (by decide) t

/-- No two neighbours are one run, so that blanks may be left out everywhere. -/
theorem isChain (h : Composed tokens) : tokens.IsChain fun t u => ¬ t.Joins u := by
  induction h with
  | literal l => exact List.isChain_singleton _
  | name n => exact List.isChain_singleton _
  | operation op _ _ ihleft ihright =>
    have hnumber : op.token.kind ≠ .number := by simp [Operator.token]
    have hword : ¬ op.token.IsWord := by simp [Operator.token, Token.IsWord]
    refine List.isChain_append.mpr ⟨ihleft, List.isChain_cons.mpr ⟨?_, ihright⟩, ?_⟩
    · exact fun u _ => Token.not_joins_left hnumber hword u
    · intro t _ u hu
      obtain rfl : op.token = u := by simpa using hu
      exact Token.not_joins_right hnumber hword t
  | group _ ih => exact isChain_grouped ih
  | call f _ ih =>
    refine List.isChain_cons.mpr ⟨?_, isChain_grouped ih⟩
    intro u hu
    obtain rfl : Token.opening = u := by simpa [grouped] using hu
    exact Token.not_joins_right (by decide) (by decide) f.token

/-- No sign of equality and no keyword of a statement is among the tokens. -/
theorem kind_ne (h : Composed tokens) : ∀ t ∈ tokens, t.kind ≠ .equals ∧ t.kind ≠ .print := by
  induction h with
  | literal l => simp [Literal.token]
  | name n => simp [VariableName.token]
  | operation op _ _ ihleft ihright =>
    intro t ht
    rcases List.mem_append.mp ht with hmem | hmem
    · exact ihleft t hmem
    · rcases List.mem_cons.mp hmem with rfl | hmem
      · simp [Operator.token]
      · exact ihright t hmem
  | group _ ih => simpa [grouped, or_imp, forall_and, Token.opening, Token.closing] using ih
  | call f _ ih =>
    simpa [grouped, or_imp, forall_and, Token.opening, Token.closing, Builtin.token] using ih

end Composed

end LineCalculator
