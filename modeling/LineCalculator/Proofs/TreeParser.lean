import LineCalculator.Expression
import LineCalculator.Proofs.Heading
import LineCalculator.Proofs.Tree

/-!
# Parsing without values

The first of two passes. It reads the same grammar under the same limit of open groups, but knows no
variables: every rule gives the tree of what it read, with the index of the token at each variable
and each call, or the fault in form that it met. It never goes back, whether it reads or refuses.
-/
namespace LineCalculator

/-- What a rule makes of the tokens by their form alone, and the cursor where it stopped. -/
inductive Parsed (α : Type) where
  | read (x : α) (next : Cursor)
  | refused (fault : FormFault) (stop : Cursor)

namespace Parsed

variable {α β : Type}

/-- The cursor at which a parse stopped. -/
def cursor : Parsed α → Cursor
  | read _ next => next
  | refused _ stop => stop

/-- A parse that goes on from what was read; a fault ends it. -/
def andThen (r : Parsed α) (more : α → Cursor → Parsed β) : Parsed β :=
  match r with
  | read x next => more x next
  | refused fault stop => refused fault stop

theorem le_cursor_andThen {c : Cursor} {r : Parsed α} {more : α → Cursor → Parsed β}
    (h : c.position ≤ r.cursor.position)
    (hmore : ∀ x next, r = .read x next → next.position ≤ (more x next).cursor.position) :
    c.position ≤ (r.andThen more).cursor.position := by
  cases r with
  | refused fault stop => exact h
  | read x next => exact Nat.le_trans h (hmore x next rfl)

end Parsed

namespace Parser

/-- A number token, by its value. -/
def number (c : Cursor) : Parsed Tree :=
  match Number.read? c.peek.text with
  | some value => .read (.number value) c.advance
  | none => .refused (.malformedNumber c.peek.text c.position) c.advance

/-- A name token, whatever it stands for. -/
def name (c : Cursor) : Parsed Tree := .read (.name c.peek.text c.position) c.advance

/-- The closing parenthesis of a group that holds the given tree. -/
def closeGroup (tree : Tree) (c : Cursor) : Parsed Tree :=
  match c.eat? .closeParen with
  | some closed => .read tree closed.leaveGroup
  | none => .refused (.unclosedParenthesis c.position) c

/-- A group. -/
def group (inner : Cursor → Parsed Tree) (c : Cursor) : Parsed Tree :=
  match c.enterGroup with
  | .ok opened => (inner opened.advance).andThen closeGroup
  | .error fault => .refused fault c

/-- A call of a function, with the index of its name. -/
def call (inner : Cursor → Parsed Tree) (c : Cursor) : Parsed Tree :=
  match c.enterGroup with
  | .error fault => .refused fault c
  | .ok opened =>
    let named := opened.advance
    match Builtin.ofName? c.peek.text with
    | none => .refused (.unexpectedToken c.peek.display c.position) named
    | some f =>
      match named.eat? .openParen with
      | none => .refused (.expectedOpenParen f.name named.position) named
      | some argument =>
        ((inner argument).andThen closeGroup).andThen fun tree next =>
          .read (.call f c.position tree) next

/-- A factor, with the parse of what a group holds. -/
def factorWith (inner : Cursor → Parsed Tree) (c : Cursor) : Parsed Tree :=
  match c.peek.kind with
  | .number => number c
  | .name => name c
  | .openParen => group inner c
  | .function => call inner c
  | _ => .refused (.unexpectedToken c.peek.display c.position) c

/-- The operators of a tier and their right operands, grown onto a tree from the left. The first
list bounds their number. -/
def chainFrom (tier : Tier) (operand : Cursor → Parsed Tree) :
    List Token → Tree → Cursor → Parsed Tree
  | [], left, c => .read left c
  | _ :: bound, left, c =>
    match tier.operator? c.peek with
    | none => .read left c
    | some op =>
      (operand c.advance).andThen fun right next =>
        chainFrom tier operand bound (.operation op left right) next

/-- Operands joined by the operators of a tier. -/
def chain (tier : Tier) (operand : Cursor → Parsed Tree) (c : Cursor) : Parsed Tree :=
  (operand c).andThen fun left next => chainFrom tier operand next.ahead left next

/-- A term, with the parse of what a group holds. -/
def termWith (inner : Cursor → Parsed Tree) : Cursor → Parsed Tree :=
  chain .product (factorWith inner)

/-- An expression, with the parse of what a group holds. -/
def expressionWith (inner : Cursor → Parsed Tree) : Cursor → Parsed Tree :=
  chain .sum (termWith inner)

/-- What a group holds, when so many more groups may be open. -/
def groupBody : Nat → Cursor → Parsed Tree
  | 0 => fun c => .refused (.nestedTooDeep c.position) c
  | levels + 1 => expressionWith (groupBody levels)

/-- The tree of an expression. -/
def expression (c : Cursor) : Parsed Tree :=
  expressionWith (groupBody (Expression.levelsLeft c)) c

/-- The form of a statement and the tree of its expression. -/
def statement (c : Cursor) : Parsed (StatementForm × Tree) :=
  (expression (Statement.heading c).2).andThen fun tree next =>
    .read ((Statement.heading c).1, tree) next

/-- A parse that never goes back. -/
def Forward (parse : Cursor → Parsed Tree) : Prop :=
  ∀ c, c.position ≤ (parse c).cursor.position

theorem le_position_advance (c : Cursor) : c.position ≤ c.advance.position :=
  (Cursor.Reaches.advance c).position_le

theorem forward_closeGroup (tree : Tree) : Forward (closeGroup tree) := by
  intro c
  unfold closeGroup
  split
  · rename_i closed hclosed
    obtain ⟨-, rfl⟩ := Cursor.eat?_eq_some_iff.mp hclosed
    exact le_position_advance c
  · exact Nat.le_refl _

variable {inner operand : Cursor → Parsed Tree}

theorem forward_group (hinner : Forward inner) : Forward (group inner) := by
  intro c
  unfold group
  split
  · rename_i opened hopened
    obtain ⟨-, rfl⟩ := Cursor.enterGroup_eq_ok_iff.mp hopened
    have hopen : c.position ≤ c.deeper.advance.position := le_position_advance c.deeper
    refine Parsed.le_cursor_andThen (Nat.le_trans hopen (hinner _)) fun tree next _ => ?_
    exact forward_closeGroup tree next
  · exact Nat.le_refl _

theorem forward_call (hinner : Forward inner) : Forward (call inner) := by
  intro c
  unfold call
  split
  · exact Nat.le_refl _
  · rename_i opened hopened
    obtain ⟨-, rfl⟩ := Cursor.enterGroup_eq_ok_iff.mp hopened
    have hnamed : c.position ≤ c.deeper.advance.position := le_position_advance c.deeper
    dsimp only
    split
    · exact hnamed
    · split
      · exact hnamed
      · rename_i argument hargument
        obtain ⟨-, rfl⟩ := Cursor.eat?_eq_some_iff.mp hargument
        have hopen := Nat.le_trans hnamed (le_position_advance _)
        refine Parsed.le_cursor_andThen (Parsed.le_cursor_andThen
          (Nat.le_trans hopen (hinner _)) fun tree next _ => ?_) fun tree next _ => ?_
        · exact forward_closeGroup tree next
        · exact Nat.le_refl _

theorem forward_factorWith (hinner : Forward inner) : Forward (factorWith inner) := by
  intro c
  unfold factorWith
  split
  · unfold number
    split
    · exact le_position_advance c
    · exact le_position_advance c
  · exact le_position_advance c
  · exact forward_group hinner c
  · exact forward_call hinner c
  · exact Nat.le_refl _

theorem forward_chainFrom (hoperand : Forward operand) (tier : Tier) (bound : List Token)
    (left : Tree) : Forward (chainFrom tier operand bound left) := by
  induction bound generalizing left with
  | nil => exact fun c => Nat.le_refl _
  | cons t bound ih =>
    intro c
    unfold chainFrom
    split
    · exact Nat.le_refl _
    · have hnext := Nat.le_trans (le_position_advance c) (hoperand c.advance)
      exact Parsed.le_cursor_andThen hnext fun right next _ => ih _ next

theorem forward_chain (hoperand : Forward operand) (tier : Tier) :
    Forward (chain tier operand) := by
  intro c
  refine Parsed.le_cursor_andThen (hoperand c) fun left next _ => ?_
  exact forward_chainFrom hoperand tier _ left next

theorem forward_termWith (hinner : Forward inner) : Forward (termWith inner) :=
  forward_chain (forward_factorWith hinner) .product

theorem forward_expressionWith (hinner : Forward inner) : Forward (expressionWith inner) :=
  forward_chain (forward_termWith hinner) .sum

theorem forward_groupBody (levels : Nat) : Forward (groupBody levels) := by
  induction levels with
  | zero => exact fun c => Nat.le_refl _
  | succ levels ih => exact forward_expressionWith ih

end Parser

end LineCalculator
