import LineCalculator.Proofs.Spelling

/-!
# The attributed grammar

A left-recursive grammar of token lists in which every derivation carries its value:

    expression := term | expression ("+" | "-") term
    term       := factor | term ("*" | "/" | "^") factor
    factor     := number | name | "(" expression ")" | "root" "(" expression ")"

The readings return exactly the values that are derived from the tokens they take, where the token
behind them must not go on with the same rule.
-/
namespace LineCalculator

/-- A rule takes the tokens for a value, with so many groups open around them. -/
inductive Derives (vars : Variables) : Rule → Nat → List Token → Float → Prop where
  | number {depth : Nat} {t : Token} {value : Float} (hkind : t.kind = .number)
      (hread : Number.read? t.text = some value) : Derives vars .factor depth [t] value
  | name {depth : Nat} {t : Token} {value : Float} (hkind : t.kind = .name)
      (hbound : vars[t.text]? = some value) : Derives vars .factor depth [t] value
  | group {depth : Nat} {opening closing : Token} {body : List Token} {value : Float}
      (hopening : opening.kind = .openParen) (hclosing : closing.kind = .closeParen)
      (hdepth : depth < maxDepth) (hbody : Derives vars .expression (depth + 1) body value) :
      Derives vars .factor depth (opening :: body ++ [closing]) value
  | call {depth : Nat} {name opening closing : Token} {body : List Token} {argument : Float}
      (hkind : name.kind = .function) (hname : name.text = "root")
      (hopening : opening.kind = .openParen) (hclosing : closing.kind = .closeParen)
      (hdepth : depth < maxDepth) (hbody : Derives vars .expression (depth + 1) body argument)
      (hargument : ¬ argument < 0) :
      Derives vars .factor depth (name :: opening :: body ++ [closing]) argument.sqrt
  | factor {depth : Nat} {tokens : List Token} {value : Float}
      (h : Derives vars .factor depth tokens value) : Derives vars .term depth tokens value
  | product {depth : Nat} {tokens more : List Token} {op : Operator} {left right : Float}
      (hleft : Derives vars .term depth tokens left) (hop : op ∈ [.mul, .div, .pow])
      (hright : Derives vars .factor depth more right) :
      Derives vars .term depth (tokens ++ ⟨.operator, op.symbol⟩ :: more) (op.apply left right)
  | term {depth : Nat} {tokens : List Token} {value : Float}
      (h : Derives vars .term depth tokens value) : Derives vars .expression depth tokens value
  | sum {depth : Nat} {tokens more : List Token} {op : Operator} {left right : Float}
      (hleft : Derives vars .expression depth tokens left) (hop : op ∈ [.add, .sub])
      (hright : Derives vars .term depth more right) :
      Derives vars .expression depth (tokens ++ ⟨.operator, op.symbol⟩ :: more)
        (op.apply left right)

namespace Rule

/-- The reading of a rule. -/
def reading (vars : Variables) : Rule → Cursor → Outcome Float
  | expression => LineCalculator.expression vars
  | term => LineCalculator.term vars
  | factor => LineCalculator.factor vars

/-- The operators that a rule goes on with. -/
def operators : Rule → List Operator
  | expression => [.add, .sub, .mul, .div, .pow]
  | term => [.mul, .div, .pow]
  | factor => []

end Rule

theorem Tier.operator?_eq_some_iff_eq {tier : Tier} {t : Token} {op : Operator} :
    tier.operator? t = some op ↔ t = ⟨.operator, op.symbol⟩ ∧ op.tier = tier := by
  rw [Tier.operator?_eq_some_iff]
  constructor
  · rintro ⟨hop, htier⟩
    have hkind := Token.kind_of_operator? hop
    simp only [Token.operator?, hkind, if_true, Operator.ofSymbol?_eq_some_iff] at hop
    refine ⟨?_, htier⟩
    cases t
    simp_all
  · rintro ⟨rfl, htier⟩
    exact ⟨by simp [Token.operator?], htier⟩

theorem Tier.operator?_eq_none_iff_ne {tier : Tier} {t : Token} :
    tier.operator? t = none ↔ ∀ op : Operator, op.tier = tier → t ≠ ⟨.operator, op.symbol⟩ := by
  constructor
  · intro hnone op htier ht
    have hsome := Tier.operator?_eq_some_iff_eq.mpr ⟨ht, htier⟩
    rw [hnone] at hsome
    cases hsome
  · intro h
    cases hop : tier.operator? t with
    | none => rfl
    | some op =>
      obtain ⟨ht, htier⟩ := Tier.operator?_eq_some_iff_eq.mp hop
      exact absurd ht (h op htier)

namespace Derives

variable {vars : Variables} {rule : Rule} {depth : Nat} {tokens : List Token} {value : Float}

theorem ne_nil (h : Derives vars rule depth tokens value) : tokens ≠ [] := by
  induction h with
  | number | name | group | call => simp
  | factor _ ih => exact ih
  | product | sum => simp
  | term _ ih => exact ih

/-- Derived tokens spell a tree that evaluates to the value, wherever they stand. -/
theorem exists_tree (h : Derives vars rule depth tokens value) (position : Nat) :
    ∃ tree, Spells rule depth position tokens tree ∧ tree.eval vars = .ok value := by
  induction h generalizing position with
  | @number _ t value hkind hread => exact ⟨.number value, .number hkind hread, rfl⟩
  | @name _ t value hkind hbound =>
    exact ⟨.name t.text position, .name hkind, Variables.lookup_eq_ok_iff.mpr hbound⟩
  | group hopening hclosing hdepth _ ih =>
    obtain ⟨tree, hspells, heval⟩ := ih (position + 1)
    exact ⟨tree, .group hopening hclosing hdepth hspells, heval⟩
  | @call _ _ _ _ _ argument hkind hname hopening hclosing hdepth _ hargument ih =>
    obtain ⟨tree, hspells, heval⟩ := ih (position + 2)
    refine ⟨_, .call hkind hname hopening hclosing hdepth hspells, ?_⟩
    rw [Tree.eval_call_ok heval]
    simp only [Builtin.apply, Builtin.squareRoot, if_neg hargument]
  | factor _ ih =>
    obtain ⟨tree, hspells, heval⟩ := ih position
    exact ⟨tree, .factor hspells, heval⟩
  | @product depth tokens more op left right _ hop _ ihleft ihright =>
    obtain ⟨l, hl, hleft⟩ := ihleft position
    obtain ⟨r, hr, hright⟩ := ihright (position + tokens.length + 1)
    have htier : op.tier = .product := by cases op <;> simp_all [Operator.tier]
    have hsign := Tier.operator?_eq_some_iff_eq.mpr ⟨rfl, htier⟩
    exact ⟨_, .product hl hsign hr, Tree.eval_operation_ok hleft hright⟩
  | term _ ih =>
    obtain ⟨tree, hspells, heval⟩ := ih position
    exact ⟨tree, .term hspells, heval⟩
  | @sum depth tokens more op left right _ hop _ ihleft ihright =>
    obtain ⟨l, hl, hleft⟩ := ihleft position
    obtain ⟨r, hr, hright⟩ := ihright (position + tokens.length + 1)
    have htier : op.tier = .sum := by cases op <;> simp_all [Operator.tier]
    have hsign := Tier.operator?_eq_some_iff_eq.mpr ⟨rfl, htier⟩
    exact ⟨_, .sum hl hsign hr, Tree.eval_operation_ok hleft hright⟩

end Derives

end LineCalculator
