import LineCalculator.Expression.Progress

/-!
# The equations of the grammar

The two bounds of the recursion drop out. A chain goes on exactly as long as an operator of its tier
follows, and the body of a group is an expression like any other. The three rules are therefore
determined by the equations `factor_eq`, `term_eq` and `expression_eq`, which mention no bound.
-/
namespace LineCalculator

namespace Expression

theorem chainFrom_nil_ahead {c : Cursor} (h : c.ahead = []) (tier : Tier)
    (operand : Cursor → Outcome Float) (bound : List Token) (left : Float) :
    chainFrom tier operand bound left c = .value left c := by
  have hpeek : c.peek = .endOfLine := by simp [Cursor.peek, h]
  cases bound <;> simp [chainFrom, hpeek]

/-- A bound that is no shorter than the tokens ahead does not matter. -/
theorem chainFrom_bound {tier : Tier} {operand : Cursor → Outcome Float}
    (hoperand : Progressive operand) {bound other : List Token} {c : Cursor} (left : Float)
    (hbound : c.ahead.length ≤ bound.length) (hother : c.ahead.length ≤ other.length) :
    chainFrom tier operand bound left c = chainFrom tier operand other left c := by
  induction bound generalizing other c left with
  | nil =>
    have hnil : c.ahead = [] := List.eq_nil_of_length_eq_zero (by simpa using hbound)
    rw [chainFrom_nil_ahead hnil, chainFrom_nil_ahead hnil]
  | cons t bound ih =>
    cases other with
    | nil =>
      have hnil : c.ahead = [] := List.eq_nil_of_length_eq_zero (by simpa using hother)
      rw [chainFrom_nil_ahead hnil, chainFrom_nil_ahead hnil]
    | cons u other =>
      simp only [chainFrom]
      split
      · rfl
      · rename_i op hop
        have hlength := Cursor.length_ahead_advance (atEnd_false_of_operator? hop)
        simp only [List.length_cons] at hbound hother
        refine Outcome.andThen_congr fun right hright => ?_
        have htakes := (hoperand c.advance).2 right hright
        rw [@ih other _ _ (by omega) (by omega)]

/-- What follows the first operand of a chain. -/
theorem chainFrom_ahead {tier : Tier} {operand : Cursor → Outcome Float}
    (hoperand : Progressive operand) (left : Float) (c : Cursor) :
    chainFrom tier operand c.ahead left c =
      match tier.operator? c.peek with
      | none => .value left c
      | some op =>
        (operand c.advance).andThen fun right next =>
          (chainFrom tier operand next.ahead (op.apply left right) next).after
            (.operation op left right (op.apply left right)) := by
  cases hahead : c.ahead with
  | nil =>
    have hpeek : c.peek = .endOfLine := by simp [Cursor.peek, hahead]
    simp [chainFrom, hpeek]
  | cons t rest =>
    simp only [chainFrom]
    cases hop : tier.operator? c.peek with
    | none => rfl
    | some op =>
      have hlength := Cursor.length_ahead_advance (atEnd_false_of_operator? hop)
      refine Outcome.andThen_congr fun right hright => ?_
      have htakes := (hoperand c.advance).2 right hright
      rw [hahead, List.length_cons] at hlength
      rw [chainFrom_bound hoperand _ (by omega) (Nat.le_refl _)]

/-- Chains agree whose operands agree further along the list, with as many groups open. -/
theorem chainFrom_congr {tier : Tier} {operand other : Cursor → Outcome Float}
    (hoperand : Progressive operand) {start : Cursor}
    (hagree : ∀ c : Cursor, start.Reaches c → c.depth = start.depth → operand c = other c)
    (bound : List Token) (left : Float) {c : Cursor} (hreaches : start.Reaches c)
    (hdepth : c.depth = start.depth) :
    chainFrom tier operand bound left c = chainFrom tier other bound left c := by
  induction bound generalizing left c with
  | nil => rfl
  | cons t bound ih =>
    simp only [chainFrom]
    split
    · rfl
    · rename_i op hop
      have hadvance : c.advance.depth = start.depth := by simpa using hdepth
      have hbehind := hreaches.trans (.advance c)
      rw [← hagree _ hbehind hadvance]
      refine Outcome.andThen_congr fun right hright => ?_
      have hproceeds := (hoperand c.advance).1
      rw [ih _ (hbehind.trans hproceeds.reaches) ((hproceeds.restores right hright).trans hadvance)]

theorem chain_congr {tier : Tier} {operand other : Cursor → Outcome Float}
    (hoperand : Progressive operand) {c : Cursor}
    (hagree : ∀ d : Cursor, c.Reaches d → d.depth = c.depth → operand d = other d) :
    chain tier operand c = chain tier other c := by
  unfold chain
  rw [← hagree c (.refl c) rfl]
  refine Outcome.andThen_congr fun left hleft => ?_
  have hproceeds := (hoperand c).1
  exact chainFrom_congr hoperand hagree _ left hproceeds.reaches (hproceeds.restores left hleft)

/-- Factors agree whose readings inside groups agree one group deeper, where fewer tokens are
ahead. -/
theorem factorWith_congr (vars : Variables) {inner other : Cursor → Outcome Float} {c : Cursor}
    (hagree : c.depth < maxDepth → ∀ d : Cursor, d.ahead.length < c.ahead.length →
      d.depth = c.depth + 1 → inner d = other d) :
    factorWith vars inner c = factorWith vars other c := by
  have hgroup (hend : c.atEnd = false) : group inner c = group other c := by
    unfold group
    split
    · rename_i opened hopened
      obtain ⟨hdepth, rfl⟩ := Cursor.enterGroup_eq_ok_iff.mp hopened
      rw [hagree hdepth _ (Cursor.length_ahead_deeper_advance hend) (by simp)]
    · rfl
  have hcall (hend : c.atEnd = false) : call inner c = call other c := by
    unfold call
    split
    · rfl
    · rename_i opened hopened
      obtain ⟨hdepth, rfl⟩ := Cursor.enterGroup_eq_ok_iff.mp hopened
      dsimp only
      split
      · rfl
      · split
        · rfl
        · rename_i argument hargument
          obtain ⟨-, rfl⟩ := Cursor.eat?_eq_some_iff.mp hargument
          have hlength := (Cursor.Reaches.advance c.deeper.advance).length_ahead_le
          have hbehind := Nat.lt_of_le_of_lt hlength (Cursor.length_ahead_deeper_advance hend)
          rw [hagree hdepth _ hbehind (by simp)]
  unfold factorWith
  congr 1
  cases hkind : c.peek.kind with
  | openParen => exact hgroup (atEnd_false_of_kind hkind (by decide))
  | function => exact hcall (atEnd_false_of_kind hkind (by decide))
  | _ => rfl

/-- The body of a group at a depth is an expression at that depth. -/
theorem groupBody_eq_expression (vars : Variables) {c d : Cursor} (hopen : c.depth < maxDepth)
    (hdepth : d.depth = c.depth + 1) :
    groupBody vars (levelsLeft c) d = expression vars d := by
  have hlevels : levelsLeft c = levelsLeft d + 1 := by
    unfold levelsLeft
    omega
  rw [hlevels, groupBody, expression]

theorem levelsLeft_congr {c d : Cursor} (h : d.depth = c.depth) : levelsLeft d = levelsLeft c := by
  rw [levelsLeft, h, levelsLeft]

end Expression

open Expression

/-- A factor holds expressions in its groups. -/
theorem factor_eq (vars : Variables) (c : Cursor) :
    factor vars c = factorWith vars (expression vars) c :=
  factorWith_congr vars fun hopen _ _ hdepth => groupBody_eq_expression vars hopen hdepth

/-- A term is a chain of factors. -/
theorem term_eq (vars : Variables) (c : Cursor) :
    term vars c =
      (chain .product (factor vars) c).after (.entering .term c.position c.depth) := by
  unfold term termWith
  congr 1
  refine chain_congr (progressive_factorWith vars (progressive_groupBody vars _)) fun d _ hd => ?_
  rw [factor, levelsLeft_congr hd]

/-- An expression is a chain of terms. -/
theorem expression_eq (vars : Variables) (c : Cursor) :
    expression vars c =
      (chain .sum (term vars) c).after (.entering .expression c.position c.depth) := by
  unfold expression expressionWith
  congr 1
  refine chain_congr (progressive_termWith vars (progressive_groupBody vars _)) fun d _ hd => ?_
  rw [term, levelsLeft_congr hd]

end LineCalculator
