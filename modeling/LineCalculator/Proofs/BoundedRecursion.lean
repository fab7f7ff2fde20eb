import Mathlib.Data.List.Chain
import LineCalculator.Proofs.Calls
import LineCalculator.Proofs.Descents
import LineCalculator.Proofs.Machine

/-!
# The bounds of the recursion

Each factor among the calls that are going on at once has one group more open than the one before,
so the limit on groups bounds them. And each expression inside a group has fewer tokens ahead than
the one around it, as has each operand of a chain than the one before: a recursion that is cut off
after one step more than there are tokens is never cut off.
-/
namespace LineCalculator

open Expression

/-- Calls that are going on at once, from the outermost on: each is made by the one before. -/
structure ActiveCalls (vars : Variables) (outermost : Rule × Cursor)
    (stack : List (Rule × Cursor)) : Prop where
  head : stack.head? = some outermost
  calls : stack.IsChain (Calls vars)

namespace ActiveCalls

variable {vars : Variables} {a b : Rule × Cursor}

/-- Each factor that is going on has opened a group for the next one. -/
theorem countP_factor_le {stack : List (Rule × Cursor)} (h : ActiveCalls vars a stack)
    (hdepth : a.2.depth ≤ maxDepth) :
    stack.countP (fun call => call.1 = .factor) ≤ maxDepth + 1 - a.2.depth := by
  induction stack generalizing a with
  | nil => exact Nat.zero_le _
  | cons call stack ih =>
    obtain ⟨hhead, hcalls⟩ := h
    cases hhead
    cases stack with
    | nil =>
      have hone : [call].countP (fun call => call.1 = .factor) ≤ 1 := List.countP_le_length
      omega
    | cons inner stack =>
      obtain ⟨hcall, hrest⟩ := List.isChain_cons_cons.mp hcalls
      have hinner := ih ⟨rfl, hrest⟩ (hcall.depth_le hdepth)
      rw [List.countP_cons]
      by_cases hfactor : call.1 = .factor
      · obtain ⟨hopen, hdeeper⟩ := hcall.depth.1 hfactor
        simp only [hfactor, decide_true, if_true]
        omega
      · have hsame := hcall.depth.2 hfactor
        simp only [hfactor, decide_false, Bool.false_eq_true, if_false, Nat.add_zero]
        omega

/-- Where calls lead there are calls that are going on. -/
theorem exists_of_leads (h : Leads vars a b) :
    ∃ stack, ActiveCalls vars a stack ∧ stack.getLast? = some b := by
  obtain ⟨stack, hcalls, hlast⟩ := List.exists_isChain_cons_of_relationReflTransGen h
  exact ⟨a :: stack, ⟨rfl, hcalls⟩, hlast ▸ List.getLast?_eq_some_getLast _⟩

end ActiveCalls

/-- Every rule that is entered on the way to an outcome is the innermost of calls that are going on
then, the first of them the given one; and among such calls there are at most so many factors. -/
structure Outcome.CallsWithin {α : Type} (o : Outcome α) (vars : Variables)
    (outermost : Rule × Cursor) (limit : Nat) : Prop where
  active : ∀ rule position depth, .entering rule position depth ∈ o.events →
    ∃ stack d, ActiveCalls vars outermost stack ∧ stack.getLast? = some (rule, d) ∧
      d.position = position ∧ d.depth = depth
  factors_le : ∀ stack, ActiveCalls vars outermost stack →
    stack.countP (fun call => call.1 = .factor) ≤ limit

theorem callsWithin_reading (vars : Variables) (rule : Rule) {c : Cursor}
    (hdepth : c.depth ≤ maxDepth) :
    (rule.reading vars c).CallsWithin vars (rule, c) (maxDepth + 1 - c.depth) := by
  refine ⟨fun r position depth hentered => ?_, fun stack hstack => hstack.countP_factor_le hdepth⟩
  obtain ⟨d, hleads, hplace⟩ := entering_mem_iff.mp hentered
  obtain ⟨stack, hactive, hlast⟩ := ActiveCalls.exists_of_leads hleads
  exact ⟨stack, d, hactive, hlast, hplace⟩

/-- What a statement enters, its expression enters. -/
theorem Statement.entering_mem {vars : Variables} {c : Cursor} {rule : Rule}
    {position depth : Nat} (h : .entering rule position depth ∈ (statement vars c).events) :
    .entering rule position depth ∈ (expression vars (heading c).2).events := by
  cases hresult : (statement vars c).result with
  | error fault =>
    rw [events_of_error hresult] at h
    exact (List.mem_cons.mp h).resolve_left nofun
  | ok e =>
    rw [events_of_ok hresult] at h
    obtain hread | hleftOver := List.mem_append.mp ((List.mem_cons.mp h).resolve_left nofun)
    · obtain hexpression | hannounced := List.mem_append.mp hread
      · exact hexpression
      · cases Evaluation.isClosing_of_mem hannounced
    · cases Cursor.isClosing_of_mem hleftOver

/-- Of a statement, the expression is the outermost call. -/
theorem callsWithin_statement (vars : Variables) {c : Cursor} (hdepth : c.depth ≤ maxDepth) :
    (statement vars c).CallsWithin vars (.expression, (Statement.heading c).2)
      (maxDepth + 1 - c.depth) := by
  have hheading := depth_heading c
  have hexpression := callsWithin_reading vars .expression (hheading ▸ hdepth)
  rw [hheading] at hexpression
  refine ⟨fun r position depth hentered => ?_, hexpression.factors_le⟩
  exact hexpression.active r position depth (Statement.entering_mem hentered)

section Within

variable (vars : Variables) (beyond : Cursor → Outcome Float)

/-- The operators of a tier and their right operands, in a recursion that is cut off after so many
steps: what lies beyond them is read in some other way. -/
def chainFromWithin (tier : Tier) (operand : Cursor → Outcome Float) :
    Nat → Float → Cursor → Outcome Float
  | 0, _, c => beyond c
  | steps + 1, left, c =>
    match tier.operator? c.peek with
    | none => .value left c
    | some op =>
      (operand c.advance).andThen fun right next =>
        let result := op.apply left right
        (chainFromWithin tier operand steps result next).after (.operation op left right result)

/-- Operands joined by the operators of a tier, in a recursion that is cut off. -/
def chainWithin (tier : Tier) (operand : Cursor → Outcome Float) (steps : Nat) (c : Cursor) :
    Outcome Float :=
  (operand c).andThen fun left next => chainFromWithin beyond tier operand steps left next

/-- A rule in a recursion that is cut off after so many steps. A group takes one, and so does each
operator of a chain. -/
def Rule.within : Nat → Rule → Cursor → Outcome Float
  | 0, _, c => beyond c
  | steps + 1, rule, c =>
    let factor := factorWith vars (within steps .expression)
    let term (d : Cursor) := (chainWithin beyond .product factor steps d).after
      (.entering .term d.position d.depth)
    match rule with
    | .expression => (chainWithin beyond .sum term steps c).after
        (.entering .expression c.position c.depth)
    | .term => term c
    | .factor => factor c

variable {vars} {tier : Tier} {operand other : Cursor → Outcome Float} {steps length : Nat}

theorem chainFromWithin_eq (hoperand : Progressive operand)
    (hagree : ∀ d : Cursor, d.ahead.length ≤ length → other d = operand d) (left : Float)
    {c : Cursor} (hlength : c.ahead.length ≤ length) (hsteps : c.ahead.length < steps) :
    chainFromWithin beyond tier other steps left c =
      chainFrom tier operand c.ahead left c := by
  induction steps generalizing left c with
  | zero => exact absurd hsteps (Nat.not_lt_zero _)
  | succ steps ih =>
    rw [chainFrom_ahead hoperand, chainFromWithin]
    cases hop : tier.operator? c.peek with
    | none => rfl
    | some op =>
      have hadvance := Cursor.length_ahead_advance (atEnd_false_of_operator? hop)
      dsimp only
      rw [hagree _ (by omega)]
      refine Outcome.andThen_congr fun right hright => ?_
      have htakes := (hoperand c.advance).2 right hright
      rw [ih _ (by omega) (by omega)]

theorem chainWithin_eq (hoperand : Progressive operand)
    (hagree : ∀ d : Cursor, d.ahead.length ≤ steps → other d = operand d)
    {c : Cursor} (hsteps : c.ahead.length ≤ steps) :
    chainWithin beyond tier other steps c = chain tier operand c := by
  unfold chainWithin chain
  rw [hagree c hsteps]
  refine Outcome.andThen_congr fun left hleft => ?_
  have htakes := (hoperand c).2 left hleft
  exact chainFromWithin_eq beyond hoperand hagree left (by omega) (by omega)

/-- A recursion that is cut off after one step more than there are tokens ahead is never cut off,
whatever would be done there. -/
theorem within_eq_reading (rule : Rule) {c : Cursor} (hsteps : c.ahead.length < steps) :
    rule.within vars beyond steps c = rule.reading vars c := by
  induction steps generalizing rule c with
  | zero => exact absurd hsteps (Nat.not_lt_zero _)
  | succ steps ih =>
    have hfactor (d : Cursor) (hd : d.ahead.length ≤ steps) :
        factorWith vars (Rule.within vars beyond steps .expression) d = factor vars d := by
      rw [factor_eq]
      exact factorWith_congr vars fun _ e he _ => ih .expression (Nat.lt_of_lt_of_le he hd)
    have hterm (d : Cursor) (hd : d.ahead.length ≤ steps) :
        (chainWithin beyond .product (factorWith vars (Rule.within vars beyond steps .expression))
          steps d).after (.entering .term d.position d.depth) = term vars d := by
      rw [term_eq, chainWithin_eq beyond (progressive_factor vars) hfactor hd]
    have hlength := Nat.le_of_lt_succ hsteps
    cases rule with
    | factor => exact hfactor c hlength
    | term => exact hterm c hlength
    | expression =>
      simp only [Rule.within, Rule.reading]
      rw [expression_eq, chainWithin_eq beyond (progressive_term vars) hterm hlength]

end Within

/-- Nothing is read twice: the factors are entered at increasing indices between the start and the
end of the reading, each expression and each term right before its first operand. The rules are
called no deeper than the limit on groups allows, counting from those that are open at the start. So
a recursion that is cut off after one step more than there are tokens is never cut off. All of this
holds of any list of tokens, whether it has an end of line or not, and of a reading that fails. -/
theorem reading_is_bounded_by_tokens (vars : Variables) (tokens : List Token) (start : Nat)
    {depth : Nat} (hdepth : depth ≤ maxDepth) :
    let c := Cursor.place tokens start depth
    let right := (Statement.heading c).2
    let limit := maxDepth + 1 - depth
    let steps := tokens.length - start + 1
    (∀ rule : Rule, (rule.reading vars c).Advances start ∧
      (rule.reading vars c).CallsWithin vars (rule, c) limit ∧
      ∀ beyond, rule.within vars beyond steps c = rule.reading vars c) ∧
    (statement vars c).Advances start ∧
    (statement vars c).CallsWithin vars (.expression, right) limit ∧
    ∀ beyond, Rule.expression.within vars beyond steps right = expression vars right := by
  intro c right limit steps
  have hlength : c.ahead.length < steps := by simp [c, steps, Cursor.place]
  have hright : right.ahead.length < steps :=
    Nat.lt_of_le_of_lt (Statement.moves_heading c).reaches.length_ahead_le hlength
  have hdepthRight : right.depth = depth := depth_heading c
  refine ⟨fun rule => ⟨advances_reading vars rule c, callsWithin_reading vars rule hdepth,
    fun beyond => within_eq_reading beyond rule hlength⟩, advances_statement vars c, ?_,
    fun beyond => within_eq_reading beyond .expression hright⟩
  exact callsWithin_statement vars hdepth

/-- With 127 groups open there may be two factors at once: a sum whose second term opens a group and
leaves it open, and the factor in that group. -/
theorem sum_before_last_group :
    let vars : Variables := (∅ : Variables).insert "x" 1
    let x : Token := ⟨.name, "x"⟩
    let c := Cursor.place [x, Operator.add.token, .opening, x] 0 127
    let o := expression vars c
    o.result = .error (.form (.unclosedParenthesis 4)) ∧
      o.entries = descents [(.expression, 0), (.term, 2), (.expression, 3)] ∧
      o.Advances 0 ∧ o.CallsWithin vars (.expression, c) 2 ∧
      ∀ beyond, Rule.expression.within vars beyond 5 c = o := by
  have hbounded := (reading_is_bounded_by_tokens ((∅ : Variables).insert "x" 1)
    [⟨.name, "x"⟩, Operator.add.token, .opening, ⟨.name, "x"⟩] 0
    (show 127 ≤ maxDepth by decide)).1 .expression
  exact ⟨rfl, rfl, hbounded⟩

end LineCalculator
