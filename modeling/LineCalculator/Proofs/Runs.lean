import LineCalculator.Expression.Equations
import LineCalculator.Proofs.AttributedGrammar
import LineCalculator.Proofs.Formula

/-!
# Runs of the rules

The pass over the tokens is taken apart into the parts of the grammar, and each part into the ways
in which it can end, with a value or with a fault. A chain is taken from the left: it has read an
operand, and goes on with one operator and one operand at a time. Every reading is such a run, so
that what holds of the outcome of each way holds of every reading; and there is no other run.
-/
namespace LineCalculator

open Expression

/-- The parts of the grammar of expressions. -/
inductive Part where
  | rule (rule : Rule)
  /-- A factor without the report that it is entered. -/
  | alternative
  /-- What a group holds, and its closing parenthesis. -/
  | body
  /-- The operands of a tier that have been read, with the operators between them. -/
  | chain (tier : Tier)

/-- The ways from a cursor through a part of the grammar. -/
inductive Runs (vars : Variables) : Part → Cursor → Outcome Float → Prop where
  | number {c : Cursor} {x : Float} (hkind : c.peek.kind = .number)
      (hread : Number.read? c.peek.text = some x) :
      Runs vars .alternative c ((Outcome.value x c.advance).after (.number x))
  | malformed {c : Cursor} (hkind : c.peek.kind = .number)
      (hread : Number.read? c.peek.text = none) :
      Runs vars .alternative c (.formFault (.malformedNumber c.peek.text c.position) c.advance)
  | variableRead {c : Cursor} {x : Float} (hkind : c.peek.kind = .name)
      (hvalue : vars[c.peek.text]? = some x) :
      Runs vars .alternative c
        ((Outcome.value x c.advance).after (.variableRead c.peek.text x))
  | undefined {c : Cursor} (hkind : c.peek.kind = .name) (hnone : vars[c.peek.text]? = none) :
      Runs vars .alternative c (.valueFault (.undefinedVariable c.peek.text c.position) c)
  | unexpected {c : Cursor} (hkind : c.peek.kind ∉ [.number, .name, .openParen, .function]) :
      Runs vars .alternative c (.formFault (.unexpectedToken c.peek.display c.position) c)
  | tooDeep {c : Cursor} (hkind : c.peek.kind ∈ [.openParen, .function])
      (hdepth : maxDepth ≤ c.depth) :
      Runs vars .alternative c (.formFault (.nestedTooDeep c.position) c)
  | group {c : Cursor} {o : Outcome Float} (hkind : c.peek.kind = .openParen)
      (hdepth : c.depth < maxDepth) (h : Runs vars .body c.deeper.advance o) :
      Runs vars .alternative c o
  | unknown {c : Cursor} (hkind : c.peek.kind = .function) (hdepth : c.depth < maxDepth)
      (hname : Builtin.ofName? c.peek.text = none) :
      Runs vars .alternative c
        (.formFault (.unexpectedToken c.peek.display c.position) c.deeper.advance)
  | unopened {c : Cursor} {f : Builtin} (hkind : c.peek.kind = .function)
      (hdepth : c.depth < maxDepth) (hname : Builtin.ofName? c.peek.text = some f)
      (hopen : c.deeper.advance.peek.kind ≠ .openParen) :
      Runs vars .alternative c
        (.formFault (.expectedOpenParen f.name c.deeper.advance.position) c.deeper.advance)
  | unargued {c : Cursor} {f : Builtin} {o : Outcome Float} {fault : Fault}
      (hkind : c.peek.kind = .function) (hdepth : c.depth < maxDepth)
      (hname : Builtin.ofName? c.peek.text = some f)
      (hopen : c.deeper.advance.peek.kind = .openParen)
      (h : Runs vars .body c.deeper.advance.advance o) (hfault : o.result = .error fault) :
      Runs vars .alternative c o
  | refused {c : Cursor} {f : Builtin} {o : Outcome Float} {x : Float} {fault : ValueFault}
      (hkind : c.peek.kind = .function) (hdepth : c.depth < maxDepth)
      (hname : Builtin.ofName? c.peek.text = some f)
      (hopen : c.deeper.advance.peek.kind = .openParen)
      (h : Runs vars .body c.deeper.advance.advance o) (hvalue : o.result = .ok x)
      (happly : f.apply x c.position = .error fault) :
      Runs vars .alternative c ⟨.error (.value fault), o.cursor, o.events⟩
  | called {c : Cursor} {f : Builtin} {o : Outcome Float} {x y : Float}
      (hkind : c.peek.kind = .function) (hdepth : c.depth < maxDepth)
      (hname : Builtin.ofName? c.peek.text = some f)
      (hopen : c.deeper.advance.peek.kind = .openParen)
      (h : Runs vars .body c.deeper.advance.advance o) (hvalue : o.result = .ok x)
      (happly : f.apply x c.position = .ok y) :
      Runs vars .alternative c ⟨.ok y, o.cursor, o.events ++ [.call f x y]⟩
  | unfilled {c : Cursor} {o : Outcome Float} {fault : Fault}
      (h : Runs vars (.rule .expression) c o) (hfault : o.result = .error fault) :
      Runs vars .body c o
  | unclosed {c : Cursor} {o : Outcome Float} {x : Float}
      (h : Runs vars (.rule .expression) c o) (hvalue : o.result = .ok x)
      (hclose : o.cursor.peek.kind ≠ .closeParen) :
      Runs vars .body c
        ⟨.error (.form (.unclosedParenthesis o.cursor.position)), o.cursor, o.events⟩
  | closed {c : Cursor} {o : Outcome Float} {x : Float}
      (h : Runs vars (.rule .expression) c o) (hvalue : o.result = .ok x)
      (hclose : o.cursor.peek.kind = .closeParen) :
      Runs vars .body c ⟨.ok x, o.cursor.advance.leaveGroup, o.events⟩
  | operand {tier : Tier} {c : Cursor} {o : Outcome Float}
      (h : Runs vars (.rule tier.rightPlace) c o) : Runs vars (.chain tier) c o
  | halted {tier : Tier} {op : Operator} {c : Cursor} {o p : Outcome Float} {left : Float}
      {fault : Fault} (h : Runs vars (.chain tier) c o) (hleft : o.result = .ok left)
      (hop : tier.operator? o.cursor.peek = some op)
      (hright : Runs vars (.rule tier.rightPlace) o.cursor.advance p)
      (hfault : p.result = .error fault) :
      Runs vars (.chain tier) c ⟨.error fault, p.cursor, o.events ++ p.events⟩
  | operation {tier : Tier} {op : Operator} {c : Cursor} {o p : Outcome Float}
      {left right : Float} (h : Runs vars (.chain tier) c o) (hleft : o.result = .ok left)
      (hop : tier.operator? o.cursor.peek = some op)
      (hright : Runs vars (.rule tier.rightPlace) o.cursor.advance p)
      (hvalue : p.result = .ok right) :
      Runs vars (.chain tier) c ⟨.ok (op.apply left right), p.cursor,
        o.events ++ p.events ++ [.operation op left right (op.apply left right)]⟩
  | factor {c : Cursor} {o : Outcome Float} (h : Runs vars .alternative c o) :
      Runs vars (.rule .factor) c (o.after (.entering .factor c.position c.depth))
  | joined {tier : Tier} {c : Cursor} {o : Outcome Float} (h : Runs vars (.chain tier) c o)
      (hstop : ∀ x, o.result = .ok x → tier.operator? o.cursor.peek = none) :
      Runs vars (.rule tier.leftPlace) c
        (o.after (.entering tier.leftPlace c.position c.depth))

namespace Runs

variable {vars : Variables} {c : Cursor} {o : Outcome Float}

theorem andThen_closeGroup (h : Runs vars (.rule .expression) c o) :
    Runs vars .body c (o.andThen closeGroup) := by
  cases hresult : o.result with
  | error fault =>
    rw [Outcome.andThen_error hresult, ← hresult]
    exact .unfilled h hresult
  | ok x =>
    rw [Outcome.andThen_ok hresult]
    unfold closeGroup Cursor.eat?
    by_cases hclose : o.cursor.peek.kind = .closeParen
    · simp only [if_pos hclose, Outcome.value, List.append_nil]
      exact .closed h hresult hclose
    · simp only [if_neg hclose, Outcome.formFault, List.append_nil]
      exact .unclosed h hresult hclose

theorem andThen_applyAt {f : Builtin} (hkind : c.peek.kind = .function)
    (hdepth : c.depth < maxDepth) (hname : Builtin.ofName? c.peek.text = some f)
    (hopen : c.deeper.advance.peek.kind = .openParen)
    (h : Runs vars .body c.deeper.advance.advance o) :
    Runs vars .alternative c (o.andThen (applyAt f c.position)) := by
  cases hresult : o.result with
  | error fault =>
    rw [Outcome.andThen_error hresult, ← hresult]
    exact .unargued hkind hdepth hname hopen h hresult
  | ok x =>
    rw [Outcome.andThen_ok hresult]
    unfold applyAt
    cases happly : f.apply x c.position with
    | error fault =>
      simp only [Outcome.valueFault, List.append_nil]
      exact .refused hkind hdepth hname hopen h hresult happly
    | ok y => exact .called hkind hdepth hname hopen h hresult happly

/-- A factor runs if the expressions behind it do. -/
theorem factor_reading
    (hinner : ∀ d : Cursor, d.ahead.length < c.ahead.length →
      Runs vars (.rule .expression) d (expression vars d)) :
    Runs vars (.rule .factor) c (LineCalculator.factor vars c) := by
  rw [factor_eq]
  refine .factor ?_
  cases hkind : c.peek.kind with
  | number =>
    dsimp only
    unfold Expression.number
    cases hread : Number.read? c.peek.text with
    | some x => exact .number hkind hread
    | none => exact .malformed hkind hread
  | name =>
    dsimp only
    unfold Expression.variableRead Variables.lookup
    cases hvalue : vars[c.peek.text]? with
    | some x => exact .variableRead hkind hvalue
    | none => exact .undefined hkind hvalue
  | openParen =>
    have hend := atEnd_false_of_kind hkind (by decide)
    dsimp only
    unfold Expression.group Cursor.enterGroup
    by_cases hdepth : c.depth < maxDepth
    · simp only [if_pos hdepth]
      have hbody := hinner _ (Cursor.length_ahead_deeper_advance hend)
      exact .group hkind hdepth hbody.andThen_closeGroup
    · simp only [if_neg hdepth]
      exact .tooDeep (by simp [hkind]) (Nat.not_lt.mp hdepth)
  | function =>
    have hend := atEnd_false_of_kind hkind (by decide)
    dsimp only
    unfold Expression.call Cursor.enterGroup
    by_cases hdepth : c.depth < maxDepth
    · simp only [if_pos hdepth]
      cases hname : Builtin.ofName? c.peek.text with
      | none => exact .unknown hkind hdepth hname
      | some f =>
        unfold Cursor.eat?
        by_cases hopen : c.deeper.advance.peek.kind = .openParen
        · simp only [if_pos hopen]
          have hlength := (Cursor.Reaches.advance c.deeper.advance).length_ahead_le
          have hbody := hinner _
            (Nat.lt_of_le_of_lt hlength (Cursor.length_ahead_deeper_advance hend))
          exact andThen_applyAt hkind hdepth hname hopen hbody.andThen_closeGroup
        · simp only [if_neg hopen]
          exact .unopened hkind hdepth hname hopen
    · simp only [if_neg hdepth]
      exact .tooDeep (by simp [hkind]) (Nat.not_lt.mp hdepth)
  | operator | closeParen | equals | print | endOfLine | stray =>
    exact .unexpected (by simp [hkind])

variable {tier : Tier} {operand : Cursor → Outcome Float}

/-- A chain goes on from what it has read, and ends where no operator of its tier follows. -/
theorem chainFrom_reading (hoperand : Progressive operand) {length : Nat}
    (hruns : ∀ d : Cursor, d.ahead.length ≤ length →
      Runs vars (.rule tier.rightPlace) d (operand d))
    {bound : List Token} {left : Float} (hbound : o.cursor.ahead.length ≤ bound.length)
    (hlength : o.cursor.ahead.length ≤ length) (h : Runs vars (.chain tier) c o)
    (hleft : o.result = .ok left) :
    let rest := chainFrom tier operand bound left o.cursor
    Runs vars (.chain tier) c ⟨rest.result, rest.cursor, o.events ++ rest.events⟩ ∧
      ∀ x, rest.result = .ok x → tier.operator? rest.cursor.peek = none := by
  induction bound generalizing o left with
  | nil =>
    have hnil : o.cursor.ahead = [] := List.eq_nil_of_length_eq_zero (by simpa using hbound)
    have hpeek : o.cursor.peek = .endOfLine := by simp [Cursor.peek, hnil]
    simp only [chainFrom, Outcome.value, List.append_nil, hpeek, ← hleft]
    exact ⟨h, fun _ _ => Tier.operator?_endOfLine tier⟩
  | cons t bound ih =>
    simp only [chainFrom]
    cases hop : tier.operator? o.cursor.peek with
    | none =>
      simp only [Outcome.value, List.append_nil, ← hleft]
      exact ⟨h, fun _ _ => hop⟩
    | some op =>
      have hshort := Cursor.length_ahead_advance (atEnd_false_of_operator? hop)
      have hright := hruns o.cursor.advance (by omega)
      dsimp only
      cases hresult : (operand o.cursor.advance).result with
      | error fault =>
        have hstep := Runs.halted h hleft hop hright hresult
        rw [Outcome.andThen_error hresult]
        exact ⟨hstep, fun _ hx => by cases hx⟩
      | ok right =>
        have htakes := (hoperand o.cursor.advance).2 right hresult
        simp only [List.length_cons] at hbound
        have hstep := Runs.operation h hleft hop hright hresult
        rw [Outcome.andThen_ok hresult]
        have hrest := ih (by simp only; omega) (by simp only; omega) hstep rfl
        simpa using hrest

theorem chain_reading (tier : Tier) {operand : Cursor → Outcome Float}
    (hoperand : Progressive operand)
    (hruns : ∀ d : Cursor, d.ahead.length ≤ c.ahead.length →
      Runs vars (.rule tier.rightPlace) d (operand d)) :
    Runs vars (.chain tier) c (chain tier operand c) ∧
      ∀ x, (chain tier operand c).result = .ok x →
        tier.operator? (chain tier operand c).cursor.peek = none := by
  have hfirst := Runs.operand (hruns c (Nat.le_refl _))
  unfold chain
  cases hresult : (operand c).result with
  | error fault =>
    rw [Outcome.andThen_error hresult, ← hresult]
    exact ⟨hfirst, fun x hx => by rw [hresult] at hx; cases hx⟩
  | ok left =>
    have htakes := (hoperand c).2 left hresult
    rw [Outcome.andThen_ok hresult]
    exact chainFrom_reading hoperand hruns (Nat.le_refl _) (Nat.le_of_lt htakes) hfirst hresult

theorem term_reading
    (hinner : ∀ d : Cursor, d.ahead.length < c.ahead.length →
      Runs vars (.rule .expression) d (expression vars d)) :
    Runs vars (.rule .term) c (term vars c) := by
  have hchain := chain_reading (c := c) .product (progressive_factor vars) fun d hd =>
    factor_reading fun e he => hinner e (Nat.lt_of_lt_of_le he hd)
  rw [term_eq]
  exact @Runs.joined vars .product _ _ hchain.1 hchain.2

theorem expression_reading (vars : Variables) (c : Cursor) :
    Runs vars (.rule .expression) c (expression vars c) := by
  have hchain := chain_reading (c := c) .sum (progressive_term vars) fun d _ =>
    term_reading fun e _ => expression_reading vars e
  rw [expression_eq]
  exact @Runs.joined vars .sum _ _ hchain.1 hchain.2
termination_by c.ahead.length

end Runs

/-- Every reading of a rule is a run of it. -/
theorem runs_reading (vars : Variables) (rule : Rule) (c : Cursor) :
    Runs vars (.rule rule) c (rule.reading vars c) := by
  cases rule with
  | expression => exact .expression_reading vars c
  | term => exact .term_reading fun d _ => .expression_reading vars d
  | factor => exact .factor_reading fun d _ => .expression_reading vars d

/-- What a part of the grammar comes to: a rule and its alternative to the reading of the rule, and
a chain, wherever it has got to, to the rest of the whole chain. -/
def Part.ComesTo (vars : Variables) (c : Cursor) (o : Outcome Float) : Part → Prop
  | .rule r => o = r.reading vars c
  | .alternative => o.after (.entering .factor c.position c.depth) = factor vars c
  | .body => o = (expression vars c).andThen closeGroup
  | .chain tier =>
    (o.andThen fun left next =>
      chainFrom tier (tier.rightPlace.reading vars) next.ahead left next) =
        Expression.chain tier (tier.rightPlace.reading vars) c

theorem progressive_reading (vars : Variables) (rule : Rule) :
    Progressive (rule.reading vars) := by
  cases rule with
  | expression => exact progressive_expression vars
  | term => exact progressive_term vars
  | factor => exact progressive_factor vars

/-- The rule of a tier is a chain of its operands. -/
theorem reading_leftPlace (vars : Variables) (tier : Tier) (c : Cursor) :
    tier.leftPlace.reading vars c =
      (chain tier (tier.rightPlace.reading vars) c).after
        (.entering tier.leftPlace c.position c.depth) := by
  cases tier with
  | sum => exact expression_eq vars c
  | product => exact term_eq vars c

/-- A call whose argument stands in parentheses is applied to what they hold. -/
theorem factor_of_argument {vars : Variables} {c : Cursor} {f : Builtin}
    (hkind : c.peek.kind = .function) (hdepth : c.depth < maxDepth)
    (hname : Builtin.ofName? c.peek.text = some f)
    (hopen : c.deeper.advance.peek.kind = .openParen) :
    factor vars c =
      (((expression vars c.deeper.advance.advance).andThen closeGroup).andThen
        (applyAt f c.position)).after (.entering .factor c.position c.depth) := by
  simp only [factor_eq, factorWith, hkind, Expression.call, Cursor.enterGroup, if_pos hdepth, hname,
    Cursor.eat?, if_pos hopen]

/-- There is one way through each rule, and a chain goes on from wherever it has got to. -/
theorem Runs.comesTo {vars : Variables} {part : Part} {c : Cursor} {o : Outcome Float}
    (h : Runs vars part c o) : part.ComesTo vars c o := by
  induction h with
  | number hkind hread | malformed hkind hread =>
    simp [Part.ComesTo, factor_eq, factorWith, hkind, Expression.number, hread]
  | variableRead hkind hvalue | undefined hkind hvalue =>
    simp [Part.ComesTo, factor_eq, factorWith, hkind, Expression.variableRead, Variables.lookup,
      hvalue]
  | @unexpected c hkind =>
    simp only [Part.ComesTo, factor_eq, factorWith]
    cases hother : c.peek.kind with
    | number | name | openParen | function => simp [hother] at hkind
    | _ => rfl
  | @tooDeep c hkind hdepth =>
    have hfull : ¬ c.depth < maxDepth := Nat.not_lt.mpr hdepth
    rcases List.mem_pair.mp hkind with hopen | hname
    · simp [Part.ComesTo, factor_eq, factorWith, hopen, Expression.group, Cursor.enterGroup, hfull]
    · simp [Part.ComesTo, factor_eq, factorWith, hname, Expression.call, Cursor.enterGroup, hfull]
  | group hkind hdepth _ ih =>
    simp [Part.ComesTo] at ih
    simp [Part.ComesTo, factor_eq, factorWith, hkind, Expression.group, Cursor.enterGroup, hdepth,
      ih]
  | unknown hkind hdepth hname =>
    simp [Part.ComesTo, factor_eq, factorWith, hkind, Expression.call, Cursor.enterGroup, hdepth,
      hname]
  | unopened hkind hdepth hname hopen =>
    simp [Part.ComesTo, factor_eq, factorWith, hkind, Expression.call, Cursor.enterGroup, hdepth,
      hname, Cursor.eat?, hopen]
  | @unargued c f o fault hkind hdepth hname hopen _ hfault ih =>
    have hbody : o = (expression vars c.deeper.advance.advance).andThen closeGroup := ih
    rw [Part.ComesTo, factor_of_argument hkind hdepth hname hopen, ← hbody,
      Outcome.andThen_error hfault, ← hfault]
  | @refused c f o x fault hkind hdepth hname hopen _ hvalue happly ih =>
    have hbody : o = (expression vars c.deeper.advance.advance).andThen closeGroup := ih
    rw [Part.ComesTo, factor_of_argument hkind hdepth hname hopen, ← hbody,
      Outcome.andThen_ok hvalue, applyAt, happly]
    simp [Outcome.valueFault]
  | @called c f o x y hkind hdepth hname hopen _ hvalue happly ih =>
    have hbody : o = (expression vars c.deeper.advance.advance).andThen closeGroup := ih
    rw [Part.ComesTo, factor_of_argument hkind hdepth hname hopen, ← hbody,
      Outcome.andThen_ok hvalue, applyAt, happly]
    rfl
  | @unfilled c o fault _ hfault ih =>
    have hinside : o = expression vars c := ih
    rw [Part.ComesTo, ← hinside, Outcome.andThen_error hfault, ← hfault]
  | @unclosed c o x _ hvalue hclose ih =>
    have hinside : o = expression vars c := ih
    rw [Part.ComesTo, ← hinside, Outcome.andThen_ok hvalue, closeGroup, Cursor.eat?, if_neg hclose]
    simp [Outcome.formFault]
  | @closed c o x _ hvalue hclose ih =>
    have hinside : o = expression vars c := ih
    rw [Part.ComesTo, ← hinside, Outcome.andThen_ok hvalue, closeGroup, Cursor.eat?, if_pos hclose]
    simp [Outcome.value]
  | @operand tier c o _ ih =>
    have hfirst : o = tier.rightPlace.reading vars c := ih
    rw [Part.ComesTo, hfirst]
    rfl
  | @halted tier op c o p left fault _ hleft hop _ hfault ihleft ihright =>
    have hright : p = tier.rightPlace.reading vars o.cursor.advance := ihright
    rw [Part.ComesTo] at ihleft ⊢
    rw [← ihleft, Outcome.andThen_ok hleft,
      chainFrom_ahead (progressive_reading vars tier.rightPlace), hop]
    simp only [← hright, Outcome.andThen_error hfault]
    rfl
  | @operation tier op c o p left right _ hleft hop _ hvalue ihleft ihright =>
    have hright : p = tier.rightPlace.reading vars o.cursor.advance := ihright
    rw [Part.ComesTo] at ihleft ⊢
    rw [← ihleft, Outcome.andThen_ok hleft,
      chainFrom_ahead (progressive_reading vars tier.rightPlace), hop]
    simp only [← hright, Outcome.andThen_ok hvalue]
    simp [Outcome.andThen]
  | factor _ ih => exact ih
  | @joined tier c o _ hstop ih =>
    have hchain : o.andThen _ = chain tier (tier.rightPlace.reading vars) c := ih
    change o.after _ = tier.leftPlace.reading vars c
    rw [reading_leftPlace, ← hchain]
    cases hresult : o.result with
    | error fault => rw [Outcome.andThen_error hresult, ← hresult]
    | ok x =>
      rw [Outcome.andThen_ok hresult, chainFrom_ahead (progressive_reading vars tier.rightPlace),
        hstop x hresult]
      simp [Outcome.value, ← hresult]

/-- The reading of a rule is the one run of it. -/
theorem Runs.eq_reading {vars : Variables} {rule : Rule} {c : Cursor} {o : Outcome Float}
    (h : Runs vars (.rule rule) c o) : o = rule.reading vars c :=
  h.comesTo

end LineCalculator
