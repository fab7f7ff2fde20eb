import LineCalculator.Proofs.OpenGroups
import LineCalculator.Proofs.StatementGrammar

/-!
# Substitution

A name that has been assigned may be replaced by the expression it was assigned, in parentheses. The
tokens of an expression are rewritten name by name, and both lists are read at once: what the one
looks up the other works out again, deeper and at other indices, and both come to the same value or
to the same fault.
-/
namespace LineCalculator

/-- Token lists that follow the grammar of expressions, with any number of groups inside each other. -/
inductive Phrase : Rule → List Token → Prop where
  | number {t : Token} {value : Float} (hkind : t.kind = .number)
      (hread : Number.read? t.text = some value) : Phrase .factor [t]
  | name {t : Token} (hkind : t.kind = .name) : Phrase .factor [t]
  | group {opening closing : Token} {body : List Token} (hopening : opening.kind = .openParen)
      (hclosing : closing.kind = .closeParen) (hbody : Phrase .expression body) :
      Phrase .factor (opening :: body ++ [closing])
  | call {name opening closing : Token} {body : List Token} (hkind : name.kind = .function)
      (hname : name.text = Builtin.root.name) (hopening : opening.kind = .openParen)
      (hclosing : closing.kind = .closeParen) (hbody : Phrase .expression body) :
      Phrase .factor (name :: opening :: body ++ [closing])
  | factor {tokens : List Token} (h : Phrase .factor tokens) : Phrase .term tokens
  | term {tokens : List Token} (h : Phrase .term tokens) : Phrase .expression tokens
  /-- The operators of a tier associate to the left. -/
  | operation {tier : Tier} {tokens more : List Token} {t : Token} {op : Operator}
      (hop : tier.operator? t = some op) (hleft : Phrase tier.leftPlace tokens)
      (hright : Phrase tier.rightPlace more) : Phrase tier.leftPlace (tokens ++ t :: more)

/-- The same fault, wherever it is found. -/
inductive ValueFault.SameCause : ValueFault → ValueFault → Prop where
  | undefinedVariable (name : String) (position other : Nat) :
      SameCause (.undefinedVariable name position) (.undefinedVariable name other)
  | negativeRoot (argument : Float) (position other : Nat) :
      SameCause (.negativeRoot argument position) (.negativeRoot argument other)

/-- The same value, or the same fault, wherever it is found. -/
inductive SameResult : Except ValueFault Float → Except ValueFault Float → Prop where
  | value (x : Float) : SameResult (.ok x) (.ok x)
  | fault {e other : ValueFault} (h : e.SameCause other) : SameResult (.error e) (.error other)

namespace SameResult

variable {vars others : Variables}

theorem lookup (vars : Variables) (name : String) (position place : Nat) :
    SameResult (vars.lookup name position) (vars.lookup name place) := by
  unfold Variables.lookup
  cases vars[name]? with
  | some x => exact .value x
  | none => exact .fault (.undefinedVariable name position place)

theorem apply (f : Builtin) (argument : Float) (position place : Nat) :
    SameResult (f.apply argument position) (f.apply argument place) := by
  cases f with
  | root =>
    simp only [Builtin.apply, Builtin.squareRoot]
    by_cases hnegative : argument < 0
    · rw [if_pos hnegative, if_pos hnegative]
      exact .fault (.negativeRoot argument position place)
    · rw [if_neg hnegative, if_neg hnegative]
      exact .value argument.sqrt

theorem operation {left right left' right' : Tree} (op : Operator)
    (hleft : SameResult (left.eval others) (left'.eval vars))
    (hright : SameResult (right.eval others) (right'.eval vars)) :
    SameResult ((Tree.operation op left right).eval others)
      ((Tree.operation op left' right').eval vars) := by
  simp only [Tree.eval]
  generalize left.eval others = x, left'.eval vars = x' at hleft ⊢
  generalize right.eval others = y, right'.eval vars = y' at hright ⊢
  cases hleft with
  | fault hcause => exact .fault hcause
  | value x =>
    cases hright with
    | fault hcause => exact .fault hcause
    | value y => exact .value (op.apply x y)

theorem call {argument argument' : Tree} (f : Builtin) (position place : Nat)
    (hargument : SameResult (argument.eval others) (argument'.eval vars)) :
    SameResult ((Tree.call f position argument).eval others)
      ((Tree.call f place argument').eval vars) := by
  simp only [Tree.eval]
  generalize argument.eval others = x, argument'.eval vars = x' at hargument ⊢
  cases hargument with
  | fault hcause => exact .fault hcause
  | value x => exact apply f x position place

end SameResult

theorem Nests.behind {depth : Nat} {tokens more : List Token} {t : Token} {tier : Tier}
    {op : Operator} (h : Nests depth (tokens ++ t :: more)) (hbalanced : opened tokens = closed tokens)
    (hop : tier.operator? t = some op) : Nests depth more := by
  have hsign : opened [t] = closed [t] := by simp [opened, closed, Token.kind_of_tier hop]
  exact @Nests.right _ [t] _ (h.right hbalanced) hsign

namespace Spells

variable {rule : Rule} {depth position : Nat} {tokens : List Token} {tree : Tree}

theorem kind_ne (h : Spells rule depth position tokens tree) :
    ∀ t ∈ tokens, t.kind ≠ .equals ∧ t.kind ≠ .print := by
  induction h with
  | number hkind _ | name hkind => simp [hkind]
  | group hopening hclosing _ _ ih => simpa [or_imp, forall_and, hopening, hclosing] using ih
  | call hkind _ hopening hclosing _ _ ih =>
    simpa [or_imp, forall_and, hkind, hopening, hclosing] using ih
  | factor _ ih | term _ ih => exact ih
  | product _ hop _ ihleft ihright | sum _ hop _ ihleft ihright =>
    intro t ht
    rcases List.mem_append.mp ht with hmem | hmem
    · exact ihleft t hmem
    · rcases List.mem_cons.mp hmem with rfl | hmem
      · simp [Token.kind_of_tier hop]
      · exact ihright t hmem

end Spells

/-- A rewriting of tokens under which names keep their values: what stands for a name is a factor that
comes, in the variables of the rewritten tokens, to what the name has in those of the original. -/
structure Preserves (σ : Token → List Token) (others vars : Variables) : Prop where
  other : ∀ {t}, t.kind ≠ .name → σ t = [t]
  name : ∀ {t depth}, t.kind = .name → Nests depth (σ t) → ∀ position place,
    ∃ tree, Spells .factor depth place (σ t) tree ∧
      SameResult (others.lookup t.text position) (tree.eval vars)

theorem Preserves.flatMap_operation {σ : Token → List Token} {others vars : Variables}
    (hσ : Preserves σ others vars) {tier : Tier} {op : Operator} {t : Token}
    (hop : tier.operator? t = some op) (tokens more : List Token) :
    (tokens ++ t :: more).flatMap σ = tokens.flatMap σ ++ t :: more.flatMap σ := by
  simp [hσ.other, Token.kind_of_tier hop]

/-- Tokens that follow the grammar and their rewriting spell trees of the same result, wherever they
start, if the rewriting nests where it stands and the original stands no deeper. -/
theorem Phrase.rewritten {σ : Token → List Token} {others vars : Variables}
    (hσ : Preserves σ others vars) {rule : Rule} {tokens : List Token} (h : Phrase rule tokens)
    {depth deep : Nat} (hle : depth ≤ deep) (hnests : Nests deep (tokens.flatMap σ))
    (position place : Nat) :
    ∃ tree other, Spells rule depth position tokens tree ∧
      Spells rule deep place (tokens.flatMap σ) other ∧
      SameResult (tree.eval others) (other.eval vars) := by
  induction h generalizing depth deep position place with
  | @number t x hkind hread =>
    have hsame : [t].flatMap σ = [t] := by simp [hσ.other, hkind]
    rw [hsame]
    exact ⟨_, _, .number hkind hread, .number hkind hread, .value x⟩
  | @name t hkind =>
    have hone : [t].flatMap σ = σ t := by simp
    rw [hone] at hnests ⊢
    obtain ⟨other, hother, hresult⟩ := hσ.name hkind hnests position place
    exact ⟨_, other, .name hkind, hother, hresult⟩
  | @group opening closing body hopening hclosing _ ih =>
    have hgroup : (opening :: body ++ [closing]).flatMap σ =
        opening :: body.flatMap σ ++ [closing] := by
      simp [hσ.other, hopening, hclosing]
    rw [hgroup] at hnests ⊢
    obtain ⟨hdeep, hinside⟩ := hnests.inside hopening
    obtain ⟨tree, other, htree, hother, hresult⟩ :=
      ih (Nat.succ_le_succ hle) hinside (position + 1) (place + 1)
    exact ⟨tree, other, .group hopening hclosing (Nat.lt_of_le_of_lt hle hdeep) htree,
      .group hopening hclosing hdeep hother, hresult⟩
  | @call name opening closing body hkind hname hopening hclosing _ ih =>
    have hcall : (name :: opening :: body ++ [closing]).flatMap σ =
        [name] ++ (opening :: body.flatMap σ ++ [closing]) := by
      simp [hσ.other, hkind, hopening, hclosing]
    rw [hcall] at hnests ⊢
    obtain ⟨hdeep, hinside⟩ :=
      (hnests.right (by simp [opened, closed, hkind])).inside hopening
    obtain ⟨tree, other, htree, hother, hresult⟩ :=
      ih (Nat.succ_le_succ hle) hinside (position + 2) (place + 2)
    exact ⟨_, _, .call hkind hname hopening hclosing (Nat.lt_of_le_of_lt hle hdeep) htree,
      .call hkind hname hopening hclosing hdeep hother, hresult.call .root position place⟩
  | factor _ ih =>
    obtain ⟨tree, other, htree, hother, hresult⟩ := ih hle hnests position place
    exact ⟨tree, other, .factor htree, .factor hother, hresult⟩
  | term _ ih =>
    obtain ⟨tree, other, htree, hother, hresult⟩ := ih hle hnests position place
    exact ⟨tree, other, .term htree, .term hother, hresult⟩
  | @operation tier tokens more t op hop _ _ ihleft ihright =>
    rw [hσ.flatMap_operation hop] at hnests ⊢
    obtain ⟨left, left', hleft, hleft', hx⟩ := ihleft hle hnests.left position place
    obtain ⟨right, right', hright, hright', hy⟩ :=
      ihright hle (hnests.behind hleft'.balanced hop) (position + tokens.length + 1)
        (place + (tokens.flatMap σ).length + 1)
    exact ⟨_, _, .operation hop hleft hright, .operation hop hleft' hright', hx.operation op hy⟩

/-- What stands for a token when tokens in parentheses stand for a name. -/
def replaceName (name : String) (inner : List Token) (t : Token) : List Token :=
  if t = ⟨.name, name⟩ then grouped inner else [t]

/-- Tokens with a name replaced by other tokens in parentheses. -/
def substitute (name : String) (inner tokens : List Token) : List Token :=
  tokens.flatMap (replaceName name inner)

theorem Outcome.Gives.eq_ok {o : Outcome Float} {value : Except ValueFault Float} {next : Cursor}
    {x : Float} (h : o.Gives value next) (hx : o.result = .ok x) : value = .ok x := by
  cases value with
  | ok y => exact congrArg Except.ok (Except.ok.inj (h.1.symm.trans hx))
  | error e =>
    have he : o.result = .error (.value e) := h
    rw [he] at hx
    cases hx

theorem Preserves.of_unchanged (vars : Variables) : Preserves (fun t => [t]) vars vars where
  other _ := rfl
  name := fun hkind _ position place =>
    ⟨_, .name hkind, .lookup vars _ position place⟩

/-- The value that an expression has at one place it has, as an operand, at every other. -/
theorem Preserves.of_value {vars : Variables} {name : String} {inner : List Token} {x : Float}
    {start : Nat} (hinner : Phrase .expression inner)
    (hvalue : (expression vars ⟨inner ++ [.endOfLine], start, 0⟩).result = .ok x) :
    Preserves (replaceName name inner) (vars.insert name x) vars where
  other := fun hkind => if_neg (by rintro rfl; exact hkind rfl)
  name := by
    intro t depth hkind hnests position place
    obtain ⟨kind, text⟩ := t
    cases hkind
    unfold replaceName at hnests ⊢
    by_cases hname : text = name
    · subst hname
      rw [if_pos rfl] at hnests ⊢
      obtain ⟨hdepth, hinside⟩ := hnests.inside rfl
      rw [← List.flatMap_singleton' inner] at hinside
      obtain ⟨tree, other, htree, hother, hresult⟩ :=
        hinner.rewritten (.of_unchanged vars) (Nat.zero_le _) hinside start (place + 1)
      rw [List.flatMap_singleton' inner] at hother
      refine ⟨other, .group rfl rfl hdepth hother, ?_⟩
      have hget : Variables.lookup (vars.insert text x) text position = .ok x :=
        Variables.lookup_eq_ok_iff.mpr Std.ExtTreeMap.getElem?_insert_self
      rwa [hget, ← (htree.gives vars).eq_ok hvalue]
    · have hne : (⟨.name, text⟩ : Token) ≠ ⟨.name, name⟩ := by simpa using hname
      rw [if_neg hne]
      have hget : (vars.insert name x)[text]? = vars[text]? := by
        have hcompare : ¬ compare name text = .eq := by simpa using Ne.symm hname
        rw [Std.ExtTreeMap.getElem?_insert, if_neg hcompare]
      have hlookup : Variables.lookup (vars.insert name x) text position =
          vars.lookup text position := by
        unfold Variables.lookup
        rw [hget]
      exact ⟨_, .name rfl, hlookup ▸ .lookup vars text position place⟩

namespace Spells

variable {vars : Variables} {tokens : List Token} {tree : Tree}

/-- Evaluated as a line, the tokens of an expression come to what its tree does. -/
theorem evaluate_ok {x : Float} (h : Spells .expression 0 0 tokens tree)
    (hx : tree.eval vars = .ok x) :
    (evaluate vars (tokens ++ [.endOfLine]) 0).result = .ok ⟨.expression, x⟩ ∧
      (evaluate vars (tokens ++ [.endOfLine]) 0).cursor.atEnd = true := by
  have hgives := h.gives vars
  have hheading := Statement.heading_append_endOfLine h.kind_ne 0 0
  have hstatement : evaluate vars (tokens ++ [.endOfLine]) 0 =
      statement vars ⟨tokens ++ [.endOfLine], 0, 0⟩ := rfl
  rw [hx] at hgives
  rw [hstatement, Statement.cursor_eq_heading, Statement.result_eq_heading, hheading, hgives.1,
    hgives.2]
  exact ⟨rfl, rfl⟩

theorem evaluate_error {fault : ValueFault} (h : Spells .expression 0 0 tokens tree)
    (hfault : tree.eval vars = .error fault) :
    (evaluate vars (tokens ++ [.endOfLine]) 0).result = .error (.value fault) := by
  have hgives := h.gives vars
  have hheading := Statement.heading_append_endOfLine h.kind_ne 0 0
  have hstatement : evaluate vars (tokens ++ [.endOfLine]) 0 =
      statement vars ⟨tokens ++ [.endOfLine], 0, 0⟩ := rfl
  rw [hfault] at hgives
  rw [hstatement, Statement.result_eq_error_iff, hheading]
  exact hgives

end Spells

/-- The tokens that assign a name what other tokens come to. -/
def assigning (name : String) (right : List Token) : List Token :=
  ⟨.name, name⟩ :: ⟨.equals, "="⟩ :: right

theorem heading_assigning (name : String) (right : List Token) :
    Statement.heading (.atIndex (assigning name right) 0) = (.assignment name, ⟨right, 2, 0⟩) :=
  @Statement.heading_of_assignment 0 0 (assigning name right) ⟨.name, name⟩ ⟨.equals, "="⟩
    rfl rfl rfl rfl

/-- If a name is assigned the value of an expression, then another expression comes to the same,
evaluated after the assignment as it stands, or before it with the first expression in parentheses
for the name: to the same value, or to the same fault. In the first expression the name still has
its old value. -/
theorem evaluate_substitute (vars : Variables) {name : String} {inner outer : List Token}
    {e : Evaluation} (hinner : Phrase .expression inner) (houter : Phrase .expression outer)
    (hassigned : (evaluate vars (assigning name (inner ++ [.endOfLine])) 0).result = .ok e)
    (hlimit : ∀ seen, seen <+: substitute name inner outer → openGroups seen ≤ maxDepth) :
    let after := (evaluate vars (assigning name (inner ++ [.endOfLine])) 0).store vars
    let stored := evaluate after (outer ++ [.endOfLine]) 0
    let inlined := evaluate vars (substitute name inner outer ++ [.endOfLine]) 0
    (∃ x, stored.result = .ok ⟨.expression, x⟩ ∧ inlined.result = .ok ⟨.expression, x⟩ ∧
      stored.cursor.atEnd = true ∧ inlined.cursor.atEnd = true) ∨
    ∃ fault other, stored.result = .error (.value fault) ∧
      inlined.result = .error (.value other) ∧ fault.SameCause other := by
  intro after stored inlined
  obtain ⟨hform, hvalue⟩ := Statement.result_eq_ok_iff.mp hassigned
  rw [heading_assigning] at hform hvalue
  have hafter : after = vars.insert name e.value := by
    simp only [after, Outcome.store_ok hassigned, Evaluation.store, hform]
  have hnests : Nests 0 (substitute name inner outer) := by
    intro seen hseen
    have hopen := hlimit seen hseen
    unfold openGroups at hopen
    omega
  obtain ⟨tree, other, htree, hother, hresult⟩ :=
    houter.rewritten (.of_value hinner hvalue) (Nat.le_refl 0) hnests 0 0
  rw [← hafter] at hresult
  generalize hx : tree.eval after = stored', hy : other.eval vars = inlined' at hresult
  cases hresult with
  | value x =>
    have hstored := htree.evaluate_ok hx
    have hinlined := hother.evaluate_ok hy
    exact .inl ⟨x, hstored.1, hinlined.1, hstored.2, hinlined.2⟩
  | fault hcause =>
    exact .inr ⟨_, _, htree.evaluate_error hx, hother.evaluate_error hy, hcause⟩

/-- The square of a name that was assigned a sum is the product of the sums. -/
theorem square_of_assigned_sum :
    let vars : Variables := ((∅ : Variables).insert "x" 1).insert "y" 2
    let sum : List Token := [⟨.name, "x"⟩, ⟨.operator, "+"⟩, ⟨.name, "y"⟩]
    let square : List Token := [⟨.name, "x"⟩, ⟨.operator, "*"⟩, ⟨.name, "x"⟩]
    (evaluate vars (assigning "x" (sum ++ [.endOfLine])) 0).result =
        .ok ⟨.assignment "x", 1 + 2⟩ ∧
      (evaluate (vars.insert "x" (1 + 2)) (square ++ [.endOfLine]) 0).result =
        .ok ⟨.expression, (1 + 2) * (1 + 2)⟩ ∧
      (evaluate vars (grouped sum ++ ⟨.operator, "*"⟩ :: grouped sum ++ [.endOfLine]) 0).result =
        .ok ⟨.expression, (1 + 2) * (1 + 2)⟩ := by
  intro vars sum square
  have hsum : Phrase .expression sum :=
    @Phrase.operation .sum [_] [_] _ .add rfl (.term (.factor (.name rfl))) (.factor (.name rfl))
  have hsquare : Phrase .expression square :=
    .term (@Phrase.operation .product [_] [_] _ .mul rfl (.factor (.name rfl)) (.name rfl))
  have hx (position : Nat) : vars.lookup "x" position = .ok 1 := by
    have hne : ¬ compare "y" "x" = .eq := by decide
    rw [Variables.lookup_eq_ok_iff, Std.ExtTreeMap.getElem?_insert, if_neg hne]
    exact Std.ExtTreeMap.getElem?_insert_self
  have hy (position : Nat) : vars.lookup "y" position = .ok 2 :=
    Variables.lookup_eq_ok_iff.mpr Std.ExtTreeMap.getElem?_insert_self
  have hassigned : (evaluate vars (assigning "x" (sum ++ [.endOfLine])) 0).result =
      .ok ⟨.assignment "x", 1 + 2⟩ := by
    have hspells : Spells .expression 0 2 sum (.operation .add (.name "x" 2) (.name "y" 4)) :=
      @Spells.sum 0 2 [_] [_] _ .add _ _ (.term (.factor (.name rfl))) rfl (.factor (.name rfl))
    have heval : (Tree.operation .add (.name "x" 2) (.name "y" 4)).eval vars = .ok (1 + 2) :=
      Tree.eval_operation_ok (hx 2) (hy 4)
    have hgives := hspells.gives vars
    rw [heval] at hgives
    refine Statement.result_eq_ok_iff.mpr ⟨?_, ?_⟩
    · rw [heading_assigning]
    · rw [heading_assigning]
      exact hgives.1
  have hstored : (evaluate (vars.insert "x" (1 + 2)) (square ++ [.endOfLine]) 0).result =
      .ok ⟨.expression, (1 + 2) * (1 + 2)⟩ := by
    have hspells : Spells .expression 0 0 square (.operation .mul (.name "x" 0) (.name "x" 2)) :=
      .term (@Spells.product 0 0 [_] [_] _ .mul _ _ (.factor (.name rfl)) rfl (.name rfl))
    have hget (position : Nat) :
        Variables.lookup (vars.insert "x" (1 + 2)) "x" position = .ok (1 + 2) :=
      Variables.lookup_eq_ok_iff.mpr Std.ExtTreeMap.getElem?_insert_self
    exact (hspells.evaluate_ok (Tree.eval_operation_ok (hget 0) (hget 2))).1
  have hinlined : substitute "x" sum square = grouped sum ++ ⟨.operator, "*"⟩ :: grouped sum := by
    decide
  have hlimit : ∀ seen, seen <+: substitute "x" sum square → openGroups seen ≤ maxDepth := by
    intro seen hseen
    have hlength : seen.length ≤ 11 := hseen.length_le
    have hopened : opened seen ≤ seen.length := List.countP_le_length
    unfold openGroups maxDepth
    omega
  have hafter : (evaluate vars (assigning "x" (sum ++ [.endOfLine])) 0).store vars =
      vars.insert "x" (1 + 2) := Outcome.store_ok hassigned vars
  have hsame := evaluate_substitute vars hsum hsquare hassigned hlimit
  rw [hafter, hinlined] at hsame
  rcases hsame with ⟨x, hvalue, hother, -, -⟩ | ⟨fault, -, hfault, -, -⟩
  · exact ⟨hassigned, hstored, hother.trans (hvalue.symm.trans hstored)⟩
  · rw [hstored] at hfault
    cases hfault

end LineCalculator
