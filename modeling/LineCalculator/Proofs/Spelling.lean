import LineCalculator.Proofs.Chain

/-!
# Tokens that spell a tree

The grammar is left-recursive here, and its rules carry the depth and the index at which they start.
Whatever tokens spell a tree, the one-pass reading of them gives what the tree evaluates to, as long
as the token behind them does not go on with the same rule. The first fault of the tree is found at
one of these tokens, the name or the function that its index points to.
-/
namespace LineCalculator

/-- Tokens from an index on that a rule takes for a tree, with so many groups open around them. -/
inductive Spells : Rule → Nat → Nat → List Token → Tree → Prop where
  | number {depth position : Nat} {t : Token} {value : Float} (hkind : t.kind = .number)
      (hread : Number.read? t.text = some value) :
      Spells .factor depth position [t] (.number value)
  | name {depth position : Nat} {t : Token} (hkind : t.kind = .name) :
      Spells .factor depth position [t] (.name t.text position)
  | group {depth position : Nat} {opening closing : Token} {body : List Token} {tree : Tree}
      (hopening : opening.kind = .openParen) (hclosing : closing.kind = .closeParen)
      (hdepth : depth < maxDepth)
      (hbody : Spells .expression (depth + 1) (position + 1) body tree) :
      Spells .factor depth position (opening :: body ++ [closing]) tree
  | call {depth position : Nat} {name opening closing : Token} {body : List Token} {tree : Tree}
      (hkind : name.kind = .function) (hname : name.text = Builtin.root.name)
      (hopening : opening.kind = .openParen) (hclosing : closing.kind = .closeParen)
      (hdepth : depth < maxDepth)
      (hbody : Spells .expression (depth + 1) (position + 2) body tree) :
      Spells .factor depth position (name :: opening :: body ++ [closing])
        (.call .root position tree)
  | factor {depth position : Nat} {tokens : List Token} {tree : Tree}
      (h : Spells .factor depth position tokens tree) : Spells .term depth position tokens tree
  | product {depth position : Nat} {tokens more : List Token} {t : Token} {op : Operator}
      {left right : Tree} (hleft : Spells .term depth position tokens left)
      (hop : Tier.product.operator? t = some op)
      (hright : Spells .factor depth (position + tokens.length + 1) more right) :
      Spells .term depth position (tokens ++ t :: more) (.operation op left right)
  | term {depth position : Nat} {tokens : List Token} {tree : Tree}
      (h : Spells .term depth position tokens tree) : Spells .expression depth position tokens tree
  | sum {depth position : Nat} {tokens more : List Token} {t : Token} {op : Operator}
      {left right : Tree} (hleft : Spells .expression depth position tokens left)
      (hop : Tier.sum.operator? t = some op)
      (hright : Spells .term depth (position + tokens.length + 1) more right) :
      Spells .expression depth position (tokens ++ t :: more) (.operation op left right)

/-- The token that a fault in value is about. -/
def ValueFault.Concerns : ValueFault → Token → Prop
  | undefinedVariable name _, t => t.kind = .name ∧ t.text = name
  | negativeRoot _ _, t => t.kind = .function ∧ t.text = Builtin.root.name

/-- The token that a fault concerns stands at the index that the fault carries. -/
def ValueFault.PointsInto (e : ValueFault) (position : Nat) (tokens : List Token) : Prop :=
  ∃ before t behind, tokens = before ++ t :: behind ∧ e.position = position + before.length ∧
    e.Concerns t

namespace ValueFault.PointsInto

variable {e : ValueFault} {position : Nat} {tokens more : List Token}

theorem append_right (h : e.PointsInto position tokens) (more : List Token) :
    e.PointsInto position (tokens ++ more) := by
  obtain ⟨before, t, behind, rfl, hposition, hconcerns⟩ := h
  exact ⟨before, t, behind ++ more, by simp, hposition, hconcerns⟩

theorem append_left (before : List Token) (h : e.PointsInto (position + before.length) tokens) :
    e.PointsInto position (before ++ tokens) := by
  obtain ⟨inside, t, behind, rfl, hposition, hconcerns⟩ := h
  refine ⟨before ++ inside, t, behind, by simp, ?_, hconcerns⟩
  rw [hposition, List.length_append, Nat.add_assoc]

theorem getElem? (h : e.PointsInto 0 tokens) : ∃ t, tokens[e.position]? = some t ∧ e.Concerns t := by
  obtain ⟨before, t, behind, rfl, hposition, hconcerns⟩ := h
  exact ⟨t, by simp [hposition], hconcerns⟩

end ValueFault.PointsInto

theorem Tree.fault_operation {vars : Variables} {op : Operator} {left right : Tree} {t : Token}
    {tokens more : List Token} {position : Nat} {e : ValueFault}
    (hleft : left.eval vars = .error e → e.PointsInto position tokens)
    (hright : right.eval vars = .error e → e.PointsInto (position + tokens.length + 1) more)
    (heval : (operation op left right).eval vars = .error e) :
    e.PointsInto position (tokens ++ t :: more) := by
  cases hvalue : left.eval vars with
  | error first =>
    rw [eval_operation_left hvalue] at heval
    cases heval
    exact (hleft hvalue).append_right _
  | ok x =>
    cases hsecond : right.eval vars with
    | error second =>
      rw [eval_operation_right hvalue hsecond] at heval
      cases heval
      have hbehind : e.PointsInto position ((tokens ++ [t]) ++ more) :=
        .append_left (tokens ++ [t]) (by simpa [Nat.add_assoc] using hright hsecond)
      simpa using hbehind
    | ok y =>
      rw [eval_operation_ok hvalue hsecond] at heval
      cases heval

/-- The first fault of a tree points at the name or the function that it comes from. -/
theorem Spells.fault_pointsInto {vars : Variables} {rule : Rule} {depth position : Nat}
    {tokens : List Token} {tree : Tree} {e : ValueFault}
    (h : Spells rule depth position tokens tree) (heval : tree.eval vars = .error e) :
    e.PointsInto position tokens := by
  induction h with
  | number _ _ => cases heval
  | @name depth position t hkind =>
    obtain ⟨-, rfl⟩ := Variables.lookup_eq_error_iff.mp heval
    exact ⟨[], t, [], rfl, rfl, hkind, rfl⟩
  | @group _ position opening closing body tree _ _ _ _ ih =>
    have hinside : e.PointsInto position ([opening] ++ body) := .append_left [opening] (ih heval)
    exact hinside.append_right [closing]
  | @call _ position name opening closing body tree hkind hname _ _ _ _ ih =>
    cases hvalue : tree.eval vars with
    | error first =>
      rw [Tree.eval_call_error hvalue] at heval
      cases heval
      have hinside : e.PointsInto position ([name, opening] ++ body) :=
        .append_left [name, opening] (ih hvalue)
      exact hinside.append_right [closing]
    | ok x =>
      rw [Tree.eval_call_ok hvalue] at heval
      obtain ⟨-, rfl⟩ := Builtin.squareRoot_eq_error_iff.mp heval
      exact ⟨[], name, opening :: body ++ [closing], rfl, rfl, hkind, hname⟩
  | factor _ ih => exact ih heval
  | term _ ih => exact ih heval
  | product _ _ _ ihleft ihright => exact Tree.fault_operation ihleft ihright heval
  | sum _ _ _ ihleft ihright => exact Tree.fault_operation ihleft ihright heval

namespace Cursor

theorem advance_cons {t : Token} (ht : t.kind ≠ .endOfLine) (rest : List Token)
    (position depth : Nat) :
    advance ⟨t :: rest, position, depth⟩ = ⟨rest, position + 1, depth⟩ :=
  advance_of_not_atEnd (atEnd_eq_false_iff.mpr ht)

end Cursor

theorem Tier.operator?_of_kind {t : Token} (ht : t.kind ≠ .operator) (tier : Tier) :
    tier.operator? t = none := by
  simp [Tier.operator?, Token.operator?, ht]

/-- A token is an operator of one tier at most. -/
theorem Tier.operator?_of_ne {tier other : Tier} {t : Token} {op : Operator}
    (h : tier.operator? t = some op) (hne : tier ≠ other) : other.operator? t = none := by
  obtain ⟨hop, rfl⟩ := Tier.operator?_eq_some_iff.mp h
  simp [Tier.operator?, hop, Option.filter, hne]

namespace Expression

variable {vars : Variables}

theorem gives_closeGroup {o : Outcome Float} {value : Except ValueFault Float} {closing : Token}
    {rest : List Token} {position depth : Nat} (hclosing : closing.kind = .closeParen)
    (h : o.Gives value ⟨closing :: rest, position, depth + 1⟩) :
    (o.andThen closeGroup).Gives value ⟨rest, position + 1, depth⟩ := by
  cases value with
  | error fault =>
    have hresult : o.result = .error (.value fault) := h
    rw [Outcome.andThen_error hresult]
    rfl
  | ok x =>
    obtain ⟨hresult, hcursor⟩ := h
    have heat : o.cursor.eat? .closeParen = some ⟨rest, position + 1, depth + 1⟩ := by
      rw [hcursor, Cursor.eat?_eq_some_iff, Cursor.advance_cons (by simp [hclosing])]
      exact ⟨hclosing, rfl⟩
    rw [Outcome.andThen_ok hresult, closeGroup, heat]
    exact ⟨rfl, rfl⟩

theorem gives_applyAt {o : Outcome Float} {argument : Tree} {next : Cursor} (f : Builtin)
    (position : Nat) (h : o.Gives (argument.eval vars) next) :
    (o.andThen (applyAt f position)).Gives ((Tree.call f position argument).eval vars) next := by
  cases hvalue : argument.eval vars with
  | error fault =>
    rw [hvalue] at h
    have hresult : o.result = .error (.value fault) := h
    rw [Tree.eval_call_error hvalue, Outcome.andThen_error hresult]
    rfl
  | ok x =>
    rw [hvalue] at h
    obtain ⟨hresult, rfl⟩ := h
    rw [Tree.eval_call_ok hvalue, Outcome.andThen_ok hresult, applyAt]
    cases f.apply x position with
    | error fault => rfl
    | ok y => exact ⟨rfl, rfl⟩

theorem factor_number {t : Token} {value : Float} (hkind : t.kind = .number)
    (hread : Number.read? t.text = some value) (rest : List Token) (position depth : Nat) :
    (factor vars ⟨t :: rest, position, depth⟩).Gives (.ok value) ⟨rest, position + 1, depth⟩ := by
  have hpeek : Cursor.peek ⟨t :: rest, position, depth⟩ = t := rfl
  rw [factor_eq, factorWith, hpeek, hkind]
  simp only [number, hpeek, hread]
  exact ⟨rfl, Cursor.advance_cons (by simp [hkind]) rest position depth⟩

theorem factor_name {t : Token} (hkind : t.kind = .name) (rest : List Token)
    (position depth : Nat) :
    (factor vars ⟨t :: rest, position, depth⟩).Gives ((Tree.name t.text position).eval vars)
      ⟨rest, position + 1, depth⟩ := by
  have hpeek : Cursor.peek ⟨t :: rest, position, depth⟩ = t := rfl
  rw [factor_eq, factorWith, hpeek, hkind, Tree.eval]
  simp only [variableRead, hpeek]
  cases vars.lookup t.text position with
  | error fault => rfl
  | ok value => exact ⟨rfl, Cursor.advance_cons (by simp [hkind]) rest position depth⟩

/-- A group gives what the expression inside it gives. -/
theorem factor_group {opening closing : Token} {tokens rest : List Token} {position depth : Nat}
    {value : Except ValueFault Float} (hopening : opening.kind = .openParen)
    (hclosing : closing.kind = .closeParen) (hdepth : depth < maxDepth)
    (hbody : (expression vars ⟨tokens ++ closing :: rest, position + 1, depth + 1⟩).Gives value
      ⟨closing :: rest, position + 1 + tokens.length, depth + 1⟩) :
    (factor vars ⟨opening :: (tokens ++ closing :: rest), position, depth⟩).Gives value
      ⟨rest, position + 1 + tokens.length + 1, depth⟩ := by
  have hpeek : Cursor.peek ⟨opening :: (tokens ++ closing :: rest), position, depth⟩ = opening :=
    rfl
  have henter : Cursor.enterGroup ⟨opening :: (tokens ++ closing :: rest), position, depth⟩ =
      .ok ⟨opening :: (tokens ++ closing :: rest), position, depth + 1⟩ :=
    Cursor.enterGroup_eq_ok_iff.mpr ⟨hdepth, rfl⟩
  rw [factor_eq, factorWith, hpeek, hopening]
  simp only [group, henter]
  rw [Cursor.advance_cons (by simp [hopening])]
  exact gives_closeGroup hclosing hbody

/-- A call gives what its function does to the argument. -/
theorem factor_call {name opening closing : Token} {tokens rest : List Token}
    {position depth : Nat} {argument : Tree} (hkind : name.kind = .function)
    (hname : name.text = Builtin.root.name) (hopening : opening.kind = .openParen)
    (hclosing : closing.kind = .closeParen) (hdepth : depth < maxDepth)
    (hbody : (expression vars ⟨tokens ++ closing :: rest, position + 2, depth + 1⟩).Gives
      (argument.eval vars) ⟨closing :: rest, position + 2 + tokens.length, depth + 1⟩) :
    (factor vars ⟨name :: opening :: (tokens ++ closing :: rest), position, depth⟩).Gives
      ((Tree.call .root position argument).eval vars)
      ⟨rest, position + 2 + tokens.length + 1, depth⟩ := by
  have hpeek : Cursor.peek ⟨name :: opening :: (tokens ++ closing :: rest), position, depth⟩ =
      name := rfl
  have henter : Cursor.enterGroup
      ⟨name :: opening :: (tokens ++ closing :: rest), position, depth⟩ =
        .ok ⟨name :: opening :: (tokens ++ closing :: rest), position, depth + 1⟩ :=
    Cursor.enterGroup_eq_ok_iff.mpr ⟨hdepth, rfl⟩
  have hfunction : Builtin.ofName? name.text = some .root := Builtin.ofName?_eq_some_iff.mpr hname
  have heat : Cursor.eat? ⟨opening :: (tokens ++ closing :: rest), position + 1, depth + 1⟩
      .openParen = some ⟨tokens ++ closing :: rest, position + 2, depth + 1⟩ := by
    rw [Cursor.eat?_eq_some_iff, Cursor.advance_cons (by simp [hopening])]
    exact ⟨hopening, rfl⟩
  rw [factor_eq, factorWith, hpeek, hkind]
  simp only [call, henter, hpeek, hfunction]
  rw [Cursor.advance_cons (by simp [hkind])]
  simp only [heat]
  exact gives_applyAt .root position (gives_closeGroup hclosing hbody)

/-- What the reading of a rule does with tokens that spell a tree. A factor is done behind them; a
chain may still go on, so that an expression needs to know that its last term does not. -/
def Reads (vars : Variables) (tree : Tree) (tokens : List Token) (position depth : Nat) :
    Rule → Prop
  | .factor => ∀ rest, (factor vars ⟨tokens ++ rest, position, depth⟩).Gives (tree.eval vars)
      ⟨rest, position + tokens.length, depth⟩
  | .term => ∀ rest, Resumes vars .product (factor vars) tree ⟨tokens ++ rest, position, depth⟩
      ⟨rest, position + tokens.length, depth⟩
  | .expression => ∀ rest, Tier.product.operator? (rest.headD .endOfLine) = none →
      Resumes vars .sum (term vars) tree ⟨tokens ++ rest, position, depth⟩
        ⟨rest, position + tokens.length, depth⟩

theorem term_gives {tree : Tree} {c next : Cursor}
    (h : Resumes vars .product (factor vars) tree c next)
    (hstop : Tier.product.operator? next.peek = none) :
    (term vars c).Gives (tree.eval vars) next := by
  have hchain := gives_of_resumes (progressive_factor vars) h hstop
  rw [term_eq]
  unfold Outcome.Gives at hchain ⊢
  exact hchain

theorem expression_gives {tree : Tree} {c next : Cursor}
    (h : Resumes vars .sum (term vars) tree c next)
    (hstop : Tier.sum.operator? next.peek = none) :
    (expression vars c).Gives (tree.eval vars) next := by
  have hchain := gives_of_resumes (progressive_term vars) h hstop
  rw [expression_eq]
  unfold Outcome.Gives at hchain ⊢
  exact hchain

/-- A chain that has read the left operand of an operator reads the right one behind it. -/
theorem resumes_operation {tier : Tier} {operand : Cursor → Outcome Float}
    (hoperand : Progressive operand) {left right : Tree} {op : Operator} {t : Token}
    {tokens more rest : List Token} {position depth : Nat} (hop : tier.operator? t = some op)
    (hleft : Resumes vars tier operand left ⟨tokens ++ t :: (more ++ rest), position, depth⟩
      ⟨t :: (more ++ rest), position + tokens.length, depth⟩)
    (hright : (operand ⟨more ++ rest, position + tokens.length + 1, depth⟩).Gives
      (right.eval vars) ⟨rest, position + tokens.length + 1 + more.length, depth⟩) :
    Resumes vars tier operand (.operation op left right)
      ⟨(tokens ++ t :: more) ++ rest, position, depth⟩
      ⟨rest, position + (tokens ++ t :: more).length, depth⟩ := by
  have hkind : t.kind = .operator :=
    Token.kind_of_operator? (Tier.operator?_eq_some_iff.mp hop).1
  have hlength : position + (tokens ++ t :: more).length =
      position + tokens.length + 1 + more.length := by
    simp only [List.length_append, List.length_cons]
    omega
  rw [hlength, List.append_assoc, List.cons_append]
  refine resumes_step hoperand hleft hop ?_
  rw [Cursor.advance_cons (by simp [hkind])]
  exact hright

theorem reads_of_spells {rule : Rule} {depth position : Nat} {tokens : List Token} {tree : Tree}
    (h : Spells rule depth position tokens tree) :
    Reads vars tree tokens position depth rule := by
  induction h with
  | number hkind hread => exact fun rest => factor_number hkind hread rest _ _
  | name hkind => exact fun rest => factor_name hkind rest _ _
  | @group depth position opening closing body tree hopening hclosing hdepth hbody ih =>
    intro rest
    have hstop (tier : Tier) : tier.operator? closing = none :=
      Tier.operator?_of_kind (by simp [hclosing]) tier
    have hinner := expression_gives (ih (closing :: rest) (hstop .product)) (hstop .sum)
    have hgroup := factor_group hopening hclosing hdepth hinner
    simpa [Nat.add_assoc, Nat.add_comm 1] using hgroup
  | @call depth position name opening closing body tree hkind hname hopening hclosing hdepth
      hbody ih =>
    intro rest
    have hstop (tier : Tier) : tier.operator? closing = none :=
      Tier.operator?_of_kind (by simp [hclosing]) tier
    have hinner := expression_gives (ih (closing :: rest) (hstop .product)) (hstop .sum)
    have hcall := factor_call hkind hname hopening hclosing hdepth hinner
    simpa [Nat.add_assoc, Nat.add_comm 2] using hcall
  | factor _ ih => exact fun rest => resumes_first (ih rest)
  | @product depth position tokens more t op left right _ hop _ ihleft ihright =>
    intro rest
    exact resumes_operation (progressive_factor vars) hop (ihleft _) (ihright rest)
  | term _ ih => exact fun rest hstop => resumes_first (term_gives (ih rest) hstop)
  | @sum depth position tokens more t op left right _ hop _ ihleft ihright =>
    intro rest hstop
    -- The operator behind the left operand is no product, so the left operand ends before it.
    have hbehind : Tier.product.operator? t = none := Tier.operator?_of_ne hop (by decide)
    exact resumes_operation (progressive_term vars) hop (ihleft _ hbehind)
      (term_gives (ihright rest) hstop)

end Expression

end LineCalculator
