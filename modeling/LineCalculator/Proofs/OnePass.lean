import LineCalculator.Proofs.TreeParser

/-!
# One pass does the work of two

The evaluator works out values while it reads. It is compared here with parsing first and evaluating
the tree afterwards. As long as the values are defined, the two go in lockstep. At the first fault
in value the one pass stops, and the parser may still go on; whatever it reads from there keeps that
fault as its first one, or ends in a fault in form that the one pass never sees.
-/
namespace LineCalculator

/-- What the one pass comes to where the parser makes this of the same tokens. -/
inductive Follows (vars : Variables) (o : Outcome Float) : Parsed Tree → Prop where
  | value {tree : Tree} {next : Cursor} {x : Float} (heval : tree.eval vars = .ok x)
      (hresult : o.result = .ok x) (hcursor : o.cursor = next) : Follows vars o (.read tree next)
  | fault {tree : Tree} {next : Cursor} {e : ValueFault} (heval : tree.eval vars = .error e)
      (hresult : o.result = .error (.value e)) (hstop : o.cursor.position ≤ next.position) :
      Follows vars o (.read tree next)
  | refused {e : FormFault} {stop : Cursor} (hresult : o.result = .error (.form e))
      (hcursor : o.cursor = stop) : Follows vars o (.refused e stop)
  | early {e : FormFault} {first : ValueFault} {stop : Cursor}
      (hresult : o.result = .error (.value first)) (hstop : o.cursor.position ≤ stop.position) :
      Follows vars o (.refused e stop)

/-- A parse from a cursor on that builds its trees around one that fails, so that they all fail with
the same fault. -/
structure Keeps (vars : Variables) (e : ValueFault) (c : Cursor) (r : Parsed Tree) : Prop where
  forward : c.position ≤ r.cursor.position
  eval : ∀ tree next, r = .read tree next → tree.eval vars = .error e

variable {vars : Variables}

namespace Follows

variable {o p : Outcome Float} {r : Parsed Tree}

theorem of_eq (h : Follows vars p r) (hresult : o.result = p.result)
    (hcursor : o.cursor = p.cursor) : Follows vars o r := by
  cases h with
  | value heval hp hnext => exact .value heval (hresult.trans hp) (hcursor.trans hnext)
  | fault heval hp hstop => exact .fault heval (hresult.trans hp) (hcursor ▸ hstop)
  | refused hp hstop => exact .refused (hresult.trans hp) (hcursor.trans hstop)
  | early hp hstop => exact .early (hresult.trans hp) (hcursor ▸ hstop)

theorem after (h : Follows vars o r) (event : Event) : Follows vars (o.after event) r :=
  h.of_eq rfl rfl

/-- A step of both: in lockstep from a value, and by the parser alone from a fault. -/
theorem andThen {next : Float → Cursor → Outcome Float} {more : Tree → Cursor → Parsed Tree}
    (h : Follows vars o r)
    (hvalue : ∀ tree c x, tree.eval vars = .ok x → Follows vars (next x c) (more tree c))
    (hfault : ∀ tree c e, tree.eval vars = .error e → Keeps vars e c (more tree c)) :
    Follows vars (o.andThen next) (r.andThen more) := by
  cases h with
  | @value tree _ x heval hresult hcursor =>
    subst hcursor
    rw [Outcome.andThen_ok hresult]
    exact (hvalue tree o.cursor x heval).of_eq rfl rfl
  | @fault tree behind e heval hresult hstop =>
    have hkeeps := hfault tree behind e heval
    have hforward := Nat.le_trans hstop hkeeps.forward
    rw [Outcome.andThen_error hresult]
    simp only [Parsed.andThen]
    cases hmore : more tree behind with
    | read larger last =>
      rw [hmore] at hforward
      exact .fault (hkeeps.eval larger last hmore) rfl hforward
    | refused _ _ =>
      rw [hmore] at hforward
      exact .early rfl hforward
  | refused hresult hcursor =>
    rw [Outcome.andThen_error hresult]
    exact .refused rfl hcursor
  | early hresult hstop =>
    rw [Outcome.andThen_error hresult]
    exact .early rfl hstop

end Follows

namespace Expression

theorem follows_number (c : Cursor) : Follows vars (number c) (Parser.number c) := by
  unfold number Parser.number
  cases Number.read? c.peek.text with
  | some value => exact .value rfl rfl rfl
  | none => exact .refused rfl rfl

theorem follows_variableRead (c : Cursor) :
    Follows vars (variableRead vars c) (Parser.name c) := by
  unfold variableRead Parser.name
  cases hlookup : vars.lookup c.peek.text c.position with
  | ok x => exact .value hlookup rfl rfl
  | error e => exact .fault hlookup rfl (Parser.le_position_advance c)

theorem follows_closeGroup {tree : Tree} {x : Float} (heval : tree.eval vars = .ok x)
    (c : Cursor) : Follows vars (closeGroup x c) (Parser.closeGroup tree c) := by
  unfold closeGroup Parser.closeGroup
  cases c.eat? .closeParen with
  | some closed => exact .value heval rfl rfl
  | none => exact .refused rfl rfl

theorem keeps_closeGroup {tree : Tree} {e : ValueFault} (heval : tree.eval vars = .error e)
    (c : Cursor) : Keeps vars e c (Parser.closeGroup tree c) := by
  constructor
  · exact Parser.forward_closeGroup tree c
  · intro larger next hread
    unfold Parser.closeGroup at hread
    split at hread
    · obtain ⟨rfl, -⟩ := Parsed.read.inj hread
      exact heval
    · cases hread

/-- Closing behind what both have read inside a group. -/
theorem follows_andThen_closeGroup {o : Outcome Float} {r : Parsed Tree} (h : Follows vars o r) :
    Follows vars (o.andThen closeGroup) (r.andThen Parser.closeGroup) :=
  h.andThen (fun _ c _ heval => follows_closeGroup heval c)
    (fun _ c _ heval => keeps_closeGroup heval c)

theorem follows_applyAt {argument : Tree} {x : Float} (heval : argument.eval vars = .ok x)
    (f : Builtin) (position : Nat) (c : Cursor) :
    Follows vars (applyAt f position x c) (.read (.call f position argument) c) := by
  have hcall := Tree.eval_call_ok heval f position
  unfold applyAt
  cases happly : f.apply x position with
  | ok y => exact .value (hcall.trans happly) rfl rfl
  | error e => exact .fault (hcall.trans happly) rfl (Nat.le_refl _)

variable {inner operand : Cursor → Outcome Float} {parseInner parse : Cursor → Parsed Tree}

theorem follows_group (hinner : ∀ c, Follows vars (inner c) (parseInner c)) (c : Cursor) :
    Follows vars (group inner c) (Parser.group parseInner c) := by
  unfold group Parser.group
  cases c.enterGroup with
  | ok opened => exact follows_andThen_closeGroup (hinner opened.advance)
  | error fault => exact .refused rfl rfl

theorem follows_call (hinner : ∀ c, Follows vars (inner c) (parseInner c)) (c : Cursor) :
    Follows vars (call inner c) (Parser.call parseInner c) := by
  unfold call Parser.call
  cases c.enterGroup with
  | error fault => exact .refused rfl rfl
  | ok opened =>
    dsimp only
    cases Builtin.ofName? c.peek.text with
    | none => exact .refused rfl rfl
    | some f =>
      dsimp only
      cases opened.advance.eat? .openParen with
      | none => exact .refused rfl rfl
      | some argument =>
        refine (follows_andThen_closeGroup (hinner argument)).andThen ?_ ?_
        · intro tree next x heval
          exact follows_applyAt heval f c.position next
        · intro tree next e heval
          refine ⟨Nat.le_refl _, fun larger last hread => ?_⟩
          obtain ⟨rfl, -⟩ := Parsed.read.inj hread
          exact Tree.eval_call_error heval f c.position

theorem follows_factorWith (hinner : ∀ c, Follows vars (inner c) (parseInner c)) (c : Cursor) :
    Follows vars (factorWith vars inner c) (Parser.factorWith parseInner c) := by
  unfold factorWith Parser.factorWith
  refine Follows.after ?_ _
  cases c.peek.kind with
  | number => exact follows_number c
  | name => exact follows_variableRead c
  | openParen => exact follows_group hinner c
  | function => exact follows_call hinner c
  | _ => exact .refused rfl rfl

/-- A chain that is parsed on from a left operand with a fault keeps the fault. -/
theorem keeps_chainFrom (hparse : Parser.Forward parse) (tier : Tier) {e : ValueFault}
    (bound : List Token) {left : Tree} (heval : left.eval vars = .error e) (c : Cursor) :
    Keeps vars e c (Parser.chainFrom tier parse bound left c) := by
  constructor
  · exact Parser.forward_chainFrom hparse tier bound left c
  induction bound generalizing left c with
  | nil =>
    intro tree next hread
    obtain ⟨rfl, -⟩ := Parsed.read.inj hread
    exact heval
  | cons t bound ih =>
    intro tree next hread
    unfold Parser.chainFrom at hread
    split at hread
    · obtain ⟨rfl, -⟩ := Parsed.read.inj hread
      exact heval
    · cases hright : parse c.advance with
      | refused _ _ =>
        rw [hright] at hread
        cases hread
      | read right behind =>
        rw [hright] at hread
        exact ih (Tree.eval_operation_left heval) behind tree next hread

theorem follows_chainFrom (hparse : Parser.Forward parse)
    (hoperand : ∀ c, Follows vars (operand c) (parse c)) (tier : Tier) (bound : List Token)
    {left : Tree} {x : Float} (heval : left.eval vars = .ok x) (c : Cursor) :
    Follows vars (chainFrom tier operand bound x c)
      (Parser.chainFrom tier parse bound left c) := by
  induction bound generalizing left x c with
  | nil => exact .value heval rfl rfl
  | cons t bound ih =>
    unfold chainFrom Parser.chainFrom
    cases tier.operator? c.peek with
    | none => exact .value heval rfl rfl
    | some op =>
      refine (hoperand c.advance).andThen ?_ ?_
      · intro right next y hright
        exact (ih (Tree.eval_operation_ok heval hright) next).after _
      · intro right next e hright
        exact keeps_chainFrom hparse tier bound (Tree.eval_operation_right heval hright) next

theorem follows_chain (hparse : Parser.Forward parse)
    (hoperand : ∀ c, Follows vars (operand c) (parse c)) (tier : Tier) (c : Cursor) :
    Follows vars (chain tier operand c) (Parser.chain tier parse c) := by
  refine (hoperand c).andThen ?_ ?_
  · intro left next x heval
    exact follows_chainFrom hparse hoperand tier next.ahead heval next
  · intro left next e heval
    exact keeps_chainFrom hparse tier next.ahead heval next

theorem follows_termWith (hforward : Parser.Forward parseInner)
    (hinner : ∀ c, Follows vars (inner c) (parseInner c)) (c : Cursor) :
    Follows vars (termWith vars inner c) (Parser.termWith parseInner c) :=
  (follows_chain (Parser.forward_factorWith hforward) (follows_factorWith hinner) .product c).after _

theorem follows_expressionWith (hforward : Parser.Forward parseInner)
    (hinner : ∀ c, Follows vars (inner c) (parseInner c)) (c : Cursor) :
    Follows vars (expressionWith vars inner c) (Parser.expressionWith parseInner c) :=
  (follows_chain (Parser.forward_termWith hforward) (follows_termWith hforward hinner) .sum c).after _

/-- The two recursions open groups under the same limit. -/
theorem follows_groupBody (levels : Nat) (c : Cursor) :
    Follows vars (groupBody vars levels c) (Parser.groupBody levels c) := by
  induction levels generalizing c with
  | zero => exact .refused rfl rfl
  | succ levels ih => exact follows_expressionWith (Parser.forward_groupBody levels) ih c

theorem follows_expression (vars : Variables) (c : Cursor) :
    Follows vars (expression vars c) (Parser.expression c) :=
  follows_expressionWith (Parser.forward_groupBody _) (follows_groupBody _) c

end Expression

namespace Parser

variable {c : Cursor}

theorem statement_eq_read {form : StatementForm} {tree : Tree} {next : Cursor}
    (h : statement c = .read (form, tree) next) :
    form = (Statement.heading c).1 ∧ expression (Statement.heading c).2 = .read tree next := by
  unfold statement at h
  cases hexpression : expression (Statement.heading c).2 with
  | refused _ _ =>
    rw [hexpression] at h
    cases h
  | read inside behind =>
    rw [hexpression] at h
    obtain ⟨hpair, rfl⟩ := Parsed.read.inj h
    obtain ⟨hform, rfl⟩ := Prod.mk.inj hpair
    exact ⟨hform.symm, rfl⟩

theorem statement_eq_refused {fault : FormFault} {stop : Cursor}
    (h : statement c = .refused fault stop) :
    expression (Statement.heading c).2 = .refused fault stop := by
  unfold statement at h
  cases hexpression : expression (Statement.heading c).2 with
  | refused _ _ =>
    rw [hexpression] at h
    obtain ⟨rfl, rfl⟩ := Parsed.refused.inj h
    rfl
  | read _ _ =>
    rw [hexpression] at h
    cases h

end Parser

namespace Statement

variable {c : Cursor}

theorem result_of_value {x : Float} (h : (expression vars (heading c).2).result = .ok x) :
    (statement vars c).result = .ok ⟨(heading c).1, x⟩ :=
  result_eq_ok_iff.mpr ⟨rfl, h⟩

theorem result_of_fault {fault : Fault}
    (h : (expression vars (heading c).2).result = .error fault) :
    (statement vars c).result = .error fault :=
  result_eq_error_iff.mpr h

end Statement

/-- A statement that parses returns its form and the value of its tree behind its tokens exactly
when the tree has that value, and fails with the first fault of the tree otherwise. Only a statement
that parses as an assignment and whose tree has a value changes the variables. -/
theorem statement_refines_parse_eval (vars : Variables) (c : Cursor) :
    (∀ form tree next, Parser.statement c = .read (form, tree) next →
      (∀ x, tree.eval vars = .ok x ↔
        (statement vars c).result = .ok ⟨form, x⟩ ∧ (statement vars c).cursor = next) ∧
      (∀ e, tree.eval vars = .error e ↔ (statement vars c).result = .error (.value e)) ∧
      (statement vars c).store vars =
        match form, tree.eval vars with
        | .assignment name, .ok x => vars.insert name x
        | _, _ => vars) ∧
    ∀ fault stop, Parser.statement c = .refused fault stop →
      (∃ first, (statement vars c).result = .error first) ∧
        (statement vars c).store vars = vars := by
  have hfollows := Expression.follows_expression vars (Statement.heading c).2
  constructor
  · intro form tree next hparse
    obtain ⟨rfl, hread⟩ := Parser.statement_eq_read hparse
    rw [hread] at hfollows
    cases hfollows with
    | @value _ _ x heval hresult hcursor =>
      have hvalue := Statement.result_of_value hresult
      have hnext := Statement.cursor_eq_heading.trans hcursor
      refine ⟨fun y => ?_, fun e => ?_, ?_⟩
      · simp [heval, hvalue, hnext]
      · simp [heval, hvalue]
      · rw [Outcome.store_ok hvalue, heval, Evaluation.store]
        cases (Statement.heading c).1 <;> rfl
    | @fault _ _ first heval hresult _ =>
      have hfault := Statement.result_of_fault hresult
      refine ⟨fun y => ?_, fun e => ?_, ?_⟩
      · simp [heval, hfault]
      · simp [heval, hfault]
      · rw [Outcome.store_error hfault, heval]
        cases (Statement.heading c).1 <;> rfl
  · intro fault stop hparse
    rw [Parser.statement_eq_refused hparse] at hfollows
    cases hfollows with
    | refused hresult _ =>
      have hfault := Statement.result_of_fault hresult
      exact ⟨⟨_, hfault⟩, Outcome.store_error hfault vars⟩
    | early hresult _ =>
      have hfault := Statement.result_of_fault hresult
      exact ⟨⟨_, hfault⟩, Outcome.store_error hfault vars⟩

/-- Of two names that were never assigned the left one is reported, and the assignment is not
made. -/
theorem statement_reports_left_name :
    let c := Cursor.atIndex [⟨.name, "z"⟩, ⟨.equals, "="⟩, ⟨.name, "y"⟩, ⟨.operator, "-"⟩,
      ⟨.name, "x"⟩, .endOfLine] 0
    (statement ∅ c).result = .error (.value (.undefinedVariable "y" 2)) ∧
      (statement ∅ c).store ∅ = ∅ := by
  intro c
  have hparse : Parser.statement c =
      .read (.assignment "z", .operation .sub (.name "y" 2) (.name "x" 4))
        ⟨[.endOfLine], 5, 0⟩ := by rfl
  have hread : Variables.lookup ∅ "y" 2 = .error (.undefinedVariable "y" 2) := by
    simp [Variables.lookup]
  have heval : (Tree.operation .sub (.name "y" 2) (.name "x" 4)).eval ∅ =
      .error (.undefinedVariable "y" 2) := Tree.eval_operation_left hread
  obtain ⟨-, hfault, hstore⟩ := (statement_refines_parse_eval ∅ c).1 _ _ _ hparse
  refine ⟨(hfault _).mp heval, ?_⟩
  rw [hstore, heval]

end LineCalculator
