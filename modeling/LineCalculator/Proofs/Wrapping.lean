import LineCalculator.Proofs.NestingLimit
import LineCalculator.Proofs.Substitution

/-!
# Parentheses around an expression

Parentheses around an expression change nothing but the index where it ends, as long as the limit on
groups is kept. Closing ones that are missing are missed at the end of the line, those that are left
over are left alone, and opening ones beyond the limit are refused before anything else is read.
-/
namespace LineCalculator

open Expression

namespace Token

theorem lexemes_openings (n : Nat) (rest : List Char) :
    lexemes (List.replicate n '(' ++ rest) = List.replicate n opening ++ lexemes rest := by
  induction n with
  | zero => rfl
  | succ n ih =>
    have hmark := @lexemes_append_mark '(' rfl rfl rfl [] (List.replicate n '(' ++ rest)
    rw [lexemes_nil, ih] at hmark
    exact hmark

theorem lexemes_closings (text : List Char) (m : Nat) :
    lexemes (text ++ List.replicate m ')') = lexemes text ++ List.replicate m closing := by
  induction m with
  | zero => simp
  | succ m ih =>
    have hmark := @lexemes_append_mark ')' rfl rfl rfl (text ++ List.replicate m ')') []
    rw [List.replicate_succ', List.replicate_succ', ← List.append_assoc, hmark, ih, lexemes_nil,
      List.append_assoc]
    rfl

end Token

/-- Tokens between so many opening parentheses and so many closing ones. -/
def enclosed (openings : Nat) (tokens : List Token) (closings : Nat) : List Token :=
  List.replicate openings Token.opening ++ (tokens ++ List.replicate closings Token.closing)

section Enclosed

variable (k n m : Nat) (tokens : List Token)

theorem length_enclosed : (enclosed n tokens m).length = n + tokens.length + m := by
  simp [enclosed, Nat.add_assoc]

theorem enclosed_add_openings :
    enclosed (k + n) tokens m = List.replicate k Token.opening ++ enclosed n tokens m := by
  rw [enclosed, List.replicate_add, List.append_assoc, enclosed]

theorem enclosed_succ_openings :
    enclosed (n + 1) tokens m = Token.opening :: enclosed n tokens m := by
  rw [enclosed, List.replicate_succ, List.cons_append, enclosed]

theorem enclosed_add_closings :
    enclosed n tokens (m + k) = enclosed n tokens m ++ List.replicate k Token.closing := by
  simp only [enclosed, List.replicate_add, List.append_assoc]

end Enclosed

namespace Derives

variable {vars : Variables} {rule : Rule} {depth deep : Nat} {tokens : List Token} {x : Float}

/-- What is derived at one depth is derived at every other where the groups stay below the limit. -/
theorem at_depth (h : Derives vars rule depth tokens x) (hnests : Nests deep tokens) :
    Derives vars rule deep tokens x := by
  induction h generalizing deep with
  | number hkind hread => exact .number hkind hread
  | name hkind hbound => exact .name hkind hbound
  | group hopening hclosing _ _ ih =>
    obtain ⟨hdeep, hinside⟩ := hnests.inside hopening
    exact .group hopening hclosing hdeep (ih hinside)
  | @call depth name opening closing body argument hkind hname hopening hclosing _ _ hargument ih =>
    have hgroup : Nests deep (opening :: body ++ [closing]) :=
      @Nests.right _ [name] _ hnests (by simp [opened, closed, hkind])
    obtain ⟨hdeep, hinside⟩ := hgroup.inside hopening
    exact .call hkind hname hopening hclosing hdeep (ih hinside) hargument
  | factor _ ih => exact .factor (ih hnests)
  | term _ ih => exact .term (ih hnests)
  | @product _ tokens more op _ _ hleft hop _ ihleft ihright =>
    have hright := hnests.behind hleft.balanced op.operator?_token
    exact .product (ihleft hnests.left) hop (ihright hright)
  | @sum _ tokens more op _ _ hleft hop _ ihleft ihright =>
    have hright := hnests.behind hleft.balanced op.operator?_token
    exact .sum (ihleft hnests.left) hop (ihright hright)

/-- Groups around an expression derive its value, as far as the limit goes. -/
theorem between_groups {n : Nat} (h : Derives vars .expression (depth + n) tokens x)
    (hdepth : depth + n ≤ maxDepth) : Derives vars .expression depth (enclosed n tokens n) x := by
  induction n generalizing depth with
  | zero => simpa [enclosed] using h
  | succ n ih =>
    have hinside := @ih (depth + 1) (by rwa [Nat.add_right_comm]) (by omega)
    rw [enclosed_add_closings, enclosed_succ_openings]
    exact .term (.factor (.group rfl rfl (by omega) hinside))

theorem kind_ne (h : Derives vars rule depth tokens x) :
    ∀ t ∈ tokens, t.kind ≠ .equals ∧ t.kind ≠ .print := by
  obtain ⟨tree, hspells, -⟩ := h.exists_tree 0
  exact hspells.kind_ne

end Derives

namespace Leads

variable {vars : Variables}

/-- An expression begins with a factor. -/
theorem factor (c : Cursor) : Leads vars (.expression, c) (.factor, c) :=
  .head (.first .sum c) (.single (.first .product c))

theorem group {rest : List Token} {position depth : Nat} (hdepth : depth < maxDepth) :
    Leads vars (.expression, ⟨.opening :: rest, position, depth⟩)
      (.expression, ⟨rest, position + 1, depth + 1⟩) :=
  (Leads.factor _).tail (.group rfl hdepth)

/-- Parentheses that open at the start of an expression lead to what they hold. -/
theorem groups {rest : List Token} {n position depth : Nat} (hdepth : depth + n ≤ maxDepth) :
    Leads vars (.expression, ⟨List.replicate n Token.opening ++ rest, position, depth⟩)
      (.expression, ⟨rest, position + n, depth + n⟩) := by
  induction n generalizing position depth with
  | zero => exact .refl
  | succ n ih =>
    have hinside := @ih (position + 1) (depth + 1) (by omega)
    rw [Nat.add_right_comm, Nat.add_right_comm depth] at hinside
    exact (group (by omega)).trans hinside

end Leads

section Faults

variable {vars : Variables} {position depth : Nat}

/-- A group is missed its closing parenthesis where its expression ends the line. -/
theorem unclosed_of_derives {tokens : List Token} {x : Float} (hdepth : depth < maxDepth)
    (h : Derives vars .expression (depth + 1) tokens x) :
    (expression vars ⟨.opening :: (tokens ++ [.endOfLine]), position, depth⟩).result =
      .error (.form (.unclosedParenthesis (position + 1 + tokens.length))) := by
  obtain ⟨hvalue, hcursor⟩ := returns_of_derives h (position + 1) [.endOfLine] fun op _ => nofun
  have hinside := runs_reading vars .expression ⟨tokens ++ [.endOfLine], position + 1, depth + 1⟩
  have hclose : (Cursor.peek ⟨[.endOfLine], position + 1 + tokens.length, depth + 1⟩).kind ≠
      .closeParen := nofun
  have hrun : Runs vars .alternative ⟨.opening :: (tokens ++ [.endOfLine]), position, depth⟩ _ :=
    .group rfl hdepth (.unclosed hinside hvalue (hcursor ▸ hclose))
  refine (Leads.factor _).contains.fault _ ?_
  simp only [← hrun.factor.eq_reading, hcursor]
  rfl

theorem tooDeep_of_opening {rest : List Token} (hdepth : maxDepth ≤ depth) :
    (expression vars ⟨.opening :: rest, position, depth⟩).result =
      .error (.form (.nestedTooDeep position)) :=
  (Leads.factor _).contains.fault _ (factor_tooDeep vars (.head _) hdepth)

end Faults

/-- A text between so many opening parentheses and so many closing ones. -/
def wrapped (openings : Nat) (text : String) (closings : Nat) : String :=
  String.ofList (List.replicate openings '(' ++ (text.toList ++ List.replicate closings ')'))

theorem scan_wrapped (n : Nat) (text : String) (m : Nat) :
    Token.scan (wrapped n text m) = enclosed n (Token.lexemes text.toList) m ++ [.endOfLine] := by
  rw [Token.scan, wrapped, String.toList_ofList, Token.lexemes_openings, Token.lexemes_closings,
    enclosed]

/-- A text that is an expression and nothing else, with its value and with at most so many groups
and calls open at once. -/
structure EvaluatesWithin (vars : Variables) (text : String) (x : Float) (groups : Nat) : Prop where
  result : (evaluateLine vars text).result = .ok ⟨.expression, x⟩
  atEnd : (evaluateLine vars text).cursor.atEnd = true
  openGroups_le : ∀ seen, seen <+: Token.lexemes text.toList → openGroups seen ≤ groups

theorem Token.kind_ne_endOfLine_of_mem {text : String} {t : Token}
    (h : t ∈ lexemes text.toList) : t.kind ≠ .endOfLine := by
  intro hend
  have hshaped := wellShaped_of_mem h
  rw [WellShaped, hend] at hshaped
  exact hshaped

/-- Before the first end of the line stand the tokens that a cursor passes on its way there. -/
theorem Cursor.passed_eq_of_atEnd {tokens passed : List Token} {d : Cursor}
    (htokens : ∀ t ∈ tokens, t.kind ≠ .endOfLine)
    (h : tokens ++ [.endOfLine] = passed ++ d.ahead) (hpassed : ∀ t ∈ passed, t.kind ≠ .endOfLine)
    (hend : d.atEnd = true) : passed = tokens := by
  have hkind : d.peek.kind = .endOfLine := by simpa [atEnd] using hend
  rcases List.append_eq_append_iff.mp h with ⟨more, rfl, hmore⟩ | ⟨more, rfl, hahead⟩
  · cases more with
    | nil => exact List.append_nil tokens
    | cons t more =>
      obtain ⟨rfl, -⟩ := List.cons.inj hmore
      exact absurd rfl (hpassed .endOfLine (by simp))
  · cases more with
    | nil => exact (List.append_nil passed).symm
    | cons t more =>
      rw [peek, hahead] at hkind
      exact absurd hkind (htokens t (by simp))

namespace Statement

/-- A statement without a name to assign and without the keyword is its own expression. -/
theorem heading_of_form {c : Cursor} (h : (heading c).1 = .expression) :
    heading c = (.expression, c) := by
  by_cases hassignment : isAssignment c = true
  · rw [heading, if_pos hassignment] at h
    cases h
  · refine heading_of_bare hassignment fun hprint => ?_
    rw [heading, if_neg hassignment, Cursor.eat?, if_pos hprint] at h
    cases h

end Statement

namespace EvaluatesWithin

variable {vars : Variables} {text : String} {x : Float} {groups n m : Nat}

/-- The tokens of such a text derive its value inside as many groups as the limit leaves. -/
theorem derives (h : EvaluatesWithin vars text x groups) (hdepth : n + groups ≤ maxDepth) :
    Derives vars .expression n (Token.lexemes text.toList) x := by
  let c : Cursor := ⟨Token.scan text, 0, 0⟩
  have hstatement : (statement vars c).result = .ok ⟨.expression, x⟩ := h.result
  obtain ⟨hform, hvalue⟩ := Statement.result_eq_ok_iff.mp hstatement
  have hheading := Statement.heading_of_form hform.symm
  have hend : (expression vars (Statement.heading c).2).cursor.atEnd = true :=
    Statement.cursor_eq_heading ▸ h.atEnd
  rw [hheading] at hvalue hend
  obtain ⟨passed, hpass, hderives, -⟩ := soundFor_reading .expression c x hvalue
  obtain ⟨plain, hahead, -, hplain⟩ := (runs_reading vars .expression c).reaches
  obtain rfl : passed = plain := List.append_cancel_right (hpass.ahead.symm.trans hahead)
  obtain rfl : passed = Token.lexemes text.toList := Cursor.passed_eq_of_atEnd
    (fun t ht => Token.kind_ne_endOfLine_of_mem ht) hahead hplain hend
  refine hderives.at_depth fun seen hseen => ?_
  have hopen := h.openGroups_le seen hseen
  unfold openGroups at hopen
  omega

end EvaluatesWithin

/-- Closing parentheses that are left over behind an expression are left alone. -/
theorem Derives.statement_closed {vars : Variables} {tokens : List Token} {x : Float}
    (h : Derives vars .expression 0 tokens x) (k : Nat) :
    let c : Cursor := ⟨tokens ++ (List.replicate k .closing ++ [.endOfLine]), 0, 0⟩
    (statement vars c).result = .ok ⟨.expression, x⟩ ∧
      (statement vars c).cursor.position = tokens.length := by
  intro c
  have hstop : ∀ op ∈ Rule.expression.operators,
      (List.replicate k Token.closing ++ [Token.endOfLine]).head? ≠
        some ⟨.operator, op.symbol⟩ := by
    cases k with
    | zero => exact fun op _ => nofun
    | succ k => exact fun op _ => nofun
  have hkind : ∀ t ∈ c.ahead, t.kind ≠ .equals ∧ t.kind ≠ .print := by
    intro t ht
    rcases List.mem_append.mp ht with hmem | hmem
    · exact h.kind_ne t hmem
    rcases List.mem_append.mp hmem with hmem | hmem
    · rw [List.eq_of_mem_replicate hmem]
      decide
    · rw [List.mem_singleton.mp hmem]
      decide
  obtain ⟨hvalue, hcursor⟩ := returns_of_derives h 0 _ hstop
  rw [Statement.result_eq_ok_iff, Statement.cursor_eq_heading, Statement.heading_of_kind_ne hkind]
  exact ⟨⟨rfl, hvalue⟩, (congrArg Cursor.position hcursor).trans (Nat.zero_add _)⟩

/-- What an expression behind parentheses fails with the statement fails with. -/
theorem statement_fault_of_openings {vars : Variables} {k : Nat} {rest : List Token} {fault : Fault}
    (hdepth : k ≤ maxDepth)
    (h : (expression vars ⟨.opening :: rest, k, k⟩).result = .error fault) :
    (statement vars ⟨List.replicate k Token.opening ++ .opening :: rest, 0, 0⟩).result =
      .error fault := by
  let c : Cursor := ⟨List.replicate k Token.opening ++ .opening :: rest, 0, 0⟩
  have hkind : c.peek.kind = .openParen := by cases k <;> rfl
  have hheading : Statement.heading c = (.expression, c) :=
    Statement.heading_of_bare (by simp [Statement.isAssignment, hkind]) (by simp [hkind])
  have hleads : Leads vars (.expression, c) (.expression, ⟨.opening :: rest, 0 + k, 0 + k⟩) :=
    .groups (by omega)
  rw [Statement.result_eq_error_iff, hheading]
  refine hleads.contains.fault fault ?_
  rw [Nat.zero_add]
  exact h

section Wrapped

variable {vars : Variables} {text : String} {x : Float} {groups n m : Nat}

theorem evaluateLine_wrapped (vars : Variables) (n : Nat) (text : String) (m : Nat) :
    evaluateLine vars (wrapped n text m) =
      statement vars ⟨enclosed n (Token.lexemes text.toList) m ++ [.endOfLine], 0, 0⟩ := by
  rw [evaluateLine, scan_wrapped]
  rfl

theorem EvaluatesWithin.closed (h : EvaluatesWithin vars text x groups)
    (hdepth : n + groups ≤ maxDepth) (hclosed : n ≤ m) :
    (evaluateLine vars (wrapped n text m)).result = .ok ⟨.expression, x⟩ ∧
      (evaluateLine vars (wrapped n text m)).cursor.position =
        n + (Token.lexemes text.toList).length + n := by
  obtain ⟨k, rfl⟩ := Nat.exists_eq_add_of_le hclosed
  have hderives : Derives vars .expression (0 + n) (Token.lexemes text.toList) x :=
    (Nat.zero_add n).symm ▸ h.derives hdepth
  have hstatement := (hderives.between_groups (by omega)).statement_closed k
  rw [evaluateLine_wrapped, enclosed_add_closings, List.append_assoc, ← length_enclosed]
  exact hstatement

theorem EvaluatesWithin.unclosed (h : EvaluatesWithin vars text x groups)
    (hdepth : n + groups ≤ maxDepth) (hopen : m < n) :
    (evaluateLine vars (wrapped n text m)).result =
      .error (.form (.unclosedParenthesis (n + (Token.lexemes text.toList).length + m))) := by
  obtain ⟨k, rfl⟩ : ∃ k, n = k + (m + 1) := ⟨n - (m + 1), by omega⟩
  have hderives : Derives vars .expression (k + 1 + m) (Token.lexemes text.toList) x :=
    h.derives (by omega)
  have hgroup : (expression vars ⟨.opening :: (_ ++ [.endOfLine]), k, k⟩).result = _ :=
    unclosed_of_derives (by omega) (hderives.between_groups (by omega))
  have hposition : k + (m + 1) + (Token.lexemes text.toList).length + m =
      k + 1 + (m + (Token.lexemes text.toList).length + m) := by omega
  rw [evaluateLine_wrapped, enclosed_add_openings, enclosed_succ_openings, List.append_assoc,
    List.cons_append, hposition, ← length_enclosed]
  exact statement_fault_of_openings (by omega) hgroup

/-- No more parentheses are read than the limit on groups and one. -/
theorem evaluateLine_tooDeep (vars : Variables) (text : String) (m : Nat) (h : maxDepth < n) :
    (evaluateLine vars (wrapped n text m)).result = .error (.form (.nestedTooDeep maxDepth)) := by
  obtain ⟨k, rfl⟩ : ∃ k, n = maxDepth + (k + 1) := ⟨n - (maxDepth + 1), by omega⟩
  rw [evaluateLine_wrapped, enclosed_add_openings, enclosed_succ_openings, List.append_assoc,
    List.cons_append]
  exact statement_fault_of_openings (Nat.le_refl _) (tooDeep_of_opening (Nat.le_refl _))

end Wrapped

/-- Of an expression in parentheses the line has the value, if all of them are closed, and is read
up to the last one that belongs to them; if one is missing, the end of the line is refused in its
place. Where more are opened than the limit allows, the first one beyond is refused, whatever they
hold. -/
theorem evaluateLine_in_parentheses (vars : Variables) (text : String) (n m : Nat) :
    let o := evaluateLine vars (wrapped n text m)
    let count := (Token.lexemes text.toList).length
    (∀ x groups, EvaluatesWithin vars text x groups → n + groups ≤ maxDepth →
      (n ≤ m → o.result = .ok ⟨.expression, x⟩ ∧ o.cursor.position = n + count + n) ∧
        (m < n → o.result = .error (.form (.unclosedParenthesis (n + count + m))))) ∧
      (maxDepth < n → o.result = .error (.form (.nestedTooDeep maxDepth))) :=
  ⟨fun _ _ h hdepth => ⟨h.closed hdepth, h.unclosed hdepth⟩, evaluateLine_tooDeep vars text m⟩

/-- Two groups around a group may have one more parenthesis behind them and none less; of 129 the
last one is refused. -/
theorem groups_around_group :
    let vars : Variables := (∅ : Variables).insert "x" 1
    EvaluatesWithin vars "(x)" 1 1 ∧
      (evaluateLine vars "(((x))))").result = .ok ⟨.expression, 1⟩ ∧
      (evaluateLine vars "(((x))))").cursor.position = 7 ∧
      (evaluateLine vars "(((x))").result = .error (.form (.unclosedParenthesis 6)) ∧
      (evaluateLine vars (wrapped 129 "(x)" 0)).result = .error (.form (.nestedTooDeep 128)) := by
  intro vars
  have htokens : Token.lexemes "(x)".toList = [.opening, ⟨.name, "x"⟩, .closing] := by
    decide +kernel
  have hevaluates : EvaluatesWithin vars "(x)" 1 1 := by
    have hline : evaluateLine vars "(x)" =
        evaluate vars [.opening, ⟨.name, "x"⟩, .closing, .endOfLine] 0 := by
      rw [evaluateLine, Token.scan, htokens]
      rfl
    have hvalue : (evaluateLine vars "(x)").result = .ok ⟨.expression, 1⟩ ∧
        (evaluateLine vars "(x)").cursor.atEnd = true := by
      rw [hline]
      simp only [vars]
      exact ⟨rfl, rfl⟩
    refine ⟨hvalue.1, hvalue.2, fun seen hseen => ?_⟩
    have htake : ∀ n ≤ 3,
        openGroups (List.take n [.opening, ⟨.name, "x"⟩, .closing]) ≤ 1 := by decide
    rw [htokens] at hseen
    rw [List.prefix_iff_eq_take.mp hseen]
    exact htake _ hseen.length_le
  have hlength : (Token.lexemes "(x)".toList).length = 3 := congrArg List.length htokens
  have hclosed := ((evaluateLine_in_parentheses vars "(x)" 2 3).1 1 1 hevaluates (by decide)).1
  have hopen := ((evaluateLine_in_parentheses vars "(x)" 2 1).1 1 1 hevaluates (by decide)).2
  have hdeep := (evaluateLine_in_parentheses vars "(x)" 129 0).2 (by decide)
  rw [hlength] at hclosed hopen
  obtain ⟨hresult, hposition⟩ := hclosed (by decide)
  exact ⟨hevaluates, hresult, hposition, hopen (by decide), hdeep⟩

end LineCalculator
