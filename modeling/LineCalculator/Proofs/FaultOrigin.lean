import LineCalculator.Proofs.OpenGroups
import LineCalculator.Proofs.StatementGrammar

/-!
# The token that a fault points at

A fault is raised by one factor, or by one group that is not closed, and travels unchanged through
all that is around it. So the index that it carries, the token there and the place where the cursor
stops are settled where it is raised.
-/
namespace LineCalculator

open Expression

/-- The ways in which a fault is raised at a cursor, and the cursor where it leaves the reading. A
group that is not closed raises its fault from its inside. -/
inductive Raises (vars : Variables) (c : Cursor) : Fault → Cursor → Prop where
  | malformed (hkind : c.peek.kind = .number) (hread : Number.read? c.peek.text = none) :
      Raises vars c (.form (.malformedNumber c.peek.text c.position)) c.advance
  | undefined (hkind : c.peek.kind = .name) (hnone : vars[c.peek.text]? = none) :
      Raises vars c (.value (.undefinedVariable c.peek.text c.position)) c
  | unexpected (hkind : c.peek.kind ∉ [.number, .name, .openParen, .function]) :
      Raises vars c (.form (.unexpectedToken c.peek.display c.position)) c
  | tooDeep (hkind : c.peek.kind ∈ [.openParen, .function]) (hdepth : maxDepth ≤ c.depth) :
      Raises vars c (.form (.nestedTooDeep c.position)) c
  | unknown (hkind : c.peek.kind = .function) (hname : Builtin.ofName? c.peek.text = none) :
      Raises vars c (.form (.unexpectedToken c.peek.display c.position)) c.deeper.advance
  | unopened {f : Builtin} (hkind : c.peek.kind = .function)
      (hname : Builtin.ofName? c.peek.text = some f)
      (hopen : c.deeper.advance.peek.kind ≠ .openParen) :
      Raises vars c (.form (.expectedOpenParen f.name c.deeper.advance.position)) c.deeper.advance
  | unclosed {o : Outcome Float} {x : Float} (hdepth : 0 < c.depth)
      (h : Runs vars (.rule .expression) c o) (hvalue : o.result = .ok x)
      (hclose : o.cursor.peek.kind ≠ .closeParen) :
      Raises vars c (.form (.unclosedParenthesis o.cursor.position)) o.cursor
  | refused {f : Builtin} {o : Outcome Float} {x : Float} {fault : ValueFault}
      (hkind : c.peek.kind = .function) (hname : Builtin.ofName? c.peek.text = some f)
      (hopen : c.deeper.advance.peek.kind = .openParen)
      (h : Runs vars (.rule .expression) c.deeper.advance.advance o) (hvalue : o.result = .ok x)
      (hclose : o.cursor.peek.kind = .closeParen)
      (happly : f.apply x c.position = .error fault) :
      Raises vars c (.value fault) o.cursor.advance.leaveGroup

namespace Runs

variable {vars : Variables} {part : Part} {c : Cursor} {o : Outcome Float}

/-- What a group holds has the value of its expression, which its closing parenthesis follows. -/
theorem exists_expression_of_body (h : Runs vars .body c o) {x : Float} (hx : o.result = .ok x) :
    ∃ p, Runs vars (.rule .expression) c p ∧ p.result = .ok x ∧
      p.cursor.peek.kind = .closeParen ∧ o.cursor = p.cursor.advance.leaveGroup := by
  cases h with
  | unfilled _ hfault =>
    rw [hfault] at hx
    cases hx
  | unclosed => cases hx
  | closed h hvalue hclose =>
    cases hx
    exact ⟨_, h, hvalue, hclose, rfl⟩

open Cursor.Tallies in
/-- The fault of a run is raised at a cursor that the run comes to, with the groups open that it has
passed the parentheses of. -/
theorem exists_raises (h : Runs vars part c o) (hopen : part = .body → 0 < c.depth) {fault : Fault}
    (hfault : o.result = .error fault) : ∃ d, c.Tallies d ∧ Raises vars d fault o.cursor := by
  -- What a group or a call holds is entered with that group open, so the condition on the depth is
  -- met wherever a body stands inside a run; every other part is entered without one.
  induction h with
  | number | variableRead | called | closed | operation => cases hfault
  | malformed hkind hread =>
    cases hfault
    exact ⟨_, refl _, .malformed hkind hread⟩
  | undefined hkind hnone =>
    cases hfault
    exact ⟨_, refl _, .undefined hkind hnone⟩
  | unexpected hkind =>
    cases hfault
    exact ⟨_, refl _, .unexpected hkind⟩
  | tooDeep hkind hdepth =>
    cases hfault
    exact ⟨_, refl _, .tooDeep hkind hdepth⟩
  | unknown hkind _ hname =>
    cases hfault
    exact ⟨_, refl _, .unknown hkind hname⟩
  | unopened hkind _ hname hparen =>
    cases hfault
    exact ⟨_, refl _, .unopened hkind hname hparen⟩
  | unclosed h hvalue hclose =>
    cases hfault
    exact ⟨_, refl _, .unclosed (hopen rfl) h hvalue hclose⟩
  | refused hkind _ hname hparen h hvalue happly =>
    cases hfault
    obtain ⟨p, hp, hresult, hclose, hcursor⟩ := h.exists_expression_of_body hvalue
    refine ⟨_, refl _, ?_⟩
    dsimp only
    rw [hcursor]
    exact .refused hkind hname hparen hp hresult hclose happly
  | group hkind _ _ ih =>
    obtain ⟨d, hd, hraises⟩ := ih (fun _ => by simp) hfault
    exact ⟨d, (deeper_advance hkind).trans hd, hraises⟩
  | unargued hkind _ _ hparen _ _ ih =>
    obtain ⟨d, hd, hraises⟩ := ih (fun _ => by simp) hfault
    exact ⟨d, (deeper_advance_advance hkind hparen).trans hd, hraises⟩
  | unfilled _ _ ih => exact ih nofun hfault
  | operand _ ih | factor _ ih | joined _ _ ih => exact ih nofun hfault
  | halted h hleft hop _ hright _ ihright =>
    cases hfault
    obtain ⟨d, hd, hraises⟩ := ihright nofun hright
    have hsign := advance_of_kind (Token.kind_of_tier hop) (by decide)
    exact ⟨d, ((h.tallies_of_chain hleft).trans hsign).trans hd, hraises⟩

end Runs

theorem Token.eq_of_kind {t : Token} {kind : TokenKind} (h : t.kind = kind) : t = ⟨kind, t.text⟩ := by
  rw [← h]

/-- Where the fault of an evaluation points, and where the cursor stops. Past its end a list holds
nothing but ends of the line. -/
def Fault.PointsAt (vars : Variables) (tokens : List Token) (start stop : Nat) (fault : Fault) :
    Prop :=
  let token (i : Nat) : Token := tokens[i]?.getD .endOfLine
  match fault with
  | .form (.unexpectedToken found k) =>
    found = (token k).display ∧
      ((token k).kind ∈ [.operator, .closeParen, .equals, .print, .endOfLine, .stray] ∧ stop = k ∨
        (token k).kind = .function ∧ (token k).text ≠ "root" ∧ stop = k + 1)
  | .form (.unclosedParenthesis k) =>
    stop = k ∧ (token k).kind ≠ .closeParen ∧
      closed (tokens.extract start k) < opened (tokens.extract start k)
  | .form (.expectedOpenParen function k) =>
    stop = k ∧ function = "root" ∧ (token k).kind ≠ .openParen ∧
      ∃ i, start ≤ i ∧ k = i + 1 ∧ token i = ⟨.function, function⟩
  | .form (.malformedNumber literal k) =>
    token k = ⟨.number, literal⟩ ∧ Number.read? literal = none ∧ stop = k + 1
  | .form (.nestedTooDeep k) => (token k).kind ∈ [.openParen, .function] ∧ stop = k
  | .value (.undefinedVariable name k) =>
    token k = ⟨.name, name⟩ ∧ vars[name]? = none ∧ stop = k
  | .value (.negativeRoot x k) =>
    token k = ⟨.function, "root"⟩ ∧ (token (k + 1)).kind = .openParen ∧ x < 0 ∧
      ∃ last, stop = last + 1 ∧ (token last).kind = .closeParen ∧
        Derives vars .expression (openGroups (tokens.extract start k) + 1)
          (tokens.extract (k + 2) last) x

namespace Raises

variable {vars : Variables} {tokens : List Token} {start depth : Nat} {c stopped : Cursor}
  {fault : Fault}

/-- The argument of a refused call stands between the parentheses behind the name. -/
theorem exists_argument {k : Nat} {o : Outcome Float} {x : Float}
    (hkind : (Cursor.place tokens k depth).peek.kind = .function)
    (hopen : (Cursor.place tokens k depth).deeper.advance.peek.kind = .openParen)
    (h : Runs vars (.rule .expression) (Cursor.place tokens k depth).deeper.advance.advance o)
    (hx : o.result = .ok x) :
    ∃ last, o.cursor = .place tokens last (depth + 1) ∧
      Derives vars .expression (depth + 1) (tokens.extract (k + 2) last) x := by
  have hend : (Cursor.place tokens k (depth + 1)).atEnd = false :=
    atEnd_false_of_kind hkind (by decide)
  have hname : (Cursor.place tokens k depth).deeper.advance = .place tokens (k + 1) (depth + 1) :=
    Cursor.advance_place hend
  rw [hname] at hopen h
  rw [Cursor.advance_place (atEnd_false_of_kind hopen (by decide))] at h
  obtain ⟨passed, hpass, hderives, -⟩ := h.derived hx
  have hcursor := (hderives.tallies hpass).eq_place
  rw [hpass.depth] at hcursor
  rw [hcursor] at hpass
  obtain ⟨-, hextract⟩ := Cursor.extract_of_passes hderives.ne_nil hpass
  exact ⟨o.cursor.position, hcursor, hextract ▸ hderives⟩

/-- A fault that is raised where as many groups are open as the parentheses show points at its token,
and the cursor stops where it should. -/
theorem pointsAt {k : Nat} (h : Raises vars (.place tokens k depth) fault stopped)
    (hk : (Cursor.place tokens start 0).Tallies (.place tokens k depth)) :
    fault.PointsAt vars tokens start stopped.position := by
  have htoken (i : Nat) : tokens[i]?.getD .endOfLine = (Cursor.place tokens i depth).peek :=
    (Cursor.peek_place tokens i depth).symm
  have hbehind (hend : (Cursor.place tokens k depth).atEnd = false) :
      (Cursor.place tokens k depth).deeper.advance = .place tokens (k + 1) (depth + 1) :=
    Cursor.advance_place hend
  simp only [Fault.PointsAt, htoken]
  cases h with
  | malformed hkind hread =>
    have hstop := Cursor.advance_place (atEnd_false_of_kind hkind (by decide))
    exact ⟨Token.eq_of_kind hkind, hread, congrArg Cursor.position hstop⟩
  | undefined hkind hnone => exact ⟨Token.eq_of_kind hkind, hnone, rfl⟩
  | unexpected hkind =>
    have hothers : ∀ kind : TokenKind, kind ∉ [.number, .name, .openParen, .function] →
        kind ∈ [.operator, .closeParen, .equals, .print, .endOfLine, .stray] := by
      intro kind
      cases kind <;> decide
    exact ⟨rfl, .inl ⟨hothers _ hkind, rfl⟩⟩
  | tooDeep hkind => exact ⟨hkind, rfl⟩
  | unknown hkind hname =>
    have hstop := hbehind (atEnd_false_of_kind hkind (by decide))
    have hother : (Cursor.place tokens k depth).peek.text ≠ "root" := by
      simpa [Builtin.ofName?] using hname
    exact ⟨rfl, .inr ⟨hkind, hother, congrArg Cursor.position hstop⟩⟩
  | @unopened f hkind hname hopen =>
    have hstop := hbehind (atEnd_false_of_kind hkind (by decide))
    have htext := Builtin.ofName?_eq_some_iff.mp hname
    have hroot := Token.eq_of_kind hkind
    rw [hstop] at hopen ⊢
    rw [htext] at hroot
    cases f
    exact ⟨rfl, rfl, hopen, k, hk.position_le, rfl, hroot⟩
  | @unclosed o x hdepth h hvalue hclose =>
    obtain ⟨hrun, hsame⟩ := h.tallies_of_rule hvalue
    have hall := hk.trans hrun
    have hbalance := hall.depth_eq
    have hdepth : 0 < depth := hdepth
    have hsame : o.cursor.depth = depth := hsame
    rw [hall.eq_place, hsame] at hclose
    exact ⟨rfl, hclose, by omega⟩
  | @refused f o x fault hkind hname hopen h hvalue hclose happly =>
    obtain ⟨last, hcursor, hderives⟩ := exists_argument hkind hopen h hvalue
    rw [hbehind (atEnd_false_of_kind hkind (by decide))] at hopen
    rw [hcursor] at hclose ⊢
    cases f
    obtain ⟨hneg, rfl⟩ := Builtin.squareRoot_eq_error_iff.mp happly
    have hroot := Token.eq_of_kind hkind
    rw [Builtin.ofName?_eq_some_iff.mp hname] at hroot
    have hstop := Cursor.advance_place (atEnd_false_of_kind hclose (by decide))
    have hdepth : depth = openGroups (tokens.extract start k) := hk.depth_eq_openGroups
    rw [hdepth] at hderives
    exact ⟨hroot, hopen, hneg, last, congrArg Cursor.position hstop, hclose, hderives⟩

end Raises

/-- No parenthesis stands before the expression of a statement. -/
theorem Statement.tallies_heading (c : Cursor) : c.Tallies (heading c).2 := by
  by_cases hassignment : isAssignment c = true
  · obtain ⟨hname, hsign⟩ := Bool.and_eq_true_iff.mp hassignment
    have hname : c.peek.kind = .name := of_decide_eq_true hname
    have hsign : c.peekNext.kind = .equals := of_decide_eq_true hsign
    have hend := atEnd_false_of_kind hname (by decide)
    have hnext : c.advance.peek = c.peekNext := by
      rw [Cursor.advance_of_not_atEnd hend, Cursor.peekNext, hend]
      rfl
    rw [heading, if_pos hassignment]
    exact .trans (.advance_of_kind hname (by decide))
      (.advance_of_kind (hnext ▸ hsign) (by decide))
  by_cases hprint : c.peek.kind = .print
  · rw [heading, if_neg hassignment, Cursor.eat?_eq_some_iff.mpr ⟨hprint, rfl⟩]
    exact .advance_of_kind hprint (by decide)
  · rw [heading_of_bare hassignment hprint]
    exact .refl c

/-- The fault of an evaluation carries the index of the token at fault and describes that token as it
is. The cursor stops there, behind it, or behind the call whose argument was refused. -/
theorem evaluate_fault_pointsAt {vars : Variables} {tokens : List Token} {start : Nat}
    {fault : Fault} (h : (evaluate vars tokens start).result = .error fault) :
    fault.PointsAt vars tokens start (evaluate vars tokens start).cursor.position := by
  have hheading := Statement.tallies_heading (Cursor.place tokens start 0)
  have hrun := Runs.expression_reading vars (Statement.heading (.place tokens start 0)).2
  have hfault := Statement.result_eq_error_iff.mp h
  obtain ⟨d, hd, hraises⟩ := hrun.exists_raises nofun hfault
  have hplace := (hheading.trans hd).eq_place
  rw [hplace] at hraises
  have hstop : (evaluate vars tokens start).cursor = _ := Statement.cursor_eq_heading
  rw [hstop]
  exact hraises.pointsAt (hplace ▸ hheading.trans hd)

/-- A group that lacks its parenthesis is missed at the index where the parenthesis should stand,
inside the groups that were opened since the evaluation started. -/
theorem unclosed_group_behind_closed_one :
    let vars : Variables := (∅ : Variables).insert "y" 1
    let tokens : List Token := [⟨.openParen, "("⟩, ⟨.print, "print"⟩, ⟨.openParen, "("⟩,
      ⟨.openParen, "("⟩, ⟨.name, "y"⟩, ⟨.closeParen, ")"⟩, .endOfLine]
    (evaluate vars tokens 1).result = .error (.form (.unclosedParenthesis 6)) ∧
      (Fault.form (.unclosedParenthesis 6)).PointsAt vars tokens 1
        (evaluate vars tokens 1).cursor.position := by
  refine ⟨?result, evaluate_fault_pointsAt ?result⟩
  rfl

end LineCalculator
