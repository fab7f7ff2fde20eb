import LineCalculator.Proofs.Lockstep
import LineCalculator.Proofs.SessionState

/-!
# Variables that are not read

A statement looks up the names that it passes on its way and the one that it stops at, except the
name that it assigns. Variables that give these names the same values, or leave the same of them
without one, cannot be told apart: the statement has the same result and stops at the same place,
and whatever it assigns it assigns to both.
-/
namespace LineCalculator

/-- A fault stays itself where its index stays. -/
theorem Fault.move_eq_self {move : Nat → Nat} {fault : Fault}
    (h : move fault.position = fault.position) : fault.move id move = fault :=
  (move_eq_rename h).trans fault.rename_id

/-- Two sets of variables give the same to all names from one index to another, both included. The
name at the first index is left out where a sign of equality stands behind it. -/
def AgreeOnNames (vars others : Variables) (tokens : List Token) (first last : Nat) : Prop :=
  ∀ i t, first ≤ i → i ≤ last → tokens[i]? = some t → t.kind = .name →
    ¬ (i = first ∧ tokens[first + 1]?.map Token.kind = some .equals) →
      others[t.text]? = vars[t.text]?

variable {vars others : Variables} {tokens : List Token} {p depth : Nat}

namespace Cursor

variable {d e : Cursor}

/-- Reaching a cursor does not depend on the groups that are open. -/
theorem ahead_of_moves_place (h : (place tokens p depth).Moves d) :
    d.ahead = tokens.drop d.position := by
  have hreaches : (atIndex tokens p).Reaches d := h.reaches
  exact hreaches.ahead_eq_drop

theorem getElem?_of_kind_tokenAt (h : (place tokens p depth).Moves d) {i : Nat}
    (hkind : (d.tokenAt i).kind = .name) : tokens[d.position + i]? = some (d.tokenAt i) := by
  rw [tokenAt, ahead_of_moves_place h, List.getD_eq_getElem?_getD, List.getElem?_drop] at hkind ⊢
  cases htoken : tokens[d.position + i]? with
  | none => rw [htoken] at hkind; cases hkind
  | some t => rfl

theorem eq_of_moves_place (hd : (place tokens p depth).Moves d)
    (he : (place tokens p depth).Moves e) (hposition : d.position = e.position)
    (hdepth : d.depth = e.depth) : d = e := by
  have hahead : d.ahead = e.ahead := by
    rw [ahead_of_moves_place hd, ahead_of_moves_place he, hposition]
  obtain ⟨dahead, dposition, ddepth⟩ := d
  obtain ⟨eahead, eposition, edepth⟩ := e
  simp_all

end Cursor

/-- The comparison of a statement under two sets of variables. -/
def Comparison.inPlace (vars others : Variables) (c : Cursor) : Comparison where
  vars := vars
  others := others
  start := c.position
  otherStart := c.position
  rename := id
  last := (statement vars c).cursor.position

namespace Comparison

variable {c : Cursor}

theorem counterpart_inPlace {position : Nat} (h : c.position ≤ position) :
    (inPlace vars others c).counterpart position = position := by
  simp only [counterpart, inPlace]
  omega

/-- The expression of a statement is compared with itself: the name that is assigned stands before
it, and what stands from there on agrees. -/
theorem aligned_heading_inPlace
    (h : AgreeOnNames vars others tokens p
      (statement vars (.place tokens p depth)).cursor.position) :
    (inPlace vars others (.place tokens p depth)).Aligned
      (Statement.heading (.place tokens p depth)).2
      (Statement.heading (.place tokens p depth)).2 := by
  have hmoves := Statement.moves_heading (.place tokens p depth)
  have hstart : p ≤ (Statement.heading (.place tokens p depth)).2.position :=
    hmoves.reaches.position_le
  refine ⟨hstart, (counterpart_inPlace hstart).symm, rfl, fun i _ => Token.rename_id.symm,
    fun i hi hkind => ?_⟩
  have htoken := Cursor.getElem?_of_kind_tokenAt hmoves hkind
  refine h _ _ (by omega) hi htoken hkind ?_
  rintro ⟨hfirst, hsign⟩
  rw [hfirst] at htoken
  obtain ⟨sign, hsecond, hequals⟩ := Option.map_eq_some_iff.mp hsign
  have hheading : Statement.heading (.place tokens p depth) = (_, .place tokens (p + 2) depth) :=
    Statement.heading_of_assignment htoken hkind hsecond hequals
  rw [hheading] at hfirst
  simp only [Cursor.place] at hfirst
  omega

end Comparison

/-- What agrees on the names that a statement reads is not told apart by it. -/
theorem statement_eq_of_agreeOnNames
    (h : AgreeOnNames vars others tokens p
      (statement vars (.place tokens p depth)).cursor.position) :
    (statement others (.place tokens p depth)).result =
        (statement vars (.place tokens p depth)).result ∧
      (statement others (.place tokens p depth)).cursor =
        (statement vars (.place tokens p depth)).cursor := by
  let c := Cursor.place tokens p depth
  let k := Comparison.inPlace vars others c
  have hlast : (expression vars (Statement.heading c).2).cursor.position ≤ k.last := by
    rw [← Statement.cursor_eq_heading]
    exact Nat.le_refl _
  have hmatches : k.Matches (expression vars (Statement.heading c).2)
      (expression others (Statement.heading c).2) :=
    Expression.paired_expression k _ _ (Comparison.aligned_heading_inPlace h) hlast
  have hresult : (expression others (Statement.heading c).2).result =
      (expression vars (Statement.heading c).2).result := by
    rw [hmatches.result]
    cases hexpression : (expression vars (Statement.heading c).2).result with
    | ok x => rfl
    | error fault =>
      have hstart := hmatches.start_le fault hexpression
      exact congrArg Except.error (Fault.move_eq_self (Comparison.counterpart_inPlace hstart))
  refine ⟨by rw [Statement.result_eq_heading, Statement.result_eq_heading, hresult], ?_⟩
  have hposition : (statement others c).cursor.position = (statement vars c).cursor.position := by
    rw [Statement.cursor_eq_heading, Statement.cursor_eq_heading, hmatches.cursor.position]
    exact Comparison.counterpart_inPlace hmatches.cursor.start_le
  have hdepth : (statement others c).cursor.depth = (statement vars c).cursor.depth := by
    rw [Statement.cursor_eq_heading, Statement.cursor_eq_heading, hmatches.cursor.depth]
  exact Cursor.eq_of_moves_place (movesFrom_statement others c).stop
    (movesFrom_statement vars c).stop hposition hdepth

theorem Outcome.store_eq_assignAll (o : Outcome Evaluation) (vars : Variables) :
    o.store vars = vars.assignAll (Response.ofOutcome vars o).assigned?.toList := by
  rw [← vars_ofOutcome, vars_ofOutcome_eq_assignAll]

/-- What a reply reports as assigned shows in the result alone. -/
theorem assigned?_ofOutcome_congr {o other : Outcome Evaluation} (h : other.result = o.result)
    (vars others : Variables) :
    (Response.ofOutcome others other).assigned? = (Response.ofOutcome vars o).assigned? := by
  unfold Response.ofOutcome
  rw [h]
  cases o.result with
  | ok e => rfl
  | error fault => rfl

theorem Variables.getElem?_assignAll_toList {name : String} {update : Option (String × Float)}
    (h : ∀ x, update ≠ some (name, x)) (vars : Variables) :
    (vars.assignAll update.toList)[name]? = vars[name]? := by
  refine getElem?_assignAll_of_ne fun pair hpair hname => ?_
  exact h pair.2 (hname ▸ Option.mem_toList.mp hpair)

/-- A statement reads the names from its start to the token that it stops at, that one included, but
for the name that it assigns. Where two sets of variables agree on these, it has the same value and
form, or the same fault, and stops at the same place with as many groups open. It makes the same one
assignment in both or none, and every other name keeps what it had in each. -/
theorem statement_agrees_on_unread_variables (vars others : Variables) (tokens : List Token)
    (p depth : Nat)
    (h : AgreeOnNames vars others tokens p
      (statement vars (.place tokens p depth)).cursor.position) :
    let o := statement vars (.place tokens p depth)
    let other := statement others (.place tokens p depth)
    other.result = o.result ∧ other.cursor = o.cursor ∧
      ∃ update : Option (String × Float),
        o.store vars = vars.assignAll update.toList ∧
        other.store others = others.assignAll update.toList ∧
        ∀ name, (∀ x, update ≠ some (name, x)) →
          (o.store vars)[name]? = vars[name]? ∧ (other.store others)[name]? = others[name]? := by
  intro o other
  obtain ⟨hresult, hcursor⟩ := statement_eq_of_agreeOnNames h
  have hstore := o.store_eq_assignAll vars
  have hother := other.store_eq_assignAll others
  rw [assigned?_ofOutcome_congr hresult vars others] at hother
  refine ⟨hresult, hcursor, _, hstore, hother, fun name hname => ?_⟩
  rw [hstore, hother]
  exact ⟨Variables.getElem?_assignAll_toList hname vars,
    Variables.getElem?_assignAll_toList hname others⟩

/-- The name that is assigned may have any value before, unless the right side reads it. What stands
behind the token that the statement stops at is not read either. -/
theorem assignment_reads_right_side :
    let x : Token := ⟨.name, "x"⟩
    let y : Token := ⟨.name, "y"⟩
    let tokens : List Token := [x, ⟨.equals, "="⟩, y, ⟨.number, "2"⟩, x]
    let vars : Variables := (∅ : Variables).insert "y" 1
    let others : Variables := ((∅ : Variables).insert "y" 1).insert "x" 3
    AgreeOnNames vars others tokens 0 (statement vars (.place tokens 0 0)).cursor.position ∧
      (statement others (.place tokens 0 0)).result = .ok ⟨.assignment "x", 1⟩ ∧
      (statement others (.place tokens 0 0)).cursor.position = 3 := by
  intro x y tokens vars others
  have hstop : (statement vars (.place tokens 0 0)).result = .ok ⟨.assignment "x", 1⟩ ∧
      (statement vars (.place tokens 0 0)).cursor.position = 3 := by
    simp only [vars, tokens, x, y]
    exact ⟨rfl, rfl⟩
  have hagree : AgreeOnNames vars others tokens 0
      (statement vars (.place tokens 0 0)).cursor.position := by
    rw [hstop.2]
    intro i t _ hi htoken hkind htarget
    match i, hi with
    | 0, _ => exact absurd ⟨rfl, rfl⟩ htarget
    | 1, _ => cases htoken; cases hkind
    | 2, _ =>
      obtain rfl : y = t := Option.some.inj htoken
      have hne : ¬ compare "x" "y" = .eq := by decide
      simp only [others, vars]
      rw [Std.ExtTreeMap.getElem?_insert, if_neg hne]
    | 3, _ => cases htoken; cases hkind
  obtain ⟨hresult, hcursor, -⟩ :=
    statement_agrees_on_unread_variables vars others tokens 0 0 hagree
  exact ⟨hagree, hresult.trans hstop.1, hcursor ▸ hstop.2⟩

end LineCalculator
