import LineCalculator.Proofs.Lockstep

/-!
# What an evaluation reads

An evaluation reads tokens from the index where it starts to the first one that it leaves, and the
one behind the start at least, since the heading of a statement shows in two tokens. Where an
end-of-line token comes first, it reads no further than that. Another list that holds the same
tokens, anywhere, is evaluated alike, and only the indices differ.
-/
namespace LineCalculator

/-- One list from one index on and another from another hold the same tokens up to a distance, or up
to the first end of the line. Past its end a list holds nothing but ends of the line. -/
def ReadsAlike (tokens : List Token) (start : Nat) (others : List Token) (otherStart : Nat)
    (distance : Nat) : Prop :=
  ∀ i ≤ distance, (∀ j < i, (tokens.getD (start + j) .endOfLine).kind ≠ .endOfLine) →
    others.getD (otherStart + i) .endOfLine = tokens.getD (start + i) .endOfLine

/-- An outcome and one elsewhere, at the same distance from the start: the same value, or the same
fault with its index carried over, and the same variables. -/
structure Outcome.CarriedTo (o : Outcome Evaluation) (start otherStart : Nat)
    (other : Outcome Evaluation) : Prop where
  start_le : start ≤ o.cursor.position
  position : other.cursor.position = otherStart + (o.cursor.position - start)
  value : ∀ e, o.result = .ok e → other.result = .ok e
  fault : ∀ fault, o.result = .error fault → start ≤ fault.position ∧
    other.result = .error (fault.move id fun position => otherStart + (position - start))
  store : ∀ vars, other.store vars = o.store vars

namespace ReadsAlike

variable {tokens : List Token} {start distance : Nat}

/-- Tokens before the start are not read. -/
theorem drop : ReadsAlike tokens start (tokens.drop start) 0 distance := by
  intro i _ _
  rw [List.getD_eq_getElem?_getD, List.getElem?_drop, List.getD_eq_getElem?_getD, Nat.zero_add]

/-- An end of the line may be missing. -/
theorem append_endOfLine : ReadsAlike tokens start (tokens ++ [.endOfLine]) start distance := by
  intro i _ _
  rw [List.getD_eq_getElem?_getD, List.getD_eq_getElem?_getD, List.getElem?_append]
  split
  · rfl
  · rename_i hlength
    rw [List.getElem?_eq_none (Nat.not_lt.mp hlength)]
    cases start + i - tokens.length <;> rfl

/-- Other tokens may stand behind those that are compared. -/
theorem take_append (behind : List Token) {last : Nat} (hdistance : start + distance ≤ last)
    (hlast : last < tokens.length) :
    ReadsAlike tokens start (tokens.take (last + 1) ++ behind) start distance := by
  intro i hi _
  have hlength : start + i < (tokens.take (last + 1)).length := by
    rw [List.length_take]
    omega
  rw [List.getD_eq_getElem?_getD, List.getD_eq_getElem?_getD, List.getElem?_append_left hlength,
    List.getElem?_take_of_lt (by omega)]

/-- Other tokens may stand behind an end of the line. -/
theorem append_of_endOfLine (before behind other : List Token) {stop : Token}
    (hstop : stop.kind = .endOfLine) (hstart : start ≤ before.length) :
    ReadsAlike (before ++ stop :: behind) start (before ++ stop :: other) start distance := by
  intro i _ hbefore
  have hle : start + i ≤ before.length := Nat.not_lt.mp fun hlt => by
    refine hbefore (before.length - start) (by omega) ?_
    rw [Nat.add_sub_cancel' hstart]
    simpa [List.getD_eq_getElem?_getD] using hstop
  rw [List.getD_eq_getElem?_getD, List.getD_eq_getElem?_getD, List.getElem?_append,
    List.getElem?_append]
  split
  · rfl
  · rename_i hlength
    rw [Nat.le_antisymm hle (Nat.not_lt.mp hlength), Nat.sub_self]
    rfl

end ReadsAlike

/-- The comparison of an evaluation with one elsewhere under the same variables. It takes in the
token behind the start, unless the line ends at the start. -/
def Comparison.elsewhere (vars : Variables) (tokens : List Token) (start otherStart : Nat) :
    Comparison where
  vars := vars
  others := vars
  start := start
  otherStart := otherStart
  rename := id
  last := max (evaluate vars tokens start).cursor.position
    (start + if (Cursor.atIndex tokens start).atEnd then 0 else 1)

variable {tokens others : List Token} {start otherStart : Nat}

theorem Cursor.kind_getD_ne_of_not_atEnd (h : (atIndex tokens start).atEnd = false) :
    (tokens.getD start .endOfLine).kind ≠ .endOfLine := by
  have hkind := atEnd_eq_false_iff.mp h
  rwa [peek_eq_tokenAt, tokenAt_atIndex] at hkind

/-- No end of the line stands before the last token that is compared. -/
theorem Comparison.kind_ne_of_lt_last (vars : Variables) {i : Nat} (hstart : start ≤ i)
    (hi : i < (elsewhere vars tokens start otherStart).last) :
    (tokens.getD i .endOfLine).kind ≠ .endOfLine := by
  have hreaches := (movesFrom_statement vars (Cursor.atIndex tokens start)).stop.reaches
  by_cases hpassed : i < (evaluate vars tokens start).cursor.position
  · obtain ⟨t, ht, hkind⟩ := hreaches.exists_passed hstart hpassed
    rwa [List.getD_eq_getElem?_getD, ht]
  · cases hend : (Cursor.atIndex tokens start).atEnd with
    | true =>
      have hi : i < max (evaluate vars tokens start).cursor.position start := by
        simpa [elsewhere, hend] using hi
      omega
    | false =>
      have hi : i < max (evaluate vars tokens start).cursor.position (start + 1) := by
        simpa [elsewhere, hend] using hi
      have heq : i = start := by omega
      exact heq ▸ Cursor.kind_getD_ne_of_not_atEnd hend

theorem Comparison.aligned_elsewhere (vars : Variables)
    (h : ReadsAlike tokens start others otherStart
      (max ((evaluate vars tokens start).cursor.position - start) 1)) :
    (elsewhere vars tokens start otherStart).Aligned (Cursor.atIndex tokens start)
      (Cursor.atIndex others otherStart) := by
  refine ⟨Nat.le_refl _, ?_, rfl, fun i hi => ?_, fun _ _ _ => rfl⟩
  · simp [counterpart, elsewhere]
  · have hi : start + i ≤ (elsewhere vars tokens start otherStart).last := hi
    have hdistance : i ≤ max ((evaluate vars tokens start).cursor.position - start) 1 := by
      simp only [elsewhere] at hi
      split at hi <;> omega
    rw [Cursor.tokenAt_atIndex, Cursor.tokenAt_atIndex]
    have hbefore (j : Nat) (hj : j < i) : (tokens.getD (start + j) .endOfLine).kind ≠ .endOfLine :=
      kind_ne_of_lt_last vars (Nat.le_add_right _ _)
        (Nat.lt_of_lt_of_le (Nat.add_lt_add_left hj start) hi)
    exact (h i hdistance hbefore).trans Token.rename_id.symm

theorem Outcome.store_eq_of_result_eq {o other : Outcome Evaluation}
    (h : ∀ e, o.result = .ok e → other.result = .ok e)
    (hfault : ∀ fault, o.result = .error fault → ∃ moved, other.result = .error moved)
    (vars : Variables) : other.store vars = o.store vars := by
  cases hresult : o.result with
  | ok e => rw [store_ok hresult, store_ok (h e hresult)]
  | error fault =>
    obtain ⟨moved, hmoved⟩ := hfault fault hresult
    rw [store_error hresult, store_error hmoved]

theorem carriedTo_of_readsAlike (vars : Variables)
    (h : ReadsAlike tokens start others otherStart
      (max ((evaluate vars tokens start).cursor.position - start) 1)) :
    (evaluate vars tokens start).CarriedTo start otherStart (evaluate vars others otherStart) := by
  have haligned := Comparison.aligned_elsewhere vars h
  have hnext (hend : (Cursor.atIndex tokens start).atEnd = false) :
      start + 1 ≤ (Comparison.elsewhere vars tokens start otherStart).last := by
    simp only [Comparison.elsewhere, hend]
    exact Nat.le_max_right _ _
  obtain ⟨hvalue, hfault, hcursor⟩ :=
    statement_of_aligned haligned hnext (Nat.le_max_left _ _)
  have hsame (e : Evaluation) (he : (evaluate vars tokens start).result = .ok e) :
      (evaluate vars others otherStart).result = .ok e :=
    (hvalue e he).trans (by rw [Comparison.elsewhere, Evaluation.rename_id])
  exact {
    start_le := hcursor.start_le
    position := hcursor.position
    value := hsame
    fault := hfault
    store := Outcome.store_eq_of_result_eq hsame fun fault h => ⟨_, (hfault fault h).2⟩ }

/-- An evaluation goes the same way wherever the tokens stand that it reads. It reads those from the
start to where it stops, that one included, and the one behind the start, but none behind an end of
the line. So it goes the same way without the tokens before the start, with others behind the first
one that it leaves, if it takes any, with others behind an end of the line, and with an end of the
line behind the list. -/
theorem evaluate_elsewhere (vars : Variables) (tokens : List Token) (start : Nat) :
    let o := evaluate vars tokens start
    (∀ others otherStart,
      ReadsAlike tokens start others otherStart (max (o.cursor.position - start) 1) →
        o.CarriedTo start otherStart (evaluate vars others otherStart)) ∧
    o.CarriedTo start 0 (evaluate vars (tokens.drop start) 0) ∧
    (start < o.cursor.position → o.cursor.position < tokens.length → ∀ behind,
      o.CarriedTo start start
        (evaluate vars (tokens.take (o.cursor.position + 1) ++ behind) start)) ∧
    (∀ before stop behind other, tokens = before ++ stop :: behind → stop.kind = .endOfLine →
      start ≤ before.length →
        o.CarriedTo start start (evaluate vars (before ++ stop :: other) start)) ∧
    o.CarriedTo start start (evaluate vars (tokens ++ [.endOfLine]) start) := by
  intro o
  refine ⟨fun _ _ => carriedTo_of_readsAlike vars, carriedTo_of_readsAlike vars .drop, ?_, ?_,
    carriedTo_of_readsAlike vars .append_endOfLine⟩
  · intro htaken hlength behind
    have hread : start + max (o.cursor.position - start) 1 ≤ o.cursor.position := by omega
    exact carriedTo_of_readsAlike vars (.take_append behind hread hlength)
  · rintro before stop behind other rfl hstop hstart
    exact carriedTo_of_readsAlike vars (.append_of_endOfLine before behind other hstop hstart)

/-- A function without its parenthesis is reported at the end of the line, one place further on in a
list where it stands one place further on, and whatever stands behind that end. -/
theorem missing_parenthesis_elsewhere :
    let root : Token := ⟨.function, "root"⟩
    let o := evaluate ∅ [root, .endOfLine, root] 0
    let moved := evaluate ∅ [⟨.equals, "="⟩, root] 1
    (moved.result = .error (.form (.expectedOpenParen "root" 2)) ∧ moved.cursor.position = 2) ∧
      o.CarriedTo 0 0 (evaluate ∅ [root, .endOfLine, ⟨.name, "x"⟩] 0) ∧
      o.CarriedTo 0 0 (evaluate ∅ [root, .endOfLine] 0) := by
  intro root o moved
  have hstop : o.result = .error (.form (.expectedOpenParen "root" 1)) ∧ o.cursor.position = 1 := by
    simp only [o, root]
    exact ⟨rfl, rfl⟩
  obtain ⟨hmoved, -, hbehind, hend, -⟩ := evaluate_elsewhere ∅ [root, .endOfLine, root] 0
  have hcarried : o.CarriedTo 0 1 moved := hmoved [⟨.equals, "="⟩, root] 1 fun i hi _ => by
    have hi : i ≤ max (o.cursor.position - 0) 1 := hi
    rw [hstop.2] at hi
    match i, hi with
    | 0, _ => rfl
    | 1, _ => rfl
    | i + 2, hi => omega
  refine ⟨⟨(hcarried.fault _ hstop.1).2, ?_⟩, ?_, ?_⟩
  · rw [hcarried.position, hstop.2]
  · have hother : o.CarriedTo 0 0 (evaluate ∅ ([root, .endOfLine, root].take
        (o.cursor.position + 1) ++ [⟨.name, "x"⟩]) 0) :=
      hbehind (hstop.2 ▸ Nat.one_pos) (hstop.2 ▸ by decide) [⟨.name, "x"⟩]
    rwa [hstop.2] at hother
  · exact hend [root] .endOfLine [root] [] rfl rfl (by decide)

end LineCalculator
