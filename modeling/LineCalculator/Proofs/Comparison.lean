import LineCalculator.Proofs.Moves

/-!
# Comparing two runs

Two runs are compared that start at different indices of different lists, under different variables.
Up to the last index that is compared, the lists hold the same tokens at the same distance from the
starts, but for the names of variables, and what a name has in one run its counterpart has in the
other. Two outcomes match that have the same value, or the same fault with its index and its name
carried over, at the same distance from the start.
-/
namespace LineCalculator

namespace Token

/-- A token, with another name if it is a name. -/
def rename (f : String → String) (t : Token) : Token :=
  if t.kind = .name then ⟨.name, f t.text⟩ else t

variable {f : String → String} {t : Token}

@[simp] theorem kind_rename : (t.rename f).kind = t.kind := by
  unfold rename
  split
  · exact (‹t.kind = .name›).symm
  · rfl

theorem text_rename_of_name (h : t.kind = .name) : (t.rename f).text = f t.text := by
  rw [rename, if_pos h]

theorem rename_of_kind_ne (h : t.kind ≠ .name) : t.rename f = t := if_neg h

@[simp] theorem rename_id : t.rename id = t := by
  unfold rename
  split
  · obtain ⟨kind, text⟩ := t
    cases ‹kind = .name›
    rfl
  · rfl

@[simp] theorem operator?_rename : (t.rename f).operator? = t.operator? := by
  by_cases h : t.kind = .name
  · simp [operator?, h]
  · rw [rename_of_kind_ne h]

end Token

/-- A fault in form at another index. -/
def FormFault.move (move : Nat → Nat) : FormFault → FormFault
  | unexpectedToken found position => unexpectedToken found (move position)
  | unclosedParenthesis position => unclosedParenthesis (move position)
  | expectedOpenParen function position => expectedOpenParen function (move position)
  | malformedNumber literal position => malformedNumber literal (move position)
  | nestedTooDeep position => nestedTooDeep (move position)

/-- A fault in value at another index and of another name. -/
def ValueFault.move (f : String → String) (move : Nat → Nat) : ValueFault → ValueFault
  | undefinedVariable name position => undefinedVariable (f name) (move position)
  | negativeRoot argument position => negativeRoot argument (move position)

/-- A fault at another index and of another name. -/
def Fault.move (f : String → String) (move : Nat → Nat) : Fault → Fault
  | form fault => form (fault.move move)
  | value fault => value (fault.move f move)

/-- A fault with another name: that of an undefined variable is the only one it may have. -/
def Fault.rename (f : String → String) : Fault → Fault
  | value (.undefinedVariable name position) => value (.undefinedVariable (f name) position)
  | fault => fault

/-- A fault is only renamed where its index stays. -/
theorem Fault.move_eq_rename {f : String → String} {move : Nat → Nat} {fault : Fault}
    (h : move fault.position = fault.position) : fault.move f move = fault.rename f := by
  cases fault with
  | form fault =>
    cases fault <;> simp_all [Fault.move, rename, FormFault.move, position, FormFault.position]
  | value fault =>
    cases fault <;> simp_all [Fault.move, rename, ValueFault.move, position, ValueFault.position]

@[simp] theorem Fault.rename_id (fault : Fault) : fault.rename id = fault := by
  rcases fault with fault | fault
  · rfl
  · cases fault <;> rfl

/-- A form with another name. -/
def StatementForm.rename (f : String → String) : StatementForm → StatementForm
  | assignment name => assignment (f name)
  | print => print
  | expression => expression

/-- An evaluation under another name. -/
def Evaluation.rename (f : String → String) (e : Evaluation) : Evaluation :=
  ⟨e.form.rename f, e.value⟩

@[simp] theorem Evaluation.rename_id (e : Evaluation) : e.rename id = e := by
  obtain ⟨form, value⟩ := e
  cases form <;> rfl

/-- Two runs: their variables, their starts, the names of the second for those of the first, and the
last index of the first list up to which they are compared. -/
structure Comparison where
  vars : Variables
  others : Variables
  start : Nat
  otherStart : Nat
  rename : String → String
  last : Nat

/-- The token so many places ahead of a cursor. -/
def Cursor.tokenAt (c : Cursor) (i : Nat) : Token := c.ahead.getD i .endOfLine

theorem Cursor.peek_eq_tokenAt (c : Cursor) : c.peek = c.tokenAt 0 := by
  rw [peek, tokenAt]
  cases c.ahead <;> rfl

theorem Cursor.peekNext_eq_tokenAt {c : Cursor} (h : c.atEnd = false) :
    c.peekNext = c.tokenAt 1 := by
  rw [peekNext, if_neg (by simp [h]), tokenAt, ahead_of_not_atEnd h]
  cases c.ahead.tail <;> rfl

theorem Cursor.tokenAt_atIndex (tokens : List Token) (position i : Nat) :
    (atIndex tokens position).tokenAt i = tokens.getD (position + i) .endOfLine := by
  rw [tokenAt, ahead_atIndex, List.getD_eq_getElem?_getD, List.getElem?_drop,
    List.getD_eq_getElem?_getD]

theorem Cursor.tokenAt_advance {c : Cursor} (h : c.atEnd = false) (i : Nat) :
    c.advance.tokenAt i = c.tokenAt (i + 1) := by
  rw [advance_of_not_atEnd h, tokenAt, tokenAt, ahead_of_not_atEnd h]
  rfl

namespace Comparison

variable {k : Comparison}

/-- The index of the second list at the same distance from the start. -/
def counterpart (k : Comparison) (position : Nat) : Nat := k.otherStart + (position - k.start)

/-- Two cursors at the same distance from the starts, with as many groups open, and with the same
tokens ahead as far as they are compared. -/
structure Aligned (k : Comparison) (c d : Cursor) : Prop where
  start_le : k.start ≤ c.position
  position : d.position = k.counterpart c.position
  depth : d.depth = c.depth
  token : ∀ i, c.position + i ≤ k.last → d.tokenAt i = (c.tokenAt i).rename k.rename
  value : ∀ i, c.position + i ≤ k.last → (c.tokenAt i).kind = .name →
    k.others[k.rename (c.tokenAt i).text]? = k.vars[(c.tokenAt i).text]?

/-- Two outcomes with the same value, or with the same fault carried over, at aligned cursors. -/
structure Matches {α : Type} (k : Comparison) (o p : Outcome α) : Prop where
  result : p.result = o.result.mapError (Fault.move k.rename k.counterpart)
  start_le : ∀ fault, o.result = .error fault → k.start ≤ fault.position
  cursor : k.Aligned o.cursor p.cursor

/-- Two readings that match from aligned cursors on, if the first stops among the tokens that are
compared. -/
def Paired {α : Type} (k : Comparison) (reading other : Cursor → Outcome α) : Prop :=
  ∀ c d, k.Aligned c d → (reading c).cursor.position ≤ k.last → k.Matches (reading c) (other d)

namespace Aligned

variable {c d : Cursor}

theorem peek (h : k.Aligned c d) (hlast : c.position ≤ k.last) :
    d.peek = c.peek.rename k.rename := by
  rw [Cursor.peek_eq_tokenAt, Cursor.peek_eq_tokenAt]
  exact h.token 0 hlast

theorem atEnd (h : k.Aligned c d) (hlast : c.position ≤ k.last) : d.atEnd = c.atEnd := by
  rw [Cursor.atEnd, Cursor.atEnd, h.peek hlast, Token.kind_rename]

theorem lookup (h : k.Aligned c d) (hlast : c.position ≤ k.last) (hkind : c.peek.kind = .name) :
    k.others[k.rename c.peek.text]? = k.vars[c.peek.text]? := by
  rw [Cursor.peek_eq_tokenAt] at hkind ⊢
  exact h.value 0 hlast hkind

theorem advance (h : k.Aligned c d) (hlast : c.position ≤ k.last) :
    k.Aligned c.advance d.advance := by
  cases hend : c.atEnd with
  | true =>
    have hother := (h.atEnd hlast).trans hend
    rw [Cursor.advance_of_atEnd hend, Cursor.advance_of_atEnd hother]
    exact h
  | false =>
    have hother := (h.atEnd hlast).trans hend
    have hposition : c.advance.position = c.position + 1 := by rw [Cursor.advance_of_not_atEnd hend]
    have hnext : d.advance.position = d.position + 1 := by rw [Cursor.advance_of_not_atEnd hother]
    have hstart := h.start_le
    refine ⟨by omega, ?_, ?_, fun i hi => ?_, fun i hi => ?_⟩
    · rw [hnext, hposition, h.position, counterpart, counterpart]
      omega
    · rw [Cursor.depth_advance, Cursor.depth_advance, h.depth]
    · rw [Cursor.tokenAt_advance hother, Cursor.tokenAt_advance hend]
      exact h.token (i + 1) (by omega)
    · rw [Cursor.tokenAt_advance hend]
      exact h.value (i + 1) (by omega)

theorem deeper (h : k.Aligned c d) : k.Aligned c.deeper d.deeper :=
  ⟨h.start_le, h.position, congrArg (· + 1) h.depth, h.token, h.value⟩

theorem leaveGroup (h : k.Aligned c d) : k.Aligned c.leaveGroup d.leaveGroup :=
  ⟨h.start_le, h.position, congrArg (· - 1) h.depth, h.token, h.value⟩

end Aligned

namespace Matches

variable {α : Type} {c d : Cursor} {o p : Outcome α}

theorem after (h : k.Matches o p) (event other : Event) :
    k.Matches (o.after event) (p.after other) :=
  ⟨h.result, h.start_le, h.cursor⟩

theorem value (x : α) (h : k.Aligned c d) :
    k.Matches (Outcome.value x c) (Outcome.value x d) where
  result := rfl
  start_le fault hfault := by cases hfault
  cursor := h

theorem formFault {fault : FormFault} (hstart : k.start ≤ fault.position) (h : k.Aligned c d) :
    k.Matches (.formFault fault c : Outcome α) (.formFault (fault.move k.counterpart) d) where
  result := rfl
  start_le other hother := by cases hother; exact hstart
  cursor := h

theorem valueFault {fault : ValueFault} (hstart : k.start ≤ fault.position)
    (h : k.Aligned c d) :
    k.Matches (.valueFault fault c : Outcome α)
      (.valueFault (fault.move k.rename k.counterpart) d) where
  result := rfl
  start_le other hother := by cases hother; exact hstart
  cursor := h

/-- A step of both runs. What is compared of the whole is compared of the first part, which stops no
later. -/
theorem andThen {next last : α → Cursor → Outcome Float}
    (h : o.cursor.position ≤ k.last → k.Matches o p)
    (hforward : ∀ x, Expression.Moving (next x)) (hnext : ∀ x, k.Paired (next x) (last x))
    (hlast : (o.andThen next).cursor.position ≤ k.last) :
    k.Matches (o.andThen next) (p.andThen last) := by
  cases hresult : o.result with
  | error fault =>
    rw [Outcome.andThen_error hresult] at hlast ⊢
    have hmatches := h hlast
    have hother : p.result = .error (fault.move k.rename k.counterpart) := by
      rw [hmatches.result, hresult]
      rfl
    rw [Outcome.andThen_error hother]
    refine ⟨rfl, fun other hfault => hmatches.start_le other ?_, hmatches.cursor⟩
    rw [hresult, ← Except.error.inj hfault]
  | ok x =>
    rw [Outcome.andThen_ok hresult] at hlast ⊢
    have hreach := (hforward x o.cursor).stop.reaches.position_le
    have hmatches := h (Nat.le_trans hreach hlast)
    have hother : p.result = .ok x := by
      rw [hmatches.result, hresult]
      rfl
    have hrest := hnext x _ _ hmatches.cursor hlast
    rw [Outcome.andThen_ok hother]
    exact ⟨hrest.result, hrest.start_le, hrest.cursor⟩

end Matches

end Comparison

end LineCalculator
