import LineCalculator.Fault
import LineCalculator.Token

/-!
# Cursors

A cursor is a place in a list of tokens: the tokens still ahead, the index of the first of them, and
the number of groups that are open. It advances one token at a time, never past an end-of-line token
or the list's end, and never goes back.
-/
namespace LineCalculator

/-- How many groups and calls may be open at once. -/
def maxDepth : Nat := 128

/-- A place in a list of tokens. -/
structure Cursor where
  ahead : List Token
  position : Nat
  depth : Nat

namespace Cursor

/-- The cursor at an index of a list, which may lie past its end. No group is open. -/
def atIndex (tokens : List Token) (position : Nat) : Cursor :=
  ⟨tokens.drop position, position, 0⟩

/-- The token at the cursor, which is the end of the line past the list's end. -/
def peek (c : Cursor) : Token := c.ahead.headD .endOfLine

/-- The cursor is at the end of the line. -/
def atEnd (c : Cursor) : Bool := c.peek.kind = .endOfLine

/-- The token after the one at the cursor; nothing follows the end of the line. -/
def peekNext (c : Cursor) : Token :=
  if c.atEnd then .endOfLine else c.ahead.tail.headD .endOfLine

/-- The cursor after the token at it; at the end of the line it stays. -/
def advance (c : Cursor) : Cursor :=
  if c.atEnd then c else ⟨c.ahead.tail, c.position + 1, c.depth⟩

/-- The cursor after the token at it, if that is of the given kind. -/
def eat? (c : Cursor) (kind : TokenKind) : Option Cursor :=
  if c.peek.kind = kind then some c.advance else none

/-- The cursor with one more group open. -/
def deeper (c : Cursor) : Cursor := { c with depth := c.depth + 1 }

/-- Opens a group, unless the limit is reached. -/
def enterGroup (c : Cursor) : Except FormFault Cursor :=
  if c.depth < maxDepth then .ok c.deeper else .error (.nestedTooDeep c.position)

/-- The cursor with the innermost group closed, if one is open. -/
def leaveGroup (c : Cursor) : Cursor := { c with depth := c.depth - 1 }

@[simp] theorem position_atIndex (tokens : List Token) (position : Nat) :
    (atIndex tokens position).position = position := rfl

@[simp] theorem depth_atIndex (tokens : List Token) (position : Nat) :
    (atIndex tokens position).depth = 0 := rfl

@[simp] theorem ahead_atIndex (tokens : List Token) (position : Nat) :
    (atIndex tokens position).ahead = tokens.drop position := rfl

@[simp] theorem depth_deeper (c : Cursor) : c.deeper.depth = c.depth + 1 := rfl

@[simp] theorem peek_deeper (c : Cursor) : c.deeper.peek = c.peek := rfl

@[simp] theorem depth_advance (c : Cursor) : c.advance.depth = c.depth := by
  unfold advance; split <;> rfl

theorem advance_of_atEnd {c : Cursor} (h : c.atEnd = true) : c.advance = c := by
  simp [advance, h]

theorem advance_of_not_atEnd {c : Cursor} (h : c.atEnd = false) :
    c.advance = ⟨c.ahead.tail, c.position + 1, c.depth⟩ := by
  simp [advance, h]

theorem ahead_of_not_atEnd {c : Cursor} (h : c.atEnd = false) :
    c.ahead = c.peek :: c.ahead.tail := by
  cases hahead : c.ahead with
  | nil => simp [atEnd, peek, hahead] at h
  | cons t rest => simp [peek, hahead]

theorem atEnd_eq_false_iff {c : Cursor} : c.atEnd = false ↔ c.peek.kind ≠ .endOfLine := by
  simp [atEnd]

theorem eat?_eq_some_iff {c eaten : Cursor} {kind : TokenKind} :
    c.eat? kind = some eaten ↔ c.peek.kind = kind ∧ eaten = c.advance := by
  simp [eat?, eq_comm]

theorem enterGroup_eq_ok_iff {c opened : Cursor} :
    c.enterGroup = .ok opened ↔
      c.depth < maxDepth ∧ opened = c.deeper := by
  unfold enterGroup
  split <;> simp [*, eq_comm]

/-- One cursor is further along the same list than another, or at the same place, past tokens none
of which ends the line. Their depths may differ. -/
def Reaches (c d : Cursor) : Prop :=
  ∃ passed : List Token, c.ahead = passed ++ d.ahead ∧
    d.position = c.position + passed.length ∧ ∀ t ∈ passed, t.kind ≠ .endOfLine

namespace Reaches

theorem refl (c : Cursor) : c.Reaches c := ⟨[], by simp⟩

theorem trans {c d e : Cursor} (hcd : c.Reaches d) (hde : d.Reaches e) : c.Reaches e := by
  obtain ⟨first, hc, hd, hfirst⟩ := hcd
  obtain ⟨second, hd', he, hsecond⟩ := hde
  refine ⟨first ++ second, by simp [hc, hd'], by simp [he, hd, Nat.add_assoc], ?_⟩
  intro t ht
  rcases List.mem_append.mp ht with ht | ht
  · exact hfirst t ht
  · exact hsecond t ht

theorem advance (c : Cursor) : c.Reaches c.advance := by
  cases h : c.atEnd with
  | true => rw [advance_of_atEnd h]; exact refl c
  | false =>
    rw [advance_of_not_atEnd h]
    refine ⟨[c.peek], by simpa using ahead_of_not_atEnd h, rfl, ?_⟩
    simpa [atEnd] using h

theorem of_eq {c d : Cursor} (hahead : d.ahead = c.ahead) (hposition : d.position = c.position) :
    c.Reaches d := ⟨[], by simp [hahead, hposition]⟩

theorem deeper (c : Cursor) : c.Reaches c.deeper := of_eq rfl rfl

theorem leaveGroup (c : Cursor) : c.Reaches c.leaveGroup := of_eq rfl rfl

theorem position_le {c d : Cursor} (h : c.Reaches d) : c.position ≤ d.position := by
  obtain ⟨passed, -, hd, -⟩ := h
  omega

theorem length_ahead {c d : Cursor} (h : c.Reaches d) :
    c.ahead.length + c.position = d.ahead.length + d.position := by
  obtain ⟨passed, hc, hd, -⟩ := h
  simp only [hc, List.length_append]
  omega

theorem length_ahead_le {c d : Cursor} (h : c.Reaches d) : d.ahead.length ≤ c.ahead.length := by
  have hlength := h.length_ahead
  have hposition := h.position_le
  omega

end Reaches

theorem length_ahead_advance {c : Cursor} (h : c.atEnd = false) :
    c.advance.ahead.length + 1 = c.ahead.length := by
  rw [advance_of_not_atEnd h, ahead_of_not_atEnd h]
  rfl

theorem length_ahead_deeper_advance {c : Cursor} (h : c.atEnd = false) :
    c.deeper.advance.ahead.length < c.ahead.length :=
  Nat.lt_of_succ_le (Nat.le_of_eq (length_ahead_advance (c := c.deeper) h))

end Cursor

end LineCalculator
