import LineCalculator.Expression

/-!
# Readings proceed

A reading goes along the list it started on and never closes a group that it did not open. One that
succeeds has taken at least one token and closed all that it opened. Hence the bounds of the
recursion never show, and the three rules satisfy the equations of the grammar.
-/
namespace LineCalculator

/-- An outcome lies further along than the cursor it started from; if there is a value, with as
many groups open, and without one with no fewer. -/
structure Outcome.Proceeds {α : Type} (c : Cursor) (o : Outcome α) : Prop where
  reaches : c.Reaches o.cursor
  depth_le : c.depth ≤ o.cursor.depth
  restores : ∀ x, o.result = .ok x → o.cursor.depth = c.depth

/-- An outcome with a value has taken a token. -/
def Outcome.Takes {α : Type} (c : Cursor) (o : Outcome α) : Prop :=
  ∀ x, o.result = .ok x → o.cursor.ahead.length < c.ahead.length

namespace Outcome

variable {α β : Type}

theorem Proceeds.value (x : α) (c : Cursor) : Proceeds c (Outcome.value x c) :=
  ⟨.refl c, Nat.le_refl _, fun _ _ => rfl⟩

theorem Proceeds.of_advance {c : Cursor} {o : Outcome α} (h : o.cursor = c.advance) :
    Proceeds c o :=
  ⟨h ▸ .advance c, by simp [h], fun _ _ => by simp [h]⟩

theorem Proceeds.of_eq {c : Cursor} {o : Outcome α} (h : o.cursor = c) : Proceeds c o :=
  ⟨h ▸ .refl c, by simp [h], fun _ _ => by rw [h]⟩

theorem Proceeds.after {c : Cursor} {o : Outcome α} (h : Proceeds c o) (event : Event) :
    Proceeds c (o.after event) := ⟨h.reaches, h.depth_le, h.restores⟩

theorem Proceeds.andThen {c : Cursor} {o : Outcome α} {next : α → Cursor → Outcome β}
    (h : Proceeds c o) (hnext : ∀ x, o.result = .ok x → Proceeds o.cursor (next x o.cursor)) :
    Proceeds c (o.andThen next) := by
  cases hresult : o.result with
  | error fault =>
    rw [andThen_error hresult]
    exact ⟨h.reaches, h.depth_le, by simp⟩
  | ok x =>
    have hx := hnext x hresult
    have hdepth := h.restores x hresult
    rw [andThen_ok hresult]
    exact ⟨h.reaches.trans hx.reaches, hdepth ▸ hx.depth_le, fun y hy =>
      (hx.restores y hy).trans hdepth⟩

end Outcome

namespace Expression

/-- A reading that proceeds from every cursor, and takes a token whenever it succeeds. -/
def Progressive (reading : Cursor → Outcome Float) : Prop :=
  ∀ c, (reading c).Proceeds c ∧ (reading c).Takes c

theorem atEnd_false_of_kind {c : Cursor} {kind : TokenKind} (h : c.peek.kind = kind)
    (hkind : kind ≠ .endOfLine) : c.atEnd = false :=
  Cursor.atEnd_eq_false_iff.mpr (h ▸ hkind)

/-- Closing after a reading that started one group deeper. -/
theorem proceeds_closeGroup {c opened : Cursor} {o : Outcome Float}
    (hreaches : c.Reaches opened) (hdepth : opened.depth = c.depth + 1)
    (h : o.Proceeds opened) : (o.andThen closeGroup).Proceeds c := by
  cases hresult : o.result with
  | error fault =>
    rw [Outcome.andThen_error hresult]
    exact ⟨hreaches.trans h.reaches, by have := h.depth_le; simp only; omega, by simp⟩
  | ok x =>
    have hopen := h.restores x hresult
    have hreach := hreaches.trans h.reaches
    rw [Outcome.andThen_ok hresult]
    unfold closeGroup
    split
    · rename_i closed hclosed
      obtain ⟨-, rfl⟩ := Cursor.eat?_eq_some_iff.mp hclosed
      refine ⟨hreach.trans ((Cursor.Reaches.advance _).trans (.leaveGroup _)), ?_, fun _ _ => ?_⟩
      all_goals simp only [Outcome.value, Cursor.leaveGroup, Cursor.depth_advance]; omega
    · exact ⟨hreach, by simp only [Outcome.formFault]; omega, by simp [Outcome.formFault]⟩

/-- What closes a group that a reading took tokens in has taken tokens. -/
theorem takes_closeGroup {c opened : Cursor} {o : Outcome Float} (hreaches : c.Reaches opened)
    (htakes : o.Takes opened) : (o.andThen closeGroup).Takes c := by
  intro y hy
  obtain ⟨x, hx, hclose, hcursor⟩ := Outcome.andThen_result_eq_ok hy
  have hlength := htakes x hx
  have hbefore := hreaches.length_ahead
  have hposition := hreaches.position_le
  rw [hcursor]
  unfold closeGroup at hclose ⊢
  split
  · rename_i closed hclosed
    obtain ⟨-, rfl⟩ := Cursor.eat?_eq_some_iff.mp hclosed
    have hlast := (Cursor.Reaches.advance o.cursor).length_ahead
    have hmove := (Cursor.Reaches.advance o.cursor).position_le
    simp only [Outcome.value, Cursor.leaveGroup]
    omega
  · rename_i hnone
    simp [hnone, Outcome.formFault] at hclose

theorem progressive_number {c : Cursor} (hend : c.atEnd = false) :
    (number c).Proceeds c ∧ (number c).Takes c := by
  have hlength := Cursor.length_ahead_advance hend
  unfold number
  split
  · exact ⟨.of_advance rfl, fun _ _ => by simp only [Outcome.cursor_after, Outcome.value]; omega⟩
  · exact ⟨.of_advance rfl, fun _ h => by simp [Outcome.formFault] at h⟩

theorem progressive_variableRead {vars : Variables} {c : Cursor} (hend : c.atEnd = false) :
    (variableRead vars c).Proceeds c ∧ (variableRead vars c).Takes c := by
  have hlength := Cursor.length_ahead_advance hend
  unfold variableRead
  split
  · exact ⟨.of_advance rfl, fun _ _ => by simp only [Outcome.cursor_after, Outcome.value]; omega⟩
  · exact ⟨.of_eq rfl, fun _ h => by simp [Outcome.valueFault] at h⟩

theorem progressive_group {inner : Cursor → Outcome Float} (hinner : Progressive inner)
    (c : Cursor) : (group inner c).Proceeds c ∧ (group inner c).Takes c := by
  unfold group
  split
  · rename_i opened hopened
    obtain ⟨-, rfl⟩ := Cursor.enterGroup_eq_ok_iff.mp hopened
    obtain ⟨hproceeds, htakes⟩ := hinner c.deeper.advance
    have hreaches := (Cursor.Reaches.deeper c).trans (.advance _)
    exact ⟨proceeds_closeGroup hreaches (by simp) hproceeds,
      takes_closeGroup hreaches htakes⟩
  · exact ⟨.of_eq rfl, fun _ h => by simp [Outcome.formFault] at h⟩

theorem proceeds_applyAt (f : Builtin) (position : Nat) (argument : Float) (c : Cursor) :
    (applyAt f position argument c).Proceeds c := by
  unfold applyAt
  split
  · exact (Outcome.Proceeds.value _ c).after _
  · exact .of_eq rfl

theorem cursor_applyAt (f : Builtin) (position : Nat) (argument : Float) (c : Cursor) :
    (applyAt f position argument c).cursor = c := by
  unfold applyAt
  split <;> rfl

theorem progressive_call {inner : Cursor → Outcome Float} (hinner : Progressive inner)
    (c : Cursor) : (call inner c).Proceeds c ∧ (call inner c).Takes c := by
  unfold call
  split
  · exact ⟨.of_eq rfl, fun _ h => by simp [Outcome.formFault] at h⟩
  · rename_i opened hopened
    obtain ⟨-, rfl⟩ := Cursor.enterGroup_eq_ok_iff.mp hopened
    have hnamed := (Cursor.Reaches.deeper c).trans (.advance _)
    dsimp only
    split
    · exact ⟨⟨hnamed, by simp [Outcome.formFault], by simp [Outcome.formFault]⟩,
        fun _ h => by simp [Outcome.formFault] at h⟩
    · split
      · exact ⟨⟨hnamed, by simp [Outcome.formFault], by simp [Outcome.formFault]⟩,
          fun _ h => by simp [Outcome.formFault] at h⟩
      · rename_i argument hargument
        obtain ⟨-, rfl⟩ := Cursor.eat?_eq_some_iff.mp hargument
        obtain ⟨hproceeds, htakes⟩ := hinner c.deeper.advance.advance
        have hreaches := hnamed.trans (.advance _)
        have hclosed := proceeds_closeGroup hreaches (by simp) hproceeds
        refine ⟨hclosed.andThen fun x _ => proceeds_applyAt _ _ x _, fun y hy => ?_⟩
        obtain ⟨x, hx, -, hcursor⟩ := Outcome.andThen_result_eq_ok hy
        rw [hcursor, cursor_applyAt]
        exact takes_closeGroup hreaches htakes x hx

/-- A factor takes tokens if the readings inside groups do. -/
theorem progressive_factorWith (vars : Variables) {inner : Cursor → Outcome Float}
    (hinner : Progressive inner) : Progressive (factorWith vars inner) := by
  intro c
  unfold factorWith
  suffices h : ∀ o : Outcome Float, o.Proceeds c ∧ o.Takes c →
      (o.after (.entering .factor c.position c.depth)).Proceeds c ∧
        (o.after (.entering .factor c.position c.depth)).Takes c by
    apply h
    split
    · exact progressive_number (atEnd_false_of_kind ‹_› (by decide))
    · exact progressive_variableRead (atEnd_false_of_kind ‹_› (by decide))
    · exact progressive_group hinner c
    · exact progressive_call hinner c
    · exact ⟨.of_eq rfl, fun _ h => by simp [Outcome.formFault] at h⟩
  exact fun o ho => ⟨ho.1.after _, ho.2⟩

theorem atEnd_false_of_operator? {c : Cursor} {tier : Tier} {op : Operator}
    (h : tier.operator? c.peek = some op) : c.atEnd = false :=
  atEnd_false_of_kind (Token.kind_of_operator? (Tier.operator?_eq_some_iff.mp h).1) (by decide)

theorem proceeds_chainFrom {tier : Tier} {operand : Cursor → Outcome Float}
    (hoperand : Progressive operand) (bound : List Token) (left : Float) (c : Cursor) :
    (chainFrom tier operand bound left c).Proceeds c := by
  induction bound generalizing left c with
  | nil => exact .value left c
  | cons _ bound ih =>
    unfold chainFrom
    split
    · exact .value left c
    · rename_i op _
      have hreaches := Cursor.Reaches.advance c
      have hrest : Outcome.Proceeds c.advance ((operand c.advance).andThen fun right next =>
          (chainFrom tier operand bound (op.apply left right) next).after
            (.operation op left right (op.apply left right))) :=
        (hoperand c.advance).1.andThen fun right _ => (ih _ _).after _
      exact ⟨hreaches.trans hrest.reaches, by simpa using hrest.depth_le,
        fun x hx => by simpa using hrest.restores x hx⟩

/-- A chain takes tokens if its operands do. -/
theorem progressive_chain (tier : Tier) {operand : Cursor → Outcome Float}
    (hoperand : Progressive operand) : Progressive (chain tier operand) := by
  intro c
  refine ⟨(hoperand c).1.andThen fun left _ => proceeds_chainFrom hoperand _ left _,
    fun y hy => ?_⟩
  obtain ⟨x, hx, -, hcursor⟩ := Outcome.andThen_result_eq_ok hy
  have hfirst := (hoperand c).2 x hx
  have hreaches : (operand c).cursor.Reaches
      (chainFrom tier operand (operand c).cursor.ahead x (operand c).cursor).cursor :=
    (proceeds_chainFrom hoperand _ x _).reaches
  have hlength := hreaches.length_ahead
  have hposition := hreaches.position_le
  unfold chain
  rw [hcursor]
  omega

theorem progressive_after {reading : Cursor → Outcome Float} (h : Progressive reading)
    (event : Cursor → Event) : Progressive fun c => (reading c).after (event c) :=
  fun c => ⟨(h c).1.after _, (h c).2⟩

theorem progressive_termWith (vars : Variables) {inner : Cursor → Outcome Float}
    (hinner : Progressive inner) : Progressive (termWith vars inner) :=
  progressive_after (progressive_chain .product (progressive_factorWith vars hinner)) _

theorem progressive_expressionWith (vars : Variables) {inner : Cursor → Outcome Float}
    (hinner : Progressive inner) : Progressive (expressionWith vars inner) :=
  progressive_after (progressive_chain .sum (progressive_termWith vars hinner)) _

theorem progressive_groupBody (vars : Variables) (levels : Nat) :
    Progressive (groupBody vars levels) := by
  induction levels with
  | zero => exact fun c => ⟨.of_eq rfl, fun _ h => by simp [groupBody, Outcome.formFault] at h⟩
  | succ levels ih => exact progressive_expressionWith vars ih

end Expression

open Expression

theorem progressive_factor (vars : Variables) : Progressive (factor vars) :=
  fun c => progressive_factorWith vars (progressive_groupBody vars (levelsLeft c)) c

theorem progressive_term (vars : Variables) : Progressive (term vars) :=
  fun c => progressive_termWith vars (progressive_groupBody vars (levelsLeft c)) c

theorem progressive_expression (vars : Variables) : Progressive (expression vars) :=
  fun c => progressive_expressionWith vars (progressive_groupBody vars (levelsLeft c)) c

end LineCalculator
