import LineCalculator.Cursor
import LineCalculator.Event

/-!
# Outcomes

What a step over the tokens leaves behind is produced together: its result, the cursor where it
stopped and the events on the way. A step that fails leaves the cursor and its depth as they were
at the failure.
-/
namespace LineCalculator

/-- The result of a step, the cursor after it and its events, in order. -/
structure Outcome (α : Type) where
  result : Except Fault α
  cursor : Cursor
  events : List Event

namespace Outcome

variable {α β : Type}

/-- A value without further steps. -/
def value (x : α) (c : Cursor) : Outcome α := ⟨.ok x, c, []⟩

/-- A fault in form, with the cursor at which it was found. -/
def formFault (fault : FormFault) (c : Cursor) : Outcome α := ⟨.error (.form fault), c, []⟩

/-- A fault in value, with the cursor at which it was found. -/
def valueFault (fault : ValueFault) (c : Cursor) : Outcome α := ⟨.error (.value fault), c, []⟩

/-- An outcome that an event came before. -/
def after (event : Event) (o : Outcome α) : Outcome α := { o with events := event :: o.events }

/-- A step that goes on from the value and the cursor of an outcome; a fault ends it. -/
def andThen (o : Outcome α) (next : α → Cursor → Outcome β) : Outcome β :=
  match o.result with
  | .ok x =>
    let rest := next x o.cursor
    ⟨rest.result, rest.cursor, o.events ++ rest.events⟩
  | .error fault => ⟨.error fault, o.cursor, o.events⟩

@[simp] theorem result_after (event : Event) (o : Outcome α) :
    (o.after event).result = o.result := rfl

@[simp] theorem cursor_after (event : Event) (o : Outcome α) :
    (o.after event).cursor = o.cursor := rfl

@[simp] theorem events_after (event : Event) (o : Outcome α) :
    (o.after event).events = event :: o.events := rfl

theorem andThen_ok {o : Outcome α} {x : α} (h : o.result = .ok x)
    (next : α → Cursor → Outcome β) :
    o.andThen next =
      ⟨(next x o.cursor).result, (next x o.cursor).cursor,
        o.events ++ (next x o.cursor).events⟩ := by
  simp [andThen, h]

theorem andThen_error {o : Outcome α} {fault : Fault} (h : o.result = .error fault)
    (next : α → Cursor → Outcome β) :
    o.andThen next = ⟨.error fault, o.cursor, o.events⟩ := by
  simp [andThen, h]

theorem andThen_congr {o : Outcome α} {next other : α → Cursor → Outcome β}
    (h : ∀ x, o.result = .ok x → next x o.cursor = other x o.cursor) :
    o.andThen next = o.andThen other := by
  cases hresult : o.result with
  | error fault => rw [andThen_error hresult, andThen_error hresult]
  | ok x => rw [andThen_ok hresult, andThen_ok hresult, h x hresult]

theorem andThen_result_eq_ok {o : Outcome α} {next : α → Cursor → Outcome β} {y : β}
    (h : (o.andThen next).result = .ok y) :
    ∃ x, o.result = .ok x ∧ (next x o.cursor).result = .ok y ∧
      (o.andThen next).cursor = (next x o.cursor).cursor := by
  cases hresult : o.result with
  | error fault => simp [andThen_error hresult] at h
  | ok x =>
    rw [andThen_ok hresult] at h ⊢
    exact ⟨x, rfl, h, rfl⟩

end Outcome

end LineCalculator
