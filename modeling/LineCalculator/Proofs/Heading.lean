import LineCalculator.Statement

/-!
# Headings of statements

A statement is a heading and an expression. The heading shows in the first two tokens: it settles
the form and where the expression starts, and nothing that the expression holds can change it. What
the statement returns is what its expression returns, under the form of the heading. What it reports is
what its expression reports, and behind that what it stores or prints and what it leaves over.
-/
namespace LineCalculator

/-! ## Results and cursors -/

/-- A step that stays where it is only changes the value. -/
theorem Outcome.andThen_stay {α β : Type} {o : Outcome α} {f : α → β}
    {next : α → Cursor → Outcome β}
    (hnext : ∀ x d, (next x d).result = .ok (f x) ∧ (next x d).cursor = d) :
    (o.andThen next).result = o.result.map f ∧ (o.andThen next).cursor = o.cursor := by
  cases hresult : o.result with
  | error fault =>
    rw [andThen_error hresult]
    exact ⟨rfl, rfl⟩
  | ok x =>
    rw [andThen_ok hresult]
    exact hnext x o.cursor

namespace Statement

/-- The form of the statement at a cursor, and the cursor at which its expression starts. -/
def heading (c : Cursor) : StatementForm × Cursor :=
  if isAssignment c then (.assignment c.peek.text, c.advance.advance)
  else match c.eat? .print with
    | some printed => (.print, printed)
    | none => (.expression, c)

variable {vars : Variables} {c : Cursor}

theorem peekNext_mem (h : c.peekNext ≠ .endOfLine) : c.peekNext ∈ c.ahead := by
  cases hend : c.atEnd with
  | true => simp [Cursor.peekNext, hend] at h
  | false =>
    rw [Cursor.peekNext, hend] at h ⊢
    cases hahead : c.ahead.tail with
    | nil => simp [hahead] at h
    | cons t rest =>
      have hmem : t ∈ c.ahead.tail := by simp [hahead]
      simpa using List.mem_of_mem_tail hmem

theorem heading_of_bare (hassignment : ¬ isAssignment c = true) (hprint : c.peek.kind ≠ .print) :
    heading c = (.expression, c) := by
  rw [heading, if_neg hassignment, Cursor.eat?, if_neg hprint]

/-- Without a sign of equality and without the keyword a statement is an expression. -/
theorem heading_of_kind_ne (h : ∀ t ∈ c.ahead, t.kind ≠ .equals ∧ t.kind ≠ .print) :
    heading c = (.expression, c) := by
  have hassignment : ¬ isAssignment c = true := by
    intro hassignment
    obtain ⟨-, hsign⟩ := Bool.and_eq_true_iff.mp hassignment
    have hsign : c.peekNext.kind = .equals := by simpa using hsign
    have hnot : c.peekNext ≠ .endOfLine := by
      intro hend
      rw [hend] at hsign
      cases hsign
    exact (h _ (peekNext_mem hnot)).1 hsign
  have hprint : c.peek.kind ≠ .print := by
    cases hahead : c.ahead with
    | nil => simp [Cursor.peek, hahead]
    | cons t rest => simpa [Cursor.peek, hahead] using (h t (by simp [hahead])).2
  exact heading_of_bare hassignment hprint

theorem heading_append_endOfLine {tokens : List Token}
    (h : ∀ t ∈ tokens, t.kind ≠ .equals ∧ t.kind ≠ .print) (position depth : Nat) :
    heading ⟨tokens ++ [.endOfLine], position, depth⟩ =
      (.expression, ⟨tokens ++ [.endOfLine], position, depth⟩) := by
  refine heading_of_kind_ne fun t ht => ?_
  rcases List.mem_append.mp ht with hmem | hmem
  · exact h t hmem
  · obtain rfl := List.mem_singleton.mp hmem
    decide

theorem body_eq_heading :
    (body vars c).result =
        (expression vars (heading c).2).result.map (Evaluation.mk (heading c).1) ∧
      (body vars c).cursor = (expression vars (heading c).2).cursor := by
  unfold body heading
  by_cases hassignment : isAssignment c = true
  · rw [if_pos hassignment, if_pos hassignment]
    exact Outcome.andThen_stay fun _ _ => ⟨rfl, rfl⟩
  · rw [if_neg hassignment, if_neg hassignment]
    cases c.eat? .print with
    | some printed => exact Outcome.andThen_stay fun _ _ => ⟨rfl, rfl⟩
    | none => exact Outcome.andThen_stay fun _ _ => ⟨rfl, rfl⟩

/-- Tokens that are left over change nothing but the events. -/
theorem andThen_leftOver (o : Outcome Evaluation) :
    (o.andThen leftOver).result = o.result ∧ (o.andThen leftOver).cursor = o.cursor := by
  have hstay : ∀ e d, (leftOver e d).result = .ok (id e) ∧ (leftOver e d).cursor = d := by
    intro e d
    unfold leftOver
    split
    · exact ⟨rfl, rfl⟩
    · exact ⟨rfl, rfl⟩
  obtain ⟨hresult, hcursor⟩ := Outcome.andThen_stay (o := o) hstay
  exact ⟨hresult.trans (congrFun Except.map_id _), hcursor⟩

theorem result_eq_heading :
    (statement vars c).result =
      (expression vars (heading c).2).result.map (Evaluation.mk (heading c).1) := by
  rw [statement, Outcome.result_after, (andThen_leftOver _).1, body_eq_heading.1]

theorem cursor_eq_heading :
    (statement vars c).cursor = (expression vars (heading c).2).cursor := by
  rw [statement, Outcome.cursor_after, (andThen_leftOver _).2, body_eq_heading.2]

theorem result_eq_ok_iff {e : Evaluation} :
    (statement vars c).result = .ok e ↔
      e.form = (heading c).1 ∧ (expression vars (heading c).2).result = .ok e.value := by
  obtain ⟨form, value⟩ := e
  rw [result_eq_heading]
  cases (expression vars (heading c).2).result with
  | ok x => simp [Except.map, eq_comm]
  | error fault => simp [Except.map]

theorem result_eq_error_iff {fault : Fault} :
    (statement vars c).result = .error fault ↔
      (expression vars (heading c).2).result = .error fault := by
  rw [result_eq_heading]
  cases (expression vars (heading c).2).result with
  | ok x => simp [Except.map]
  | error other => simp [Except.map]

end Statement

/-! ## Events -/

/-- A report on a statement as a whole: what it stores or prints, what it leaves over, and why it
fails. -/
def Event.isClosing : Event → Bool
  | assignment _ _ => true
  | printing _ => true
  | trailing _ _ => true
  | failure _ => true
  | _ => false

/-- What a statement stores or prints. -/
def Evaluation.announcement (e : Evaluation) : List Event :=
  match e.form with
  | .assignment name => [.assignment name e.value]
  | .print => [.printing e.value]
  | .expression => []

/-- The report of what a statement leaves over where it stops. -/
def Cursor.leftOver (c : Cursor) : List Event :=
  if c.atEnd then [] else [.trailing c.position c.peek.display]

theorem Evaluation.isClosing_of_mem {e : Evaluation} {event : Event} (h : event ∈ e.announcement) :
    event.isClosing = true := by
  unfold announcement at h
  split at h <;> simp_all [Event.isClosing]

theorem Cursor.isClosing_of_mem {c : Cursor} {event : Event} (h : event ∈ c.leftOver) :
    event.isClosing = true := by
  unfold leftOver at h
  split at h <;> simp_all [Event.isClosing]

namespace Statement

variable {vars : Variables} {c : Cursor}

theorem events_andThen {form : StatementForm} {o : Outcome Float}
    {next : Float → Cursor → Outcome Evaluation}
    (h : ∀ x d, (next x d).events = (Evaluation.mk form x).announcement) :
    (o.andThen next).events = o.events ++ match o.result with
      | .ok x => (Evaluation.mk form x).announcement
      | .error _ => [] := by
  cases hresult : o.result with
  | error fault =>
    rw [Outcome.andThen_error hresult]
    exact (List.append_nil _).symm
  | ok x =>
    rw [Outcome.andThen_ok hresult]
    exact congrArg (o.events ++ ·) (h x o.cursor)

/-- What a statement stores or prints it reports behind the events of its expression. -/
theorem events_body (vars : Variables) (c : Cursor) :
    (body vars c).events = (expression vars (heading c).2).events ++
      match (expression vars (heading c).2).result with
      | .ok x => (Evaluation.mk (heading c).1 x).announcement
      | .error _ => [] := by
  unfold body heading
  by_cases hassignment : isAssignment c = true
  · simp only [if_pos hassignment]
    exact events_andThen fun _ _ => rfl
  · simp only [if_neg hassignment]
    cases c.eat? .print with
    | some printed =>
      dsimp only
      exact events_andThen fun _ _ => rfl
    | none =>
      dsimp only
      exact events_andThen fun _ _ => rfl

/-- Behind the events of its expression, a statement with a value reports what it stores or prints
and what it leaves over. -/
theorem events_of_ok {e : Evaluation} (h : (statement vars c).result = .ok e) :
    (statement vars c).events = .evaluating c.position ::
      ((expression vars (heading c).2).events ++ e.announcement ++
        (statement vars c).cursor.leftOver) := by
  obtain ⟨form, x⟩ := e
  obtain ⟨rfl, hvalue⟩ := result_eq_ok_iff.mp h
  have hbody : (body vars c).result = .ok ⟨(heading c).1, x⟩ := by
    rw [body_eq_heading.1, hvalue]
    rfl
  have hcursor : (statement vars c).cursor = (body vars c).cursor := by
    rw [cursor_eq_heading, body_eq_heading.2]
  rw [hcursor, statement, Outcome.andThen_ok hbody, Outcome.events_after, events_body, hvalue]
  unfold leftOver Cursor.leftOver
  cases (body vars c).cursor.atEnd <;> rfl

theorem events_of_error {fault : Fault} (h : (statement vars c).result = .error fault) :
    (statement vars c).events =
      .evaluating c.position :: (expression vars (heading c).2).events := by
  have hvalue := result_eq_error_iff.mp h
  have hbody : (body vars c).result = .error fault := by
    rw [body_eq_heading.1, hvalue]
    rfl
  rw [statement, Outcome.andThen_error hbody, Outcome.events_after, events_body, hvalue]
  exact congrArg (_ :: ·) (List.append_nil _)

end Statement

end LineCalculator
