import LineCalculator.Proofs.EventLine
import LineCalculator.Proofs.LineAnswer

/-!
# Replaying the log of a line

The records of a line are a program for a stack of number texts: what is read is pushed, and what is
computed takes its operands from the top. Replayed from an empty stack, the log of every line finds
the operands that it names, and that of a line with a value leaves the text of this value alone on the
stack. What a statement stores, prints or leaves over is recorded behind all of this.

The stack is followed through the events first, which say what they read and compute. A record has the
same effect as its event, since no name and no number in it has a blank, so that its words are known.
-/
namespace LineCalculator

/-! ## Records -/

namespace Log

/-- The words of a text. -/
def words (text : String) : List String := (text.toList.splitOn ' ').map String.ofList

/-- Carries out a record on a stack of number texts, the top first. A number and a variable push their
texts. An operation takes its right and its left operand, a call its argument, and they push the
result; they fail if the texts that they find are others, or missing. -/
def perform? (record : String) (stack : List String) : Option (List String) :=
  match words record, stack with
  | ["DEBUG", "number:", value], stack => some (value :: stack)
  | ["DEBUG", "variable:", _, "=", value], stack => some (value :: stack)
  | ["DEBUG", "operation:", left, _, right, "=", value], top :: next :: rest =>
    if top = right ∧ next = left then some (value :: rest) else none
  | ["DEBUG", "operation:", _, _, _, "=", _], _ => none
  | ["DEBUG", "function:", call, "=", value], top :: rest =>
    if call = "root(" ++ top ++ ")" then some (value :: rest) else none
  | ["DEBUG", "function:", _, "=", _], [] => none
  | _, stack => some stack

/-- Carries out records one after another. -/
def replay? (records : List String) (stack : List String) : Option (List String) :=
  records.foldlM (fun stack record => perform? record stack) stack

/-- A record on a statement as a whole: what it stores or prints, what it leaves over, and why it
fails. -/
def isClosing (record : String) : Bool :=
  match words record with
  | _ :: keyword :: _ => keyword ∈ ["assignment:", "print:", "ignoring", "line"]
  | _ => false

/-- The record of what a statement stores or prints. -/
def announced (form : StatementForm) (shown : String) : List String :=
  match form with
  | .assignment name => ["DEBUG assignment: " ++ name ++ " = " ++ shown]
  | .print => ["DEBUG print: " ++ shown]
  | .expression => []

/-- The record of what a statement leaves over where it stops. -/
def leftOver (c : Cursor) : List String :=
  if c.atEnd then []
  else ["DEBUG ignoring trailing tokens position=" ++ c.position.repr ++ " token=" ++
    c.peek.display]

theorem words_append {word : String} {text : List Char} (h : BlankFree word) :
    words (String.ofList (word.toList ++ ' ' :: text)) = word :: words (String.ofList text) := by
  simp [words, List.splitOn_append_cons_self_of_not_mem (h.not_mem (c := ' ') rfl)]

/-- Words without blanks that are put behind each other can be told apart again. -/
theorem words_eq {record : String} {ws : List String} (hne : ws ≠ [])
    (hfree : ∀ word ∈ ws, BlankFree word)
    (hrecord : record.toList = [' '].intercalate (ws.map String.toList)) : words record = ws := by
  have hapart : ∀ word ∈ ws.map String.toList, ' ' ∉ word := by
    intro word hword
    obtain ⟨text, htext, rfl⟩ := List.mem_map.mp hword
    exact (hfree text htext).not_mem rfl
  rw [words, hrecord, List.splitOn_intercalate ' ' hapart (by simpa using hne), List.map_map]
  simp [Function.comp_def]

/-- Four kinds of records touch the stack, and no other does. -/
theorem perform?_of_keyword {record severity keyword : String} {rest : List String}
    (hwords : words record = severity :: keyword :: rest)
    (hkeyword : keyword ∉ ["number:", "variable:", "operation:", "function:"])
    (stack : List String) : perform? record stack = some stack := by
  unfold perform?
  rw [hwords]
  split <;> simp_all

end Log

/-! ## Events -/

namespace Event

/-- Carries out an event as its record is carried out, by what it says and not by its words. -/
def carryOut? : Event → List String → Option (List String)
  | number value, stack => some (Number.display value :: stack)
  | variableRead _ value, stack => some (Number.display value :: stack)
  | operation _ left right result, top :: next :: rest =>
    if top = Number.display right ∧ next = Number.display left then
      some (Number.display result :: rest)
    else none
  | operation _ _ _ _, _ => none
  | call _ argument result, top :: rest =>
    if top = Number.display argument then some (Number.display result :: rest) else none
  | call _ _ _, [] => none
  | _, stack => some stack

@[simp] theorem carryOut?_operation (op : Operator) (left right result : Float)
    (stack : List String) :
    (operation op left right result).carryOut?
        (Number.display right :: Number.display left :: stack) =
      some (Number.display result :: stack) := by
  simp [carryOut?]

@[simp] theorem carryOut?_call (f : Builtin) (argument result : Float) (stack : List String) :
    (call f argument result).carryOut? (Number.display argument :: stack) =
      some (Number.display result :: stack) := by
  simp [carryOut?]

/-- What closes a statement leaves the stack alone. -/
theorem carryOut?_of_isClosing {e : Event} (h : e.isClosing = true) (stack : List String) :
    e.carryOut? stack = some stack := by
  cases e with
  | assignment | printing | trailing | failure => rfl
  | _ => cases h

end Event

/-- Carries out events one after another. -/
def carryOutAll? (events : List Event) (stack : List String) : Option (List String) :=
  events.foldlM (fun stack event => event.carryOut? stack) stack

@[simp] theorem carryOutAll?_nil (stack : List String) : carryOutAll? [] stack = some stack := rfl

@[simp] theorem carryOutAll?_cons (event : Event) (events : List Event) (stack : List String) :
    carryOutAll? (event :: events) stack = (event.carryOut? stack).bind (carryOutAll? events) := rfl

theorem carryOutAll?_append (events more : List Event) (stack : List String) :
    carryOutAll? (events ++ more) stack = (carryOutAll? events stack).bind (carryOutAll? more) :=
  List.foldlM_append

theorem carryOutAll?_of_isClosing {events : List Event} (h : ∀ e ∈ events, e.isClosing = true)
    (stack : List String) : carryOutAll? events stack = some stack := by
  induction events with
  | nil => rfl
  | cons e events ih =>
    obtain ⟨hfirst, hrest⟩ := List.forall_mem_cons.mp h
    rw [carryOutAll?_cons, Event.carryOut?_of_isClosing hfirst]
    exact ih hrest

/-- The events of an outcome find their operands on every stack. Those of a value push it, and none of
them closes a statement. -/
structure Outcome.Replays (o : Outcome Float) : Prop where
  value : ∀ x, o.result = .ok x → ∀ stack,
    carryOutAll? o.events stack = some (Number.display x :: stack)
  fault : ∀ fault, o.result = .error fault → ∀ stack, (carryOutAll? o.events stack).isSome = true
  computing : ∀ e ∈ o.events, e.isClosing = false

namespace Outcome.Replays

variable {o p : Outcome Float}

theorem of_error {fault : Fault} (hresult : o.result = .error fault)
    (hreplay : ∀ stack, (carryOutAll? o.events stack).isSome = true)
    (hcomputing : ∀ e ∈ o.events, e.isClosing = false) : o.Replays := by
  refine ⟨fun x hx => ?_, fun _ _ => hreplay, hcomputing⟩
  rw [hresult] at hx
  cases hx

theorem of_ok {x : Float} (hresult : o.result = .ok x)
    (hreplay : ∀ stack, carryOutAll? o.events stack = some (Number.display x :: stack))
    (hcomputing : ∀ e ∈ o.events, e.isClosing = false) : o.Replays := by
  refine ⟨fun y hy => ?_, fun fault hfault => ?_, hcomputing⟩
  · rw [hresult] at hy
    cases hy
    exact hreplay
  · rw [hresult] at hfault
    cases hfault

/-- Where nothing is recorded, nothing is missed. -/
theorem formFault (fault : FormFault) (c : Cursor) : (Outcome.formFault fault c).Replays :=
  of_error rfl (fun _ => rfl) (by simp [Outcome.formFault])

theorem valueFault (fault : ValueFault) (c : Cursor) : (Outcome.valueFault fault c).Replays :=
  of_error rfl (fun _ => rfl) (by simp [Outcome.valueFault])

theorem isSome (h : o.Replays) (stack : List String) : (carryOutAll? o.events stack).isSome = true := by
  cases hresult : o.result with
  | ok x => rw [h.value x hresult]; rfl
  | error fault => exact h.fault fault hresult stack

/-- A fault behind the events of an outcome. -/
theorem refuse (h : o.Replays) (fault : Fault) (c : Cursor) :
    (⟨.error fault, c, o.events⟩ : Outcome Float).Replays :=
  of_error rfl h.isSome h.computing

/-- Nothing that stands before or among the events of an expression closes its statement. -/
theorem computing_line (h : o.Replays) (count position : Nat) :
    ∀ e ∈ .tokenized count :: .evaluating position :: o.events, e.isClosing = false :=
  List.forall_mem_cons.mpr ⟨rfl, List.forall_mem_cons.mpr ⟨rfl, h.computing⟩⟩

theorem entering (h : o.Replays) (rule : Rule) (position depth : Nat) :
    (o.after (.entering rule position depth)).Replays := by
  have hcomputing : ∀ e ∈ (o.after (.entering rule position depth)).events, e.isClosing = false :=
    List.forall_mem_cons.mpr ⟨rfl, h.computing⟩
  exact ⟨h.value, h.fault, hcomputing⟩

end Outcome.Replays

/-- The events of every run replay, with any operands below them on the stack that are still to be
used. -/
theorem Runs.replays {vars : Variables} {part : Part} {c : Cursor} {o : Outcome Float}
    (h : Runs vars part c o) : o.Replays := by
  induction h with
  | number _ _ => exact .of_ok rfl (fun _ => rfl) (by simp [Outcome.value, Event.isClosing])
  | variableRead _ _ => exact .of_ok rfl (fun _ => rfl) (by simp [Outcome.value, Event.isClosing])
  | malformed | unexpected | tooDeep | unknown | unopened => exact .formFault _ _
  | undefined => exact .valueFault _ _
  | group _ _ _ ih | unargued _ _ _ _ _ _ ih | unfilled _ _ ih | operand _ ih => exact ih
  | refused _ _ _ _ _ _ _ ih => exact ih.refuse _ _
  | unclosed _ _ _ ih => exact ih.refuse _ _
  | closed _ hvalue _ ih =>
    exact .of_ok rfl (ih.value _ hvalue) ih.computing
  | @called c f o x y _ _ _ _ _ hvalue _ ih =>
    refine .of_ok rfl (fun stack => ?_) ?_
    · simp [carryOutAll?_append, ih.value x hvalue]
    · simpa [or_imp, forall_and, Event.isClosing] using ih.computing
  | @halted tier op c o p left fault _ hleft _ _ hfault ihleft ihright =>
    refine .of_error rfl (fun stack => ?_) ?_
    · rw [carryOutAll?_append, ihleft.value left hleft]
      exact ihright.fault fault hfault _
    · simpa [or_imp, forall_and] using ⟨ihleft.computing, ihright.computing⟩
  | @operation tier op c o p left right _ hleft _ _ hright ihleft ihright =>
    refine .of_ok rfl (fun stack => ?_) ?_
    · simp [carryOutAll?_append, ihleft.value left hleft, ihright.value right hright]
    · simpa [or_imp, forall_and, Event.isClosing] using ⟨ihleft.computing, ihright.computing⟩
  | factor _ ih => exact ih.entering _ _ _
  | joined _ _ ih => exact ih.entering _ _ _

/-! ## The records of events -/

namespace Event

/-- The first word of what an event says. -/
def keyword : Event → String
  | tokenized _ => "tokenized"
  | evaluating _ => "evaluating"
  | entering _ _ _ => "parsing"
  | number _ => "number:"
  | variableRead _ _ => "variable:"
  | operation _ _ _ _ => "operation:"
  | call _ _ _ => "function:"
  | assignment _ _ => "assignment:"
  | printing _ => "print:"
  | trailing _ _ => "ignoring"
  | failure _ => "line"
  | unkept _ => "could"

-- The definitions are unfolded as a whole: their equations for the single kinds are slow to make.
theorem keyword_prefix (e : Event) : (e.keyword ++ " ").toList <+: e.message.toList := by
  unfold keyword message
  cases e <;> simp

theorem words_text (e : Event) :
    ∃ rest, Log.words e.text = e.severity.name :: e.keyword :: rest := by
  have hseverity : BlankFree e.severity.name := by cases e.severity <;> decide
  have hkeyword : BlankFree e.keyword := by
    unfold keyword
    cases e <;> simp only <;> decide
  obtain ⟨rest, hrest⟩ := e.keyword_prefix
  let behind := rest ++
    (String.join (e.fields.map fun field => " " ++ field.1 ++ "=" ++ field.2)).toList
  have htext : e.text = String.ofList
      (e.severity.name.toList ++ ' ' :: (e.keyword.toList ++ ' ' :: behind)) := by
    rw [← String.toList_inj]
    unfold text
    simp [behind, ← hrest]
  rw [htext, Log.words_append hseverity, Log.words_append hkeyword]
  exact ⟨_, rfl⟩

theorem isClosing_text (e : Event) : Log.isClosing e.text = e.isClosing := by
  obtain ⟨rest, hwords⟩ := e.words_text
  rw [Log.isClosing, hwords]
  cases e <;> rfl

theorem words_number (value : Float) :
    Log.words (number value).text = ["DEBUG", "number:", Number.display value] := by
  refine Log.words_eq (List.cons_ne_nil _ _) ?_ ?_
  · simp +decide [Number.blankFree_display]
  · unfold text severity message fields
    simp [Severity.name, List.intercalate]

theorem words_variableRead {name : String} (h : BlankFree name) (value : Float) :
    Log.words (variableRead name value).text =
      ["DEBUG", "variable:", name, "=", Number.display value] := by
  refine Log.words_eq (List.cons_ne_nil _ _) ?_ ?_
  · simp +decide [Number.blankFree_display, h]
  · unfold text severity message fields
    simp [Severity.name, List.intercalate]

theorem words_operation (op : Operator) (left right result : Float) :
    Log.words (operation op left right result).text =
      ["DEBUG", "operation:", Number.display left, op.symbol, Number.display right, "=",
        Number.display result] := by
  have hsymbol : BlankFree op.symbol := by cases op <;> decide
  refine Log.words_eq (List.cons_ne_nil _ _) ?_ ?_
  · simp +decide [Number.blankFree_display, hsymbol]
  · unfold text severity message fields
    simp [Severity.name, List.intercalate]

theorem words_call (f : Builtin) (argument result : Float) :
    Log.words (call f argument result).text =
      ["DEBUG", "function:", "root(" ++ Number.display argument ++ ")", "=",
        Number.display result] := by
  have hcall : BlankFree ("root(" ++ Number.display argument ++ ")") := by
    simp only [BlankFree.append_iff]
    exact ⟨⟨by decide, Number.blankFree_display argument⟩, by decide⟩
  cases f
  refine Log.words_eq (List.cons_ne_nil _ _) ?_ ?_
  · simp +decide [Number.blankFree_display, hcall]
  · unfold text severity message fields
    simp [Severity.name, List.intercalate, Builtin.name]

/-- A record that quotes a token without blanks has the effect of its event. -/
theorem perform?_text {e : Event} {t : Token} (hquotes : e.Quotes t) (ht : BlankFree t.text)
    (stack : List String) : Log.perform? e.text stack = e.carryOut? stack := by
  cases e with
  | number value =>
    rw [Log.perform?.eq_def, words_number]
    rfl
  | variableRead name value =>
    obtain rfl : name = t.text := hquotes
    rw [Log.perform?.eq_def, words_variableRead ht]
    rfl
  | operation op left right result =>
    rw [Log.perform?.eq_def, words_operation]
    rcases stack with _ | ⟨top, _ | ⟨next, stack⟩⟩ <;> rfl
  | call f argument result =>
    rw [Log.perform?.eq_def, words_call]
    cases stack with
    | nil => rfl
    | cons top stack =>
      have hcall : "root(" ++ Number.display argument ++ ")" = "root(" ++ top ++ ")" ↔
          top = Number.display argument := by
        simp [← String.toList_inj, eq_comm]
      simp [carryOut?, hcall]
  | unkept reason => exact hquotes.elim
  | _ =>
    obtain ⟨rest, hwords⟩ := words_text _
    rw [Log.perform?_of_keyword hwords (by simp [keyword])]
    rfl

theorem text_assignment (name : String) (value : Float) :
    (assignment name value).text =
      "DEBUG assignment: " ++ name ++ " = " ++ Number.display value := by
  rw [← String.toList_inj]
  unfold text severity message fields
  simp [Severity.name]

theorem text_printing (value : Float) :
    (printing value).text = "DEBUG print: " ++ Number.display value := by
  rw [← String.toList_inj]
  unfold text severity message fields
  simp [Severity.name]

theorem text_trailing (position : Nat) (token : String) :
    (trailing position token).text =
      "DEBUG ignoring trailing tokens position=" ++ position.repr ++ " token=" ++ token := by
  rw [← String.toList_inj]
  unfold text severity message fields
  simp [Severity.name]

theorem text_failure (fault : Fault) :
    (failure fault).text =
      "DEBUG line failed: " ++ fault.message ++ " position=" ++ fault.position.repr := by
  rw [← String.toList_inj]
  unfold text severity message fields
  simp [Severity.name]

end Event

theorem Evaluation.map_text_announcement (e : Evaluation) :
    e.announcement.map Event.text = Log.announced e.form (Number.display e.value) := by
  obtain ⟨form, value⟩ := e
  cases form with
  | assignment name => exact congrArg (fun record => [record]) (Event.text_assignment name value)
  | print => exact congrArg (fun record => [record]) (Event.text_printing value)
  | expression => rfl

theorem Cursor.map_text_leftOver (c : Cursor) : c.leftOver.map Event.text = Log.leftOver c := by
  unfold leftOver Log.leftOver
  split
  · rfl
  · exact congrArg (fun record => [record]) (Event.text_trailing c.position c.peek.display)

/-- The records of events that quote tokens without blanks have the effect of these events. -/
theorem Log.replay?_map_text {events : List Event}
    (h : ∀ e ∈ events, ∃ t : Token, e.Quotes t ∧ BlankFree t.text) (stack : List String) :
    replay? (events.map Event.text) stack = carryOutAll? events stack := by
  induction events generalizing stack with
  | nil => rfl
  | cons e events ih =>
    obtain ⟨⟨t, hquotes, ht⟩, hrest⟩ := List.forall_mem_cons.mp h
    have hstep : replay? ((e :: events).map Event.text) stack =
        (perform? e.text stack).bind (replay? (events.map Event.text)) := rfl
    rw [hstep, Event.perform?_text hquotes ht, carryOutAll?_cons]
    exact congrArg _ (funext (ih hrest))

theorem Log.isClosing_of_mem_map {events : List Event} (h : ∀ e ∈ events, e.isClosing = false) :
    ∀ record ∈ events.map Event.text, isClosing record = false := by
  intro record hrecord
  obtain ⟨e, he, rfl⟩ := List.mem_map.mp hrecord
  rw [e.isClosing_text, h e he]

/-! ## Lines -/

namespace Session

variable {vars : Variables} {line : String}

/-- The events of a line with a value: what its expression reads and computes, which leaves the text
of the value, and behind that what closes the statement. -/
theorem events_of_value {e : Evaluation} (h : (respond vars line).reply = .value e) :
    (evaluateLine vars line).result = .ok e ∧
      ∃ before, (respond vars line).events =
          before ++ (e.announcement ++ (evaluateLine vars line).cursor.leftOver) ∧
        carryOutAll? before [] = some [Number.display e.value] ∧
        ∀ event ∈ before, event.isClosing = false := by
  rcases respond_cases vars line with ⟨-, hr⟩ | ⟨-, hr⟩ | ⟨other, hresult, hr⟩ | ⟨fault, -, hr⟩
  case inr.inr.inl =>
    obtain rfl : other = e := by simpa [hr] using h
    have hvalue := (Statement.result_eq_ok_iff.mp hresult).2
    let start := Cursor.atIndex (Token.scan line) 0
    have hreplays := (Runs.expression_reading vars (Statement.heading start).2).replays
    have hstatement : (evaluateLine vars line).events = _ := Statement.events_of_ok hresult
    rw [List.append_assoc] at hstatement
    refine ⟨hresult, _, ?_, ?_,
      hreplays.computing_line (Token.scan line).length start.position⟩
    · rw [hr, hstatement]
      rfl
    · exact hreplays.value _ hvalue []
  all_goals simp [hr] at h

/-- The events of a line with a fault: what its expression reads and computes, and behind that the
fault. -/
theorem events_of_error {fault : Fault} (h : (respond vars line).reply = .error fault) :
    ∃ before, (respond vars line).events = before ++ [.failure fault] ∧
      (carryOutAll? before []).isSome = true ∧ ∀ event ∈ before, event.isClosing = false := by
  rcases respond_cases vars line with ⟨-, hr⟩ | ⟨-, hr⟩ | ⟨e, -, hr⟩ | ⟨other, hresult, hr⟩
  case inr.inr.inr =>
    obtain rfl : other = fault := by simpa [hr] using h
    let start := Cursor.atIndex (Token.scan line) 0
    have hreplays := (Runs.expression_reading vars (Statement.heading start).2).replays
    have hstatement : (evaluateLine vars line).events = _ := Statement.events_of_error hresult
    refine ⟨_, ?_, ?_, hreplays.computing_line (Token.scan line).length start.position⟩
    · rw [hr, hstatement]
      rfl
    · exact hreplays.isSome []
  all_goals simp [hr] at h

theorem carryOutAll?_events_of_value {e : Evaluation} (h : (respond vars line).reply = .value e) :
    carryOutAll? (respond vars line).events [] = some [Number.display e.value] := by
  obtain ⟨-, before, hevents, hbefore, -⟩ := events_of_value h
  have hclosing : ∀ event ∈ e.announcement ++ (evaluateLine vars line).cursor.leftOver,
      event.isClosing = true := fun event hevent =>
    (List.mem_append.mp hevent).elim Evaluation.isClosing_of_mem Cursor.isClosing_of_mem
  rw [hevents, carryOutAll?_append, hbefore]
  exact carryOutAll?_of_isClosing hclosing _

theorem events_of_blank (h : IsBlankRun line.toList) :
    (respond vars line).events = [.tokenized 1] := by
  rw [respond_of_isBlankRun h]

theorem events_of_exit (h : line = exitLine) : (respond vars line).events = [] := by
  rw [respond, if_pos h]

theorem isSome_carryOutAll?_events (vars : Variables) (line : String) :
    (carryOutAll? (respond vars line).events []).isSome = true := by
  cases hreply : (respond vars line).reply with
  | exit => rw [events_of_exit (reply_eq_exit_iff.mp hreply)]; rfl
  | invalidInput => rw [events_of_blank (reply_eq_invalidInput_iff.mp hreply)]; rfl
  | value e => rw [carryOutAll?_events_of_value hreply]; rfl
  | error fault =>
    obtain ⟨before, hevents, hbefore, -⟩ := events_of_error hreply
    obtain ⟨stack, hstack⟩ := Option.isSome_iff_exists.mp hbefore
    rw [hevents, carryOutAll?_append, hstack]
    rfl

/-- The log of a line replays from an empty stack, whatever the session holds and whether or not the
line fails. The text of its value is alone on the stack in the end, it is the one that the reply
shows, and what the statement stores, prints and leaves over is recorded once and last. A line that
fails has the record of its fault once and last. A blank line is only counted, and the line that
leaves has no record. -/
theorem events_replay_to_reply (vars : Variables) (line : String) :
    let r := respond vars line
    let log := r.events.map Event.text
    let start := Cursor.atIndex (Token.scan line) 0
    let stop := (evaluateLine vars line).cursor
    (Log.replay? log []).isSome = true ∧
      (∀ e, r.reply = .value e →
        let shown := Number.display e.value
        e.form = (Statement.heading start).1 ∧
        r.reply.text = (if e.form = .print then "Print: " else "Result: ") ++ shown ∧
        Log.replay? log [] = some [shown] ∧
        ∃ before, log = before ++ (Log.announced e.form shown ++ Log.leftOver stop) ∧
          Log.replay? before [] = some [shown] ∧
          ∀ record ∈ before, Log.isClosing record = false) ∧
      (∀ fault, r.reply = .error fault →
        r.reply.text = "Error: " ++ fault.message ∧
        ∃ before, log = before ++
            ["DEBUG line failed: " ++ fault.message ++ " position=" ++ fault.position.repr] ∧
          ∀ record ∈ before, Log.isClosing record = false) ∧
      (IsBlankRun line.toList → log = ["TRACE tokenized line count=1"]) ∧
      (line = exitLine → log = []) := by
  intro r log start stop
  have hquotes : ∀ e ∈ r.events, ∃ t : Token, e.Quotes t ∧ BlankFree t.text := fun e he =>
    exists_quotes_of_mem he
  have hlog : Log.replay? log [] = carryOutAll? r.events [] := Log.replay?_map_text hquotes []
  refine ⟨?_, ?_, ?_, ?_, ?_⟩
  · rw [hlog]
    exact isSome_carryOutAll?_events vars line
  · intro e he shown
    obtain ⟨hresult, before, hevents, hreplay, hcomputing⟩ := events_of_value he
    have hbefore : ∀ event ∈ before, ∃ t : Token, event.Quotes t ∧ BlankFree t.text :=
      fun event hevent => hquotes event (hevents ▸ List.mem_append_left _ hevent)
    refine ⟨(Statement.result_eq_ok_iff.mp hresult).1, ?_, ?_, before.map Event.text, ?_, ?_,
      Log.isClosing_of_mem_map hcomputing⟩
    · rw [he]
      exact Evaluation.text_eq e
    · rw [hlog]
      exact carryOutAll?_events_of_value he
    · simp only [log, r, hevents, List.map_append, Evaluation.map_text_announcement,
        Cursor.map_text_leftOver, shown, stop]
    · rw [Log.replay?_map_text hbefore, hreplay]
  · intro fault hfault
    obtain ⟨before, hevents, -, hcomputing⟩ := events_of_error hfault
    have hlast : log = before.map Event.text ++ [(Event.failure fault).text] := by
      simp only [log, r, hevents, List.map_append, List.map_cons, List.map_nil]
    refine ⟨by rw [hfault]; rfl, before.map Event.text, ?_, Log.isClosing_of_mem_map hcomputing⟩
    rw [hlast, Event.text_failure]
  · intro hblank
    simp only [log, r, events_of_blank hblank]
    decide +kernel
  · intro hexit
    simp only [log, r, events_of_exit hexit, List.map_nil]

example : (respond ∅ "x = 1 + 2 )").events.map Event.text =
    ["TRACE tokenized line count=7", "DEBUG evaluating tokens position=0",
      "TRACE parsing expression position=2", "TRACE parsing term position=2",
      "TRACE parsing factor position=2", "DEBUG number: 1", "TRACE parsing term position=4",
      "TRACE parsing factor position=4", "DEBUG number: 2", "DEBUG operation: 1 + 2 = 3",
      "DEBUG assignment: x = 3", "DEBUG ignoring trailing tokens position=5 token=')'"] := by
  decide +kernel

end Session

end LineCalculator
