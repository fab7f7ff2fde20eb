import LineCalculator.Proofs.LineAnswer
import LineCalculator.Proofs.ProgramRun

/-!
# Runs under other settings

The settings say how long a session goes on and what of it is shown; no reply depends on them. A
session that ends at its first fault has answered its lines like one that goes on, the trace puts
lines of its own among the diagnostics, and over a pipe no prompt is shown.
-/
namespace LineCalculator

/-- Arguments that ask for a session with the given settings. -/
def Settings.arguments (settings : Settings) : List String :=
  ["--on-error", settings.policy.name] ++ (if settings.trace then ["--trace"] else []) ++
    ["--prompt=" ++ settings.prompt]

namespace CommandLine

theorem ofArgument_prompt (text : String) :
    Piece.ofArgument ("--prompt=" ++ text) = [.assigned .prompt text] := by
  have hchars : ("--prompt=" ++ text).toList =
      '-' :: '-' :: ("prompt".toList ++ '=' :: text.toList) := by
    simp
  have hkey : Key.ofName? "prompt".toList = some .prompt := by decide
  unfold Piece.ofArgument
  rw [hchars]
  simp_all

/-- Any settings can be asked for. -/
theorem request?_arguments (settings : Settings) :
    request? settings.arguments = some (.session settings) := by
  obtain ⟨policy, trace, prompt⟩ := settings
  have honError : Piece.ofArgument "--on-error" = [.option .onError] := by decide
  have htrace : Piece.ofArgument "--trace" = [.option .trace] := by decide
  have hpolicy : Piece.ofArgument policy.name = [.plain policy.name] := by
    cases policy <;> decide
  have hprompt := ofArgument_prompt prompt
  cases trace <;>
    simp [request?, Settings.arguments, honError, htrace, hpolicy, hprompt, requestOf,
      Given.withPolicy, Given.withTrace, Given.withPrompt, Given.settings]

end CommandLine

namespace Session

/-- The line of an index is the first that fails, and none before it leaves the session. -/
structure FirstFault (vars : Variables) (lines : List String) (i : Nat) : Prop where
  fault : ∃ fault, ((respondAll vars lines).map Response.reply)[i]? = some (.error fault)
  first : ∀ j < i, ∀ fault, ((respondAll vars lines).map Response.reply)[j]? ≠ some (.error fault)
  stays : exitLine ∉ lines.take i

variable {vars : Variables} {line : String} {lines : List String} {i : Nat}

namespace FirstFault

theorem not_nil : ¬ FirstFault vars [] i := by
  rintro ⟨⟨fault, h⟩, -, -⟩
  simp at h

theorem zero_iff :
    FirstFault vars (line :: lines) 0 ↔ ∃ fault, (respond vars line).reply = .error fault := by
  constructor
  · rintro ⟨⟨fault, h⟩, -, -⟩
    exact ⟨fault, Option.some.inj h⟩
  · rintro ⟨fault, h⟩
    exact ⟨⟨fault, congrArg some h⟩, nofun, by simp⟩

theorem succ_iff :
    FirstFault vars (line :: lines) (i + 1) ↔
      line ≠ exitLine ∧ (∀ fault, (respond vars line).reply ≠ .error fault) ∧
        FirstFault (respond vars line).vars lines i := by
  constructor
  · rintro ⟨hfault, hfirst, hstays⟩
    simp only [List.take_succ_cons, List.mem_cons, not_or] at hstays
    refine ⟨Ne.symm hstays.1, fun fault h => ?_, hfault, fun j hj => ?_, hstays.2⟩
    · exact hfirst 0 (Nat.succ_pos i) fault (congrArg some h)
    · exact hfirst (j + 1) (Nat.succ_lt_succ hj)
  · rintro ⟨hline, hreply, hfault, hfirst, hstays⟩
    refine ⟨hfault, fun j hj fault => ?_, ?_⟩
    · cases j with
      | zero => exact fun h => hreply fault (Option.some.inj h)
      | succ j => exact hfirst j (Nat.lt_of_succ_lt_succ hj) fault
    · simp only [List.take_succ_cons, List.mem_cons, not_or]
      exact ⟨Ne.symm hline, hstays⟩

end FirstFault

/-- Only the line that leaves and a fault end a session. -/
theorem endsSession_eq_false (policy : ErrorPolicy) (hline : line ≠ exitLine)
    (hreply : ∀ fault, (respond vars line).reply ≠ .error fault) :
    (respond vars line).reply.endsSession policy = false := by
  cases h : (respond vars line).reply with
  | exit => exact absurd (reply_eq_exit_iff.mp h) hline
  | error fault => exact absurd h (hreply fault)
  | invalidInput | value e => rfl

/-- Up to its first fault a session answers its lines under either policy as every session does, and
under the one it ends there. -/
theorem take_converse_of_firstFault (h : FirstFault vars lines i) :
    converse .terminate vars lines = (respondAll vars lines).take (i + 1) ∧
      (converse .carryOn vars lines).take (i + 1) = (respondAll vars lines).take (i + 1) := by
  induction lines generalizing vars i with
  | nil => exact absurd h FirstFault.not_nil
  | cons line lines ih =>
    cases i with
    | zero =>
      -- Here the two policies part: one ends with this reply, the other answers what follows.
      obtain ⟨fault, hreply⟩ := FirstFault.zero_iff.mp h
      simp [converse_cons, hreply, Reply.endsSession, ErrorPolicy.isFatal]
    | succ i =>
      obtain ⟨hline, hreply, hlater⟩ := FirstFault.succ_iff.mp h
      obtain ⟨hstopping, hgoing⟩ := ih hlater
      simp [converse_cons, endsSession_eq_false _ hline hreply, hstopping, hgoing]

/-- A session that meets no fault is the same under either policy. -/
theorem converse_of_no_firstFault (h : ∀ i, ¬ FirstFault vars lines i) :
    converse .terminate vars lines = converse .carryOn vars lines ∧
      ∀ r ∈ converse .terminate vars lines, r.reply.isError = false := by
  induction lines generalizing vars with
  | nil => exact ⟨rfl, nofun⟩
  | cons line lines ih =>
    by_cases hline : line = exitLine
    · have hreply : (respond vars line).reply = .exit := reply_eq_exit_iff.mpr hline
      simp [converse_cons, hreply, Reply.endsSession, Reply.isError]
    · have hreply : ∀ fault, (respond vars line).reply ≠ .error fault := fun fault hfault =>
        h 0 (FirstFault.zero_iff.mpr ⟨fault, hfault⟩)
      have hfault : (respond vars line).reply.isError = false := by
        rw [Bool.eq_false_iff, ne_eq, Reply.isError_iff, not_exists]
        exact hreply
      obtain ⟨hsame, hrest⟩ := ih fun i hi => h (i + 1) (FirstFault.succ_iff.mpr ⟨hline, hreply, hi⟩)
      simp only [converse_cons, endsSession_eq_false _ hline hreply, Bool.false_eq_true, if_false]
      exact ⟨congrArg _ hsame, List.forall_mem_cons.mpr ⟨hfault, hrest⟩⟩

/-- The reply to the first line that fails is the fault of the session that goes on. -/
theorem FirstFault.getElem?_converse (h : FirstFault vars lines i) :
    ∃ fault, ((converse .carryOn vars lines).map Response.reply)[i]? = some (.error fault) := by
  obtain ⟨fault, hfault⟩ := h.fault
  have htake := congrArg (fun responses => (responses.map Response.reply)[i]?)
    (take_converse_of_firstFault h).2
  simp only [List.map_take, List.getElem?_take_of_lt (Nat.lt_succ_self i)] at htake
  exact ⟨fault, htake.trans hfault⟩

/-- A session that ends at faults answers the first lines of one that goes on. -/
theorem converse_terminate_eq_take (vars : Variables) (lines : List String) :
    ∃ n, converse .terminate vars lines = (converse .carryOn vars lines).take n := by
  by_cases h : ∃ i, FirstFault vars lines i
  · obtain ⟨i, hi⟩ := h
    obtain ⟨hstopping, hgoing⟩ := take_converse_of_firstFault hi
    exact ⟨i + 1, hstopping.trans hgoing.symm⟩
  · refine ⟨(converse .carryOn vars lines).length, ?_⟩
    rw [List.take_length]
    exact (converse_of_no_firstFault (not_exists.mp h)).1

/-- The last reply of a session that ends at faults is one exactly if there is a first one. -/
theorem last_isError_iff :
    ((converse .terminate vars lines).map Response.reply).getLast?.any Reply.isError = true ↔
      ∃ i, FirstFault vars lines i := by
  constructor
  · intro hlast
    by_contra hnone
    obtain ⟨-, hfaults⟩ := converse_of_no_firstFault (not_exists.mp hnone)
    cases hreply : ((converse .terminate vars lines).map Response.reply).getLast? with
    | none => simp [hreply] at hlast
    | some reply =>
      obtain ⟨r, hr, rfl⟩ := List.mem_map.mp (List.mem_of_getLast? hreply)
      simp [hreply, hfaults r hr] at hlast
  · rintro ⟨i, h⟩
    obtain ⟨fault, hfault⟩ := h.fault
    rw [(take_converse_of_firstFault h).1, List.map_take, List.getLast?_take]
    simp [hfault, Reply.isError]

end Session

/-- A line of the diagnostics that shows an event. -/
def isEventLine (line : List Char) : Bool :=
  [Event.Severity.trace, .debug, .warn].any fun severity =>
    (severity.name ++ " ").toList.isPrefixOf line

/-- A text of whole lines without those that show events. -/
def withoutEvents (text : String) : String :=
  String.join (((text.toList.splitOn '\n').dropLast.filter fun line => !isEventLine line).map
    fun line => String.ofList line ++ "\n")

theorem withoutEvents_empty : withoutEvents "" = "" := rfl

theorem withoutEvents_append {line : String} (h : OneLine line) (text : String) :
    withoutEvents (line ++ "\n" ++ text) =
      (if isEventLine line.toList then "" else line ++ "\n") ++ withoutEvents text := by
  have hne := List.splitOn_ne_nil '\n' text.toList
  have hchars : (line ++ "\n" ++ text).toList = line.toList ++ '\n' :: text.toList := by simp
  unfold withoutEvents
  rw [hchars, List.splitOn_append_cons_self_of_not_mem h, List.dropLast_cons_of_ne_nil hne,
    List.filter_cons]
  cases isEventLine line.toList with
  | true => exact String.empty_append.symm
  | false => simp

/-- A fault is no line of an event. -/
theorem withoutEvents_complaint {reply : Reply} (h : OneLine reply.text) (text : String) :
    withoutEvents (reply.complaint ++ text) = reply.complaint ++ withoutEvents text := by
  cases reply with
  | error fault =>
    have hfault : isEventLine (Reply.error fault).text.toList = false := by
      simp [isEventLine, Reply.text, Event.Severity.name, List.isPrefixOf]
    have happend := withoutEvents_append h text
    rw [hfault] at happend
    exact happend
  | exit | invalidInput | value e =>
    have hsilent (rest : String) : "" ++ rest = rest := String.empty_append
    exact (congrArg withoutEvents (hsilent text)).trans (hsilent _).symm

namespace Surroundings

/-- The log writes every event that is recorded on one line as one line, behind the name of its
severity. -/
def LogsLines (s : Surroundings) : Prop :=
  ∀ e : Event, OneLine e.text →
    ∃ rest, OneLine rest ∧ s.logged e = e.severity.name ++ " " ++ rest ++ "\n"

theorem logsLines_plain : plain.LogsLines := by
  intro e he
  let rest := e.message ++ String.join (e.fields.map fun field => " " ++ field.1 ++ "=" ++ field.2)
  have htext : e.text = e.severity.name ++ " " ++ rest := String.append_assoc
  rw [htext, OneLine.append_iff] at he
  exact ⟨rest, he.2, congrArg (· ++ "\n") htext⟩

variable {s : Surroundings} {settings : Settings}

/-- What the log writes is left out. -/
theorem withoutEvents_log (hlog : s.LogsLines) {events : List Event}
    (h : ∀ e ∈ events, OneLine e.text) (text : String) :
    withoutEvents (s.log settings events ++ text) = withoutEvents text := by
  have hkept : ∀ e ∈ events.filter (s.keeps settings), OneLine e.text := fun e he =>
    h e (List.mem_of_mem_filter he)
  unfold log
  generalize events.filter (s.keeps settings) = kept at hkept
  induction kept with
  | nil => exact congrArg withoutEvents String.empty_append
  | cons e kept ih =>
    obtain ⟨hone, hrest⟩ := List.forall_mem_cons.mp hkept
    obtain ⟨rest, hline, hlogged⟩ := hlog e hone
    have hseverity : OneLine (e.severity.name ++ " ") := by cases e.severity <;> decide
    have hevent : isEventLine (e.severity.name ++ " " ++ rest).toList = true := by
      refine List.any_eq_true.mpr ⟨e.severity, by cases e.severity <;> decide, ?_⟩
      exact List.isPrefixOf_iff_prefix.mpr (by simp)
    rw [List.map_cons, String.join_cons, hlogged, String.append_assoc,
      withoutEvents_append (OneLine.append_iff.mpr ⟨hseverity, hline⟩), hevent, if_pos rfl,
      String.empty_append, ih hrest]

/-- Without the lines of the events the diagnostics of a session are its faults. -/
theorem withoutEvents_diagnostics (hlog : s.LogsLines) (policy : ErrorPolicy) (vars : Variables)
    (lines : List String) :
    let responses := Session.converse policy vars lines
    withoutEvents (s.report settings responses).diagnostics =
      String.join (responses.map fun r => r.reply.complaint) := by
  intro responses
  have hmem : ∀ r ∈ responses, r ∈ Session.respondAll vars lines := fun r =>
    Session.mem_respondAll_of_mem_converse
  unfold report
  dsimp only
  generalize responses = responses at hmem
  induction responses with
  | nil => exact withoutEvents_empty
  | cons r responses ih =>
    obtain ⟨hr, hrest⟩ := List.forall_mem_cons.mp hmem
    have hevents : ∀ e ∈ r.events, OneLine e.text := by
      intro e he
      obtain ⟨t, hquotes, ht⟩ := Session.exists_quotes hr he
      exact Event.oneLine_text hquotes ht
    rw [List.map_cons, String.join_cons, String.append_assoc, withoutEvents_log hlog hevents,
      withoutEvents_complaint (Session.oneLine_of_mem hr), ih hrest, List.map_cons,
      String.join_cons]

/-- On both streams the first responses of a session leave what all of them begin with. -/
theorem report_append (responses more : List Response) :
    (s.report settings (responses ++ more)).output =
        (s.report settings responses).output ++ (s.report settings more).output ∧
      (s.report settings (responses ++ more)).diagnostics =
        (s.report settings responses).diagnostics ++ (s.report settings more).diagnostics := by
  simp [report]

end Surroundings

namespace Report

/-- Two runs write the same on both streams. -/
def SameStreams (r s : Report) : Prop := r.output = s.output ∧ r.diagnostics = s.diagnostics

/-- On both streams another run writes all that a run does, and then goes on. -/
def Begins (r s : Report) : Prop :=
  (∃ more, s.output = r.output ++ more) ∧ ∃ more, s.diagnostics = r.diagnostics ++ more

theorem begins_take (s : Surroundings) (settings : Settings) (responses : List Response) (n : Nat) :
    (s.report settings (responses.take n)).Begins (s.report settings responses) := by
  have happend := @Surroundings.report_append s settings (responses.take n) (responses.drop n)
  rw [List.take_append_drop] at happend
  exact ⟨⟨_, happend.1⟩, ⟨_, happend.2⟩⟩

end Report

/-- Whatever its settings, a run over lines from a pipe answers them in the same way. Under the policy
that goes on, its report is that of all responses up to the line that leaves. Under the policy that ends
a session at a fault it writes on both streams what it writes under the other policy up to the first
fault, if one comes before the line that leaves, and all of it otherwise; and only that fault makes it
fail. With no filter from the environment, the trace adds the lines of the events to the diagnostics and
nothing else. The prompt adds nothing to either stream. -/
theorem run_under_other_settings (settings : Settings) {s : Surroundings} {input : String}
    {lines : List String} (hpipes : s.Pipes input lines) (hfilter : s.filter = none)
    (hlog : s.LogsLines) :
    let going : Settings := { settings with policy := .carryOn }
    let stopping : Settings := { settings with policy := .terminate }
    let traced : Settings := { settings with trace := true }
    let untraced : Settings := { settings with trace := false }
    let answered := Session.converse .carryOn ∅ lines
    let report (chosen : Settings) := s.run chosen input
    CommandLine.request? settings.arguments = some (.session settings) ∧
      report going = s.report going answered ∧
      (report stopping).Begins (report going) ∧
      (∀ i, Session.FirstFault ∅ lines i →
        (∃ fault, (answered.map Response.reply)[i]? = some (.error fault)) ∧
          (report stopping).SameStreams (s.report going (answered.take (i + 1)))) ∧
      ((∀ i, ¬ Session.FirstFault ∅ lines i) → (report stopping).SameStreams (report going)) ∧
      (report going).code = 0 ∧ (report stopping).code ≤ 1 ∧
      ((report stopping).code = 1 ↔ ∃ i, Session.FirstFault ∅ lines i) ∧
      (report traced).output = (report untraced).output ∧
      (report traced).code = (report untraced).code ∧
      withoutEvents (report traced).diagnostics = (report untraced).diagnostics ∧
      ∀ prompt, report { settings with prompt := prompt } = report settings := by
  intro going stopping traced untraced answered report
  have hreport (chosen : Settings) :
      report chosen = s.report chosen (Session.converse chosen.policy ∅ lines) :=
    Surroundings.run_of_pipes hpipes
  have hgoing : (report going).code =
      if (answered.map Response.reply).getLast?.any Reply.isError && false then 1 else 0 := by
    rw [hreport going]
    exact Surroundings.code_report answered
  have hstopping : (report stopping).code =
      if ((Session.converse .terminate ∅ lines).map Response.reply).getLast?.any Reply.isError &&
        true then 1 else 0 := by
    rw [hreport stopping]
    exact Surroundings.code_report _
  have hstreams {responses : List Response} (h : Session.converse .terminate ∅ lines = responses) :
      (report stopping).SameStreams (s.report going responses) := by
    rw [hreport stopping, ← h]
    exact ⟨rfl, rfl⟩
  refine ⟨CommandLine.request?_arguments settings, hreport going, ?_, ?_, ?_, ?_, ?_, ?_, ?_, ?_, ?_,
    ?_⟩
  · obtain ⟨n, hn⟩ := Session.converse_terminate_eq_take ∅ lines
    obtain ⟨houtput, hdiagnostics⟩ := hstreams hn
    unfold Report.Begins
    rw [houtput, hdiagnostics, hreport going]
    exact Report.begins_take s going answered n
  · intro i h
    obtain ⟨hstop, hgo⟩ := Session.take_converse_of_firstFault h
    exact ⟨h.getElem?_converse, hstreams (hstop.trans hgo.symm)⟩
  · intro h
    rw [hreport going]
    exact hstreams (Session.converse_of_no_firstFault h).1
  · simp [hgoing]
  · rw [hstopping]
    split <;> decide
  · rw [hstopping, ← Session.last_isError_iff]
    simp
  · rw [hreport traced, hreport untraced]
    rfl
  · rw [hreport traced, hreport untraced]
    rfl
  · rw [hreport traced, hreport untraced, Surroundings.withoutEvents_diagnostics hlog,
      Surroundings.diagnostics_report rfl hfilter Session.severity_ne_warn_of_mem]
  · intro prompt
    rw [hreport settings, hreport]
    rfl

/-- A name without a value ends this run under the one policy, and under the other the lines behind it
are answered. -/
theorem run_stopped_by_undefined_name :
    let input := "2\nx\n3\nexit\ny"
    let report (policy : ErrorPolicy) (trace : Bool) :=
      Surroundings.plain.run { policy := policy, trace := trace } input
    Surroundings.plain.Pipes input (inputLines input) ∧ Surroundings.plain.filter = none ∧
      Surroundings.plain.LogsLines ∧
      (∃ i, Session.FirstFault ∅ (inputLines input) i) ∧
      (report .terminate true).output = "Result: 2\n" ∧
      (report .carryOn true).output = "Result: 2\nResult: 3\n" ∧
      (report .carryOn true).code = 0 ∧
      withoutEvents (report .terminate true).diagnostics =
        "Error: Undefined variable 'x'.\n" := by
  intro input report
  have hpipes : Surroundings.plain.Pipes input (inputLines input) := ⟨rfl, fun _ => rfl⟩
  have hoptions := run_under_other_settings { policy := .terminate, trace := true } hpipes rfl
    Surroundings.logsLines_plain
  obtain ⟨-, -, -, -, -, hgoing, -, hfault, -, -, htrace, -⟩ := hoptions
  refine ⟨hpipes, rfl, Surroundings.logsLines_plain, hfault.mp (by decide +kernel),
    by decide +kernel, by decide +kernel, hgoing, ?_⟩
  exact htrace.trans (by decide +kernel)

end LineCalculator
