import LineCalculator.Program
import LineCalculator.Proofs.EventLine
import LineCalculator.Proofs.SessionState

/-!
# Runs of the program

A run over lines from a pipe answers them as a session of the chosen policy does, up to and including
the first reply that ends it. Every reply has one line on one of the two streams, but for the silent
one to the line that leaves, and without the trace nothing else is written.
-/
namespace LineCalculator

/-! ## Lines of a text -/

/-- A cut of texts at their line feeds. The line feed is dropped, with one carriage return before it,
and what stands behind the last one is a line if it is anything. -/
structure CutsLines (cut : String → List String) : Prop where
  fed : ∀ line rest, OneLine line → line.toList.getLast? ≠ some '\r' →
    cut (line ++ "\n" ++ rest) = line :: cut rest
  returned : ∀ line rest, OneLine line → cut (line ++ "\r\n" ++ rest) = line :: cut rest
  last : ∀ line, OneLine line → cut line = if line = "" then [] else [line]

theorem inputLines_append {line : String} (h : OneLine line) (rest : String) :
    inputLines (line ++ "\n" ++ rest) =
      String.ofList (dropReturn line.toList) :: inputLines rest := by
  have hne : rest.toList.splitOn '\n' ≠ [] := List.splitOn_ne_nil '\n' rest.toList
  have hchars : (line ++ "\n" ++ rest).toList = line.toList ++ '\n' :: rest.toList := by simp
  unfold inputLines
  rw [hchars, List.splitOn_append_cons_self_of_not_mem h]
  dsimp only
  rw [List.dropLast_cons_of_ne_nil hne, List.getLast?_cons_of_ne_nil hne]
  rfl

theorem cutsLines_inputLines : CutsLines inputLines where
  fed line rest hline hreturn := by
    rw [inputLines_append hline, dropReturn, if_neg hreturn, String.ofList_toList]
  returned line rest hline := by
    have hreturned : OneLine (line ++ "\r") := OneLine.append_iff.mpr ⟨hline, by decide⟩
    have htext : line ++ "\r\n" ++ rest = line ++ "\r" ++ "\n" ++ rest := by
      rw [← String.toList_inj]
      simp
    have hdrop : dropReturn (line ++ "\r").toList = line.toList := by simp [dropReturn]
    rw [htext, inputLines_append hreturned, hdrop, String.ofList_toList]
  last line hline := by
    unfold inputLines
    rw [List.splitOn_eq_singleton hline]
    by_cases hempty : line = ""
    · simp [hempty]
    · simp [Option.filter, hempty]

/-! ## Responses and replies -/

namespace Session

/-- Every response of a session is the response to one of its lines. -/
theorem exists_respond_of_mem {vars : Variables} {lines : List String} {r : Response}
    (h : r ∈ respondAll vars lines) : ∃ before, ∃ line ∈ lines, r = respond before line := by
  obtain ⟨i, hi⟩ := List.mem_iff_getElem?.mp h
  rw [getElem?_respondAll] at hi
  obtain ⟨line, hline, rfl⟩ := Option.map_eq_some_iff.mp hi
  exact ⟨_, line, List.mem_of_getElem? hline, rfl⟩

variable {policy : ErrorPolicy} {vars : Variables} {lines : List String} {r : Response}

theorem mem_respondAll_of_mem_converse (h : r ∈ converse policy vars lines) :
    r ∈ respondAll vars lines := by
  rw [converse_eq_respondAll_take, respondAll_take] at h
  exact List.mem_of_mem_take h

/-- No reply of a session breaks a line. -/
theorem oneLine_of_mem (h : r ∈ respondAll vars lines) : OneLine r.reply.text := by
  obtain ⟨before, line, -, rfl⟩ := exists_respond_of_mem h
  exact oneLine_reply before line

/-- Every event of a session quotes a token without blanks. -/
theorem exists_quotes (h : r ∈ respondAll vars lines) {e : Event} (he : e ∈ r.events) :
    ∃ t : Token, e.Quotes t ∧ BlankFree t.text := by
  obtain ⟨before, line, -, rfl⟩ := exists_respond_of_mem h
  exact exists_quotes_of_mem he

/-- A session never warns. -/
theorem severity_ne_warn_of_mem :
    ∀ r ∈ converse policy vars lines, ∀ e ∈ r.events, e.severity ≠ .warn := by
  intro r hr e he
  obtain ⟨t, hquotes, -⟩ := exists_quotes (mem_respondAll_of_mem_converse hr) he
  exact Event.severity_ne_warn hquotes

end Session

namespace Reply

/-- What a reply puts on the output. -/
def isAnswer : Reply → Bool
  | invalidInput => true
  | value _ => true
  | exit => false
  | error _ => false

/-- What a reply puts on the diagnostics. -/
def isError : Reply → Bool
  | error _ => true
  | invalidInput => false
  | value _ => false
  | exit => false

/-- Replies up to and including the first that ends the session. -/
def untilEnd (policy : ErrorPolicy) (replies : List Reply) : List Reply :=
  replies.take (replies.findIdx (endsSession policy) + 1)

variable {policy : ErrorPolicy} {reply : Reply}

theorem isError_iff : reply.isError = true ↔ ∃ fault, reply = .error fault := by
  cases reply <;> simp [isError]

/-- A reply that does not leave the session goes to one of the two streams. -/
theorem exit_or_isAnswer (reply : Reply) : reply = .exit ∨ reply.isAnswer = !reply.isError := by
  cases reply <;> simp [isAnswer, isError]

theorem output_eq (reply : Reply) :
    reply.output = if reply.isAnswer then reply.text ++ "\n" else "" := by
  cases reply <;> rfl

theorem complaint_eq (reply : Reply) :
    reply.complaint = if reply.isError then reply.text ++ "\n" else "" := by
  cases reply <;> rfl

/-- A stream that shows some replies, each as a line, and nothing of the others. -/
theorem join_map_eq {shown : Reply → String} {goes : Reply → Bool}
    (h : ∀ reply, shown reply = if goes reply then reply.text ++ "\n" else "")
    (replies : List Reply) : String.join (replies.map shown) =
      String.join ((replies.filter goes).map fun reply => reply.text ++ "\n") := by
  induction replies with
  | nil => rfl
  | cons reply replies ih =>
    rw [List.map_cons, String.join_cons, h, ih, List.filter_cons]
    split
    · rw [List.map_cons, String.join_cons]
    · exact String.empty_append

/-- A run that ends with a reply fails if that is a fault. -/
theorem exitCode?_of_endsSession (h : reply.endsSession policy = true) :
    reply.exitCode? policy = some (if reply.isError && policy.isFatal then 1 else 0) := by
  cases reply with
  | exit => rfl
  | error fault =>
    have hfatal : policy.isFatal = true := h
    simp [exitCode?, endsSession, isError, hfatal]
  | invalidInput | value e => cases h

theorem exitCode?_of_not_endsSession (h : reply.endsSession policy = false) :
    reply.exitCode? policy = none ∧ (reply.isError && policy.isFatal) = false := by
  cases reply with
  | exit => cases h
  | error fault =>
    have hfatal : policy.isFatal = false := h
    simp [exitCode?, endsSession, hfatal]
  | invalidInput | value e => exact ⟨rfl, rfl⟩

end Reply

/-- A session replies as every session does, up to and including the first reply that ends it. -/
theorem Session.reply_converse (policy : ErrorPolicy) (vars : Variables) (lines : List String) :
    (converse policy vars lines).map Response.reply =
      Reply.untilEnd policy ((respondAll vars lines).map Response.reply) := by
  rw [converse_eq_respondAll_take, respondAll_take, Reply.untilEnd, List.findIdx_map, List.map_take]
  rfl

/-! ## Lines from a pipe -/

namespace Surroundings

/-- The reader returns these lines from an input and then its end. It shows nothing, whatever the
prompt, and the history takes every line. -/
structure Pipes (s : Surroundings) (input : String) (lines : List String) : Prop where
  opens : s.unopened = none
  reads : ∀ prompt, s.read prompt input = .piped lines

/-- The report of a run that gives these responses to lines from a pipe. -/
def report (s : Surroundings) (settings : Settings) (responses : List Response) : Report where
  code :=
    if responses.getLast?.any fun r => r.reply.isError && settings.policy.isFatal then 1 else 0
  output := String.join (responses.map fun r => r.reply.output)
  diagnostics :=
    String.join (responses.map fun r => s.log settings r.events ++ r.reply.complaint)

variable {s : Surroundings} {settings : Settings}

theorem report_cons {r : Response} (responses : List Response)
    (h : (r.reply.isError && settings.policy.isFatal) = false) :
    s.report settings (r :: responses) = (s.report settings responses).behind r.reply.output
      (s.log settings r.events ++ r.reply.complaint) := by
  unfold report Report.behind
  cases responses with
  | nil => simp [h]
  | cons next responses => simp [List.getLast?_cons_cons]

/-- A run over lines from a pipe ends as the session over these lines does. -/
theorem serve_piped (vars : Variables) (lines : List String) :
    s.serve settings (Reading.piped lines).close vars (Reading.piped lines).entries =
      s.report settings (Session.converse settings.policy vars lines) := by
  have hclose (lines : List String) : (Reading.piped lines).close = ⟨0, "", ""⟩ := rfl
  rw [hclose]
  induction lines generalizing vars with
  | nil => rfl
  | cons line lines ih =>
    have hentries : (Reading.piped (line :: lines)).entries =
        { line } :: (Reading.piped lines).entries := rfl
    rw [hentries, serve, Session.converse_cons]
    dsimp only [Entry.warnings]
    cases hends : (Session.respond vars line).reply.endsSession settings.policy with
    | true =>
      rw [Reply.exitCode?_of_endsSession hends]
      simp [report]
    | false =>
      obtain ⟨hcode, hfailure⟩ := Reply.exitCode?_of_not_endsSession hends
      rw [hcode]
      simp [report_cons _ hfailure, ih]

theorem run_of_pipes {input : String} {lines : List String} (h : s.Pipes input lines) :
    s.run settings input =
      s.report settings (Session.converse settings.policy ∅ lines) := by
  rw [run, h.opens]
  dsimp only
  rw [h.reads]
  exact serve_piped ∅ lines

/-- Without the trace the log keeps no step of working out a line. -/
theorem log_eq_empty (htrace : settings.trace = false) (hfilter : s.filter = none)
    {events : List Event} (h : ∀ e ∈ events, e.severity ≠ .warn) : s.log settings events = "" := by
  have hnone : events.filter (s.keeps settings) = [] := by
    refine List.filter_eq_nil_iff.mpr fun e he => ?_
    simp [keeps, hfilter, htrace, h e he]
  rw [log, hnone]
  rfl

/-- Without the trace the diagnostics are the faults alone. -/
theorem diagnostics_report (htrace : settings.trace = false) (hfilter : s.filter = none)
    {responses : List Response} (h : ∀ r ∈ responses, ∀ e ∈ r.events, e.severity ≠ .warn) :
    (s.report settings responses).diagnostics =
      String.join (responses.map fun r => r.reply.complaint) := by
  refine congrArg String.join (List.map_congr_left fun r hr => ?_)
  rw [log_eq_empty htrace hfilter (h r hr), String.empty_append]

theorem code_report (responses : List Response) : (s.report settings responses).code =
    if (responses.map Response.reply).getLast?.any Reply.isError && settings.policy.isFatal then 1
    else 0 := by
  unfold report
  rw [List.getLast?_map]
  cases responses.getLast? <;> rfl

end Surroundings

/-! ## The policy of a run -/

namespace CommandLine

/-- The policies that are named, in order. -/
def namedPolicies : List Piece → List ErrorPolicy
  | [] => []
  | .option .onError :: .plain name :: rest => (ErrorPolicy.ofName? name).toList ++ namedPolicies rest
  | .assigned .onError name :: rest => (ErrorPolicy.ofName? name).toList ++ namedPolicies rest
  | _ :: rest => namedPolicies rest

namespace Given

variable {given next : Given}

theorem policy_settings (given : Given) :
    given.settings.policy = given.policy.toList.headD .terminate := by
  unfold settings
  cases given.policy with
  | none => rfl
  | some policy => rfl

theorem policy_of_withTrace (h : given.withTrace = some next) : next.policy = given.policy := by
  unfold withTrace at h
  split at h
  · cases h
  · cases h
    rfl

theorem policy_of_withPrompt {text : String} (h : given.withPrompt text = some next) :
    next.policy = given.policy := by
  unfold withPrompt at h
  split at h
  · cases h
  · cases h
    rfl

theorem policy_of_withPolicy {name : String} (h : given.withPolicy name = some next) :
    given.policy = none ∧ next.policy = ErrorPolicy.ofName? name := by
  unfold withPolicy at h
  split at h
  · cases h
  · next hnone =>
    obtain ⟨policy, hname, rfl⟩ := Option.map_eq_some_iff.mp h
    exact ⟨by simpa using hnone, hname.symm⟩

end Given

/-- The settings of a session have the policy that the options name, or else the first one. -/
theorem policy_of_requestOf {given : Given} {pieces : List Piece} {settings : Settings}
    (h : requestOf given pieces = some (.session settings)) :
    settings.policy = (given.policy.toList ++ namedPolicies pieces).headD .terminate := by
  fun_induction requestOf given pieces with
  | case1 given | case2 given =>
    cases h
    simp [namedPolicies, Given.policy_settings]
  | case3 | case4 | case10 => cases h
  | case5 given rest ih =>
    obtain ⟨next, hnext, hrest⟩ := Option.bind_eq_some_iff.mp h
    rw [ih next hrest, Given.policy_of_withTrace hnext]
    rfl
  | case6 given name rest ih | case7 given name rest ih =>
    obtain ⟨next, hnext, hrest⟩ := Option.bind_eq_some_iff.mp h
    obtain ⟨hnone, hname⟩ := Given.policy_of_withPolicy hnext
    rw [ih next hrest, hname, hnone]
    rfl
  | case8 given text rest ih | case9 given text rest ih =>
    obtain ⟨next, hnext, hrest⟩ := Option.bind_eq_some_iff.mp h
    rw [ih next hrest, Given.policy_of_withPrompt hnext]
    rfl

end CommandLine

/-- The lines of a text are cut at its line feeds. Without the trace, and with no filter from the
environment, a run over a text whose lines the reader returns writes the replies of a session of the
chosen policy to these lines, up to and including the first reply that ends it: values and invalid input
on the output, faults on the diagnostics, each as one line. The run fails if the last reply is a fault
under the policy that ends a session there. -/
theorem run_follows_session {arguments : List String} {settings : Settings} {s : Surroundings}
    {input : String} (hsession : CommandLine.request? arguments = some (.session settings))
    (htrace : settings.trace = false) (hfilter : s.filter = none)
    (hpipes : s.Pipes input (inputLines input)) :
    let replies := (Session.respondAll ∅ (inputLines input)).map Response.reply
    let answered := Reply.untilEnd settings.policy replies
    let report := s.run settings input
    CutsLines inputLines ∧
      settings.policy =
        (CommandLine.namedPolicies (arguments.flatMap CommandLine.Piece.ofArgument)).headD
          .terminate ∧
      report.output =
        String.join ((answered.filter Reply.isAnswer).map fun reply => reply.text ++ "\n") ∧
      report.diagnostics =
        String.join ((answered.filter Reply.isError).map fun reply => reply.text ++ "\n") ∧
      (∀ reply ∈ answered, OneLine reply.text ∧
        (reply = .exit ∨ reply.isAnswer = !reply.isError)) ∧
      report.code ≤ 1 ∧
      (report.code = 1 ↔
        (∃ fault, answered.getLast? = some (.error fault)) ∧ settings.policy = .terminate) := by
  intro replies answered report
  let responses := Session.converse settings.policy ∅ (inputLines input)
  have hanswered : responses.map Response.reply = answered :=
    Session.reply_converse settings.policy ∅ (inputLines input)
  have hreport : report = s.report settings responses := Surroundings.run_of_pipes hpipes
  have houtput : report.output = String.join (answered.map Reply.output) := by
    rw [hreport, ← hanswered, List.map_map]
    rfl
  have hdiagnostics : report.diagnostics = String.join (answered.map Reply.complaint) := by
    rw [hreport, Surroundings.diagnostics_report htrace hfilter Session.severity_ne_warn_of_mem,
      ← hanswered, List.map_map]
    rfl
  have hcode : report.code =
      if answered.getLast?.any Reply.isError && settings.policy.isFatal then 1 else 0 := by
    rw [hreport, Surroundings.code_report, hanswered]
  refine ⟨cutsLines_inputLines, CommandLine.policy_of_requestOf hsession, ?_, ?_, ?_, ?_, ?_⟩
  · rw [houtput, Reply.join_map_eq Reply.output_eq]
  · rw [hdiagnostics, Reply.join_map_eq Reply.complaint_eq]
  · intro reply hreply
    obtain ⟨r, hr, rfl⟩ := List.mem_map.mp (List.mem_of_mem_take hreply)
    exact ⟨Session.oneLine_of_mem hr, r.reply.exit_or_isAnswer⟩
  · rw [hcode]
    split <;> decide
  · have hlast : answered.getLast?.any Reply.isError = true ↔
        ∃ fault, answered.getLast? = some (.error fault) := by
      cases answered.getLast? with
      | none => simp
      | some reply => simp [Reply.isError_iff]
    rw [hcode, ← hlast]
    simp [ErrorPolicy.isFatal]

/-- A blank line and a fault do not end this session, and the line that leaves does. -/
theorem run_until_exit :
    let settings : Settings := { policy := .carryOn }
    let input := "2\r\n \nx\nexit\n1"
    let report := Surroundings.plain.run settings input
    CommandLine.request? ["--on-error", "continue"] = some (.session settings) ∧
      settings.trace = false ∧ Surroundings.plain.filter = none ∧
      Surroundings.plain.Pipes input (inputLines input) ∧
      report.output = "Result: 2\nInvalid input.\n" ∧
      report.diagnostics = "Error: Undefined variable 'x'.\n" ∧
      report.code = 0 := by
  intro settings input report
  have hsession : CommandLine.request? ["--on-error", "continue"] = some (.session settings) := by
    decide
  have hpipes : Surroundings.plain.Pipes input (inputLines input) := ⟨rfl, fun _ => rfl⟩
  obtain ⟨-, -, houtput, hdiagnostics, -, hcode, hfailure⟩ :=
    run_follows_session hsession rfl rfl hpipes
  refine ⟨hsession, rfl, rfl, hpipes, houtput.trans (by decide +kernel),
    hdiagnostics.trans (by decide +kernel), ?_⟩
  have hcontinues : report.code ≠ 1 := fun hone => by cases (hfailure.mp hone).2
  exact Nat.lt_one_iff.mp (Nat.lt_of_le_of_ne hcode hcontinues)

end LineCalculator
