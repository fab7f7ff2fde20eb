import LineCalculator.Session
import LineCalculator.Proofs.StatementGrammar

/-!
# The state of a session

The variables are all that a session keeps from line to line, and a line changes them only by an
assignment whose right side has a value. Hence a run of lines leaves the assignments that its
replies report, made from left to right, and a line that makes none can be taken out of the run
without a trace in the other replies.
-/
namespace LineCalculator

/-- The entries of a list at the indices that are kept. -/
def retained {α : Type} (keep : Nat → Bool) (entries : List α) : List α :=
  (entries.zipIdx.filter fun entry => keep entry.2).map Prod.fst

theorem retained_cons {α : Type} (keep : Nat → Bool) (entry : α) (rest : List α) :
    retained keep (entry :: rest) =
      if keep 0 then entry :: retained (fun i => keep (i + 1)) rest
      else retained (fun i => keep (i + 1)) rest := by
  have hlater : rest.zipIdx 1 = rest.zipIdx.map fun entry => (entry.1, entry.2 + 1) :=
    List.zipIdx_succ
  unfold retained
  rw [List.zipIdx_cons, Nat.zero_add, hlater, List.filter_cons, List.filter_map]
  split
  · rw [List.map_cons, List.map_map]
    rfl
  · rw [List.map_map]
    rfl

namespace Variables

/-- No assignment takes a name away. -/
theorem mem_assignAll {vars : Variables} {name : String} (h : name ∈ vars)
    (pairs : List (String × Float)) : name ∈ vars.assignAll pairs := by
  induction pairs generalizing vars with
  | nil => exact h
  | cons pair pairs ih => exact ih (Std.ExtTreeMap.mem_insert.mpr (.inr h))

/-- A name that is not assigned keeps what it had. -/
theorem getElem?_assignAll_of_ne {vars : Variables} {name : String}
    {pairs : List (String × Float)} (h : ∀ pair ∈ pairs, pair.1 ≠ name) :
    (vars.assignAll pairs)[name]? = vars[name]? := by
  induction pairs generalizing vars with
  | nil => rfl
  | cons pair pairs ih =>
    have hne : ¬ compare pair.1 name = .eq := by
      simpa using h pair List.mem_cons_self
    rw [assignAll_cons, ih fun other hother => h other (List.mem_cons_of_mem _ hother),
      Std.ExtTreeMap.getElem?_insert, if_neg hne]

end Variables

/-- The name and the value that a reply reports as assigned. -/
def Response.assigned? (r : Response) : Option (String × Float) :=
  match r.reply with
  | .value ⟨.assignment name, x⟩ => some (name, x)
  | .value ⟨.print, _⟩ => none
  | .value ⟨.expression, _⟩ => none
  | .exit => none
  | .invalidInput => none
  | .error _ => none

/-- Tokens that assign a value to a name: the name, a sign of equality and an expression of that
value. -/
structure Assigns (vars : Variables) (tokens : List Token) (name : String) (x : Float) :
    Prop where
  target : tokens[0]? = some ⟨.name, name⟩
  sign : tokens[1]?.map Token.kind = some .equals
  value : (expression vars (.place tokens 2 0)).result = .ok x

variable {vars : Variables} {name : String} {x : Float}

namespace Assigns

variable {tokens : List Token}

theorem iff_evaluate :
    Assigns vars tokens name x ↔
      (evaluate vars tokens 0).result = .ok ⟨.assignment name, x⟩ := by
  have hevaluate : evaluate vars tokens 0 = statement vars (.place tokens 0 0) := rfl
  rw [hevaluate, Statement.result_eq_ok_iff]
  constructor
  · intro h
    obtain ⟨sign, hsecond, hsign⟩ := Option.map_eq_some_iff.mp h.sign
    rw [Statement.heading_of_assignment h.target rfl hsecond hsign]
    exact ⟨rfl, h.value⟩
  · intro ⟨hform, hvalue⟩
    by_cases hassignment : Statement.isAssignment (.place tokens 0 0) = true
    · obtain ⟨hname, hsecond⟩ := Statement.isAssignment_place.mp hassignment
      obtain ⟨target, hfirst, hname⟩ := Option.map_eq_some_iff.mp hname
      obtain ⟨sign, hsign, hkind⟩ := Option.map_eq_some_iff.mp hsecond
      rw [Statement.heading_of_assignment hfirst hname hsign hkind] at hform hvalue
      obtain ⟨kind, text⟩ := target
      cases hname
      cases hform
      exact ⟨hfirst, hsecond, hvalue⟩
    · unfold Statement.heading at hform
      rw [if_neg hassignment] at hform
      split at hform <;> cases hform

theorem two_le_length (h : Assigns vars tokens name x) : 2 ≤ tokens.length := by
  obtain ⟨sign, hsecond, -⟩ := Option.map_eq_some_iff.mp h.sign
  obtain ⟨hlt, -⟩ := List.getElem?_eq_some_iff.mp hsecond
  omega

end Assigns

theorem assigned?_ofOutcome {o : Outcome Evaluation} :
    (Response.ofOutcome vars o).assigned? = some (name, x) ↔
      o.result = .ok ⟨.assignment name, x⟩ := by
  unfold Response.ofOutcome
  cases o.result with
  | error fault => simp [Response.assigned?]
  | ok e =>
    obtain ⟨form, value⟩ := e
    cases form <;> simp [Response.assigned?]

/-- A statement leaves the variables with the assignment that its reply reports. -/
theorem vars_ofOutcome_eq_assignAll (o : Outcome Evaluation) :
    (Response.ofOutcome vars o).vars =
      vars.assignAll (Response.ofOutcome vars o).assigned?.toList := by
  unfold Response.ofOutcome
  cases o.result with
  | error fault => rfl
  | ok e =>
    obtain ⟨form, value⟩ := e
    cases form <;> rfl

namespace Session

variable {line : String}

/-- The variables after lines. -/
def varsAfter (vars : Variables) (lines : List String) : Variables :=
  lines.foldl (fun vars line => (respond vars line).vars) vars

@[simp] theorem varsAfter_nil (vars : Variables) : varsAfter vars [] = vars := rfl

@[simp] theorem varsAfter_cons (vars : Variables) (line : String) (lines : List String) :
    varsAfter vars (line :: lines) = varsAfter (respond vars line).vars lines := rfl

/-- The line that leaves is the name of a variable and no assignment. -/
theorem not_assigns_exitLine : ¬ Assigns vars (Token.scan exitLine) name x := by
  have hscan : Token.scan exitLine = [⟨.name, "exit"⟩, .endOfLine] := by decide +kernel
  intro h
  have hsign := h.sign
  rw [hscan] at hsign
  cases hsign

/-- What a line assigns is the value of its right side in the variables before it. -/
theorem assigned?_respond :
    (respond vars line).assigned? = some (name, x) ↔
      Assigns vars (Token.scan line) name x := by
  by_cases hexit : line = exitLine
  · subst hexit
    simp [respond, Response.assigned?, not_assigns_exitLine]
  by_cases hlength : (Token.scan line).length = 1
  · have hnot : ¬ Assigns vars (Token.scan line) name x := by
      intro h
      have := h.two_le_length
      omega
    simp [respond, if_neg hexit, hlength, Response.assigned?, hnot]
  · rw [respond, if_neg hexit]
    simp only [if_neg hlength]
    exact assigned?_ofOutcome.trans Assigns.iff_evaluate.symm

/-- A line leaves the variables with the assignment that its reply reports. -/
theorem vars_respond (vars : Variables) (line : String) :
    (respond vars line).vars = vars.assignAll (respond vars line).assigned?.toList := by
  unfold respond
  split
  · rfl
  · dsimp only
    split
    · rfl
    · exact vars_ofOutcome_eq_assignAll _

theorem vars_respond_of_none (h : (respond vars line).assigned? = none) :
    (respond vars line).vars = vars := by
  rw [vars_respond, h]
  rfl

/-- A run leaves the assignments that its replies report, from left to right. -/
theorem varsAfter_eq_assignAll (vars : Variables) (lines : List String) :
    varsAfter vars lines =
      vars.assignAll ((respondAll vars lines).filterMap Response.assigned?) := by
  induction lines generalizing vars with
  | nil => rfl
  | cons line lines ih =>
    rw [varsAfter_cons, ih, respondAll_cons, vars_respond]
    cases hassigned : (respond vars line).assigned? with
    | none => rw [List.filterMap_cons_none hassigned]; rfl
    | some pair => rw [List.filterMap_cons_some hassigned]; rfl

/-- Each line is answered with the variables that the lines before it leave. -/
theorem getElem?_respondAll (vars : Variables) (lines : List String) (i : Nat) :
    (respondAll vars lines)[i]? = lines[i]?.map (respond (varsAfter vars (lines.take i))) := by
  induction lines generalizing vars i with
  | nil => rfl
  | cons line lines ih =>
    cases i with
    | zero => rfl
    | succ i => exact ih (respond vars line).vars i

theorem varsAfter_take_succ {lines : List String} {i : Nat} (h : lines[i]? = some line) :
    varsAfter vars (lines.take (i + 1)) = (respond (varsAfter vars (lines.take i)) line).vars := by
  rw [List.take_add_one, h, varsAfter, List.foldl_append]
  rfl

/-- Lines that make no assignment can be taken out of a run. -/
theorem respondAll_retained {keep : Nat → Bool} {lines : List String}
    (h : ∀ i r, (respondAll vars lines)[i]? = some r → keep i = false →
      r.assigned? = none) :
    respondAll vars (retained keep lines) = retained keep (respondAll vars lines) := by
  induction lines generalizing vars keep with
  | nil => rfl
  | cons line lines ih =>
    have hlater : ∀ i r, (respondAll (respond vars line).vars lines)[i]? = some r →
        keep (i + 1) = false → r.assigned? = none := fun i r => h (i + 1) r
    rw [respondAll_cons, retained_cons, retained_cons]
    by_cases hkeep : keep 0 = true
    · rw [if_pos hkeep, if_pos hkeep, respondAll_cons, ih hlater]
    · have hsame : (respond vars line).vars = vars :=
        vars_respond_of_none (h 0 _ rfl (by simpa using hkeep))
      rw [hsame] at hlater
      rw [if_neg hkeep, if_neg hkeep, hsame, ih hlater]

theorem respondAll_take (vars : Variables) (lines : List String) (n : Nat) :
    respondAll vars (lines.take n) = (respondAll vars lines).take n := by
  induction lines generalizing vars n with
  | nil => simp
  | cons line lines ih =>
    cases n with
    | zero => rfl
    | succ n => simp [ih]

/-- A session that ends early has answered the lines up to there as every session does. -/
theorem converse_eq_respondAll_take (policy : ErrorPolicy) (vars : Variables)
    (lines : List String) :
    converse policy vars lines = respondAll vars (lines.take
      ((respondAll vars lines).findIdx (fun r => r.reply.endsSession policy) + 1)) := by
  induction lines generalizing vars with
  | nil => rfl
  | cons line lines ih =>
    rw [converse_cons, respondAll_cons, List.findIdx_cons]
    cases (respond vars line).reply.endsSession policy with
    | true => rfl
    | false => exact congrArg (_ :: ·) (ih _)

/-- Under either policy the lines that a session answers, up to the first reply that ends it, are a run,
and a run leaves the assignments that its replies report: each of the value that the line's right side
has in the variables before the line. Every other line leaves all variables alone, so a name that has a
value keeps one, and the same one unless it is assigned. Lines that assign nothing can be deleted, and
the others are answered as before. -/
theorem replies_account_for_variables (policy : ErrorPolicy) (vars : Variables)
    (lines : List String) :
    converse policy vars lines = respondAll vars (lines.take
        ((respondAll vars lines).findIdx (fun r => r.reply.endsSession policy) + 1)) ∧
      varsAfter vars lines =
        vars.assignAll ((respondAll vars lines).filterMap Response.assigned?) ∧
      (∀ i line, lines[i]? = some line →
        let before := varsAfter vars (lines.take i)
        ∃ r, (respondAll vars lines)[i]? = some r ∧
          r.vars = varsAfter vars (lines.take (i + 1)) ∧
          (∀ name x, r.assigned? = some (name, x) ↔
            Assigns before (Token.scan line) name x) ∧
          (r.assigned? = none → r.vars = before)) ∧
      (∀ name, (name ∈ vars → name ∈ varsAfter vars lines) ∧
        ((∀ r ∈ respondAll vars lines, ∀ x, r.assigned? ≠ some (name, x)) →
          (varsAfter vars lines)[name]? = vars[name]?)) ∧
      ∀ keep : Nat → Bool,
        (∀ i r, (respondAll vars lines)[i]? = some r → keep i = false →
          r.assigned? = none) →
        respondAll vars (retained keep lines) = retained keep (respondAll vars lines) := by
  refine ⟨converse_eq_respondAll_take policy vars lines, varsAfter_eq_assignAll vars lines,
    ?_, ?_, fun keep => respondAll_retained⟩
  · intro i line hline before
    refine ⟨respond before line, ?_, ?_, ?_, ?_⟩
    · rw [getElem?_respondAll, hline]
      rfl
    · exact (varsAfter_take_succ hline).symm
    · exact fun name x => assigned?_respond
    · exact vars_respond_of_none
  · intro name
    rw [varsAfter_eq_assignAll]
    refine ⟨fun hmem => Variables.mem_assignAll hmem _, fun hnone => ?_⟩
    refine Variables.getElem?_assignAll_of_ne fun pair hpair hname => ?_
    obtain ⟨r, hr, hassigned⟩ := List.mem_filterMap.mp hpair
    exact hnone r hr pair.2 (hname ▸ hassigned)

/-- A line that fails on a name assigned before it can be deleted, and the names keep their
values. -/
theorem unclosed_line_can_be_deleted :
    let vars : Variables := (∅ : Variables).insert "x" 1
    let lines := ["y = x", "(y", "y"]
    varsAfter vars lines = vars.insert "y" 1 ∧ Assigns vars (Token.scan "y = x") "y" 1 ∧
      "x" ∈ varsAfter vars lines ∧ (varsAfter vars lines)["x"]? = vars["x"]? ∧
      varsAfter vars (lines.take 2) = varsAfter vars (lines.take 1) ∧
      respondAll vars ["y = x", "y"] = retained (· != 1) (respondAll vars lines) := by
  intro vars lines
  have hassigned : (respondAll vars lines).map Response.assigned? =
      [some ("y", 1), none, none] := by
    simp only [vars, lines]
    decide +kernel
  have hentry : ∀ (i : Nat) (r : Response), (respondAll vars lines)[i]? = some r →
      [some ("y", 1), none, none][i]? = some r.assigned? := by
    intro i r hr
    rw [← hassigned, List.getElem?_map, hr]
    rfl
  obtain ⟨-, hafter, hline, hname, hdelete⟩ := replies_account_for_variables .terminate vars lines
  obtain ⟨first, hfirst, -, hiff, -⟩ := hline 0 "y = x" rfl
  obtain ⟨second, hsecond, hnext, -, hsame⟩ := hline 1 "(y" rfl
  refine ⟨?_, ?_, ?_, ?_, ?_, ?_⟩
  · have hpairs : (respondAll vars lines).filterMap Response.assigned? =
        ((respondAll vars lines).map Response.assigned?).filterMap id := by
      rw [List.filterMap_map, Function.id_comp]
    rw [hafter, hpairs, hassigned]
    rfl
  · exact (hiff "y" 1).mp (Option.some.inj (hentry 0 first hfirst)).symm
  · exact (hname "x").1 Std.ExtTreeMap.mem_insert_self
  · refine (hname "x").2 fun r hr x hx => ?_
    have hmem := List.mem_map_of_mem (f := Response.assigned?) hr
    rw [hassigned, hx] at hmem
    simp at hmem
  · rw [← hnext, hsame (Option.some.inj (hentry 1 second hsecond)).symm]
  · refine hdelete (· != 1) fun i r hr hi => ?_
    obtain rfl : i = 1 := by simpa using hi
    exact (Option.some.inj (hentry 1 r hr)).symm

end Session

end LineCalculator
