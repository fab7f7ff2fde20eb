import LineCalculator.Proofs.UnreadVariables

/-!
# Lines that do not use each other's names

A line can only tell that another came before it by a name that the other assigns. Two lines neither
of which uses the name that the other assigns are therefore answered alike in either order, and they
leave the same variables, since they assign to different names if both assign.
-/
namespace LineCalculator

/-- The name that tokens assign if they have a value: the first of them, with a sign of equality
behind it. -/
def assignedName? : List Token → Option String
  | ⟨.name, name⟩ :: ⟨.equals, _⟩ :: _ => some name
  | _ => none

/-- A line has no variable of the name that another assigns. -/
def LeavesOut (line other : String) : Prop :=
  ∀ name ∈ assignedName? (Token.scan other),
    ∀ t ∈ Token.scan line, t.kind = .name → t.text ≠ name

instance (line other : String) : Decidable (LeavesOut line other) :=
  inferInstanceAs (Decidable (∀ name ∈ assignedName? (Token.scan other),
    ∀ t ∈ Token.scan line, t.kind = .name → t.text ≠ name))

theorem Assigns.assignedName?_eq {vars : Variables} {tokens : List Token} {name : String}
    {x : Float} (h : Assigns vars tokens name x) : assignedName? tokens = some name := by
  obtain ⟨sign, hsecond, hsign⟩ := Option.map_eq_some_iff.mp h.sign
  match tokens, h.target, hsecond with
  | _ :: ⟨_, _⟩ :: _, hfirst, hsecond =>
    cases hfirst
    cases hsecond
    cases hsign
    rfl

theorem Assigns.mem {vars : Variables} {tokens : List Token} {name : String} {x : Float}
    (h : Assigns vars tokens name x) : ⟨.name, name⟩ ∈ tokens :=
  List.mem_of_getElem? h.target

namespace Variables

theorem insert_comm {name other : String} (h : name ≠ other) (x y : Float) (vars : Variables) :
    (vars.insert name x).insert other y = (vars.insert other y).insert name x := by
  refine ext_lookup fun key => ?_
  simp only [Std.ExtTreeMap.getElem?_insert, Std.LawfulEqCmp.compare_eq_iff_eq]
  by_cases hname : name = key
  · rw [if_pos hname, if_pos hname, if_neg fun hother => h (hname.trans hother.symm)]
  · rw [if_neg hname, if_neg hname]

theorem assignAll_insert {name : String} {pairs : List (String × Float)}
    (h : ∀ pair ∈ pairs, name ≠ pair.1) (x : Float) (vars : Variables) :
    assignAll (vars.insert name x) pairs = (vars.assignAll pairs).insert name x := by
  induction pairs generalizing vars with
  | nil => rfl
  | cons pair pairs ih =>
    obtain ⟨hne, hrest⟩ := List.forall_mem_cons.mp h
    rw [assignAll_cons, assignAll_cons, insert_comm hne, ih hrest]

/-- Assignments to different names can be made in either order. -/
theorem assignAll_comm {pairs more : List (String × Float)}
    (h : ∀ pair ∈ pairs, ∀ other ∈ more, pair.1 ≠ other.1) (vars : Variables) :
    (vars.assignAll pairs).assignAll more = (vars.assignAll more).assignAll pairs := by
  induction pairs generalizing vars with
  | nil => rfl
  | cons pair pairs ih =>
    obtain ⟨hne, hrest⟩ := List.forall_mem_cons.mp h
    rw [assignAll_cons, assignAll_cons, ih hrest, assignAll_insert hne]

end Variables

theorem reply_ofOutcome_congr {o other : Outcome Evaluation} (h : other.result = o.result)
    (vars others : Variables) :
    (Response.ofOutcome others other).reply = (Response.ofOutcome vars o).reply := by
  unfold Response.ofOutcome
  rw [h]
  cases o.result with
  | ok e => rfl
  | error fault => rfl

theorem Response.assigned?_congr {r other : Response} (h : other.reply = r.reply) :
    other.assigned? = r.assigned? := by
  unfold assigned?
  rw [h]

namespace Session

variable {vars others : Variables} {line other : String}

/-- A line is answered alike where it comes to the same. -/
theorem reply_respond_congr
    (h : (evaluateLine others line).result = (evaluateLine vars line).result) :
    (respond others line).reply = (respond vars line).reply := by
  unfold respond
  split
  · rfl
  · dsimp only
    split
    · rfl
    · exact reply_ofOutcome_congr h vars others

/-- What a line assigns is no name of a line that leaves it out. -/
theorem ne_of_leavesOut (h : LeavesOut line other) {pair : String × Float}
    (hpair : pair ∈ (respond vars other).assigned?.toList) {t : Token}
    (ht : t ∈ Token.scan line) (hkind : t.kind = .name) : pair.1 ≠ t.text := by
  have hassigns := assigned?_respond.mp (Option.mem_toList.mp hpair)
  exact (h pair.1 hassigns.assignedName?_eq t ht hkind).symm

/-- A line that leaves out the name that another assigns is answered behind it as before it. -/
theorem reply_respond_of_leavesOut (h : LeavesOut line other) (vars : Variables) :
    (respond (respond vars other).vars line).reply = (respond vars line).reply := by
  have hagree : AgreeOnNames vars (respond vars other).vars (Token.scan line) 0
      (statement vars (.place (Token.scan line) 0 0)).cursor.position := by
    intro i t _ _ htoken hkind _
    rw [vars_respond]
    exact Variables.getElem?_assignAll_of_ne fun pair hpair =>
      ne_of_leavesOut h hpair (List.mem_of_getElem? htoken) hkind
  exact reply_respond_congr (statement_eq_of_agreeOnNames hagree).1

/-- Lines that leave each other's names out make their assignments to different names. -/
theorem assigned_ne_of_leavesOut (h : LeavesOut line other) (vars : Variables) :
    ∀ pair ∈ (respond vars other).assigned?.toList,
      ∀ own ∈ (respond vars line).assigned?.toList, pair.1 ≠ own.1 := by
  intro pair hpair own hown
  have hassigns := assigned?_respond.mp (Option.mem_toList.mp hown)
  exact ne_of_leavesOut h hpair hassigns.mem rfl

theorem vars_respond_of_leavesOut (h : LeavesOut line other) (vars : Variables) :
    (respond (respond vars other).vars line).vars =
      (vars.assignAll (respond vars other).assigned?.toList).assignAll
        (respond vars line).assigned?.toList := by
  rw [vars_respond, Response.assigned?_congr (reply_respond_of_leavesOut h vars), vars_respond]

/-- Two lines that leave each other's names out can be answered in either order. Each gets the reply
that it gets alone, whatever either of them is and whether or not it fails, and the same variables
are left. -/
theorem independent_lines_commute (vars : Variables) {first second : String}
    (hfirst : LeavesOut first second) (hsecond : LeavesOut second first) :
    (respondAll vars [first, second]).map Response.reply =
        [(respond vars first).reply, (respond vars second).reply] ∧
      (respondAll vars [second, first]).map Response.reply =
        [(respond vars second).reply, (respond vars first).reply] ∧
      varsAfter vars [first, second] = varsAfter vars [second, first] := by
  refine ⟨?_, ?_, ?_⟩
  · simp [reply_respond_of_leavesOut hsecond]
  · simp [reply_respond_of_leavesOut hfirst]
  · have hcomm := Variables.assignAll_comm (assigned_ne_of_leavesOut hsecond vars) vars
    calc varsAfter vars [first, second]
        = (respond (respond vars first).vars second).vars := rfl
      _ = (respond (respond vars second).vars first).vars := by
        rw [vars_respond_of_leavesOut hsecond, vars_respond_of_leavesOut hfirst, hcomm]
      _ = varsAfter vars [second, first] := rfl

/-- A line that fails after it has read a name is answered behind an assignment to another name as
before it, and the assignment is kept. -/
theorem failing_line_behind_assignment :
    let vars : Variables := (∅ : Variables).insert "y" 1
    LeavesOut "x = y" "print (y" ∧ LeavesOut "print (y" "x = y" ∧
      (respondAll vars ["x = y", "print (y"]).map Response.reply =
        [.value ⟨.assignment "x", 1⟩, .error (.form (.unclosedParenthesis 3))] ∧
      varsAfter vars ["x = y", "print (y"] = vars.insert "x" 1 := by
  intro vars
  have hfirst : LeavesOut "x = y" "print (y" := by decide +kernel
  have hsecond : LeavesOut "print (y" "x = y" := by decide +kernel
  have hassign : Token.scan "x = y" =
      [⟨.name, "x"⟩, ⟨.equals, "="⟩, ⟨.name, "y"⟩, .endOfLine] := by decide +kernel
  have hprint : Token.scan "print (y" =
      [⟨.print, "print"⟩, ⟨.openParen, "("⟩, ⟨.name, "y"⟩, .endOfLine] := by decide +kernel
  have hvalue : (respond vars "x = y").reply = .value ⟨.assignment "x", 1⟩ ∧
      (respond vars "x = y").vars = vars.insert "x" 1 := by
    rw [respond, if_neg (by decide), hassign]
    exact ⟨rfl, rfl⟩
  have hfault : (respond vars "print (y").reply = .error (.form (.unclosedParenthesis 3)) ∧
      (respond vars "print (y").vars = vars := by
    rw [respond, if_neg (by decide), hprint]
    exact ⟨rfl, rfl⟩
  obtain ⟨hreplies, -, hvars⟩ := independent_lines_commute vars hfirst hsecond
  refine ⟨hfirst, hsecond, ?_, ?_⟩
  · rw [hreplies, hvalue.1, hfault.1]
  · rw [hvars, varsAfter_cons, hfault.2, varsAfter_cons, hvalue.2, varsAfter_nil]

end Session

end LineCalculator
