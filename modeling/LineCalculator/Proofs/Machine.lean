import LineCalculator.Proofs.Moves
import LineCalculator.Proofs.GrammarAdequacy

/-!
# Machines

A machine holds a cursor in a list of tokens and variables. It takes steps in any order: of the
cursor alone, or whole rules of the grammar, which may fail and leave groups open. On every run the
cursor goes along its list and passes no end of a line, and no more groups are open than allowed.
-/
namespace LineCalculator

/-- An outcome with a value lies behind a token that it took, with as many groups open as before,
and one without lies no less deep. -/
structure Outcome.Progresses {α : Type} (c : Cursor) (o : Outcome α) : Prop where
  value : ∀ x, o.result = .ok x → c.position < o.cursor.position ∧ o.cursor.depth = c.depth
  depth_le : c.depth ≤ o.cursor.depth

namespace Outcome.Progresses

variable {α β : Type} {c d : Cursor} {o : Outcome α} {p : Outcome β}

theorem of_stay {f : α → β} (h : o.Progresses c)
    (hstay : p.result = o.result.map f ∧ p.cursor = o.cursor) : p.Progresses c := by
  obtain ⟨hresult, hcursor⟩ := hstay
  refine ⟨fun y hy => ?_, hcursor ▸ h.depth_le⟩
  rw [hresult] at hy
  cases ho : o.result with
  | error fault => rw [ho] at hy; cases hy
  | ok x => exact hcursor ▸ h.value x ho

/-- What progresses from further along, no deeper, progresses. -/
theorem of_reaches (hreaches : c.Reaches d) (hdepth : d.depth = c.depth) (h : o.Progresses d) :
    o.Progresses c := by
  have hposition := hreaches.position_le
  refine ⟨fun x hx => ?_, hdepth ▸ h.depth_le⟩
  obtain ⟨hlt, hsame⟩ := h.value x hx
  exact ⟨Nat.lt_of_le_of_lt hposition hlt, hsame.trans hdepth⟩

end Outcome.Progresses

theorem progresses_of_progressive {reading : Cursor → Outcome Float}
    (h : Expression.Progressive reading) (c : Cursor) : (reading c).Progresses c := by
  obtain ⟨hproceeds, htakes⟩ := h c
  refine ⟨fun x hx => ⟨?_, hproceeds.restores x hx⟩, hproceeds.depth_le⟩
  exact hproceeds.reaches.position_lt (htakes x hx)

theorem depth_heading (c : Cursor) : (Statement.heading c).2.depth = c.depth := by
  unfold Statement.heading
  split
  · simp
  · split
    · rename_i printed hprinted
      obtain ⟨-, rfl⟩ := Cursor.eat?_eq_some_iff.mp hprinted
      simp
    · rfl

theorem progresses_statement (vars : Variables) (c : Cursor) :
    (statement vars c).Progresses c :=
  (progresses_of_progressive (progressive_expression vars) _).of_reaches
    (Statement.moves_heading c).reaches (depth_heading c) |>.of_stay
    ⟨Statement.result_eq_heading, Statement.cursor_eq_heading⟩

/-- The steps of a machine. -/
inductive Step where
  | peek
  | peekNext
  | advance
  | eat (kind : TokenKind)
  | enterGroup
  | leaveGroup
  | rule (rule : Rule)
  | statement

/-- A step that reads tokens by the grammar. -/
def Step.isGrammar : Step → Bool
  | rule _ => true
  | statement => true
  | _ => false

/-- What a step that succeeds answers. -/
inductive Answer where
  | done
  | token (t : Token)
  | taken (eaten : Bool)
  | number (x : Float)
  | evaluation (e : Evaluation)

structure Machine where
  cursor : Cursor
  vars : Variables

namespace Machine

/-- A machine at an index of a list, which may lie past its end. -/
def start (vars : Variables) (tokens : List Token) (position : Nat) : Machine :=
  ⟨.atIndex tokens position, vars⟩

/-- What a step comes to. -/
def outcome (m : Machine) : Step → Outcome Answer
  | .peek => .value (.token m.cursor.peek) m.cursor
  | .peekNext => .value (.token m.cursor.peekNext) m.cursor
  | .advance => .value (.token m.cursor.peek) m.cursor.advance
  | .eat kind =>
    match m.cursor.eat? kind with
    | some eaten => .value (.taken true) eaten
    | none => .value (.taken false) m.cursor
  | .enterGroup =>
    match m.cursor.enterGroup with
    | .ok opened => .value .done opened
    | .error fault => .formFault fault m.cursor
  | .leaveGroup => .value .done m.cursor.leaveGroup
  | .rule rule => (rule.reading m.vars m.cursor).andThen fun x c => .value (.number x) c
  | .statement => (LineCalculator.statement m.vars m.cursor).andThen fun e c =>
      .value (.evaluation e) c

/-- The variables after a step. -/
def store (m : Machine) : Step → Variables
  | .statement => (LineCalculator.statement m.vars m.cursor).store m.vars
  | _ => m.vars

/-- The machine after a step, which may have failed. -/
def step (m : Machine) (s : Step) : Machine := ⟨(m.outcome s).cursor, m.store s⟩

/-- The machine after steps. -/
def run (m : Machine) (steps : List Step) : Machine := steps.foldl step m

/-- Every step moves the cursor. -/
theorem movesFrom_outcome (m : Machine) (s : Step) : (m.outcome s).MovesFrom m.cursor := by
  cases s with
  | peek => exact .value _ .stay
  | peekNext => exact .value _ .stay
  | advance => exact .value _ (.advance .stay)
  | eat kind =>
    simp only [outcome]
    split
    · rename_i eaten heaten
      obtain ⟨-, rfl⟩ := Cursor.eat?_eq_some_iff.mp heaten
      exact .value _ (.advance .stay)
    · exact .value _ .stay
  | enterGroup =>
    simp only [outcome]
    split
    · rename_i opened hopened
      obtain ⟨hdepth, rfl⟩ := Cursor.enterGroup_eq_ok_iff.mp hopened
      exact .value _ (.deeper .stay hdepth)
    · exact .formFault _ .stay
  | leaveGroup => exact .value _ (.leaveGroup .stay)
  | rule rule =>
    exact (Expression.moving_reading m.vars rule m.cursor).andThen fun x c => .value _ .stay
  | statement => exact (movesFrom_statement m.vars m.cursor).andThen fun e c => .value _ .stay

/-- A run moves the cursor. -/
theorem moves_run (m : Machine) (steps : List Step) : m.cursor.Moves (m.run steps).cursor := by
  induction steps generalizing m with
  | nil => exact .stay
  | cons s steps ih => exact (m.movesFrom_outcome s).stop.trans (ih (m.step s))

/-- A rule or a statement that succeeds takes a token and closes what it opened, and one that fails
closes nothing else. -/
theorem progresses_of_isGrammar (m : Machine) {s : Step} (hs : s.isGrammar = true) :
    (m.outcome s).Progresses m.cursor := by
  cases s with
  | rule rule =>
    exact (progresses_of_progressive (progressive_reading m.vars rule) m.cursor).of_stay
      (Outcome.andThen_stay fun _ _ => ⟨rfl, rfl⟩)
  | statement =>
    exact (progresses_statement m.vars m.cursor).of_stay
      (Outcome.andThen_stay fun _ _ => ⟨rfl, rfl⟩)
  | _ => cases hs

/-- On every run from an index of a list, and at the next step `s`: the position does not go down,
all that was passed stands in the list and ends no line, and wherever moves can bring the cursor
from here the index behind a token is at most the list's length. At most 128 groups are open. A rule
that succeeds takes a token and leaves as many groups open as it found, one that fails no fewer, and
what it enters on the way it enters between the two positions and within the limit. -/
theorem run_keeps_place (vars : Variables) (tokens : List Token) (start : Nat)
    (steps : List Step) (s : Step) :
    let m := (Machine.start vars tokens start).run steps
    let o := m.outcome s
    (start ≤ m.cursor.position ∧ m.cursor.position ≤ (m.step s).cursor.position) ∧
      (∀ i, start ≤ i → i < m.cursor.position →
        ∃ t, tokens[i]? = some t ∧ t.kind ≠ .endOfLine) ∧
      (∀ d, m.cursor.Moves d → d.ahead = tokens.drop d.position ∧
        (d.atEnd = false → d.position + 1 ≤ tokens.length)) ∧
      m.cursor.depth ≤ maxDepth ∧
      (s.isGrammar = true →
        (∀ answer, o.result = .ok answer → m.cursor.position < (m.step s).cursor.position ∧
          (m.step s).cursor.depth = m.cursor.depth) ∧
        (∀ fault, o.result = .error fault → m.cursor.depth ≤ (m.step s).cursor.depth) ∧
        ∀ rule position depth, .entering rule position depth ∈ o.events →
          m.cursor.position ≤ position ∧ position ≤ (m.step s).cursor.position ∧
            depth ≤ maxDepth) := by
  intro m o
  have hrun : (Cursor.atIndex tokens start).Moves m.cursor :=
    moves_run (.start vars tokens start) steps
  have hdepth : m.cursor.depth ≤ maxDepth := hrun.depth_le (Nat.zero_le _)
  have hstep := m.movesFrom_outcome s
  refine ⟨⟨hrun.reaches.position_le, hstep.stop.reaches.position_le⟩,
    fun i => hrun.reaches.exists_passed, ?_, hdepth, fun hs => ?_⟩
  · intro d hd
    have hreaches := (hrun.trans hd).reaches
    exact ⟨hreaches.ahead_eq_drop, hreaches.succ_position_le⟩
  · have hprogress := m.progresses_of_isGrammar hs
    refine ⟨hprogress.value, fun _ _ => hprogress.depth_le, fun rule position depth hevent => ?_⟩
    obtain ⟨d, hbefore, hbehind, rfl, rfl⟩ := hstep.entered rule position depth hevent
    exact ⟨hbefore.reaches.position_le, hbehind.reaches.position_le, hbefore.depth_le hdepth⟩

/-- A group is read and closed; the next one lacks its parenthesis and the list its end of the line.
The machine stops behind the last token with that group open. -/
theorem run_keeps_place_of_open_group :
    let vars : Variables := (∅ : Variables).insert "x" 1
    let tokens : List Token := [⟨.equals, "="⟩, ⟨.openParen, "("⟩, ⟨.name, "x"⟩,
      ⟨.closeParen, ")"⟩, ⟨.openParen, "("⟩, ⟨.name, "x"⟩]
    let first := Machine.start vars tokens 1
    let m := first.run [.rule .factor]
    let last := m.step (.rule .term)
    (first.cursor.position < m.cursor.position ∧ m.cursor.depth = first.cursor.depth) ∧
      (∃ t, tokens[3]? = some t ∧ t.kind ≠ .endOfLine) ∧ m.cursor.position + 1 ≤ tokens.length ∧
      m.cursor.depth ≤ last.cursor.depth ∧ 5 ≤ last.cursor.position := by
  intro vars tokens first m last
  have hvalue : (first.outcome (.rule .factor)).result = .ok (.number 1) := by
    simp only [first, tokens, vars]
    rfl
  have hplace : m.cursor.position = 4 ∧ m.cursor.atEnd = false := by
    simp only [m, first, tokens, vars]
    exact ⟨rfl, rfl⟩
  have hfault : (m.outcome (.rule .term)).result = .error (.form (.unclosedParenthesis 6)) ∧
      .entering .expression 5 1 ∈ (m.outcome (.rule .term)).events := by
    simp only [m, first, tokens, vars]
    exact ⟨rfl, .tail _ (.tail _ (.head _))⟩
  obtain ⟨-, -, -, -, hread⟩ := run_keeps_place vars tokens 1 [] (.rule .factor)
  obtain ⟨-, hpassed, hmoves, -, hunread⟩ :=
    run_keeps_place vars tokens 1 [.rule .factor] (.rule .term)
  refine ⟨(hread rfl).1 _ hvalue, hpassed 3 (by decide) ?_, ?_, ?_, ?_⟩
  · exact hplace.1 ▸ by decide
  · exact (hmoves m.cursor .stay).2 hplace.2
  · exact (hunread rfl).2.1 _ hfault.1
  · exact ((hunread rfl).2.2 _ _ _ hfault.2).2.1

end Machine

end LineCalculator
