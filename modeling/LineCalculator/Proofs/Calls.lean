import Mathlib.Logic.Relation
import LineCalculator.Proofs.OpenGroups

/-!
# Calls of the rules

An expression and a term call the rules of their operands, one after another; a factor calls the
expression that its parentheses hold. A rule is entered exactly where such calls lead, one inside
the other, and these are the calls that are going on at that moment. None of them recovers from a
fault: the fault of a call is the fault of every call around it.
-/
namespace LineCalculator

open Expression

/-- An outcome that another is a part of: its events are among those of the whole, and its fault
ends the whole. -/
structure Outcome.Contains (o p : Outcome Float) : Prop where
  events : p.events ⊆ o.events
  fault : ∀ fault, p.result = .error fault → o.result = .error fault

namespace Outcome.Contains

variable {o p q : Outcome Float}

theorem refl (o : Outcome Float) : o.Contains o := ⟨List.Subset.refl _, fun _ h => h⟩

theorem trans (hop : o.Contains p) (hpq : p.Contains q) : o.Contains q :=
  ⟨List.Subset.trans hpq.events hop.events, fun fault h => hop.fault fault (hpq.fault fault h)⟩

theorem after (o : Outcome Float) (event : Event) : (o.after event).Contains o :=
  ⟨List.subset_cons_self _ _, fun _ h => h⟩

theorem andThen (o : Outcome Float) (next : Float → Cursor → Outcome Float) :
    (o.andThen next).Contains o := by
  cases hresult : o.result with
  | error fault =>
    rw [andThen_error hresult]
    exact ⟨List.Subset.refl _, fun _ h => hresult.symm.trans h⟩
  | ok x =>
    rw [andThen_ok hresult]
    refine ⟨List.subset_append_left _ _, fun fault h => ?_⟩
    rw [hresult] at h
    cases h

theorem of_andThen {x : Float} (hx : o.result = .ok x) (next : Float → Cursor → Outcome Float) :
    (o.andThen next).Contains (next x o.cursor) := by
  rw [andThen_ok hx]
  exact ⟨List.subset_append_right _ _, fun _ h => h⟩

end Outcome.Contains

/-- One rule calls another, each with the cursor that it starts at. -/
inductive Calls (vars : Variables) : Rule × Cursor → Rule × Cursor → Prop where
  | first (tier : Tier) (c : Cursor) : Calls vars (tier.leftPlace, c) (tier.rightPlace, c)
  /-- The operand behind an operator, when all before it has been read. -/
  | next {tier : Tier} {op : Operator} {c : Cursor} {o : Outcome Float} {left : Float}
      (h : Runs vars (.chain tier) c o) (hleft : o.result = .ok left)
      (hop : tier.operator? o.cursor.peek = some op) :
      Calls vars (tier.leftPlace, c) (tier.rightPlace, o.cursor.advance)
  | group {c : Cursor} (hkind : c.peek.kind = .openParen) (hdepth : c.depth < maxDepth) :
      Calls vars (.factor, c) (.expression, c.deeper.advance)
  | argument {c : Cursor} {f : Builtin} (hkind : c.peek.kind = .function)
      (hdepth : c.depth < maxDepth) (hname : Builtin.ofName? c.peek.text = some f)
      (hopen : c.deeper.advance.peek.kind = .openParen) :
      Calls vars (.factor, c) (.expression, c.deeper.advance.advance)

/-- One rule calls another, or calls a rule that does. -/
abbrev Leads (vars : Variables) : Rule × Cursor → Rule × Cursor → Prop :=
  Relation.ReflTransGen (Calls vars)

namespace Calls

variable {vars : Variables} {a b : Rule × Cursor}

/-- The reading of a rule contains the readings of the rules that it calls. -/
theorem contains (h : Calls vars a b) :
    (a.1.reading vars a.2).Contains (b.1.reading vars b.2) := by
  cases h with
  | first tier c =>
    simp only [reading_leftPlace]
    exact (Outcome.Contains.after _ _).trans (.andThen _ _)
  | @next tier op c o left h hleft hop =>
    have hchain : o.andThen _ = chain tier (tier.rightPlace.reading vars) c := h.comesTo
    have hrest := Outcome.Contains.of_andThen hleft fun left next =>
      chainFrom tier (tier.rightPlace.reading vars) next.ahead left next
    rw [hchain, chainFrom_ahead (progressive_reading vars tier.rightPlace), hop] at hrest
    simp only [reading_leftPlace]
    exact ((Outcome.Contains.after _ _).trans hrest).trans (.andThen _ _)
  | @group c hkind hdepth =>
    have hfactor : factor vars c =
        ((expression vars c.deeper.advance).andThen closeGroup).after
          (.entering .factor c.position c.depth) := by
      simp only [factor_eq, factorWith, hkind, Expression.group, Cursor.enterGroup, if_pos hdepth]
    simp only [Rule.reading, hfactor]
    exact (Outcome.Contains.after _ _).trans (.andThen _ _)
  | argument hkind hdepth hname hopen =>
    simp only [Rule.reading, factor_of_argument hkind hdepth hname hopen]
    exact (Outcome.Contains.after _ _).trans ((Outcome.Contains.andThen _ _).trans (.andThen _ _))

/-- A call opens the groups that its parentheses show. -/
theorem tallies (h : Calls vars a b) : a.2.Tallies b.2 := by
  cases h with
  | first => exact .refl _
  | next h hleft hop =>
    exact (h.tallies_of_chain hleft).trans (.advance_of_kind (Token.kind_of_tier hop) (by decide))
  | group hkind _ => exact .deeper_advance hkind
  | argument hkind _ _ hopen => exact .deeper_advance_advance hkind hopen

/-- A factor calls one group deeper, below the limit, and the other rules where they are. -/
theorem depth (h : Calls vars a b) :
    (a.1 = .factor → a.2.depth < maxDepth ∧ b.2.depth = a.2.depth + 1) ∧
      (a.1 ≠ .factor → b.2.depth = a.2.depth) := by
  have hplace (tier : Tier) : tier.leftPlace ≠ .factor := by cases tier <;> nofun
  cases h with
  | first tier c => exact ⟨fun hfactor => absurd hfactor (hplace tier), fun _ => rfl⟩
  | @next tier op c o left h hleft hop =>
    obtain ⟨passed, hpass, -⟩ := h.derived hleft
    refine ⟨fun hfactor => absurd hfactor (hplace tier), fun _ => ?_⟩
    exact (Cursor.depth_advance _).trans hpass.depth
  | group _ hdepth => exact ⟨fun _ => ⟨hdepth, by simp⟩, fun hnot => absurd rfl hnot⟩
  | argument _ hdepth _ _ => exact ⟨fun _ => ⟨hdepth, by simp⟩, fun hnot => absurd rfl hnot⟩

theorem depth_le (h : Calls vars a b) (ha : a.2.depth ≤ maxDepth) : b.2.depth ≤ maxDepth := by
  by_cases hfactor : a.1 = .factor
  · obtain ⟨hdepth, hb⟩ := h.depth.1 hfactor
    exact hb ▸ hdepth
  · exact h.depth.2 hfactor ▸ ha

end Calls

namespace Leads

variable {vars : Variables} {a b : Rule × Cursor}

theorem contains (h : Leads vars a b) :
    (a.1.reading vars a.2).Contains (b.1.reading vars b.2) := by
  induction h with
  | refl => exact .refl _
  | tail _ hcall ih => exact ih.trans hcall.contains

theorem tallies (h : Leads vars a b) : a.2.Tallies b.2 := by
  induction h with
  | refl => exact .refl _
  | tail _ hcall ih => exact ih.trans hcall.tallies

theorem depth_le (h : Leads vars a b) (ha : a.2.depth ≤ maxDepth) : b.2.depth ≤ maxDepth := by
  induction h with
  | refl => exact ha
  | tail _ hcall ih => exact hcall.depth_le ih

end Leads

/-- The rule whose calls a part of the grammar makes. -/
def Part.caller : Part → Rule
  | rule r => r
  | alternative => .factor
  | body => .expression
  | chain tier => tier.leftPlace

namespace Runs

variable {vars : Variables} {part : Part} {c : Cursor} {o : Outcome Float}

/-- What a run enters, the calls of its part lead to. -/
theorem leads_of_entering (h : Runs vars part c o) {r : Rule} {position depth : Nat}
    (hentered : .entering r position depth ∈ o.events) :
    ∃ d, Leads vars (part.caller, c) (r, d) ∧ d.position = position ∧ d.depth = depth := by
  induction h with
  | number | variableRead =>
    obtain hevent | hnone := List.mem_cons.mp hentered
    · cases hevent
    · cases hnone
  | malformed | undefined | unexpected | tooDeep | unknown | unopened => cases hentered
  | group hkind hdepth _ ih =>
    obtain ⟨d, hleads, hplace⟩ := ih hentered
    exact ⟨d, hleads.head (.group hkind hdepth), hplace⟩
  | unargued hkind hdepth hname hopen _ _ ih | refused hkind hdepth hname hopen _ _ _ ih =>
    obtain ⟨d, hleads, hplace⟩ := ih hentered
    exact ⟨d, hleads.head (.argument hkind hdepth hname hopen), hplace⟩
  | called hkind hdepth hname hopen _ _ _ ih =>
    obtain hinside | hlast := List.mem_append.mp hentered
    · obtain ⟨d, hleads, hplace⟩ := ih hinside
      exact ⟨d, hleads.head (.argument hkind hdepth hname hopen), hplace⟩
    · cases List.mem_singleton.mp hlast
  | unfilled _ _ ih | unclosed _ _ _ ih | closed _ _ _ ih => exact ih hentered
  | @operand tier c o _ ih =>
    obtain ⟨d, hleads, hplace⟩ := ih hentered
    exact ⟨d, hleads.head (.first tier c), hplace⟩
  | halted h hleft hop _ _ ihleft ihright =>
    obtain hbefore | hbehind := List.mem_append.mp hentered
    · exact ihleft hbefore
    · obtain ⟨d, hleads, hplace⟩ := ihright hbehind
      exact ⟨d, hleads.head (.next h hleft hop), hplace⟩
  | operation h hleft hop _ _ ihleft ihright =>
    obtain hread | hlast := List.mem_append.mp hentered
    · obtain hbefore | hbehind := List.mem_append.mp hread
      · exact ihleft hbefore
      · obtain ⟨d, hleads, hplace⟩ := ihright hbehind
        exact ⟨d, hleads.head (.next h hleft hop), hplace⟩
    · cases List.mem_singleton.mp hlast
  | @factor c o _ ih =>
    obtain hevent | hinside := List.mem_cons.mp hentered
    · cases hevent
      exact ⟨c, .refl, rfl, rfl⟩
    · exact ih hinside
  | @joined tier c o _ _ ih =>
    obtain hevent | hinside := List.mem_cons.mp hentered
    · cases hevent
      exact ⟨c, .refl, rfl, rfl⟩
    · exact ih hinside

end Runs

theorem entering_mem_reading (vars : Variables) (rule : Rule) (c : Cursor) :
    .entering rule c.position c.depth ∈ (rule.reading vars c).events := by
  cases rule with
  | expression | term | factor => exact List.mem_cons_self

/-- The rules that a reading enters are those that its calls lead to. -/
theorem entering_mem_iff {vars : Variables} {rule r : Rule} {c : Cursor} {position depth : Nat} :
    .entering r position depth ∈ (rule.reading vars c).events ↔
      ∃ d, Leads vars (rule, c) (r, d) ∧ d.position = position ∧ d.depth = depth := by
  constructor
  · exact (runs_reading vars rule c).leads_of_entering
  · rintro ⟨d, hleads, rfl, rfl⟩
    exact hleads.contains.events (entering_mem_reading vars r d)

end LineCalculator
