import Mathlib.Data.List.Perm.Subperm
import LineCalculator.Proofs.FaultPlace
import LineCalculator.Proofs.Heading

/-!
# The order in which rules are entered

The rules are entered in descents: an expression, the term it starts with and the factor that starts
with, all at one index, or the latter two, or a factor alone. Every descent starts at a token behind
the descents before it, since a factor takes its token before anything is entered again. So nothing
is read twice, and the work is linear in the tokens that are passed.
-/
namespace LineCalculator

open Expression

/-- The rule that an event enters, and the index where. -/
def Event.entry? : Event → Option (Rule × Nat)
  | entering rule position _ => some (rule, position)
  | _ => none

/-- The rules that were entered on the way to an outcome, with the indices where, in order. -/
def Outcome.entries {α : Type} (o : Outcome α) : List (Rule × Nat) :=
  o.events.filterMap Event.entry?

/-- The rules that are entered one right after the other, down to a factor. -/
def Rule.descent : Rule → List Rule
  | expression => [expression, term, factor]
  | term => [term, factor]
  | factor => [factor]

/-- The entries of descents that start with the given rules at the given indices. -/
def descents (starts : List (Rule × Nat)) : List (Rule × Nat) :=
  starts.flatMap fun start => start.1.descent.map fun rule => (rule, start.2)

theorem descents_cons (start : Rule × Nat) (starts : List (Rule × Nat)) :
    descents (start :: starts) =
      (start.1.descent.map fun rule => (rule, start.2)) ++ descents starts := rfl

theorem descents_append (starts more : List (Rule × Nat)) :
    descents (starts ++ more) = descents starts ++ descents more := List.flatMap_append

theorem descents_factor (position : Nat) (starts : List (Rule × Nat)) :
    (.factor, position) :: descents starts = descents ((.factor, position) :: starts) := rfl

/-- A tier enters its own rule right before that of its first operand. -/
theorem descents_leftPlace (tier : Tier) (position : Nat) (starts : List (Rule × Nat)) :
    (tier.leftPlace, position) :: descents ((tier.rightPlace, position) :: starts) =
      descents ((tier.leftPlace, position) :: starts) := by
  cases tier <;> rfl

/-- Each descent has one factor, at its start. -/
theorem factors_descents (starts : List (Rule × Nat)) :
    ((descents starts).filter fun entry => entry.1 = .factor).map Prod.snd =
      starts.map Prod.snd := by
  induction starts with
  | nil => rfl
  | cons start starts ih =>
    rw [descents_cons, List.filter_append, List.map_append, ih, List.map_cons]
    rcases start with ⟨rule, position⟩
    cases rule <;> rfl

theorem Rule.length_descent_le (rule : Rule) : rule.descent.length ≤ 3 := by
  cases rule <;> decide

theorem length_descents_le (starts : List (Rule × Nat)) :
    (descents starts).length ≤ 3 * starts.length := by
  induction starts with
  | nil => exact Nat.le_refl _
  | cons start starts ih =>
    have hone := start.1.length_descent_le
    rw [descents_cons, List.length_append, List.length_map, List.length_cons]
    omega

theorem mem_descents {entry : Rule × Nat} {starts : List (Rule × Nat)}
    (h : entry ∈ descents starts) : ∃ start ∈ starts, entry.2 = start.2 := by
  obtain ⟨start, hstart, hentry⟩ := List.mem_flatMap.mp h
  obtain ⟨rule, -, rfl⟩ := List.mem_map.mp hentry
  exact ⟨start, hstart, rfl⟩

theorem Rule.descent_next {rule : Rule} {tier : Tier} {i : Nat}
    (h : rule.descent[i]? = some tier.leftPlace) :
    rule.descent[i + 1]? = some tier.rightPlace := by
  cases rule <;> cases tier <;> match i with
    | 0 | 1 | 2 | _ + 3 => simp_all [descent, Tier.leftPlace, Tier.rightPlace]

/-- Behind the rule of a tier stands the rule of its operands, at the same index. -/
theorem descents_next (tier : Tier) {starts : List (Rule × Nat)} {i position : Nat}
    (h : (descents starts)[i]? = some (tier.leftPlace, position)) :
    (descents starts)[i + 1]? = some (tier.rightPlace, position) := by
  induction starts generalizing i with
  | nil => cases h
  | cons start starts ih =>
    rcases start with ⟨rule, first⟩
    rw [descents_cons] at h ⊢
    by_cases hi : i < rule.descent.length
    · rw [List.getElem?_append_left (by simpa using hi), List.getElem?_map] at h
      obtain ⟨entered, hentered, hplace⟩ := Option.map_eq_some_iff.mp h
      obtain ⟨rfl, rfl⟩ := Prod.mk.inj hplace
      have hnext := Rule.descent_next hentered
      have hlength := (List.getElem?_eq_some_iff.mp hnext).1
      rw [List.getElem?_append_left (by simpa using hlength), List.getElem?_map, hnext]
      rfl
    · have hbehind := Nat.not_lt.mp hi
      rw [List.getElem?_append_right (by simpa using hbehind), List.length_map] at h
      rw [List.getElem?_append_right (by simp only [List.length_map]; omega), List.length_map]
      have hnext := ih h
      rwa [show i - rule.descent.length + 1 = i + 1 - rule.descent.length by omega] at hnext

/-- The rules that a part of the grammar enters first, where it starts. -/
def Part.first : Part → List Rule
  | rule r => [r]
  | alternative => []
  | body => [.expression]
  | chain tier => [tier.rightPlace]

/-- An outcome whose rules were entered in descents, the first at a cursor and the others at
increasing indices behind it, none of them behind the place where the outcome stops. -/
def Outcome.DescendsFrom (o : Outcome Float) (first : List Rule) (c : Cursor) : Prop :=
  ∃ behind : List (Rule × Nat),
    o.entries = descents (first.map (fun rule => (rule, c.position)) ++ behind) ∧
    (c.position :: behind.map Prod.snd).Pairwise (· < ·) ∧
    ∀ start ∈ behind, start.2 ≤ o.cursor.position

namespace Outcome.DescendsFrom

variable {o p : Outcome Float} {c d : Cursor} {first : List Rule}

theorem of_entries_nil (h : o.entries = []) : o.DescendsFrom [] c :=
  ⟨[], h, List.pairwise_singleton _ _, nofun⟩

theorem of_entries_eq (h : o.DescendsFrom first c) (hentries : p.entries = o.entries)
    (hstop : o.cursor.position ≤ p.cursor.position) : p.DescendsFrom first c := by
  obtain ⟨behind, heq, hincreasing, hlast⟩ := h
  exact ⟨behind, hentries.trans heq, hincreasing, fun start hstart =>
    Nat.le_trans (hlast start hstart) hstop⟩

/-- What starts further along descends behind. -/
theorem inside {rule : Rule} (h : o.DescendsFrom [rule] d) (hlt : c.position < d.position)
    (hstop : d.position ≤ o.cursor.position) : o.DescendsFrom [] c := by
  obtain ⟨behind, heq, hincreasing, hlast⟩ := h
  refine ⟨(rule, d.position) :: behind, heq, ?_, ?_⟩
  · refine List.pairwise_cons.mpr ⟨?_, hincreasing⟩
    refine List.forall_mem_cons.mpr ⟨hlt, fun i hi => ?_⟩
    exact Nat.lt_trans hlt ((List.pairwise_cons.mp hincreasing).1 i hi)
  · exact List.forall_mem_cons.mpr ⟨hstop, hlast⟩

/-- Descents of one outcome before those of another that starts behind it. -/
theorem append {rule : Rule} (ho : o.DescendsFrom first c) (hp : p.DescendsFrom [rule] d)
    (hc : c.position ≤ o.cursor.position) (hd : o.cursor.position < d.position)
    (hstop : d.position ≤ p.cursor.position) {q : Outcome Float}
    (hentries : q.entries = o.entries ++ p.entries) (hcursor : q.cursor = p.cursor) :
    q.DescendsFrom first c := by
  obtain ⟨before, hbefore, hincreasing, hlast⟩ := ho
  obtain ⟨behind, heq, hbehind, hend⟩ := hp.inside hd hstop
  refine ⟨before ++ behind, ?_, ?_, ?_⟩
  · rw [hentries, hbefore, heq, ← descents_append, List.append_assoc]
    rfl
  · obtain ⟨hright, hincreasingBehind⟩ := List.pairwise_cons.mp hbehind
    rw [List.map_append, ← List.cons_append]
    refine List.pairwise_append.mpr ⟨hincreasing, hincreasingBehind, fun i hi j hj => ?_⟩
    refine Nat.lt_of_le_of_lt ?_ (hright j hj)
    rcases List.mem_cons.mp hi with rfl | hi
    · exact hc
    · obtain ⟨start, hstart, rfl⟩ := List.mem_map.mp hi
      exact hlast start hstart
  · intro start hstart
    rw [hcursor]
    rcases List.mem_append.mp hstart with hmem | hmem
    · exact Nat.le_trans (hlast start hmem) (Nat.le_of_lt (Nat.lt_of_lt_of_le hd hstop))
    · exact hend start hmem

end Outcome.DescendsFrom

theorem Cursor.position_lt_advance {c : Cursor} (h : c.atEnd = false) :
    c.position < c.advance.position := by
  rw [advance_of_not_atEnd h]
  exact Nat.lt_succ_self _

namespace Runs

variable {vars : Variables} {part : Part} {c : Cursor} {o : Outcome Float}

/-- What a group or a call holds is entered behind its first token. -/
theorem descends_inside {d : Cursor} {p : Outcome Float} (hend : c.atEnd = false)
    (hbehind : c.deeper.advance.Reaches d) (h : Runs vars .body d o)
    (hdescends : o.DescendsFrom [.expression] d) (hentries : p.entries = o.entries)
    (hcursor : p.cursor = o.cursor) : p.DescendsFrom [] c := by
  have hlt : c.position < d.position :=
    Nat.lt_of_lt_of_le (Cursor.position_lt_advance (c := c.deeper) hend) hbehind.position_le
  exact (hdescends.inside hlt h.reaches.position_le).of_entries_eq hentries
    (Nat.le_of_eq (congrArg Cursor.position hcursor.symm))

/-- The rules are entered in descents. -/
theorem descends (h : Runs vars part c o) : o.DescendsFrom part.first c := by
  induction h with
  | number | malformed | variableRead | undefined | unexpected | tooDeep | unknown | unopened =>
    exact .of_entries_nil rfl
  | group hkind _ h ih =>
    exact h.descends_inside (atEnd_false_of_kind hkind (by decide)) (.refl _) ih rfl rfl
  | unargued hkind _ _ _ h _ ih | refused hkind _ _ _ h _ _ ih =>
    exact h.descends_inside (atEnd_false_of_kind hkind (by decide)) (.advance _) ih rfl rfl
  | called hkind _ _ _ h _ _ ih =>
    refine h.descends_inside (atEnd_false_of_kind hkind (by decide)) (.advance _) ih ?_ rfl
    exact List.filterMap_append.trans (List.append_nil _)
  | unfilled _ _ ih => exact ih
  | unclosed _ _ _ ih => exact ih.of_entries_eq rfl (Nat.le_refl _)
  | closed _ _ _ ih =>
    exact ih.of_entries_eq rfl ((Cursor.Reaches.advance _).trans (.leaveGroup _)).position_le
  | operand _ ih => exact ih
  | halted h _ hop hright _ ihleft ihright =>
    have hlt := Cursor.position_lt_advance (atEnd_false_of_operator? hop)
    refine ihleft.append ihright h.reaches.position_le hlt hright.reaches.position_le ?_ rfl
    exact List.filterMap_append
  | operation h _ hop hright _ ihleft ihright =>
    have hlt := Cursor.position_lt_advance (atEnd_false_of_operator? hop)
    refine ihleft.append ihright h.reaches.position_le hlt hright.reaches.position_le ?_ rfl
    simp only [Outcome.entries, List.filterMap_append]
    exact List.append_nil _
  | @factor c o _ ih =>
    obtain ⟨behind, hentries, hincreasing, hlast⟩ := ih
    refine ⟨behind, ?_, hincreasing, hlast⟩
    exact (congrArg (List.cons _) hentries).trans (descents_factor c.position behind)
  | @joined tier c o _ _ ih =>
    obtain ⟨behind, hentries, hincreasing, hlast⟩ := ih
    refine ⟨behind, ?_, hincreasing, hlast⟩
    exact (congrArg (List.cons _) hentries).trans (descents_leftPlace tier c.position behind)

end Runs

/-- Indices that increase strictly are no more than there are between the bounds. -/
theorem length_le_of_increasing {first last : Nat} {indices : List Nat}
    (hincreasing : indices.Pairwise (· < ·)) (hbetween : ∀ i ∈ indices, first ≤ i ∧ i ≤ last) :
    indices.length ≤ last - first + 1 := by
  have hdistinct : indices.Nodup := hincreasing.imp Nat.ne_of_lt
  have hsubset : indices ⊆ List.range' first (last - first + 1) := by
    intro i hi
    obtain ⟨hfirst, hlast⟩ := hbetween i hi
    exact List.mem_range'_1.mpr ⟨hfirst, by omega⟩
  simpa using (hdistinct.subperm hsubset).length_le

/-- Every rule is entered at an index from the given one to where the outcome stops, the factors at
increasing indices, and an expression and a term right before the first operand they have. So the
tokens that are passed bound how often a rule is entered. -/
structure Outcome.Advances {α : Type} (o : Outcome α) (start : Nat) : Prop where
  increasing :
    ((o.entries.filter fun entry => entry.1 = .factor).map Prod.snd).Pairwise (· < ·)
  between : ∀ entry ∈ o.entries, start ≤ entry.2 ∧ entry.2 ≤ o.cursor.position
  expression_next : ∀ i k, o.entries[i]? = some (.expression, k) →
    o.entries[i + 1]? = some (.term, k)
  term_next : ∀ i k, o.entries[i]? = some (.term, k) → o.entries[i + 1]? = some (.factor, k)
  factors_le : o.entries.countP (fun entry => entry.1 = .factor) ≤ o.cursor.position - start + 1
  length_le : o.entries.length ≤ 3 * (o.cursor.position - start + 1)

namespace Outcome

theorem DescendsFrom.advances {o : Outcome Float} {rule : Rule} {c : Cursor}
    (h : o.DescendsFrom [rule] c) (hstop : c.position ≤ o.cursor.position) :
    o.Advances c.position := by
  obtain ⟨behind, hentries, hincreasing, hlast⟩ := h
  have hentries : o.entries = descents ((rule, c.position) :: behind) := hentries
  have hincreasing : (((rule, c.position) :: behind).map Prod.snd).Pairwise (· < ·) := hincreasing
  have hstarts : ∀ start ∈ (rule, c.position) :: behind,
      c.position ≤ start.2 ∧ start.2 ≤ o.cursor.position := by
    refine List.forall_mem_cons.mpr ⟨⟨Nat.le_refl _, hstop⟩, fun start hstart => ?_⟩
    have hbehind := (List.pairwise_cons.mp hincreasing).1 _ (List.mem_map_of_mem hstart)
    exact ⟨Nat.le_of_lt hbehind, hlast start hstart⟩
  have hcount : behind.length + 1 ≤ o.cursor.position - c.position + 1 := by
    have hbetween : ∀ i ∈ ((rule, c.position) :: behind).map Prod.snd,
        c.position ≤ i ∧ i ≤ o.cursor.position := List.forall_mem_map.mpr hstarts
    simpa using length_le_of_increasing hincreasing hbetween
  have hfactors := factors_descents ((rule, c.position) :: behind)
  constructor
  · rw [hentries, hfactors]
    exact hincreasing
  · rw [hentries]
    intro entry hentry
    obtain ⟨start, hstart, hindex⟩ := mem_descents hentry
    exact hindex ▸ hstarts start hstart
  · rw [hentries]
    exact fun i k => descents_next .sum
  · rw [hentries]
    exact fun i k => descents_next .product
  · rw [hentries, List.countP_eq_length_filter, ← List.length_map Prod.snd, hfactors]
    simpa using hcount
  · have hlength := length_descents_le ((rule, c.position) :: behind)
    rw [List.length_cons] at hlength
    rw [hentries]
    omega

/-- A step that enters what another does and starts no later. -/
theorem Advances.of_entries_eq {α β : Type} {o : Outcome α} {p : Outcome β} {start first : Nat}
    (h : o.Advances start) (hentries : p.entries = o.entries) (hcursor : p.cursor = o.cursor)
    (hfirst : first ≤ start) : p.Advances first := by
  have hroom : o.cursor.position - start ≤ o.cursor.position - first := by omega
  constructor
  · exact hentries ▸ h.increasing
  · rw [hentries, hcursor]
    intro entry hentry
    obtain ⟨hstart, hstop⟩ := h.between entry hentry
    exact ⟨Nat.le_trans hfirst hstart, hstop⟩
  · exact hentries ▸ h.expression_next
  · exact hentries ▸ h.term_next
  · have hfactors := h.factors_le
    rw [hentries, hcursor]
    omega
  · have hlength := h.length_le
    rw [hentries, hcursor]
    omega

end Outcome

theorem advances_reading (vars : Variables) (rule : Rule) (c : Cursor) :
    (rule.reading vars c).Advances c.position := by
  have hrun := runs_reading vars rule c
  exact hrun.descends.advances hrun.reaches.position_le

namespace Statement

/-- A statement enters what its expression enters. -/
theorem entries_eq (vars : Variables) (c : Cursor) :
    (statement vars c).entries = (expression vars (heading c).2).entries := by
  cases hresult : (statement vars c).result with
  | error fault => exact congrArg _ (events_of_error hresult)
  | ok e =>
    have hannouncement : e.announcement.filterMap Event.entry? = [] := by
      rcases e with ⟨form, x⟩
      cases form <;> rfl
    have hleftOver : (statement vars c).cursor.leftOver.filterMap Event.entry? = [] := by
      unfold Cursor.leftOver
      split <;> rfl
    unfold Outcome.entries
    rw [events_of_ok hresult, List.filterMap_cons_none rfl, List.filterMap_append,
      List.filterMap_append, hannouncement, hleftOver, List.append_nil, List.append_nil]

end Statement

theorem advances_statement (vars : Variables) (c : Cursor) :
    (statement vars c).Advances c.position :=
  (advances_reading vars .expression (Statement.heading c).2).of_entries_eq
    (Statement.entries_eq vars c) Statement.cursor_eq_heading
    (Statement.moves_heading c).reaches.position_le

end LineCalculator
