import Mathlib.Data.List.GetD
import Mathlib.Logic.Equiv.Basic
import Mathlib.Logic.Function.Basic
import LineCalculator.Proofs.GrammarAdequacy
import LineCalculator.Proofs.Lockstep

/-!
# Renaming variables

A name is only ever compared with the names of the variables. So if all names are exchanged, among
the tokens and among the variables alike, and different names stay different, a statement does what
it did before, under the new names: none of them is reserved and none is looked into.
-/
namespace LineCalculator

/-- The variables under other names. -/
def Variables.rename (f : String → String) (vars : Variables) : Variables :=
  .ofList (vars.toList.map (Prod.map f id))

namespace Variables

variable {f : String → String} {vars : Variables} {name : String} {x : Float}

theorem mem_toList_rename :
    (name, x) ∈ vars.toList.map (Prod.map f id) ↔ ∃ old, f old = name ∧ vars[old]? = some x := by
  constructor
  · intro h
    obtain ⟨⟨old, y⟩, hold, heq⟩ := List.mem_map.mp h
    obtain ⟨hname, rfl⟩ := Prod.mk.inj heq
    exact ⟨old, hname, Std.ExtTreeMap.mem_toList_iff_getElem?_eq_some.mp hold⟩
  · rintro ⟨old, rfl, hold⟩
    exact List.mem_map.mpr ⟨(old, x), Std.ExtTreeMap.mem_toList_iff_getElem?_eq_some.mpr hold, rfl⟩

/-- The renamed variables have what the variables had under the names before. -/
theorem getElem?_rename_eq_some_iff (hf : Function.Injective f) :
    (vars.rename f)[name]? = some x ↔ ∃ old, f old = name ∧ vars[old]? = some x := by
  have hdistinct : (vars.toList.map (Prod.map f id)).Pairwise
      fun a b => ¬ compare a.1 b.1 = .eq := by
    refine List.pairwise_map.mpr (Std.ExtTreeMap.distinct_keys_toList.imp fun hne heq => hne ?_)
    rw [Std.LawfulEqCmp.compare_eq_iff_eq] at heq ⊢
    exact hf heq
  have hvalue {n : String} {y : Float} (h : (n, y) ∈ vars.toList.map (Prod.map f id)) :
      (vars.rename f)[n]? = some y :=
    Std.ExtTreeMap.getElem?_ofList_of_mem Std.ReflCmp.compare_self hdistinct h
  rw [← mem_toList_rename]
  refine ⟨fun h => ?_, hvalue⟩
  by_cases hkey : ((vars.toList.map (Prod.map f id)).map Prod.fst).contains name = true
  · obtain ⟨⟨n, y⟩, hpair, hn⟩ := List.mem_map.mp (List.contains_iff_mem.mp hkey)
    obtain rfl : n = name := hn
    obtain rfl : x = y := Option.some.inj (h.symm.trans (hvalue hpair))
    exact hpair
  · have hnone : (vars.rename f)[name]? = none :=
      Std.ExtTreeMap.getElem?_ofList_of_contains_eq_false ((Bool.not_eq_true _).mp hkey)
    rw [hnone] at h
    cases h

theorem getElem?_rename (hf : Function.Injective f) (old : String) :
    (vars.rename f)[f old]? = vars[old]? := by
  refine Option.ext fun x => ?_
  rw [getElem?_rename_eq_some_iff hf]
  exact ⟨fun ⟨other, hother, hx⟩ => hf hother ▸ hx, fun hx => ⟨old, rfl, hx⟩⟩

theorem getElem?_rename_of_ne (hf : Function.Injective f) (h : ∀ old, f old ≠ name) :
    (vars.rename f)[name]? = none := by
  refine Option.eq_none_iff_forall_ne_some.mpr fun x hx => ?_
  obtain ⟨old, hold, -⟩ := (getElem?_rename_eq_some_iff hf).mp hx
  exact h old hold

/-- What is stored under a name stands under its new one. -/
theorem rename_insert (hf : Function.Injective f) :
    rename f (vars.insert name x) = (vars.rename f).insert (f name) x := by
  refine ext_lookup fun other => ?_
  rw [Std.ExtTreeMap.getElem?_insert]
  by_cases hother : ∃ old, f old = other
  · obtain ⟨old, rfl⟩ := hother
    simp only [getElem?_rename hf, Std.ExtTreeMap.getElem?_insert,
      Std.LawfulEqCmp.compare_eq_iff_eq, hf.eq_iff]
  · have hnew (old : String) : f old ≠ other := fun h => hother ⟨old, h⟩
    have hdiffer : ¬ compare (f name) other = .eq := by
      simpa only [Std.LawfulEqCmp.compare_eq_iff_eq] using hnew name
    rw [getElem?_rename_of_ne hf hnew, if_neg hdiffer, getElem?_rename_of_ne hf hnew]

end Variables

/-- What a statement stores it stores under the new name. -/
theorem Evaluation.store_rename {f : String → String} (hf : Function.Injective f) (e : Evaluation)
    (vars : Variables) : (e.rename f).store (vars.rename f) = (e.store vars).rename f := by
  obtain ⟨form, x⟩ := e
  cases form with
  | assignment name => exact (Variables.rename_insert hf).symm
  | print | expression => rfl

/-- The comparison of a statement with itself under other names. -/
def Comparison.renamed (f : String → String) (vars : Variables) (c : Cursor) : Comparison where
  vars := vars
  others := vars.rename f
  start := c.position
  otherStart := c.position
  rename := f
  last := max (statement vars c).cursor.position (c.position + 1)

namespace Comparison

variable {f : String → String} {vars : Variables} {c : Cursor}

theorem counterpart_renamed {position : Nat} (h : c.position ≤ position) :
    (renamed f vars c).counterpart position = position := by
  simp only [counterpart, renamed]
  omega

theorem aligned_renamed (hf : Function.Injective f) (vars : Variables) (tokens : List Token)
    (start depth : Nat) :
    (renamed f vars (.place tokens start depth)).Aligned (.place tokens start depth)
      (.place (tokens.map (Token.rename f)) start depth) where
  start_le := Nat.le_refl _
  position := (@counterpart_renamed f vars _ start (Nat.le_refl start)).symm
  depth := rfl
  token i _ := by
    have hend : Token.endOfLine = Token.endOfLine.rename f :=
      (Token.rename_of_kind_ne (by decide)).symm
    simp only [Cursor.tokenAt, Cursor.place, renamed, ← List.map_drop]
    exact (congrArg (List.getD _ i) hend).trans (List.getD_map _ _ (Token.rename f))
  value i _ _ := Variables.getElem?_rename hf _

end Comparison

/-- A statement under other names, different ones for different names, does what it does under the
old ones: it has the same value, or the same fault with the new name of an undefined variable, it
stops at the same index with as many groups open, and it stores the same under the new name. -/
theorem statement_of_renamed (vars : Variables) (tokens : List Token) (start depth : Nat)
    {f : String → String} (hf : Function.Injective f) :
    let o := statement vars (.place tokens start depth)
    let renamed := statement (vars.rename f) (.place (tokens.map (Token.rename f)) start depth)
    (∀ e, o.result = .ok e → renamed.result = .ok (e.rename f)) ∧
      (∀ fault, o.result = .error fault → renamed.result = .error (fault.rename f)) ∧
      renamed.cursor.position = o.cursor.position ∧ renamed.cursor.depth = o.cursor.depth ∧
      renamed.store (vars.rename f) = (o.store vars).rename f := by
  intro o renamed
  obtain ⟨hvalue, hfault, hcursor⟩ := statement_of_aligned
    (Comparison.aligned_renamed hf vars tokens start depth)
    (fun _ => Nat.le_max_right _ _) (Nat.le_max_left _ _)
  have hok (e : Evaluation) (h : o.result = .ok e) : renamed.result = .ok (e.rename f) :=
    hvalue e h
  have herror (fault : Fault) (h : o.result = .error fault) :
      renamed.result = .error (fault.rename f) := by
    obtain ⟨hstart, hresult⟩ := hfault fault h
    rw [← Fault.move_eq_rename (Comparison.counterpart_renamed hstart)]
    exact hresult
  refine ⟨hok, herror, ?_, hcursor.depth, ?_⟩
  · exact hcursor.position.trans (Comparison.counterpart_renamed hcursor.start_le)
  · cases hresult : o.result with
    | ok e =>
      rw [Outcome.store_ok hresult, Outcome.store_ok (hok e hresult)]
      exact e.store_rename hf vars
    | error fault =>
      rw [Outcome.store_error hresult, Outcome.store_error (herror fault hresult)]

/-- Among names the word of a print statement is one like any other. -/
theorem assignment_to_print_word :
    let swap := Equiv.swap "x" "print"
    let vars : Variables := (∅ : Variables).insert "y" 1
    let tokens : List Token := [⟨.name, "x"⟩, ⟨.equals, "="⟩, ⟨.name, "y"⟩]
    let renamed := statement (vars.rename swap) (.place (tokens.map (Token.rename swap)) 0 0)
    Function.Injective swap ∧ renamed.result = .ok ⟨.assignment "print", 1⟩ ∧
      renamed.store (vars.rename swap) = Variables.rename swap (vars.insert "x" 1) := by
  intro swap vars tokens renamed
  have hinjective : Function.Injective swap := swap.injective
  have hresult : (statement vars (.place tokens 0 0)).result = .ok ⟨.assignment "x", 1⟩ := by
    simp only [vars, tokens]
    rfl
  obtain ⟨hvalue, -, -, -, hstore⟩ := statement_of_renamed vars tokens 0 0 hinjective
  have hnew : swap "x" = "print" := Equiv.swap_apply_left _ _
  have hrenamed : renamed.result = .ok ⟨.assignment (swap "x"), 1⟩ := hvalue _ hresult
  rw [Outcome.store_ok hresult] at hstore
  exact ⟨hinjective, hnew ▸ hrenamed, hstore⟩

end LineCalculator
