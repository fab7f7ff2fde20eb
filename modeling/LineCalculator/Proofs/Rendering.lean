import LineCalculator.Proofs.Formula
import LineCalculator.Proofs.Heading
import LineCalculator.Proofs.Spelling

/-!
# Written formulas are evaluated

A formula is written with any blanks around its tokens, or none. As long as no more groups and calls
are open at once than the limit, the line is worked out to what the tree of the formula comes to: to
its value behind the last token, or to its first fault, at the index of the name or the root that it
comes from. Parentheses, the shared tier of powers and the order of evaluation all agree.
-/
namespace LineCalculator

open Expression

/-- How many parentheses some tokens open. -/
def opened (tokens : List Token) : Nat := tokens.countP fun t => t.kind = .openParen

/-- How many parentheses some tokens close. -/
def closed (tokens : List Token) : Nat := tokens.countP fun t => t.kind = .closeParen

/-- The groups and calls that are open behind some tokens. -/
def openGroups (tokens : List Token) : Nat := opened tokens - closed tokens

/-- Tokens that at no point have more groups open than the limit, with so many open around them. -/
def Nests (depth : Nat) (tokens : List Token) : Prop :=
  ∀ seen, seen <+: tokens → depth + opened seen ≤ closed seen + maxDepth

theorem Composed.balanced {tokens : List Token} (h : Composed tokens) :
    opened tokens = closed tokens := by
  unfold opened closed
  induction h with
  | literal l => rfl
  | name n => rfl
  | operation op _ _ ihleft ihright => simp [Operator.token, ihleft, ihright]
  | group _ ih => simp [grouped, Token.opening, Token.closing, ih]
  | call f _ ih => simp [grouped, Token.opening, Token.closing, Builtin.token, ih]

namespace Nests

variable {depth : Nat} {tokens more : List Token}

theorem left (h : Nests depth (tokens ++ more)) : Nests depth tokens :=
  fun seen hseen => h seen (hseen.trans (List.prefix_append tokens more))

theorem right (h : Nests depth (tokens ++ more)) (hbalanced : opened tokens = closed tokens) :
    Nests depth more := by
  intro seen hseen
  have hall := h (tokens ++ seen) ((List.prefix_append_right_inj tokens).mpr hseen)
  have hopened : opened (tokens ++ seen) = opened tokens + opened seen := List.countP_append
  have hclosed : closed (tokens ++ seen) = closed tokens + closed seen := List.countP_append
  omega

theorem inside {opening closing : Token} (hopening : opening.kind = .openParen)
    (h : Nests depth (opening :: tokens ++ [closing])) :
    depth < maxDepth ∧ Nests (depth + 1) tokens := by
  have hopened (seen : List Token) : opened (opening :: seen) = opened seen + 1 :=
    List.countP_cons_of_pos (by simp [hopening])
  have hclosed (seen : List Token) : closed (opening :: seen) = closed seen :=
    List.countP_cons_of_neg (by simp [hopening])
  constructor
  · have hopen := h [opening] (List.prefix_append [opening] (tokens ++ [closing]))
    rw [hopened, hclosed] at hopen
    have hnone : opened [] = 0 ∧ closed [] = 0 := ⟨rfl, rfl⟩
    omega
  · intro seen hseen
    have hprefix : opening :: seen <+: opening :: tokens ++ [closing] :=
      (List.prefix_cons_inj _).mpr (hseen.trans (List.prefix_append tokens [closing]))
    have hall := h (opening :: seen) hprefix
    rw [hopened, hclosed] at hall
    omega

end Nests

theorem Operator.operator?_token (op : Operator) : op.tier.operator? op.token = some op :=
  Tier.operator?_eq_some_iff.mpr ⟨by simp [Token.operator?, Operator.token], rfl⟩

namespace Spells

variable {depth position : Nat} {tokens more : List Token} {tree : Tree} {place rule : Rule}

theorem fit (h : Spells rule depth position tokens tree) (hfits : rule.fits place = true) :
    Spells place depth position tokens tree := by
  cases rule with
  | factor =>
    cases place with
    | factor => exact h
    | term => exact .factor h
    | expression => exact .term (.factor h)
  | term =>
    cases place with
    | factor => cases hfits
    | term => exact h
    | expression => exact .term h
  | expression =>
    cases place with
    | factor => cases hfits
    | term => cases hfits
    | expression => exact h

/-- An operator of a tier between operands of the places on its two sides. -/
theorem operation {tier : Tier} {op : Operator} {t : Token} {left right : Tree}
    (hop : tier.operator? t = some op) (hleft : Spells tier.leftPlace depth position tokens left)
    (hright : Spells tier.rightPlace depth (position + tokens.length + 1) more right) :
    Spells tier.leftPlace depth position (tokens ++ t :: more) (.operation op left right) := by
  cases tier with
  | sum => exact .sum hleft hop hright
  | product => exact .product hleft hop hright

/-- Behind the tokens of an expression, the end of the line stops it. -/
theorem gives (vars : Variables) (h : Spells .expression depth position tokens tree) :
    (expression vars ⟨tokens ++ [.endOfLine], position, depth⟩).Gives (tree.eval vars)
      ⟨[.endOfLine], position + tokens.length, depth⟩ := by
  have hreads : Reads vars tree tokens position depth .expression := reads_of_spells h
  exact expression_gives (hreads [.endOfLine] rfl) rfl

end Spells

namespace Formula

variable {f : Formula} {depth : Nat}

theorem spells_tokensAt (place : Rule) (position : Nat)
    (hf : ∀ {depth position}, Nests depth f.tokens →
      Spells f.rule depth position f.tokens (f.tree position))
    (h : Nests depth (f.tokensAt place)) :
    Spells place depth position (f.tokensAt place)
      (f.tree (if f.rule.fits place then position else position + 1)) := by
  unfold tokensAt at h ⊢
  by_cases hfits : f.rule.fits place = true
  · rw [if_pos hfits] at h
    rw [if_pos hfits, if_pos hfits]
    exact (hf h).fit hfits
  · rw [if_neg hfits] at h
    rw [if_neg hfits, if_neg hfits]
    obtain ⟨hdepth, hinside⟩ := h.inside rfl
    have hbody : Spells .expression (depth + 1) (position + 1) f.tokens (f.tree (position + 1)) :=
      (hf hinside).fit (Rule.fits_expression f.rule)
    exact (Spells.group rfl rfl hdepth hbody).fit rfl

/-- The tokens of a formula spell its tree, wherever they start. -/
theorem spells (f : Formula) {position : Nat} (h : Nests depth f.tokens) :
    Spells f.rule depth position f.tokens (f.tree position) := by
  induction f generalizing depth position with
  | literal l => exact .number rfl l.read?_text
  | name n => exact @Spells.name _ _ n.token rfl
  | operation op left right ihleft ihright =>
    rw [tokens_operation] at h ⊢
    have hop : Nests depth (op.token :: right.tokensAt op.tier.rightPlace) :=
      h.right (composed_tokensAt left _).balanced
    have hbehind : Nests depth (right.tokensAt op.tier.rightPlace) :=
      @Nests.right _ [op.token] _ hop (by simp [opened, closed, Operator.token])
    exact .operation op.operator?_token (spells_tokensAt _ _ ihleft h.left)
      (spells_tokensAt _ _ ihright hbehind)
  | root argument ih =>
    have hcall : Nests depth (grouped argument.tokens) :=
      @Nests.right _ [Builtin.root.token] _ h rfl
    obtain ⟨hdepth, hinside⟩ := hcall.inside rfl
    exact .call rfl rfl rfl rfl hdepth ((ih hinside).fit (Rule.fits_expression argument.rule))

/-- A line that has the tokens of a formula, with any blanks around them. -/
def WrittenAs (f : Formula) (line : String) : Prop :=
  ∃ lead pieces, line.toList = layout lead pieces ∧ pieces.map Prod.fst = f.tokens ∧
    IsBlankRun lead ∧ ∀ piece ∈ pieces, IsBlankRun piece.2

theorem scan_of_writtenAs {line : String} (h : f.WrittenAs line) :
    Token.scan line = f.tokens ++ [.endOfLine] := by
  obtain ⟨lead, pieces, hline, htokens, hlead, hgaps⟩ := h
  have hshaped : ∀ piece ∈ pieces, piece.1.WellShaped := by
    intro piece hpiece
    exact f.composed.wellShaped _ (htokens ▸ List.mem_map_of_mem hpiece)
  have hapart : pieces.IsChain fun piece next => piece.1.Joins next.1 → piece.2 ≠ [] := by
    have hchain := f.composed.isChain
    rw [← htokens, List.isChain_map] at hchain
    exact hchain.imp fun _ _ hnot hjoins => absurd hjoins hnot
  have hsplit : IsSplit line.toList lead pieces := ⟨hline, hlead, hshaped, hgaps, hapart⟩
  rw [Token.scan, hsplit.lexemes_eq, htokens]

/-- The statement that a formula is, with the end of the line behind it. -/
theorem expression_of_tokens (vars : Variables) (h : Nests 0 f.tokens) :
    (expression vars ⟨f.tokens ++ [.endOfLine], 0, 0⟩).Gives ((f.tree 0).eval vars)
      ⟨[.endOfLine], f.tokens.length, 0⟩ := by
  have hspells : Spells .expression 0 0 f.tokens (f.tree 0) :=
    (f.spells h).fit (Rule.fits_expression f.rule)
  have hgives := hspells.gives vars
  rwa [Nat.zero_add] at hgives

theorem heading_of_tokens (f : Formula) :
    Statement.heading ⟨f.tokens ++ [.endOfLine], 0, 0⟩ =
      (.expression, ⟨f.tokens ++ [.endOfLine], 0, 0⟩) :=
  Statement.heading_append_endOfLine f.composed.kind_ne 0 0

end Formula

/-- Of a written formula that nowhere has more groups and calls open than the limit, the line gives
the value of the tree and is read up to its end, or it fails with the first fault of the tree, which
carries the index of its name or root among the tokens of the line. No variable changes. -/
theorem evaluateLine_of_writtenAs (vars : Variables) {f : Formula} {line : String}
    (hline : f.WrittenAs line) (hlimit : ∀ seen, seen <+: f.tokens → openGroups seen ≤ maxDepth) :
    Token.scan line = f.tokens ++ [.endOfLine] ∧
      (∀ x, (f.tree 0).eval vars = .ok x →
        (evaluateLine vars line).result = .ok ⟨.expression, x⟩ ∧
          (evaluateLine vars line).cursor = ⟨[.endOfLine], f.tokens.length, 0⟩) ∧
      (∀ e, (f.tree 0).eval vars = .error e →
        (evaluateLine vars line).result = .error (.value e) ∧
          ∃ t, f.tokens[e.position]? = some t ∧ e.Concerns t) ∧
      (evaluateLine vars line).store vars = vars := by
  have hscan := Formula.scan_of_writtenAs hline
  have hnests : Nests 0 f.tokens := by
    intro seen hseen
    have hopen := hlimit seen hseen
    unfold openGroups at hopen
    omega
  have hspells : Spells f.rule 0 0 f.tokens (f.tree 0) := f.spells hnests
  have hgives := Formula.expression_of_tokens vars hnests
  have hheading := f.heading_of_tokens
  have hstatement : evaluateLine vars line = statement vars ⟨f.tokens ++ [.endOfLine], 0, 0⟩ := by
    rw [evaluateLine, hscan]
    rfl
  have hresult : (evaluateLine vars line).result =
      (expression vars ⟨f.tokens ++ [.endOfLine], 0, 0⟩).result.map
        (Evaluation.mk .expression) := by
    rw [hstatement, Statement.result_eq_heading, hheading]
  have hcursor : (evaluateLine vars line).cursor =
      (expression vars ⟨f.tokens ++ [.endOfLine], 0, 0⟩).cursor := by
    rw [hstatement, Statement.cursor_eq_heading, hheading]
  refine ⟨hscan, fun x hx => ?_, fun e he => ?_, ?_⟩
  · rw [hx] at hgives
    rw [hresult, hcursor, hgives.1]
    exact ⟨rfl, hgives.2⟩
  · rw [he] at hgives
    have hfault : (expression vars ⟨f.tokens ++ [.endOfLine], 0, 0⟩).result = .error (.value e) :=
      hgives
    rw [hresult, hfault]
    exact ⟨rfl, (hspells.fault_pointsInto he).getElem?⟩
  · unfold Outcome.store
    rw [hresult]
    cases (expression vars ⟨f.tokens ++ [.endOfLine], 0, 0⟩).result <;> rfl

/-- A difference on the right of a difference keeps its parentheses. -/
theorem evaluateLine_nested_difference :
    let vars : Variables := ((∅ : Variables).insert "x" 1).insert "y" 2
    (evaluateLine vars " x-( y -x)\t").result = .ok ⟨.expression, 1 - (2 - 1)⟩ := by
  intro vars
  let x : VariableName := ⟨"x", by decide, by simp [isLetter], by decide, by decide⟩
  let y : VariableName := ⟨"y", by decide, by simp [isLetter], by decide, by decide⟩
  let f : Formula := .operation .sub (.name x) (.operation .sub (.name y) (.name x))
  have htokens : f.tokens = [x.token, ⟨.operator, "-"⟩, .opening, y.token, ⟨.operator, "-"⟩,
    x.token, .closing] := rfl
  have hwritten : f.WrittenAs " x-( y -x)\t" := by
    refine ⟨[' '], [(x.token, []), (⟨.operator, "-"⟩, []), (.opening, [' ']), (y.token, [' ']),
      (⟨.operator, "-"⟩, []), (x.token, []), (.closing, ['\t'])], ?_, htokens.symm, ?_, ?_⟩
    · decide
    · simp [IsBlankRun, isBlank]
    · simp [IsBlankRun, isBlank]
  have hlimit : ∀ seen, seen <+: f.tokens → openGroups seen ≤ maxDepth := by
    intro seen hseen
    have hlength : seen.length ≤ 7 := hseen.length_le
    have hopened : opened seen ≤ seen.length := List.countP_le_length
    unfold openGroups maxDepth
    omega
  have htree : f.tree 0 =
      .operation .sub (.name "x" 0) (.operation .sub (.name "y" 3) (.name "x" 5)) := rfl
  have hx (position : Nat) : vars.lookup "x" position = .ok 1 := by
    have hne : ¬ compare "y" "x" = .eq := by decide
    rw [Variables.lookup_eq_ok_iff, Std.ExtTreeMap.getElem?_insert, if_neg hne]
    exact Std.ExtTreeMap.getElem?_insert_self
  have hy (position : Nat) : vars.lookup "y" position = .ok 2 :=
    Variables.lookup_eq_ok_iff.mpr (by simp [vars])
  have heval : (f.tree 0).eval vars = .ok (1 - (2 - 1)) := by
    rw [htree]
    exact Tree.eval_operation_ok (hx 0) (Tree.eval_operation_ok (hy 3) (hx 5))
  exact ((evaluateLine_of_writtenAs vars hwritten hlimit).2.1 _ heval).1

end LineCalculator
