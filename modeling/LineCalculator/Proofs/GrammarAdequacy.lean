import LineCalculator.Proofs.Runs

/-!
# The readings and the attributed grammar

Soundness goes by the ways in which a part of the grammar ends with a value. Completeness is the
reading of a tree that the derived tokens spell. Together they say for every place of every token
list what a reading returns there.
-/
namespace LineCalculator

open Expression

/-- The value of an outcome, if there is one, is derived from the tokens that were passed, and the
rule does not go on behind them. -/
def Outcome.SoundFor (vars : Variables) (rule : Rule) (c : Cursor) (o : Outcome Float) : Prop :=
  ∀ value, o.result = .ok value → ∃ passed, c.Passes passed o.cursor ∧
    Derives vars rule c.depth passed value ∧
    ∀ op ∈ rule.operators, o.cursor.peek ≠ ⟨.operator, op.symbol⟩

/-- What a part of the grammar takes from one cursor to another is derived, and where the part ends
the rule of its last operand does not go on. A body ends behind its closing parenthesis. -/
def Part.Derived (vars : Variables) (c : Cursor) (x : Float) (d : Cursor) : Part → Prop
  | .rule r => ∃ passed, c.Passes passed d ∧ Derives vars r c.depth passed x ∧
      ∀ op ∈ r.operators, d.peek ≠ ⟨.operator, op.symbol⟩
  | .alternative => ∃ passed, c.Passes passed d ∧ Derives vars .factor c.depth passed x
  | .body => ∃ inside e, c.Passes inside e ∧ Derives vars .expression c.depth inside x ∧
      e.peek.kind = .closeParen ∧ d = e.advance.leaveGroup
  | .chain tier => ∃ passed, c.Passes passed d ∧ Derives vars tier.leftPlace c.depth passed x ∧
      ∀ op ∈ tier.rightPlace.operators, d.peek ≠ ⟨.operator, op.symbol⟩

namespace Derives

variable {vars : Variables} {depth : Nat} {tokens more : List Token} {value left right : Float}

theorem operand {tier : Tier} (h : Derives vars tier.rightPlace depth tokens value) :
    Derives vars tier.leftPlace depth tokens value := by
  cases tier with
  | sum => exact .term h
  | product => exact .factor h

theorem operation {tier : Tier} {op : Operator} (htier : op.tier = tier)
    (hleft : Derives vars tier.leftPlace depth tokens left)
    (hright : Derives vars tier.rightPlace depth more right) :
    Derives vars tier.leftPlace depth (tokens ++ ⟨.operator, op.symbol⟩ :: more)
      (op.apply left right) := by
  cases tier with
  | sum => exact .sum hleft (by cases op <;> simp_all [Operator.tier]) hright
  | product => exact .product hleft (by cases op <;> simp_all [Operator.tier]) hright

end Derives

theorem Tier.mem_operators {tier : Tier} {op : Operator} (h : op ∈ tier.leftPlace.operators) :
    op ∈ tier.rightPlace.operators ∨ op.tier = tier := by
  cases tier <;> cases op <;> simp_all [leftPlace, rightPlace, Rule.operators, Operator.tier]

/-- Every value of a run is derived from the tokens that the run takes. -/
theorem Runs.derived {vars : Variables} {part : Part} {c : Cursor} {o : Outcome Float} {x : Float}
    (h : Runs vars part c o) (hx : o.result = .ok x) : part.Derived vars c x o.cursor := by
  -- A run that ends with a fault has no value. A group is the one part whose cursor is not where its
  -- expression stopped, which is why a body says where that was.
  induction h generalizing x with
  | malformed | undefined | unexpected | tooDeep | unknown | unopened | unclosed | refused
  | halted => cases hx
  | unargued _ _ _ _ _ hfault | unfilled _ hfault =>
    rw [hfault] at hx
    cases hx
  | number hkind hread =>
    cases hx
    exact ⟨_, .advance (atEnd_false_of_kind hkind (by decide)), .number hkind hread⟩
  | variableRead hkind hvalue =>
    cases hx
    exact ⟨_, .advance (atEnd_false_of_kind hkind (by decide)), .name hkind hvalue⟩
  | @group c o hkind hdepth _ ih =>
    obtain ⟨inside, e, hinside, hderives, hclosing, hcursor⟩ := ih hx
    have hopen : c.deeper.atEnd = false := atEnd_false_of_kind (c := c.deeper) hkind (by decide)
    have hclose := atEnd_false_of_kind hclosing (by decide)
    have hpass := ((Cursor.Passes.advance hopen).append hinside).leave hclose
    simp only [Cursor.depth_advance, Cursor.depth_deeper] at hderives
    exact ⟨_, hcursor ▸ hpass, .group hkind hclosing hdepth hderives⟩
  | @called c f o argument y hkind hdepth hname hopening _ hvalue happly ih =>
    cases hx
    obtain ⟨inside, e, hinside, hderives, hclosing, hcursor⟩ := ih hvalue
    have hnamed : c.deeper.atEnd = false := atEnd_false_of_kind (c := c.deeper) hkind (by decide)
    have hopen := atEnd_false_of_kind hopening (by decide)
    have hclose := atEnd_false_of_kind hclosing (by decide)
    have hpass := (((Cursor.Passes.advance hnamed).append (Cursor.Passes.advance hopen)).append
      hinside).leave hclose
    simp only [Cursor.depth_advance, Cursor.depth_deeper] at hderives
    cases f
    obtain ⟨hneg, rfl⟩ := Builtin.squareRoot_eq_ok_iff.mp happly
    have hroot := Builtin.ofName?_eq_some_iff.mp hname
    exact ⟨_, hcursor ▸ hpass, .call hkind hroot hopening hclosing hdepth hderives hneg⟩
  | closed _ hvalue hclose ih =>
    cases hx
    obtain ⟨inside, hinside, hderives, -⟩ := ih hvalue
    exact ⟨inside, _, hinside, hderives, hclose, rfl⟩
  | operand _ ih =>
    obtain ⟨passed, hpass, hderives, hstop⟩ := ih hx
    exact ⟨passed, hpass, hderives.operand, hstop⟩
  | operation _ hleft hop _ hright ihleft ihright =>
    cases hx
    obtain ⟨passed, hpass, hderives, -⟩ := ihleft hleft
    obtain ⟨more, hmore, hderives', hstop⟩ := ihright hright
    obtain ⟨hpeek, htier⟩ := Tier.operator?_eq_some_iff_eq.mp hop
    have hsign := hpass.append (.advance (atEnd_false_of_operator? hop))
    have hall := hsign.append hmore
    rw [List.append_assoc, List.singleton_append, hpeek] at hall
    rw [hsign.depth] at hderives'
    exact ⟨_, hall, .operation htier hderives hderives', hstop⟩
  | factor _ ih =>
    obtain ⟨passed, hpass, hderives⟩ := ih hx
    exact ⟨passed, hpass, hderives, by simp [Rule.operators]⟩
  | joined _ hnone ih =>
    obtain ⟨passed, hpass, hderives, hstop⟩ := ih hx
    refine ⟨passed, hpass, hderives, fun op hop => ?_⟩
    rcases Tier.mem_operators hop with hin | htier
    · exact hstop op hin
    · exact Tier.operator?_eq_none_iff_ne.mp (hnone x hx) op htier

/-- Every value of a reading is derived from the tokens it took. -/
theorem soundFor_reading {vars : Variables} (rule : Rule) (c : Cursor) :
    (rule.reading vars c).SoundFor vars rule c :=
  fun _ hvalue => (runs_reading vars rule c).derived hvalue

/-- The cursor at an index of a list, with so many groups open. -/
def Cursor.place (tokens : List Token) (position depth : Nat) : Cursor :=
  ⟨tokens.drop position, position, depth⟩

/-- An outcome with a value and the cursor behind it. -/
def Outcome.Returns {α : Type} (o : Outcome α) (x : α) (next : Cursor) : Prop :=
  o.result = .ok x ∧ o.cursor = next

variable {vars : Variables}

theorem Tier.operator?_headD {tier : Tier} {rest : List Token}
    (h : ∀ op : Operator, op.tier = tier → rest.head? ≠ some ⟨.operator, op.symbol⟩) :
    tier.operator? (rest.headD .endOfLine) = none := by
  cases rest with
  | nil => exact Tier.operator?_endOfLine tier
  | cons t rest =>
    refine Tier.operator?_eq_none_iff_ne.mpr fun op htier ht => ?_
    exact h op htier (by rw [List.head?_cons, ← ht]; rfl)

/-- Derived tokens are read for their value, up to a token that the rule does not go on with. -/
theorem returns_of_derives {rule : Rule} {depth : Nat} {tokens : List Token} {value : Float}
    (h : Derives vars rule depth tokens value) (position : Nat) (rest : List Token)
    (hstop : ∀ op ∈ rule.operators, rest.head? ≠ some ⟨.operator, op.symbol⟩) :
    (rule.reading vars ⟨tokens ++ rest, position, depth⟩).Returns value
      ⟨rest, position + tokens.length, depth⟩ := by
  obtain ⟨tree, hspells, heval⟩ := h.exists_tree position
  have hreads : Reads vars tree tokens position depth rule := reads_of_spells hspells
  have hvalue {o : Outcome Float} {next : Cursor} (hgives : o.Gives (tree.eval vars) next) :
      o.Returns value next := by
    rw [heval] at hgives
    exact hgives
  cases rule with
  | factor => exact hvalue (hreads rest)
  | term =>
    have hproduct : Tier.product.operator? (rest.headD .endOfLine) = none :=
      Tier.operator?_headD fun op htier =>
        hstop op (by cases op <;> simp_all [Operator.tier, Rule.operators])
    exact hvalue (term_gives (hreads rest) hproduct)
  | expression =>
    have hnone (tier : Tier) : tier.operator? (rest.headD .endOfLine) = none :=
      Tier.operator?_headD fun op _ => hstop op (by cases op <;> simp [Rule.operators])
    exact hvalue (expression_gives (hreads rest (hnone .product)) (hnone .sum))

namespace Cursor

theorem peek_place (tokens : List Token) (position depth : Nat) :
    (place tokens position depth).peek = tokens[position]?.getD .endOfLine := by
  rw [place, peek, List.headD_eq_head?_getD, List.head?_drop]

theorem advance_place {tokens : List Token} {position depth : Nat}
    (h : (place tokens position depth).atEnd = false) :
    (place tokens position depth).advance = place tokens (position + 1) depth := by
  rw [advance_of_not_atEnd h]
  simp [place]

/-- Between two indices of a list stand the tokens that lead from one to the other. -/
theorem extract_of_passes {tokens passed : List Token} {p q depth : Nat} (hne : passed ≠ [])
    (h : (place tokens p depth).Passes passed (place tokens q depth)) :
    q ≤ tokens.length ∧ tokens.extract p q = passed := by
  have hahead : tokens.drop p = passed ++ tokens.drop q := h.ahead
  have hposition : q = p + passed.length := h.position
  have hpos : 0 < passed.length := List.length_pos_iff.mpr hne
  have hlength := congrArg List.length hahead
  simp only [List.length_append, List.length_drop] at hlength
  constructor
  · omega
  · rw [List.extract_eq_take_drop, hahead, hposition, Nat.add_sub_cancel_left, List.take_left']
    rfl

end Cursor

/-- A reading returns a value between two indices exactly when the tokens between them derive it
and the token behind them does not go on with the rule. -/
theorem reading_returns_iff (rule : Rule) (tokens : List Token) (p q depth : Nat) (value : Float) :
    (rule.reading vars (.place tokens p depth)).Returns value (.place tokens q depth) ↔
      q ≤ tokens.length ∧ Derives vars rule depth (tokens.extract p q) value ∧
        ∀ op ∈ rule.operators, tokens[q]? ≠ some ⟨.operator, op.symbol⟩ := by
  constructor
  · rintro ⟨hresult, hcursor⟩
    obtain ⟨passed, hpass, hderives, hstop⟩ := soundFor_reading rule _ value hresult
    rw [hcursor] at hpass hstop
    obtain ⟨hle, hextract⟩ := Cursor.extract_of_passes hderives.ne_nil hpass
    refine ⟨hle, hextract ▸ hderives, fun op hop hsign => hstop op hop ?_⟩
    rw [Cursor.peek_place, hsign]
    rfl
  · rintro ⟨hle, hderives, hstop⟩
    have hne := hderives.ne_nil
    rw [List.extract_eq_take_drop] at hderives hne
    have hlt : p < q := by
      refine Nat.lt_of_not_le fun hge => hne ?_
      rw [Nat.sub_eq_zero_of_le hge, List.take_zero]
    have hlength : ((tokens.drop p).take (q - p)).length = q - p := by
      rw [List.length_take, List.length_drop]
      omega
    have hrest : (tokens.drop p).drop (q - p) = tokens.drop q := by
      rw [List.drop_drop, Nat.add_sub_cancel' (by omega)]
    have hreturns := returns_of_derives hderives p (tokens.drop q)
      (fun op hop => by rw [List.head?_drop]; exact hstop op hop)
    rw [← hrest, List.take_append_drop, hrest, hlength, Nat.add_sub_cancel' (by omega)] at hreturns
    exact hreturns

theorem expression_returns_iff {tokens : List Token} {p q depth : Nat} {value : Float} :
    (expression vars (.place tokens p depth)).Returns value (.place tokens q depth) ↔
      q ≤ tokens.length ∧ Derives vars .expression depth (tokens.extract p q) value ∧
        ∀ op : Operator, tokens[q]? ≠ some ⟨.operator, op.symbol⟩ := by
  have hall (op : Operator) : op ∈ Rule.expression.operators := by
    cases op <;> simp [Rule.operators]
  have hreading : (Rule.expression.reading vars (.place tokens p depth)).Returns value _ ↔ _ :=
    reading_returns_iff .expression tokens p q depth value
  constructor
  · intro h
    obtain ⟨hle, hderives, hstop⟩ := hreading.mp h
    exact ⟨hle, hderives, fun op => hstop op (hall op)⟩
  · rintro ⟨hle, hderives, hstop⟩
    exact hreading.mpr ⟨hle, hderives, fun op _ => hstop op⟩

end LineCalculator
