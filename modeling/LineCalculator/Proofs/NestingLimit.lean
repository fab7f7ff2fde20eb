import LineCalculator.Proofs.Calls

/-!
# The nesting limit

Where a rule is entered the depth is what the parentheses show that have been passed, since the
calls that lead there open and close groups as they pass them. So the limit is met exactly at a
factor that would open one group too many, and no line meets it whose parentheses stay below it.
-/
namespace LineCalculator

open Expression

/-- A factor is refused that would open a group beyond the limit. -/
theorem factor_tooDeep (vars : Variables) {c : Cursor}
    (hkind : c.peek.kind ∈ [.openParen, .function]) (hdepth : maxDepth ≤ c.depth) :
    (factor vars c).result = .error (.form (.nestedTooDeep c.position)) := by
  have hrun : Runs vars .alternative c _ := .tooDeep hkind hdepth
  exact (congrArg Outcome.result hrun.factor.eq_reading).symm

/-- Only a factor that was called is refused so. -/
theorem Runs.leads_of_tooDeep {vars : Variables} {part : Part} {c : Cursor} {o : Outcome Float}
    (h : Runs vars part c o) {k : Nat} (hfault : o.result = .error (.form (.nestedTooDeep k))) :
    ∃ d, Leads vars (part.caller, c) (.factor, d) ∧ d.position = k ∧
      d.peek.kind ∈ [.openParen, .function] ∧ maxDepth ≤ d.depth := by
  induction h with
  | number | malformed | variableRead | undefined | unexpected | unknown | unopened | refused
  | called | unclosed | closed | operation => cases hfault
  | tooDeep hkind hdepth =>
    cases hfault
    exact ⟨_, .refl, rfl, hkind, hdepth⟩
  | group hkind hdepth _ ih =>
    obtain ⟨d, hleads, hplace⟩ := ih hfault
    exact ⟨d, hleads.head (.group hkind hdepth), hplace⟩
  | unargued hkind hdepth hname hopen _ _ ih =>
    obtain ⟨d, hleads, hplace⟩ := ih hfault
    exact ⟨d, hleads.head (.argument hkind hdepth hname hopen), hplace⟩
  | @operand tier c o _ ih =>
    obtain ⟨d, hleads, hplace⟩ := ih hfault
    exact ⟨d, hleads.head (.first tier c), hplace⟩
  | halted h hleft hop _ hright _ ihright =>
    cases hfault
    obtain ⟨d, hleads, hplace⟩ := ihright hright
    exact ⟨d, hleads.head (.next h hleft hop), hplace⟩
  | unfilled _ _ ih | factor _ ih | joined _ _ ih => exact ih hfault

theorem tooDeep_iff_leads {vars : Variables} {rule : Rule} {c : Cursor} {k : Nat} :
    (rule.reading vars c).result = .error (.form (.nestedTooDeep k)) ↔
      ∃ d, Leads vars (rule, c) (.factor, d) ∧ d.position = k ∧
        d.peek.kind ∈ [.openParen, .function] ∧ maxDepth ≤ d.depth := by
  constructor
  · exact (runs_reading vars rule c).leads_of_tooDeep
  · rintro ⟨d, hleads, rfl, hkind, hdepth⟩
    exact hleads.contains.fault _ (factor_tooDeep vars hkind hdepth)

/-- A group beyond the limit shows in the parentheses. -/
theorem Cursor.Tallies.not_nests {c d : Cursor} (h : c.Tallies d)
    (hkind : d.peek.kind = .openParen) (hdepth : maxDepth ≤ d.depth) : ¬ Nests c.depth c.ahead := by
  intro hnests
  obtain ⟨passed, hahead, -, htally⟩ := h
  have hnext := ahead_of_not_atEnd (atEnd_false_of_kind hkind (by decide))
  have hopened : opened (passed ++ [d.peek]) = opened passed + 1 := by simp [opened, hkind]
  have hclosed : closed (passed ++ [d.peek]) = closed passed := by simp [closed, hkind]
  have hprefix : passed ++ [d.peek] <+: c.ahead := by
    rw [hahead, hnext]
    exact (List.prefix_append_right_inj passed).mpr (List.prefix_append [d.peek] _)
  have hlimit := hnests _ hprefix
  omega

variable {vars : Variables} {tokens : List Token} {start depth : Nat}

/-- Where parentheses stay below the limit and every function is called, no group is refused. -/
theorem not_tooDeep_of_nests {rule : Rule} (hnests : Nests depth (tokens.drop start))
    (hcalled : ∀ i, start ≤ i → (tokens[i]?.getD .endOfLine).kind = .function →
      (tokens[i + 1]?.getD .endOfLine).kind = .openParen) (k : Nat) :
    (rule.reading vars (.place tokens start depth)).result ≠ .error (.form (.nestedTooDeep k)) := by
  intro hfault
  obtain ⟨d, hleads, rfl, hkind, hdepth⟩ := tooDeep_iff_leads.mp hfault
  have htallies : (Cursor.place tokens start depth).Tallies d := hleads.tallies
  rcases List.mem_pair.mp hkind with hopen | hname
  · exact htallies.not_nests hopen hdepth hnests
  · have hplace := htallies.eq_place
    have hbehind : d.advance.peek.kind = .openParen := by
      have hend := atEnd_false_of_kind hname (by decide)
      rw [hplace] at hend hname ⊢
      rw [Cursor.advance_place hend, Cursor.peek_place]
      rw [Cursor.peek_place] at hname
      exact hcalled _ htallies.position_le hname
    have hadvance := htallies.trans (.advance_of_kind hname (by decide))
    exact hadvance.not_nests hbehind (d.depth_advance ▸ hdepth) hnests

/-- Whatever a rule enters on its way, it enters with as many groups open as it started with and as
the parentheses since then leave open. A group or a call is refused as nested too deep exactly where
a factor is entered at its first token with 128 open; so none is where the parentheses never leave
more than that open and every function is followed by one, however many groups and calls there
are beside each other. -/
theorem depth_counts_open_parentheses (vars : Variables) (tokens : List Token) (start : Nat)
    {depth : Nat} (hdepth : depth ≤ maxDepth) (rule : Rule) :
    let o := rule.reading vars (.place tokens start depth)
    let token (i : Nat) : Token := tokens[i]?.getD .endOfLine
    let between (k : Nat) : List Token := tokens.extract start k
    (∀ entered k groups, .entering entered k groups ∈ o.events →
      groups + closed (between k) = depth + opened (between k)) ∧
    (∀ k, o.result = .error (.form (.nestedTooDeep k)) ↔
      (∃ groups, .entering .factor k groups ∈ o.events) ∧
        (token k).kind ∈ [.openParen, .function] ∧
        depth + opened (between k) = maxDepth + closed (between k)) ∧
    (Nests depth (tokens.drop start) →
      (∀ i, start ≤ i → (token i).kind = .function → (token (i + 1)).kind = .openParen) →
      ∀ k, o.result ≠ .error (.form (.nestedTooDeep k))) := by
  intro o token between
  have hplace {r : Rule} {d : Cursor}
      (hleads : Leads vars (rule, .place tokens start depth) (r, d)) :
      d.depth + closed (between d.position) = depth + opened (between d.position) ∧
        d.peek = token d.position := by
    have htallies : (Cursor.place tokens start depth).Tallies d := hleads.tallies
    refine ⟨htallies.depth_eq, ?_⟩
    rw [htallies.eq_place, Cursor.peek_place]
    rfl
  refine ⟨fun entered k groups hentered => ?_, fun k => ⟨fun hfault => ?_, ?_⟩,
    not_tooDeep_of_nests⟩
  · obtain ⟨d, hleads, rfl, rfl⟩ := entering_mem_iff.mp hentered
    exact (hplace hleads).1
  · obtain ⟨d, hleads, rfl, hkind, hfull⟩ := tooDeep_iff_leads.mp hfault
    obtain ⟨hbalance, hpeek⟩ := hplace hleads
    have hlimit : d.depth ≤ maxDepth := hleads.depth_le hdepth
    exact ⟨⟨d.depth, entering_mem_iff.mpr ⟨d, hleads, rfl, rfl⟩⟩, hpeek ▸ hkind, by omega⟩
  · rintro ⟨⟨groups, hentered⟩, hkind, hfull⟩
    obtain ⟨d, hleads, rfl, rfl⟩ := entering_mem_iff.mp hentered
    obtain ⟨hbalance, hpeek⟩ := hplace hleads
    exact tooDeep_iff_leads.mpr ⟨d, hleads, rfl, hpeek ▸ hkind, by omega⟩

/-- With 127 groups open, a second one inside a first is refused, and a group behind a call is
not. -/
theorem group_inside_last_group :
    let vars : Variables := (∅ : Variables).insert "x" 1
    let x : Token := ⟨.name, "x"⟩
    let beside : List Token := [Builtin.root.token, .opening, x, .closing, Operator.sub.token,
      .opening, x, .closing]
    (expression vars (.place [.opening, .opening, x] 0 127)).result =
        .error (.form (.nestedTooDeep 1)) ∧
      ∀ k, (expression vars (.place beside 0 127)).result ≠ .error (.form (.nestedTooDeep k)) := by
  intro vars x beside
  have hlimit : 127 ≤ maxDepth := by decide
  constructor
  · have hentered : .entering .factor 1 128 ∈
        (expression vars (.place [.opening, .opening, x] 0 127)).events :=
      .tail _ (.tail _ (.tail _ (.tail _ (.tail _ (.head _)))))
    have hinside := depth_counts_open_parentheses vars [.opening, .opening, x] 0 hlimit .expression
    exact (hinside.2.1 1).mpr ⟨⟨128, hentered⟩, by decide, by decide⟩
  · have hnests : Nests 127 beside := by
      have htake : ∀ n ≤ 8, 127 + opened (beside.take n) ≤ closed (beside.take n) + maxDepth := by
        decide
      intro seen hseen
      rw [List.prefix_iff_eq_take.mp hseen]
      exact htake _ hseen.length_le
    have hcalled : ∀ i, 0 ≤ i → (beside[i]?.getD .endOfLine).kind = .function →
        (beside[i + 1]?.getD .endOfLine).kind = .openParen := by
      intro i _ hname
      have hshort : ∀ i < 8, (beside[i]?.getD .endOfLine).kind = .function →
          (beside[i + 1]?.getD .endOfLine).kind = .openParen := by decide
      by_cases hi : i < 8
      · exact hshort i hi hname
      · rw [List.getElem?_eq_none (Nat.not_lt.mp hi)] at hname
        cases hname
    have hbeside := depth_counts_open_parentheses vars beside 0 hlimit .expression
    exact hbeside.2.2 hnests hcalled

end LineCalculator
