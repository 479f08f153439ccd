import OperatorGrammar.Proofs.Agreement
import OperatorGrammar.Proofs.Depth.Capped
import OperatorGrammar.Proofs.Guarantees
import OperatorGrammar.Proofs.Scan.Visited

/-! # The depth limit filters

The limit is checked in three places: where scanning opens a group, where reading goes into a group
or a call, and where a node is made.  All three count towards the depth of the tree that comes out:
groups that are open at once are levels of reading (`Mirrors`), and no level of reading is lost
(`length_lt_of_scanned`).  So lowering the limit changes nothing for the texts whose trees are not
too deep, and the others are refused with the limit (`ofText_maxDepth`). -/

namespace OperatorGrammar

open Reading

variable {g : Grammar} {k l : UInt64} {tokens before after : List Token}
  {pairs : List Parenthetical} {r : Reading} {m : Measured}

theorem TokenTree.depth_top (t : TokenTree) : (top t).depth = t.height + 1 := by
  rw [depth_eq_height]
  simp only [top, height, heightOfAll]
  omega

/-! ### Trees of tokens -/

theorem measures_of_finish (pos : 0 < g.maxDepth.toNat) (hr : tokens.foldlM (step g) {} = .ok r)
    (h : finish g r = .ok m) : g.Measures m := by
  have hf := foldlM_step_follows hr
  unfold finish at h
  split at h
  · cases h
  · cases h
  · next hc hframes =>
    unfold Follows at hf
    rw [hc, hframes] at hf
    cases hf with
    | outermost hf => exact Grammar.buildExpression_measures h (Grammar.measuredRow_of_reads pos hf)

theorem exists_of_ofTokens (pos : 0 < g.maxDepth.toNat) {t : TokenTree}
    (h : TokenTree.ofTokens g tokens = .ok t) :
    ∃ r m, tokens.foldlM (step g) {} = .ok r ∧ finish g r = .ok m ∧ m.depth ≤ g.maxDepth.toNat ∧
      t.depth = m.depth + 1 := by
  obtain ⟨r, hr, h⟩ := bind_eq_ok.mp h
  obtain ⟨m, hm, ht⟩ := bind_eq_ok.mp h
  have hmeasures := measures_of_finish pos hr hm
  refine ⟨r, m, hr, hm, hmeasures.within, ?_⟩
  rw [← pure_eq_ok.mp ht, TokenTree.depth_top, hmeasures.exact]

theorem capped_ofTokens (pos : 0 < l.toNat) :
    Capped k (fun t => t.depth - 1) (TokenTree.ofTokens (g.withDepth k) tokens)
      (TokenTree.ofTokens (g.withDepth l) tokens) := by
  have depth {r : Reading} {m : Measured} {t : TokenTree}
      (hr : tokens.foldlM (step (g.withDepth l)) {} = .ok r)
      (hm : finish (g.withDepth l) r = .ok m)
      (ht : (pure (.top m.tree) : Except ParseError _) = .ok t) : m.depth = t.depth - 1 := by
    rw [← pure_eq_ok.mp ht, TokenTree.depth_top, (measures_of_finish pos hr hm).exact,
      Nat.add_sub_cancel]
  refine (capped_foldlM_step tokens).bind (fun r hr => ?_) ?_
  · refine (capped_finish r).bind (fun _ _ => capped_rfl) fun m t hm ht => ?_
    exact Nat.le_of_eq (depth hr hm ht)
  · intro r t hr ht
    obtain ⟨m, hm, ht⟩ := bind_eq_ok.mp ht
    rw [← depth hr hm ht]
    exact reach_le_of_finish hm

/-- The pairs that are open at once in the tokens of a tree are fewer than its levels. -/
theorem length_lt_of_scanned (pos : 0 < g.maxDepth.toNat) (h : Scanned g before pairs)
    {t : TokenTree} (ht : TokenTree.ofTokens g (before ++ after) = .ok t) :
    pairs.length < t.depth := by
  obtain ⟨r', m, hr', hm, -, hdepth⟩ := exists_of_ofTokens pos ht
  rw [List.foldlM_append] at hr'
  obtain ⟨r, hr, hr'⟩ := bind_eq_ok.mp hr'
  have hlength : r.frames.length = pairs.length := (h.mirrors hr).1.frames.length_eq
  have hgrow : r.reach ≤ r'.reach :=
    le_of_foldlM (Follows g) (fun _ _ _ _ hf hs => hf.step hs)
      (fun _ _ _ _ hf hs => reach_le_of_step hf hs) before (foldlM_step_follows hr) hr'
  have hframes := length_le_reach r
  have hfinish := reach_le_of_finish hm
  omega

/-! ### Scanning under two limits -/

namespace Scan

variable {s s' base : Scan} {text : List Char} {count : Nat}

theorem Room.withDepth (room : Room (g.withDepth l) s base) : Room (g.withDepth k) s base := by
  cases room with
  | here place => exact Room.here place
  | behind place implicit => exact Room.behind (g := g.withDepth k) place implicit

theorem OperatorNext.withDepth {symbol : String}
    (next : OperatorNext (g.withDepth l) s text symbol) :
    OperatorNext (g.withDepth k) s text symbol :=
  ⟨next.plain, next.noStray, next.found⟩

theorem LexemeNext.withDepth {kind : Lexeme} {piece : List Char}
    (next : LexemeNext (g.withDepth l) s text kind piece) :
    LexemeNext (g.withDepth k) s text kind piece :=
  ⟨next.plain, next.noStray, next.noOperator, next.found⟩

theorem Step.withDepth (step : Step (g.withDepth l) s text s' count) :
    Step (g.withDepth k) s text s' count ∨
      s.step (g.withDepth k) text = .error (.nestingTooDeep k) ∧
        k.toNat < s'.groups.length := by
  cases step with
  | @opens pair base found room shallow =>
      by_cases hk : s.groups.length < k.toNat
      · exact Or.inl (.opens found room.withDepth hk)
      · have hdeep : k.toNat ≤ base.groups.length := by
          rw [room.groups_eq]
          exact Nat.le_of_not_lt hk
        have hroom : s.beginOperand (g.withDepth k) (covered text pair.opener) = .ok base :=
          beginOperand_eq_ok.mpr room.withDepth
        have hopen : s.openGroup (g.withDepth k) (g.indexOf pair) (covered text pair.opener) =
            .error (.nestingTooDeep k) := by
          unfold openGroup
          rw [hroom]
          exact if_pos hdeep
        have hstep : s.step (g.withDepth k) text = .error (.nestingTooDeep k) := by
          have found : s.delimiterAt? (g.withDepth k) text = some (.opens pair) := found
          rw [step_of_opens found]
          exact bind_eq_error.mpr (Or.inl hopen)
        exact Or.inr ⟨hstep, Nat.lt_succ_of_le hdeep⟩
  | closes found => exact Or.inl (.closes found)
  | preUnary next role room only =>
      exact Or.inl (.preUnary next.withDepth role room.withDepth only)
  | between next place role => exact Or.inl (.between next.withDepth place role)
  | postUnary next place role only => exact Or.inl (.postUnary next.withDepth place role only)
  | separator next => exact Or.inl (.separator next.withDepth)
  | number next room => exact Or.inl (.number next.withDepth room.withDepth)
  | name next room => exact Or.inl (.name next.withDepth room.withDepth)

/-- Somewhere in a sequence of tokens more pairs are open at once than a limit allows. -/
def Overfull (g : Grammar) (k : UInt64) (tokens : List Token) : Prop :=
  ∃ before after pairs, tokens = before ++ after ∧ Scanned g before pairs ∧
    k.toNat < pairs.length

theorem run_withDepth (hs : s.WellPlaced (g.withDepth l))
    (h : run (g.withDepth l) s text = .ok s') :
    run (g.withDepth k) s text = .ok s' ∨
      run (g.withDepth k) s text = .error (.nestingTooDeep k) ∧
        Overfull (g.withDepth l) k s'.inOrder := by
  fun_induction run (g.withDepth l) s text with
  | case1 s =>
      cases h
      exact Or.inl (by rw [run])
  | case2 s c rest e hstep => cases h
  | case3 s c rest next count hstep ih =>
      have step := step_eq_ok.mp hstep
      have placed := step.wellPlaced hs
      rw [run_cons]
      rcases step.withDepth (k := k) with step' | ⟨herror, hdeep⟩
      · rw [step_eq_ok.mpr step']
        exact ih placed h
      · obtain ⟨after, hafter⟩ := run_inOrder_isPrefix h
        rw [herror]
        refine Or.inr ⟨rfl, next.inOrder, after, next.openPairs _, hafter.symm, placed, ?_⟩
        rwa [openPairs, List.length_map]

/-- Fewer open groups are allowed, or all tokens are the same. -/
theorem tokenize_withDepth {input : String} (h : tokenize (g.withDepth l) input = .ok tokens) :
    tokenize (g.withDepth k) input = .ok tokens ∨
      tokenize (g.withDepth k) input = .error (.nestingTooDeep k) ∧
        Overfull (g.withDepth l) k tokens := by
  obtain ⟨s, hrun, hgroups, rfl⟩ := tokenize_eq_ok.mp h
  have start : ({} : Scan).WellPlaced (g.withDepth l) := Scanned.nil
  rcases run_withDepth (k := k) start hrun with hrun | ⟨hrun, overfull⟩
  · exact Or.inl (tokenize_eq_ok.mpr ⟨s, hrun, hgroups, rfl⟩)
  · refine Or.inr ⟨?_, overfull⟩
    unfold tokenize
    rw [hrun]
    rfl

end Scan

/-! ### Trees of texts -/

namespace TokenTree

variable {input : String} {t : TokenTree}

theorem capped_ofText (pos : 0 < l.toNat) :
    Capped k (fun t => t.depth - 1) (ofText (g.withDepth k) input)
      (ofText (g.withDepth l) input) := by
  intro t ht
  obtain ⟨tokens, htokens, ht⟩ := bind_eq_ok.mp ht
  unfold ofText
  rcases Scan.tokenize_withDepth (k := k) htokens with hk | ⟨hk, before, after, pairs, rfl, hs, hlt⟩
  · rw [hk]
    exact capped_ofTokens pos t ht
  · have hlength := length_lt_of_scanned (g := g.withDepth l) pos hs ht
    rw [hk]
    exact Or.inr ⟨rfl, Nat.lt_of_lt_of_le hlt (Nat.le_pred_of_lt hlength)⟩

theorem depth_le_of_ofText (pos : 0 < g.maxDepth.toNat) (h : ofText g input = .ok t) :
    t.depth ≤ g.maxDepth.toNat + 1 := by
  obtain ⟨tokens, -, h⟩ := bind_eq_ok.mp h
  obtain ⟨_, _, -, -, hle, hdepth⟩ := exists_of_ofTokens pos h
  omega

end TokenTree

theorem Declaration.maxDepth_pos {d : Declaration} (h : d.build = .ok g) :
    0 < g.maxDepth.toNat := by
  obtain ⟨hf, rfl⟩ := build_eq_ok.mp h
  have hdepth := (fault?_eq_none.mp hf).1
  have hne : d.maxDepth ≠ 0 := by
    intro hzero
    rw [depthFault?, if_pos hzero] at hdepth
    cases hdepth
  exact Nat.pos_of_ne_zero fun hzero => hne (UInt64.toNat_inj.mp hzero)

/-- **The depth limit filters, and filters exactly.**  Let a declaration be built with two limits.
Under the lower one the texts have the trees that they have under the higher one, if these are no
deeper than the lower limit and the root; the texts whose trees are deeper are refused with the
lower limit. -/
theorem ofText_maxDepth {d : Declaration} {m n : UInt64} (le : m ≤ n) {g h : Grammar}
    (hg : (d.add (.maxDepth m)).build = .ok g) (hh : (d.add (.maxDepth n)).build = .ok h)
    (input : String) (t : TokenTree) :
    (TokenTree.ofText g input = .ok t ↔
      TokenTree.ofText h input = .ok t ∧ t.depth ≤ m.toNat + 1) ∧
    (TokenTree.ofText h input = .ok t → m.toNat + 1 < t.depth →
      TokenTree.ofText g input = .error (.nestingTooDeep m)) := by
  have hm := Declaration.maxDepth_pos hg
  have hn := Declaration.maxDepth_pos hh
  obtain ⟨-, rfl⟩ := Declaration.build_eq_ok.mp hg
  obtain ⟨-, rfl⟩ := Declaration.build_eq_ok.mp hh
  have le : m.toNat ≤ n.toNat := UInt64.le_iff_toNat_le.mp le
  have lower : Capped m (fun t => t.depth - 1) (TokenTree.ofText (d.assemble.withDepth m) input)
      (TokenTree.ofText (d.assemble.withDepth n) input) := TokenTree.capped_ofText hn
  have higher : Capped n (fun t => t.depth - 1) (TokenTree.ofText (d.assemble.withDepth n) input)
      (TokenTree.ofText (d.assemble.withDepth m) input) := TokenTree.capped_ofText hm
  have within : TokenTree.ofText (d.assemble.withDepth m) input = .ok t →
      t.depth ≤ m.toNat + 1 := TokenTree.depth_le_of_ofText hm
  refine ⟨⟨fun ht => ⟨?_, within ht⟩, fun ⟨ht, hle⟩ => ?_⟩, fun ht hlt => ?_⟩
  · rcases higher t ht with ht' | ⟨-, hlt⟩
    · exact ht'
    · have hlt : n.toNat < t.depth - 1 := hlt
      have := within ht
      omega
  · rcases lower t ht with ht' | ⟨-, hlt⟩
    · exact ht'
    · have hlt : m.toNat < t.depth - 1 := hlt
      omega
  · rcases lower t ht with ht' | ⟨herror, -⟩
    · have := within ht'
      omega
    · exact herror

/-- A tree of four levels, for which the limit of two levels below the root is too low; and one of
three levels, for which it is not. -/
theorem ofText_maxDepth_sample :
    ∃ g h, (Declaration.real.add (.maxDepth 2)).build = .ok g ∧
      (Declaration.real.add (.maxDepth 3)).build = .ok h ∧
      TokenTree.ofText g "-abs(x, 1)" = .error (.nestingTooDeep 2) ∧
      TokenTree.ofText g "abs(x, 1)" =
        .ok (.top (.node "abs" .function [.leaf "x" .identifier, .leaf "1" .number])) := by
  have hg : (Declaration.real.add (.maxDepth 2)).build =
      .ok (Declaration.real.add (.maxDepth 2)).assemble :=
    Declaration.build_eq_ok.mpr ⟨by decide +kernel, rfl⟩
  have hh : (Declaration.real.add (.maxDepth 3)).build =
      .ok (Declaration.real.add (.maxDepth 3)).assemble :=
    Declaration.build_eq_ok.mpr ⟨by decide +kernel, rfl⟩
  have hdeep : TokenTree.ofText (Declaration.real.add (.maxDepth 3)).assemble "-abs(x, 1)" =
      .ok (.top (.node "-" .preUnary
        [.node "abs" .function [.leaf "x" .identifier, .leaf "1" .number]])) := by
    decide +kernel
  have hflat : TokenTree.ofText (Declaration.real.add (.maxDepth 3)).assemble "abs(x, 1)" =
      .ok (.top (.node "abs" .function [.leaf "x" .identifier, .leaf "1" .number])) := by
    decide +kernel
  refine ⟨_, _, hg, hh, ?_, ?_⟩
  · exact (ofText_maxDepth (by decide) hg hh _ _).2 hdeep (by decide +kernel)
  · exact (ofText_maxDepth (by decide) hg hh _ _).1.mpr ⟨hflat, by decide +kernel⟩

end OperatorGrammar
