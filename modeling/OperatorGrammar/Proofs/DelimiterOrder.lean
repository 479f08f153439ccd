import Mathlib.Data.List.Nodup
import OperatorGrammar.Proofs.Registration
import OperatorGrammar.Proofs.Row.Build
import OperatorGrammar.Proofs.Scan.LongestMatch
import OperatorGrammar.Proofs.Scan.Step
import OperatorGrammar.TokenTree.OfTokens

/-! # The order of delimiters does not matter

Where a delimiter may stand, the longest one is taken.  Two openers of one length at the front of a
text are the same symbol, as their case has been folded, and so are two closers; so as long as no
two pairs have one opener, the pairs of a grammar may be listed in any order
(`Grammar.Rearranges`).  The open groups of the two runs have different indices
(`Grammar.reindex`), but they are of the same pairs, and so scanning makes the same steps
(`Scan.step_withPairs`).  Reading the tokens, which asks for the closers of an opener, gives the
same tree (`TokenTree.ofTokens_withPairs`).  In terms of clauses: two grammars whose clauses about
delimiters are the same in another order, wherever they stand among the others, treat every text
alike (`Declaration.build_delimiterOrder`). -/

namespace OperatorGrammar

/-! ### Searches that do not depend on the order -/

section search

variable {α : Type} {xs ys : List α}

/-- Where no two elements have one length, a longest one is chosen in any order. -/
theorem longest_congr {length : α → Nat} {choose : List α → Option α}
    (nothing : ∀ {xs}, choose xs = none ↔ xs = [])
    (longest : ∀ {xs x}, choose xs = some x → x ∈ xs ∧ ∀ y ∈ xs, length y ≤ length x)
    (apart : ∀ x ∈ xs, ∀ y ∈ xs, length x = length y → x = y) (same : ∀ x, x ∈ ys ↔ x ∈ xs) :
    choose ys = choose xs := by
  cases h : choose xs with
  | none =>
      rw [nothing, List.eq_nil_iff_forall_not_mem] at h ⊢
      exact fun x hx => h x ((same x).mp hx)
  | some x =>
      obtain ⟨hx, hmax⟩ := longest h
      cases h' : choose ys with
      | none =>
          rw [nothing.mp h'] at same
          cases (same x).mpr hx
      | some y =>
          obtain ⟨hy, hmax'⟩ := longest h'
          have hy := (same y).mp hy
          have hle := hmax' x ((same x).mpr hx)
          rw [apart y hy x hx (Nat.le_antisymm (hmax y hy) hle)]

theorem find?_congr_of_unique {p : α → Bool}
    (unique : ∀ x ∈ xs, ∀ y ∈ xs, p x = true → p y = true → x = y)
    (same : ∀ x, x ∈ ys ↔ x ∈ xs) : ys.find? p = xs.find? p := by
  cases h : ys.find? p with
  | none =>
      rw [List.find?_eq_none] at h
      exact (List.find?_eq_none.mpr fun x hx => h x ((same x).mpr hx)).symm
  | some y =>
      have hy := (same y).mp (List.mem_of_find?_eq_some h)
      have hpy := List.find?_some h
      obtain ⟨x, hx⟩ := Option.isSome_iff_exists.mp (List.find?_isSome.mpr ⟨y, hy, hpy⟩)
      rw [hx, unique y hy x (List.mem_of_find?_eq_some hx) hpy (List.find?_some hx)]

end search

/-! ### Grammars with their delimiters in another order -/

namespace Grammar

def withPairs (g : Grammar) (pairs : List Parenthetical) : Grammar :=
  { g with parentheticals := pairs }

/-- Whether some pairs are those of a grammar in any order, where their case is folded and no two of
them have one opener. -/
structure Rearranges (g : Grammar) (pairs : List Parenthetical) : Prop where
  mem_iff : ∀ pair, pair ∈ pairs ↔ pair ∈ g.parentheticals
  distinct : ∀ pair ∈ g.parentheticals, ∀ other ∈ g.parentheticals,
    pair.opener = other.opener → pair = other
  inCase : ∀ pair ∈ g.parentheticals, InCase g.caseSensitive pair.opener.toList ∧
    InCase g.caseSensitive pair.closer.toList

variable {g : Grammar} {pairs : List Parenthetical} {text : List Char} {a b : String}

theorem eq_of_startsWith (ha : InCase g.caseSensitive a.toList)
    (hb : InCase g.caseSensitive b.toList) (hta : g.startsWith text a = true)
    (htb : g.startsWith text b = true) (h : symbolLength a = symbolLength b) : a = b :=
  String.toList_inj.mp (ha.eq_of_beginsWith hb hta htb h)

theorem openerAt?_withPairs (h : g.Rearranges pairs) (text : List Char) :
    (g.withPairs pairs).openerAt? text = g.openerAt? text := by
  unfold openerAt?
  refine longest_congr firstLongest_eq_none firstLongest_eq_some
    (fun pair hpair other hother hlen => ?_) fun pair => ?_
  · obtain ⟨hpair, begins⟩ := List.mem_filter.mp hpair
    obtain ⟨hother, begins'⟩ := List.mem_filter.mp hother
    exact h.distinct pair hpair other hother
      (eq_of_startsWith (h.inCase pair hpair).1 (h.inCase other hother).1 begins begins' hlen)
  · rw [List.mem_filter, List.mem_filter]
    exact and_congr_left' (h.mem_iff pair)

theorem strayCloserAt?_withPairs (h : g.Rearranges pairs) (text : List Char) :
    (g.withPairs pairs).strayCloserAt? text = g.strayCloserAt? text := by
  unfold strayCloserAt?
  refine longest_congr lastLongest_eq_none lastLongest_eq_some
    (fun closer hcloser other hother hlen => ?_) fun closer => ?_
  · obtain ⟨hcloser, begins⟩ := List.mem_filter.mp hcloser
    obtain ⟨hother, begins'⟩ := List.mem_filter.mp hother
    obtain ⟨pair, hpair, rfl⟩ := List.mem_map.mp hcloser
    obtain ⟨pair', hpair', rfl⟩ := List.mem_map.mp hother
    rw [Bool.and_eq_true] at begins begins'
    exact eq_of_startsWith (h.inCase pair hpair).2 (h.inCase pair' hpair').2 begins.2 begins'.2
      hlen
  · rw [List.mem_filter, List.mem_filter, List.mem_map, List.mem_map]
    refine and_congr_left' (exists_congr fun pair => ?_)
    exact and_congr_left' (h.mem_iff pair)

/-- The index that a pair of a grammar has among the same pairs in another order; an index out of
range stays so. -/
def reindex (g : Grammar) (pairs : List Parenthetical) (index : Nat) : Nat :=
  match g.parentheticals[index]? with
  | some pair => (g.withPairs pairs).indexOf pair
  | none => pairs.length

theorem getElem?_reindex (h : g.Rearranges pairs) (index : Nat) :
    pairs[g.reindex pairs index]? = g.parentheticals[index]? := by
  unfold reindex
  cases hpair : g.parentheticals[index]? with
  | none => exact List.getElem?_eq_none (Nat.le_refl _)
  | some pair =>
      have hmem := List.mem_of_getElem? hpair
      show pairs[pairs.findIdx (·.opener == pair.opener)]? = some pair
      have isSome : (pairs.find? (·.opener == pair.opener)).isSome = true :=
        List.find?_isSome.mpr ⟨pair, (h.mem_iff pair).mpr hmem, beq_self_eq_true pair.opener⟩
      obtain ⟨other, hother⟩ := Option.isSome_iff_exists.mp isSome
      have hopener := List.find?_some hother
      rw [beq_iff_eq] at hopener
      have hother' := (h.mem_iff other).mp (List.mem_of_find?_eq_some hother)
      rw [← List.find?_eq_getElem?_findIdx, hother, h.distinct other hother' pair hmem hopener]

theorem pairAt_reindex (h : g.Rearranges pairs) (index : Nat) :
    (g.withPairs pairs).pairAt (g.reindex pairs index) = g.pairAt index := by
  unfold pairAt
  rw [List.getD_eq_getElem?_getD, List.getD_eq_getElem?_getD, ← getElem?_reindex h]
  rfl

theorem reindex_indexOf {pair : Parenthetical} (h : g.openerAt? text = some pair) :
    g.reindex pairs (g.indexOf pair) = (g.withPairs pairs).indexOf pair := by
  unfold reindex
  rw [getElem?_indexOf h]

theorem closes_withPairs (h : g.Rearranges pairs) (opener closer : String) :
    (g.withPairs pairs).closes opener closer = g.closes opener closer := by
  unfold closes
  rw [Bool.eq_iff_iff, List.any_eq_true, List.any_eq_true]
  exact exists_congr fun pair => and_congr_left' (h.mem_iff pair)

theorem closerOf_withPairs (h : g.Rearranges pairs) (opener : String) :
    (g.withPairs pairs).closerOf opener = g.closerOf opener := by
  unfold closerOf
  have found : (g.withPairs pairs).parentheticals.find? (·.opener == opener) =
      g.parentheticals.find? (·.opener == opener) := by
    refine find?_congr_of_unique (fun pair hpair other hother ho ho' => ?_) h.mem_iff
    rw [beq_iff_eq] at ho ho'
    exact h.distinct pair hpair other hother (ho.trans ho'.symm)
  rw [found]

theorem buildExpression_withPairs (row : List Item) :
    (g.withPairs pairs).buildExpression row = g.buildExpression row := by
  induction row using row_induction (g := g) with
  | row row ih =>
      have same : (g.withPairs pairs).loosest row = g.loosest row :=
        loosest_congr fun _ => rfl
      cases h : g.loosest row with
      | error e =>
          rw [buildExpression_of_loosest_error h, buildExpression_of_loosest_error (same.trans h)]
      | ok found =>
          cases found with
          | none =>
              rw [buildExpression_of_loosest_none h, buildExpression_of_loosest_none (same.trans h)]
              rfl
          | some operator =>
              rw [buildExpression_of_loosest_some h, buildExpression_of_loosest_some (same.trans h)]
              have pieces : (splitAtSymbol operator.text row).mapM
                  ((g.withPairs pairs).buildPiece operator.text) =
                    (splitAtSymbol operator.text row).mapM (g.buildPiece operator.text) := by
                refine mapM_congr_left fun piece hpiece => ?_
                unfold buildPiece
                rw [ih operator h piece hpiece]
              rw [pieces]
              rfl

end Grammar

variable {g : Grammar} {pairs : List Parenthetical}

/-! ### Scanning -/

namespace Scan

/-- A state with the indices that its groups have among other pairs. -/
def reindexed (g : Grammar) (pairs : List Parenthetical) (s : Scan) : Scan :=
  { s with groups := s.groups.map fun group => { group with index := g.reindex pairs group.index } }

theorem closerAt?_withPairs (h : g.Rearranges pairs) (s : Scan) (text : List Char) :
    (s.reindexed g pairs).closerAt? (g.withPairs pairs) text = s.closerAt? g text := by
  have innermost : ((s.reindexed g pairs).groups.head?.bind fun group => pairs[group.index]?) =
      s.groups.head?.bind fun group => g.parentheticals[group.index]? := by
    unfold reindexed
    cases s.groups with
    | nil => rfl
    | cons group groups => exact Grammar.getElem?_reindex h group.index
  exact congrArg (Option.filter (s.mayClose g text)) innermost

theorem delimiterAt?_withPairs (h : g.Rearranges pairs) (s : Scan) (text : List Char) :
    (s.reindexed g pairs).delimiterAt? (g.withPairs pairs) text = s.delimiterAt? g text := by
  unfold delimiterAt?
  rw [closerAt?_withPairs h, Grammar.openerAt?_withPairs h]

theorem beginOperand_withPairs (s : Scan) (next : String) :
    (s.reindexed g pairs).beginOperand (g.withPairs pairs) next =
      (s.beginOperand g next).map (reindexed g pairs) := by
  have expects : (s.reindexed g pairs).expectsOperand = s.expectsOperand := rfl
  show (s.reindexed g pairs).beginOperand g next = _
  unfold beginOperand
  rw [expects]
  split
  · rfl
  · split <;> rfl

theorem openGroup_withPairs (h : g.Rearranges pairs) (s : Scan) (index : Nat) (text : String) :
    (s.reindexed g pairs).openGroup (g.withPairs pairs) (g.reindex pairs index) text =
      (s.openGroup g index text).map (reindexed g pairs) := by
  unfold openGroup
  rw [beginOperand_withPairs]
  refine map_bind fun base => ?_
  have depth : (base.reindexed g pairs).groups.length = base.groups.length := List.length_map _
  rw [depth, Grammar.pairAt_reindex h]
  show (if g.maxDepth.toNat ≤ base.groups.length then _ else _) = _
  split <;> rfl

theorem closeGroup_withPairs (s : Scan) (pair : Parenthetical) :
    (s.reindexed g pairs).closeGroup pair = (s.closeGroup pair).reindexed g pairs := by
  unfold closeGroup reindexed push
  rw [List.map_tail]

theorem operator_withPairs (s : Scan) (symbol text : String) :
    (s.reindexed g pairs).operator (g.withPairs pairs) symbol text =
      (s.operator g symbol text).map (reindexed g pairs) := by
  have expects : (s.reindexed g pairs).expectsOperand = s.expectsOperand := rfl
  have begins : (s.reindexed g pairs).beginOperand g text =
      (s.beginOperand g text).map (reindexed g pairs) := beginOperand_withPairs s text
  show (s.reindexed g pairs).operator g symbol text = _
  unfold operator
  rw [expects, begins]
  split
  · split <;> rfl
  · split
    · rfl
    · split
      · rfl
      · split
        · rfl
        · split
          · exact map_bind fun _ => rfl
          · rfl

theorem lexeme_withPairs (s : Scan) (text : List Char) :
    (s.reindexed g pairs).lexeme (g.withPairs pairs) text =
      (s.lexeme g text).map fun next => (next.1.reindexed g pairs, next.2) := by
  unfold lexeme
  cases Lexeme.read? text with
  | none => rfl
  | some found =>
      obtain ⟨kind, piece⟩ := found
      cases kind with
      | separator => rfl
      | number | name =>
          dsimp only
          rw [beginOperand_withPairs]
          exact map_bind fun _ => rfl

/-- **Scanning makes the same steps**, whatever groups are open. -/
theorem step_withPairs (h : g.Rearranges pairs) (s : Scan) (text : List Char) :
    (s.reindexed g pairs).step (g.withPairs pairs) text =
      (s.step g text).map fun next => (next.1.reindexed g pairs, next.2) := by
  have delimiter := delimiterAt?_withPairs h s text
  cases hd : s.delimiterAt? g text with
  | some bracket =>
      rw [hd] at delimiter
      cases bracket with
      | opens pair =>
          rw [step_of_opens hd, step_of_opens delimiter,
            ← Grammar.reindex_indexOf (delimiterAt?_eq_opens hd).1, openGroup_withPairs h]
          exact map_bind fun _ => rfl
      | closes pair =>
          rw [step_of_closes hd, step_of_closes delimiter, closeGroup_withPairs]
          rfl
  | none =>
      rw [hd] at delimiter
      rw [step_of_none hd, step_of_none delimiter, Grammar.strayCloserAt?_withPairs h]
      cases g.strayCloserAt? text with
      | some closer => rfl
      | none =>
          rw [show (g.withPairs pairs).operatorAt? text = g.operatorAt? text from rfl]
          cases g.operatorAt? text with
          | some symbol =>
              dsimp only
              rw [operator_withPairs]
              exact map_bind fun _ => rfl
          | none => exact lexeme_withPairs s text

theorem run_withPairs (h : g.Rearranges pairs) (s : Scan) (text : List Char) :
    run (g.withPairs pairs) (s.reindexed g pairs) text =
      (run g s text).map (reindexed g pairs) := by
  fun_induction run g s text with
  | case1 s =>
      rw [run]
      rfl
  | case2 s c rest e hs =>
      rw [run, step_withPairs h, hs]
      rfl
  | case3 s c rest next count hs ih =>
      rw [run, step_withPairs h, hs]
      exact ih

end Scan

theorem tokenize_withPairs (h : g.Rearranges pairs) (input : String) :
    tokenize (g.withPairs pairs) input = tokenize g input := by
  have run : Scan.run (g.withPairs pairs) {} input.toList =
      (Scan.run g {} input.toList).map (Scan.reindexed g pairs) := Scan.run_withPairs h {} _
  unfold tokenize
  rw [run]
  cases Scan.run g {} input.toList with
  | error e => rfl
  | ok s =>
      show (s.reindexed g pairs).finish (g.withPairs pairs) = s.finish g
      unfold Scan.finish Scan.reindexed
      cases s.groups with
      | nil => rfl
      | cons group groups => simp [Grammar.pairAt_reindex h]

/-! ### Reading tokens -/

namespace Reading

theorem close_withPairs (enclosing : Enclosing) (row : List Item) :
    close (g.withPairs pairs) enclosing row = close g enclosing row := by
  cases enclosing with
  | group opener =>
      unfold close
      rw [Grammar.buildExpression_withPairs]
      rfl
  | call function opener =>
      unfold close
      rw [Grammar.buildExpression_withPairs]
      rfl

theorem step_withPairs (h : g.Rearranges pairs) (r : Reading) (token : Token) :
    step (g.withPairs pairs) r token = step g r token := by
  unfold step
  simp only [Grammar.closes_withPairs h, close_withPairs]
  rfl

theorem finish_withPairs (h : g.Rearranges pairs) (r : Reading) :
    r.finish (g.withPairs pairs) = r.finish g := by
  unfold finish
  simp only [Grammar.closerOf_withPairs h, Grammar.buildExpression_withPairs]

end Reading

namespace TokenTree

theorem ofTokens_withPairs (h : g.Rearranges pairs) (tokens : List Token) :
    ofTokens (g.withPairs pairs) tokens = ofTokens g tokens := by
  unfold ofTokens
  rw [funext₂ (Reading.step_withPairs h)]
  simp only [Reading.finish_withPairs h]

theorem ofText_withPairs (h : g.Rearranges pairs) (input : String) :
    ofText (g.withPairs pairs) input = ofText g input := by
  unfold ofText
  rw [tokenize_withPairs h]
  simp only [ofTokens_withPairs h]

end TokenTree

/-! ### Clauses about delimiters -/

def Clause.pair? : Clause → Option Parenthetical
  | .parenthetical opener closer => some ⟨opener, closer⟩
  | _ => none

namespace Declaration

variable {d d' : Declaration} {clauses clauses' : List Clause} {g' : Grammar}

def withPairs (d : Declaration) (pairs : List Parenthetical) : Declaration :=
  { d with parentheticals := pairs }

theorem collects_parentheticals : Collects parentheticals Clause.pair? :=
  ⟨rfl, fun d clause => by cases clause <;> simp [add, Clause.pair?]⟩

/-- Apart from the delimiters, a declaration is made by the other clauses. -/
theorem withPairs_addAll (d : Declaration) (pairs : List Parenthetical) (clauses : List Clause) :
    (d.addAll clauses).withPairs pairs =
      (d.withPairs pairs).addAll (clauses.filter (·.pair?.isNone)) := by
  induction clauses generalizing d with
  | nil => rfl
  | cons clause clauses ih =>
      have hcons : d.addAll (clause :: clauses) = (d.add clause).addAll clauses := rfl
      rw [hcons, ih]
      cases clause <;> rfl

theorem rearranges_assemble (pairs : List Parenthetical)
    (mem : ∀ pair, pair ∈ pairs ↔ pair ∈ d.parentheticals)
    (distinct : (d.assemble.parentheticals.map Parenthetical.opener).Nodup) :
    d.assemble.Rearranges (d.withPairs pairs).assemble.parentheticals where
  mem_iff pair := by
    simp only [assemble, withPairs, List.mem_map, mem]
    rfl
  distinct pair hpair other hother ho := List.inj_on_of_nodup_map distinct hpair hother ho
  inCase pair hpair := by
    obtain ⟨p, -, rfl⟩ := List.mem_map.mp hpair
    exact ⟨inCase_canonicalName _ _, inCase_canonicalName _ _⟩

/-- **The order of delimiters does not matter.**  Two grammars are made of the same clauses about
delimiters, in any order and anywhere among the others, and of the same other clauses, in their
order.  If no two pairs have one opener in the case of the grammar, then every text has the same
tokens under both and the same tree, or is refused for the same reason. -/
theorem build_delimiterOrder (h : (ofClauses clauses).build = .ok g)
    (h' : (ofClauses clauses').build = .ok g')
    (others : clauses'.filter (·.pair?.isNone) = clauses.filter (·.pair?.isNone))
    (delimiters : (clauses'.filterMap Clause.pair?).Perm (clauses.filterMap Clause.pair?))
    (distinct : (g.parentheticals.map Parenthetical.opener).Nodup) (input : String) :
    tokenize g' input = tokenize g input ∧
      TokenTree.ofText g' input = TokenTree.ofText g input := by
  obtain ⟨-, rfl⟩ := build_eq_ok.mp h
  obtain ⟨-, rfl⟩ := build_eq_ok.mp h'
  have mem (pair : Parenthetical) :
      pair ∈ (ofClauses clauses').parentheticals ↔ pair ∈ (ofClauses clauses).parentheticals := by
    rw [collects_parentheticals.read_ofClauses, collects_parentheticals.read_ofClauses]
    exact delimiters.mem_iff
  have same : ofClauses clauses' =
      (ofClauses clauses).withPairs (ofClauses clauses').parentheticals := by
    calc ofClauses clauses'
      _ = (empty.addAll clauses').withPairs (ofClauses clauses').parentheticals := rfl
      _ = (empty.addAll clauses).withPairs (ofClauses clauses').parentheticals := by
        rw [withPairs_addAll, others, ← withPairs_addAll]
  have rearranges := rearranges_assemble _ mem distinct
  rw [← same] at rearranges
  have assembled : (ofClauses clauses').assemble =
      (ofClauses clauses).assemble.withPairs (ofClauses clauses').assemble.parentheticals := by
    rw [same]
    rfl
  rw [assembled]
  exact ⟨tokenize_withPairs rearranges input, TokenTree.ofText_withPairs rearranges input⟩

/-- One opener begins with another one, and a pair has one symbol for both ends. -/
theorem build_delimiterOrder_sample :
    ∃ (clauses clauses' : List Clause) (g g' : Grammar), (ofClauses clauses).build = .ok g ∧
      (ofClauses clauses').build = .ok g' ∧
      clauses'.filter (·.pair?.isNone) = clauses.filter (·.pair?.isNone) ∧
      clauses.filterMap Clause.pair? = [⟨"(", ")"⟩, ⟨"((", "))"⟩, ⟨"|", "|"⟩] ∧
      clauses'.filterMap Clause.pair? = [⟨"|", "|"⟩, ⟨"((", "))"⟩, ⟨"(", ")"⟩] ∧
      (g.parentheticals.map Parenthetical.opener).Nodup ∧
      tokenize g' "((|a|))-(b)" = .ok [⟨"((", .opening, 0⟩, ⟨"|", .opening, 2⟩,
        ⟨"a", .identifier, 3⟩, ⟨"|", .closing, 4⟩, ⟨"))", .closing, 5⟩, ⟨"-", .binary, 7⟩,
        ⟨"(", .opening, 8⟩, ⟨"b", .identifier, 9⟩, ⟨")", .closing, 10⟩] ∧
      TokenTree.ofText g' "((|a|))-(b)" = TokenTree.ofText g "((|a|))-(b)" := by
  let clauses : List Clause := [.parenthetical "(" ")", .parenthetical "((" "))",
    .parenthetical "|" "|", .multary "," .list, .binary "-" .subtract, .order [",", "-"]]
  let clauses' : List Clause := [.multary "," .list, .parenthetical "|" "|",
    .binary "-" .subtract, .parenthetical "((" "))", .parenthetical "(" ")", .order [",", "-"]]
  have h : (ofClauses clauses).build = .ok (ofClauses clauses).assemble :=
    build_eq_ok.mpr ⟨by decide +kernel, rfl⟩
  have h' : (ofClauses clauses').build = .ok (ofClauses clauses').assemble :=
    build_eq_ok.mpr ⟨by decide +kernel, rfl⟩
  have distinct :
      ((ofClauses clauses).assemble.parentheticals.map Parenthetical.opener).Nodup := by
    decide +kernel
  have delimiters : (clauses'.filterMap Clause.pair?).Perm (clauses.filterMap Clause.pair?) :=
    List.reverse_perm (clauses.filterMap Clause.pair?)
  obtain ⟨tokens, tree⟩ := build_delimiterOrder h h' rfl delimiters distinct "((|a|))-(b)"
  exact ⟨clauses, clauses', _, _, h, h', rfl, rfl, rfl, distinct,
    tokens.trans (by decide +kernel), tree⟩

end Declaration

end OperatorGrammar
