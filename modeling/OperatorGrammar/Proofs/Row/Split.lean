import OperatorGrammar.TokenTree.Expression
import OperatorGrammar.Proofs.TokenTree.Order

/-! # Splitting a row at its loosest operator

The loosest operator of a row is one of its infix operators, and every other one is the same symbol
or binds more tightly (`loosest_eq_some`); there is none exactly if the row has no infix operators
(`loosest_eq_none`), and the search fails only at an operator without precedence
(`loosest_eq_error`).  The pieces of a row between the uses of a symbol are taken together with the
uses the row again (`between_splitAtSymbol`), and the symbol occurs in none of them
(`mem_of_mem_piece`). -/

namespace OperatorGrammar

namespace Item

theorem infixToken?_eq_some {item : Item} {token : Token} :
    item.infixToken? = some token ↔ item = .operator token ∧ token.kind.isInfix = true := by
  cases item with
  | operand m => simp [infixToken?]
  | operator t =>
      simp only [infixToken?, Item.operator.injEq]
      constructor
      · intro h
        split at h
        · next ht =>
          obtain rfl := Option.some.inj h
          exact ⟨rfl, ht⟩
        · cases h
      · rintro ⟨rfl, ht⟩
        rw [if_pos ht]

theorem separates_eq_true {symbol : String} {item : Item} :
    item.separates symbol = true ↔
      ∃ token, item = .operator token ∧ token.kind.isInfix = true ∧ token.text = symbol := by
  unfold separates
  constructor
  · intro h
    cases ht : item.infixToken? with
    | none =>
        rw [ht] at h
        cases h
    | some token =>
        rw [ht] at h
        obtain ⟨rfl, hk⟩ := infixToken?_eq_some.mp ht
        exact ⟨token, rfl, hk, eq_of_beq h⟩
  · rintro ⟨token, rfl, hk, rfl⟩
    rw [infixToken?_eq_some.mpr ⟨rfl, hk⟩]
    exact beq_self_eq_true token.text

/-- The infix operators of a row. -/
def infixTokens (row : List Item) : List Token := row.filterMap infixToken?

theorem mem_infixTokens {row : List Item} {token : Token} :
    token ∈ infixTokens row ↔ .operator token ∈ row ∧ token.kind.isInfix = true := by
  unfold infixTokens
  rw [List.mem_filterMap]
  constructor
  · rintro ⟨item, hi, ht⟩
    obtain ⟨rfl, hk⟩ := infixToken?_eq_some.mp ht
    exact ⟨hi, hk⟩
  · rintro ⟨hi, hk⟩
    exact ⟨.operator token, hi, infixToken?_eq_some.mpr ⟨rfl, hk⟩⟩

theorem infixTokens_append (row row' : List Item) :
    infixTokens (row ++ row') = infixTokens row ++ infixTokens row' :=
  List.filterMap_append

theorem infixTokens_cons_none {item : Item} (h : item.infixToken? = none) (row : List Item) :
    infixTokens (item :: row) = infixTokens row :=
  List.filterMap_cons_none h

theorem infixTokens_cons_some {item : Item} {token : Token} (h : item.infixToken? = some token)
    (row : List Item) : infixTokens (item :: row) = token :: infixTokens row :=
  List.filterMap_cons_some h

theorem not_separates_of_infixTokens {symbol : String} {row : List Item}
    (h : ∀ token ∈ infixTokens row, token.text ≠ symbol) :
    ∀ item ∈ row, item.separates symbol = false := by
  intro item hi
  rw [Bool.eq_false_iff]
  intro hs
  obtain ⟨token, rfl, hk, ht⟩ := separates_eq_true.mp hs
  exact h token (mem_infixTokens.mpr ⟨hi, hk⟩) ht

end Item

open Item

/-! ### The pieces of a row -/

variable {symbol : String}

theorem splitAtSymbol_ne_nil (symbol : String) (row : List Item) :
    splitAtSymbol symbol row ≠ [] := by
  cases row with
  | nil => simp [splitAtSymbol]
  | cons item rest =>
      unfold splitAtSymbol
      split
      · simp
      · split <;> simp

theorem splitAtSymbol_cons_separates {item : Item} (h : item.separates symbol = true)
    (rest : List Item) : splitAtSymbol symbol (item :: rest) = [] :: splitAtSymbol symbol rest := by
  rw [splitAtSymbol, if_pos h]

theorem splitAtSymbol_cons {item : Item} (h : item.separates symbol = false) (rest : List Item) :
    ∃ piece pieces, splitAtSymbol symbol rest = piece :: pieces ∧
      splitAtSymbol symbol (item :: rest) = (item :: piece) :: pieces := by
  obtain ⟨piece, pieces, hp⟩ := List.exists_cons_of_ne_nil (splitAtSymbol_ne_nil symbol rest)
  refine ⟨piece, pieces, hp, ?_⟩
  rw [splitAtSymbol, if_neg (by simp [h]), hp]

theorem splitAtSymbol_append {row rest piece : List Item} {pieces : List (List Item)}
    (h : ∀ item ∈ row, item.separates symbol = false)
    (hp : splitAtSymbol symbol rest = piece :: pieces) :
    splitAtSymbol symbol (row ++ rest) = (row ++ piece) :: pieces := by
  induction row with
  | nil => exact hp
  | cons item row ih =>
      rw [List.forall_mem_cons] at h
      obtain ⟨piece', pieces', hp', hq⟩ := splitAtSymbol_cons h.1 (row ++ rest)
      rw [ih h.2, List.cons.injEq] at hp'
      rw [List.cons_append, hq, ← hp'.1, ← hp'.2, List.cons_append]

theorem splitAtSymbol_of_not_separates {row : List Item}
    (h : ∀ item ∈ row, item.separates symbol = false) : splitAtSymbol symbol row = [row] := by
  have := splitAtSymbol_append h (show splitAtSymbol symbol [] = [[]] from rfl)
  rwa [List.append_nil] at this

theorem splitAtSymbol_append_cons {item : Item} (h : item.separates symbol = true)
    (row rest : List Item) : splitAtSymbol symbol (row ++ item :: rest) =
      splitAtSymbol symbol row ++ splitAtSymbol symbol rest := by
  induction row with
  | nil => simp [splitAtSymbol_cons_separates h, splitAtSymbol]
  | cons first row ih =>
      by_cases hf : first.separates symbol = true
      · rw [List.cons_append, splitAtSymbol_cons_separates hf, splitAtSymbol_cons_separates hf, ih,
          List.cons_append]
      · rw [Bool.not_eq_true] at hf
        obtain ⟨piece, pieces, hp, hq⟩ := splitAtSymbol_cons hf row
        obtain ⟨piece', pieces', hp', hq'⟩ := splitAtSymbol_cons hf (row ++ item :: rest)
        rw [ih, hp, List.cons_append, List.cons.injEq] at hp'
        rw [List.cons_append, hq', hq, ← hp'.1, ← hp'.2, List.cons_append]

/-- Rows with operators of one sort between them make one row. -/
inductive Between (P : Token → Prop) : List (List Item) → List Item → Prop
  | last (row : List Item) : Between P [row] row
  | cons {rows : List (List Item)} {row rest : List Item} {operator : Token} (sort : P operator) :
      Between P rows rest → Between P (row :: rows) (row ++ .operator operator :: rest)

theorem Between.cons_item {P : Token → Prop} {piece row : List Item} {pieces : List (List Item)}
    (h : Between P (piece :: pieces) row) (item : Item) :
    Between P ((item :: piece) :: pieces) (item :: row) := by
  cases h with
  | last => exact Between.last _
  | cons sort h =>
      rw [← List.cons_append]
      exact Between.cons sort h

/-- The uses of the symbol stand between the pieces. -/
theorem between_splitAtSymbol (symbol : String) (row : List Item) :
    Between (fun token => token.kind.isInfix = true ∧ token.text = symbol)
      (splitAtSymbol symbol row) row := by
  induction row with
  | nil => exact Between.last []
  | cons item row ih =>
      by_cases h : item.separates symbol = true
      · obtain ⟨token, rfl, sort⟩ := separates_eq_true.mp h
        rw [splitAtSymbol_cons_separates h, ← List.nil_append (Item.operator token :: row)]
        exact Between.cons sort ih
      · rw [Bool.not_eq_true] at h
        obtain ⟨piece, pieces, hp, hq⟩ := splitAtSymbol_cons h row
        rw [hq]
        exact (hp ▸ ih).cons_item item

theorem splitAtSymbol_of_between {P : Token → Prop} {rows : List (List Item)} {row : List Item}
    (uses : ∀ token, P token → token.kind.isInfix = true ∧ token.text = symbol)
    (h : Between P rows row) (hr : ∀ r ∈ rows, ∀ item ∈ r, item.separates symbol = false) :
    splitAtSymbol symbol row = rows := by
  induction h with
  | last row => exact splitAtSymbol_of_not_separates (hr row List.mem_cons_self)
  | @cons _ _ _ operator sort _ ih =>
      rw [List.forall_mem_cons] at hr
      rw [splitAtSymbol_append_cons (separates_eq_true.mpr ⟨operator, rfl, uses operator sort⟩),
        splitAtSymbol_of_not_separates hr.1, ih hr.2, List.singleton_append]

/-- The items of a piece are items of the row, and the symbol is not among them. -/
theorem mem_of_mem_piece {row piece : List Item} (hp : piece ∈ splitAtSymbol symbol row)
    {item : Item} (hi : item ∈ piece) : item ∈ row ∧ item.separates symbol = false := by
  induction row generalizing piece with
  | nil =>
      rw [splitAtSymbol, List.mem_singleton] at hp
      rw [hp] at hi
      cases hi
  | cons first row ih =>
      by_cases hf : first.separates symbol = true
      · rw [splitAtSymbol_cons_separates hf, List.mem_cons] at hp
        rcases hp with rfl | hp
        · cases hi
        · have := ih hp hi
          exact ⟨List.mem_cons_of_mem _ this.1, this.2⟩
      · rw [Bool.not_eq_true] at hf
        obtain ⟨head, pieces, hs, hq⟩ := splitAtSymbol_cons hf row
        rw [hq, List.mem_cons] at hp
        rcases hp with rfl | hp
        · rcases List.mem_cons.mp hi with rfl | hi
          · exact ⟨List.mem_cons_self, hf⟩
          · have := ih (hs ▸ List.mem_cons_self) hi
            exact ⟨List.mem_cons_of_mem _ this.1, this.2⟩
        · have := ih (hs ▸ List.mem_cons_of_mem _ hp) hi
          exact ⟨List.mem_cons_of_mem _ this.1, this.2⟩

theorem exists_mem_piece {row : List Item} {item : Item} (hi : item ∈ row)
    (hs : item.separates symbol = false) : ∃ piece ∈ splitAtSymbol symbol row, item ∈ piece := by
  induction row with
  | nil => cases hi
  | cons first row ih =>
      by_cases hf : first.separates symbol = true
      · rw [splitAtSymbol_cons_separates hf]
        rcases List.mem_cons.mp hi with rfl | hi
        · rw [hf] at hs
          cases hs
        · obtain ⟨piece, hp, hmem⟩ := ih hi
          exact ⟨piece, List.mem_cons_of_mem _ hp, hmem⟩
      · rw [Bool.not_eq_true] at hf
        obtain ⟨head, pieces, hq, hsplit⟩ := splitAtSymbol_cons hf row
        rw [hsplit]
        rcases List.mem_cons.mp hi with rfl | hi
        · exact ⟨_, List.mem_cons_self, List.mem_cons_self⟩
        · obtain ⟨piece, hp, hmem⟩ := ih hi
          rw [hq] at hp
          rcases List.mem_cons.mp hp with rfl | hp
          · exact ⟨_, List.mem_cons_self, List.mem_cons_of_mem _ hmem⟩
          · exact ⟨piece, List.mem_cons_of_mem _ hp, hmem⟩

theorem mem_infixTokens_piece {row piece : List Item} (hp : piece ∈ splitAtSymbol symbol row)
    {token : Token} (ht : token ∈ infixTokens piece) :
    token ∈ infixTokens row ∧ token.text ≠ symbol := by
  obtain ⟨hi, hk⟩ := mem_infixTokens.mp ht
  obtain ⟨hrow, hs⟩ := mem_of_mem_piece hp hi
  refine ⟨mem_infixTokens.mpr ⟨hrow, hk⟩, fun he => ?_⟩
  rw [separates_eq_true.mpr ⟨token, rfl, hk, he⟩] at hs
  cases hs

theorem two_le_length_splitAtSymbol {row : List Item} {token : Token}
    (h : token ∈ infixTokens row) : 2 ≤ (splitAtSymbol token.text row).length := by
  obtain ⟨hi, hk⟩ := mem_infixTokens.mp h
  obtain ⟨before, after, rfl⟩ := List.append_of_mem hi
  rw [splitAtSymbol_append_cons (separates_eq_true.mpr ⟨token, rfl, hk, rfl⟩), List.length_append]
  have h1 := List.length_pos_iff.mpr (splitAtSymbol_ne_nil token.text before)
  have h2 := List.length_pos_iff.mpr (splitAtSymbol_ne_nil token.text after)
  omega

/-! ### The loosest operator -/

namespace Grammar

variable {g : Grammar}

/-- Which operator is the loosest depends on the order of operations alone. -/
theorem loosest_congr {g' : Grammar} {row : List Item}
    (h : ∀ symbol, g'.precedence symbol = g.precedence symbol) :
    g'.loosest row = g.loosest row := by
  have hfrom (found : Option (Token × Nat)) :
      g'.loosestFrom found row = g.loosestFrom found row := by
    induction row generalizing found with
    | nil => rfl
    | cons item row ih => simp only [loosestFrom, ih, h]
  simp only [loosest, hfrom]

/-- The operator that is found is no tighter than the one found before and than any that follows,
and each of those has a place in the order of operations. -/
theorem loosestFrom_le {row : List Item} {found : Option (Token × Nat)} {best : Token}
    {level : Nat} (h : g.loosestFrom found row = .ok (some (best, level))) :
    (∀ token n, found = some (token, n) → level ≤ n) ∧
      ∀ token ∈ infixTokens row, ∃ n, g.precedence token.text = some n ∧ level ≤ n := by
  induction row generalizing found with
  | nil =>
      simp only [loosestFrom, Except.ok.injEq] at h
      subst h
      simp [infixTokens]
  | cons item rest ih =>
      unfold loosestFrom at h
      split at h
      · next hi =>
        rw [infixTokens_cons_none hi]
        exact ih h
      · next token hi =>
        rw [infixTokens_cons_some hi, List.forall_mem_cons]
        split at h
        · cases h
        · next n hn =>
          obtain ⟨hb, hr⟩ := ih h
          exact ⟨by simp, ⟨n, hn, hb token n rfl⟩, hr⟩
        · next n best' lowest hn =>
          obtain ⟨hb, hr⟩ := ih h
          by_cases hlt : n < lowest
          · rw [if_pos hlt] at hb
            have := hb token n rfl
            refine ⟨?_, ⟨n, hn, this⟩, hr⟩
            rintro token' n' ⟨⟩
            omega
          · rw [if_neg hlt] at hb
            have := hb best' lowest rfl
            refine ⟨?_, ⟨n, hn, by omega⟩, hr⟩
            rintro token' n' ⟨⟩
            exact this

theorem loosestFrom_precedence {row : List Item} {found : Option (Token × Nat)} {best : Token}
    {level : Nat} (h : g.loosestFrom found row = .ok (some (best, level)))
    (hf : ∀ token n, found = some (token, n) → g.precedence token.text = some n) :
    g.precedence best.text = some level := by
  induction row generalizing found with
  | nil =>
      simp only [loosestFrom, Except.ok.injEq] at h
      exact hf best level h
  | cons item rest ih =>
      unfold loosestFrom at h
      split at h
      · exact ih h hf
      · split at h
        · cases h
        · next n hn =>
          refine ih h ?_
          rintro token' n' ⟨⟩
          exact hn
        · next n best' lowest hn =>
          refine ih h ?_
          intro token' n' he
          split at he
          · cases he
            exact hn
          · exact hf token' n' he

theorem loosestFrom_eq_none {row : List Item} {found : Option (Token × Nat)} :
    g.loosestFrom found row = .ok none ↔ found = none ∧ infixTokens row = [] := by
  induction row generalizing found with
  | nil => simp [loosestFrom, infixTokens]
  | cons item rest ih =>
      unfold loosestFrom
      split
      · next hi => rw [ih, infixTokens_cons_none hi]
      · next token hi =>
        rw [infixTokens_cons_some hi]
        split
        · simp
        · simp [ih]
        · simp [ih]

theorem loosestFrom_eq_error {row : List Item} {found : Option (Token × Nat)} {e : ParseError}
    (h : g.loosestFrom found row = .error e) :
    ∃ token ∈ infixTokens row, g.precedence token.text = none ∧ e = .noPrecedence token.text := by
  induction row generalizing found with
  | nil => cases h
  | cons item rest ih =>
      unfold loosestFrom at h
      split at h
      · next hi =>
        rw [infixTokens_cons_none hi]
        exact ih h
      · next token hi =>
        rw [infixTokens_cons_some hi]
        split at h
        · next hn =>
          cases h
          exact ⟨token, List.mem_cons_self, hn, rfl⟩
        · obtain ⟨t, ht, hn⟩ := ih h
          exact ⟨t, List.mem_cons_of_mem _ ht, hn⟩
        · obtain ⟨t, ht, hn⟩ := ih h
          exact ⟨t, List.mem_cons_of_mem _ ht, hn⟩

theorem loosest_eq_none {row : List Item} : g.loosest row = .ok none ↔ infixTokens row = [] := by
  unfold loosest
  cases hf : g.loosestFrom none row with
  | error e =>
      obtain ⟨token, ht, -⟩ := loosestFrom_eq_error hf
      simp [Except.map, List.ne_nil_of_mem ht]
  | ok found =>
      cases found with
      | none => simp [Except.map, (loosestFrom_eq_none.mp hf).2]
      | some best =>
          simp only [Except.map, Option.map_some, Except.ok.injEq, reduceCtorEq, false_iff]
          intro h
          rw [loosestFrom_eq_none.mpr ⟨rfl, h⟩] at hf
          cases hf

theorem loosest_eq_error {row : List Item} {e : ParseError} (h : g.loosest row = .error e) :
    ∃ token ∈ infixTokens row, g.precedence token.text = none ∧ e = .noPrecedence token.text := by
  unfold loosest at h
  cases hf : g.loosestFrom none row with
  | error e' =>
      rw [hf] at h
      cases h
      exact loosestFrom_eq_error hf
  | ok found =>
      rw [hf] at h
      cases h

/-- The loosest operator of a row has a place in the order of operations that no infix operator of
the row comes before. -/
theorem loosest_le {row : List Item} {operator : Token}
    (h : g.loosest row = .ok (some operator)) :
    ∃ m, g.precedence operator.text = some m ∧
      ∀ token ∈ infixTokens row, ∃ n, g.precedence token.text = some n ∧ m ≤ n := by
  unfold loosest at h
  cases hf : g.loosestFrom none row with
  | error e =>
      rw [hf] at h
      cases h
  | ok found =>
      rw [hf] at h
      cases found with
      | none => cases h
      | some best =>
          cases h
          exact ⟨best.2, loosestFrom_precedence hf (by simp), (loosestFrom_le hf).2⟩

/-- The loosest operator is an infix operator of the row, and every other one is the same symbol or
binds more tightly. -/
theorem loosest_eq_some {row : List Item} {operator : Token}
    (h : g.loosest row = .ok (some operator)) :
    operator ∈ infixTokens row ∧
      ∀ token ∈ infixTokens row,
        token.text = operator.text ∨ g.Looser operator.text token.text := by
  constructor
  · obtain ⟨item, hi, ht⟩ := loosest_mem h
    exact List.mem_filterMap.mpr ⟨item, hi, ht⟩
  · intro token ht
    obtain ⟨m, hm, hle⟩ := loosest_le h
    obtain ⟨n, hn, hmn⟩ := hle token ht
    rcases Nat.lt_or_eq_of_le hmn with hlt | rfl
    · exact Or.inr (looser_iff.mpr ⟨m, n, hm, hn, hlt⟩)
    · exact Or.inl (eq_of_precedence_eq hn hm)

end Grammar

/-! ### Rows whose items are changed

An item may be changed in what neither a split nor the search for the loosest operator asks for. -/

section map

variable {f : Item → Item} {φ : Token → Token}
  (hf : ∀ item, (f item).infixToken? = item.infixToken?.map φ) (text : ∀ t, (φ t).text = t.text)

include hf text

theorem separates_map (symbol : String) (item : Item) :
    (f item).separates symbol = item.separates symbol := by
  unfold separates
  rw [hf, Option.any_map]
  congr 1
  exact funext fun t => congrArg (· == symbol) (text t)

theorem splitAtSymbol_map (symbol : String) (row : List Item) :
    splitAtSymbol symbol (row.map f) = (splitAtSymbol symbol row).map (List.map f) := by
  induction row with
  | nil => rfl
  | cons item row ih =>
      rw [List.map_cons, splitAtSymbol, splitAtSymbol, separates_map hf text, ih]
      by_cases h : item.separates symbol = true
      · rw [if_pos h, if_pos h]
        rfl
      · rw [if_neg h, if_neg h]
        cases splitAtSymbol symbol row <;> rfl

theorem loosestFrom_map (g : Grammar) (found : Option (Token × Nat)) (row : List Item) :
    g.loosestFrom (found.map fun best => (φ best.1, best.2)) (row.map f) =
      (g.loosestFrom found row).map (Option.map fun best => (φ best.1, best.2)) := by
  induction row generalizing found with
  | nil => rfl
  | cons item row ih =>
      rw [List.map_cons, Grammar.loosestFrom, Grammar.loosestFrom, hf]
      cases item.infixToken? with
      | none => exact ih found
      | some token =>
          rw [Option.map_some]
          dsimp only
          rw [text]
          cases g.precedence token.text with
          | none => rfl
          | some level =>
              cases found with
              | none => exact ih (some (token, level))
              | some best =>
                  simp only [Option.map_some]
                  rw [← ih]
                  by_cases hlt : level < best.2
                  · simp [hlt]
                  · simp [hlt]

theorem loosest_map (g : Grammar) (row : List Item) :
    g.loosest (row.map f) = (g.loosest row).map (Option.map φ) := by
  unfold Grammar.loosest
  have := loosestFrom_map hf text g none row
  rw [Option.map_none] at this
  rw [this]
  cases g.loosestFrom none row with
  | error e => rfl
  | ok found => cases found <;> rfl

end map

end OperatorGrammar
