import Mathlib.Order.Nat
import OperatorGrammar.Proofs.Scan.Match

/-! # The delimiter that comes next

Scanning goes through the pairs of a grammar once and keeps the best delimiter that it has met
(`Scan.matchDelimiter`).  What is best among some of the pairs is said by `Scan.Best`, which every
pair more keeps (`Best.tryCloser`, `Best.tryOpener`).  So what is found at the end can be said
without going through them in order (`matchDelimiter_eq`): of the pairs at the front of the text the
first with a longest opener is taken (`Grammar.openerAt?`), and it is compared with the pair of the
innermost group, if that can be closed (`Scan.closerAt?`). -/

namespace OperatorGrammar

/-- A delimiter that begins or ends a group, by its pair. -/
inductive Bracket where
  | opens (pair : Parenthetical)
  | closes (pair : Parenthetical)
deriving DecidableEq, Repr

variable {g : Grammar} {text : List Char} {pair other : Parenthetical}

/-! ### Openers -/

namespace Grammar

/-- The pair with the longest opener at the front of a text. -/
def openerAt? (g : Grammar) (text : List Char) : Option Parenthetical :=
  firstLongest (fun pair => symbolLength pair.opener)
    (g.parentheticals.filter fun pair => g.startsWith text pair.opener)

/-- The index of the first pair with the opener of a pair. -/
def indexOf (g : Grammar) (pair : Parenthetical) : Nat :=
  g.parentheticals.findIdx (·.opener == pair.opener)

theorem openerAt?_eq_none :
    g.openerAt? text = none ↔ ∀ pair ∈ g.parentheticals, g.startsWith text pair.opener = false := by
  unfold openerAt?
  rw [firstLongest_eq_none, List.filter_eq_nil_iff]
  simp only [Bool.not_eq_true]

/-- The opener that is taken begins the text, and no other one that does is longer. -/
theorem openerAt?_eq_some (h : g.openerAt? text = some pair) :
    pair ∈ g.parentheticals ∧ g.startsWith text pair.opener = true ∧
      ∀ other ∈ g.parentheticals, g.startsWith text other.opener = true →
        symbolLength other.opener ≤ symbolLength pair.opener := by
  obtain ⟨hmem, hmax⟩ := firstLongest_eq_some h
  obtain ⟨hp, hs⟩ := List.mem_filter.mp hmem
  exact ⟨hp, hs, fun other ho hs => hmax other (List.mem_filter.mpr ⟨ho, hs⟩)⟩

theorem find?_of_openerAt? (h : g.openerAt? text = some pair) :
    g.parentheticals.find? (·.opener == pair.opener) = some pair := by
  obtain ⟨before, after, hsplit, hshort, -⟩ := exists_append_of_firstLongest h
  obtain ⟨earlier, later, hpairs, hearlier, hlater⟩ := List.filter_eq_append_iff.mp hsplit
  obtain ⟨skipped, rest, rfl, hskipped, hbegins, -⟩ := List.filter_eq_cons_iff.mp hlater
  rw [List.find?_eq_some_iff_append]
  refine ⟨beq_self_eq_true _, earlier ++ skipped, rest, by simp [hpairs], fun other hother => ?_⟩
  rw [Bool.not_eq_true', beq_eq_false_iff_ne]
  intro heq
  have hbegins' : g.startsWith text other.opener = true := by rwa [heq]
  rcases List.mem_append.mp hother with hmem | hmem
  · have hbefore : other ∈ before := hearlier ▸ List.mem_filter.mpr ⟨hmem, hbegins'⟩
    have := hshort other hbefore
    rw [heq] at this
    exact Nat.lt_irrefl _ this
  · exact hskipped other hmem hbegins'

theorem closerOf_of_openerAt? (h : g.openerAt? text = some pair) :
    g.closerOf pair.opener = pair.closer := by
  rw [closerOf, find?_of_openerAt? h]
  rfl

theorem getElem?_indexOf (h : g.openerAt? text = some pair) :
    g.parentheticals[g.indexOf pair]? = some pair := by
  unfold indexOf
  rw [← List.find?_eq_getElem?_findIdx, find?_of_openerAt? h]

theorem pairAt_eq {index : Nat} (h : g.parentheticals[index]? = some pair) :
    g.pairAt index = pair := by
  unfold pairAt
  rw [List.getD_eq_getElem?_getD, h, Option.getD_some]

theorem pairAt_indexOf (h : g.openerAt? text = some pair) : g.pairAt (g.indexOf pair) = pair :=
  pairAt_eq (getElem?_indexOf h)

theorem openerAt?_of_getElem? {index : Nat} (found : g.parentheticals[index]? = some pair)
    (begins : g.startsWith text pair.opener = true)
    (before : ∀ j < index, ∀ other, g.parentheticals[j]? = some other →
      g.startsWith text other.opener = true →
        symbolLength other.opener < symbolLength pair.opener)
    (longest : ∀ other ∈ g.parentheticals, g.startsWith text other.opener = true →
      symbolLength other.opener ≤ symbolLength pair.opener) :
    g.openerAt? text = some pair ∧ g.indexOf pair = index := by
  obtain ⟨hlt, hget⟩ := List.getElem?_eq_some_iff.mp found
  constructor
  · refine firstLongest_eq_some_iff_append.mpr
      ⟨(g.parentheticals.take index).filter fun pair => g.startsWith text pair.opener,
        (g.parentheticals.drop (index + 1)).filter fun pair => g.startsWith text pair.opener,
        ?_, ?_, ?_⟩
    · conv_lhs => rw [← List.take_append_drop index g.parentheticals,
        List.drop_eq_getElem_cons hlt, hget]
      rw [List.filter_append, List.filter_cons, if_pos begins]
    · intro other hother
      obtain ⟨hmem, hbegins⟩ := List.mem_filter.mp hother
      obtain ⟨j, hj, rfl⟩ := List.mem_take_iff_getElem.mp hmem
      exact before j (by omega) _ (List.getElem?_eq_getElem (by omega)) hbegins
    · intro other hother
      obtain ⟨hmem, hbegins⟩ := List.mem_filter.mp hother
      exact longest other (List.mem_of_mem_drop hmem) hbegins
  · refine (List.findIdx_eq hlt).mpr ⟨by simp [hget], fun j hj => ?_⟩
    rw [beq_eq_false_iff_ne]
    intro heq
    have := before j hj _ (List.getElem?_eq_getElem (by omega)) (by rwa [heq])
    rw [heq] at this
    exact Nat.lt_irrefl _ this

end Grammar

namespace Scan

variable {s : Scan}

/-! ### The closer of the innermost group -/

/-- Whether the closer of a pair is at the front of a text and may be read there.  A pair whose two
delimiters are the same closes only where no operand is expected. -/
def mayClose (g : Grammar) (s : Scan) (text : List Char) (pair : Parenthetical) : Bool :=
  g.startsWith text pair.closer && !(s.expectsOperand && pair.opener == pair.closer)

/-- The innermost open pair, if the text begins with its closer. -/
def closerAt? (g : Grammar) (s : Scan) (text : List Char) : Option Parenthetical :=
  (s.groups.head?.bind fun group => g.parentheticals[group.index]?).filter (s.mayClose g text)

theorem closerAt?_eq_some_iff :
    s.closerAt? g text = some pair ↔
      ∃ index, s.groups.head?.map OpenGroup.index = some index ∧
        g.parentheticals[index]? = some pair ∧ s.mayClose g text pair = true := by
  unfold closerAt?
  rw [Option.filter_eq_some_iff, Option.bind_eq_some_iff]
  simp only [Option.map_eq_some_iff]
  constructor
  · rintro ⟨⟨group, hg, hpair⟩, hclose⟩
    exact ⟨group.index, ⟨group, hg, rfl⟩, hpair, hclose⟩
  · rintro ⟨_, ⟨group, hg, rfl⟩, hpair, hclose⟩
    exact ⟨⟨group, hg, hpair⟩, hclose⟩

theorem exists_group_of_closerAt? (h : s.closerAt? g text = some pair) :
    ∃ group groups, s.groups = group :: groups ∧ g.parentheticals[group.index]? = some pair := by
  obtain ⟨index, hindex, hpair, -⟩ := closerAt?_eq_some_iff.mp h
  obtain ⟨group, hhead, rfl⟩ := Option.map_eq_some_iff.mp hindex
  obtain ⟨groups, hg⟩ := List.head?_eq_some_iff.mp hhead
  exact ⟨group, groups, hg, hpair⟩

theorem closerAt?_eq_some (h : s.closerAt? g text = some pair) :
    pair ∈ g.parentheticals ∧ g.startsWith text pair.closer = true ∧
      (s.expectsOperand = true → pair.opener ≠ pair.closer) := by
  obtain ⟨index, -, hpair, hclose⟩ := closerAt?_eq_some_iff.mp h
  simp only [mayClose, Bool.and_eq_true, Bool.not_eq_true', Bool.and_eq_false_imp] at hclose
  refine ⟨List.mem_of_getElem? hpair, hclose.1, fun he => ?_⟩
  simpa using hclose.2 he

/-- The longest delimiter at the front of a text; of an opener and a closer of one length, the
closer. -/
def delimiterAt? (g : Grammar) (s : Scan) (text : List Char) : Option Bracket :=
  match s.closerAt? g text, g.openerAt? text with
  | none, none => none
  | some pair, none => some (.closes pair)
  | none, some pair => some (.opens pair)
  | some pair, some other =>
    if symbolLength pair.closer < symbolLength other.opener then some (.opens other)
    else some (.closes pair)

theorem delimiterAt?_eq_opens (h : s.delimiterAt? g text = some (.opens pair)) :
    g.openerAt? text = some pair ∧
      ∀ other, s.closerAt? g text = some other →
        symbolLength other.closer < symbolLength pair.opener := by
  unfold delimiterAt? at h
  split at h
  · cases h
  · cases h
  · next hc ho =>
    cases h
    exact ⟨ho, by simp [hc]⟩
  · next closes opens hc ho =>
    split at h
    · next hlt =>
      cases h
      refine ⟨ho, fun other hother => ?_⟩
      rw [hc] at hother
      cases hother
      exact hlt
    · cases h

theorem delimiterAt?_eq_closes (h : s.delimiterAt? g text = some (.closes pair)) :
    s.closerAt? g text = some pair ∧
      ∀ other, g.openerAt? text = some other →
        symbolLength other.opener ≤ symbolLength pair.closer := by
  unfold delimiterAt? at h
  split at h
  · cases h
  · next hc ho =>
    cases h
    exact ⟨hc, by simp [ho]⟩
  · cases h
  · next closes opens hc ho =>
    split at h
    · cases h
    · next hlt =>
      cases h
      refine ⟨hc, fun other hother => ?_⟩
      rw [ho] at hother
      cases hother
      exact Nat.le_of_not_lt hlt

theorem delimiterAt?_of_opens (ho : g.openerAt? text = some pair)
    (hc : ∀ other, s.closerAt? g text = some other →
      symbolLength other.closer < symbolLength pair.opener) :
    s.delimiterAt? g text = some (.opens pair) := by
  unfold delimiterAt?
  cases h : s.closerAt? g text with
  | none => rw [ho]
  | some other =>
      rw [ho]
      exact if_pos (hc other h)

theorem delimiterAt?_of_closes (hc : s.closerAt? g text = some pair)
    (ho : ∀ other, g.openerAt? text = some other →
      symbolLength other.opener ≤ symbolLength pair.closer) :
    s.delimiterAt? g text = some (.closes pair) := by
  unfold delimiterAt?
  rw [hc]
  cases h : g.openerAt? text with
  | none => rfl
  | some other => exact if_neg (Nat.not_lt.mpr (ho other h))

theorem delimiterAt?_eq_none_iff :
    s.delimiterAt? g text = none ↔ s.closerAt? g text = none ∧ g.openerAt? text = none := by
  unfold delimiterAt?
  cases hc : s.closerAt? g text with
  | none => cases ho : g.openerAt? text <;> simp
  | some pair =>
      cases ho : g.openerAt? text with
      | none => simp
      | some other =>
          simp only [reduceCtorEq, false_and, iff_false]
          split <;> simp

theorem delimiterAt?_eq_none (h : s.delimiterAt? g text = none) : g.openerAt? text = none :=
  (delimiterAt?_eq_none_iff.mp h).2

/-! ### The best of some pairs -/

variable {openers closers : List Parenthetical} {best : Option (Delimiter × String)}

/-- Whether a pair stands at an index of some pairs, and may be closed as that of the innermost
group. -/
structure Closes (g : Grammar) (s : Scan) (text : List Char) (closers : List Parenthetical)
    (index : Nat) (pair : Parenthetical) : Prop where
  innermost : s.groups.head?.map OpenGroup.index = some index
  found : closers[index]? = some pair
  mayClose : s.mayClose g text pair = true

/-- What is best among the openers of some pairs and the closers of some others: the first of the
longest openers, or the closer if it is no shorter than these. -/
inductive Best (g : Grammar) (s : Scan) (text : List Char) (openers closers : List Parenthetical) :
    Option (Delimiter × String) → Prop
  | none (noOpener : ∀ other ∈ openers, g.startsWith text other.opener = false)
      (noCloser : ∀ j other, ¬ Closes g s text closers j other) :
      Best g s text openers closers none
  | opens {index : Nat} {pair : Parenthetical} (found : openers[index]? = some pair)
      (begins : g.startsWith text pair.opener = true)
      (before : ∀ j < index, ∀ other, openers[j]? = some other →
        g.startsWith text other.opener = true →
          symbolLength other.opener < symbolLength pair.opener)
      (longest : ∀ other ∈ openers, g.startsWith text other.opener = true →
        symbolLength other.opener ≤ symbolLength pair.opener)
      (longer : ∀ j other, Closes g s text closers j other →
        symbolLength other.closer < symbolLength pair.opener) :
      Best g s text openers closers (some (.opens index, pair.opener))
  | closes {index : Nat} {pair : Parenthetical} (closes : Closes g s text closers index pair)
      (longest : ∀ other ∈ openers, g.startsWith text other.opener = true →
        symbolLength other.opener ≤ symbolLength pair.closer) :
      Best g s text openers closers (some (.closes index, pair.closer))

theorem closes_concat {index : Nat} :
    Closes g s text (closers ++ [other]) index pair ↔
      Closes g s text closers index pair ∨ index = closers.length ∧ pair = other ∧
        s.groups.head?.map OpenGroup.index = some index ∧ s.mayClose g text other = true := by
  constructor
  · rintro ⟨innermost, found, mayClose⟩
    obtain ⟨hlt, -⟩ := List.getElem?_eq_some_iff.mp found
    rw [List.length_append, List.length_singleton] at hlt
    rcases Nat.lt_succ_iff_lt_or_eq.mp hlt with hlt | rfl
    · rw [List.getElem?_append_left hlt] at found
      exact Or.inl ⟨innermost, found, mayClose⟩
    · rw [List.getElem?_concat_length] at found
      obtain rfl := Option.some.inj found
      exact Or.inr ⟨rfl, rfl, innermost, mayClose⟩
  · rintro (⟨innermost, found, mayClose⟩ | ⟨rfl, rfl, innermost, mayClose⟩)
    · obtain ⟨hlt, -⟩ := List.getElem?_eq_some_iff.mp found
      exact ⟨innermost, (List.getElem?_append_left hlt).trans found, mayClose⟩
    · exact ⟨innermost, List.getElem?_concat_length, mayClose⟩

theorem Best.opener_le (h : Best g s text openers closers best) (hmem : other ∈ openers)
    (begins : g.startsWith text other.opener = true) :
    ∃ delimiter symbol, best = some (delimiter, symbol) ∧
      symbolLength other.opener ≤ symbolLength symbol := by
  cases h with
  | none noOpener =>
      rw [noOpener other hmem] at begins
      cases begins
  | opens _ _ _ longest => exact ⟨_, _, rfl, longest other hmem begins⟩
  | closes _ longest => exact ⟨_, _, rfl, longest other hmem begins⟩

theorem Best.closer_le {index : Nat} (h : Best g s text openers closers best)
    (hother : Closes g s text closers index other) :
    ∃ delimiter symbol, best = some (delimiter, symbol) ∧
      symbolLength other.closer ≤ symbolLength symbol := by
  cases h with
  | none _ noCloser => exact absurd hother (noCloser _ _)
  | opens _ _ _ _ longer => exact ⟨_, _, rfl, (longer _ _ hother).le⟩
  | closes closes =>
      obtain rfl := Option.some.inj (closes.innermost.symm.trans hother.innermost)
      obtain rfl := Option.some.inj (closes.found.symm.trans hother.found)
      exact ⟨_, _, rfl, Nat.le_refl _⟩

theorem Best.tryCloser (h : Best g s text openers closers best) :
    Best g s text openers (closers ++ [pair])
      (s.tryCloser g text best pair closers.length) := by
  unfold Scan.tryCloser
  split
  · next hc =>
    simp only [Bool.and_eq_true, beq_iff_eq] at hc
    obtain ⟨⟨⟨innermost, begins⟩, place⟩, shorter⟩ := hc
    have mayClose : s.mayClose g text pair = true := Bool.and_eq_true_iff.mpr ⟨begins, place⟩
    refine Best.closes (closes_concat.mpr (Or.inr ⟨rfl, rfl, innermost, mayClose⟩)) ?_
    intro other hmem hbegins
    obtain ⟨_, symbol, rfl, hle⟩ := h.opener_le hmem hbegins
    exact hle.trans (by simpa using shorter)
  · next hc =>
    -- The closer that may be read is one of those before, or shorter than the best.
    have closer {j : Nat} {other : Parenthetical}
        (hj : Closes g s text (closers ++ [pair]) j other) :
        Closes g s text closers j other ∨ ∃ delimiter symbol, best = some (delimiter, symbol) ∧
          symbolLength other.closer < symbolLength symbol := by
      rcases closes_concat.mp hj with hj | ⟨rfl, rfl, innermost, mayClose⟩
      · exact Or.inl hj
      · have := Bool.and_eq_true_iff.mp mayClose
        simp only [innermost, this, beq_self_eq_true, Bool.true_and] at hc
        cases best with
        | none => simp at hc
        | some best => exact Or.inr ⟨_, _, rfl, by simpa using hc⟩
    cases h with
    | none noOpener noCloser =>
        refine Best.none noOpener fun j other hj => ?_
        rcases closer hj with hj | ⟨_, _, hbest, -⟩
        · exact noCloser _ _ hj
        · cases hbest
    | opens found begins before longest longer =>
        refine Best.opens found begins before longest fun j other hj => ?_
        rcases closer hj with hj | ⟨_, _, hbest, hlt⟩
        · exact longer _ _ hj
        · cases hbest
          exact hlt
    | closes closes longest =>
        exact Best.closes (closes_concat.mpr (Or.inl closes)) longest

theorem Best.tryOpener (h : Best g s text openers closers best) :
    Best g s text (openers ++ [pair]) closers
      (Scan.tryOpener g text best pair openers.length) := by
  unfold Scan.tryOpener
  split
  · next hc =>
    obtain ⟨begins, longer⟩ := Bool.and_eq_true_iff.mp hc
    have shorter {other : Parenthetical} (hmem : other ∈ openers)
        (hbegins : g.startsWith text other.opener = true) :
        symbolLength other.opener < symbolLength pair.opener := by
      obtain ⟨_, symbol, rfl, hle⟩ := h.opener_le hmem hbegins
      exact hle.trans_lt (by simpa using longer)
    refine Best.opens List.getElem?_concat_length begins ?_ ?_ ?_
    · intro j hj other hother hbegins
      rw [List.getElem?_append_left hj] at hother
      exact shorter (List.mem_of_getElem? hother) hbegins
    · intro other hmem hbegins
      rcases List.mem_append.mp hmem with hmem | hmem
      · exact (shorter hmem hbegins).le
      · rw [List.mem_singleton.mp hmem]
    · intro j other hother
      obtain ⟨_, symbol, rfl, hle⟩ := h.closer_le hother
      exact hle.trans_lt (by simpa using longer)
  · next hc =>
    have shorter (hbegins : g.startsWith text pair.opener = true) :
        ∃ delimiter symbol, best = some (delimiter, symbol) ∧
          symbolLength pair.opener ≤ symbolLength symbol := by
      rw [hbegins, Bool.true_and] at hc
      cases best with
      | none => simp at hc
      | some best => exact ⟨_, _, rfl, by simpa using hc⟩
    have still {delimiter : Delimiter} {symbol : String} (hbest : best = some (delimiter, symbol))
        (longest : ∀ other ∈ openers, g.startsWith text other.opener = true →
          symbolLength other.opener ≤ symbolLength symbol) :
        ∀ other ∈ openers ++ [pair], g.startsWith text other.opener = true →
          symbolLength other.opener ≤ symbolLength symbol := by
      intro other hmem hbegins
      rcases List.mem_append.mp hmem with hmem | hmem
      · exact longest other hmem hbegins
      · obtain rfl := List.mem_singleton.mp hmem
        obtain ⟨_, _, hfound, hle⟩ := shorter hbegins
        cases hbest.symm.trans hfound
        exact hle
    cases h with
    | none noOpener noCloser =>
        refine Best.none (fun other hmem => ?_) noCloser
        rcases List.mem_append.mp hmem with hmem | hmem
        · exact noOpener other hmem
        · rw [List.mem_singleton.mp hmem, Bool.eq_false_iff]
          intro hbegins
          obtain ⟨_, _, hbest, -⟩ := shorter hbegins
          cases hbest
    | opens found begins before longest longer =>
        obtain ⟨hlt, -⟩ := List.getElem?_eq_some_iff.mp found
        refine Best.opens ((List.getElem?_append_left hlt).trans found) begins ?_
          (still rfl longest) longer
        intro j hj other hother
        rw [List.getElem?_append_left (hj.trans hlt)] at hother
        exact before j hj other hother
    | closes closes longest => exact Best.closes closes (still rfl longest)

/-- What is kept while the pairs are gone through is the best of those that have been tried. -/
theorem best_foldl (pairs : List Parenthetical) :
    Best g s text pairs pairs (pairs.zipIdx.foldl
      (fun best (pair, index) =>
        Scan.tryOpener g text (s.tryCloser g text best pair index) pair index) none) := by
  induction pairs using List.reverseRecOn with
  | nil => exact Best.none (by simp) fun j other h => by simpa using h.found
  | append_singleton pairs pair ih =>
      rw [List.zipIdx_append, List.foldl_append]
      simpa using ih.tryCloser.tryOpener

/-! ### What is found -/

/-- The delimiter of a bracket in a state, with its symbol: an opener belongs to the first pair that
has it, and a closer to that of the innermost group. -/
def located (g : Grammar) (s : Scan) : Bracket → Delimiter × String
  | .opens pair => (.opens (g.indexOf pair), pair.opener)
  | .closes pair => (.closes ((s.groups.head?.map OpenGroup.index).getD 0), pair.closer)

/-- **The delimiter that is found by going through the pairs** is the longest one. -/
theorem matchDelimiter_eq (g : Grammar) (s : Scan) (text : List Char) :
    s.matchDelimiter g text = (s.delimiterAt? g text).map (located g s) := by
  have closes {pair : Parenthetical} (h : s.closerAt? g text = some pair) :
      ∃ index, Closes g s text g.parentheticals index pair := by
    obtain ⟨index, innermost, found, mayClose⟩ := closerAt?_eq_some_iff.mp h
    exact ⟨index, innermost, found, mayClose⟩
  have best : Best g s text g.parentheticals g.parentheticals (s.matchDelimiter g text) :=
    best_foldl g.parentheticals
  cases hbest : s.matchDelimiter g text with
  | none =>
      rw [hbest] at best
      cases best with
      | none noOpener noCloser =>
          have hc : s.closerAt? g text = none := by
            rw [Option.eq_none_iff_forall_ne_some]
            intro pair hpair
            obtain ⟨index, hindex⟩ := closes hpair
            exact noCloser index pair hindex
          rw [delimiterAt?_eq_none_iff.mpr ⟨hc, Grammar.openerAt?_eq_none.mpr noOpener⟩]
          rfl
  | some found =>
      rw [hbest] at best
      cases best with
      | opens found begins before longest longer =>
          obtain ⟨hopener, hindex⟩ := Grammar.openerAt?_of_getElem? found begins before longest
          rw [delimiterAt?_of_opens hopener fun other hother =>
            let ⟨_, h⟩ := closes hother; longer _ _ h]
          simp [located, hindex]
      | closes closes longest =>
          have hcloser := closerAt?_eq_some_iff.mpr
            ⟨_, closes.innermost, closes.found, closes.mayClose⟩
          rw [delimiterAt?_of_closes hcloser fun other hother =>
            let ⟨hmem, hbegins, _⟩ := Grammar.openerAt?_eq_some hother
            longest other hmem hbegins]
          simp [located, closes.innermost]

end Scan

end OperatorGrammar
