import OperatorGrammar.Proofs.Scan.Pieces

/-! # Scanning always goes on, and in place

A text is scanned by its bytes: symbols are compared and cut off by the number of their bytes, while
the text goes on in characters.  Folded symbols match the text only up to the case of ASCII letters,
which does not change the length of a character; so wherever a symbol begins a text, the byte at
which it ends is a boundary between two characters (`Grammar.startsWith_iff_cutAt?`).  Nothing else
is ever cut off, so scanning stays on such boundaries (`Scan.Visits.inPlace`); and the index that an
open group keeps is always that of a pair of the grammar (`Scan.Step.isFirst`).  Since no symbol is
empty, every step reads a byte at least, and no text takes more steps than it has bytes
(`tokenize_progress`). -/

namespace OperatorGrammar

variable {g : Grammar} {front rest text : List Char} {symbol : String}

/-! ### Texts cut at a byte -/

/-- The two parts of a text at a byte; nothing if the byte is behind its end or inside a
character. -/
def cutAt? : Nat → List Char → Option (List Char × List Char)
  | 0, cs => some ([], cs)
  | _ + 1, [] => none
  | n + 1, c :: cs =>
    if c.utf8Size ≤ n + 1 then
      (cutAt? (n + 1 - c.utf8Size) cs).map fun (front, rest) => (c :: front, rest)
    else none

theorem cutAt?_append (front rest : List Char) :
    cutAt? (byteLength front) (front ++ rest) = some (front, rest) := by
  induction front with
  | nil => simp [cutAt?]
  | cons c cs ih =>
      obtain ⟨n, hn⟩ : ∃ n, c.utf8Size = n + 1 := Nat.exists_eq_add_one.mpr c.utf8Size_pos
      have hlength : byteLength (c :: cs) = n + byteLength cs + 1 := by
        rw [byteLength_cons, hn]
        omega
      have hrest : n + byteLength cs + 1 - c.utf8Size = byteLength cs := by omega
      rw [hlength, List.cons_append, cutAt?, if_pos (by omega), hrest, ih]
      rfl

theorem cutAt?_eq_some {n : Nat} :
    cutAt? n text = some (front, rest) ↔ text = front ++ rest ∧ byteLength front = n := by
  constructor
  · intro h
    fun_induction cutAt? n text generalizing front with
    | case1 cs =>
        cases h
        exact ⟨rfl, rfl⟩
    | case2 => cases h
    | case3 n c cs hle ih =>
        obtain ⟨⟨before, after⟩, hcut, heq⟩ := Option.map_eq_some_iff.mp h
        cases heq
        obtain ⟨rfl, hlength⟩ := ih hcut
        refine ⟨rfl, ?_⟩
        rw [byteLength_cons]
        omega
    | case4 => cases h
  · rintro ⟨rfl, rfl⟩
    exact cutAt?_append front rest

theorem utf8ByteSize_eq (text : String) : text.utf8ByteSize = byteLength text.toList := by
  have ofList (cs : List Char) : (String.ofList cs).utf8ByteSize = byteLength cs := by
    induction cs with
    | nil => rfl
    | cons c cs ih =>
        have hcons : String.ofList (c :: cs) = String.singleton c ++ String.ofList cs := by
          rw [String.singleton_eq_ofList, ← String.ofList_append]
          rfl
        rw [hcons, String.utf8ByteSize_append, String.utf8ByteSize_singleton, ih, byteLength_cons]
  rw [← ofList, String.ofList_toList]

theorem isSome_cutAt? {n : Nat} {text : String} :
    (cutAt? n text.toList).isSome = true ↔ (⟨n⟩ : String.Pos.Raw).IsValid text := by
  rw [Option.isSome_iff_exists, String.Pos.Raw.isValid_iff_exists_append]
  constructor
  · rintro ⟨⟨front, rest⟩, hcut⟩
    obtain ⟨htext, rfl⟩ := cutAt?_eq_some.mp hcut
    refine ⟨String.ofList front, String.ofList rest, ?_, ?_⟩
    · rw [← String.ofList_append, ← htext, String.ofList_toList]
    · rw [String.rawEndPos, utf8ByteSize_eq, String.toList_ofList]
  · rintro ⟨front, rest, rfl, hn⟩
    obtain rfl : n = byteLength front.toList := by
      rw [← utf8ByteSize_eq]
      exact congrArg String.Pos.Raw.byteIdx hn
    rw [String.toList_append]
    exact ⟨_, cutAt?_append _ _⟩

namespace Grammar

theorem cutAt?_of_startsWith (h : g.startsWith text symbol = true) :
    cutAt? (symbolLength symbol) text =
      some (text.take symbol.toList.length, text.drop symbol.toList.length) := by
  have hcut := cutAt?_append (text.take symbol.toList.length) (text.drop symbol.toList.length)
  rwa [List.take_append_drop, (sameText_take h).byteLength_eq] at hcut

/-- A text begins with a symbol exactly if it can be cut behind as many bytes and the part that is
cut off is the symbol. -/
theorem startsWith_iff_cutAt? :
    g.startsWith text symbol = true ↔
      ∃ front rest, cutAt? (symbolLength symbol) text = some (front, rest) ∧
        g.SameText front symbol := by
  refine ⟨fun h => ⟨_, _, cutAt?_of_startsWith h, sameText_take h⟩, ?_⟩
  rintro ⟨front, rest, hcut, same⟩
  obtain ⟨rfl, -⟩ := cutAt?_eq_some.mp hcut
  exact startsWith_of_sameText same rest

end Grammar

/-! ### The indices of open groups -/

namespace Scan

variable {s s' : Scan} {n count : Nat} {input : String}

/-- An index is that of a pair, which is the first one with its opener. -/
def IsFirst (g : Grammar) (index : Nat) : Prop :=
  ∃ pair, g.parentheticals[index]? = some pair ∧
    g.parentheticals.findIdx? (·.opener == pair.opener) = some index

theorem isFirst_indexOf {pair : Parenthetical} (h : g.openerAt? text = some pair) :
    IsFirst g (g.indexOf pair) := by
  have found := Grammar.getElem?_indexOf h
  obtain ⟨hlt, -⟩ := List.getElem?_eq_some_iff.mp found
  exact ⟨pair, found, List.findIdx?_eq_some_iff_findIdx_eq.mpr ⟨hlt, rfl⟩⟩

theorem Step.isFirst (step : Step g s text s' count)
    (h : ∀ group ∈ s.groups, IsFirst g group.index) :
    ∀ group ∈ s'.groups, IsFirst g group.index := by
  cases step with
  | opens found room =>
      have first := isFirst_indexOf (delimiterAt?_eq_opens found).1
      exact List.forall_mem_cons.mpr ⟨first, room.groups_eq ▸ h⟩
  | closes => exact fun group hmem => h group (List.mem_of_mem_tail hmem)
  | preUnary _ _ room | number _ room | name _ room =>
      rw [← room.groups_eq] at h
      exact h
  | between | postUnary | separator => exact h

/-! ### What is cut off -/

/-- The symbols that are cut off in a state: the delimiter that comes next, and the operators that
the text begins with. -/
inductive CutOff (g : Grammar) (s : Scan) (text : List Char) : String → Prop
  | delimiter {delimiter : Delimiter} {symbol : String}
      (found : s.matchDelimiter g text = some (delimiter, symbol)) : CutOff g s text symbol
  | operator {symbol : String} (known : symbol ∈ g.operatorSymbols)
      (begins : g.startsWith text symbol = true) : CutOff g s text symbol

theorem CutOff.startsWith (h : CutOff g s text symbol) : g.startsWith text symbol = true := by
  cases h with
  | delimiter found =>
      rw [matchDelimiter_eq, Option.map_eq_some_iff] at found
      obtain ⟨bracket, found, hlocated⟩ := found
      cases bracket with
      | opens pair =>
          cases hlocated
          exact (Grammar.openerAt?_eq_some (delimiterAt?_eq_opens found).1).2.1
      | closes pair =>
          cases hlocated
          exact (closerAt?_eq_some (delimiterAt?_eq_closes found).1).2.1
  | operator _ begins => exact begins

/-- Nothing is out of place in a state: what is left is the input behind a boundary of its
characters, the symbols that are cut off from it end at such boundaries, and the index of every open
group is that of a pair. -/
structure InPlace (g : Grammar) (input : String) (s : Scan) (text : List Char) : Prop where
  boundary : (⟨s.position⟩ : String.Pos.Raw).IsValid input
  within : s.position ≤ input.utf8ByteSize
  goesOn : s.position < input.utf8ByteSize ↔ text ≠ []
  left : ∃ done, cutAt? s.position input.toList = some (done, text)
  symbols : ∀ symbol, CutOff g s text symbol → cutAt? (symbolLength symbol) text =
    some (text.take symbol.toList.length, text.drop symbol.toList.length)
  groups : ∀ group ∈ s.groups, ∃ pair, g.parentheticals[group.index]? = some pair ∧
    g.parentheticals.findIdx? (·.opener == pair.opener) = some group.index

theorem Visits.isFirst (h : Visits g input s text) :
    ∀ group ∈ s.groups, IsFirst g group.index := by
  induction h with
  | start => simp
  | step _ step ih => exact step.isFirst ih

/-- **Scanning stays in place.** -/
theorem Visits.inPlace (noEmpty : g.NoEmptySymbol) (h : Visits g input s text) :
    InPlace g input s text := by
  obtain ⟨done, hinput, accounted⟩ := h.accounted noEmpty
  have hcut : cutAt? s.position input.toList = some (done, text) :=
    cutAt?_eq_some.mpr ⟨hinput, accounted.place.symm⟩
  have hsize : input.utf8ByteSize = s.position + byteLength text := by
    rw [utf8ByteSize_eq, hinput, byteLength_append, accounted.place]
  refine ⟨isSome_cutAt?.mp (Option.isSome_iff_exists.mpr ⟨_, hcut⟩), by omega, ?_, ⟨done, hcut⟩,
    fun symbol hs => Grammar.cutAt?_of_startsWith hs.startsWith,
    h.isFirst⟩
  constructor
  · rintro hlt rfl
    rw [byteLength_nil] at hsize
    omega
  · intro hne
    have := byteLength_pos hne
    omega

/-! ### Steps are counted by bytes -/

/-- The states of scanning an input with the number of steps that lead to them. -/
inductive VisitsAfter (g : Grammar) (input : String) : Nat → Scan → List Char → Prop
  | start : VisitsAfter g input 0 {} input.toList
  | step {n : Nat} {s s' : Scan} {c : Char} {rest : List Char} {count : Nat} :
      VisitsAfter g input n s (c :: rest) → Step g s (c :: rest) s' count →
        VisitsAfter g input (n + 1) (s'.advance (c :: rest.take (count - 1)))
          (rest.drop (count - 1))

theorem VisitsAfter.visits (h : VisitsAfter g input n s text) : Visits g input s text := by
  induction h with
  | start => exact Visits.start
  | step _ step ih => exact ih.step step

/-- **Every step reads a byte at least.** -/
theorem Step.position_lt {c : Char} {cs : List Char} (step : Step g s (c :: cs) s' count)
    (noEmpty : g.NoEmptySymbol) :
    s.position < (s'.advance (c :: cs.take (count - 1))).position := by
  obtain ⟨-, position, -⟩ := step.emits noEmpty
  have pos := byteLength_pos (List.cons_ne_nil c (cs.take (count - 1)))
  rw [← position]
  exact Nat.lt_add_of_pos_right pos

theorem VisitsAfter.le_position (noEmpty : g.NoEmptySymbol) (h : VisitsAfter g input n s text) :
    n ≤ s.position := by
  induction h with
  | start => exact Nat.zero_le _
  | step visits step ih =>
      exact Nat.lt_of_le_of_lt ih (step.position_lt noEmpty)

theorem VisitsAfter.exists_last (h : VisitsAfter g input n s text) :
    ∃ n last left, VisitsAfter g input n last left ∧
      (left = [] ∧ run g s text = .ok last ∨
        left ≠ [] ∧ ∃ e, last.step g left = .error e ∧ run g s text = .error e) := by
  fun_induction run g s text generalizing n with
  | case1 s => exact ⟨n, s, [], h, Or.inl ⟨rfl, rfl⟩⟩
  | case2 s c rest e hstep =>
      exact ⟨n, s, c :: rest, h, Or.inr ⟨List.cons_ne_nil _ _, e, hstep, rfl⟩⟩
  | case3 s c rest next count hstep ih => exact ih (h.step (step_eq_ok.mp hstep))

end Scan

/-- **Scanning always goes on, and in place.**  In a grammar that was built, nothing is out of place
in any state that scanning a text comes to, and if something is left of the text there, the next
step either fails or reads a byte at least.  So no text takes more steps than it has bytes, the one
that fails included: behind them either nothing is left, and the tokens of the text are those of the
last state, or the step that fails gives the error of the text. -/
theorem tokenize_progress {d : Declaration} (hd : d.build = .ok g) (input : String) :
    (∀ n s text, Scan.VisitsAfter g input n s text →
      Scan.InPlace g input s text ∧ n ≤ s.position ∧
        (text ≠ [] → (∃ e, s.step g text = .error e) ∨
          ∃ s' count, s.step g text = .ok (s', count) ∧
            Scan.VisitsAfter g input (n + 1) (s'.advance (text.take count)) (text.drop count) ∧
            s.position + 1 ≤ (s'.advance (text.take count)).position)) ∧
    ∃ n s text, Scan.VisitsAfter g input n s text ∧
      (text = [] ∧ n ≤ input.utf8ByteSize ∧ tokenize g input = s.finish g ∨
        text ≠ [] ∧ n + 1 ≤ input.utf8ByteSize ∧
          ∃ e, s.step g text = .error e ∧ tokenize g input = .error e) := by
  have noEmpty := Grammar.noEmptySymbol hd
  constructor
  · intro n s text visits
    refine ⟨visits.visits.inPlace noEmpty, visits.le_position noEmpty, fun hne => ?_⟩
    obtain ⟨c, rest, rfl⟩ := List.exists_cons_of_ne_nil hne
    cases hstep : s.step g (c :: rest) with
    | error e => exact Or.inl ⟨e, rfl⟩
    | ok next =>
        obtain ⟨s', count⟩ := next
        have step := Scan.step_eq_ok.mp hstep
        obtain ⟨pos, -⟩ := step.emits noEmpty
        refine Or.inr ⟨s', count, rfl, ?_⟩
        rw [List.take_cons pos, List.drop_cons pos]
        exact ⟨visits.step step, step.position_lt noEmpty⟩
  · have begin : Scan.VisitsAfter g input 0 {} input.toList := Scan.VisitsAfter.start
    obtain ⟨n, last, left, visits, ends⟩ := begin.exists_last
    have inPlace := visits.visits.inPlace noEmpty
    have hle := visits.le_position noEmpty
    refine ⟨n, last, left, visits, ?_⟩
    unfold tokenize
    rcases ends with ⟨rfl, hrun⟩ | ⟨hne, e, hstep, hrun⟩
    · rw [hrun]
      exact Or.inl ⟨rfl, hle.trans inPlace.within, rfl⟩
    · rw [hrun]
      have hlt := inPlace.goesOn.mpr hne
      exact Or.inr ⟨hne, by omega, e, hstep, rfl⟩

/-- The operator `ÉT`, which is folded to two characters of three bytes, at the second byte of a
text. -/
theorem tokenize_progress_sample :
    ∃ (d : Declaration) (g : Grammar) (s : Scan), d.build = .ok g ∧ "ét" ∈ g.operatorSymbols ∧
      Scan.VisitsAfter g "1éT 2" 1 s "éT 2".toList ∧
      (⟨s.position⟩ : String.Pos.Raw).IsValid "1éT 2" ∧ cutAt? 2 "1éT 2".toList = none ∧
      cutAt? (symbolLength "ét") "éT 2".toList = some ("éT".toList, " 2".toList) ∧
      ∃ n last, Scan.VisitsAfter g "1éT 2" n last [] ∧ n ≤ "1éT 2".utf8ByteSize ∧
        tokenize g "1éT 2" = last.finish g := by
  let d : Declaration := Declaration.boolean.add (.binary "ÉT" .conjunction)
  have hd : d.build = .ok d.assemble := Declaration.build_eq_ok.mpr ⟨by decide +kernel, rfl⟩
  have known : "ét" ∈ d.assemble.operatorSymbols := by decide +kernel
  have hinput : "1éT 2".toList = '1' :: "éT 2".toList := by decide
  have first : Scan.step d.assemble {} ('1' :: "éT 2".toList) =
      .ok (Scan.push {} "1" .number, 1) := by decide +kernel
  have begin : Scan.VisitsAfter d.assemble "1éT 2" 0 {} ('1' :: "éT 2".toList) :=
    hinput ▸ Scan.VisitsAfter.start
  have visits := begin.step (Scan.step_eq_ok.mp first)
  obtain ⟨states, n, last, left, visits', ends⟩ := tokenize_progress hd "1éT 2"
  obtain ⟨inPlace, -⟩ := states 1 _ _ visits
  refine ⟨d, d.assemble, _, hd, known, visits, inPlace.boundary, by decide, ?_, n, last, ?_⟩
  · exact inPlace.symbols "ét" (Scan.CutOff.operator known (by decide +kernel))
  · rcases ends with ⟨rfl, hle, htokens⟩ | ⟨-, -, e, -, he⟩
    · exact ⟨visits', hle, htokens⟩
    · have succeeds : (tokenize d.assemble "1éT 2").isOk = true := by decide +kernel
      rw [he] at succeeds
      cases succeeds

end OperatorGrammar
