import Mathlib.Data.List.Chain
import OperatorGrammar.Proofs.Reading
import OperatorGrammar.Proofs.Scan.Cut
import OperatorGrammar.Proofs.Scan.LongestMatch
import OperatorGrammar.Proofs.Scan.Pieces
import OperatorGrammar.Proofs.Scan.Places

/-! # A name is read as a whole

Operators are tried before names, and it is checked only at their right edge that they do not cut a
name in two.  At the left edge nothing is checked, but nothing has to be: if symbols keep apart from
names (`Grammar.NamesApart`), no piece that a step reads contains a letter behind a character that
cannot stand in a name (`Scan.Step.beginsNoName`), and so scanning stops where a name begins
(`Scan.Visits.exists_visits_name`).  The step that is made there reads the name to its end
(`Scan.Step.readsName`). -/

namespace OperatorGrammar

variable {g : Grammar} {before name after front text piece : List Char} {symbol : String}

/-! ### Symbols and names -/

/-- No delimiter contains a character of names, and an operator that contains one consists of
them. -/
structure Grammar.NamesApart (g : Grammar) : Prop where
  delimiter : ∀ pair ∈ g.parentheticals,
    isPunctuation pair.opener = true ∧ isPunctuation pair.closer = true
  operator : ∀ symbol ∈ g.operatorSymbols,
    isNameLike symbol = true ∨ isPunctuation symbol = true

instance (g : Grammar) : Decidable g.NamesApart :=
  decidable_of_iff
    ((∀ pair ∈ g.parentheticals,
        isPunctuation pair.opener = true ∧ isPunctuation pair.closer = true) ∧
      ∀ symbol ∈ g.operatorSymbols, isNameLike symbol = true ∨ isPunctuation symbol = true)
    ⟨fun ⟨hd, ho⟩ => ⟨hd, ho⟩, fun ⟨hd, ho⟩ => ⟨hd, ho⟩⟩

theorem Grammar.namesApart_of_bundled : ∀ g ∈ bundled, g.NamesApart := by decide +kernel

/-- A name that a text holds between what stands before it and behind it: a run of characters of
names that begins with a letter and is as long as it can be. -/
structure WholeName (before name after : List Char) : Prop where
  starts : name.head?.any isNameStart = true
  chars : ∀ c ∈ name, isNameChar c = true
  left : ∀ c ∈ before.getLast?, isNameChar c = false
  right : ∀ c ∈ after.head?, isNameChar c = false

namespace WholeName

instance (before name after : List Char) : Decidable (WholeName before name after) :=
  decidable_of_iff
    (name.head?.any isNameStart = true ∧ name.all isNameChar = true ∧
      (before.getLast?.all fun c => !isNameChar c) = true ∧
      (after.head?.all fun c => !isNameChar c) = true) <| by
    simp only [List.all_eq_true, Option.all_eq_true, Bool.not_eq_true']
    exact ⟨fun ⟨hs, hc, hl, hr⟩ => ⟨hs, hc, hl, hr⟩, fun ⟨hs, hc, hl, hr⟩ => ⟨hs, hc, hl, hr⟩⟩

theorem exists_cons (h : WholeName before name after) :
    ∃ c cs, name = c :: cs ∧ isNameStart c = true := by
  cases name with
  | nil => cases h.starts
  | cons c cs => exact ⟨c, cs, rfl, h.starts⟩

theorem of_append (h : WholeName (piece ++ front) name after) : WholeName front name after := by
  refine ⟨h.starts, h.chars, fun c hc => h.left c ?_, h.right⟩
  rw [List.getLast?_append, Option.mem_def.mp hc]
  rfl

theorem takeWhile_eq (h : WholeName before name after) :
    (name ++ after).takeWhile isNameChar = name := by
  rw [List.takeWhile_append_of_pos h.chars]
  cases after with
  | nil => simp
  | cons c after => simp [h.right c rfl]

theorem namePart_eq (h : WholeName before name after) :
    Lexeme.namePart (name ++ after) = name := by
  rw [namePart_eq_takeWhile, h.takeWhile_eq]
  obtain ⟨c, cs, rfl, hc⟩ := h.exists_cons
  rintro _ ⟨⟩
  exact hc

theorem ascii (h : WholeName before name after) : ∀ c ∈ name, c.toNat < 128 :=
  fun c hc => toNat_of_isNameChar (h.chars c hc)

theorem startsWith_eq_false (h : WholeName before name after) (ne : symbol ≠ "")
    (hp : isPunctuation symbol = true) : g.startsWith (name ++ after) symbol = false := by
  rw [Bool.eq_false_iff]
  intro hs
  have hnil := namePart_eq_nil ne hp hs
  obtain ⟨c, cs, rfl, -⟩ := h.exists_cons
  rw [h.namePart_eq] at hnil
  cases hnil

end WholeName

/-! ### Where a name begins, a piece ends -/

/-- No name begins inside of a text: a letter is the first character or comes behind a character of
names. -/
def BeginsNoName (piece : List Char) : Prop :=
  piece.IsChain fun d c => isNameStart c = true → isNameChar d = true

theorem beginsNoName_of_isNameChar (h : ∀ c ∈ piece, isNameChar c = true) :
    BeginsNoName piece :=
  List.Pairwise.isChain (List.pairwise_of_forall_mem_list fun d hd _ _ _ => h d hd)

theorem beginsNoName_of_tail (h : ∀ c ∈ piece.tail, isNameStart c = false) :
    BeginsNoName piece := by
  cases piece with
  | nil => exact List.IsChain.nil
  | cons c cs =>
      have none (b : Char) : ∀ d ∈ cs, isNameStart d = true → isNameChar b = true := by
        intro d hd hstart
        rw [h d hd] at hstart
        cases hstart
      refine List.Pairwise.isChain (List.pairwise_cons.mpr ⟨none c, ?_⟩)
      exact List.pairwise_of_forall_mem_list fun b _ => none b

theorem beginsNoName_of_sameText (alike : isNameLike symbol = true ∨ isPunctuation symbol = true)
    (same : g.SameText piece symbol) : BeginsNoName piece := by
  rcases alike with hw | hp
  · exact beginsNoName_of_isNameChar (forall_of_sameText isNameChar_toLower hw same)
  · have hnone := forall_of_sameText (fun c => congrArg not (isNameChar_toLower c)) hp same
    refine beginsNoName_of_tail fun c hc => isNameStart_eq_false_of_isNameChar ?_
    simpa using hnone c (List.mem_of_mem_tail hc)

theorem isNameStart_eq_false_of_isNumeric {c : Char} (h : isNumeric c = true) :
    isNameStart c = false := by
  rcases isNumeric_iff.mp h with h | rfl | rfl | rfl
  · have hrange := toNat_of_isDigit h
    rw [Bool.eq_false_iff]
    intro hstart
    have := isNameStart_iff.mp hstart
    omega
  · rfl
  · rfl
  · rfl

/-- In a number a letter comes behind a digit only. -/
theorem IsNumber.beginsNoName (h : IsNumber piece) : BeginsNoName piece := by
  obtain ⟨mantissa, exponent, rfl, hmantissa, hlast, he⟩ := h.exists_mantissa
  refine List.isChain_append.mpr ⟨?_, ?_, fun d hd _ _ _ => isNameChar_of_isDigit (hlast d hd)⟩
  · exact beginsNoName_of_tail fun c hc =>
      isNameStart_eq_false_of_isNumeric (hmantissa c (List.mem_of_mem_tail hc))
  · exact beginsNoName_of_tail fun c hc => isNameStart_eq_false_of_isNumeric (he.isNumeric c hc)

/-- A piece that no name begins in ends where one begins. -/
theorem BeginsNoName.length_le (h : BeginsNoName piece) (whole : WholeName front name after)
    (hne : front ≠ []) (hpiece : piece <+: front ++ (name ++ after)) :
    piece.length ≤ front.length := by
  by_contra hlong
  obtain ⟨c, cs, rfl, hc⟩ := whole.exists_cons
  have hfront : front ++ [c] <+: piece := by
    refine List.prefix_of_prefix_length_le ?_ hpiece (by simp; omega)
    rw [List.prefix_append_right_inj, List.cons_append, List.cons_prefix_cons]
    exact ⟨rfl, List.nil_prefix⟩
  obtain ⟨rest, rfl⟩ := hfront
  obtain ⟨d, hd⟩ := Option.ne_none_iff_exists'.mp (mt List.getLast?_eq_none_iff.mp hne)
  unfold BeginsNoName at h
  rw [List.append_assoc, List.isChain_append] at h
  have hchar := h.2.2 d hd c rfl hc
  rw [whole.left d hd] at hchar
  cases hchar

/-! ### The token of a name -/

/-- A token of a name: an operator, or else an identifier or a function; its text is the whole name
in the case of the grammar. -/
structure NameToken (g : Grammar) (name : List Char) (t : Token) : Prop where
  text : t.text = g.canonical (String.ofList name)
  role : g.IsOperator t.text ∧ t.kind.isOperator = true ∨
    ¬ g.IsOperator t.text ∧ (t.kind = .identifier ∨ t.kind = .function)

/-- Nothing, or the implicit operator at a place. -/
def Unwritten (g : Grammar) (place : Nat) (tokens : List Token) : Prop :=
  tokens = [] ∨
    ∃ symbol, g.implicitOperator = some symbol ∧ tokens = [⟨symbol, g.infixKind symbol, place⟩]

namespace Scan

variable {s s' base : Scan} {count : Nat} {input : String} {tokens : List Token}

/-! ### What scanning makes of a name -/

/-- **No name begins inside of what a step reads.** -/
theorem Step.beginsNoName (step : Step g s text s' count) (apart : g.NamesApart) :
    BeginsNoName (text.take count) := by
  have symbolic {symbol : String} (alike : isNameLike symbol = true ∨ isPunctuation symbol = true)
      (h : g.startsWith text symbol = true) :
      BeginsNoName (text.take symbol.toList.length) :=
    beginsNoName_of_sameText alike (Grammar.sameText_take h)
  cases step with
  | opens found =>
      obtain ⟨known, begins, -⟩ := Grammar.openerAt?_eq_some (delimiterAt?_eq_opens found).1
      exact symbolic (Or.inr (apart.delimiter _ known).1) begins
  | closes found =>
      obtain ⟨known, begins, -⟩ := closerAt?_eq_some (delimiterAt?_eq_closes found).1
      exact symbolic (Or.inr (apart.delimiter _ known).2) begins
  | preUnary next | between next | postUnary next =>
      obtain ⟨known, begins⟩ := Grammar.operatorAt?_eq_some next.found
      exact symbolic (apart.operator _ known) begins
  | separator next =>
      rw [next.take_eq.1, (Lexeme.read?_eq_some next.found).1]
      refine beginsNoName_of_tail fun c hc => isNameStart_eq_false_of_isNameChar ?_
      have hsep := List.mem_takeWhile_imp (List.mem_of_mem_tail hc)
      exact isNameChar_eq_false (isLexical_of_isSeparator hsep)
  | number next =>
      obtain ⟨rfl, ne⟩ := Lexeme.read?_eq_some next.found
      rw [next.take_eq.1]
      exact (isNumber_numberPart ne).beginsNoName
  | name next =>
      obtain ⟨rfl, -⟩ := Lexeme.read?_eq_some next.found
      rw [next.take_eq.1]
      exact beginsNoName_of_isNameChar fun c hc => Lexeme.isNameChar_of_mem_namePart hc

/-- **Scanning stops where a name begins.** -/
theorem Visits.exists_visits_name (apart : g.NamesApart) (noEmpty : g.NoEmptySymbol)
    (ht : tokenize g input = .ok tokens) (whole : WholeName front name after)
    (visits : Visits g input s (front ++ (name ++ after))) :
    ∃ s', Visits g input s' (name ++ after) := by
  obtain ⟨last, hrun, -⟩ := tokenize_eq_ok.mp ht
  -- What is left before the name gets shorter with every step.
  induction hn : front.length using Nat.strongRecOn generalizing s front with
  | _ n ih =>
      by_cases hne : front = []
      · subst hne
        exact ⟨s, visits⟩
      · obtain ⟨piece, rest, next, hsplit, ne, step, -⟩ := exists_step_of_run noEmpty
          (visits.run_eq.symm.trans hrun) (by simp [hne])
        rw [hsplit] at visits
        have hbegins := step.beginsNoName apart
        rw [List.take_left] at hbegins
        have hle := hbegins.length_le whole hne ⟨rest, hsplit.symm⟩
        obtain ⟨front', rfl⟩ : piece <+: front :=
          List.prefix_of_prefix_length_le ⟨rest, hsplit.symm⟩ (List.prefix_append _ _) hle
        rw [List.append_assoc, List.append_cancel_left_eq] at hsplit
        subst hsplit
        refine ih front'.length ?_ whole.of_append (visits.step_append ne step) rfl
        have := List.length_pos_iff.mpr ne
        rw [← hn, List.length_append]
        omega

theorem Room.exists_unwritten (room : Room g s base) :
    ∃ unwritten, base.inOrder = s.inOrder ++ unwritten ∧ Unwritten g s.position unwritten := by
  cases room with
  | here => exact ⟨[], (List.append_nil _).symm, Or.inl rfl⟩
  | @behind symbol _ implicit =>
      exact ⟨_, inOrder_push _ _ _, Or.inr ⟨symbol, implicit, rfl⟩⟩

/-- An operator that begins a text as a name does is the whole name. -/
theorem OperatorNext.eq_canonical (next : OperatorNext g s (name ++ after) symbol)
    (whole : WholeName before name after) (apart : g.NamesApart) (sorts : g.SortsOperators)
    (noEmpty : g.NoEmptySymbol) :
    symbol.toList.length = name.length ∧ symbol = g.canonical (String.ofList name) := by
  obtain ⟨hmem, hbegins⟩ := Grammar.operatorAt?_eq_some next.found
  have ne := noEmpty.operator symbol hmem
  have hw : isNameLike symbol = true := by
    refine (apart.operator symbol hmem).resolve_right fun hp => ?_
    rw [whole.startsWith_eq_false ne hp] at hbegins
    cases hbegins
  obtain ⟨⟨hop, -, hsplit⟩, -⟩ := sorts.operatorAt?_eq_some_iff.mp next.found
  have hlen : symbol.toList.length = name.length := by
    rw [(splitsWord_eq_false_iff_takeWhile hw ne hbegins).mp hsplit, whole.takeWhile_eq]
  refine ⟨hlen, ?_⟩
  -- Both are the same text in the case of the grammar.
  have hsame : g.SameText name symbol := by
    have := Grammar.sameText_take hbegins
    rwa [hlen, List.take_left] at this
  have hcanonical := Grammar.sameText_canonical (g := g) whole.ascii
  refine String.toList_inj.mp (InCase.eq_of_beginsWith (sorts.inCase symbol hop)
    (inCase_canonicalName g.caseSensitive (String.ofList name))
    hbegins (Grammar.startsWith_of_sameText hcanonical after) ?_)
  exact hsame.byteLength_eq.symm.trans hcanonical.byteLength_eq

theorem LexemeNext.not_isOperator {kind : Lexeme} (next : LexemeNext g s (name ++ after) kind piece)
    (whole : WholeName before name after) (sorts : g.SortsOperators) :
    ¬ g.IsOperator (g.canonical (String.ofList name)) := by
  intro hop
  have hsame := Grammar.sameText_canonical (g := g) whole.ascii
  have hbegins := Grammar.startsWith_of_sameText hsame after
  have hsplit : splitsWord (name ++ after) (g.canonical (String.ofList name)) = false := by
    have hlen : (g.canonical (String.ofList name)).toList.length = name.length :=
      hsame.length_eq.symm
    unfold splitsWord
    rw [hlen, List.drop_left]
    cases after with
    | nil => exact Bool.and_false _
    | cons c after => simp [whole.right c rfl]
  have hnone := List.find?_eq_none.mp next.noOperator _ ((sorts.mem_iff _).mpr hop)
  rw [hbegins, hsplit] at hnone
  exact hnone rfl

/-- A step has read a name: it has made the token of the name, perhaps behind the implicit
operator. -/
def ReadsName (g : Grammar) (name : List Char) (s s' : Scan) : Prop :=
  ∃ unwritten t, s'.inOrder = s.inOrder ++ unwritten ++ [t] ∧ Unwritten g s.position unwritten ∧
    NameToken g name t ∧ t.position = s.position

theorem readsName_push {word : String} {kind : TokenKind}
    (token : NameToken g name ⟨word, kind, s.position⟩) : ReadsName g name s (s.push word kind) :=
  ⟨[], _, by simp, Or.inl rfl, token, rfl⟩

theorem Room.readsName (room : Room g s base) {word : String} {kind : TokenKind}
    (token : NameToken g name ⟨word, kind, base.position⟩) :
    ReadsName g name s (base.push word kind) := by
  obtain ⟨unwritten, hbase, hunwritten⟩ := room.exists_unwritten
  exact ⟨unwritten, _, by rw [inOrder_push, hbase], hunwritten, token, room.position_eq⟩

/-- **A step that begins with a name reads it to its end.** -/
theorem Step.readsName (step : Step g s (name ++ after) s' count)
    (whole : WholeName before name after) (apart : g.NamesApart) (sorts : g.SortsOperators)
    (noEmpty : g.NoEmptySymbol) :
    count = name.length ∧ ReadsName g name s s' := by
  have operator {symbol : String} (next : OperatorNext g s (name ++ after) symbol) :
      symbol.toList.length = name.length ∧ ∀ (kind : TokenKind) (place : Nat),
        kind.isOperator = true → NameToken g name ⟨symbol, kind, place⟩ := by
    obtain ⟨hlen, htext⟩ := next.eq_canonical whole apart sorts noEmpty
    obtain ⟨⟨hop, -⟩, -⟩ := sorts.operatorAt?_eq_some_iff.mp next.found
    exact ⟨hlen, fun _ _ hk => ⟨htext, Or.inl ⟨hop, hk⟩⟩⟩
  obtain ⟨c, cs, hcons, hc⟩ := whole.exists_cons
  cases step with
  | opens found =>
      obtain ⟨known, begins, -⟩ := Grammar.openerAt?_eq_some (delimiterAt?_eq_opens found).1
      rw [whole.startsWith_eq_false (noEmpty.delimiter _ known).1 (apart.delimiter _ known).1]
        at begins
      cases begins
  | closes found =>
      obtain ⟨known, begins, -⟩ := closerAt?_eq_some (delimiterAt?_eq_closes found).1
      rw [whole.startsWith_eq_false (noEmpty.delimiter _ known).2 (apart.delimiter _ known).2]
        at begins
      cases begins
  | preUnary next _ room =>
      obtain ⟨hlen, token⟩ := operator next
      exact ⟨hlen, room.readsName (token _ _ rfl)⟩
  | between next =>
      obtain ⟨hlen, token⟩ := operator next
      exact ⟨hlen, readsName_push (token _ _ (TokenKind.isOperator_of_isInfix
        (g.isInfix_infixKind _)))⟩
  | postUnary next =>
      obtain ⟨hlen, token⟩ := operator next
      exact ⟨hlen, readsName_push (token _ _ rfl)⟩
  | separator next =>
      obtain ⟨rfl, ne⟩ := Lexeme.read?_eq_some next.found
      refine absurd ?_ ne
      have hsep : isSeparator c = false := by
        rw [Bool.eq_false_iff]
        intro hsep
        rw [isNameStart_eq_false (isBlank_of_isSeparator hsep)] at hc
        cases hc
      rw [Lexeme.part, hcons, List.cons_append]
      exact List.takeWhile_cons_of_neg (by simp [hsep])
  | number next =>
      obtain ⟨rfl, ne⟩ := Lexeme.read?_eq_some next.found
      have hnil := Lexeme.namePart_eq_nil_of_number ne
      rw [whole.namePart_eq, hcons] at hnil
      cases hnil
  | name next room =>
      obtain ⟨rfl, -⟩ := Lexeme.read?_eq_some next.found
      have hpart : Lexeme.name.part (name ++ after) = name := whole.namePart_eq
      rw [hpart]
      refine ⟨rfl, room.readsName ⟨rfl, Or.inr ⟨next.not_isOperator whole sorts, ?_⟩⟩⟩
      exact nameKind_eq g _ _

end Scan

theorem Covers.end_le {tokens : List Token} (h : Covers g tokens text) :
    ∀ t ∈ tokens, t.position + symbolLength t.text ≤ byteLength text := by
  induction h with
  | nil => simp
  | separator _ _ ih =>
      intro t ht
      have := ih t ht
      rw [byteLength_append]
      omega
  | token _ place size _ ih =>
      rw [List.forall_mem_append, List.forall_mem_singleton, byteLength_append]
      refine ⟨fun t ht => ?_, by omega⟩
      have := ih t ht
      omega

/-- **Names are atomic.**  The symbols of the bundled grammars keep apart from names.  In every
grammar that was built and whose symbols do, a name that a text holds is read as a whole: exactly
one token of the text is the token of this name, over all its bytes.  What is written before this
token ends where the name begins or earlier, what comes behind it begins where the name ends or
later, and only the implicit operator may be put at its place. -/
theorem tokenize_wholeNames :
    (∀ g ∈ Grammar.bundled, g.NamesApart) ∧
    ∀ (d : Declaration) (g : Grammar), d.build = .ok g → g.NamesApart →
      ∀ (input : String) (tokens : List Token), tokenize g input = .ok tokens →
      ∀ before name after, input.toList = before ++ name ++ after → WholeName before name after →
        ∃ earlier unwritten t later, tokens = earlier ++ unwritten ++ t :: later ∧
          NameToken g name t ∧ t.position = byteLength before ∧
          symbolLength t.text = byteLength name ∧
          Unwritten g (byteLength before) unwritten ∧
          (∀ u ∈ writtenTokens earlier, u.position + symbolLength u.text ≤ byteLength before) ∧
          ∀ u ∈ later, byteLength before + byteLength name ≤ u.position := by
  refine ⟨Grammar.namesApart_of_bundled, ?_⟩
  intro d g hd apart input tokens ht before name after hinput whole
  have noEmpty := Grammar.noEmptySymbol hd
  have sorts : g.SortsOperators := by
    obtain ⟨-, rfl⟩ := Declaration.build_eq_ok.mp hd
    exact d.sortsOperators_assemble
  -- Scanning comes to the name, with all that stands before it accounted for.
  obtain ⟨s, visits⟩ : ∃ s, Scan.Visits g input s (name ++ after) := by
    refine Scan.Visits.exists_visits_name apart noEmpty ht whole (s := {}) ?_
    rw [← List.append_assoc, ← hinput]
    exact Scan.Visits.start
  obtain ⟨done, hdone, accounted⟩ := visits.accounted noEmpty
  obtain rfl : done = before := by
    rw [hinput, List.append_assoc] at hdone
    exact (List.append_cancel_right hdone).symm
  -- The next step reads it.
  obtain ⟨c, cs, rfl, -⟩ := whole.exists_cons
  obtain ⟨s', count, step⟩ := visits.exists_step ht
  obtain ⟨rfl, unwritten, t, hmade, hunwritten, token, place⟩ :=
    step.readsName whole apart sorts noEmpty
  obtain ⟨-, position, -⟩ := step.emits noEmpty
  -- What is left is read from behind it.
  have visits' := visits.step_append (List.cons_ne_nil c cs) step
  obtain ⟨later, htokens, hlater⟩ := visits'.exists_later noEmpty ht
  have hsame : g.SameText (c :: cs) t.text := token.text ▸ Grammar.sameText_canonical whole.ascii
  rw [accounted.place] at hunwritten place
  refine ⟨s.inOrder, unwritten, t, later, ?_, token, place, hsame.byteLength_eq.symm,
    hunwritten, accounted.covers.end_le, fun u hu => ?_⟩
  · have hinOrder : (s'.advance (c :: cs)).inOrder = s'.inOrder := rfl
    rw [htokens, hinOrder, hmade, List.append_assoc _ [t], List.singleton_append]
  · rw [← accounted.place, ← position]
    exact hlater u hu

/-- In boolean algebra `android` is a variable, and `NOT` is an operator behind it. -/
theorem tokenize_wholeNames_sample :
    Grammar.boolean.NamesApart ∧
      tokenize Grammar.boolean "android NOT b" = .ok [⟨"android", .identifier, 0⟩,
        ⟨"and", .multary, 8⟩, ⟨"not", .preUnary, 8⟩, ⟨"b", .identifier, 12⟩] ∧
      WholeName [] "android".toList " NOT b".toList ∧
      WholeName "android ".toList "NOT".toList " b".toList ∧
      ∃ earlier unwritten t later, [⟨"android", .identifier, 0⟩, ⟨"and", .multary, 8⟩,
          ⟨"not", .preUnary, 8⟩, ⟨"b", .identifier, 12⟩] = earlier ++ unwritten ++ t :: later ∧
        NameToken Grammar.boolean "NOT".toList t ∧ t.position = 8 ∧
        Unwritten Grammar.boolean 8 unwritten := by
  have hd : Declaration.boolean.build = .ok Grammar.boolean :=
    Declaration.build_eq_ok.mpr ⟨by decide +kernel, rfl⟩
  have ht : tokenize Grammar.boolean "android NOT b" = .ok [⟨"android", .identifier, 0⟩,
      ⟨"and", .multary, 8⟩, ⟨"not", .preUnary, 8⟩, ⟨"b", .identifier, 12⟩] := by decide +kernel
  have android : WholeName [] "android".toList " NOT b".toList := by decide +kernel
  have not : WholeName "android ".toList "NOT".toList " b".toList := by decide +kernel
  obtain ⟨apart, whole⟩ := tokenize_wholeNames
  have happart := apart Grammar.boolean (by simp [Grammar.bundled])
  obtain ⟨earlier, unwritten, t, later, htokens, token, place, -, hunwritten, -⟩ :=
    whole _ _ hd happart _ _ ht _ _ _ (by decide +kernel) not
  exact ⟨happart, ht, android, not, earlier, unwritten, t, later, htokens, token, place,
    hunwritten⟩

end OperatorGrammar
