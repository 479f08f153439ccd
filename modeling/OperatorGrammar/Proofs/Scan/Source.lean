import OperatorGrammar.Grammar.Bundled
import OperatorGrammar.Proofs.Guarantees
import OperatorGrammar.Proofs.Scan.Lexeme
import OperatorGrammar.Proofs.Scan.Visited

/-! # The text behind the tokens

A step of scanning reads a piece of the text that is not empty.  It makes no token of separators and
one token of everything else, at the place where the piece begins; and it may put the implicit
operator before this token, at the same place (`Scan.Step.emits`).  So the tokens are in the order
of their places, the ones that were put in are those that share the place of the next one, and the
others together with the separators between them are the text (`tokenize_covers`). -/

namespace OperatorGrammar

variable {g : Grammar} {piece text done : List Char} {symbol : String} {tokens new : List Token}

/-! ### Pieces of text and what they are a piece for -/

theorem lowercaseAfter_of_ascii {before : List Char} (h : ∀ c ∈ piece, c.toNat < 128) :
    lowercaseAfter before piece = piece.map Char.toLower := by
  induction piece generalizing before with
  | nil => rfl
  | cons c cs ih =>
      obtain ⟨hc, hcs⟩ := List.forall_mem_cons.mp h
      have hsigma : c ≠ 'Σ' := by
        rintro rfl
        revert hc
        decide
      rw [lowercaseAfter, if_neg hsigma, lowercaseChar, if_pos hc, ih hcs]
      rfl

/-- A piece of text is a symbol, up to the case of ASCII letters where case does not count. -/
def Grammar.SameText (g : Grammar) (piece : List Char) (symbol : String) : Prop :=
  List.Forall₂ (fun c d => sameChar g.caseSensitive c d = true) piece symbol.toList

namespace Grammar

theorem sameText_ofList (g : Grammar) (piece : List Char) :
    g.SameText piece (String.ofList piece) := by
  unfold SameText
  rw [String.toList_ofList, List.forall₂_same]
  intro c _
  unfold sameChar
  split <;> exact beq_self_eq_true _

theorem SameText.byteLength_eq (h : g.SameText piece symbol) :
    byteLength piece = symbolLength symbol := by
  unfold SameText at h
  unfold symbolLength
  generalize symbol.toList = ds at h ⊢
  induction h with
  | nil => rfl
  | cons hc _ ih => rw [byteLength_cons, byteLength_cons, sameChar_utf8Size hc, ih]

theorem SameText.ne_nil (h : g.SameText piece symbol) (hs : symbol ≠ "") : piece ≠ [] := by
  rintro rfl
  exact hs (String.toList_eq_nil_iff.mp (List.forall₂_nil_left_iff.mp h))

theorem sameText_take (h : g.startsWith text symbol = true) :
    g.SameText (text.take symbol.toList.length) symbol := by
  unfold startsWith at h
  unfold SameText
  generalize symbol.toList = ds at h ⊢
  induction ds generalizing text with
  | nil => exact List.Forall₂.nil
  | cons d ds ih =>
      cases text with
      | nil => cases h
      | cons c cs =>
          obtain ⟨hc, hds⟩ := Bool.and_eq_true_iff.mp h
          exact List.Forall₂.cons hc (ih hds)

theorem startsWith_of_sameText (h : g.SameText piece symbol) (rest : List Char) :
    g.startsWith (piece ++ rest) symbol = true := by
  unfold SameText at h
  unfold startsWith
  generalize symbol.toList = ds at h ⊢
  induction h with
  | nil => unfold beginsWith; rfl
  | cons hc _ ih => exact Bool.and_eq_true_iff.mpr ⟨hc, ih⟩

theorem sameText_canonical (h : ∀ c ∈ piece, c.toNat < 128) :
    g.SameText piece (g.canonical (String.ofList piece)) := by
  unfold canonical canonicalName
  split
  · exact sameText_ofList g piece
  · next hcase =>
    unfold SameText lowercase
    rw [String.toList_ofList, String.toList_ofList, lowercaseAfter_of_ascii h,
      List.forall₂_map_right_iff, List.forall₂_same]
    intro c _
    unfold sameChar
    rw [if_neg hcase, toLower_toLower]
    exact beq_self_eq_true _

end Grammar

/-! ### What a step makes of what it reads -/

namespace Scan

variable {s s' base : Scan} {count : Nat}

/-- The tokens that a step has made of a piece of text: none of separators, and else one, perhaps
behind the implicit operator.  They stand where the piece begins. -/
inductive Emits (g : Grammar) (s s' : Scan) (piece : List Char) : Prop
  | nothing (tokens : s'.inOrder = s.inOrder) (blank : ∀ c ∈ piece, isSeparator c = true)
  | token {t : Token} (tokens : s'.inOrder = s.inOrder ++ [t]) (place : t.position = s.position)
      (same : g.SameText piece t.text)
  | behind {t u : Token} (tokens : s'.inOrder = s.inOrder ++ [t, u])
      (symbol : g.implicitOperator = some t.text) (kind : t.kind = g.infixKind t.text)
      (unwritten : t.position = s.position) (place : u.position = s.position)
      (same : g.SameText piece u.text)

theorem Room.emits (room : Room g s base) {word : String} {kind : TokenKind}
    (same : g.SameText piece word)
    (tokens : s'.inOrder = base.inOrder ++ [⟨word, kind, base.position⟩]) : Emits g s s' piece := by
  cases room with
  | here => exact Emits.token tokens rfl same
  | @behind symbol _ implicit =>
      refine Emits.behind (t := ⟨symbol, g.infixKind symbol, s.position⟩)
        (u := ⟨word, kind, s.position⟩) ?_ implicit rfl rfl rfl same
      rw [tokens, inOrder_push, List.append_assoc]
      rfl

theorem Room.position_eq (room : Room g s base) : base.position = s.position := by
  cases room with
  | here => rfl
  | behind => rfl

theorem length_pos_of_ne_empty (ne : symbol ≠ "") : 0 < symbol.toList.length :=
  List.length_pos_iff.mpr (mt String.toList_eq_nil_iff.mp ne)

theorem LexemeNext.take_eq {kind : Lexeme} (next : LexemeNext g s text kind piece) :
    text.take piece.length = piece ∧ 0 < piece.length := by
  obtain ⟨rfl, ne⟩ := Lexeme.read?_eq_some next.found
  exact ⟨(List.prefix_iff_eq_take.mp (Lexeme.part_isPrefix kind text)).symm,
    List.length_pos_iff.mpr ne⟩

/-- **What a step reads.** -/
theorem Step.emits (step : Step g s text s' count) (ne : g.NoEmptySymbol) :
    0 < count ∧ s'.position = s.position ∧ Emits g s s' (text.take count) := by
  have operator {symbol : String} (next : OperatorNext g s text symbol) :
      0 < symbol.toList.length ∧ g.SameText (text.take symbol.toList.length) symbol := by
    obtain ⟨known, begins⟩ := Grammar.operatorAt?_eq_some next.found
    exact ⟨length_pos_of_ne_empty (ne.operator _ known), Grammar.sameText_take begins⟩
  cases step with
  | @opens pair base found room =>
      obtain ⟨known, begins, -⟩ := Grammar.openerAt?_eq_some (delimiterAt?_eq_opens found).1
      exact ⟨length_pos_of_ne_empty (ne.delimiter pair known).1, room.position_eq,
        room.emits (Grammar.sameText_take begins) (inOrder_push _ _ _)⟩
  | closes found =>
      obtain ⟨known, begins, -⟩ := closerAt?_eq_some (delimiterAt?_eq_closes found).1
      exact ⟨length_pos_of_ne_empty (ne.delimiter _ known).2, rfl,
        Emits.token (inOrder_push _ _ _) rfl (Grammar.sameText_take begins)⟩
  | preUnary next _ room =>
      obtain ⟨pos, same⟩ := operator next
      exact ⟨pos, room.position_eq, room.emits same (inOrder_push _ _ _)⟩
  | between next | postUnary next =>
      obtain ⟨pos, same⟩ := operator next
      exact ⟨pos, rfl, Emits.token (inOrder_push _ _ _) rfl same⟩
  | separator next =>
      obtain ⟨htake, pos⟩ := next.take_eq
      refine ⟨pos, rfl, Emits.nothing rfl ?_⟩
      rw [htake, (Lexeme.read?_eq_some next.found).1]
      exact fun _ => List.mem_takeWhile_imp
  | @number piece base next room =>
      obtain ⟨htake, pos⟩ := next.take_eq
      refine ⟨pos, room.position_eq, ?_⟩
      rw [htake]
      exact room.emits (g.sameText_ofList piece) (inOrder_push _ _ _)
  | @name piece base next room =>
      obtain ⟨htake, pos⟩ := next.take_eq
      refine ⟨pos, room.position_eq, ?_⟩
      rw [htake]
      refine room.emits (Grammar.sameText_canonical fun c hc => ?_) (inOrder_push _ _ _)
      rw [(Lexeme.read?_eq_some next.found).1] at hc
      exact toNat_of_isNameChar (Lexeme.isNameChar_of_mem_namePart hc)

/-! ### What all steps make of the text -/

/-- Whether a step has put a token behind some tokens, and the token that it has read behind it. -/
def Inserted (g : Grammar) (input : String) (before : List Token) (t : Token) : Prop :=
  ∃ s c rest s' count u, Visits g input s (c :: rest) ∧ s.step g (c :: rest) = .ok (s', count) ∧
    s.inOrder = before ∧ s'.inOrder = before ++ [t, u]

end Scan

/-- The tokens without those that stand where the next one stands. -/
def writtenTokens : List Token → List Token
  | [] => []
  | t :: rest =>
    if rest.head?.any fun u => u.position == t.position then writtenTokens rest
    else t :: writtenTokens rest

/-- Some tokens and separators between them are a text: each token stands at its byte, and there the
text is what the token says, over as many bytes. -/
inductive Covers (g : Grammar) : List Token → List Char → Prop
  | nil : Covers g [] []
  | separator {tokens : List Token} {text : List Char} {c : Char} (before : Covers g tokens text)
      (blank : isSeparator c = true) : Covers g tokens (text ++ [c])
  | token {tokens : List Token} {text piece : List Char} {t : Token} (before : Covers g tokens text)
      (place : t.position = byteLength text) (size : byteLength piece = symbolLength t.text)
      (same : g.SameText piece t.text) : Covers g (tokens ++ [t]) (text ++ piece)

theorem Covers.separators (h : Covers g tokens text) (blank : ∀ c ∈ piece, isSeparator c = true) :
    Covers g tokens (text ++ piece) := by
  induction piece generalizing text with
  | nil => rwa [List.append_nil]
  | cons c cs ih =>
      obtain ⟨hc, hcs⟩ := List.forall_mem_cons.mp blank
      rw [List.append_cons]
      exact ih (h.separator hc) hcs

theorem writtenTokens_append (h : ∀ t ∈ tokens, ∀ u ∈ new, t.position < u.position) :
    writtenTokens (tokens ++ new) = writtenTokens tokens ++ writtenTokens new := by
  induction tokens with
  | nil => rfl
  | cons t rest ih =>
      obtain ⟨ht, hrest⟩ := List.forall_mem_cons.mp h
      rw [List.cons_append, writtenTokens, writtenTokens, ih hrest]
      cases rest with
      | cons u rest =>
          by_cases hu : u.position = t.position
          · simp [hu]
          · simp [hu]
      | nil =>
          cases new with
          | nil => rfl
          | cons u new =>
              have apart : u.position ≠ t.position := Nat.ne_of_gt (ht u List.mem_cons_self)
              simp [apart]

namespace Scan

variable {s s' base : Scan} {count : Nat}

/-- The tokens of one step stand at one place, are at most two, and cover what was read. -/
theorem Emits.exists_new (h : Emits g s s' piece) :
    ∃ new, s'.inOrder = s.inOrder ++ new ∧ (∀ t ∈ new, t.position = s.position) ∧
      new.length ≤ 2 ∧
      ∀ tokens text, Covers g tokens text → s.position = byteLength text →
        Covers g (tokens ++ writtenTokens new) (text ++ piece) := by
  cases h with
  | nothing tokens blank =>
      refine ⟨[], by rw [tokens, List.append_nil], by simp, by simp, fun ts text hts _ => ?_⟩
      rw [show writtenTokens [] = [] from rfl, List.append_nil]
      exact hts.separators blank
  | @token t tokens place same =>
      refine ⟨[t], tokens, by simpa using place, by simp, fun ts text hts hplace => ?_⟩
      rw [show writtenTokens [t] = [t] from rfl]
      exact hts.token (place.trans hplace) same.byteLength_eq same
  | @behind t u tokens symbol kind unwritten place same =>
      refine ⟨[t, u], tokens, by simp [unwritten, place], by simp, fun ts text hts hplace => ?_⟩
      have hwritten : writtenTokens [t, u] = [u] := by simp [writtenTokens, unwritten, place]
      rw [hwritten]
      exact hts.token (place.trans hplace) same.byteLength_eq same

theorem append_eq_append_cons_cons {t u : Token} {before after : List Token}
    (h : tokens ++ new = before ++ t :: u :: after) :
    (∃ rest, tokens = before ++ t :: u :: rest) ∨ (tokens = before ++ [t] ∧ new = u :: after) ∨
      ∃ earlier, before = tokens ++ earlier ∧ new = earlier ++ t :: u :: after := by
  rcases List.append_eq_append_iff.mp h with ⟨earlier, hbefore, hnew⟩ | ⟨later, htokens, hlater⟩
  · exact Or.inr (Or.inr ⟨earlier, hbefore, hnew⟩)
  · cases later with
    | nil =>
        refine Or.inr (Or.inr ⟨[], ?_, ?_⟩)
        · simpa using htokens.symm
        · simpa using hlater.symm
    | cons v later =>
        rw [List.cons_append, List.cons.injEq] at hlater
        obtain ⟨rfl, hlater⟩ := hlater
        cases later with
        | nil => exact Or.inr (Or.inl ⟨htokens, hlater.symm⟩)
        | cons w later =>
            rw [List.cons_append, List.cons.injEq] at hlater
            obtain ⟨rfl, -⟩ := hlater
            exact Or.inl ⟨later, htokens⟩

theorem nil_of_length_le_two {t u : Token} {before after : List Token}
    (h : (before ++ t :: u :: after).length ≤ 2) : before = [] ∧ after = [] := by
  rw [List.length_append, List.length_cons, List.length_cons] at h
  exact ⟨List.length_eq_zero_iff.mp (by omega), List.length_eq_zero_iff.mp (by omega)⟩

/-- What has been read and the tokens that have been made of it. -/
structure Accounted (g : Grammar) (input : String) (s : Scan) (done : List Char) : Prop where
  place : s.position = byteLength done
  covers : Covers g (writtenTokens s.inOrder) done
  earlier : ∀ t ∈ s.inOrder, t.position < s.position
  sorted : s.inOrder.Pairwise fun t u => t.position ≤ u.position
  inserted : ∀ before t u after, s.inOrder = before ++ t :: u :: after → t.position = u.position →
    Inserted g input before t

theorem Accounted.step (h : Accounted g input s done) (emits : Emits g s s' piece)
    (position : s'.position = s.position) (pos : 0 < byteLength piece)
    (inserted : ∀ t u, s'.inOrder = s.inOrder ++ [t, u] → Inserted g input s.inOrder t) :
    Accounted g input (s'.advance piece) (done ++ piece) := by
  obtain ⟨new, htokens, hplace, htwo, hcovers⟩ := emits.exists_new
  have hlater : ∀ t ∈ s.inOrder, ∀ u ∈ new, t.position < u.position := by
    intro t ht u hu
    rw [hplace u hu]
    exact h.earlier t ht
  have hadvance : (s'.advance piece).position = s.position + byteLength piece := by
    rw [← position]
    rfl
  have horder : (s'.advance piece).inOrder = s.inOrder ++ new := htokens
  constructor
  · rw [hadvance, h.place, byteLength_append]
  · rw [horder, writtenTokens_append hlater]
    exact hcovers _ _ h.covers h.place
  · rw [horder, hadvance]
    intro t ht
    rcases List.mem_append.mp ht with ht | ht
    · have := h.earlier t ht
      omega
    · have := hplace t ht
      omega
  · rw [horder, List.pairwise_append]
    refine ⟨h.sorted, ?_, fun t ht u hu => Nat.le_of_lt (hlater t ht u hu)⟩
    exact List.pairwise_of_forall_mem_list fun t ht u hu =>
      Nat.le_of_eq ((hplace t ht).trans (hplace u hu).symm)
  · rw [horder]
    intro before t u after heq hsame
    rcases append_eq_append_cons_cons heq with ⟨rest, heq⟩ | ⟨htokens, hnew⟩ |
      ⟨earlier, rfl, hnew⟩
    · exact h.inserted before t u rest heq hsame
    · -- The last token stands before the place where the step begins.
      have := hlater t (by simp [htokens]) u (by simp [hnew])
      omega
    · subst hnew
      obtain ⟨rfl, rfl⟩ := nil_of_length_le_two htwo
      rw [List.append_nil]
      exact inserted t u htokens

theorem Visits.accounted (ne : g.NoEmptySymbol) (h : Visits g input s text) :
    ∃ done, input.toList = done ++ text ∧ Accounted g input s done := by
  induction h with
  | start =>
      exact ⟨[], rfl, rfl, Covers.nil, by simp [inOrder], List.Pairwise.nil, by simp [inOrder]⟩
  | @step s s' c rest count visits step ih =>
      obtain ⟨done, hinput, haccounted⟩ := ih
      obtain ⟨pos, position, emits⟩ := step.emits ne
      rw [List.take_cons pos] at emits
      refine ⟨done ++ c :: rest.take (count - 1), ?_, haccounted.step emits position ?_ ?_⟩
      · rw [hinput, List.append_assoc, List.cons_append, List.take_append_drop]
      · have := c.utf8Size_pos
        rw [byteLength_cons]
        omega
      · intro t u htokens
        exact ⟨s, c, rest, s', count, u, visits, step.step_eq_ok, rfl, htokens⟩

theorem Inserted.emitted (ne : g.NoEmptySymbol) {before after : List Token} {t : Token}
    (ht : tokenize g input = .ok (before ++ t :: after)) (h : Inserted g input before t) :
    (g.implicitOperator = some t.text ∧ t.kind = g.infixKind t.text) ∧
      ∃ u rest, after = u :: rest ∧ t.position = u.position := by
  obtain ⟨s, c, rest, s', count, u, visits, hstep, rfl, htokens⟩ := h
  have step := step_eq_ok.mp hstep
  obtain ⟨later, hlater⟩ := visits.inOrder_isPrefix_of_step step ht
  rw [htokens, List.append_assoc, List.append_cancel_left_eq] at hlater
  obtain ⟨-, rfl⟩ := List.cons.inj hlater
  obtain ⟨-, -, emits⟩ := step.emits ne
  cases emits with
  | nothing tokens => simp [tokens] at htokens
  | token tokens => simp [tokens] at htokens
  | behind tokens symbol kind unwritten place =>
      rw [tokens, List.append_cancel_left_eq] at htokens
      cases htokens
      exact ⟨⟨symbol, kind⟩, _, _, rfl, unwritten.trans place.symm⟩

/-- The first of two tokens at one place has been put in. -/
theorem inserted_of_same_place (ne : g.NoEmptySymbol) {before after : List Token} {t u : Token}
    (ht : tokenize g input = .ok (before ++ t :: u :: after)) (hsame : t.position = u.position) :
    Inserted g input before t := by
  obtain ⟨s, visits, -, hs⟩ := exists_visits_of_tokenize ht
  obtain ⟨done, -, accounted⟩ := visits.accounted ne
  exact accounted.inserted before t u after hs.symm hsame

end Scan

/-- **Scanning neither loses text nor invents it.**  In a grammar that was built, the tokens of a
text are in the order of their places.  A token stands where the next one does exactly if it was put
in as the implicit operator.  Without these, the tokens and separators between them are the text. -/
theorem tokenize_covers {d : Declaration} (hd : d.build = .ok g) {input : String}
    (h : tokenize g input = .ok tokens) :
    (tokens.Pairwise fun t u => t.position ≤ u.position) ∧
      (∀ before t after, tokens = before ++ t :: after →
        (Scan.Inserted g input before t ↔
          ∃ u rest, after = u :: rest ∧ t.position = u.position) ∧
        (Scan.Inserted g input before t →
          g.implicitOperator = some t.text ∧ t.kind = g.infixKind t.text)) ∧
      Covers g (writtenTokens tokens) input.toList := by
  have ne := Grammar.noEmptySymbol hd
  obtain ⟨s, visits, -, rfl⟩ := Scan.exists_visits_of_tokenize h
  obtain ⟨done, hinput, accounted⟩ := visits.accounted ne
  rw [List.append_nil] at hinput
  refine ⟨accounted.sorted, ?_, hinput ▸ accounted.covers⟩
  intro before t after hsplit
  rw [hsplit] at h
  refine ⟨⟨fun inserted => (inserted.emitted ne h).2, ?_⟩,
    fun inserted => (inserted.emitted ne h).1⟩
  rintro ⟨u, rest, rfl, hsame⟩
  exact accounted.inserted before t u rest hsplit hsame

/-- A conjunction that is not written, in front of a symbol in capitals. -/
theorem tokenize_covers_sample :
    Declaration.boolean.build = .ok Grammar.boolean ∧
      tokenize Grammar.boolean "A NOT b" = .ok [⟨"a", .identifier, 0⟩, ⟨"and", .multary, 2⟩,
        ⟨"not", .preUnary, 2⟩, ⟨"b", .identifier, 6⟩] ∧
      Scan.Inserted Grammar.boolean "A NOT b" [⟨"a", .identifier, 0⟩] ⟨"and", .multary, 2⟩ ∧
      Covers Grammar.boolean
        [⟨"a", .identifier, 0⟩, ⟨"not", .preUnary, 2⟩, ⟨"b", .identifier, 6⟩]
        "A NOT b".toList := by
  have hd : Declaration.boolean.build = .ok Grammar.boolean :=
    Declaration.build_eq_ok.mpr ⟨by decide +kernel, rfl⟩
  have ht : tokenize Grammar.boolean "A NOT b" = .ok [⟨"a", .identifier, 0⟩, ⟨"and", .multary, 2⟩,
      ⟨"not", .preUnary, 2⟩, ⟨"b", .identifier, 6⟩] := by decide +kernel
  obtain ⟨-, inserted, covers⟩ := tokenize_covers hd ht
  exact ⟨hd, ht, (inserted [_] _ _ rfl).1.mpr ⟨_, _, rfl, rfl⟩, covers⟩

end OperatorGrammar
