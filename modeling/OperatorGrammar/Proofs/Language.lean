import OperatorGrammar.Proofs.Reading
import OperatorGrammar.Proofs.Row.Shape

/-! # The language of token sequences that have a tree

`Derives g .expression tokens` is a grammar in the usual sense: an expression is operands with
infix operators between them, an operand is an atom with its unary operators, and an atom is a
number, an identifier, a group or a call.  Only such tokens have a tree (`derives_of_ofTokens`), and
such tokens are refused only where a limit is exceeded (`Derives.limited`): they may be nested too
deeply, or use an infix operator that has no precedence.  Both directions go through the shape of
rows, which is that of expressions with finished operands for atoms. -/

namespace OperatorGrammar

open Item Reading

/-- The phrases of the language. -/
inductive Phrase where
  | expression
  | operand
  | atom

/-- The tokens that a phrase consists of. -/
inductive Derives (g : Grammar) : Phrase → List Token → Prop
  /-- An operand is an expression. -/
  | operand {tokens : List Token} : Derives g .operand tokens → Derives g .expression tokens
  /-- So is an operand, an infix operator and an expression. -/
  | chain {first rest : List Token} {operator : Token} (kind : operator.kind.isInfix = true) :
      Derives g .operand first → Derives g .expression rest →
        Derives g .expression (first ++ operator :: rest)
  /-- An operand is an atom between prefixes and suffixes. -/
  | unary {prefixes tokens suffixes : List Token} (hp : ∀ t ∈ prefixes, t.kind = .preUnary)
      (hs : ∀ t ∈ suffixes, t.kind = .postUnary) :
      Derives g .atom tokens → Derives g .operand (prefixes ++ tokens ++ suffixes)
  /-- An atom is a number or an identifier. -/
  | leaf {token : Token} (kind : token.kind = .number ∨ token.kind = .identifier) :
      Derives g .atom [token]
  /-- Or an expression between an opener and one of its closers. -/
  | group {opener closer : Token} {inner : List Token} (hopener : opener.kind = .opening)
      (hcloser : closer.kind = .closing) (closes : g.closes opener.text closer.text = true) :
      Derives g .expression inner → Derives g .atom (opener :: inner ++ [closer])
  /-- Or a function and an empty argument list. -/
  | emptyCall {function opener closer : Token} (hfunction : function.kind = .function)
      (hopener : opener.kind = .opening) (text : opener.text = g.argumentOpener)
      (hcloser : closer.kind = .closing) (closes : g.closes opener.text closer.text = true) :
      Derives g .atom [function, opener, closer]
  /-- Or a function and an argument list with an expression in it. -/
  | call {function opener closer : Token} {inner : List Token}
      (hfunction : function.kind = .function) (hopener : opener.kind = .opening)
      (text : opener.text = g.argumentOpener) (hcloser : closer.kind = .closing)
      (closes : g.closes opener.text closer.text = true) :
      Derives g .expression inner → Derives g .atom (function :: opener :: inner ++ [closer])

variable {g : Grammar}

/-! ### Rows that have a tree come from phrases -/

/-- The items of a row come from tokens: each finished operand from an atom, each operator from
itself. -/
inductive Parts (g : Grammar) : List Item → List Token → Prop
  | nil : Parts g [] []
  | operand {m : Measured} {row : List Item} {first tokens : List Token} :
      Derives g .atom first → Parts g row tokens →
        Parts g (.operand m :: row) (first ++ tokens)
  | operator {token : Token} {row : List Item} {tokens : List Token} :
      Parts g row tokens → Parts g (.operator token :: row) (token :: tokens)

theorem Parts.of_append {row row' : List Item} {tokens : List Token}
    (h : Parts g (row ++ row') tokens) :
    ∃ before after, tokens = before ++ after ∧ Parts g row before ∧ Parts g row' after := by
  induction row generalizing tokens with
  | nil => exact ⟨[], tokens, rfl, Parts.nil, h⟩
  | cons item row ih =>
      cases h with
      | operand atom h =>
          obtain ⟨before, after, rfl, hb, ha⟩ := ih h
          exact ⟨_, after, (List.append_assoc _ _ _).symm, Parts.operand atom hb, ha⟩
      | operator h =>
          obtain ⟨before, after, rfl, hb, ha⟩ := ih h
          exact ⟨_, after, rfl, Parts.operator hb, ha⟩

theorem Parts.of_map_operator {operators tokens : List Token}
    (h : Parts g (operators.map .operator) tokens) : tokens = operators := by
  induction operators generalizing tokens with
  | nil =>
      cases h
      rfl
  | cons operator operators ih =>
      cases h with
      | operator h => rw [ih h]

theorem Parts.derives_operand {row : List Item} {tokens : List Token} (h : Parts g row tokens)
    (single : Single row) : Derives g .operand tokens := by
  obtain ⟨prefixes, operand, suffixes, rfl, hp, hs⟩ := single
  obtain ⟨before, after, rfl, hb, ha⟩ := h.of_append
  cases ha with
  | operand atom ha =>
      rw [hb.of_map_operator, ha.of_map_operator, ← List.append_assoc]
      exact Derives.unary hp hs atom

theorem Parts.derives_expression {row : List Item} {tokens : List Token} (h : Parts g row tokens)
    (alternates : Alternates row) : Derives g .expression tokens := by
  induction alternates generalizing tokens with
  | single single => exact Derives.operand (h.derives_operand single)
  | cons kind single _ ih =>
      obtain ⟨before, after, rfl, hb, ha⟩ := h.of_append
      cases ha with
      | operator ha => exact Derives.chain kind (hb.derives_operand single) (ih ha)

theorem Reads.parts {n : Nat} {tokens : List Token} {row : List Item}
    (h : Reads g n tokens row) : Parts g row tokens := by
  induction h with
  | nil => exact Parts.nil
  | operand kind _ ih => exact Parts.operand (Derives.leaf kind) ih
  | operator _ _ ih => exact Parts.operator ih
  | @enclosed n e closer inner tokens content row m opens _ kind closes _ built _ ih ih' =>
      have atom : Derives g .atom (e.tokens ++ inner ++ [closer]) := by
        cases e with
        | group opener =>
            obtain ⟨_, hb, -⟩ := close_group_eq_ok.mp built
            have := ih.derives_expression (Grammar.alternates_of_buildExpression hb)
            exact Derives.group opens kind closes this
        | call function opener =>
            obtain ⟨hf, ho, ht⟩ := opens
            rcases close_call_eq_ok.mp built with ⟨rfl, -⟩ | ⟨-, _, hb, -⟩
            · cases ih
              exact Derives.emptyCall hf ho ht kind closes
            · have := ih.derives_expression (Grammar.alternates_of_buildExpression hb)
              exact Derives.call hf ho ht kind closes this
      rw [List.append_cons]
      exact Parts.operand atom ih'

theorem derives_of_ofTokens {tokens : List Token} {t : TokenTree}
    (h : TokenTree.ofTokens g tokens = .ok t) : Derives g .expression tokens := by
  obtain ⟨row, m, hr, hb, -⟩ := ofTokens_eq_ok.mp h
  exact hr.parts.derives_expression (Grammar.alternates_of_buildExpression hb)

/-! ### Steps that fail only at a limit -/

/-- What is computed is as wanted, unless a limit is exceeded. -/
def Limited {α : Type} (P : α → Prop) (x : Except ParseError α) : Prop :=
  (∀ a, x = .ok a → P a) ∧ ∀ e, x = .error e → e.IsLimit

section limited

variable {α β : Type} {P Q : α → Prop} {x : Except ParseError α}

theorem limited_ok {a : α} (h : P a) : Limited P (.ok a) := by
  refine ⟨?_, fun e he => by cases he⟩
  rintro _ ⟨⟩
  exact h

theorem Limited.imp (h : Limited P x) (hpq : ∀ a, P a → Q a) : Limited Q x :=
  ⟨fun a ha => hpq a (h.1 a ha), h.2⟩

theorem Limited.bind {R : β → Prop} {f : α → Except ParseError β} (h : Limited P x)
    (hf : ∀ a, P a → Limited R (f a)) : Limited R (x >>= f) := by
  constructor
  · intro b hb
    obtain ⟨a, ha, hb⟩ := bind_eq_ok.mp hb
    exact (hf a (h.1 a ha)).1 b hb
  · intro e he
    rcases bind_eq_error.mp he with he | ⟨a, ha, he⟩
    · exact h.2 e he
    · exact (hf a (h.1 a ha)).2 e he

end limited

theorem limited_checkDepth (r : Reading) : Limited (fun _ => True) (r.checkDepth g) := by
  refine ⟨fun _ _ => trivial, fun e he => ?_⟩
  rw [checkDepth_eq_error he]
  trivial

theorem limited_wrap (name : String) (kind : TokenKind) (operands : List Measured) :
    Limited (fun _ => True) (g.wrap name kind operands) := by
  refine ⟨fun _ _ => trivial, fun e he => ?_⟩
  rw [Grammar.wrap_eq_error he]
  trivial

theorem limited_buildExpression {row : List Item} (h : Alternates row) :
    Limited (fun _ => True) (g.buildExpression row) :=
  ⟨fun _ _ => trivial, fun _ he => Grammar.isLimit_of_alternates h he⟩

theorem limited_close {e : Enclosing} {content : List Item}
    (h : Alternates content ∨ content = [] ∧ ∃ function opener, e = .call function opener) :
    Limited (fun _ => True) (close g e content) := by
  cases e with
  | group opener =>
      rcases h with h | ⟨-, _, _, h⟩
      · exact (limited_buildExpression h).bind fun _ _ => limited_wrap _ _ _
      · cases h
  | call function opener =>
      rcases h with h | ⟨rfl, -⟩
      · rw [close_call function opener h.ne_nil]
        exact (limited_buildExpression h).bind fun _ _ => limited_wrap _ _ _
      · exact limited_wrap _ _ _

/-! ### Phrases are refused only at a limit -/

/-- The rows that phrases are read as. -/
def Phrase.Fits : Phrase → List Item → Prop
  | .expression, row => Alternates row
  | .operand, row => Single row
  | .atom, row => ∃ m, row = [.operand m]

/-- The states that some rows lead to. -/
def Extends (r : Reading) (rows : List Item → Prop) (r' : Reading) : Prop :=
  ∃ row, rows row ∧ r' = r.extend row

theorem foldlM_step_operators {kind : TokenKind} (hk : kind.isOperator = true)
    {tokens : List Token} (h : ∀ t ∈ tokens, t.kind = kind) {r : Reading} (hc : r.callee = none) :
    tokens.foldlM (step g) r = .ok (r.extend (tokens.map .operator)) := by
  refine Reads.foldlM_step ?_ hc rfl
  induction tokens with
  | nil => exact Reads.nil
  | cons token tokens ih =>
      rw [List.forall_mem_cons] at h
      exact Reads.operator (h.1 ▸ hk) (ih h.2)

/-- A group or a call is refused only at a limit if its content is, and is one operand. -/
theorem limited_enclosed {e : Enclosing} (opens : e.Opens g) {closer : Token}
    (kind : closer.kind = .closing) (closes : g.closes e.opener.text closer.text = true)
    {inner : List Token} {rows : List Item → Prop} {r : Reading} (hc : r.callee = none)
    (ih : Limited (Extends (r.enter e) rows) (inner.foldlM (step g) (r.enter e)))
    (hrows : ∀ content, rows content → Limited (fun _ => True) (close g e content)) :
    Limited (Extends r Phrase.atom.Fits)
      ((e.tokens ++ inner ++ [closer]).foldlM (step g) r) := by
  rw [List.foldlM_append, List.foldlM_append, foldlM_step_tokens opens hc]
  have begins : Limited (· = r.enter e) (r.checkDepth g >>= fun _ => .ok (r.enter e)) :=
    (limited_checkDepth r).bind fun _ _ => limited_ok rfl
  refine Limited.bind (begins.bind ?_) ?_ (P := Extends (r.enter e) rows)
  · rintro _ rfl
    exact ih
  · rintro _ ⟨row, hrow, rfl⟩
    rw [List.foldlM_cons, step_closing rfl rfl kind, if_pos closes]
    have hitems : ((r.enter e).extend row).items.reverse = row := by simp [extend, enter]
    rw [hitems]
    refine Limited.bind (P := fun r' => ∃ m, r' = ⟨.operand m :: r.items, r.frames, none⟩) ?_ ?_
    · exact (hrows row hrow).bind fun m _ => limited_ok ⟨m, rfl⟩
    · rintro _ ⟨m, rfl⟩
      refine limited_ok ⟨[.operand m], ⟨m, rfl⟩, ?_⟩
      simp [extend, hc]

/-- Tokens that are a phrase are refused only at a limit, and are read as a row of its shape. -/
theorem Derives.limited {p : Phrase} {tokens : List Token} (h : Derives g p tokens) {r : Reading}
    (hc : r.callee = none) : Limited (Extends r p.Fits) (tokens.foldlM (step g) r) := by
  induction h generalizing r with
  | operand _ ih =>
      refine (ih hc).imp ?_
      rintro _ ⟨row, hrow, rfl⟩
      exact ⟨row, Alternates.single hrow, rfl⟩
  | @chain first rest operator kind _ _ ih ih' =>
      rw [List.foldlM_append]
      refine (ih hc).bind ?_
      rintro _ ⟨row, hrow, rfl⟩
      have ho := TokenKind.isOperator_of_isInfix kind
      rw [List.foldlM_cons, step_operator (by exact hc) ho]
      refine (ih' (r := (r.extend row).push (.operator operator)) hc).imp ?_
      rintro _ ⟨row', hrow', rfl⟩
      exact ⟨row ++ .operator operator :: row', Alternates.cons kind hrow hrow',
        by simp [extend, push]⟩
  | @unary prefixes tokens suffixes hp hs _ ih =>
      rw [List.foldlM_append, List.foldlM_append, foldlM_step_operators rfl hp hc]
      refine Limited.bind (ih (r := r.extend (prefixes.map .operator)) hc) ?_
      rintro _ ⟨_, ⟨m, rfl⟩, rfl⟩
      rw [foldlM_step_operators rfl hs (by exact hc)]
      refine limited_ok ⟨_, ⟨prefixes, m, suffixes, rfl, hp, hs⟩, ?_⟩
      simp [extend]
  | leaf kind =>
      rw [List.foldlM_cons, step_operand hc kind]
      exact limited_ok ⟨[_], ⟨_, rfl⟩, rfl⟩
  | @group opener closer inner hopener hcloser closes _ ih =>
      refine limited_enclosed (e := .group opener) hopener hcloser closes hc (ih rfl) ?_
      intro content hcontent
      exact limited_close (Or.inl hcontent)
  | @emptyCall function opener closer hfunction hopener text hcloser closes =>
      have empty : Limited (Extends (r.enter (.call function opener)) (· = []))
          ([].foldlM (step g) (r.enter (.call function opener))) := limited_ok ⟨[], rfl, rfl⟩
      refine limited_enclosed (e := .call function opener) ⟨hfunction, hopener, text⟩ hcloser
        closes hc empty ?_
      intro content hcontent
      exact limited_close (Or.inr ⟨hcontent, function, opener, rfl⟩)
  | @call function opener closer inner hfunction hopener text hcloser closes _ ih =>
      refine limited_enclosed (e := .call function opener) ⟨hfunction, hopener, text⟩ hcloser
        closes hc (ih rfl) ?_
      intro content hcontent
      exact limited_close (Or.inl hcontent)

theorem Derives.limited_ofTokens {tokens : List Token} (h : Derives g .expression tokens) :
    Limited (fun _ => True) (TokenTree.ofTokens g tokens) := by
  have hread := h.limited (r := {}) rfl
  refine hread.bind ?_
  rintro _ ⟨row, hrow, rfl⟩
  have hfinish : finish g (Reading.extend {} row) = g.buildExpression row := by
    simp [finish, extend]
  rw [hfinish]
  exact (limited_buildExpression hrow).bind fun m _ => limited_ok trivial

/-! ### Operators without precedence -/

section rank

variable {symbol : String}

theorem close_eq_noPrecedence {e : Enclosing} {content : List Item}
    (h : close g e content = .error (.noPrecedence symbol)) :
    g.buildExpression content = .error (.noPrecedence symbol) := by
  cases e with
  | group opener =>
      rw [close_group] at h
      rcases bind_eq_error.mp h with h | ⟨_, -, h⟩
      · exact h
      · cases Grammar.wrap_eq_error h
  | call function opener =>
      by_cases hne : content = []
      · subst hne
        cases Grammar.wrap_eq_error h
      · rw [close_call function opener hne] at h
        rcases bind_eq_error.mp h with h | ⟨_, -, h⟩
        · exact h
        · cases Grammar.wrap_eq_error h

/-- Reading a token fails for want of precedence only when a row is closed. -/
theorem step_eq_noPrecedence {r : Reading} {token : Token}
    (h : step g r token = .error (.noPrecedence symbol)) :
    r.callee = none ∧ g.buildExpression r.items.reverse = .error (.noPrecedence symbol) := by
  cases hc : r.callee with
  | some function =>
      simp only [step, hc] at h
      split at h <;> cases h
  | none =>
      refine ⟨rfl, ?_⟩
      cases hk : token.kind with
      | number | identifier =>
          rw [step_operand hc (by simp [hk])] at h
          cases h
      | preUnary | postUnary | binary | multary =>
          rw [step_operator hc (by rw [hk]; rfl)] at h
          cases h
      | opening =>
          rw [step_opening hc hk] at h
          rcases bind_eq_error.mp h with h | ⟨_, -, h⟩
          · cases checkDepth_eq_error h
          · cases h
      | function =>
          rw [step_function hc hk] at h
          rcases bind_eq_error.mp h with h | ⟨_, -, h⟩
          · cases checkDepth_eq_error h
          · cases h
      | closing =>
          cases hf : r.frames with
          | nil =>
              simp only [step, hc, hk, hf] at h
              cases h
          | cons frame frames =>
              rw [step_closing hc hf hk] at h
              split at h
              · rcases bind_eq_error.mp h with h | ⟨_, -, h⟩
                · exact close_eq_noPrecedence h
                · cases h
              · cases h
      | top =>
          simp only [step, hc, hk] at h
          cases h

theorem finish_eq_noPrecedence {r : Reading} (h : finish g r = .error (.noPrecedence symbol)) :
    r.callee = none ∧ g.buildExpression r.items.reverse = .error (.noPrecedence symbol) := by
  unfold finish at h
  split at h
  · cases h
  · cases h
  · next hc _ => exact ⟨hc, h⟩

theorem mem_of_buildExpression_eq_noPrecedence {tokens : List Token} {r : Reading}
    (hr : tokens.foldlM (step g) {} = .ok r) (hc : r.callee = none)
    (h : g.buildExpression r.items.reverse = .error (.noPrecedence symbol)) :
    ∃ token ∈ tokens, token.kind.isInfix = true ∧ token.text = symbol ∧
      g.precedence symbol = none := by
  have hstands : Stands g tokens r.items r.frames := by
    have := foldlM_step_follows hr
    unfold Follows at this
    rwa [hc] at this
  cases Grammar.buildExpression_refuses h with
  | @rank token ht hn =>
      obtain ⟨hi, hk⟩ := mem_infixTokens.mp ht
      exact ⟨token, hstands.mem_of_operator (List.mem_reverse.mp hi), hk, rfl, hn⟩
  | shape _ he => exact absurd trivial he

theorem mem_of_ofTokens_eq_noPrecedence {tokens : List Token}
    (h : TokenTree.ofTokens g tokens = .error (.noPrecedence symbol)) :
    ∃ token ∈ tokens, token.kind.isInfix = true ∧ token.text = symbol ∧
      g.precedence symbol = none := by
  rcases bind_eq_error.mp h with h | ⟨r, hr, h⟩
  · obtain ⟨before, token, after, r, rfl, hr, h⟩ := foldlM_eq_error h
    obtain ⟨hc, h⟩ := step_eq_noPrecedence h
    obtain ⟨t, ht, hu⟩ := mem_of_buildExpression_eq_noPrecedence hr hc h
    exact ⟨t, List.mem_append_left _ ht, hu⟩
  · rcases bind_eq_error.mp h with h | ⟨_, -, h⟩
    · obtain ⟨hc, h⟩ := finish_eq_noPrecedence h
      exact mem_of_buildExpression_eq_noPrecedence hr hc h
    · cases h

end rank

/-- **The language of the sequences of tokens that have a tree.**  Unless a limit is exceeded, a
tree is built from tokens exactly if they are an expression; and an operator is refused for want
of precedence only if it is an infix operator among the tokens, and has none. -/
theorem ofTokens_language (g : Grammar) (tokens : List Token) :
    ((∀ e, TokenTree.ofTokens g tokens = .error e → ¬ e.IsLimit) →
      ((∃ t, TokenTree.ofTokens g tokens = .ok t) ↔ Derives g .expression tokens)) ∧
    ∀ symbol, TokenTree.ofTokens g tokens = .error (.noPrecedence symbol) →
      ∃ token ∈ tokens, token.kind.isInfix = true ∧ token.text = symbol ∧
        g.precedence symbol = none := by
  refine ⟨fun hlimit => ⟨?_, fun h => ?_⟩, fun symbol h => mem_of_ofTokens_eq_noPrecedence h⟩
  · rintro ⟨t, h⟩
    exact derives_of_ofTokens h
  · cases ht : TokenTree.ofTokens g tokens with
    | ok t => exact ⟨t, rfl⟩
    | error e => exact absurd (h.limited_ofTokens.2 e ht) (hlimit e ht)

/-- The sample is an expression.  An operator that the grammar does not know is refused. -/
theorem ofTokens_language_sample :
    Derives Grammar.real .expression sampleTokens ∧
      ∃ token ∈ [⟨"x", .identifier, 0⟩, ⟨"@", .binary, 1⟩, (⟨"y", .identifier, 2⟩ : Token)],
        token.kind.isInfix = true ∧ token.text = "@" ∧ Grammar.real.precedence "@" = none := by
  constructor
  · refine ((ofTokens_language Grammar.real sampleTokens).1 ?_).mp ⟨_, ofTokens_sampleTokens⟩
    intro e he
    rw [ofTokens_sampleTokens] at he
    cases he
  · exact (ofTokens_language Grammar.real _).2 "@" (by decide +kernel)

end OperatorGrammar
