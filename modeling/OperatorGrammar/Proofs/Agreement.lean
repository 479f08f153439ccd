import OperatorGrammar.Proofs.Language
import OperatorGrammar.Proofs.Row.Pending
import OperatorGrammar.Proofs.Scan.Scanned

/-! # Scanning and reading agree

Scanning knows the open groups by their pairs, and whether an operand has ended by the token before;
reading knows groups by their texts, and operands by the shape of a row.  `Mirrors` says how a state
of reading goes with tokens that have been scanned: there is a row around for each open pair, and
the innermost row is finished where an operand has ended, and pending elsewhere.  Every step that
succeeds keeps it, and a step that fails does so for one of three causes (`Mirrors.step`).

So the tokens of a text lack nothing that can be seen from them alone, an operand or the argument
list of a function apart: if they are `Complete` they have a tree unless a limit is exceeded, and
otherwise one of the causes in `Flaw` is reported (`Scanned.ofTokens`). -/

namespace OperatorGrammar

open Item Reading

variable {g : Grammar} {tokens before after : List Token} {token : Token}
  {pairs pairs' : List Parenthetical} {r r' : Reading} {e : ParseError}

/-! ### What is seen from the tokens alone -/

/-- Whether a token becomes an item of a row as it is. -/
def TokenKind.isItem : TokenKind → Bool
  | .number | .identifier | .preUnary | .postUnary | .binary | .multary => true
  | _ => false

theorem TokenKind.isItem_of_isInfix {kind : TokenKind} (h : kind.isInfix = true) :
    kind.isItem = true := by
  cases kind with
  | binary | multary => rfl
  | _ => cases h

/-- The function that some tokens end with. -/
def lastFunction? (tokens : List Token) : Option Token :=
  tokens.getLast?.filter fun token => token.kind = .function

@[simp] theorem lastFunction?_nil : lastFunction? [] = none := rfl

@[simp] theorem lastFunction?_concat (tokens : List Token) (token : Token) :
    lastFunction? (tokens ++ [token]) = if token.kind = .function then some token else none := by
  simp [lastFunction?, Option.filter]

theorem lastFunction?_eq_some {function : Token} :
    lastFunction? tokens = some function ↔
      function.kind = .function ∧ ∃ earlier, tokens = earlier ++ [function] := by
  rcases List.eq_nil_or_concat tokens with rfl | ⟨earlier, token, rfl⟩
  · simp
  · rw [List.concat_eq_append, lastFunction?_concat]
    constructor
    · intro h
      split at h
      · next hk =>
        obtain rfl := Option.some.inj h
        exact ⟨hk, earlier, rfl⟩
      · cases h
    · rintro ⟨hk, _, h⟩
      obtain ⟨rfl, ht⟩ := List.append_inj' h rfl
      have ht : token = function := by simpa using ht
      rw [ht, if_pos hk]

/-- Whether a token begins an argument list. -/
def Grammar.OpensArguments (g : Grammar) (token : Token) : Prop :=
  token.kind = .opening ∧ token.text = g.argumentOpener

/-- Some tokens end with a function and an opener. -/
def BeginsCall (tokens : List Token) : Prop :=
  ∃ earlier function opener, tokens = earlier ++ [function, opener] ∧
    function.kind = .function ∧ opener.kind = .opening

theorem beginsCall_concat :
    BeginsCall (tokens ++ [token]) ↔
      token.kind = .opening ∧ ∃ function, lastFunction? tokens = some function := by
  constructor
  · rintro ⟨earlier, function, opener, h, hf, ho⟩
    have hsplit : earlier ++ [function, opener] = (earlier ++ [function]) ++ [opener] := by simp
    rw [hsplit] at h
    obtain ⟨rfl, ht⟩ := List.append_inj' h rfl
    have ht : token = opener := by simpa using ht
    exact ⟨ht ▸ ho, function, lastFunction?_eq_some.mpr ⟨hf, earlier, rfl⟩⟩
  · rintro ⟨ho, function, hf⟩
    obtain ⟨hk, earlier, rfl⟩ := lastFunction?_eq_some.mp hf
    exact ⟨earlier, function, token, by simp, hk, ho⟩

/-- A closing delimiter can come next: behind an operand, or where an argument list has just
begun. -/
def Closable (tokens : List Token) : Prop :=
  endsOperand tokens = true ∨ BeginsCall tokens

/-- No group lacks an operand before its closing delimiter. -/
def Filled (tokens : List Token) : Prop :=
  ∀ before closer after, tokens = before ++ closer :: after → closer.kind = .closing →
    Closable before

/-- No operand is missing, at the end or before a closing delimiter. -/
def Complete (tokens : List Token) : Prop :=
  endsOperand tokens = true ∧ Filled tokens

/-- Behind every function its argument list begins. -/
def Called (g : Grammar) (tokens : List Token) : Prop :=
  ∀ before function after, tokens = before ++ function :: after → function.kind = .function →
    ∃ opener rest, after = opener :: rest ∧ g.OpensArguments opener

theorem filled_nil : Filled [] := by
  intro before closer after h
  simp at h

theorem Filled.concat (h : Filled tokens) (hc : token.kind = .closing → Closable tokens) :
    Filled (tokens ++ [token]) := by
  intro before closer after hsplit hk
  rcases concat_eq_append_cons.mp hsplit with ⟨rfl, rfl, -⟩ | ⟨_, -, hsplit⟩
  · exact hc hk
  · exact h before closer _ hsplit hk

theorem called_nil : Called g [] := by
  intro before function after h
  simp at h

theorem Called.concat (h : Called g tokens) (hk : token.kind ≠ .function) :
    Called g (tokens ++ [token]) := by
  intro before function after hsplit hf
  rcases concat_eq_append_cons.mp hsplit with ⟨-, rfl, -⟩ | ⟨after', rfl, hbefore⟩
  · exact absurd hf hk
  · obtain ⟨opener, rest, rfl, hopens⟩ := h before function after' hbefore hf
    exact ⟨opener, rest ++ [token], rfl, hopens⟩

theorem Called.concat_call (h : Called g tokens) {function opener : Token}
    (hopens : g.OpensArguments opener) : Called g (tokens ++ [function, opener]) := by
  intro before f after hsplit hf
  have happend : tokens ++ [function, opener] = (tokens ++ [function]) ++ [opener] := by simp
  rw [happend] at hsplit
  rcases concat_eq_append_cons.mp hsplit with ⟨-, rfl, -⟩ | ⟨_, rfl, hlast⟩
  · rw [hopens.1] at hf
    cases hf
  · rcases concat_eq_append_cons.mp hlast with ⟨-, -, rfl⟩ | ⟨after', rfl, hbefore⟩
    · exact ⟨opener, [], rfl, hopens⟩
    · obtain ⟨o, rest, rfl, ho⟩ := h before f after' hbefore hf
      exact ⟨o, rest ++ [function] ++ [opener], by simp, ho⟩

/-! ### The states of reading -/

/-- A row that waits for the group of a pair to end. -/
structure Awaits (frame : Frame) (pair : Parenthetical) : Prop where
  opener : frame.enclosing.opener.text = pair.opener
  before : Pending frame.before.reverse

/-- The shape of the innermost row, by whether an operand has ended. -/
def Shaped (ended : Bool) (row : List Item) : Prop :=
  match ended with
  | true => Alternates row
  | false => Pending row

/-- A state of reading behind some tokens, with the pairs that are open in them. -/
structure Mirrors (tokens : List Token) (pairs : List Parenthetical) (r : Reading) : Prop where
  callee : r.callee = lastFunction? tokens
  frames : List.Forall₂ Awaits r.frames pairs
  row : Shaped (endsOperand tokens) r.items.reverse
  /-- Nothing is in the row of an argument list only where it has just begun. -/
  begun : BeginsCall tokens ↔ r.callee = none ∧ r.items = [] ∧
    ∃ function opener row frames, r.frames = ⟨.call function opener, row⟩ :: frames

theorem Mirrors.alternates (h : Mirrors tokens pairs r) (place : endsOperand tokens = true) :
    Alternates r.items.reverse := by
  have := h.row
  rwa [place] at this

theorem Mirrors.pending (h : Mirrors tokens pairs r) (place : endsOperand tokens = false) :
    Pending r.items.reverse := by
  have := h.row
  rwa [place] at this

theorem mirrors_nil : Mirrors [] [] {} where
  callee := rfl
  frames := List.Forall₂.nil
  row := pending_nil
  begun := by simp [BeginsCall]

theorem Mirrors.push (h : Mirrors tokens pairs r) (hc : r.callee = none) {item : Item}
    (hk : token.kind.isItem = true)
    (row : Shaped (!token.kind.expectsOperandAfter) (r.items.reverse ++ [item])) :
    Mirrors (tokens ++ [token]) pairs (r.push item) := by
  have hf : token.kind ≠ .function := fun h => by rw [h] at hk; cases hk
  have ho : token.kind ≠ .opening := fun h => by rw [h] at hk; cases hk
  refine ⟨?_, h.frames, ?_, by simp [beginsCall_concat, ho, Reading.push]⟩
  · rw [lastFunction?_concat, if_neg hf]
    exact hc
  · rw [endsOperand_concat]
    simpa [Reading.push] using row

theorem Mirrors.enter (h : Mirrors tokens pairs r) (place : endsOperand tokens = false)
    {pair : Parenthetical} (hk : token.kind = .opening) (ht : token.text = pair.opener)
    {enclosing : Enclosing} (hopener : enclosing.opener = token)
    (hcall : (∃ function, lastFunction? tokens = some function) ↔
      ∃ function opener, enclosing = .call function opener) :
    Mirrors (tokens ++ [token]) (pair :: pairs) (r.enter enclosing) where
  callee := by simp [hk, Reading.enter]
  frames := List.Forall₂.cons ⟨hopener ▸ ht, h.pending place⟩ h.frames
  row := by
    rw [endsOperand_concat, hk]
    exact pending_nil
  begun := by
    rw [beginsCall_concat, hcall]
    simp [hk, Reading.enter]

/-- Why a step of reading fails. -/
inductive Refusal (g : Grammar) (tokens : List Token) (token : Token) : ParseError → Prop
  | limit {e : ParseError} (he : e.IsLimit) : Refusal g tokens token e
  /-- A group ends where an operand is expected. -/
  | gap {e : ParseError} (he : e.IsGap) (closing : token.kind = .closing)
      (unfilled : ¬ Closable tokens) : Refusal g tokens token e
  /-- The argument list of a function does not follow. -/
  | uncalled {function : Token} (last : lastFunction? tokens = some function)
      (next : ¬ g.OpensArguments token) :
      Refusal g tokens token (.unrecognized function.text function.position)

/-- Whether reading a token goes on with a state that mirrors the tokens, or fails for a known
cause. -/
def Proceeds (g : Grammar) (tokens : List Token) (token : Token) (pairs : List Parenthetical)
    (x : Except ParseError Reading) : Prop :=
  (∀ r', x = .ok r' → Mirrors (tokens ++ [token]) pairs r' ∧
    (token.kind = .closing → Closable tokens)) ∧
  ∀ e, x = .error e → Refusal g tokens token e

theorem proceeds_ok (h : Mirrors (tokens ++ [token]) pairs r) (hk : token.kind ≠ .closing) :
    Proceeds g tokens token pairs (.ok r) := by
  refine ⟨?_, fun e he => by cases he⟩
  rintro _ ⟨⟩
  exact ⟨h, fun hc => absurd hc hk⟩

theorem proceeds_checkDepth (h : Mirrors (tokens ++ [token]) pairs r')
    (hk : token.kind ≠ .closing) :
    Proceeds g tokens token pairs (r.checkDepth g >>= fun _ => .ok r') := by
  constructor
  · intro r'' hr
    obtain ⟨_, -, hr⟩ := bind_eq_ok.mp hr
    exact (proceeds_ok (g := g) h hk).1 r'' hr
  · intro e he
    refine Refusal.limit ?_
    rcases bind_eq_error.mp he with he | ⟨_, -, he⟩
    · rw [checkDepth_eq_error he]
      trivial
    · cases he

theorem close_of_pending (g : Grammar) (enclosing : Enclosing) {items : List Item}
    (hp : Pending items.reverse) :
    (∀ m, close g enclosing items.reverse = .ok m →
      items = [] ∧ ∃ function opener, enclosing = .call function opener) ∧
    ∀ e, close g enclosing items.reverse = .error e → e.IsLimit ∨ e.IsGap ∧
      ¬ (items = [] ∧ ∃ function opener, enclosing = .call function opener) := by
  obtain ⟨cause, hb, hcause⟩ := hp.buildExpression g
  cases enclosing with
  | group opener =>
      have hclose : close g (.group opener) items.reverse = .error cause := by
        rw [close_group, hb]
        rfl
      rw [hclose]
      refine ⟨fun m hm => (by cases hm), fun e he => ?_⟩
      cases he
      exact hcause.imp_right fun hg => ⟨hg, by simp⟩
  | call function opener =>
      by_cases hn : items = []
      · subst hn
        refine ⟨fun _ _ => ⟨rfl, function, opener, rfl⟩, fun e he => Or.inl ?_⟩
        exact (limited_close (Or.inr ⟨rfl, function, opener, rfl⟩)).2 e he
      · have hclose : close g (.call function opener) items.reverse = .error cause := by
          rw [close_call function opener (by simpa using hn), hb]
          rfl
        rw [hclose]
        refine ⟨fun m hm => (by cases hm), fun e he => ?_⟩
        cases he
        exact hcause.imp_right fun hg => ⟨hg, fun h => hn h.1⟩

/-- The innermost row ends with the closer of its pair. -/
theorem Mirrors.closing {pair : Parenthetical} (h : Mirrors tokens (pair :: pairs) r)
    (hc : r.callee = none) (known : pair ∈ g.parentheticals) (hk : token.kind = .closing)
    (ht : token.text = pair.closer) :
    Proceeds g tokens token pairs (step g r token) := by
  obtain ⟨frame, frames, awaits, hrest, hframes⟩ := List.forall₂_cons_right_iff.mp h.frames
  have hcloses : g.closes frame.enclosing.opener.text token.text = true := by
    rw [awaits.opener, ht]
    exact List.any_eq_true.mpr ⟨pair, known, by simp⟩
  have hbegun : BeginsCall tokens ↔
      r.items = [] ∧ ∃ function opener, frame.enclosing = .call function opener := by
    rw [h.begun, hframes]
    simp only [hc, true_and, List.cons.injEq]
    refine and_congr_right fun _ => exists_congr fun function => exists_congr fun opener => ?_
    constructor
    · rintro ⟨row, _, rfl, -⟩
      rfl
    · intro he
      exact ⟨frame.before, frames, by rw [← he], rfl⟩
  have hafter (m : Measured) : Mirrors (tokens ++ [token]) pairs
      { items := .operand m :: frame.before, frames := frames, callee := none } := by
    refine ⟨by simp [hk], hrest, ?_, by simp [beginsCall_concat, hk]⟩
    have hrow := awaits.before.operand m
    rw [← List.reverse_cons] at hrow
    rw [endsOperand_concat, hk]
    exact hrow
  rw [step_closing hc hframes hk, if_pos hcloses]
  by_cases hend : endsOperand tokens = true
  · -- The row is finished, so only a limit keeps it from being closed.
    have hclose := limited_close (e := frame.enclosing) (g := g) (Or.inl (h.alternates hend))
    constructor
    · intro r' hr
      obtain ⟨m, -, hr⟩ := bind_eq_ok.mp hr
      cases hr
      exact ⟨hafter m, fun _ => Or.inl hend⟩
    · intro e he
      rcases bind_eq_error.mp he with he | ⟨_, -, he⟩
      · exact Refusal.limit (hclose.2 e he)
      · cases he
  · -- The row is pending, so it is closed only if nothing is in it and none is needed.
    rw [Bool.not_eq_true] at hend
    obtain ⟨hok, herror⟩ := close_of_pending g frame.enclosing (h.pending hend)
    constructor
    · intro r' hr
      obtain ⟨m, hm, hr⟩ := bind_eq_ok.mp hr
      cases hr
      exact ⟨hafter m, fun _ => Or.inr (hbegun.mpr (hok m hm))⟩
    · intro e he
      rcases bind_eq_error.mp he with he | ⟨_, -, he⟩
      · rcases herror e he with hl | ⟨hg, hn⟩
        · exact Refusal.limit hl
        · refine Refusal.gap hg hk ?_
          rintro (hcontra | hcontra)
          · rw [hend] at hcontra
            cases hcontra
          · exact hn (hbegun.mp hcontra)
      · cases he

theorem Mirrors.called {function : Token} (h : Mirrors tokens pairs r)
    (hc : r.callee = some function) (placed : Placed g tokens pairs token pairs') :
    Proceeds g tokens token pairs' (step g r token) := by
  have hlast : lastFunction? tokens = some function := h.callee ▸ hc
  by_cases hn : g.OpensArguments token
  · have hstep : step g r token = .ok (r.enter (.call function token)) := by
      simp only [step, hc]
      exact if_pos hn
    rw [hstep]
    cases placed with
    | opening place hk _ ht =>
        refine proceeds_ok (h.enter place hk ht rfl ?_) (by simp [hk])
        simp [hlast]
    | operand _ hk => simp [hn.1] at hk
    | between _ hk =>
        rw [hn.1, Grammar.infixKind] at hk
        split at hk <;> cases hk
    | postUnary _ hk | closing hk =>
        rw [hn.1] at hk
        cases hk
  · have hstep : step g r token = .error (.unrecognized function.text function.position) := by
      simp only [step, hc]
      exact if_neg hn
    rw [hstep]
    refine ⟨fun r' hr => (by cases hr), fun e he => ?_⟩
    cases he
    exact Refusal.uncalled hlast hn

/-- **Every step keeps the states together**, or fails for a known cause. -/
theorem Mirrors.step (h : Mirrors tokens pairs r) (known : ∀ pair ∈ pairs, pair ∈ g.parentheticals)
    (placed : Placed g tokens pairs token pairs') :
    Proceeds g tokens token pairs' (step g r token) := by
  cases hc : r.callee with
  | some function => exact h.called hc placed
  | none =>
      have hlast : lastFunction? tokens = none := h.callee ▸ hc
      cases placed with
      | operand place hk =>
          have hrow := h.pending place
          rcases hk with hk | hk | hk | hk
          · rw [step_operand hc (Or.inl hk)]
            refine proceeds_ok (h.push hc (by rw [hk]; rfl) ?_) (by simp [hk])
            rw [hk]
            exact hrow.operand _
          · rw [step_operand hc (Or.inr hk)]
            refine proceeds_ok (h.push hc (by rw [hk]; rfl) ?_) (by simp [hk])
            rw [hk]
            exact hrow.operand _
          · rw [step_function hc hk]
            refine proceeds_checkDepth ⟨by simp [hk], h.frames, ?_, ?_⟩ (by simp [hk])
            · rw [endsOperand_concat, hk]
              exact hrow
            · simp [beginsCall_concat, hk]
          · rw [step_operator hc (by rw [hk]; rfl)]
            refine proceeds_ok (h.push hc (by rw [hk]; rfl) ?_) (by simp [hk])
            rw [hk]
            exact hrow.preUnary hk
      | between place hk =>
          have hi : token.kind.isInfix = true := hk ▸ g.isInfix_infixKind token.text
          rw [step_operator hc (TokenKind.isOperator_of_isInfix hi)]
          refine proceeds_ok (h.push hc (TokenKind.isItem_of_isInfix hi) ?_) ?_
          · rw [TokenKind.expectsOperandAfter_of_isInfix hi]
            exact (h.alternates place).between hi
          · rintro hk
            rw [hk] at hi
            cases hi
      | postUnary place hk =>
          rw [step_operator hc (by rw [hk]; rfl)]
          refine proceeds_ok (h.push hc (by rw [hk]; rfl) ?_) (by simp [hk])
          rw [hk]
          exact (h.alternates place).postUnary hk
      | opening place hk _ ht =>
          rw [step_opening hc hk]
          refine proceeds_checkDepth (h.enter place hk ht rfl ?_) (by simp [hk])
          simp [hlast]
      | closing hk ht => exact h.closing hc (known _ List.mem_cons_self) hk ht

/-! ### All tokens -/

/-- Behind scanned tokens the states go together, and no group that has ended lacks an operand. -/
theorem Scanned.mirrors (h : Scanned g tokens pairs) (hr : tokens.foldlM (step g) {} = .ok r) :
    Mirrors tokens pairs r ∧ Filled tokens := by
  induction h generalizing r with
  | nil =>
      cases hr
      exact ⟨mirrors_nil, filled_nil⟩
  | concat scanned placed ih =>
      rw [List.foldlM_append] at hr
      obtain ⟨r', hr', hr⟩ := bind_eq_ok.mp hr
      obtain ⟨hm, hf⟩ := ih hr'
      obtain ⟨hm', hc⟩ := (hm.step scanned.known_of_mem placed).1 r (by simpa using hr)
      exact ⟨hm', hf.concat hc⟩

/-- Why scanned tokens have no tree: a limit is exceeded, an operand is missing, or the argument
list of a function. -/
inductive Flaw (g : Grammar) (tokens : List Token) : ParseError → Prop
  | limit {e : ParseError} (he : e.IsLimit) : Flaw g tokens e
  | gap {e : ParseError} (he : e.IsGap) (incomplete : ¬ Complete tokens) : Flaw g tokens e
  | uncalled {function : Token} (uncalled : ¬ Called g tokens) :
      Flaw g tokens (.unrecognized function.text function.position)

theorem Scanned.flaw_of_step (h : Scanned g tokens pairs)
    (he : tokens.foldlM (step g) {} = .error e) : Flaw g tokens e := by
  obtain ⟨before, token, after, r, hsplit, hr, he⟩ := foldlM_eq_error he
  obtain ⟨pairs, pairs', scanned, placed⟩ := h.placed hsplit
  cases ((scanned.mirrors hr).1.step scanned.known_of_mem placed).2 e he with
  | limit he => exact Flaw.limit he
  | gap he closing unfilled =>
      exact Flaw.gap he fun complete => unfilled (complete.2 before token after hsplit closing)
  | uncalled last next =>
      refine Flaw.uncalled fun called => next ?_
      obtain ⟨hk, earlier, rfl⟩ := lastFunction?_eq_some.mp last
      obtain ⟨_, _, hafter, hopens⟩ := called earlier _ (token :: after) (by simp [hsplit]) hk
      obtain ⟨rfl, -⟩ := List.cons.inj hafter
      exact hopens

/-- At the end the outermost row is left, unless a function waits for its arguments. -/
theorem Mirrors.finish (h : Mirrors tokens [] r) (filled : Filled tokens) :
    (∀ m, Reading.finish g r = .ok m → Complete tokens) ∧
      ∀ e, Reading.finish g r = .error e → Flaw g tokens e := by
  have hframes : r.frames = [] := List.forall₂_nil_right_iff.mp h.frames
  cases hc : r.callee with
  | some function =>
      have hfinish : Reading.finish g r =
          .error (.unrecognized function.text function.position) := by
        simp only [Reading.finish, hc]
      rw [hfinish]
      refine ⟨fun m hm => (by cases hm), fun e he => ?_⟩
      cases he
      refine Flaw.uncalled fun called => ?_
      obtain ⟨hk, earlier, rfl⟩ := lastFunction?_eq_some.mp (h.callee ▸ hc)
      obtain ⟨_, _, hafter, -⟩ := called earlier function [] rfl hk
      cases hafter
  | none =>
      have hfinish : Reading.finish g r = g.buildExpression r.items.reverse := by
        simp only [Reading.finish, hc, hframes]
      rw [hfinish]
      by_cases hend : endsOperand tokens = true
      · refine ⟨fun _ _ => ⟨hend, filled⟩, fun e he => Flaw.limit ?_⟩
        exact Grammar.isLimit_of_alternates (h.alternates hend) he
      · obtain ⟨cause, hb, hcause⟩ := (h.pending (by simpa using hend)).buildExpression g
        rw [hb]
        refine ⟨fun m hm => (by cases hm), fun e he => ?_⟩
        cases he
        rcases hcause with hl | hg
        · exact Flaw.limit hl
        · exact Flaw.gap hg fun complete => hend complete.1

/-- **The trees of scanned tokens.**  Only complete tokens have a tree, and where there is none
there is a flaw. -/
theorem Scanned.ofTokens (h : Scanned g tokens []) :
    (∀ t, TokenTree.ofTokens g tokens = .ok t → Complete tokens) ∧
      ∀ e, TokenTree.ofTokens g tokens = .error e → Flaw g tokens e := by
  unfold TokenTree.ofTokens
  constructor
  · intro t ht
    obtain ⟨r, hr, ht⟩ := bind_eq_ok.mp ht
    obtain ⟨m, hm, -⟩ := bind_eq_ok.mp ht
    obtain ⟨mirrors, filled⟩ := h.mirrors hr
    exact (mirrors.finish filled).1 m hm
  · intro e he
    rcases bind_eq_error.mp he with he | ⟨r, hr, he⟩
    · exact h.flaw_of_step he
    · rcases bind_eq_error.mp he with he | ⟨m, -, he⟩
      · obtain ⟨mirrors, filled⟩ := h.mirrors hr
        exact (mirrors.finish filled).2 e he
      · cases he

/-- Whether an error says that groups or items do not fit together. -/
def ParseError.IsStructural : ParseError → Prop
  | .unmatchedClose _ _ | .unterminated _ _ _ | .malformedTree _ => True
  | _ => False

theorem Flaw.not_isStructural (h : Flaw g tokens e) : ¬ e.IsStructural := by
  cases h with
  | limit he | gap he => cases e <;> first | exact id | cases he
  | uncalled => exact id

/-- **What is scanned fits together.**  No tree is refused to the tokens of a text because a group
is not closed, a closer belongs to no group, or items stand side by side. -/
theorem not_isStructural_of_tokenize {input : String} (h : tokenize g input = .ok tokens)
    (he : TokenTree.ofTokens g tokens = .error e) : ¬ e.IsStructural :=
  ((Scan.scanned_of_tokenize h).ofTokens.2 e he).not_isStructural

/-- The bars around `x` are of one symbol, and a product is not written; the sum in the call lacks
an operand. -/
theorem not_isStructural_of_tokenize_sample :
    ∃ tokens, tokenize Grammar.real "2|x| sin(y + )" = .ok tokens ∧
      TokenTree.ofTokens Grammar.real tokens = .error (.missingOperand "+") ∧
      ¬ (ParseError.missingOperand "+").IsStructural := by
  obtain ⟨tokens, ht, he⟩ : ∃ tokens, tokenize Grammar.real "2|x| sin(y + )" = .ok tokens ∧
      TokenTree.ofTokens Grammar.real tokens = .error (.missingOperand "+") :=
    ⟨[⟨"2", .number, 0⟩, ⟨"*", .multary, 1⟩, ⟨"|", .opening, 1⟩, ⟨"x", .identifier, 2⟩,
      ⟨"|", .closing, 3⟩, ⟨"*", .multary, 5⟩, ⟨"sin", .function, 5⟩, ⟨"(", .opening, 8⟩,
      ⟨"y", .identifier, 9⟩, ⟨"+", .multary, 11⟩, ⟨")", .closing, 13⟩],
      by decide +kernel, by decide +kernel⟩
  exact ⟨tokens, ht, he, not_isStructural_of_tokenize ht he⟩

end OperatorGrammar
