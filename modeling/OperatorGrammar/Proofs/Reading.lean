import OperatorGrammar.Grammar.Bundled
import OperatorGrammar.TokenTree.OfTokens
import OperatorGrammar.Proofs.TokenTree.Nodes
import OperatorGrammar.Proofs.Outcome

/-! # What reading tokens amounts to

Tokens are read one by one with a stack of rows.  `Reads g n tokens row` says without a stack that
some tokens, inside `n` groups and calls, stand for a row of items: operands and operators stand
for themselves, and a group or a call from its opening to its closing delimiter stands for the
operand that is built from the row between them.  Reading follows this relation
(`Reads.foldlM_step`), and every state that it reaches is explained by it (`foldlM_step_follows`),
so that a tree is built from tokens exactly if they stand for a row from which it is built
(`ofTokens_eq_ok`). -/

namespace OperatorGrammar

/-- Whether an operator keeps its token as an item of a row. -/
def TokenKind.isOperator : TokenKind → Bool
  | .preUnary | .postUnary | .binary | .multary => true
  | _ => false

theorem TokenKind.isOperator_of_isInfix {kind : TokenKind} (h : kind.isInfix = true) :
    kind.isOperator = true := by
  cases kind with
  | binary | multary => rfl
  | _ => cases h

namespace Enclosing

/-- The tokens with which a group or a call begins. -/
def tokens : Enclosing → List Token
  | .group opener => [opener]
  | .call function opener => [function, opener]

/-- Whether these tokens have the roles that they play, and an argument list its delimiter. -/
def Opens (g : Grammar) : Enclosing → Prop
  | .group opener => opener.kind = .opening
  | .call function opener =>
    function.kind = .function ∧ opener.kind = .opening ∧ opener.text = g.argumentOpener

end Enclosing

open Reading

variable {g : Grammar}

/-- Some tokens inside `n` groups and calls stand for a row of items. -/
inductive Reads (g : Grammar) : Nat → List Token → List Item → Prop
  | nil {n : Nat} : Reads g n [] []
  | operand {n : Nat} {token : Token} {tokens : List Token} {row : List Item}
      (kind : token.kind = .number ∨ token.kind = .identifier) :
      Reads g n tokens row →
        Reads g n (token :: tokens) (.operand (.leaf token.text token.kind) :: row)
  | operator {n : Nat} {token : Token} {tokens : List Token} {row : List Item}
      (kind : token.kind.isOperator = true) :
      Reads g n tokens row → Reads g n (token :: tokens) (.operator token :: row)
  | enclosed {n : Nat} {e : Enclosing} {closer : Token} {inner tokens : List Token}
      {content row : List Item} {m : Measured} (opens : e.Opens g)
      (shallow : n < g.maxDepth.toNat) (kind : closer.kind = .closing)
      (closes : g.closes e.opener.text closer.text = true) :
      Reads g (n + 1) inner content → close g e content = .ok m → Reads g n tokens row →
        Reads g n (e.tokens ++ inner ++ closer :: tokens) (.operand m :: row)

theorem Reads.append {n : Nat} {tokens tokens' : List Token} {row row' : List Item}
    (h : Reads g n tokens row) (h' : Reads g n tokens' row') :
    Reads g n (tokens ++ tokens') (row ++ row') := by
  induction h with
  | nil => exact h'
  | operand kind _ ih => exact Reads.operand kind (ih h')
  | operator kind _ ih => exact Reads.operator kind (ih h')
  | enclosed opens shallow kind closes inner built _ _ ih =>
      have := Reads.enclosed opens shallow kind closes inner built (ih h')
      simpa using this

theorem Reads.mem_of_operator {n : Nat} {tokens : List Token} {row : List Item} {token : Token}
    (h : Reads g n tokens row) (ht : .operator token ∈ row) : token ∈ tokens := by
  induction h with
  | nil => cases ht
  | operand _ _ ih =>
      have := ih (by simpa using ht)
      exact List.mem_cons_of_mem _ this
  | operator _ _ ih =>
      rcases List.mem_cons.mp ht with ht | ht
      · rw [Item.operator.inj ht]
        exact List.mem_cons_self
      · exact List.mem_cons_of_mem _ (ih ht)
  | enclosed _ _ _ _ _ _ _ _ ih =>
      have := ih (by simpa using ht)
      exact List.mem_append_right _ (List.mem_cons_of_mem _ this)

/-! ### One step -/

theorem close_group (opener : Token) (content : List Item) :
    close g (.group opener) content =
      g.buildExpression content >>= fun inner => g.wrap opener.text .opening [inner] := rfl

theorem close_call (function opener : Token) {content : List Item} (h : content ≠ []) :
    close g (.call function opener) content =
      g.buildExpression content >>= fun inner =>
        g.wrap function.text .function (inner.arguments g.argumentSeparator) := by
  simp only [close]
  rw [if_neg (by simpa using h)]

theorem close_group_eq_ok {opener : Token} {content : List Item} {m : Measured} :
    close g (.group opener) content = .ok m ↔
      ∃ inner, g.buildExpression content = .ok inner ∧
        g.wrap opener.text .opening [inner] = .ok m := by
  rw [close_group, bind_eq_ok]

theorem close_call_eq_ok {function opener : Token} {content : List Item} {m : Measured} :
    close g (.call function opener) content = .ok m ↔
      content = [] ∧ g.wrap function.text .function [] = .ok m ∨
        content ≠ [] ∧ ∃ inner, g.buildExpression content = .ok inner ∧
          g.wrap function.text .function (inner.arguments g.argumentSeparator) = .ok m := by
  by_cases h : content = []
  · subst h
    simp [close]
  · rw [close_call function opener h, bind_eq_ok]
    simp [h]

section step

variable {r : Reading} {token : Token}

theorem checkDepth_eq_ok : r.checkDepth g = .ok () ↔ r.frames.length < g.maxDepth.toNat := by
  unfold checkDepth
  by_cases h : g.maxDepth.toNat < r.frames.length + 1
  · rw [if_pos h]
    simp
    omega
  · rw [if_neg h]
    simp
    omega

theorem checkDepth_eq_error {e : ParseError} (h : r.checkDepth g = .error e) :
    e = .nestingTooDeep g.maxDepth := by
  unfold checkDepth at h
  split at h
  · cases h
    rfl
  · cases h

theorem step_operand (hc : r.callee = none) (hk : token.kind = .number ∨ token.kind = .identifier) :
    step g r token = .ok (r.push (.operand (.leaf token.text token.kind))) := by
  rcases hk with hk | hk <;> simp only [step, hc, hk]

theorem step_operator (hc : r.callee = none) (hk : token.kind.isOperator = true) :
    step g r token = .ok (r.push (.operator token)) := by
  unfold step
  cases ht : token.kind <;> rw [ht] at hk <;> simp only [hc] <;> cases hk

theorem step_opening (hc : r.callee = none) (hk : token.kind = .opening) :
    step g r token = r.checkDepth g >>= fun _ => .ok (r.enter (.group token)) := by
  simp only [step, hc, hk]
  rfl

theorem step_function (hc : r.callee = none) (hk : token.kind = .function) :
    step g r token = r.checkDepth g >>= fun _ => .ok { r with callee := some token } := by
  simp only [step, hc, hk]
  rfl

/-- A closing delimiter ends the innermost row, if it belongs to the delimiter that began it. -/
theorem step_closing {frame : Frame} {frames : List Frame} (hc : r.callee = none)
    (hf : r.frames = frame :: frames) (hk : token.kind = .closing) :
    step g r token =
      if g.closes frame.enclosing.opener.text token.text then
        close g frame.enclosing r.items.reverse >>= fun m =>
          .ok { items := .operand m :: frame.before, frames := frames, callee := none }
      else .error (.unmatchedClose token.text token.position) := by
  simp only [step, hc, hf, hk]
  rfl

end step

/-! ### Reading follows the relation -/

/-- A state with some more items in the innermost row. -/
def Reading.extend (r : Reading) (row : List Item) : Reading :=
  { r with items := row.reverse ++ r.items }

theorem foldlM_step_tokens {e : Enclosing} (opens : e.Opens g) {r : Reading}
    (hc : r.callee = none) :
    e.tokens.foldlM (step g) r = r.checkDepth g >>= fun _ => .ok (r.enter e) := by
  cases e with
  | group opener =>
      rw [Enclosing.tokens, List.foldlM_cons, step_opening hc opens]
      cases r.checkDepth g <;> rfl
  | call function opener =>
      obtain ⟨hf, ho, ht⟩ := opens
      rw [Enclosing.tokens, List.foldlM_cons, step_function hc hf]
      cases r.checkDepth g with
      | error e => rfl
      | ok _ => simp [bind, Except.bind, pure, Except.pure, step, ho, ht, enter]

/-- Tokens that stand for a row add it to the innermost row. -/
theorem Reads.foldlM_step {n : Nat} {tokens : List Token} {row : List Item}
    (h : Reads g n tokens row) {r : Reading} (hc : r.callee = none) (hn : r.frames.length = n) :
    tokens.foldlM (step g) r = .ok (r.extend row) := by
  induction h generalizing r with
  | nil => rfl
  | @operand n token tokens row kind _ ih =>
      rw [List.foldlM_cons, step_operand hc kind]
      refine (ih (r := r.push _) hc hn).trans ?_
      simp [push, extend]
  | @operator n token tokens row kind _ ih =>
      rw [List.foldlM_cons, step_operator hc kind]
      refine (ih (r := r.push _) hc hn).trans ?_
      simp [push, extend]
  | @enclosed n e closer inner tokens content row m opens shallow kind closes _ built _ ih ih' =>
      subst hn
      rw [List.foldlM_append, List.foldlM_append, foldlM_step_tokens opens hc,
        checkDepth_eq_ok.mpr shallow]
      have hin := ih (r := r.enter e) rfl rfl
      refine bind_eq_ok.mpr ⟨_, hin, ?_⟩
      rw [List.foldlM_cons, step_closing rfl rfl kind, if_pos closes]
      simp only [extend, enter, List.append_nil, List.reverse_reverse, built]
      have hout := ih' (r := { items := .operand m :: r.items, frames := r.frames }) rfl rfl
      refine hout.trans ?_
      simp [extend, hc]

/-! ### Every state is explained by the relation -/

/-- The tokens that have been read stand for the rows of a state: those since the last delimiter
that is open for the innermost row, those before it for the rows around. -/
inductive Stands (g : Grammar) : List Token → List Item → List Frame → Prop
  | outermost {tokens : List Token} {items : List Item} :
      Reads g 0 tokens items.reverse → Stands g tokens items []
  | inside {before tokens : List Token} {items : List Item} {frame : Frame} {frames : List Frame}
      (opens : frame.enclosing.Opens g) (shallow : frames.length < g.maxDepth.toNat) :
      Stands g before frame.before frames → Reads g (frames.length + 1) tokens items.reverse →
        Stands g (before ++ frame.enclosing.tokens ++ tokens) items (frame :: frames)

theorem Stands.append {before tokens : List Token} {items row : List Item} {frames : List Frame}
    (h : Stands g before items frames) (h' : Reads g frames.length tokens row) :
    Stands g (before ++ tokens) (row.reverse ++ items) frames := by
  cases h with
  | outermost h =>
      refine Stands.outermost ?_
      simpa using h.append h'
  | inside opens shallow hb h =>
      rw [List.append_assoc]
      refine Stands.inside opens shallow hb ?_
      simpa using h.append h'

theorem Stands.mem_of_operator {tokens : List Token} {items : List Item} {frames : List Frame}
    {token : Token} (h : Stands g tokens items frames) (ht : .operator token ∈ items) :
    token ∈ tokens := by
  rw [← List.mem_reverse] at ht
  cases h with
  | outermost h => exact h.mem_of_operator ht
  | inside _ _ _ h => exact List.mem_append_right _ (h.mem_of_operator ht)

/-- A state that some tokens lead to.  A function that waits for its argument list is the last of
them. -/
def Follows (g : Grammar) (tokens : List Token) (r : Reading) : Prop :=
  match r.callee with
  | none => Stands g tokens r.items r.frames
  | some function =>
    ∃ before, tokens = before ++ [function] ∧ function.kind = .function ∧
      r.frames.length < g.maxDepth.toNat ∧ Stands g before r.items r.frames

theorem Stands.follows {tokens : List Token} {r : Reading}
    (h : Stands g tokens r.items r.frames) (hc : r.callee = none) : Follows g tokens r := by
  unfold Follows
  rw [hc]
  exact h

theorem Stands.enter {before : List Token} {r : Reading} {e : Enclosing} (opens : e.Opens g)
    (shallow : r.frames.length < g.maxDepth.toNat) (h : Stands g before r.items r.frames) :
    Follows g (before ++ e.tokens) (r.enter e) := by
  let frame : Frame := ⟨e, r.items⟩
  have : Stands g (before ++ frame.enclosing.tokens ++ []) [] (frame :: r.frames) :=
    Stands.inside opens shallow h Reads.nil
  rw [List.append_nil] at this
  exact this.follows rfl

theorem Follows.step {tokens : List Token} {r r' : Reading} {token : Token}
    (h : Follows g tokens r) (hs : step g r token = .ok r') : Follows g (tokens ++ [token]) r' := by
  unfold Follows at h
  split at h
  · next hc =>
    cases hk : token.kind with
    | number | identifier =>
        rw [step_operand hc (by simp [hk])] at hs
        cases hs
        exact (h.append (Reads.operand (by simp [hk]) Reads.nil)).follows hc
    | preUnary | postUnary | binary | multary =>
        rw [step_operator hc (by rw [hk]; rfl)] at hs
        cases hs
        exact (h.append (Reads.operator (by rw [hk]; rfl) Reads.nil)).follows hc
    | opening =>
        rw [step_opening hc hk] at hs
        obtain ⟨_, hd, hs⟩ := bind_eq_ok.mp hs
        cases hs
        exact Stands.enter (e := .group token) hk (checkDepth_eq_ok.mp hd) h
    | function =>
        rw [step_function hc hk] at hs
        obtain ⟨_, hd, hs⟩ := bind_eq_ok.mp hs
        cases hs
        exact ⟨tokens, rfl, hk, checkDepth_eq_ok.mp hd, h⟩
    | closing =>
        generalize hf : r.frames = frames at h
        cases h with
        | outermost h =>
            simp only [OperatorGrammar.Reading.step, hc, hk, hf] at hs
            cases hs
        | @inside before inner _ frame frames opens shallow hb h =>
            rw [step_closing hc hf hk] at hs
            split at hs
            · next hcl =>
              obtain ⟨m, hm, hs⟩ := bind_eq_ok.mp hs
              cases hs
              have := hb.append (Reads.enclosed opens shallow hk hcl h hm Reads.nil)
              rw [← List.append_assoc, ← List.append_assoc] at this
              exact this.follows rfl
            · cases hs
    | top =>
        simp only [OperatorGrammar.Reading.step, hc, hk] at hs
        cases hs
  · next function hc =>
    obtain ⟨before, rfl, hk, shallow, h⟩ := h
    simp only [OperatorGrammar.Reading.step, hc] at hs
    split at hs
    · next ht =>
      cases hs
      have := Stands.enter (e := .call function token) ⟨hk, ht⟩ shallow h
      simpa [Enclosing.tokens] using this
    · cases hs

/-- Every state that tokens lead to is explained by them. -/
theorem foldlM_step_follows {tokens : List Token} {r : Reading}
    (h : tokens.foldlM (step g) {} = .ok r) : Follows g tokens r := by
  have start : Stands g [] [] [] := Stands.outermost Reads.nil
  have := foldlM_eq_ok (Follows g) (fun _ _ _ _ hf hs => hf.step hs) [] (start.follows rfl) h
  exact this

/-- **Reading is building.**  A tree is built from tokens exactly if they stand for a row from
which it is built. -/
theorem ofTokens_eq_ok {tokens : List Token} {t : TokenTree} :
    TokenTree.ofTokens g tokens = .ok t ↔
      ∃ row m, Reads g 0 tokens row ∧ g.buildExpression row = .ok m ∧ t = .top m.tree := by
  unfold TokenTree.ofTokens
  rw [bind_eq_ok]
  constructor
  · rintro ⟨r, hr, h⟩
    obtain ⟨m, hm, ht⟩ := bind_eq_ok.mp h
    have hf := foldlM_step_follows hr
    unfold finish at hm
    split at hm
    · cases hm
    · cases hm
    · next hc hn =>
      unfold Follows at hf
      rw [hc, hn] at hf
      cases hf with
      | outermost h => exact ⟨r.items.reverse, m, h, hm, (pure_eq_ok.mp ht).symm⟩
  · rintro ⟨row, m, hr, hm, rfl⟩
    have := hr.foldlM_step (r := {}) rfl rfl
    refine ⟨_, this, bind_eq_ok.mpr ⟨m, ?_, rfl⟩⟩
    simpa [finish, extend] using hm

/-! ### A sample with every kind of node -/

/-- The tokens of `-a! + f(x, y^2^3) * (b)`. -/
def sampleTokens : List Token :=
  [⟨"-", .preUnary, 0⟩, ⟨"a", .identifier, 1⟩, ⟨"!", .postUnary, 2⟩, ⟨"+", .multary, 4⟩,
    ⟨"f", .function, 6⟩, ⟨"(", .opening, 7⟩, ⟨"x", .identifier, 8⟩, ⟨",", .multary, 9⟩,
    ⟨"y", .identifier, 11⟩, ⟨"^", .binary, 12⟩, ⟨"2", .number, 13⟩, ⟨"^", .binary, 14⟩,
    ⟨"3", .number, 15⟩, ⟨")", .closing, 16⟩, ⟨"*", .multary, 18⟩, ⟨"(", .opening, 20⟩,
    ⟨"b", .identifier, 21⟩, ⟨")", .closing, 22⟩]

/-- The tree of `-a! + f(x, y^2^3) * (b)`. -/
def sampleTree : TokenTree :=
  .node "+" .multary [
    .node "-" .preUnary [.node "!" .postUnary [.leaf "a" .identifier]],
    .node "*" .multary [
      .node "f" .function [
        .leaf "x" .identifier,
        .node "^" .binary [
          .leaf "y" .identifier,
          .node "^" .binary [.leaf "2" .number, .leaf "3" .number]]],
      .node "(" .opening [.leaf "b" .identifier]]]

theorem ofTokens_sampleTokens :
    TokenTree.ofTokens Grammar.real sampleTokens = .ok (.top sampleTree) := by
  decide +kernel

end OperatorGrammar
