import OperatorGrammar.Proofs.Reading
import OperatorGrammar.Proofs.Row.Build
import OperatorGrammar.Proofs.TokenTree.InOrder

/-! # Trees do not depend on places

The place of a token is kept for messages only.  The tree of a row is the same without the places of
its operators (`buildExpression_unplaced`), and so reading tokens without their places gives the
same tree, or the same error without its place (`ofTokens_unplaced`). -/

namespace OperatorGrammar

open Item

def Token.unplaced (token : Token) : Token := { token with position := 0 }

def Item.unplaced : Item → Item
  | .operand m => .operand m
  | .operator token => .operator token.unplaced

def ParseError.unplaced : ParseError → ParseError
  | .unterminated opener closer _ => .unterminated opener closer 0
  | .unmatchedClose closer _ => .unmatchedClose closer 0
  | .unrecognized text _ => .unrecognized text 0
  | e => e

/-! ### Rows -/

theorem Item.infixToken?_unplaced (item : Item) :
    item.unplaced.infixToken? = item.infixToken?.map Token.unplaced := by
  cases item with
  | operand m => rfl
  | operator token =>
      cases h : token.kind.isInfix <;> simp [Item.unplaced, infixToken?, Token.unplaced, h]

namespace Grammar

variable {g : Grammar}

theorem takeOperand_unplaced (prefixes : List Token) (row : List Item) :
    takeOperand (prefixes.map Token.unplaced) (row.map Item.unplaced) =
      (takeOperand prefixes row).map fun taken =>
        (taken.1.map Token.unplaced, taken.2.1, taken.2.2.map Item.unplaced) := by
  induction row generalizing prefixes with
  | nil => cases prefixes <;> rfl
  | cons item row ih =>
      cases item with
      | operand m => rfl
      | operator token =>
          have hkind : token.unplaced.kind = token.kind := rfl
          simp only [List.map_cons, Item.unplaced, takeOperand, hkind]
          cases token.kind with
          | preUnary => exact ih (token :: prefixes)
          | _ => rfl

theorem takeSuffixes_unplaced (row : List Item) :
    takeSuffixes (row.map Item.unplaced) = (takeSuffixes row).map (List.map Token.unplaced) := by
  induction row with
  | nil => rfl
  | cons item row ih =>
      cases item with
      | operand m => rfl
      | operator token =>
          have hkind : token.unplaced.kind = token.kind := rfl
          simp only [List.map_cons, Item.unplaced, takeSuffixes, hkind, ih]
          split
          · cases takeSuffixes row <;> rfl
          · rfl

theorem applyUnary_unplaced (kind : TokenKind) (tokens : List Token) (m : Measured) :
    g.applyUnary kind (tokens.map Token.unplaced) m = g.applyUnary kind tokens m := by
  unfold applyUnary
  rw [List.foldlM_map]
  rfl

theorem buildOperand_unplaced (row : List Item) :
    g.buildOperand (row.map Item.unplaced) = g.buildOperand row := by
  unfold buildOperand
  have := takeOperand_unplaced [] row
  rw [List.map_nil] at this
  rw [this]
  cases takeOperand [] row with
  | error e => rfl
  | ok taken =>
      obtain ⟨prefixes, operand, rest⟩ := taken
      simp only [Except.map, bind, Except.bind]
      rw [takeSuffixes_unplaced]
      cases takeSuffixes rest with
      | error e => rfl
      | ok suffixes =>
          simp only [Except.map]
          rw [applyUnary_unplaced]
          cases g.applyUnary .postUnary suffixes operand with
          | error e => rfl
          | ok m => exact applyUnary_unplaced .preUnary prefixes m

/-- The tree of a row does not depend on the places of its operators. -/
theorem buildExpression_unplaced (row : List Item) :
    g.buildExpression (row.map Item.unplaced) = g.buildExpression row := by
  induction row using row_induction (g := g) with
  | row row ih =>
      have hloosest := loosest_map Item.infixToken?_unplaced (fun _ => rfl) g row
      cases h : g.loosest row with
      | error e =>
          rw [h] at hloosest
          rw [buildExpression_of_loosest_error h, buildExpression_of_loosest_error hloosest]
      | ok found =>
          rw [h] at hloosest
          cases found with
          | none =>
              rw [buildExpression_of_loosest_none h, buildExpression_of_loosest_none hloosest,
                buildOperand_unplaced]
          | some operator =>
              rw [buildExpression_of_loosest_some h, buildExpression_of_loosest_some hloosest]
              have hpieces : (splitAtSymbol operator.text (row.map Item.unplaced)).mapM
                  (g.buildPiece operator.text) =
                    (splitAtSymbol operator.text row).mapM (g.buildPiece operator.text) := by
                rw [splitAtSymbol_map Item.infixToken?_unplaced fun _ => rfl, List.mapM_map]
                refine mapM_congr_left fun piece hpiece => ?_
                rw [Function.comp_apply, buildPiece, buildPiece, List.isEmpty_map,
                  ih operator h piece hpiece]
              have hcombine : g.combine operator.unplaced = g.combine operator := rfl
              rw [hcombine, ← hpieces]
              rfl

end Grammar

/-! ### Reading tokens -/

def Enclosing.unplaced : Enclosing → Enclosing
  | .group opener => .group opener.unplaced
  | .call function opener => .call function.unplaced opener.unplaced

def Frame.unplaced (frame : Frame) : Frame :=
  { enclosing := frame.enclosing.unplaced, before := frame.before.map Item.unplaced }

namespace Reading

variable {g : Grammar} {r r' : Reading} {tokens tokens' : List Token}

/-- How far tokens have been read, without their places. -/
def unplaced (r : Reading) : Reading :=
  { items := r.items.map Item.unplaced, frames := r.frames.map Frame.unplaced,
    callee := r.callee.map Token.unplaced }

/-- An outcome of reading without places. -/
def bare (outcome : Except ParseError Reading) : Except ParseError Reading :=
  (outcome.mapError ParseError.unplaced).map unplaced

theorem unplaced_unplaced (r : Reading) : r.unplaced.unplaced = r.unplaced := by
  have hitem (item : Item) : item.unplaced.unplaced = item.unplaced := by cases item <;> rfl
  have henclosing (e : Enclosing) : e.unplaced.unplaced = e.unplaced := by cases e <;> rfl
  have hframe (frame : Frame) : frame.unplaced.unplaced = frame.unplaced := by
    simp [Frame.unplaced, henclosing, hitem]
  have htoken (token : Token) : token.unplaced.unplaced = token.unplaced := rfl
  simp [unplaced, hitem, hframe, Function.comp_def, htoken]

theorem opener_unplaced (e : Enclosing) : e.unplaced.opener = e.opener.unplaced := by
  cases e <;> rfl

theorem close_unplaced (e : Enclosing) (row : List Item) :
    close g e.unplaced (row.map Item.unplaced) = close g e row := by
  cases e with
  | group opener =>
      simp only [Enclosing.unplaced, close, Grammar.buildExpression_unplaced]
      rfl
  | call function opener =>
      simp only [Enclosing.unplaced, close, Grammar.buildExpression_unplaced, List.isEmpty_map]
      rfl

theorem checkDepth_unplaced (r : Reading) : r.unplaced.checkDepth g = r.checkDepth g := by
  unfold checkDepth unplaced
  rw [List.length_map]

theorem bare_ok_unplaced (r : Reading) : bare (.ok r.unplaced) = bare (.ok r) :=
  congrArg Except.ok r.unplaced_unplaced

theorem bare_step_unplaced (r : Reading) (token : Token) :
    bare (step g r.unplaced token.unplaced) = bare (step g r token) := by
  cases hc : r.callee with
  | some function =>
      have hc' : r.unplaced.callee = some function.unplaced := by simp [unplaced, hc]
      simp only [step, hc, hc']
      by_cases h : token.kind = .opening ∧ token.text = g.argumentOpener
      · rw [if_pos h]
        refine (congrArg bare (if_pos h)).trans ?_
        exact bare_ok_unplaced (r.enter (.call function token))
      · rw [if_neg h]
        exact (congrArg bare (if_neg h)).trans rfl
  | none =>
      have hc' : r.unplaced.callee = none := by simp [unplaced, hc]
      have hk' : token.unplaced.kind = token.kind := rfl
      cases hk : token.kind with
      | number | identifier =>
          rw [step_operand hc (by simp [hk]), step_operand hc' (by simp [hk', hk])]
          exact bare_ok_unplaced (r.push (.operand (.leaf token.text token.kind)))
      | preUnary | postUnary | binary | multary =>
          rw [step_operator hc (by rw [hk]; rfl), step_operator hc' (by rw [hk', hk]; rfl)]
          exact bare_ok_unplaced (r.push (.operator token))
      | opening =>
          rw [step_opening hc hk, step_opening hc' (hk'.trans hk), checkDepth_unplaced]
          cases r.checkDepth g with
          | error e => rfl
          | ok _ => exact bare_ok_unplaced (r.enter (.group token))
      | function =>
          rw [step_function hc hk, step_function hc' (hk'.trans hk), checkDepth_unplaced]
          cases r.checkDepth g with
          | error e => rfl
          | ok _ => exact bare_ok_unplaced { r with callee := some token }
      | closing =>
          cases hf : r.frames with
          | nil =>
              have hf' : r.unplaced.frames = [] := by simp [unplaced, hf]
              simp only [step, hc, hc', hf, hf', hk', hk]
              rfl
          | cons frame frames =>
              have hf' : r.unplaced.frames = frame.unplaced :: frames.map Frame.unplaced := by
                simp [unplaced, hf]
              have hrow : r.unplaced.items.reverse = r.items.reverse.map Item.unplaced :=
                List.map_reverse.symm
              rw [step_closing hc hf hk, step_closing hc' hf' (hk'.trans hk), hrow]
              simp only [Frame.unplaced, close_unplaced, opener_unplaced]
              change
                bare (if g.closes frame.enclosing.opener.text token.text = true then _ else _) = _
              by_cases h : g.closes frame.enclosing.opener.text token.text = true
              · rw [if_pos h, if_pos h]
                cases close g frame.enclosing r.items.reverse with
                | error e => rfl
                | ok m =>
                    exact bare_ok_unplaced
                      { items := .operand m :: frame.before, frames := frames, callee := none }
              · rw [if_neg h, if_neg h]
                rfl
      | top =>
          simp only [step, hc, hc', hk', hk]
          rfl

theorem bare_foldlM (h : r.unplaced = r'.unplaced)
    (ht : tokens.map Token.unplaced = tokens'.map Token.unplaced) :
    bare (tokens.foldlM (step g) r) = bare (tokens'.foldlM (step g) r') := by
  induction tokens generalizing tokens' r r' with
  | nil =>
      obtain rfl : tokens' = [] := List.map_eq_nil_iff.mp ht.symm
      exact congrArg Except.ok h
  | cons token tokens ih =>
      obtain ⟨token', tokens', rfl, htoken, ht⟩ := List.map_eq_cons_iff.mp ht.symm
      have hstep : bare (step g r token) = bare (step g r' token') := by
        rw [← bare_step_unplaced r, ← bare_step_unplaced r', h, htoken]
      rw [List.foldlM_cons, List.foldlM_cons]
      rcases outcomes_of_map_eq hstep with ⟨next, next', hs, hs', hnext⟩ | ⟨e, e', hs, hs', he⟩
      · rw [hs, hs']
        exact ih hnext ht.symm
      · rw [hs, hs']
        exact congrArg Except.error he

theorem finish_unplaced (r : Reading) :
    (finish g r.unplaced).mapError ParseError.unplaced =
      (finish g r).mapError ParseError.unplaced := by
  unfold finish unplaced
  cases hc : r.callee with
  | some function => rfl
  | none =>
      cases hf : r.frames with
      | cons frame frames =>
          simp only [Option.map_none, List.map_cons, Frame.unplaced, opener_unplaced]
          rfl
      | nil =>
          simp only [Option.map_none, List.map_nil, ← List.map_reverse,
            Grammar.buildExpression_unplaced]

end Reading

/-- **Trees do not depend on places.**  Tokens with the same texts and roles have the same tree, or
are refused with the same error but for its place. -/
theorem ofTokens_unplaced {g : Grammar} {tokens tokens' : List Token}
    (h : tokens.map Token.spelling = tokens'.map Token.spelling) :
    (TokenTree.ofTokens g tokens).mapError ParseError.unplaced =
      (TokenTree.ofTokens g tokens').mapError ParseError.unplaced := by
  have htokens : tokens.map Token.unplaced = tokens'.map Token.unplaced := by
    have := congrArg (List.map fun spelling => (⟨spelling.1, spelling.2, 0⟩ : Token)) h
    rw [List.map_map, List.map_map] at this
    exact this
  have hfold := Reading.bare_foldlM (g := g) (r := {}) rfl htokens
  unfold TokenTree.ofTokens
  rcases outcomes_of_map_eq hfold with ⟨r, r', hr, hr', hsame⟩ | ⟨e, e', hr, hr', he⟩
  · have hfinish : (Reading.finish g r).mapError ParseError.unplaced =
        (Reading.finish g r').mapError ParseError.unplaced := by
      rw [← Reading.finish_unplaced r, hsame, Reading.finish_unplaced]
    rw [hr, hr']
    simp only [bind, Except.bind]
    rcases outcomes_of_mapError_eq hfinish with ⟨m, hm, hm'⟩ | ⟨e, e', hm, hm', he⟩
    · rw [hm, hm']
    · rw [hm, hm']
      exact congrArg Except.error he
  · rw [hr, hr']
    exact congrArg Except.error he

end OperatorGrammar
