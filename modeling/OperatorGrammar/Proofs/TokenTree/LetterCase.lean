import OperatorGrammar.Proofs.Reading
import OperatorGrammar.Proofs.Row.Build
import OperatorGrammar.Proofs.Scan.LetterCase

/-! # Trees do not tell the case of letters

The only texts of tokens with letters in the case of the text around them are those of numbers, and
nothing is decided by them while a tree is built.  So an expression without the case of its numbers
has the tree without it (`buildExpression_caseless`), and tokens that are the same but for the case
of their numbers have trees that are (`ofTokens_caseless`). -/

namespace OperatorGrammar

/-! ### Trees and items -/

namespace TokenTree

mutual

/-- A tree without the case of its numbers. -/
def caseless : TokenTree → TokenTree
  | .node name kind children => .node (kind.caseless name) kind (caselessAll children)

def caselessAll : List TokenTree → List TokenTree
  | [] => []
  | t :: ts => caseless t :: caselessAll ts

end

theorem caselessAll_eq_map (ts : List TokenTree) : caselessAll ts = ts.map caseless := by
  induction ts with
  | nil => rfl
  | cons t ts ih => rw [caselessAll, List.map_cons, ih]

theorem caseless_node (name : String) (kind : TokenKind) (children : List TokenTree) :
    caseless (.node name kind children) =
      .node (kind.caseless name) kind (children.map caseless) := by
  rw [caseless, caselessAll_eq_map]

theorem heightOfAll_map {f : TokenTree → TokenTree} {ts : List TokenTree}
    (h : ∀ t ∈ ts, (f t).height = t.height) : heightOfAll (ts.map f) = heightOfAll ts := by
  induction ts with
  | nil => rfl
  | cons t ts ih =>
      obtain ⟨ht, hts⟩ := List.forall_mem_cons.mp h
      rw [List.map_cons, heightOfAll, heightOfAll, ht, ih hts]

theorem height_caseless (t : TokenTree) : t.caseless.height = t.height := by
  induction t using TokenTree.induction with
  | node name kind children ih => rw [caseless_node, height, height, heightOfAll_map ih]

end TokenTree

theorem TokenKind.ne_number_of_isInfix {kind : TokenKind} (h : kind.isInfix = true) :
    kind ≠ .number := by
  rintro rfl
  cases h

theorem TokenKind.separates_caseless (kind : TokenKind) (name separator : String) :
    (kind.isInfix && kind.caseless name == separator) = (kind.isInfix && name == separator) := by
  cases hi : kind.isInfix with
  | false => rfl
  | true => rw [caseless_of_ne (ne_number_of_isInfix hi)]

def Measured.caseless (m : Measured) : Measured := { m with tree := m.tree.caseless }

def Item.caseless : Item → Item
  | .operand m => .operand m.caseless
  | .operator token => .operator token

theorem Measured.caseless_leaf (token : Token) :
    (leaf token.text token.kind).caseless = leaf token.caseless.text token.caseless.kind := rfl

theorem Measured.arguments_caseless (separator : String) (m : Measured) :
    m.caseless.arguments separator = (m.arguments separator).map caseless := by
  obtain ⟨⟨name, kind, children⟩, depth⟩ := m
  have hcaseless : caseless ⟨.node name kind children, depth⟩ =
      ⟨.node (kind.caseless name) kind (children.map TokenTree.caseless), depth⟩ :=
    congrArg (Measured.mk · depth) (TokenTree.caseless_node name kind children)
  have node (name : String) (children : List TokenTree) :
      arguments separator ⟨.node name kind children, depth⟩ =
        if kind.isInfix && name == separator then children.map fun t => ⟨t, depth - 1⟩
        else [⟨.node name kind children, depth⟩] := rfl
  rw [hcaseless, node, node, TokenKind.separates_caseless]
  split
  · rw [List.map_map, List.map_map]
    rfl
  · rw [List.map_singleton, hcaseless]

namespace Grammar

variable {g : Grammar} {name : String} {kind : TokenKind}

/-! ### Rows -/

theorem wrap_caseless (hk : kind ≠ .number) (operands : List Measured) :
    Corresponds Measured.caseless (g.wrap name kind operands)
      (g.wrap name kind (operands.map Measured.caseless)) := by
  have same : Measured.deepest (operands.map Measured.caseless) = Measured.deepest operands := by
    unfold Measured.deepest
    rw [List.map_map]
    rfl
  have tree : TokenTree.node name kind ((operands.map Measured.caseless).map Measured.tree) =
      (TokenTree.node name kind (operands.map Measured.tree)).caseless := by
    rw [TokenTree.caseless_node, TokenKind.caseless_of_ne hk, List.map_map, List.map_map]
    rfl
  unfold wrap
  rw [same, tree]
  dsimp only
  split
  · exact Corresponds.error _ _
  · exact Corresponds.ok (⟨_, _⟩ : Measured)

theorem combine_caseless {operator : Token} (hk : operator.kind ≠ .number)
    (operands : List Measured) :
    Corresponds Measured.caseless (g.combine operator operands)
      (g.combine operator (operands.map Measured.caseless)) := by
  unfold combine
  split
  · exact wrap_caseless hk operands
  · split
    · rw [← List.map_reverse]
      cases operands.reverse with
      | nil => exact Corresponds.error _ _
      | cons last rest =>
          rw [List.map_cons]
          dsimp only
          rw [List.foldlM_map]
          exact Corresponds.foldlM (fun right left => wrap_caseless hk [left, right]) rest last
    · cases operands with
      | nil => exact Corresponds.error _ _
      | cons first rest =>
          rw [List.map_cons]
          dsimp only
          rw [List.foldlM_map]
          exact Corresponds.foldlM (fun left right => wrap_caseless hk [left, right]) rest first

theorem takeOperand_caseless (prefixes : List Token) (row : List Item) :
    takeOperand prefixes (row.map Item.caseless) =
      (takeOperand prefixes row).map fun taken =>
        (taken.1, taken.2.1.caseless, taken.2.2.map Item.caseless) := by
  induction row generalizing prefixes with
  | nil => cases prefixes <;> rfl
  | cons item row ih =>
      cases item with
      | operand m => rfl
      | operator token =>
          simp only [List.map_cons, Item.caseless, takeOperand]
          cases token.kind with
          | preUnary => exact ih (token :: prefixes)
          | _ => rfl

/-- Only the message may tell the case of an operand that stands where none may stand. -/
theorem takeSuffixes_caseless (row : List Item) :
    Corresponds id (takeSuffixes row) (takeSuffixes (row.map Item.caseless)) := by
  induction row with
  | nil => exact Corresponds.ok []
  | cons item row ih =>
      cases item with
      | operand m => exact Corresponds.error _ _
      | operator token =>
          simp only [List.map_cons, Item.caseless, takeSuffixes]
          split
          · exact ih.bind fun suffixes => Corresponds.ok (token :: suffixes)
          · exact Corresponds.error _ _

theorem applyUnary_caseless (hk : kind ≠ .number) (tokens : List Token) (m : Measured) :
    Corresponds Measured.caseless (g.applyUnary kind tokens m)
      (g.applyUnary kind tokens m.caseless) := by
  unfold applyUnary
  exact Corresponds.foldlM (fun operand token => wrap_caseless hk [operand]) tokens m

theorem buildOperand_caseless (row : List Item) :
    Corresponds Measured.caseless (g.buildOperand row)
      (g.buildOperand (row.map Item.caseless)) := by
  have pre : TokenKind.preUnary ≠ .number := TokenKind.noConfusion
  have post : TokenKind.postUnary ≠ .number := TokenKind.noConfusion
  unfold buildOperand
  rw [takeOperand_caseless]
  refine (Corresponds.of_map (takeOperand [] row)).bind fun taken => ?_
  obtain ⟨prefixes, operand, rest⟩ := taken
  refine (takeSuffixes_caseless rest).bind fun suffixes => ?_
  refine (applyUnary_caseless post suffixes operand).bind fun inner => ?_
  exact applyUnary_caseless pre prefixes inner

/-- An expression without the case of its numbers has the tree without it. -/
theorem buildExpression_caseless (row : List Item) :
    Corresponds Measured.caseless (g.buildExpression row)
      (g.buildExpression (row.map Item.caseless)) := by
  have infixes (item : Item) :
      item.caseless.infixToken? = item.infixToken?.map id := by
    cases item with
    | operand m => rfl
    | operator token => exact Option.map_id_apply.symm
  induction row using row_induction (g := g) with
  | row row ih =>
      have hloosest := loosest_map infixes (fun _ => rfl) g row
      cases h : g.loosest row with
      | error e =>
          rw [h] at hloosest
          rw [buildExpression_of_loosest_error h, buildExpression_of_loosest_error hloosest]
          exact Corresponds.error e e
      | ok found =>
          rw [h] at hloosest
          cases found with
          | none =>
              rw [buildExpression_of_loosest_none h, buildExpression_of_loosest_none hloosest]
              exact buildOperand_caseless row
          | some operator =>
              have hk := (Item.mem_infixTokens.mp (loosest_eq_some h).1).2
              rw [buildExpression_of_loosest_some h, buildExpression_of_loosest_some hloosest, id,
                splitAtSymbol_map infixes fun _ => rfl]
              refine (Corresponds.mapM fun piece hpiece => ?_).bind
                (combine_caseless (TokenKind.ne_number_of_isInfix hk))
              unfold buildPiece
              rw [List.isEmpty_map]
              split
              · exact Corresponds.error _ _
              · exact ih operator h piece hpiece

end Grammar

/-! ### Reading tokens -/

variable {g : Grammar} {row row' : List Item} {tokens tokens' : List Token} {m : Measured}

theorem close_caseless (e : Enclosing) (row : List Item) :
    Corresponds Measured.caseless (Reading.close g e row)
      (Reading.close g e (row.map Item.caseless)) := by
  have opening : TokenKind.opening ≠ .number := TokenKind.noConfusion
  have function : TokenKind.function ≠ .number := TokenKind.noConfusion
  cases e with
  | group opener =>
      refine (Grammar.buildExpression_caseless row).bind fun inner => ?_
      exact Grammar.wrap_caseless opening [inner]
  | call name opener =>
      simp only [Reading.close, List.isEmpty_map]
      split
      · exact Grammar.wrap_caseless function []
      · refine (Grammar.buildExpression_caseless row).bind fun content => ?_
        rw [Measured.arguments_caseless]
        exact Grammar.wrap_caseless function (content.arguments g.argumentSeparator)

theorem eq_of_map_caseless (hk : ∀ t ∈ tokens, t.kind ≠ .number)
    (h : tokens'.map Token.caseless = tokens.map Token.caseless) : tokens' = tokens := by
  induction tokens generalizing tokens' with
  | nil => exact List.map_eq_nil_iff.mp h
  | cons token tokens ih =>
      obtain ⟨token', rest, rfl, htoken, hrest⟩ := List.map_eq_cons_iff.mp h
      obtain ⟨ht, hts⟩ := List.forall_mem_cons.mp hk
      rw [Token.eq_of_caseless_eq ht htoken, ih hts hrest]

theorem Enclosing.Opens.ne_number {e : Enclosing} (h : e.Opens g) :
    ∀ t ∈ e.tokens, t.kind ≠ .number := by
  cases e with
  | group opener =>
      have opening : opener.kind = .opening := h
      simp [tokens, opening]
  | call function opener =>
      obtain ⟨hfunction, hopener, -⟩ := h
      simp [tokens, hfunction, hopener]

theorem Reads.caseless {n : Nat} (h : Reads g n tokens row)
    (same : tokens'.map Token.caseless = tokens.map Token.caseless) :
    ∃ row', Reads g n tokens' row' ∧ row.map Item.caseless = row'.map Item.caseless := by
  induction h generalizing tokens' with
  | nil =>
      obtain rfl := List.map_eq_nil_iff.mp same
      exact ⟨[], Reads.nil, rfl⟩
  | operand kind _ ih =>
      obtain ⟨token', rest, rfl, htoken, hrest⟩ := List.map_eq_cons_iff.mp same
      obtain ⟨row', hread, hrow⟩ := ih hrest
      refine ⟨_, Reads.operand (Token.kind_eq_of_caseless_eq htoken ▸ kind) hread, ?_⟩
      rw [List.map_cons, List.map_cons, hrow, Item.caseless, Item.caseless,
        Measured.caseless_leaf, Measured.caseless_leaf, htoken]
  | @operator n token tokens row kind _ ih =>
      obtain ⟨token', rest, rfl, htoken, hrest⟩ := List.map_eq_cons_iff.mp same
      obtain ⟨row', hread, hrow⟩ := ih hrest
      have hnumber : token.kind ≠ .number := by
        intro h
        rw [h] at kind
        cases kind
      obtain rfl := Token.eq_of_caseless_eq hnumber htoken
      exact ⟨_, Reads.operator kind hread, by rw [List.map_cons, List.map_cons, hrow]⟩
  | @enclosed n e closer inner tokens content row m opens shallow kind closes _ built _ ih ih' =>
      rw [List.map_append, List.map_append, List.append_assoc] at same
      obtain ⟨opened, behind, rfl, hopened, hbehind⟩ := List.map_eq_append_iff.mp same
      obtain ⟨inner', after, rfl, hinner, hafter⟩ := List.map_eq_append_iff.mp hbehind
      obtain ⟨closer', rest, rfl, hcloser, hrest⟩ := List.map_eq_cons_iff.mp hafter
      have hclosing : closer.kind ≠ .number := kind ▸ TokenKind.noConfusion
      obtain rfl := eq_of_map_caseless opens.ne_number hopened
      obtain rfl := Token.eq_of_caseless_eq hclosing hcloser
      obtain ⟨content', hcontent, hsame⟩ := ih hinner
      obtain ⟨row', hread, hrow⟩ := ih' hrest
      have hclose := close_caseless (g := g) e content'
      rw [← hsame] at hclose
      obtain ⟨m', hm', htree⟩ := (close_caseless e content).exists_ok hclose built
      refine ⟨.operand m' :: row', ?_, ?_⟩
      · rw [← List.append_assoc]
        exact Reads.enclosed opens shallow kind closes hcontent hm' hread
      · rw [List.map_cons, List.map_cons, hrow, Item.caseless, Item.caseless, htree]

/-- **Trees do not tell the case of letters.**  If tokens have a tree, then others that are the same
but for the case of numbers have one that is the same but for it. -/
theorem ofTokens_caseless {t : TokenTree}
    (same : tokens'.map Token.caseless = tokens.map Token.caseless)
    (h : TokenTree.ofTokens g tokens = .ok t) :
    ∃ t', TokenTree.ofTokens g tokens' = .ok t' ∧ t.caseless = t'.caseless := by
  obtain ⟨row, m, hread, hbuild, rfl⟩ := ofTokens_eq_ok.mp h
  obtain ⟨row', hread', hrow⟩ := hread.caseless same
  have hbuild' := Grammar.buildExpression_caseless (g := g) row'
  rw [← hrow] at hbuild'
  obtain ⟨m', hm', htree⟩ := (Grammar.buildExpression_caseless row).exists_ok hbuild' hbuild
  refine ⟨_, ofTokens_eq_ok.mpr ⟨row', m', hread', hm', rfl⟩, ?_⟩
  have := congrArg Measured.tree htree
  rw [TokenTree.top, TokenTree.top, TokenTree.caseless_node, TokenTree.caseless_node,
    List.map_singleton, List.map_singleton]
  exact congrArg (fun t => TokenTree.node _ _ [t]) this

end OperatorGrammar
