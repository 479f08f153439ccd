import OperatorGrammar.Proofs.Consistency
import OperatorGrammar.Proofs.Precedence
import OperatorGrammar.Proofs.Row.Spread
import OperatorGrammar.Term.OfTree

/-! # The arguments of a call

The content of an argument list is built like any other row, and the arguments are found in the tree
that comes out.  Where the separator is the loosest operator, that row comes apart at the separators
between the arguments and nowhere else (`joins_of_between`), so that the trees of the arguments are
the operands of the separator.  A separator that gathers its operands hands each of them to the
function; any other one pairs them up, and only the two trees of the last pair are handed on
(`ofTokens_call`). -/

namespace OperatorGrammar

open Item Reading

/-! ### Tokens outside groups and calls -/

/-- The tokens of a sequence that stand in no group and in no argument list.  A level above zero
counts the delimiters that are still open. -/
def outermost : Nat → List Token → List Token
  | _, [] => []
  | level, token :: tokens =>
    if token.kind = .opening then outermost (level + 1) tokens
    else if token.kind = .closing then outermost (level - 1) tokens
    else if level = 0 then token :: outermost level tokens
    else outermost level tokens

section outermost

variable {g : Grammar} {level n : Nat} {token : Token} {tokens rest : List Token} {row : List Item}

theorem outermost_opening (h : token.kind = .opening) :
    outermost level (token :: tokens) = outermost (level + 1) tokens := by
  rw [outermost, if_pos h]

theorem outermost_closing (h : token.kind = .closing) :
    outermost (level + 1) (token :: tokens) = outermost level tokens := by
  rw [outermost, if_neg (by simp [h]), if_pos h, Nat.add_sub_cancel]

theorem outermost_zero (ho : token.kind ≠ .opening) (hc : token.kind ≠ .closing) :
    outermost 0 (token :: tokens) = token :: outermost 0 tokens := by
  rw [outermost, if_neg ho, if_neg hc, if_pos rfl]

theorem outermost_succ (ho : token.kind ≠ .opening) (hc : token.kind ≠ .closing) :
    outermost (level + 1) (token :: tokens) = outermost (level + 1) tokens := by
  rw [outermost, if_neg ho, if_neg hc, if_neg (Nat.succ_ne_zero level)]

theorem outermost_enclosing {e : Enclosing} (opens : e.Opens g) :
    outermost (level + 1) (e.tokens ++ rest) = outermost (level + 2) rest := by
  cases e with
  | group opener => exact outermost_opening opens
  | call function opener =>
      obtain ⟨hf, ho, -⟩ := opens
      exact (outermost_succ (by simp [hf]) (by simp [hf])).trans (outermost_opening ho)

/-- Nothing behind the delimiter that opens a group or a call is lost. -/
theorem outermost_enclosing_subset {e : Enclosing} (opens : e.Opens g) :
    outermost 1 rest ⊆ outermost 0 (e.tokens ++ rest) := by
  cases e with
  | group opener =>
      have : outermost 0 ([opener] ++ rest) = outermost 1 rest := outermost_opening opens
      rw [Enclosing.tokens, this]
      exact List.Subset.refl _
  | call function opener =>
      obtain ⟨hf, ho, -⟩ := opens
      have : outermost 0 ([function, opener] ++ rest) = function :: outermost 1 rest :=
        (outermost_zero (by simp [hf]) (by simp [hf])).trans
          (congrArg (function :: ·) (outermost_opening ho))
      rw [Enclosing.tokens, this]
      exact List.subset_cons_self function _

theorem Reads.outermost_succ (h : Reads g n tokens row) (level : Nat) (rest : List Token) :
    outermost (level + 1) (tokens ++ rest) = outermost (level + 1) rest := by
  induction h generalizing level rest with
  | nil => rfl
  | @operand _ token _ _ kind _ ih =>
      refine (OperatorGrammar.outermost_succ ?_ ?_).trans (ih level rest) <;>
        rcases kind with kind | kind <;> simp [kind]
  | @operator _ token _ _ kind _ ih =>
      refine (OperatorGrammar.outermost_succ ?_ ?_).trans (ih level rest) <;> intro h <;>
        rw [h] at kind <;> cases kind
  | @enclosed _ e closer inner tokens _ _ _ opens _ kind _ _ _ _ ihInner ih =>
      rw [List.append_assoc, List.append_assoc, outermost_enclosing opens, ihInner]
      exact (outermost_closing kind).trans (ih level rest)

theorem Reads.mem_outermost (h : Reads g n tokens row) (ht : .operator token ∈ row) :
    token ∈ outermost 0 tokens := by
  induction h with
  | nil => cases ht
  | @operand _ first _ _ kind _ ih =>
      have plain : first.kind ≠ .opening ∧ first.kind ≠ .closing := by
        rcases kind with kind | kind <;> simp [kind]
      rw [outermost_zero plain.1 plain.2]
      exact List.mem_cons_of_mem _ (ih (by simpa using ht))
  | @operator _ first _ _ kind _ ih =>
      have plain : first.kind ≠ .opening ∧ first.kind ≠ .closing := by
        constructor <;> intro h <;> rw [h] at kind <;> cases kind
      rw [outermost_zero plain.1 plain.2]
      rcases List.mem_cons.mp ht with ht | ht
      · rw [Item.operator.inj ht]
        exact List.mem_cons_self
      · exact List.mem_cons_of_mem _ (ih ht)
  | @enclosed _ e closer inner tokens _ _ _ opens _ kind _ hinner _ _ _ ih =>
      rw [List.append_assoc]
      apply outermost_enclosing_subset opens
      rw [hinner.outermost_succ, outermost_closing kind]
      exact ih (by simpa using ht)

end outermost

/-! ### What a call is read as -/

section call

variable {g : Grammar} {n : Nat} {tokens content : List Token} {row : List Item} {r r' : Reading}
  {function opener closer : Token} {tree : TokenTree}

theorem Reading.extend_push (r : Reading) (item : Item) (row : List Item) :
    (r.push item).extend row = r.extend (item :: row) := by
  simp [push, extend]

/-- Tokens that stand for a row add it to the innermost row wherever they can be read, also where
fewer levels are left than the row was read with. -/
theorem Reads.eq_extend (h : Reads g n tokens row) (hc : r.callee = none)
    (hr : tokens.foldlM (step g) r = .ok r') : r' = r.extend row := by
  induction h generalizing r r' with
  | nil => exact (pure_eq_ok.mp hr).symm
  | operand kind _ ih =>
      rw [List.foldlM_cons, step_operand hc kind] at hr
      exact (ih (r := r.push _) hc hr).trans (extend_push ..)
  | operator kind _ ih =>
      rw [List.foldlM_cons, step_operator hc kind] at hr
      exact (ih (r := r.push _) hc hr).trans (extend_push ..)
  | @enclosed _ e closer inner tokens content row m opens _ kind closes _ built _ ihInner ih =>
      rw [List.foldlM_append, List.foldlM_append, foldlM_step_tokens opens hc] at hr
      obtain ⟨inside, hinside, hr⟩ := bind_eq_ok.mp hr
      obtain ⟨start, hstart, hinside⟩ := bind_eq_ok.mp hinside
      obtain ⟨_, -, hstart⟩ := bind_eq_ok.mp hstart
      cases hstart
      obtain rfl := ihInner rfl hinside
      rw [List.foldlM_cons, step_closing rfl rfl kind, if_pos closes] at hr
      simp only [extend, enter, List.append_nil, List.reverse_reverse, built] at hr
      refine (ih (r := { items := .operand m :: r.items, frames := r.frames }) rfl hr).trans ?_
      simp [extend, hc]

theorem Grammar.buildExpression_operand (m : Measured) :
    g.buildExpression [.operand m] = .ok m :=
  Grammar.buildExpression_eq_ok.mpr (Or.inl ⟨rfl, Grammar.buildOperand_eq_ok.mpr
    ⟨[], m, [], m, rfl, by simp, by simp, rfl, rfl⟩⟩)

theorem exists_close_of_ofTokens (opens : (Enclosing.call function opener).Opens g)
    (kind : closer.kind = .closing) (hrow : Reads g n content row)
    (h : TokenTree.ofTokens g (function :: opener :: content ++ [closer]) = .ok tree) :
    ∃ m, close g (.call function opener) row = .ok m ∧ tree = .top m.tree := by
  obtain ⟨last, hlast, h⟩ := bind_eq_ok.mp h
  obtain ⟨expression, hfinish, htree⟩ := bind_eq_ok.mp h
  rw [show function :: opener :: content ++ [closer] =
      (Enclosing.call function opener).tokens ++ (content ++ [closer]) from rfl,
    List.foldlM_append, foldlM_step_tokens opens rfl] at hlast
  obtain ⟨start, hstart, hlast⟩ := bind_eq_ok.mp hlast
  obtain ⟨_, -, hstart⟩ := bind_eq_ok.mp hstart
  cases hstart
  rw [List.foldlM_append] at hlast
  obtain ⟨inside, hinside, hlast⟩ := bind_eq_ok.mp hlast
  obtain rfl := hrow.eq_extend rfl hinside
  rw [List.foldlM_cons, step_closing rfl rfl kind] at hlast
  split at hlast
  · obtain ⟨_, hclose, hlast⟩ := bind_eq_ok.mp hlast
    obtain ⟨m, hm, hclose⟩ := bind_eq_ok.mp hclose
    cases hclose
    cases hlast
    simp only [extend, enter, List.append_nil, List.reverse_reverse] at hm
    have hsingle : g.buildExpression [.operand m] = .ok expression := hfinish
    rw [Grammar.buildExpression_operand, Except.ok.injEq] at hsingle
    subst hsingle
    exact ⟨m, hm, (pure_eq_ok.mp htree).symm⟩
  · cases hlast

end call

/-! ### Operands of the loosest operator -/

namespace Grammar

variable {g : Grammar} {symbol : String} {row : List Item} {rows : List (List Item)}

/-- The first symbol of the order of operations is the loosest one of every row that it is in. -/
theorem text_eq_of_loosest {operator token : Token} (first : g.precedence symbol = some 0)
    (h : g.loosest row = .ok (some operator)) (ht : token ∈ infixTokens row)
    (text : token.text = symbol) : operator.text = symbol := by
  rcases (loosest_eq_some h).2 token ht with he | hlt
  · exact he.symm.trans text
  · obtain ⟨_, n, -, hn, hlt⟩ := looser_iff.mp hlt
    rw [text, first] at hn
    obtain rfl := Option.some.inj hn
    exact absurd hlt (Nat.not_lt_zero _)

theorem eq_singleton_or_present
    (h : Between (fun token => token.kind.isInfix = true ∧ token.text = symbol) rows row) :
    rows = [row] ∨ 2 ≤ rows.length ∧ ∃ token ∈ infixTokens row, token.text = symbol := by
  cases h with
  | last => exact Or.inl rfl
  | @cons rows _ _ operator sort rest =>
      have : rows ≠ [] := by
        rintro rfl
        cases rest
      have := List.length_pos_iff.mpr this
      refine Or.inr ⟨by rw [List.length_cons]; omega, operator, mem_infixTokens.mpr ⟨?_, sort.1⟩,
        sort.2⟩
      exact List.mem_append_right _ List.mem_cons_self

/-- Rows between uses of the first symbol of the order of operations are joined by it. -/
theorem joins_of_between {operands : List Measured} {m : Measured}
    (first : g.precedence symbol = some 0)
    (between : Between (fun token => token.kind.isInfix = true ∧ token.text = symbol) rows row)
    (present : ∃ token ∈ infixTokens row, token.text = symbol)
    (plain : ∀ r ∈ rows, ∀ item ∈ r, item.separates symbol = false)
    (pieces : List.Forall₂ (fun r x => g.buildExpression r = .ok x) rows operands)
    (built : g.buildExpression row = .ok m) :
    ∃ kind : TokenKind, kind.isInfix = true ∧ Joins g symbol kind operands m := by
  obtain ⟨token, htoken, htext⟩ := present
  rcases buildExpression_eq_ok.mp built with ⟨hnone, -⟩ | ⟨operator, found, hl, hfound, hjoins⟩
  · rw [hnone] at htoken
    cases htoken
  · obtain rfl := text_eq_of_loosest first hl htoken htext
    rw [splitAtSymbol_of_between (fun _ => id) between plain] at hfound
    have unique : Relator.RightUnique fun r x => g.buildExpression r = .ok x :=
      fun _ _ _ hx hy => Except.ok.inj (hx.symm.trans hy)
    obtain rfl : found = operands :=
      List.right_unique_forall₂' unique (hfound.imp fun _ _ h => h.2) pieces
    exact ⟨operator.kind, (mem_infixTokens.mp (loosest_eq_some hl).1).2, hjoins⟩

/-! ### Trees over paired operands -/

/-- The two trees below an operator that has paired up its operands, a first one, some more and a
last one: it starts with the first two, or with the last two if it groups from the right. -/
def paired (g : Grammar) (symbol : String) (kind : TokenKind) (first : TokenTree)
    (middle : List TokenTree) (last : TokenTree) : List TokenTree :=
  if g.isRightAssociative symbol then
    [first, middle.foldr (fun left right => .node symbol kind [left, right]) last]
  else [middle.foldl (fun left right => .node symbol kind [left, right]) first, last]

theorem paired_nil (symbol : String) (kind : TokenKind) (first last : TokenTree) :
    g.paired symbol kind first [] last = [first, last] := by
  unfold paired
  split <;> rfl

section joins

variable {kind : TokenKind} {operands : List Measured} {m : Measured}

theorem Joins.tree_of_isMultary (hm : g.isMultary symbol = true)
    (h : Joins g symbol kind operands m) :
    m.tree = .node symbol kind (operands.map Measured.tree) := by
  obtain ⟨-, rfl⟩ := wrap_eq_ok.mp ((joins_of_isMultary hm).mp h)
  rfl

theorem Joins.tree_of_not_isMultary {first last : TokenTree} {middle : List TokenTree}
    (hm : ¬ g.isMultary symbol = true) (h : Joins g symbol kind operands m)
    (trees : operands.map Measured.tree = first :: (middle ++ [last])) :
    m.tree = .node symbol kind (g.paired symbol kind first middle last) := by
  unfold paired
  by_cases hr : g.isRightAssociative symbol = true
  · rw [if_pos hr]
    rw [← List.cons_append] at trees
    obtain ⟨rest, lasts, rfl, hrest, hlasts⟩ := List.map_eq_append_iff.mp trees
    obtain ⟨x, rfl, rfl⟩ := List.map_eq_singleton_iff.mp hlasts
    have := foldlM_eq_foldl Measured.tree Measured.tree
      (fun right left => .node symbol kind [left, right])
      (fun right left x hw => by rw [(wrap_eq_ok.mp hw).2]; rfl) ((joins_fromRight hm hr _ _).mp h)
    rw [this, List.map_reverse, List.foldl_reverse, hrest]
    rfl
  · rw [if_neg hr]
    obtain ⟨x, rest, rfl, rfl, hrest⟩ := List.map_eq_cons_iff.mp trees
    have := foldlM_eq_foldl Measured.tree Measured.tree
      (fun left right => .node symbol kind [left, right])
      (fun left right x hw => by rw [(wrap_eq_ok.mp hw).2]; rfl) ((joins_fromLeft hm hr _ _).mp h)
    rw [this, hrest, List.foldl_append]
    rfl

end joins

end Grammar

/-! ### Calls with separated arguments -/

/-- Segments with separators between them make one sequence of tokens. -/
inductive Separated (g : Grammar) : List (List Token) → List Token → Prop
  | last (segment : List Token) : Separated g [segment] segment
  | cons {segments : List (List Token)} {segment rest : List Token} {separator : Token}
      (sort : g.isSeparator separator.text separator.kind = true) :
      Separated g segments rest →
        Separated g (segment :: segments) (segment ++ separator :: rest)

section separated

variable {g : Grammar} {segments : List (List Token)} {content : List Token}
  {arguments : List TokenTree}

theorem isSeparator_iff {token : Token} : g.isSeparator token.text token.kind = true ↔
    token.kind.isInfix = true ∧ token.text = g.argumentSeparator := by
  simp [Grammar.isSeparator]

/-- A segment without separators outside its groups and calls is read as a row without
separators. -/
theorem not_separates_of_reads {n : Nat} {segment : List Token} {row : List Item}
    (h : Reads g n segment row)
    (plain : ∀ token ∈ outermost 0 segment, g.isSeparator token.text token.kind = false) :
    ∀ item ∈ row, item.separates g.argumentSeparator = false := by
  intro item hitem
  rw [Bool.eq_false_iff]
  intro hs
  obtain ⟨token, rfl, sort⟩ := separates_eq_true.mp hs
  have := plain token (h.mem_outermost hitem)
  rw [isSeparator_iff.mpr sort] at this
  cases this

/-- Segments that are expressions are read as rows, and their sequence as these rows with the
separators between them. -/
theorem exists_rows_of_separated (separated : Separated g segments content)
    (plain : ∀ segment ∈ segments, ∀ token ∈ outermost 0 segment,
      g.isSeparator token.text token.kind = false)
    (trees : List.Forall₂ (fun segment t => TokenTree.ofTokens g segment = .ok (.top t))
      segments arguments) :
    ∃ rows row operands, Reads g 0 content row ∧
      Between (fun token => token.kind.isInfix = true ∧ token.text = g.argumentSeparator)
        rows row ∧
      (∀ r ∈ rows, ∀ item ∈ r, item.separates g.argumentSeparator = false) ∧
      List.Forall₂ (fun r x => g.buildExpression r = .ok x) rows operands ∧
      operands.map Measured.tree = arguments := by
  induction separated generalizing arguments with
  | last segment =>
      obtain ⟨t, _, ht, hnil, rfl⟩ := List.forall₂_cons_left_iff.mp trees
      obtain rfl := List.forall₂_nil_left_iff.mp hnil
      obtain ⟨row, m, hrow, hbuilt, htop⟩ := ofTokens_eq_ok.mp ht
      rw [List.forall_mem_singleton] at plain
      refine ⟨[row], row, [m], hrow, Between.last row, ?_, .cons hbuilt .nil, ?_⟩
      · rw [List.forall_mem_singleton]
        exact not_separates_of_reads hrow plain
      · rw [TokenTree.top_injective htop]
        rfl
  | @cons _ segment _ separator sort _ ih =>
      obtain ⟨t, _, ht, hrest, rfl⟩ := List.forall₂_cons_left_iff.mp trees
      rw [List.forall_mem_cons] at plain
      obtain ⟨rows, row', operands, hrow', between, hplain, pieces, rfl⟩ := ih plain.2 hrest
      obtain ⟨row, m, hrow, hbuilt, htop⟩ := ofTokens_eq_ok.mp ht
      have sort := isSeparator_iff.mp sort
      have hseparator := hrow'.operator (TokenKind.isOperator_of_isInfix sort.1)
      refine ⟨row :: rows, row ++ .operator separator :: row', m :: operands,
        hrow.append hseparator, Between.cons sort between, ?_, .cons hbuilt pieces, ?_⟩
      · rw [List.forall_mem_cons]
        exact ⟨not_separates_of_reads hrow plain.1, hplain⟩
      · rw [TokenTree.top_injective htop]
        rfl

theorem arguments_of_isInfix {inner : Measured} {kind : TokenKind} {children : List TokenTree}
    (between : kind.isInfix = true) (root : inner.tree = .node g.argumentSeparator kind children) :
    (inner.arguments g.argumentSeparator).map Measured.tree = children := by
  rw [Measured.arguments_map_tree, root, if_pos ⟨between, rfl⟩, TokenTree.children]

theorem arguments_of_not_separates {row : List Item} {inner : Measured} (ordered : g.OrderedRow row)
    (plain : ∀ item ∈ row, item.separates g.argumentSeparator = false)
    (built : g.buildExpression row = .ok inner) :
    (inner.arguments g.argumentSeparator).map Measured.tree = [inner.tree] := by
  rw [Measured.arguments_map_tree, if_neg]
  rintro ⟨hk, hname⟩
  obtain ⟨token, htoken, htext⟩ := (Grammar.buildExpression_ordered ordered built).2 hk
  obtain ⟨hitem, hinfix⟩ := mem_infixTokens.mp htoken
  have := plain _ hitem
  rw [separates_eq_true.mpr ⟨token, rfl, hinfix, htext.trans hname⟩] at this
  cases this

/-- The tree of a call whose arguments are separated: the tree of the only one stands below it, or
what the separator makes of the trees of two or more. -/
theorem exists_joins_of_call {function opener closer : Token} {tree : TokenTree}
    (first : g.precedence g.argumentSeparator = some 0)
    (opens : (Enclosing.call function opener).Opens g) (closes : closer.kind = .closing)
    (separated : Separated g segments content)
    (plain : ∀ segment ∈ segments, ∀ token ∈ outermost 0 segment,
      g.isSeparator token.text token.kind = false)
    (trees : List.Forall₂ (fun segment t => TokenTree.ofTokens g segment = .ok (.top t))
      segments arguments)
    (h : TokenTree.ofTokens g (function :: opener :: content ++ [closer]) = .ok tree) :
    ∃ inner : Measured,
      tree = .top (.node function.text .function
        ((inner.arguments g.argumentSeparator).map Measured.tree)) ∧
      (arguments.length = 1 ∧
          (inner.arguments g.argumentSeparator).map Measured.tree = arguments ∨
        2 ≤ arguments.length ∧
          ∃ (kind : TokenKind) (operands : List Measured), kind.isInfix = true ∧
            g.Joins g.argumentSeparator kind operands inner ∧
            operands.map Measured.tree = arguments) := by
  obtain ⟨rows, row, operands, hrow, between, hplain, pieces, rfl⟩ :=
    exists_rows_of_separated separated plain trees
  obtain ⟨m, hclose, rfl⟩ := exists_close_of_ofTokens opens closes hrow h
  rcases Grammar.eq_singleton_or_present between with rfl | ⟨two, present⟩
  · rw [List.forall_mem_singleton] at hplain
    obtain ⟨x, _, hx, hnil, rfl⟩ := List.forall₂_cons_left_iff.mp pieces
    obtain rfl := List.forall₂_nil_left_iff.mp hnil
    rcases close_call_eq_ok.mp hclose with ⟨hnil, -⟩ | ⟨-, inner, built, hwrap⟩
    · exact absurd hnil (Grammar.ne_nil_of_buildExpression hx)
    · obtain ⟨-, rfl⟩ := Grammar.wrap_eq_ok.mp hwrap
      obtain rfl := Except.ok.inj (built.symm.trans hx)
      have ordered := Grammar.orderedRow_of_reads hrow
      exact ⟨inner, rfl, Or.inl ⟨rfl, arguments_of_not_separates ordered hplain built⟩⟩
  · rcases close_call_eq_ok.mp hclose with ⟨rfl, -⟩ | ⟨-, inner, built, hwrap⟩
    · obtain ⟨_, htoken, -⟩ := present
      cases htoken
    · obtain ⟨-, rfl⟩ := Grammar.wrap_eq_ok.mp hwrap
      obtain ⟨kind, hk, hjoins⟩ :=
        Grammar.joins_of_between first between present hplain pieces built
      refine ⟨inner, rfl, Or.inr ⟨?_, kind, operands, hk, hjoins, rfl⟩⟩
      rwa [List.length_map, ← pieces.length_eq]

/-- **A call has one child for each argument, unless its separator pairs up more than two.**  In the
grammar the separator is the first symbol of the order of operations, and each argument is an
expression without separators outside its groups and calls.  If the call is an expression, its
children are the trees of the arguments in order where the separator gathers its operands or there
are no more than two of them.  A separator that pairs up its operands leaves the two trees of the
last pair, however many arguments there are. -/
theorem ofTokens_call {d : Declaration} {function opener closer : Token} {tree : TokenTree}
    (hd : d.build = .ok g) (first : g.order.head? = some g.argumentSeparator)
    (opens : (Enclosing.call function opener).Opens g) (closes : closer.kind = .closing)
    (separated : Separated g segments content)
    (plain : ∀ segment ∈ segments, ∀ token ∈ outermost 0 segment,
      g.isSeparator token.text token.kind = false)
    (trees : List.Forall₂ (fun segment t => TokenTree.ofTokens g segment = .ok (.top t))
      segments arguments)
    (h : TokenTree.ofTokens g (function :: opener :: content ++ [closer]) = .ok tree) :
    (g.isMultary g.argumentSeparator = true ∨ arguments.length ≤ 2 →
      tree = .top (.node function.text .function arguments)) ∧
    (¬ g.isMultary g.argumentSeparator = true →
      ∀ start middle last, arguments = start :: (middle ++ [last]) →
        ∃ kind : TokenKind, kind.isInfix = true ∧
          tree = .top (.node function.text .function
            (g.paired g.argumentSeparator kind start middle last))) := by
  have loosest : g.precedence g.argumentSeparator = some 0 := by
    rwa [(Declaration.build_precedence hd _ _), ← List.head?_eq_getElem?]
  obtain ⟨inner, rfl, ⟨one, alone⟩ | ⟨two, kind, operands, hk, hjoins, rfl⟩⟩ :=
    exists_joins_of_call loosest opens closes separated plain trees h
  · rw [alone]
    refine ⟨fun _ => rfl, fun _ start middle last harguments => ?_⟩
    rw [harguments] at one
    simp at one
  · have pairs (hm : ¬ g.isMultary g.argumentSeparator = true) {start last : TokenTree}
        {middle : List TokenTree} (ho : operands.map Measured.tree = start :: (middle ++ [last])) :
        (inner.arguments g.argumentSeparator).map Measured.tree =
          g.paired g.argumentSeparator kind start middle last :=
      arguments_of_isInfix hk (hjoins.tree_of_not_isMultary hm ho)
    refine ⟨fun few => ?_, fun hm start middle last ho => ⟨kind, hk, by rw [pairs hm ho]⟩⟩
    by_cases hm : g.isMultary g.argumentSeparator = true
    · rw [arguments_of_isInfix hk (hjoins.tree_of_isMultary hm)]
    · obtain ⟨start, last, ho⟩ : ∃ start last, operands.map Measured.tree = [start, last] :=
        List.length_eq_two.mp (Nat.le_antisymm (few.resolve_left hm) two)
      have pair : (inner.arguments g.argumentSeparator).map Measured.tree =
          g.paired g.argumentSeparator kind start [] last := pairs hm ho
      rw [pair, ho, Grammar.paired_nil]

/-- A call of three arguments, one of them a group with a separator of its own. -/
theorem ofTokens_call_sample :
    let a : List Token := [⟨"a", .identifier, 4⟩]
    let b : List Token := [⟨"(", .opening, 7⟩, ⟨"b", .identifier, 8⟩, ⟨",", .multary, 9⟩,
      ⟨"c", .identifier, 10⟩, ⟨")", .closing, 11⟩]
    let d : List Token := [⟨"d", .identifier, 14⟩, ⟨"!", .postUnary, 15⟩]
    let content : List Token := a ++ ⟨",", .multary, 5⟩ :: (b ++ ⟨",", .multary, 12⟩ :: d)
    TokenTree.ofTokens Grammar.real
        (⟨"max", .function, 0⟩ :: ⟨"(", .opening, 3⟩ :: content ++ [⟨")", .closing, 16⟩]) =
      .ok (.top (.node "max" .function [.leaf "a" .identifier,
        .node "(" .opening [.node "," .multary [.leaf "b" .identifier, .leaf "c" .identifier]],
        .node "!" .postUnary [.leaf "d" .identifier]])) := by
  intro a b d content
  obtain ⟨tree, h⟩ : ∃ tree, TokenTree.ofTokens Grammar.real
      (⟨"max", .function, 0⟩ :: ⟨"(", .opening, 3⟩ :: content ++ [⟨")", .closing, 16⟩]) =
        .ok tree := by
    refine ⟨.top (.node "max" .function [.leaf "a" .identifier,
      .node "(" .opening [.node "," .multary [.leaf "b" .identifier, .leaf "c" .identifier]],
      .node "!" .postUnary [.leaf "d" .identifier]]), by decide +kernel⟩
  have separated : Separated Grammar.real [a, b, d] content :=
    Separated.cons (by decide +kernel) (Separated.cons (by decide +kernel) (Separated.last d))
  have trees : List.Forall₂
      (fun segment t => TokenTree.ofTokens Grammar.real segment = .ok (.top t)) [a, b, d]
      [.leaf "a" .identifier,
        .node "(" .opening [.node "," .multary [.leaf "b" .identifier, .leaf "c" .identifier]],
        .node "!" .postUnary [.leaf "d" .identifier]] :=
    .cons (by decide +kernel) (.cons (by decide +kernel) (.cons (by decide +kernel) .nil))
  have plain : ∀ segment ∈ [a, b, d], ∀ token ∈ outermost 0 segment,
      Grammar.real.isSeparator token.text token.kind = false := by decide +kernel
  have opens : (Enclosing.call ⟨"max", .function, 0⟩ ⟨"(", .opening, 3⟩).Opens Grammar.real := by
    exact ⟨rfl, rfl, by decide +kernel⟩
  have hd : Declaration.real.build = .ok Grammar.real :=
    Declaration.build_eq_ok.mpr ⟨by decide +kernel, rfl⟩
  rw [h, (ofTokens_call hd (by decide +kernel) opens rfl separated plain trees h).1
    (Or.inl (by decide +kernel))]

/-- A separator that is a binary operator pairs up the first two of three arguments. -/
theorem call_of_two_of_three :
    let d := Declaration.ofClauses
      [.parenthetical "(" ")", .binary "," .subtract, .order [","], .function "f" .choice]
    let a : List Token := [⟨"a", .identifier, 2⟩]
    let b : List Token := [⟨"b", .identifier, 4⟩]
    let c : List Token := [⟨"c", .identifier, 6⟩]
    let content : List Token := a ++ ⟨",", .binary, 3⟩ :: (b ++ ⟨",", .binary, 5⟩ :: c)
    ∃ g, d.build = .ok g ∧ g.order.head? = some g.argumentSeparator ∧
      Separated g [a, b, c] content ∧
      TokenTree.ofTokens g a = .ok (.top (.leaf "a" .identifier)) ∧
      TokenTree.ofTokens g b = .ok (.top (.leaf "b" .identifier)) ∧
      TokenTree.ofTokens g c = .ok (.top (.leaf "c" .identifier)) ∧
      TokenTree.ofTokens g
          (⟨"f", .function, 0⟩ :: ⟨"(", .opening, 1⟩ :: content ++ [⟨")", .closing, 7⟩]) =
        .ok (.top (.node "f" .function
          [.node "," .binary [.leaf "a" .identifier, .leaf "b" .identifier],
            .leaf "c" .identifier])) := by
  intro d a b c content
  have hd : d.build = .ok d.assemble := Declaration.build_eq_ok.mpr ⟨by decide +kernel, rfl⟩
  have separated : Separated d.assemble [a, b, c] content :=
    Separated.cons (by decide +kernel) (Separated.cons (by decide +kernel) (Separated.last c))
  exact ⟨d.assemble, hd, by decide +kernel, separated, by decide +kernel, by decide +kernel,
    by decide +kernel, by decide +kernel⟩

end separated

end OperatorGrammar
