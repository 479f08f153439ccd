import OperatorGrammar.Grammar.Bundled
import OperatorGrammar.Proofs.Scan.Backed
import OperatorGrammar.Proofs.Term.Binding
import OperatorGrammar.Proofs.TokenTree.LetterCase
import OperatorGrammar.Term.Evaluation

/-! # The case of letters carries no meaning where the grammar has none

In a grammar without case, texts that are the same in lowercase have tokens that are the same
(`tokenize_caseless`) but for the letter before the exponent of a number
(`Token.SameButExponent.of_caseless_eq`), and trees that are the same but for it
(`ofTokens_caseless`).  A number has the same value with either letter
(`Double.readLiteral?_lowered`), so that terms of such trees have the same values
(`Term.bind_caseless`). -/

namespace OperatorGrammar

variable {c : Char} {cs ds : List Char}

/-! ### The value of a numeral -/

theorem map_toLower_of_isDigit (h : ∀ c ∈ ds, isDigit c = true) : ds.map Char.toLower = ds := by
  have same : ∀ c ∈ ds, c.toLower = id c := by
    intro c hc
    have := toNat_of_isDigit (h c hc)
    exact (toLower_eq_or c).resolve_right (by omega)
  rw [List.map_congr_left same, List.map_id]

theorem readSign_toLower (cs : List Char) :
    readSign (cs.map Char.toLower) = ((readSign cs).1, (readSign cs).2.map Char.toLower) := by
  cases cs with
  | nil => rfl
  | cons c cs =>
      have minus : c.toLower = '-' ↔ c = '-' := toLower_eq_iff (by decide)
      have plus : c.toLower = '+' ↔ c = '+' := toLower_eq_iff (by decide)
      rw [List.map_cons, readSign_cons, readSign_cons]
      simp only [minus, plus]
      split
      · rfl
      · split <;> rfl

namespace Numeral

theorem readExponent?_toLower (cs : List Char) :
    readExponent? (cs.map Char.toLower) = readExponent? cs := by
  cases cs with
  | nil => rfl
  | cons e rest =>
      simp only [List.map_cons, readExponent?, exponentLetter_toLower, readSign_toLower]
      obtain ⟨negative, ds⟩ := readSign rest
      have digits : (ds.map Char.toLower).all isDigit = ds.all isDigit := by
        rw [List.all_map]
        exact congrArg ds.all (funext isDigit_toLower)
      dsimp only
      rw [digits]
      by_cases hall : ds.all isDigit = true
      · rw [map_toLower_of_isDigit (List.all_eq_true.mp hall)]
      · simp only [hall, Bool.false_eq_true, and_false, if_false]

theorem readDecimal?_toLower (negative : Bool) (cs : List Char) :
    readDecimal? negative (cs.map Char.toLower) = readDecimal? negative cs := by
  have digits (cs : List Char) :
      (cs.map Char.toLower).takeWhile isDigit = cs.takeWhile isDigit := by
    rw [takeWhile_toLower isDigit_toLower]
    exact map_toLower_of_isDigit fun _ => List.mem_takeWhile_imp
  unfold readDecimal?
  simp only [digits, dropWhile_toLower isDigit_toLower]
  cases cs.dropWhile isDigit with
  | nil => rfl
  | cons c rest =>
      by_cases hc : c = '.'
      · subst hc
        have point : Char.toLower '.' = '.' := by decide
        simp only [List.map_cons, point, digits, dropWhile_toLower isDigit_toLower,
          readExponent?_toLower]
      · -- The case of a point applies to neither text.
        have hlower : ¬ c.toLower = '.' := mt (toLower_eq_iff (by decide)).mp hc
        have hpoint : ∀ tail, c :: rest ≠ '.' :: tail := fun _ h => hc (List.cons.inj h).1
        have hpoint' : ∀ tail, (c :: rest).map Char.toLower ≠ '.' :: tail :=
          fun _ h => hlower (List.cons.inj h).1
        simp only [readExponent?_toLower]

/-- A text spells the same number in lowercase. -/
theorem read?_lowered (text : String) : read? (lowered text) = read? text := by
  have again (cs : List Char) : (cs.map Char.toLower).map Char.toLower = cs.map Char.toLower := by
    rw [List.map_map]
    exact List.map_congr_left fun c _ => toLower_toLower c
  unfold read? lowered
  rw [String.toList_ofList, readSign_toLower]
  dsimp only
  rw [again, readDecimal?_toLower]

end Numeral

theorem Double.readLiteral?_lowered (text : String) :
    readLiteral? (lowered text) = readLiteral? text := by
  unfold readLiteral? read?
  rw [Numeral.read?_lowered]

/-! ### The letter before an exponent -/

/-- Tokens that are the same but for the letter before the exponent of a number. -/
inductive Token.SameButExponent : Token → Token → Prop
  | same (token : Token) : SameButExponent token token
  | exponent {e e' : Char} (mantissa exponent : List Char) (position : Nat)
      (letter : e = 'e' ∨ e = 'E') (letter' : e' = 'e' ∨ e' = 'E') :
      SameButExponent ⟨String.ofList (mantissa ++ e :: exponent), .number, position⟩
        ⟨String.ofList (mantissa ++ e' :: exponent), .number, position⟩

theorem IsNumber.letter (h : IsNumber cs) :
    (∀ c ∈ cs, c.toNat < 65) ∨ ∃ mantissa e exponent, cs = mantissa ++ e :: exponent ∧
      (e = 'e' ∨ e = 'E') ∧ (∀ c ∈ mantissa, c.toNat < 65) ∧ ∀ c ∈ exponent, c.toNat < 65 := by
  have low {cs : List Char} (h : ∀ c ∈ cs, isNumeric c = true) : ∀ c ∈ cs, c.toNat < 65 := by
    intro c hc
    rcases isNumeric_iff.mp (h c hc) with hc | rfl | rfl | rfl
    · have := toNat_of_isDigit hc
      omega
    · decide
    · decide
    · decide
  obtain ⟨mantissa, exponent, rfl, hmantissa, -, he⟩ := h.exists_mantissa
  have hnumeric := he.isNumeric
  rcases he with rfl | ⟨e, rest, -, -, rfl, hletter, -⟩
  · rw [List.append_nil]
    exact Or.inl (low hmantissa)
  · exact Or.inr ⟨mantissa, e, rest, rfl, hletter, low hmantissa, low hnumeric⟩

/-- A number differs in that letter only from what is the same in lowercase. -/
theorem Token.SameButExponent.of_caseless_eq {g : Grammar} {t t' : Token}
    (backed : g.Backs t.kind t.text) (h : t'.caseless = t.caseless) : SameButExponent t t' := by
  obtain ⟨text, kind, position⟩ := t
  by_cases hk : kind = .number
  · subst hk
    obtain ⟨text', kind', position'⟩ := t'
    obtain rfl : kind' = .number := kind_eq_of_caseless_eq h
    obtain ⟨cs, hcs, rfl⟩ := backed
    injection h with htext _ hposition
    subst hposition
    have hlower : text'.toList.map Char.toLower = cs.map Char.toLower := by
      have htext : lowered text' = lowered (String.ofList cs) := htext
      rw [lowered_ofList] at htext
      exact String.ofList_inj.mp htext
    rw [← String.ofList_toList (s := text')]
    rcases hcs.letter with hlow | ⟨mantissa, e, exponent, rfl, letter, hmantissa, hexponent⟩
    · rw [eq_of_map_toLower_eq hlow hlower]
      exact same _
    · rw [List.map_append] at hlower
      obtain ⟨front, behind, htext', hfront, hbehind⟩ := List.map_eq_append_iff.mp hlower
      obtain ⟨e', rest, rfl, hletter, hrest⟩ := List.map_eq_cons_iff.mp hbehind
      have letter' : e' = 'e' ∨ e' = 'E' :=
        exponentLetter_toLower.mp (hletter ▸ exponentLetter_toLower.mpr letter)
      rw [htext', eq_of_map_toLower_eq hmantissa hfront, eq_of_map_toLower_eq hexponent hrest]
      exact .exponent mantissa exponent position' letter letter'
  · rw [Token.eq_of_caseless_eq hk h]
    exact same _

/-! ### Terms -/

variable {g : Grammar} {tree tree' : TokenTree} {callable : Callable} {trees : List TokenTree}

namespace TokenTree

variable {name : String} {kind : TokenKind}

theorem exists_of_caseless_eq {children : List TokenTree}
    (h : tree'.caseless = (node name kind children).caseless) :
    ∃ name' children', tree' = node name' kind children' ∧
      kind.caseless name' = kind.caseless name ∧
      children'.map caseless = children.map caseless := by
  obtain ⟨name', kind', children'⟩ := tree'
  rw [caseless_node, caseless_node] at h
  injection h with hname hkind hchildren
  subst hkind
  exact ⟨name', children', rfl, hname, hchildren⟩

theorem exists_leaf_of_caseless_eq (h : tree'.caseless = (leaf name kind).caseless) :
    ∃ name', tree' = leaf name' kind ∧ kind.caseless name' = kind.caseless name := by
  obtain ⟨name', _, rfl, hname, hchildren⟩ := exists_of_caseless_eq h
  obtain rfl := List.map_eq_nil_iff.mp hchildren
  exact ⟨name', rfl, hname⟩

theorem exists_child_of_caseless_eq {child : TokenTree} (hk : kind ≠ .number)
    (h : tree'.caseless = (node name kind [child]).caseless) :
    ∃ child', tree' = node name kind [child'] ∧ child'.caseless = child.caseless := by
  obtain ⟨name', _, rfl, hname, hchildren⟩ := exists_of_caseless_eq h
  obtain ⟨child', _, rfl, hchild, hnil⟩ := List.map_eq_cons_iff.mp hchildren
  obtain rfl := List.map_eq_nil_iff.mp hnil
  rw [TokenKind.caseless_of_ne hk, TokenKind.caseless_of_ne hk] at hname
  exact ⟨child', hname ▸ rfl, hchild⟩

end TokenTree

theorem Grammar.contents_caseless (g : Grammar) (t : TokenTree) :
    (g.contents t).map TokenTree.caseless = g.contents t.caseless := by
  obtain ⟨name, kind, children⟩ := t
  have root : g.isSeparator (kind.caseless name) kind = g.isSeparator name kind :=
    kind.separates_caseless name g.argumentSeparator
  rw [TokenTree.caseless_node, contents, contents, root]
  split
  · rfl
  · rw [List.map_singleton, TokenTree.caseless_node]

theorem Grammar.Calls.caseless (h : g.Calls tree callable trees)
    (same : tree'.caseless = tree.caseless) :
    ∃ trees', g.Calls tree' callable trees' ∧ tree'.name = tree.name ∧
      trees'.map TokenTree.caseless = trees.map TokenTree.caseless := by
  cases h with
  | @applied name kind children _ applied found =>
      obtain ⟨name', children', rfl, hname, hchildren⟩ := TokenTree.exists_of_caseless_eq same
      have hk : kind ≠ .number := by
        rintro rfl
        cases applied
      rw [TokenKind.caseless_of_ne hk, TokenKind.caseless_of_ne hk] at hname
      subst hname
      exact ⟨children', Calls.applied applied found, rfl, hchildren⟩
  | @enclosed name content _ found =>
      obtain ⟨content', rfl, hcontent⟩ :=
        TokenTree.exists_child_of_caseless_eq TokenKind.noConfusion same
      refine ⟨g.contents content', Calls.enclosed found, rfl, ?_⟩
      rw [contents_caseless, contents_caseless, hcontent]

namespace Term

variable {t : Term}

/-- Terms that have the same value under any bindings. -/
def Agree (t t' : Term) : Prop := ∀ b, t'.evaluate b = t.evaluate b

theorem evaluateAll_eq_of_agree {arguments arguments' : List Term}
    (h : List.Forall₂ Agree arguments arguments') (b : Bindings) :
    evaluateAll b arguments' = evaluateAll b arguments := by
  induction h with
  | nil => rfl
  | cons h _ ih => rw [evaluateAll, evaluateAll, h b, ih]

theorem agree_call {arguments arguments' : List Term} (label : String) (callable : Callable)
    (h : List.Forall₂ Agree arguments arguments') :
    Agree (call label callable arguments) (call label callable arguments') := by
  intro b
  unfold call
  split
  · rw [evaluate, evaluate, evaluateAll_eq_of_agree h]
  · rw [evaluate, evaluate, evaluateAll_eq_of_agree h]

theorem exists_arguments {trees' : List TokenTree} {arguments : List Term}
    (h : List.Forall₂ (fun tree a => ∀ tree' : TokenTree, tree'.caseless = tree.caseless →
      ∃ a', bind g tree' = .ok a' ∧ Agree a a') trees arguments)
    (same : trees'.map TokenTree.caseless = trees.map TokenTree.caseless) :
    ∃ arguments', List.Forall₂ (fun tree a => bind g tree = .ok a) trees' arguments' ∧
      List.Forall₂ Agree arguments arguments' := by
  induction h generalizing trees' with
  | nil =>
      obtain rfl := List.map_eq_nil_iff.mp same
      exact ⟨[], .nil, .nil⟩
  | cons ha _ ih =>
      obtain ⟨tree', rest, rfl, htree, hrest⟩ := List.map_eq_cons_iff.mp same
      obtain ⟨a', hbind, hagree⟩ := ha tree' htree
      obtain ⟨arguments', hbound, hagrees⟩ := ih hrest
      exact ⟨a' :: arguments', .cons hbind hbound, .cons hagree hagrees⟩

/-- **Values do not tell the case of letters.** -/
theorem bind_caseless (h : bind g tree = .ok t) :
    ∀ tree' : TokenTree, tree'.caseless = tree.caseless → ∃ t', bind g tree' = .ok t' ∧
      Agree t t' := by
  have top : TokenKind.top ≠ .number := TokenKind.noConfusion
  have opening : TokenKind.opening ≠ .number := TokenKind.noConfusion
  refine bind_induction (P := fun tree t => ∀ tree' : TokenTree, tree'.caseless = tree.caseless →
    ∃ t', bind g tree' = .ok t' ∧ Agree t t') ?_ ?_ ?_ ?_ ?_ ?_ h
  · intro name child t _ ih tree' same
    obtain ⟨child', rfl, hchild⟩ := TokenTree.exists_child_of_caseless_eq top same
    rw [bind_root]
    exact ih child' hchild
  · intro name child t plain _ ih tree' same
    obtain ⟨child', rfl, hchild⟩ := TokenTree.exists_child_of_caseless_eq opening same
    rw [bind_group plain]
    exact ih child' hchild
  · intro name x hx tree' same
    obtain ⟨name', rfl, hname⟩ := TokenTree.exists_leaf_of_caseless_eq same
    have hname : lowered name' = lowered name := hname
    rw [← Double.readLiteral?_lowered, ← hname, Double.readLiteral?_lowered] at hx
    exact ⟨_, (bind_number name').trans (ofLiteral_eq_ok.mpr ⟨x, hx, rfl⟩), fun _ => rfl⟩
  · intro name value hv tree' same
    obtain ⟨name', rfl, hname⟩ := TokenTree.exists_leaf_of_caseless_eq same
    obtain rfl : name' = name := hname
    have bound := bindIdentifier_eq_ok.mpr (Or.inl ⟨value, hv, rfl⟩)
    exact ⟨_, (bind_identifier name').trans bound, fun _ => rfl⟩
  · intro name kind hn hk tree' same
    obtain ⟨name', rfl, hname⟩ := TokenTree.exists_leaf_of_caseless_eq same
    obtain rfl : name' = name := hname
    have bound := bindIdentifier_eq_ok.mpr (Or.inr ⟨kind, hn, hk, rfl⟩)
    exact ⟨_, (bind_identifier name').trans bound, fun _ => rfl⟩
  · intro tree callable trees arguments hcalls admits harguments tree' same
    obtain ⟨trees', hcalls', hname, htrees⟩ := hcalls.caseless same
    obtain ⟨arguments', hbound, hagree⟩ :=
      exists_arguments (harguments.imp fun _ _ h => h.2) htrees
    have hlength : trees'.length = trees.length := by
      have := congrArg List.length htrees
      rwa [List.length_map, List.length_map] at this
    refine ⟨call tree'.name callable arguments', ?_, ?_⟩
    · rw [bind_eq_bindCall hcalls']
      exact bindCall_eq_ok.mpr ⟨hlength ▸ admits, arguments', hbound, rfl⟩
    · rw [hname]
      exact agree_call tree.name callable hagree

end Term

/-! ### Texts -/

variable {input input' : String} {b : Bindings} {v : Value}

theorem evaluateText_eq_ok :
    evaluateText g b input = .ok v ↔
      ∃ tokens tree t, tokenize g input = .ok tokens ∧ TokenTree.ofTokens g tokens = .ok tree ∧
        tree.depth ≤ (g.maxDepth + 1).toNat ∧ Term.bind g tree = .ok t ∧ t.evaluate b = .ok v := by
  unfold evaluateText Term.ofText TokenTree.ofText
  simp only [bind_eq_ok, mapError_eq_ok, Term.ofTree_eq_ok]
  constructor
  · rintro ⟨t, ⟨tree, ⟨tokens, htokens, htree⟩, hdepth, hbind⟩, hv⟩
    exact ⟨tokens, tree, t, htokens, htree, hdepth, hbind, hv⟩
  · rintro ⟨tokens, tree, t, htokens, htree, hdepth, hbind, hv⟩
    exact ⟨t, ⟨tree, ⟨tokens, htokens, htree⟩, hdepth, hbind⟩, hv⟩

/-- Texts that are the same in lowercase have tokens, or errors, that are the same but for the case
that they take over. -/
theorem tokenize_caseless (insensitive : g.caseSensitive = false)
    (same : lowered input' = lowered input) :
    (∃ tokens tokens', tokenize g input = .ok tokens ∧ tokenize g input' = .ok tokens' ∧
      tokens'.map Token.caseless = tokens.map Token.caseless) ∨
    ∃ e e', tokenize g input = .error e ∧ tokenize g input' = .error e' ∧
      e'.caseless = e.caseless := by
  have h := tokenize_lowered insensitive input
  rw [← same, tokenize_lowered insensitive input'] at h
  rcases outcomes_of_map_eq h with ⟨tokens', tokens, h', h, heq⟩ | ⟨e', e, h', h, heq⟩
  · exact Or.inl ⟨tokens, tokens', h, h', heq⟩
  · exact Or.inr ⟨e, e', h, h', heq⟩

theorem evaluateText_caseless (insensitive : g.caseSensitive = false)
    (same : lowered input' = lowered input) (h : evaluateText g b input = .ok v) :
    evaluateText g b input' = .ok v := by
  obtain ⟨tokens, tree, t, htokens, htree, hdepth, hbind, hv⟩ := evaluateText_eq_ok.mp h
  rcases tokenize_caseless insensitive same with ⟨_, tokens', h, htokens', hsame⟩ | ⟨_, _, h, -⟩
  · obtain rfl := Except.ok.inj (h.symm.trans htokens)
    obtain ⟨tree', htree', hcase⟩ := ofTokens_caseless hsame htree
    obtain ⟨t', hbind', agree⟩ := Term.bind_caseless hbind tree' hcase.symm
    have depth : tree'.depth = tree.depth := by
      rw [TokenTree.depth_eq_height, TokenTree.depth_eq_height, ← tree'.height_caseless, ← hcase,
        TokenTree.height_caseless]
    exact evaluateText_eq_ok.mpr
      ⟨tokens', tree', t', htokens', htree', depth ▸ hdepth, hbind', (agree b).trans hv⟩
  · rw [htokens] at h
    cases h

/-- **Grammars without case ignore the case of letters.**  Let two texts differ in nothing but the
case of ASCII letters.  In a grammar without case both are refused while they are scanned, for the
same reason at the same place, or they have the same tokens but for the letters before the exponents
of numbers; and under any bindings one of them has a value exactly if the other one has it. -/
theorem evaluateText_letterCase (insensitive : g.caseSensitive = false)
    (same : lowered input' = lowered input) :
    ((∃ e e', tokenize g input = .error e ∧ tokenize g input' = .error e' ∧
        e'.caseless = e.caseless) ∨
      ∃ tokens tokens', tokenize g input = .ok tokens ∧ tokenize g input' = .ok tokens' ∧
        List.Forall₂ Token.SameButExponent tokens tokens') ∧
    ∀ b v, evaluateText g b input = .ok v ↔ evaluateText g b input' = .ok v := by
  refine ⟨?_, fun b v => ⟨evaluateText_caseless insensitive same,
    evaluateText_caseless insensitive same.symm⟩⟩
  rcases tokenize_caseless insensitive same with ⟨tokens, tokens', h, h', heq⟩ | herror
  · refine Or.inr ⟨tokens, tokens', h, h', ?_⟩
    have backed := Scan.backed_of_tokenize h
    clear h h'
    induction tokens generalizing tokens' with
    | nil =>
        obtain rfl := List.map_eq_nil_iff.mp heq
        exact .nil
    | cons t tokens ih =>
        obtain ⟨t', rest, rfl, ht, hrest⟩ := List.map_eq_cons_iff.mp heq
        obtain ⟨hb, hbs⟩ := List.forall_mem_cons.mp backed
        exact .cons (.of_caseless_eq hb ht) (ih rest hrest hbs)
  · exact Or.inl herror

/-- A call of a function, with a number in either case. -/
theorem evaluateText_letterCase_sample :
    Grammar.boolean.caseSensitive = false ∧
      lowered "IF(Not x, 1E2 == y, TRUE)" = lowered "if(not X, 1e2 == Y, True)" ∧
      (∃ tokens tokens', tokenize Grammar.boolean "if(not X, 1e2 == Y, True)" = .ok tokens ∧
        tokenize Grammar.boolean "IF(Not x, 1E2 == y, TRUE)" = .ok tokens' ∧
        List.Forall₂ Token.SameButExponent tokens tokens') ∧
      ∀ b v, evaluateText Grammar.boolean b "if(not X, 1e2 == Y, True)" = .ok v ↔
        evaluateText Grammar.boolean b "IF(Not x, 1E2 == y, TRUE)" = .ok v := by
  have insensitive : Grammar.boolean.caseSensitive = false := by decide +kernel
  have same : lowered "IF(Not x, 1E2 == y, TRUE)" = lowered "if(not X, 1e2 == Y, True)" := by
    decide +kernel
  have scanned : (tokenize Grammar.boolean "if(not X, 1e2 == Y, True)").isOk = true := by
    decide +kernel
  obtain ⟨⟨e, e', h, -⟩ | htokens, hvalue⟩ := evaluateText_letterCase insensitive same
  · rw [h] at scanned
    cases scanned
  · exact ⟨insensitive, same, htokens, hvalue⟩

end OperatorGrammar
