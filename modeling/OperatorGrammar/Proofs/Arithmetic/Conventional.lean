import OperatorGrammar.Proofs.Reading
import OperatorGrammar.Proofs.Row.Build
import OperatorGrammar.Proofs.Arithmetic.Calculator
import OperatorGrammar.Number.Literal

/-! # Arithmetic keeps its conventional meaning

Real arithmetic ranks `+` looser than `-`, and `*` looser than `/`, so that its trees are sums of
differences and products of quotients.  `TokenTree.exact` reads such a tree over the rational
numbers.  Its value is the one that a calculator finds from left to right
(`ofTokens_conventional`).

The induction is on the building of the tree, and it carries two statements about a row.  A row
whose operators bind more tightly than the one before it is one number for the calculator
(`isNumber_of_buildExpression`); a row at the beginning of a level adds its value to the total,
although the calculator may leave it with a term that has not ended (`isSum_of_buildExpression`). -/

namespace OperatorGrammar

open Item

/-- Whether a token may occur in ordinary arithmetic. -/
def Token.isArithmetic (token : Token) : Bool :=
  match token.kind with
  | .number => true
  | .preUnary => token.text == "+" || token.text == "-"
  | .binary | .multary => ["+", "-", "*", "/"].contains token.text
  | .opening => token.text == "("
  | .closing => token.text == ")"
  | _ => false

/-! ### The exact value of a tree -/

/-- The value of an infix operator over the values of its operands, of which `+` and `*` may have
any number. -/
def infixValue (symbol : String) (values : List ℚ) : Option ℚ :=
  match symbol, values with
  | "+", xs => some xs.sum
  | "*", xs => some xs.prod
  | symbol, [x, y] => operate symbol x y
  | _, _ => some 0

/-- The value of a node over the values of its children: the root and groups have that of their
content.  Nodes that do not occur in ordinary arithmetic are zero, so that only a division by zero
has no value. -/
def nodeValue (name : String) (kind : TokenKind) (values : List ℚ) : Option ℚ :=
  match kind, values with
  | .top, [x] => some x
  | .opening, [x] => some x
  | .preUnary, [x] => some (signed name x)
  | .binary, xs => infixValue name xs
  | .multary, xs => infixValue name xs
  | _, _ => some 0

/-- The number that a numeral spells, before any rounding. -/
def spelled (name : String) : ℚ :=
  match Numeral.read? name with
  | some (.decimal negative coefficient exponent) =>
    (if negative then -1 else 1) * coefficient * 10 ^ exponent
  | _ => 0

namespace TokenTree

mutual

/-- The exact value of a tree, for some values of its numerals; nothing if that divides by zero. -/
def exact (literal : String → ℚ) : TokenTree → Option ℚ
  | .node name kind children =>
    if kind = .number then some (literal name)
    else exacts literal children >>= nodeValue name kind

def exacts (literal : String → ℚ) : List TokenTree → Option (List ℚ)
  | [] => some []
  | t :: ts => exact literal t >>= fun x => (exacts literal ts).map (x :: ·)

end

variable {literal : String → ℚ}

theorem exact_node {name : String} {kind : TokenKind} (h : kind ≠ .number)
    (children : List TokenTree) : exact literal (.node name kind children) =
      exacts literal children >>= nodeValue name kind := by
  rw [exact, if_neg h]

theorem exacts_singleton (t : TokenTree) :
    exacts literal [t] = (exact literal t).map fun x => [x] := by
  cases h : exact literal t <;> simp [exacts, h]

theorem exact_preUnary (name : String) (t : TokenTree) :
    exact literal (.node name .preUnary [t]) = (exact literal t).map (signed name) := by
  rw [exact_node TokenKind.noConfusion, exacts_singleton]
  cases exact literal t <;> rfl

theorem exact_opening (name : String) (t : TokenTree) :
    exact literal (.node name .opening [t]) = exact literal t := by
  rw [exact_node TokenKind.noConfusion, exacts_singleton]
  cases exact literal t <;> rfl

theorem exact_top (t : TokenTree) : exact literal (.top t) = exact literal t := by
  rw [top, exact_node TokenKind.noConfusion, exacts_singleton]
  cases exact literal t <;> rfl

theorem exact_joined {name : String} {kind : TokenKind} (h : kind.isInfix = true)
    (children : List TokenTree) : exact literal (.node name kind children) =
      exacts literal children >>= infixValue name := by
  cases kind with
  | binary | multary => exact exact_node TokenKind.noConfusion children
  | _ => cases h

end TokenTree

open TokenTree

/-! ### Symbols of real arithmetic -/

theorem looser_factor : ∀ s ∈ ["+", "-"], ∀ t ∈ ["*", "/"], Grammar.real.Looser s t := by
  decide +kernel

theorem factor_of_looser : ∀ s ∈ ["-", "*", "/"], ∀ t ∈ ["+", "-", "*", "/"],
    Grammar.real.Looser s t → t = "*" ∨ t = "/" := by
  decide +kernel

theorem not_looser_divide : ∀ t ∈ ["+", "-", "*", "/"], ¬ Grammar.real.Looser "/" t := by
  decide +kernel

/-! ### Folds that may fail -/

section folds

variable {α β γ δ : Type}

/-- Two folds whose steps correspond have corresponding results. -/
theorem foldlM_hom {f : β → α → Option β} {f' : γ → δ → Option γ} (k : β → Option γ)
    {xs : List α} {ys : List δ}
    (h : List.Forall₂ (fun x y => ∀ b, f b x >>= k = k b >>= fun c => f' c y) xs ys) (b : β) :
    xs.foldlM f b >>= k = k b >>= fun c => ys.foldlM f' c := by
  induction h generalizing b with
  | nil => simp
  | @cons x y xs ys hxy _ ih =>
      calc (x :: xs).foldlM f b >>= k = f b x >>= fun b' => xs.foldlM f b' >>= k := by
            rw [List.foldlM_cons, bind_assoc]
        _ = f b x >>= fun b' => k b' >>= fun c => ys.foldlM f' c := by simp only [ih]
        _ = k b >>= fun c => f' c y >>= fun c' => ys.foldlM f' c' := by
            rw [← bind_assoc, hxy, bind_assoc]
        _ = k b >>= fun c => (y :: ys).foldlM f' c := by simp only [List.foldlM_cons]

theorem foldlM_map_hom {f : β → α → Option β} {f' : γ → δ → Option γ} (k : β → γ)
    {xs : List α} {ys : List δ}
    (h : List.Forall₂ (fun x y => ∀ b, (f b x).map k = f' (k b) y) xs ys) (b : β) :
    (xs.foldlM f b).map k = ys.foldlM f' (k b) := by
  have hsteps : List.Forall₂ (fun x y => ∀ b,
      (f b x >>= fun b => some (k b)) = some (k b) >>= fun c => f' c y) xs ys :=
    h.imp fun x y hxy b => by simpa [Option.map_eq_bind] using hxy b
  simpa [Option.map_eq_bind] using foldlM_hom (fun b => some (k b)) hsteps b

end folds

namespace Grammar

variable {literal : String → ℚ}

/-! ### Joined operands -/

/-- The value of the operands of an infix operator from left to right, from a value before them. -/
def operateAll (literal : String → ℚ) (symbol : String) (operands : List Measured) (x : ℚ) :
    Option ℚ :=
  operands.foldlM (fun x operand => operand.tree.exact literal >>= operate symbol x) x

theorem operateAll_cons (symbol : String) (operand : Measured) (operands : List Measured) (x : ℚ) :
    operateAll literal symbol (operand :: operands) x =
      operand.tree.exact literal >>= fun y =>
        operate symbol x y >>= operateAll literal symbol operands := by
  unfold operateAll
  rw [List.foldlM_cons, bind_assoc]

/-- The operands may as well be evaluated before the first operation, since the only failure is to
have no value. -/
theorem operateAll_eq (symbol : String) (operands : List Measured) (x : ℚ) :
    operateAll literal symbol operands x =
      exacts literal (operands.map Measured.tree) >>= fun ys => ys.foldlM (operate symbol) x := by
  induction operands generalizing x with
  | nil => rfl
  | cons operand operands ih =>
      rw [operateAll_cons, List.map_cons, exacts]
      have ih : operateAll literal symbol operands = fun x =>
          exacts literal (operands.map Measured.tree) >>= fun ys => ys.foldlM (operate symbol) x :=
        funext ih
      cases operand.tree.exact literal with
      | none => rfl
      | some y =>
          rw [ih]
          cases exacts literal (operands.map Measured.tree) with
          | none => simp
          | some ys => rfl

theorem operateAll_add {symbol : String} (h : symbol = "+" ∨ symbol = "-") (c : ℚ)
    (operands : List Measured) (x : ℚ) :
    operateAll literal symbol operands (c + x) =
      (operateAll literal symbol operands x).map (c + ·) := by
  symm
  refine foldlM_map_hom (c + ·) (List.forall₂_same.mpr fun operand _ x => ?_) x
  cases operand.tree.exact literal with
  | none => rfl
  | some y => exact (operate_add h c x y).symm

/-- An operator that gathers its operands adds up all of them, or multiplies them. -/
theorem exact_of_wrap {symbol : String} {kind : TokenKind} {first m : Measured}
    {rest : List Measured} (h : real.wrap symbol kind (first :: rest) = .ok m)
    (hk : kind.isInfix = true)
    (hv : ∀ x ys, infixValue symbol (x :: ys) = ys.foldlM (operate symbol) x) :
    m.tree.exact literal = first.tree.exact literal >>= operateAll literal symbol rest := by
  obtain ⟨-, rfl⟩ := wrap_eq_ok.mp h
  rw [exact_joined hk, List.map_cons, exacts]
  cases first.tree.exact literal with
  | none => rfl
  | some x =>
      change _ = operateAll literal symbol rest x
      rw [operateAll_eq]
      cases exacts literal (rest.map Measured.tree) with
      | none => rfl
      | some ys => exact hv x ys

theorem exact_of_foldlM_wrap {symbol : String} {kind : TokenKind} {first m : Measured}
    {rest : List Measured}
    (h : rest.foldlM (fun left right => real.wrap symbol kind [left, right]) first = .ok m)
    (hk : kind.isInfix = true) (hv : ∀ x y, infixValue symbol [x, y] = operate symbol x y) :
    m.tree.exact literal = first.tree.exact literal >>= operateAll literal symbol rest := by
  induction rest generalizing first with
  | nil =>
      cases h
      exact (bind_pure _).symm
  | cons operand rest ih =>
      rw [List.foldlM_cons] at h
      obtain ⟨left, hw, h⟩ := bind_eq_ok.mp h
      obtain ⟨-, rfl⟩ := wrap_eq_ok.mp hw
      rw [ih h, exact_joined hk, List.map_cons, List.map_singleton, exacts, exacts_singleton]
      cases first.tree.exact literal with
      | none => rfl
      | some x =>
          change _ = operateAll literal symbol (operand :: rest) x
          rw [operateAll_cons]
          cases operand.tree.exact literal with
          | none => rfl
          | some y => exact congrArg (· >>= operateAll literal symbol rest) (hv x y)

/-- The tree over operands that an infix operator joins has their value from left to right. -/
theorem Joins.exact_eq {symbol : String} {kind : TokenKind} {first m : Measured}
    {rest : List Measured} (h : Joins real symbol kind (first :: rest) m)
    (hk : kind.isInfix = true) (hs : symbol ∈ ["+", "-", "*", "/"]) :
    m.tree.exact literal = first.tree.exact literal >>= operateAll literal symbol rest := by
  have gathered (hm : real.isMultary symbol = true)
      (hv : ∀ x ys, infixValue symbol (x :: ys) = ys.foldlM (operate symbol) x) :
      m.tree.exact literal = first.tree.exact literal >>= operateAll literal symbol rest :=
    exact_of_wrap ((joins_of_isMultary hm).mp h) hk hv
  have paired (hm : ¬ real.isMultary symbol = true)
      (hr : ¬ real.isRightAssociative symbol = true)
      (hv : ∀ x y, infixValue symbol [x, y] = operate symbol x y) :
      m.tree.exact literal = first.tree.exact literal >>= operateAll literal symbol rest :=
    exact_of_foldlM_wrap ((joins_fromLeft hm hr first rest).mp h) hk hv
  simp only [List.mem_cons, List.not_mem_nil, or_false] at hs
  rcases hs with rfl | rfl | rfl | rfl
  · exact gathered (by decide +kernel) fun x ys => (foldlM_operate_plus x ys).symm
  · exact paired (by decide +kernel) (by decide +kernel) fun _ _ => rfl
  · exact gathered (by decide +kernel) fun x ys => (foldlM_operate_times x ys).symm
  · exact paired (by decide +kernel) (by decide +kernel) fun _ _ => rfl

end Grammar

/-! ### Rows -/

namespace Level

variable {literal : String → ℚ}

/-- Takes an item of a row: an operand is one number, whatever stands in it. -/
def read (literal : String → ℚ) (l : Level) : Item → Option Level
  | .operand m => m.tree.exact literal >>= l.put
  | .operator token => some (l.press token)

def readAfter (literal : String → ℚ) (symbol : String) (l : Level) (row : List Item) :
    Option Level :=
  row.foldlM (read literal) (l.await symbol)

theorem foldlM_read_operator (token : Token) (row : List Item) (l : Level) :
    (Item.operator token :: row).foldlM (read literal) l =
      row.foldlM (read literal) (l.press token) := rfl

theorem press_infix {token : Token} (h : token.kind.isInfix = true) (l : Level) :
    l.press token = l.await token.text := by
  unfold press
  rw [if_neg]
  intro hp
  rw [hp] at h
  cases h

theorem foldlM_read_between {symbol : String} {first row : List Item} {rest : List (List Item)}
    (h : Between (fun token => token.kind.isInfix = true ∧ token.text = symbol) (first :: rest) row)
    (l : Level) : row.foldlM (read literal) l =
      first.foldlM (read literal) l >>= rest.foldlM (readAfter literal symbol) := by
  induction rest generalizing first row l with
  | nil =>
      cases h with
      | last => exact (bind_pure _).symm
      | cons _ h => cases h
  | cons piece rest ih =>
      cases h with
      | cons sort h =>
          obtain ⟨hk, rfl⟩ := sort
          rw [List.foldlM_append]
          congr 1
          funext l'
          rw [foldlM_read_operator, press_infix hk, ih h, List.foldlM_cons]
          rfl

theorem foldlM_read_signs {tokens : List Token} (hp : ∀ t ∈ tokens, t.kind = .preUnary)
    {operand m : Measured} (h : Grammar.real.applyUnary .preUnary tokens.reverse operand = .ok m)
    (l : Level) : (tokens.map Item.operator ++ [Item.operand operand]).foldlM (read literal) l =
      m.tree.exact literal >>= l.put := by
  induction tokens generalizing l m with
  | nil =>
      cases h
      exact bind_pure _
  | cons token tokens ih =>
      rw [List.reverse_cons] at h
      obtain ⟨inner, hi, hw⟩ := Grammar.applyUnary_concat.mp h
      obtain ⟨-, rfl⟩ := Grammar.wrap_eq_ok.mp hw
      obtain ⟨hk, hp⟩ := List.forall_mem_cons.mp hp
      have hl : l.press token = l.sign token.text := if_pos hk
      rw [List.map_cons, List.cons_append, foldlM_read_operator, ih hp hi, hl, List.map_singleton,
        exact_preUnary]
      cases inner.tree.exact literal with
      | none => rfl
      | some x => exact put_sign l token.text x

end Level

/-- Whether the operators of a row are those of ordinary arithmetic. -/
def ArithmeticRow (row : List Item) : Prop :=
  ∀ token, .operator token ∈ row → token.isArithmetic = true

namespace ArithmeticRow

variable {row : List Item}

theorem piece {symbol : String} {piece : List Item} (h : ArithmeticRow row)
    (hp : piece ∈ splitAtSymbol symbol row) : ArithmeticRow piece :=
  fun token ht => h token (mem_of_mem_piece hp ht).1

theorem symbol_mem {token : Token} (h : ArithmeticRow row) (ht : token ∈ infixTokens row) :
    token.text ∈ ["+", "-", "*", "/"] := by
  obtain ⟨hi, hk⟩ := mem_infixTokens.mp ht
  have ha := h token hi
  unfold Token.isArithmetic at ha
  cases hkind : token.kind with
  | binary | multary =>
      rw [hkind] at ha
      exact List.contains_iff_mem.mp ha
  | _ =>
      rw [hkind] at hk
      cases hk

theorem suffixes_eq_nil {prefixes suffixes : List Token} {operand : Measured}
    (h : ArithmeticRow (prefixes.map .operator ++ .operand operand :: suffixes.map .operator))
    (hs : ∀ t ∈ suffixes, t.kind = .postUnary) : suffixes = [] := by
  refine List.eq_nil_iff_forall_not_mem.mpr fun t ht => ?_
  have := h t (by simp [ht])
  rw [Token.isArithmetic, hs t ht] at this
  cases this

end ArithmeticRow

namespace Level

variable {literal : String → ℚ} {row : List Item} {m : Measured}

theorem foldlM_read_operand (h : Grammar.real.buildOperand row = .ok m) (ha : ArithmeticRow row)
    (l : Level) : row.foldlM (read literal) l = m.tree.exact literal >>= l.put := by
  obtain ⟨prefixes, operand, suffixes, inner, rfl, hp, hs, hi, hm⟩ :=
    Grammar.buildOperand_eq_ok.mp h
  obtain rfl := ha.suffixes_eq_nil hs
  rw [Grammar.applyUnary_nil, Except.ok.injEq] at hi
  subst hi
  exact foldlM_read_signs hp hm l

end Level

/-- A piece between two uses of the loosest operator of a row, with its tree. -/
structure Part (P : List Item → Measured → Prop) (symbol : String) (row piece : List Item)
    (m : Measured) : Prop where
  arithmetic : ArithmeticRow piece
  built : Grammar.real.buildExpression piece = .ok m
  holds : P piece m
  tighter : ∀ t ∈ infixTokens piece, t ∈ infixTokens row ∧ Grammar.real.Looser symbol t.text

/-- The induction along the building of a tree of ordinary arithmetic.  A row is taken piece by
piece, and its tree has the value of the operands from left to right. -/
theorem arithmetic_induction {P : List Item → Measured → Prop} (literal : String → ℚ)
    (operand : ∀ row m, ArithmeticRow row → infixTokens row = [] →
      Grammar.real.buildOperand row = .ok m → P row m)
    (operator : ∀ row token first x rest xs m, ArithmeticRow row →
      Grammar.real.buildExpression row = .ok m → token ∈ infixTokens row →
      (∀ t ∈ infixTokens row, t.text = token.text ∨ Grammar.real.Looser token.text t.text) →
      Part P token.text row first x → List.Forall₂ (Part P token.text row) rest xs →
      (∀ l, row.foldlM (Level.read literal) l =
        first.foldlM (Level.read literal) l >>=
          rest.foldlM (Level.readAfter literal token.text)) →
      m.tree.exact literal =
        x.tree.exact literal >>= Grammar.operateAll literal token.text xs → P row m)
    {row : List Item} {m : Measured} (ha : ArithmeticRow row)
    (h : Grammar.real.buildExpression row = .ok m) : P row m := by
  refine Grammar.buildExpression_induction (P := fun row m => ArithmeticRow row → P row m)
    (fun row m hn h ha => operand row m ha hn h) ?_ h ha
  intro row token operands m ho hp hj ha
  obtain ⟨hmem, hloose⟩ := Grammar.loosest_eq_some ho
  have hk := (mem_infixTokens.mp hmem).2
  have built : Grammar.real.buildExpression row = .ok m := by
    refine Grammar.buildExpression_eq_ok.mpr (Or.inr ⟨token, operands, ho, ?_, hj⟩)
    exact hp.imp fun _ _ hx => ⟨hx.1, hx.2.1⟩
  have parts : List.Forall₂ (Part P token.text row) (splitAtSymbol token.text row) operands := by
    refine forall₂_and_mem hp fun piece x hpiece hx => ?_
    have hap := ha.piece hpiece
    refine ⟨hap, hx.2.1, hx.2.2 hap, fun t ht => ?_⟩
    obtain ⟨hrow, hne⟩ := mem_infixTokens_piece hpiece ht
    exact ⟨hrow, (hloose t hrow).resolve_left hne⟩
  have between := between_splitAtSymbol token.text row
  generalize splitAtSymbol token.text row = pieces at parts between
  cases parts with
  | nil => cases between
  | @cons first x rest xs hx hxs =>
      refine operator row token first x rest xs m ha built hmem hloose hx hxs ?_ ?_
      · exact Level.foldlM_read_between between
      · exact hj.exact_eq hk (ha.symbol_mem hmem)

namespace Level

variable {literal : String → ℚ} {row : List Item} {m : Measured}

/-- After an operator that binds more loosely, a product or a quotient is one number. -/
def IsNumber (literal : String → ℚ) (row : List Item) (m : Measured) : Prop :=
  ∀ l : Level, (∀ t ∈ infixTokens row,
      Grammar.real.Looser l.operator t.text ∧ (t.text = "*" ∨ t.text = "/")) →
    row.foldlM (read literal) l = m.tree.exact literal >>= l.put

/-- At the beginning of a level, a row adds its value to the total. -/
def IsSum (literal : String → ℚ) (row : List Item) (m : Measured) : Prop :=
  ∀ l : Level, l.operator = "+" → l.negative = false →
    (row.foldlM (read literal) l).map total = (m.tree.exact literal).map (l.total + ·)

theorem isNumber_of_buildExpression (ha : ArithmeticRow row)
    (h : Grammar.real.buildExpression row = .ok m) : IsNumber literal row m := by
  refine arithmetic_induction literal (P := IsNumber literal) ?_ ?_ ha h
  · intro row m ha _ h l _
    exact foldlM_read_operand h ha l
  · intro row token first x rest xs m ha _ ht _ hx hxs hrow hm l tight
    obtain ⟨hl, hs⟩ := tight token ht
    have hdiv : l.operator ≠ "/" :=
      fun he => not_looser_divide _ (ha.symbol_mem ht) (he ▸ hl)
    have hfirst : first.foldlM (read literal) l = x.tree.exact literal >>= l.put :=
      hx.holds l fun t ht => tight t (hx.tighter t ht).1
    -- A piece after a use of the operator is one number again.
    have hrest (piece : List Item) (y : Measured)
        (hy : Part (IsNumber literal) token.text row piece y) (l' : Level) :
        readAfter literal token.text l' piece =
          y.tree.exact literal >>= (l'.await token.text).put :=
      hy.holds (l'.await token.text) fun t ht =>
        ⟨(hy.tighter t ht).2, (tight t (hy.tighter t ht).1).2⟩
    rw [hrow, hfirst, hm, bind_assoc, bind_assoc]
    congr 1
    funext v
    refine (foldlM_hom l.put (List.Forall₂.flip (hxs.imp fun piece y hy v => ?_)) v).symm
    simp only [hrest piece y hy, bind_assoc]
    cases y.tree.exact literal with
    | none => simp
    | some z => exact (put_put hdiv hs v z).symm

theorem IsNumber.isSum (h : IsNumber literal row m)
    (hs : ∀ t ∈ infixTokens row, t.text = "*" ∨ t.text = "/") : IsSum literal row m := by
  intro l plus positive
  rw [h l]
  · cases m.tree.exact literal with
    | none => rfl
    | some x => exact put_map_total plus positive x
  · intro t ht
    rw [plus]
    exact ⟨looser_factor "+" (by simp) t.text (by simpa using hs t ht), hs t ht⟩

theorem IsNumber.readAfter_minus (h : IsNumber literal row m)
    (hs : ∀ t ∈ infixTokens row, t.text = "*" ∨ t.text = "/") (l : Level) :
    (readAfter literal "-" l row).map total =
      m.tree.exact literal >>= operate "-" l.total := by
  unfold readAfter
  rw [h (l.await "-")]
  · cases m.tree.exact literal with
    | none => rfl
    | some x => exact put_await_minus l x
  · intro t ht
    exact ⟨looser_factor "-" (by simp) t.text (by simpa using hs t ht), hs t ht⟩

theorem IsSum.readAfter_plus (h : IsSum literal row m) (l : Level) :
    (readAfter literal "+" l row).map total =
      m.tree.exact literal >>= operate "+" l.total := by
  unfold readAfter
  rw [h (l.await "+") rfl rfl]
  cases m.tree.exact literal <;> rfl

theorem isSum_of_buildExpression (ha : ArithmeticRow row)
    (h : Grammar.real.buildExpression row = .ok m) : IsSum literal row m := by
  refine arithmetic_induction literal (P := IsSum literal) ?_ ?_ ha h
  · intro row m ha hn h
    exact IsNumber.isSum (fun l _ => foldlM_read_operand h ha l) (by simp [hn])
  · intro row token first x rest xs m ha h ht hloose hx hxs hrow hm
    have hsym := ha.symbol_mem ht
    by_cases hs : token.text = "+" ∨ token.text = "-"
    · have hrest (piece : List Item) (y : Measured)
          (hy : Part (IsSum literal) token.text row piece y) (l : Level) :
          (readAfter literal token.text l piece).map total =
            y.tree.exact literal >>= operate token.text l.total := by
        rcases hs with he | he
        · rw [he]
          exact hy.holds.readAfter_plus l
        · rw [he]
          refine (isNumber_of_buildExpression hy.arithmetic hy.built).readAfter_minus ?_ l
          intro t ht
          have hl := (hy.tighter t ht).2
          exact factor_of_looser token.text (by simp [he]) _ (hy.arithmetic.symbol_mem ht) hl
      intro l plus positive
      calc (row.foldlM (read literal) l).map total
          = first.foldlM (read literal) l >>= fun l' =>
              (rest.foldlM (readAfter literal token.text) l').map total := by
            rw [hrow, Option.bind_eq_bind, Option.map_bind]
            rfl
        _ = first.foldlM (read literal) l >>= fun l' =>
              Grammar.operateAll literal token.text xs l'.total := by
            congr 1
            funext l'
            exact foldlM_map_hom total (hxs.imp fun piece y hy l => hrest piece y hy l) l'
        _ = (first.foldlM (read literal) l).map total >>=
              Grammar.operateAll literal token.text xs := by
            rw [Option.bind_eq_bind, Option.bind_eq_bind, Option.bind_map]
            rfl
        _ = x.tree.exact literal >>= fun v =>
              Grammar.operateAll literal token.text xs (l.total + v) := by
            rw [hx.holds l plus positive, Option.bind_eq_bind, Option.bind_map]
            rfl
        _ = (m.tree.exact literal).map (l.total + ·) := by
            simp only [Grammar.operateAll_add hs, hm, Option.bind_eq_bind, Option.map_bind]
            rfl
    · -- Products and quotients are numbers as a whole.
      have hf : token.text = "*" ∨ token.text = "/" := by
        simp only [List.mem_cons, List.not_mem_nil, or_false] at hsym
        tauto
      refine (isNumber_of_buildExpression ha h).isSum fun t ht' => ?_
      rcases hloose t ht' with he | hl
      · rw [he]
        exact hf
      · have hmem : token.text ∈ ["-", "*", "/"] := List.mem_cons_of_mem _ (by simpa using hf)
        exact factor_of_looser token.text hmem t.text (ha.symbol_mem ht') hl

end Level

/-! ### Tokens -/

section tokens

variable {literal : String → ℚ}

theorem exact_of_close {opener : Token} {content : List Item} {m : Measured}
    (h : Reading.close Grammar.real (.group opener) content = .ok m) (ha : ArithmeticRow content) :
    m.tree.exact literal = (content.foldlM (Level.read literal) {}).map Level.total := by
  obtain ⟨inner, hi, hw⟩ := close_group_eq_ok.mp h
  obtain ⟨-, rfl⟩ := Grammar.wrap_eq_ok.mp hw
  have hsum : Level.IsSum literal content inner := Level.isSum_of_buildExpression ha hi
  rw [hsum {} rfl rfl, List.map_singleton, exact_opening]
  simp [Level.total]

/-- A calculator takes a group as one number. -/
theorem Reads.foldlM_calculator {n : Nat} {tokens : List Token} {row : List Item}
    (h : Reads Grammar.real n tokens row) (ha : ∀ t ∈ tokens, t.isArithmetic = true)
    (l : Level) (outer : List Level) :
    tokens.foldlM (Calculator.step literal) ⟨l, outer⟩ =
      (row.foldlM (Level.read literal) l).map fun l => ⟨l, outer⟩ := by
  induction h generalizing l outer with
  | nil => rfl
  | @operand n token tokens row kind _ ih =>
      obtain ⟨ht, ha⟩ := List.forall_mem_cons.mp ha
      have hk : token.kind = .number := by
        refine kind.resolve_right fun hi => ?_
        rw [Token.isArithmetic, hi] at ht
        cases ht
      have hs : Calculator.step literal ⟨l, outer⟩ token =
          (l.put (literal token.text)).map fun l => ⟨l, outer⟩ := by
        rw [Calculator.step, hk]
      have hr : Level.read literal l (.operand (.leaf token.text token.kind)) =
          l.put (literal token.text) := by
        rw [hk]
        rfl
      rw [List.foldlM_cons, List.foldlM_cons, hs, hr]
      cases l.put (literal token.text) with
      | none => rfl
      | some l => exact ih ha l outer
  | @operator n token tokens row kind _ ih =>
      obtain ⟨-, ha⟩ := List.forall_mem_cons.mp ha
      have hs : Calculator.step literal ⟨l, outer⟩ token = some ⟨l.press token, outer⟩ := by
        unfold Calculator.step
        cases hk : token.kind <;> rw [hk] at kind <;> first | rfl | cases kind
      rw [List.foldlM_cons, hs, Level.foldlM_read_operator]
      exact ih ha (l.press token) outer
  | @enclosed n e closer inner tokens content row m opens _ kind _ hin hm _ ih ih' =>
      rw [List.forall_mem_append, List.forall_mem_append, List.forall_mem_cons] at ha
      obtain ⟨⟨he, ha⟩, -, ha'⟩ := ha
      cases e with
      | call function opener =>
          have hf := he function List.mem_cons_self
          rw [Token.isArithmetic, opens.1] at hf
          cases hf
      | group opener =>
          have hcontent : ArithmeticRow content := fun token ht => ha token (hin.mem_of_operator ht)
          have hvalue : m.tree.exact literal =
              (content.foldlM (Level.read literal) {}).map Level.total :=
            exact_of_close hm hcontent
          have hopen : Calculator.step literal ⟨l, outer⟩ opener = some ⟨{}, l :: outer⟩ := by
            rw [Calculator.step, show opener.kind = .opening from opens]
          have hclose (l' : Level) : Calculator.step literal ⟨l', l :: outer⟩ closer =
              (l.put l'.total).map fun l => ⟨l, outer⟩ := by
            rw [Calculator.step, kind]
          rw [List.foldlM_append, List.foldlM_append, Enclosing.tokens, List.foldlM_cons, hopen,
            List.foldlM_cons, Level.read, hvalue]
          change (inner.foldlM (Calculator.step literal) ⟨{}, l :: outer⟩ >>= _) = _
          rw [ih ha]
          cases content.foldlM (Level.read literal) {} with
          | none => rfl
          | some l' =>
              change (closer :: tokens).foldlM (Calculator.step literal) ⟨l', l :: outer⟩ =
                ((l.put l'.total) >>= _).map _
              rw [List.foldlM_cons, hclose]
              cases l.put l'.total with
              | none => rfl
              | some l => exact ih' ha' l outer

/-- **Ordinary arithmetic keeps its conventional meaning.**  The tree of some tokens of ordinary
arithmetic has the exact value that they have from left to right, and it divides by zero exactly if
they do. -/
theorem TokenTree.ofTokens_conventional {tokens : List Token} {t : TokenTree}
    (h : ofTokens Grammar.real tokens = .ok t) (ha : ∀ token ∈ tokens, token.isArithmetic = true)
    (literal : String → ℚ) : t.exact literal = conventional literal tokens := by
  obtain ⟨row, m, hr, hm, rfl⟩ := ofTokens_eq_ok.mp h
  have hrow : ArithmeticRow row := fun token ht => ha token (hr.mem_of_operator ht)
  have hsum : Level.IsSum literal row m := Level.isSum_of_buildExpression hrow hm
  rw [exact_top, conventional, hr.foldlM_calculator ha, Option.map_map]
  change _ = (row.foldlM (Level.read literal) {}).map Level.total
  rw [hsum {} rfl rfl]
  simp [Level.total]

/-- The tokens of `1 - 2 + 1.5 * 4 / (-6) * 5`, a difference within a sum and a quotient within a
product, with a group. -/
def arithmeticTokens : List Token :=
  [⟨"1", .number, 0⟩, ⟨"-", .binary, 2⟩, ⟨"2", .number, 4⟩, ⟨"+", .multary, 6⟩,
    ⟨"1.5", .number, 8⟩, ⟨"*", .multary, 12⟩, ⟨"4", .number, 14⟩, ⟨"/", .binary, 16⟩,
    ⟨"(", .opening, 18⟩, ⟨"-", .preUnary, 19⟩, ⟨"6", .number, 20⟩, ⟨")", .closing, 21⟩,
    ⟨"*", .multary, 23⟩, ⟨"5", .number, 25⟩]

/-- Its tree is a sum of a difference and a product, with a quotient among the factors. -/
def arithmeticTree : TokenTree :=
  .top (.node "+" .multary [
    .node "-" .binary [.leaf "1" .number, .leaf "2" .number],
    .node "*" .multary [
      .leaf "1.5" .number,
      .node "/" .binary [
        .leaf "4" .number,
        .node "(" .opening [.node "-" .preUnary [.leaf "6" .number]]],
      .leaf "5" .number]])

theorem TokenTree.ofTokens_conventional_sample :
    ofTokens Grammar.real arithmeticTokens = .ok arithmeticTree ∧
      arithmeticTree.exact spelled = some (-6) ∧
      arithmeticTree.exact spelled = conventional spelled arithmeticTokens := by
  have built : ofTokens Grammar.real arithmeticTokens = .ok arithmeticTree := by decide +kernel
  refine ⟨built, ?_, ofTokens_conventional built (by decide) spelled⟩
  decide +kernel

end tokens

end OperatorGrammar
