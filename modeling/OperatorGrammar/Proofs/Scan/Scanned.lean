import OperatorGrammar.Proofs.Scan.Match
import OperatorGrammar.Proofs.Scan.Step

/-! # The tokens that scanning gives

`Placed` lists what can come next behind some tokens: operands and prefixes where an operand is
expected, infix operators and suffixes behind an operand, closing delimiters only for the innermost
pair that is open.  `Scanned g tokens pairs` says that every token of a sequence is so placed.
Every step of scanning keeps to it (`Step.wellPlaced`), and so does the whole text
(`scanned_of_tokenize`), whatever the grammar says about symbols. -/

namespace OperatorGrammar

theorem TokenKind.expectsOperandAfter_of_isInfix {kind : TokenKind} (h : kind.isInfix = true) :
    kind.expectsOperandAfter = true := by
  cases kind with
  | binary | multary => rfl
  | _ => cases h

theorem Grammar.infixKind_ne_function (g : Grammar) (symbol : String) :
    g.infixKind symbol ≠ .function := by
  intro h
  have hi := g.isInfix_infixKind symbol
  rw [h] at hi
  cases hi

/-- Whether an operand ends with the last of some tokens. -/
def endsOperand (tokens : List Token) : Bool :=
  tokens.getLast?.any fun token => !token.kind.expectsOperandAfter

@[simp] theorem endsOperand_nil : endsOperand [] = false := rfl

@[simp] theorem endsOperand_concat (tokens : List Token) (token : Token) :
    endsOperand (tokens ++ [token]) = !token.kind.expectsOperandAfter := by
  simp [endsOperand]

/-- Whether a symbol can stand between operands, or does so unwritten. -/
def Grammar.IsBetween (g : Grammar) (symbol : String) : Prop :=
  g.isMultary symbol = true ∨ g.nary.contains symbol = true ∨ g.implicitOperator = some symbol

/-- What can come next behind some tokens, with the pairs of delimiters that are open before and
behind it, the innermost one first. -/
inductive Placed (g : Grammar) (tokens : List Token) :
    List Parenthetical → Token → List Parenthetical → Prop
  /-- An operand, or what stands before one. -/
  | operand {token : Token} {pairs : List Parenthetical} (place : endsOperand tokens = false)
      (kind : token.kind = .number ∨ token.kind = .identifier ∨ token.kind = .function ∨
        token.kind = .preUnary) : Placed g tokens pairs token pairs
  /-- An operator between operands. -/
  | between {token : Token} {pairs : List Parenthetical} (place : endsOperand tokens = true)
      (kind : token.kind = g.infixKind token.text) (symbol : g.IsBetween token.text) :
      Placed g tokens pairs token pairs
  /-- An operator behind its operand. -/
  | postUnary {token : Token} {pairs : List Parenthetical} (place : endsOperand tokens = true)
      (kind : token.kind = .postUnary) : Placed g tokens pairs token pairs
  /-- The opener of a pair. -/
  | opening {token : Token} {pair : Parenthetical} {pairs : List Parenthetical}
      (place : endsOperand tokens = false) (kind : token.kind = .opening)
      (known : pair ∈ g.parentheticals) (text : token.text = pair.opener) :
      Placed g tokens pairs token (pair :: pairs)
  /-- The closer of the innermost pair. -/
  | closing {token : Token} {pair : Parenthetical} {pairs : List Parenthetical}
      (kind : token.kind = .closing) (text : token.text = pair.closer) :
      Placed g tokens (pair :: pairs) token pairs

/-- Sequences of tokens in which every token stands where its role lets it, with the pairs of
delimiters that are open behind them. -/
inductive Scanned (g : Grammar) : List Token → List Parenthetical → Prop
  | nil : Scanned g [] []
  | concat {tokens : List Token} {token : Token} {pairs pairs' : List Parenthetical} :
      Scanned g tokens pairs → Placed g tokens pairs token pairs' →
        Scanned g (tokens ++ [token]) pairs'

theorem concat_eq_append_cons {α : Type} {xs ys zs : List α} {x y : α} :
    xs ++ [x] = ys ++ y :: zs ↔
      (ys = xs ∧ y = x ∧ zs = []) ∨ ∃ ws, zs = ws ++ [x] ∧ xs = ys ++ y :: ws := by
  constructor
  · intro h
    rcases List.eq_nil_or_concat zs with rfl | ⟨ws, z, rfl⟩
    · obtain ⟨rfl, hxy⟩ := List.append_inj' h rfl
      have hxy : x = y := by simpa using hxy
      exact Or.inl ⟨rfl, hxy.symm, rfl⟩
    · rw [List.concat_eq_append, ← List.cons_append, ← List.append_assoc] at h
      obtain ⟨rfl, hx⟩ := List.append_inj' h rfl
      have hx : x = z := by simpa using hx
      exact Or.inr ⟨ws, by rw [List.concat_eq_append, hx], rfl⟩
  · rintro (⟨rfl, rfl, rfl⟩ | ⟨ws, rfl, rfl⟩)
    · rfl
    · simp

variable {g : Grammar}

/-- Each token of a sequence is placed behind those before it. -/
theorem Scanned.placed {tokens before after : List Token} {token : Token}
    {pairs : List Parenthetical} (h : Scanned g tokens pairs)
    (split : tokens = before ++ token :: after) :
    ∃ pairs pairs', Scanned g before pairs ∧ Placed g before pairs token pairs' := by
  induction h generalizing after with
  | nil => simp at split
  | concat scanned placed ih =>
      rcases concat_eq_append_cons.mp split with ⟨rfl, rfl, -⟩ | ⟨_, -, split⟩
      · exact ⟨_, _, scanned, placed⟩
      · exact ih split

theorem Scanned.known_of_mem {tokens : List Token} {pairs : List Parenthetical}
    (h : Scanned g tokens pairs) : ∀ pair ∈ pairs, pair ∈ g.parentheticals := by
  induction h with
  | nil => simp
  | concat _ placed ih =>
      cases placed with
      | operand | between | postUnary => exact ih
      | opening _ _ known => exact List.forall_mem_cons.mpr ⟨known, ih⟩
      | closing => exact (List.forall_mem_cons.mp ih).2

namespace Scan

variable {s s' base : Scan} {text : List Char} {count : Nat}

def inOrder (s : Scan) : List Token := s.tokens.reverse

/-- The pairs that are open in a state, the innermost one first. -/
def openPairs (g : Grammar) (s : Scan) : List Parenthetical :=
  s.groups.map fun group => g.pairAt group.index

@[simp] theorem inOrder_push (s : Scan) (word : String) (kind : TokenKind) :
    (s.push word kind).inOrder = s.inOrder ++ [⟨word, kind, s.position⟩] :=
  List.reverse_cons

@[simp] theorem openPairs_push (g : Grammar) (s : Scan) (word : String) (kind : TokenKind) :
    (s.push word kind).openPairs g = s.openPairs g := rfl

theorem expectsOperand_eq (s : Scan) : s.expectsOperand = !endsOperand s.inOrder := by
  obtain ⟨tokens, groups, position⟩ := s
  cases tokens with
  | nil => rfl
  | cons token rest => simp [expectsOperand, inOrder]

/-- A state whose tokens are as they should be, with the pairs of its groups. -/
def WellPlaced (g : Grammar) (s : Scan) : Prop := Scanned g s.inOrder (s.openPairs g)

theorem WellPlaced.push (h : s.WellPlaced g) {word : String} {kind : TokenKind}
    (placed : Placed g s.inOrder (s.openPairs g) ⟨word, kind, s.position⟩ (s.openPairs g)) :
    (s.push word kind).WellPlaced g := by
  unfold WellPlaced
  rw [inOrder_push, openPairs_push]
  exact h.concat placed

/-- The implicit operator is well placed, and behind it an operand is expected. -/
theorem Room.wellPlaced (room : Room g s base) (h : s.WellPlaced g) :
    base.WellPlaced g ∧ endsOperand base.inOrder = false := by
  cases room with
  | here place =>
      rw [expectsOperand_eq] at place
      exact ⟨h, by simpa using place⟩
  | @behind symbol place implicit =>
      rw [expectsOperand_eq, Bool.not_eq_false'] at place
      have hk := TokenKind.expectsOperandAfter_of_isInfix (g.isInfix_infixKind symbol)
      exact ⟨h.push (Placed.between place rfl (Or.inr (Or.inr implicit))), by simp [hk]⟩

theorem Room.wellPlaced_push (room : Room g s base) (h : s.WellPlaced g) {word : String}
    {kind : TokenKind}
    (hk : kind = .number ∨ kind = .identifier ∨ kind = .function ∨ kind = .preUnary) :
    (base.push word kind).WellPlaced g := by
  obtain ⟨hb, place⟩ := room.wellPlaced h
  exact hb.push (Placed.operand place hk)

theorem nameKind_eq (g : Grammar) (name : String) (after : List Char) :
    nameKind g name after = .identifier ∨ nameKind g name after = .function := by
  unfold nameKind
  split
  · exact Or.inr rfl
  · exact Or.inl rfl

theorem nameKind_eq_function {name : String} {after : List Char} :
    nameKind g name after = .function ↔
      g.functions.contains name = true ∧
        g.startsWith (skipBlanks after) g.argumentOpener = true := by
  unfold nameKind
  split
  · next h => simpa using h
  · next h => simpa using h

/-- Every step puts its tokens where they belong. -/
theorem Step.wellPlaced (step : Step g s text s' count) (h : s.WellPlaced g) :
    s'.WellPlaced g := by
  cases step with
  | @opens pair base found room shallow =>
      obtain ⟨hb, place⟩ := room.wellPlaced h
      have hopener := (delimiterAt?_eq_opens found).1
      have known := (Grammar.openerAt?_eq_some hopener).1
      show Scanned g (Scan.push _ _ _).inOrder (g.pairAt (g.indexOf pair) :: base.openPairs g)
      rw [inOrder_push, Grammar.pairAt_indexOf hopener]
      exact hb.concat (Placed.opening place rfl known rfl)
  | @closes pair found =>
      obtain ⟨group, groups, hg, hpair⟩ :=
        exists_group_of_closerAt? (delimiterAt?_eq_closes found).1
      have hpairs : s.openPairs g = pair :: groups.map fun group => g.pairAt group.index := by
        rw [openPairs, hg, List.map_cons, Grammar.pairAt_eq hpair]
      unfold WellPlaced at h
      rw [hpairs] at h
      have closed : Scanned g (s.inOrder ++ [⟨pair.closer, .closing, s.position⟩])
          (groups.map fun group => g.pairAt group.index) := h.concat (Placed.closing rfl rfl)
      unfold WellPlaced closeGroup
      rw [inOrder_push, openPairs_push]
      simpa [openPairs, inOrder, hg] using closed
  | preUnary next role room only => exact room.wellPlaced_push h (by simp)
  | between next place role =>
      rw [expectsOperand_eq, Bool.not_eq_false'] at place
      exact h.push (Placed.between place rfl (role.imp_right Or.inl))
  | postUnary next place role only =>
      rw [expectsOperand_eq, Bool.not_eq_false'] at place
      exact h.push (Placed.postUnary place rfl)
  | separator next => exact h
  | number next room => exact room.wellPlaced_push h (by simp)
  | name next room =>
      exact room.wellPlaced_push h (Or.inr ((nameKind_eq g _ _).imp_right Or.inl))

/-- In the tokens of a text every token stands where its role lets it, and no pair is left open. -/
theorem scanned_of_tokenize {input : String} {tokens : List Token}
    (h : tokenize g input = .ok tokens) : Scanned g tokens [] := by
  obtain ⟨s, hrun, hgroups, rfl⟩ := tokenize_eq_ok.mp h
  have start : ({} : Scan).WellPlaced g := Scanned.nil
  have hs : s.WellPlaced g := run_induction (P := fun s _ => s.WellPlaced g)
    (fun _ _ _ _ _ hp step => step.wellPlaced hp) start hrun
  unfold WellPlaced openPairs at hs
  rwa [hgroups] at hs

end Scan

end OperatorGrammar
