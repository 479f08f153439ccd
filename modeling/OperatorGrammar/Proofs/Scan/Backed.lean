import OperatorGrammar.Proofs.Numeral
import OperatorGrammar.Proofs.Scan.Visited

/-! # Roles that are backed by the grammar

Scanning gives a token a role only if its text is something of that role: a number has the form of
numbers, and a function or an operator is in the table for its role (`Grammar.Backs`).  This is
where the roles of tokens and the tables that they are later looked up in meet. -/

namespace OperatorGrammar

/-- Whether a text is something that can have a role. -/
def Grammar.Backs (g : Grammar) (kind : TokenKind) (text : String) : Prop :=
  match kind with
  | .number => ∃ cs, IsNumber cs ∧ text = String.ofList cs
  | .function => g.functions.contains text = true
  | .preUnary => g.preUnary.contains text = true
  | .postUnary => g.postUnary.contains text = true
  | .binary | .multary => g.IsBetween text
  | .opening | .closing | .identifier | .top => True

variable {g : Grammar} {symbol : String}

theorem Grammar.backs_of_isInfix {kind : TokenKind} (h : kind.isInfix = true) :
    g.Backs kind symbol ↔ g.IsBetween symbol := by
  cases kind with
  | binary | multary => exact Iff.rfl
  | _ => cases h

namespace Scan

variable {s s' base : Scan} {text : List Char} {count : Nat} {tokens : List Token} {input : String}

/-- A state all of whose tokens are backed. -/
def Backed (g : Grammar) (s : Scan) : Prop := ∀ t ∈ s.inOrder, g.Backs t.kind t.text

theorem Backed.push (h : s.Backed g) {word : String} {kind : TokenKind}
    (hw : g.Backs kind word) : (s.push word kind).Backed g := by
  unfold Backed
  rw [inOrder_push, List.forall_mem_append]
  exact ⟨h, by simpa using hw⟩

theorem Backed.push_infix (h : s.Backed g) (hs : g.IsBetween symbol) :
    (s.push symbol (g.infixKind symbol)).Backed g :=
  h.push ((Grammar.backs_of_isInfix (g.isInfix_infixKind symbol)).mpr hs)

theorem Room.backed (room : Room g s base) (h : s.Backed g) : base.Backed g := by
  cases room with
  | here => exact h
  | behind _ implicit => exact h.push_infix (Or.inr (Or.inr implicit))

theorem Step.backed (step : Step g s text s' count) (h : s.Backed g) : s'.Backed g := by
  cases step with
  | @opens pair base _ room =>
      have hbase :
          Backed g { base with groups := ⟨g.indexOf pair, base.position⟩ :: base.groups } :=
        room.backed h
      exact hbase.push trivial
  | closes =>
      have htail : Backed g { s with groups := s.groups.tail } := h
      exact htail.push trivial
  | preUnary _ role room => exact (room.backed h).push role
  | between _ _ role => exact h.push_infix (role.imp_right Or.inl)
  | postUnary _ _ role => exact h.push role
  | separator => exact h
  | @number piece base next room =>
      obtain ⟨rfl, ne⟩ := Lexeme.read?_eq_some next.found
      exact (room.backed h).push ⟨_, isNumber_numberPart ne, rfl⟩
  | @name piece base _ room =>
      refine (room.backed h).push ?_
      rcases nameKind_eq g (g.canonical (String.ofList piece)) (text.drop piece.length) with hk | hk
      · rw [hk]
        trivial
      · rw [hk]
        exact (nameKind_eq_function.mp hk).1

/-- The role of every token of a text is backed. -/
theorem backed_of_tokenize (h : tokenize g input = .ok tokens) :
    ∀ t ∈ tokens, g.Backs t.kind t.text := by
  obtain ⟨s, hrun, -, rfl⟩ := tokenize_eq_ok.mp h
  have start : Backed g {} := by
    unfold Backed
    simp [inOrder]
  exact run_induction (P := fun s _ => s.Backed g)
    (fun _ _ _ _ _ hp step => step.backed hp) start hrun

end Scan

end OperatorGrammar
