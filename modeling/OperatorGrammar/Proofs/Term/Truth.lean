import OperatorGrammar.Proofs.Bundled
import OperatorGrammar.Proofs.Term.Arity
import OperatorGrammar.Proofs.Term.Variables
import OperatorGrammar.Term.Evaluation

/-! # Boolean algebra is truth-functional

`Term.truth` reads a term by the truth tables of its symbols, without a look at its callables.  In
boolean algebra every callable that is bound to a symbol, that of lists apart, is the one with its
truth table (`mem_connectives_of_calls`, `call_of_mem_connectives`), and constants and variables
are truth values.  So a term without numbers and lists has the value that the truth tables give, for
all truth values of its variables, and no evaluation fails (`Term.evaluate_boolean`). -/

namespace OperatorGrammar

/-! ### Truth tables -/

/-- The truth tables of the connectives, by their symbols: a disjunction of any number of operands
is true if one of them is, and a conjunction if all are.  What is no connective is false. -/
def connectiveTruth (symbol : String) (operands : List Bool) : Bool :=
  match symbol, operands with
  | "or", bs | "||", bs => bs.any id
  | "and", bs | "&&", bs => bs.all id
  | "xor", [p, q] => p != q
  | "->", [p, q] => !p || q
  | "<->", [p, q] | "==", [p, q] => p == q
  | "!=", [p, q] => p != q
  | "not", [p] | "!", [p] | "~", [p] => !p
  | "if", [p, q, r] => if p then q else r
  | _, _ => false

namespace Term

mutual

/-- The truth value of a term, for some truth values of its variables. -/
def truth (assignment : String → Bool) : Term → Bool
  | .constant _ value => value == .bool true
  | .free name _ => assignment name
  | .method label _ arguments => connectiveTruth label (truths assignment arguments)
  | .vararg label _ arguments => connectiveTruth label (truths assignment arguments)

def truths (assignment : String → Bool) : List Term → List Bool
  | [] => []
  | t :: ts => truth assignment t :: truths assignment ts

end

variable {assignment : String → Bool} {b : Bindings} {t : Term}

theorem truths_eq_map (ts : List Term) : truths assignment ts = ts.map (truth assignment) := by
  induction ts with
  | nil => rfl
  | cons t ts ih => rw [truths, ih, List.map_cons]

theorem truth_call (label : String) (callable : Callable) (arguments : List Term) :
    (call label callable arguments).truth assignment =
      connectiveTruth label (arguments.map (truth assignment)) := by
  rw [← truths_eq_map]
  unfold call
  split <;> rfl

theorem evaluate_call (label : String) (callable : Callable) (arguments : List Term) :
    (call label callable arguments).evaluate b = evaluateAll b arguments >>= callable.call := by
  unfold call
  obtain ⟨name, implementation⟩ := callable
  cases implementation <;> rfl

end Term

/-! ### The connectives of boolean algebra -/

/-- The connectives with the callables that carry them out. -/
def connectives : List (String × Callable) :=
  [("or", .disjunction), ("||", .disjunction), ("and", .conjunction), ("&&", .conjunction),
    ("xor", .exclusive), ("->", .implication), ("<->", .equivalence), ("==", .equal),
    ("!=", .notEqual), ("not", .negation), ("!", .negation), ("~", .negation), ("if", .choice)]

theorem mapM_asBool (bs : List Bool) : (bs.map Value.bool).mapM Value.asBool = .ok bs := by
  rw [mapM_eq_ok, List.forall₂_map_left_iff, List.forall₂_same]
  exact fun _ _ => rfl

theorem call_disjunction (bs : List Bool) :
    Callable.disjunction.call (bs.map .bool) = .ok (.bool (bs.any id)) := by
  show Operation.disjunction (bs.map .bool) = _
  rw [Operation.disjunction, mapM_asBool]
  rfl

theorem call_conjunction (bs : List Bool) :
    Callable.conjunction.call (bs.map .bool) = .ok (.bool (bs.all id)) := by
  show Operation.conjunction (bs.map .bool) = _
  rw [Operation.conjunction, mapM_asBool]
  rfl

/-- **Connectives do what their truth tables say**, and fail for no truth values. -/
theorem call_of_mem_connectives {symbol : String} {callable : Callable} {bs : List Bool}
    (h : (symbol, callable) ∈ connectives) (admits : callable.arity.admits bs.length = true) :
    callable.call (bs.map .bool) = .ok (.bool (connectiveTruth symbol bs)) := by
  have one (hb : bs.length = 1) : ∃ p, bs = [p] := List.length_eq_one_iff.mp hb
  have two (hb : bs.length = 2) : ∃ p q, bs = [p, q] := List.length_eq_two.mp hb
  have three (hb : bs.length = 3) : ∃ p q r, bs = [p, q, r] := List.length_eq_three.mp hb
  simp only [connectives, List.mem_cons, Prod.mk.injEq, List.not_mem_nil, or_false] at h
  rcases h with ⟨rfl, rfl⟩ | ⟨rfl, rfl⟩ | ⟨rfl, rfl⟩ | ⟨rfl, rfl⟩ | h
  · exact call_disjunction bs
  · exact call_disjunction bs
  · exact call_conjunction bs
  · exact call_conjunction bs
  rcases h with ⟨rfl, rfl⟩ | ⟨rfl, rfl⟩ | ⟨rfl, rfl⟩ | ⟨rfl, rfl⟩ | ⟨rfl, rfl⟩ | h
  iterate 5
    · obtain ⟨p, q, rfl⟩ := two (eq_of_beq admits)
      cases p <;> cases q <;> rfl
  rcases h with ⟨rfl, rfl⟩ | ⟨rfl, rfl⟩ | ⟨rfl, rfl⟩ | ⟨rfl, rfl⟩
  iterate 3
    · obtain ⟨p, rfl⟩ := one (eq_of_beq admits)
      rfl
  · obtain ⟨p, q, r, rfl⟩ := three (eq_of_beq admits)
    cases p <;> rfl

namespace Grammar

/-- Whatever is called in boolean algebra is a connective, or makes a list. -/
theorem mem_connectives_of_calls {tree : TokenTree} {callable : Callable} {trees : List TokenTree}
    (h : boolean.Calls tree callable trees) (noList : tree.name ≠ ",") :
    (tree.name, callable) ∈ connectives := by
  have entries : boolean.callEntries =
      [("~", .negation), ("!", .negation), ("not", .negation), (",", .list), ("or", .disjunction),
        ("||", .disjunction), ("and", .conjunction), ("&&", .conjunction), ("!=", .notEqual),
        ("==", .equal), ("xor", .exclusive), ("->", .implication), ("<->", .equivalence),
        ("if", .choice)] := rfl
  have all : ∀ entry ∈ boolean.callEntries, entry.1 ≠ "," → entry ∈ connectives := by
    rw [entries]
    simp [connectives]
  exact all _ h.mem_callEntries noList

theorem variableKind_boolean (name : String) : boolean.variableKind name = some .bool := rfl

theorem constant_boolean {name : String} {value : Value}
    (h : boolean.constants.get? name = some value) : ∃ p, value = .bool p := by
  have constants : boolean.constants.entries = [("false", .bool false), ("true", .bool true)] := rfl
  have hmem := Table.mem_entries_of_get? h
  rw [constants] at hmem
  simp only [List.mem_cons, Prod.mk.injEq, List.not_mem_nil, or_false] at hmem
  rcases hmem with ⟨-, rfl⟩ | ⟨-, rfl⟩
  · exact ⟨false, rfl⟩
  · exact ⟨true, rfl⟩

end Grammar

/-! ### Terms of boolean algebra -/

namespace Term

variable {assignment : String → Bool} {b : Bindings} {t : Term} {tree : TokenTree}

/-- Whether a node is neither a number nor a list. -/
def IsPropositional (n : Term) : Prop := n.label ≠ "," ∧ ∀ label x, n ≠ .constant label (.number x)

theorem label_call (label : String) (callable : Callable) (arguments : List Term) :
    (call label callable arguments).label = label := by
  unfold call
  split <;> rfl

theorem evaluateAll_eq_ok {ts : List Term}
    (h : ∀ t ∈ ts, t.evaluate b = .ok (.bool (t.truth assignment))) :
    evaluateAll b ts = .ok ((ts.map (truth assignment)).map .bool) := by
  rw [evaluateAll_eq_mapM, mapM_eq_ok, List.map_map, List.forall₂_map_right_iff, List.forall₂_same]
  exact h

/-- A term that a tree is bound to in boolean algebra is worth its truth value. -/
theorem evaluate_of_bind (h : bind Grammar.boolean tree = .ok t)
    (propositional : ∀ n ∈ t.nodes, n.IsPropositional)
    (bound : ∀ name kind, .free name kind ∈ t.nodes →
      b.get? name = some (.bool (assignment name))) :
    t.evaluate b = .ok (.bool (t.truth assignment)) := by
  revert propositional bound
  refine bind_induction (P := fun _ t => (∀ n ∈ t.nodes, n.IsPropositional) →
    (∀ name kind, .free name kind ∈ t.nodes → b.get? name = some (.bool (assignment name))) →
    t.evaluate b = .ok (.bool (t.truth assignment))) ?_ ?_ ?_ ?_ ?_ ?_ h
  · exact fun _ _ _ _ ih => ih
  · exact fun _ _ _ _ _ ih => ih
  · intro name x _ propositional
    have own := (forall_mem_nodes.mp propositional).1
    exact absurd rfl (own.2 name x)
  · intro name value found _ _
    obtain ⟨p, rfl⟩ := Grammar.constant_boolean found
    cases p <;> rfl
  · intro name kind _ hk _ bound
    rw [Grammar.variableKind_boolean, Option.some.injEq] at hk
    subst hk
    have value := bound name .bool (by simp [nodes])
    exact Bindings.read_eq_ok.mpr ⟨value, rfl⟩
  · intro tree callable trees arguments hcalls admits harguments propositional bound
    obtain ⟨own, inner⟩ := forall_mem_nodes.mp propositional
    rw [children_call] at inner
    have known : (tree.name, callable) ∈ connectives := by
      apply Grammar.mem_connectives_of_calls hcalls
      rw [← label_call tree.name callable arguments]
      exact own.1
    have values : ∀ u ∈ arguments, u.evaluate b = .ok (.bool (u.truth assignment)) := by
      intro u hu
      obtain ⟨_, -, -, ih⟩ := exists_mem_of_forall₂ harguments hu
      apply ih (inner u hu)
      intro name kind hn
      apply bound name kind
      rw [nodes_eq_cons, children_call]
      exact List.mem_cons_of_mem _ (mem_nodesOfAll.mpr ⟨u, hu, hn⟩)
    rw [harguments.length_eq, ← List.length_map (truth assignment)] at admits
    rw [evaluate_call, evaluateAll_eq_ok values, truth_call]
    exact call_of_mem_connectives known admits

/-- **Boolean algebra is total and truth-functional.**  A term of a text of boolean algebra with
neither a number nor a list in it has a value under all bindings of its variables to truth values,
and it is the truth value that the truth tables of the connectives give. -/
theorem evaluate_boolean {input : String} (h : ofText Grammar.boolean input = .ok t)
    (propositional : ∀ n ∈ t.nodes, n.IsPropositional)
    (bound : ∀ name ∈ t.variableNames, b.get? name = some (.bool (assignment name))) :
    t.evaluate b = .ok (.bool (t.truth assignment)) := by
  obtain ⟨tree, -, h⟩ := bind_eq_ok.mp h
  apply evaluate_of_bind (ofTree_eq_ok.mp h).2 propositional
  intro name kind hn
  exact bound name (mem_variableNames.mpr ⟨kind, hn⟩)

/-- An implication, a choice and a comparison, under one of the assignments. -/
theorem evaluate_boolean_sample :
    ∃ (t : Term) (b : Bindings),
      ofText Grammar.boolean "A -> NOT b || if(c, TRUE, a == b)" = .ok t ∧
      (∀ n ∈ t.nodes, n.IsPropositional) ∧
      (∀ name ∈ t.variableNames, b.get? name = some (.bool (name != "c"))) ∧
      t.truth (· != "c") = true ∧ t.evaluate b = .ok (.bool true) := by
  let t : Term := .method "->" .implication [.free "a" .bool, .vararg "||" .disjunction
    [.method "not" .negation [.free "b" .bool], .method "if" .choice
      [.free "c" .bool, .constant "true" (.bool true),
        .method "==" .equal [.free "a" .bool, .free "b" .bool]]]]
  let b : Bindings := .ofList [("a", .bool true), ("b", .bool true), ("c", .bool false)]
  have hread : TokenTree.ofText Grammar.boolean "A -> NOT b || if(c, TRUE, a == b)" = .ok (.top
      (.node "->" .binary [.leaf "a" .identifier, .node "||" .multary
        [.node "not" .preUnary [.leaf "b" .identifier], .node "if" .function
          [.leaf "c" .identifier, .leaf "true" .identifier,
            .node "==" .binary [.leaf "a" .identifier, .leaf "b" .identifier]]]])) := by
    decide +kernel
  have ht : ofText Grammar.boolean "A -> NOT b || if(c, TRUE, a == b)" = .ok t :=
    bind_eq_ok.mpr ⟨_, hread, ofTree_eq_ok.mpr ⟨by decide +kernel, rfl⟩⟩
  have propositional : ∀ n ∈ t.nodes, n.IsPropositional := by
    simp [t, nodes, nodesOfAll, IsPropositional, label]
  have names : t.variableNames = ["a", "b", "c"] := by decide +kernel
  have bound : ∀ name ∈ t.variableNames, b.get? name = some (.bool (name != "c")) := by
    rw [names]
    simp [b, Table.ofList, Table.insertAll, Table.get?_insert]
  have truth : t.truth (· != "c") = true := by decide
  refine ⟨t, b, ht, propositional, bound, truth, ?_⟩
  rw [← truth]
  exact evaluate_boolean ht propositional bound

end Term

end OperatorGrammar
