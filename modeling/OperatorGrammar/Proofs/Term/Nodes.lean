import OperatorGrammar.Proofs.Outcome
import OperatorGrammar.Term.Evaluation

/-! # The nodes of a term

`Term.nodes` lists the terms that a term is made of, so that what holds at every call is a statement
about the members of a list, and `Term.induction` goes from the arguments of a call to the call.  A
term that has a value has one for each of its nodes (`exists_value_of_mem_nodes`). -/

namespace OperatorGrammar

namespace Term

/-- What holds of a call whenever it holds of its arguments holds of every term. -/
@[elab_as_elim]
theorem induction {P : Term → Prop} (constant : ∀ label value, P (.constant label value))
    (free : ∀ name kind, P (.free name kind))
    (method : ∀ label callable arguments, (∀ t ∈ arguments, P t) →
      P (.method label callable arguments))
    (vararg : ∀ label callable arguments, (∀ t ∈ arguments, P t) →
      P (.vararg label callable arguments))
    (t : Term) : P t := by
  refine @Term.rec P (fun ts => ∀ t ∈ ts, P t) constant free method vararg ?_ ?_ t
  · intro t ht
    cases ht
  · intro t ts ht hts u hu
    rcases List.mem_cons.mp hu with rfl | hu
    · exact ht
    · exact hts u hu

/-- What holds of a term whenever it holds of the terms below it holds of every term. -/
@[elab_as_elim]
theorem children_induction {P : Term → Prop} (node : ∀ t : Term, (∀ u ∈ t.children, P u) → P t)
    (t : Term) : P t := by
  induction t using Term.induction with
  | constant label value => exact node _ fun _ hu => absurd hu List.not_mem_nil
  | free name kind => exact node _ fun _ hu => absurd hu List.not_mem_nil
  | method label callable arguments ih | vararg label callable arguments ih => exact node _ ih

mutual

/-- The terms that a term is made of, the term itself first. -/
def nodes : Term → List Term
  | .constant label value => [.constant label value]
  | .free name kind => [.free name kind]
  | .method label callable arguments => .method label callable arguments :: nodesOfAll arguments
  | .vararg label callable arguments => .vararg label callable arguments :: nodesOfAll arguments

def nodesOfAll : List Term → List Term
  | [] => []
  | t :: ts => nodes t ++ nodesOfAll ts

end

theorem nodes_eq_cons (t : Term) : t.nodes = t :: nodesOfAll t.children := by
  cases t <;> rfl

theorem mem_nodesOfAll {n : Term} {ts : List Term} :
    n ∈ nodesOfAll ts ↔ ∃ t ∈ ts, n ∈ t.nodes := by
  induction ts with
  | nil => simp [nodesOfAll]
  | cons t ts ih => simp [nodesOfAll, ih]

/-- Every node of a term has a property exactly if the term has it and so has every node of its
arguments. -/
theorem forall_mem_nodes {P : Term → Prop} {t : Term} :
    (∀ n ∈ t.nodes, P n) ↔ P t ∧ ∀ u ∈ t.children, ∀ n ∈ u.nodes, P n := by
  rw [nodes_eq_cons, List.forall_mem_cons]
  apply and_congr_right
  intro _
  constructor
  · intro h u hu n hn
    exact h n (mem_nodesOfAll.mpr ⟨u, hu, hn⟩)
  · intro h n hn
    obtain ⟨u, hu, hn⟩ := mem_nodesOfAll.mp hn
    exact h u hu n hn

theorem evaluateAll_eq_mapM (b : Bindings) (ts : List Term) :
    evaluateAll b ts = ts.mapM (evaluate b) := by
  induction ts with
  | nil => rfl
  | cons t ts ih => rw [evaluateAll, List.mapM_cons, ih]

theorem length_of_evaluateAll {b : Bindings} {ts : List Term} {values : List Value}
    (h : evaluateAll b ts = .ok values) : values.length = ts.length := by
  rw [evaluateAll_eq_mapM] at h
  exact (mapM_eq_ok.mp h).length_eq.symm

/-! ### Terms with a value -/

variable {b : Bindings} {t : Term} {e : EvaluationError}

theorem evaluate_of_arguments (h : evaluateAll b t.children = .error e) :
    t.evaluate b = .error e := by
  cases t with
  | constant label value | free name kind => cases h
  | method label callable arguments | vararg label callable arguments =>
      exact bind_eq_error.mpr (Or.inl h)

theorem exists_values (h : ∃ v, t.evaluate b = .ok v) :
    ∃ values, evaluateAll b t.children = .ok values := by
  obtain ⟨v, hv⟩ := h
  cases ha : evaluateAll b t.children with
  | ok values => exact ⟨values, rfl⟩
  | error e =>
      rw [evaluate_of_arguments ha] at hv
      cases hv

theorem exists_value_of_mem {ts : List Term} {values : List Value}
    (h : evaluateAll b ts = .ok values) : ∀ t ∈ ts, ∃ v, t.evaluate b = .ok v := by
  intro t ht
  rw [evaluateAll_eq_mapM] at h
  obtain ⟨v, -, hv⟩ := exists_mem_of_forall₂ (mapM_eq_ok.mp h).flip ht
  exact ⟨v, hv⟩

/-- Every node of a term with a value has a value. -/
theorem exists_value_of_mem_nodes (h : ∃ v, t.evaluate b = .ok v) :
    ∀ n ∈ t.nodes, ∃ v, n.evaluate b = .ok v := by
  induction t using Term.children_induction with
  | node t ih =>
      obtain ⟨values, hvalues⟩ := exists_values h
      refine forall_mem_nodes.mpr ⟨h, fun u hu => ih u hu ?_⟩
      exact exists_value_of_mem hvalues u hu

end Term

end OperatorGrammar
