import OperatorGrammar.Operation.Comparison
import OperatorGrammar.Operation.Logic
import OperatorGrammar.Proofs.Term.Nodes

/-! # The variables of a term are what evaluation reads

`Term.variableNames` collects names with a list of the nodes that are left to be looked at; what
comes out are the names of the nodes that are variables (`mem_variableNames`).  Evaluation reads the
bindings at these nodes and nowhere else: terms are worth the same under bindings that agree on the
names (`evaluate_congr`), a value comes out only if each of these nodes has been read with success
(`suits_of_evaluate`), and where all of them can be read no error is about a variable
(`not_blamesBindings_of_suits`). -/

namespace OperatorGrammar

/-- Whether an error says that a variable has no value, or one of another kind than its own. -/
def EvaluationError.BlamesBindings : EvaluationError → Prop
  | .unboundVariable _ | .kindMismatch _ _ _ => True
  | _ => False

/-- Whether a callable gives such an error by itself. -/
def Callable.BlamesBindings (callable : Callable) : Prop :=
  ∃ arguments e, callable.call arguments = .error e ∧ e.BlamesBindings

theorem Callable.blamesBindings_of_callList {callable : Callable} {label : String}
    {arguments : List Value} {e : EvaluationError}
    (h : callable.callList label arguments = .error e) (he : e.BlamesBindings) :
    callable.BlamesBindings := by
  obtain ⟨name, implementation⟩ := callable
  cases implementation with
  | variadic run => exact ⟨arguments, e, h, he⟩
  | nullary run | unary run | binary run | ternary run =>
      cases h
      cases he

namespace Bindings

variable {b : Bindings} {name : String} {kind : Kind} {v : Value} {e : EvaluationError}

theorem read_eq_ok : b.read name kind = .ok v ↔ b.get? name = some v ∧ kind.admits v = true := by
  unfold read
  cases b.get? name with
  | none => simp
  | some w =>
      by_cases hw : kind.admits w = true
      · simp only [if_pos hw, Except.ok.injEq, Option.some.injEq]
        constructor
        · rintro rfl
          exact ⟨rfl, hw⟩
        · exact And.left
      · simp only [if_neg hw, reduceCtorEq, Option.some.injEq, false_iff, not_and]
        rintro rfl
        exact hw

theorem read_congr {b' : Bindings} (h : b.get? name = b'.get? name) :
    b.read name kind = b'.read name kind := by
  unfold read
  rw [h]

end Bindings

namespace Term

variable {t : Term} {name : String}

/-! ### The names -/

/-- A node is taken from those that are left, and the nodes below it are put there. -/
theorem mem_nodesOfAll_cons {n t : Term} {work : List Term} :
    n ∈ nodesOfAll (t :: work) ↔ t = n ∨ n ∈ nodesOfAll (t.children.reverse ++ work) := by
  rw [nodesOfAll, nodes_eq_cons, List.cons_append, List.mem_cons, List.mem_append]
  simp only [mem_nodesOfAll, List.mem_append, List.mem_reverse, or_and_right, exists_or,
    eq_comm (a := n)]

theorem mem_addName {names : List String} :
    name ∈ addName names t ↔ name ∈ names ∨ ∃ kind, t = .free name kind := by
  cases t with
  | free other kind =>
      rw [addName, mem_insertName, or_comm]
      simp [eq_comm]
  | _ => simp [addName]

/-- The names that are found from the nodes that are left are those of the variables at and below
them. -/
theorem mem_collectNames (names : List String) (work : List Term) :
    name ∈ collectNames names work ↔
      name ∈ names ∨ ∃ kind, .free name kind ∈ nodesOfAll work := by
  fun_induction collectNames names work with
  | case1 names => simp [nodesOfAll]
  | case2 names t work ih =>
      rw [ih, mem_addName, or_assoc]
      simp only [mem_nodesOfAll_cons, exists_or]

/-- **The names of the variables of a term** are those of the nodes that are variables. -/
theorem mem_variableNames : name ∈ t.variableNames ↔ ∃ kind, .free name kind ∈ t.nodes := by
  rw [variableNames, mem_collectNames]
  simp [nodesOfAll]

/-! ### The same values for the variables -/

theorem evaluateAll_congr {b b' : Bindings} {ts : List Term}
    (h : ∀ t ∈ ts, t.evaluate b = t.evaluate b') : evaluateAll b ts = evaluateAll b' ts := by
  induction ts with
  | nil => rfl
  | cons t ts ih =>
      rw [List.forall_mem_cons] at h
      rw [evaluateAll, evaluateAll, h.1, ih h.2]

theorem evaluate_congr {b b' : Bindings}
    (h : ∀ name kind, .free name kind ∈ t.nodes → b.get? name = b'.get? name) :
    t.evaluate b = t.evaluate b' := by
  induction t using Term.induction with
  | constant label value => rfl
  | free name kind => exact Bindings.read_congr (h name kind (by simp [nodes]))
  | method label callable arguments ih | vararg label callable arguments ih =>
      have below : ∀ u ∈ arguments, u.evaluate b = u.evaluate b' := by
        intro u hu
        apply ih u hu
        intro name kind hn
        apply h name kind
        rw [nodes_eq_cons]
        exact List.mem_cons_of_mem _ (mem_nodesOfAll.mpr ⟨u, hu, hn⟩)
      rw [evaluate, evaluate, evaluateAll_congr below]

/-! ### Values for all variables -/

/-- Whether bindings give every variable of a term a value that is of the kind of each node with
its name. -/
def Suits (b : Bindings) (t : Term) : Prop :=
  ∀ name ∈ t.variableNames, ∃ v, b.get? name = some v ∧
    ∀ kind, .free name kind ∈ t.nodes → kind.admits v = true

theorem suits_iff {b : Bindings} :
    t.Suits b ↔ ∀ name kind, .free name kind ∈ t.nodes → ∃ v, b.read name kind = .ok v := by
  constructor
  · intro h name kind hn
    obtain ⟨v, hv, hkind⟩ := h name (mem_variableNames.mpr ⟨kind, hn⟩)
    exact ⟨v, Bindings.read_eq_ok.mpr ⟨hv, hkind kind hn⟩⟩
  · intro h name hname
    obtain ⟨kind, hn⟩ := mem_variableNames.mp hname
    obtain ⟨v, hv⟩ := h name kind hn
    have hget := (Bindings.read_eq_ok.mp hv).1
    refine ⟨v, hget, fun kind' hn' => ?_⟩
    obtain ⟨v', hv'⟩ := h name kind' hn'
    obtain ⟨hget', admits⟩ := Bindings.read_eq_ok.mp hv'
    rw [hget, Option.some.injEq] at hget'
    rwa [hget']

theorem Suits.of_mem_children {b : Bindings} {u : Term} (h : t.Suits b) (hu : u ∈ t.children) :
    u.Suits b := by
  rw [suits_iff] at h ⊢
  intro name kind hn
  apply h name kind
  rw [nodes_eq_cons]
  exact List.mem_cons_of_mem _ (mem_nodesOfAll.mpr ⟨u, hu, hn⟩)

/-- A value comes out only if every variable has been read. -/
theorem suits_of_evaluate {b : Bindings} {v : Value} (h : t.evaluate b = .ok v) : t.Suits b := by
  rw [suits_iff]
  intro name kind hn
  exact exists_value_of_mem_nodes ⟨v, h⟩ _ hn

/-- What a node calls. -/
def callable? : Term → Option Callable
  | .constant _ _ | .free _ _ => none
  | .method _ callable _ | .vararg _ callable _ => some callable

/-- Where every variable can be read, an error that is about a variable can only be that of a
callable. -/
theorem not_blamesBindings_of_suits {b : Bindings} {e : EvaluationError} (suits : t.Suits b)
    (callables : ∀ n ∈ t.nodes, ∀ callable ∈ n.callable?, ¬ callable.BlamesBindings)
    (h : t.evaluate b = .error e) : ¬ e.BlamesBindings := by
  induction t using Term.induction with
  | constant label value => cases h
  | free name kind =>
      obtain ⟨v, hv⟩ := suits_iff.mp suits name kind (by simp [nodes])
      rw [evaluate, hv] at h
      cases h
  | method label callable arguments ih =>
      obtain ⟨own, inner⟩ := forall_mem_nodes.mp callables
      rcases bind_eq_error.mp h with h | ⟨values, -, h⟩
      · rw [evaluateAll_eq_mapM] at h
        obtain ⟨u, hu, hue⟩ := mapM_eq_error h
        exact ih u hu (suits.of_mem_children hu) (inner u hu) hue
      · exact fun blames => own callable rfl ⟨values, e, h, blames⟩
  | vararg label callable arguments ih =>
      obtain ⟨own, inner⟩ := forall_mem_nodes.mp callables
      rcases bind_eq_error.mp h with h | ⟨values, -, h⟩
      · rw [evaluateAll_eq_mapM] at h
        obtain ⟨u, hu, hue⟩ := mapM_eq_error h
        exact ih u hu (suits.of_mem_children hu) (inner u hu) hue
      · exact fun blames => own callable rfl (Callable.blamesBindings_of_callList h blames)

/-- **The names of the variables are exactly what evaluation reads.**  Under bindings that agree on
them a term has the same value or the same error.  It has a value only if each of them is bound to
a value of the kind of every node with that name.  If they are, no error says that a variable has no
value or one of another kind, unless a callable of the term gives such an error. -/
theorem evaluate_reads (t : Term) :
    (∀ b b' : Bindings, (∀ name ∈ t.variableNames, b.get? name = b'.get? name) →
      t.evaluate b = t.evaluate b') ∧
    (∀ b v, t.evaluate b = .ok v → t.Suits b) ∧
    ∀ b, t.Suits b →
      (∀ n ∈ t.nodes, ∀ callable ∈ n.callable?, ¬ callable.BlamesBindings) →
      ∀ e, t.evaluate b = .error e → ¬ e.BlamesBindings := by
  refine ⟨?_, fun _ _ => suits_of_evaluate, fun b suits callables e =>
    not_blamesBindings_of_suits suits callables⟩
  intro b b' agree
  exact evaluate_congr fun name kind hn => agree name (mem_variableNames.mpr ⟨kind, hn⟩)

/-- A comparison that reads one name for two kinds, under a negation that may be refused a list. -/
theorem evaluate_reads_sample :
    ∃ (t : Term) (b b' : Bindings), t.variableNames = ["x", "y"] ∧
      (t.evaluate b = .ok (.bool false) ∧ t.Suits b ∧ t.evaluate b = t.evaluate b') ∧
      ∃ (u : Term) (e : EvaluationError), u.Suits b ∧ u.evaluate b = .error e ∧
        ¬ e.BlamesBindings := by
  let t : Term := .method "==" .equal
    [.method "==" .equal [.free "x" .any, .free "x" .bool], .free "y" .list]
  let u : Term := .method "not" .negation [.free "y" .any]
  let b : Bindings := .ofList [("x", .bool true), ("y", .list [])]
  let b' : Bindings := .ofList [("x", .bool true), ("y", .list []), ("z", .bool true)]
  have value : t.evaluate b = .ok (.bool false) := rfl
  have names : t.variableNames = ["x", "y"] := by decide +kernel
  have agree : ∀ name ∈ t.variableNames, b.get? name = b'.get? name := by
    rw [names]
    simp [b, b', Table.ofList, Table.insertAll, Table.get?_insert]
  have suits : u.Suits b := by
    rw [suits_iff]
    intro name kind hn
    obtain ⟨rfl, rfl⟩ : name = "y" ∧ kind = .any := by simpa [u, nodes, nodesOfAll] using hn
    exact ⟨.list [], rfl⟩
  have innocent : ¬ Callable.negation.BlamesBindings := by
    rintro ⟨arguments, e, h, blames⟩
    cases arguments with
    | nil =>
        cases h
        cases blames
    | cons value rest =>
        cases rest with
        | nil =>
            cases value with
            | bool p => cases h
            | number | list =>
                cases h
                cases blames
        | cons next rest =>
            cases h
            cases blames
  refine ⟨t, b, b', names, ⟨value, (evaluate_reads t).2.1 b _ value,
    (evaluate_reads t).1 b b' agree⟩, u, .expectedBool .list, suits, rfl, ?_⟩
  refine (evaluate_reads u).2.2 b suits ?_ _ rfl
  intro n hn callable hc
  obtain rfl | rfl : n = u ∨ n = .free "y" .any := by simpa [u, nodes, nodesOfAll] using hn
  · obtain rfl : Callable.negation = callable := Option.some.inj hc
    exact innocent
  · cases hc

end Term

end OperatorGrammar
