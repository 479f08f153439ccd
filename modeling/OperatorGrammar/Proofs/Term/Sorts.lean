import OperatorGrammar.Proofs.Signature

/-! # Well-sorted terms of real arithmetic do not go wrong

`Term.sort?` gives the terms of real arithmetic sorts by the signatures of their symbols, without a
look at their callables: constants and variables are numbers, and a term that makes a list somewhere
has no sort.  A term of a text that has a sort, with its variables bound to numbers, has a value of
this sort or fails for an arithmetical reason, by induction along the calls of its tree
(`Term.sound_of_bind`).  So it never fails for the kind of a value, an unbound variable or the
number of arguments (`Term.evaluate_sorted`). -/

namespace OperatorGrammar

namespace Grammar

theorem variableKind_real (name : String) : real.variableKind name = some .number := rfl

theorem constant_real {name : String} {value : Value}
    (h : real.constants.get? name = some value) : ∃ x, value = .number x := by
  have constants : real.constants.entries = [("tau", .number Double.tau),
    ("e", .number Double.euler), ("pi", .number Double.pi)] := rfl
  have all : ∀ entry ∈ real.constants.entries, ∃ x, entry.2 = .number x := by
    rw [constants]
    simp
  exact all _ (Table.mem_entries_of_get? h)

end Grammar

namespace Term

variable {b : Bindings} {t : Term} {ts : List Term} {tree : TokenTree} {s : ValueSort}
  {sorts : List ValueSort}

mutual

/-- The sort of a term, if it has one. -/
def sort? : Term → Option ValueSort
  | .constant _ _ => some .num
  | .free _ _ => some .num
  | .method label _ arguments => do
    let signature ← signature? label
    let sorts ← sorts? arguments
    signature.result? sorts
  | .vararg label _ arguments => do
    let signature ← signature? label
    let sorts ← sorts? arguments
    signature.result? sorts

def sorts? : List Term → Option (List ValueSort)
  | [] => some []
  | t :: ts => do
    let sort ← sort? t
    let sorts ← sorts? ts
    return sort :: sorts

end

theorem sort?_call_eq_some {label : String} {callable : Callable} {arguments : List Term} :
    (call label callable arguments).sort? = some s ↔
      ∃ signature, signature? label = some signature ∧ ∃ sorts, sorts? arguments = some sorts ∧
        signature.result? sorts = some s := by
  have hcall : (call label callable arguments).sort? =
      (signature? label).bind fun signature => (sorts? arguments).bind signature.result? := by
    unfold call
    split <;> rfl
  rw [hcall]
  simp only [Option.bind_eq_some_iff]

theorem sorts?_eq_some :
    sorts? ts = some sorts ↔ List.Forall₂ (fun t s => t.sort? = some s) ts sorts := by
  induction ts generalizing sorts with
  | nil => simp [sorts?, eq_comm]
  | cons t ts ih =>
      rw [List.forall₂_cons_left_iff]
      have hcons : sorts? (t :: ts) =
          (sort? t).bind fun sort => (sorts? ts).bind fun sorts => some (sort :: sorts) := rfl
      simp only [hcons, Option.bind_eq_some_iff, ih, Option.some.injEq, eq_comm (b := sorts)]
      constructor
      · rintro ⟨sort, hsort, rest, hrest, rfl⟩
        exact ⟨sort, rest, hsort, hrest, rfl⟩
      · rintro ⟨sort, rest, hsort, hrest, rfl⟩
        exact ⟨sort, hsort, rest, hrest, rfl⟩

theorem sound_evaluateAll
    (h : List.Forall₂ (fun t s => Outcome.Sound s (t.evaluate b)) ts sorts) :
    (∃ vs, evaluateAll b ts = .ok vs ∧ List.Forall₂ Value.HasSort vs sorts) ∨
      ∃ e, evaluateAll b ts = .error e ∧ e.IsArithmetic := by
  induction h with
  | nil => exact Or.inl ⟨[], rfl, List.Forall₂.nil⟩
  | @cons t s ts sorts ht _ ih =>
      have hcons : evaluateAll b (t :: ts) = t.evaluate b >>= fun v =>
        evaluateAll b ts >>= fun vs => .ok (v :: vs) := rfl
      rw [hcons]
      generalize t.evaluate b = outcome at ht
      cases ht with
      | @failure e he => exact Or.inr ⟨e, rfl, he⟩
      | @value v hv =>
          rcases ih with ⟨vs, hvs, hsorts⟩ | ⟨e, herror, he⟩
          · rw [hvs]
            exact Or.inl ⟨v :: vs, rfl, List.Forall₂.cons hv hsorts⟩
          · rw [herror]
            exact Or.inr ⟨e, rfl, he⟩

/-- A term that a tree is bound to in real arithmetic has a value of its sort, or fails for an
arithmetical reason. -/
theorem sound_of_bind (h : bind Grammar.real tree = .ok t) (hs : t.sort? = some s)
    (bound : ∀ name kind, .free name kind ∈ t.nodes → ∃ x, b.get? name = some (.number x)) :
    Outcome.Sound s (t.evaluate b) := by
  revert s bound
  refine bind_induction (P := fun _ t => ∀ {s}, t.sort? = some s →
    (∀ name kind, .free name kind ∈ t.nodes → ∃ x, b.get? name = some (.number x)) →
    Outcome.Sound s (t.evaluate b)) ?_ ?_ ?_ ?_ ?_ ?_ h
  · exact fun _ _ _ _ ih => ih
  · exact fun _ _ _ _ _ ih => ih
  · intro name x _ s hs _
    obtain rfl := Option.some.inj hs
    exact .value (.number x)
  · intro name value found s hs _
    obtain rfl := Option.some.inj hs
    obtain ⟨x, rfl⟩ := Grammar.constant_real found
    exact .value (.number x)
  · intro name kind _ hk s hs bound
    obtain rfl := Option.some.inj hs
    rw [Grammar.variableKind_real, Option.some.injEq] at hk
    subst hk
    obtain ⟨x, hx⟩ := bound name .number (by simp [nodes])
    rw [evaluate, Bindings.read_eq_ok.mpr ⟨hx, rfl⟩]
    exact .value (.number x)
  · intro tree callable trees arguments hcalls admits harguments s hs bound
    obtain ⟨signature, hsignature, sorts, hsorts, hresult⟩ := sort?_call_eq_some.mp hs
    have fits : signature.Fits callable :=
      fitsSymbol_of_mem_callEntries _ hcalls.mem_callEntries signature hsignature
    have values : List.Forall₂ (fun t s => Outcome.Sound s (t.evaluate b)) arguments sorts := by
      refine forall₂_and_mem (sorts?_eq_some.mp hsorts) fun u sort hu husort => ?_
      obtain ⟨_, -, -, ih⟩ := exists_mem_of_forall₂ harguments hu
      refine ih husort fun name kind hn => bound name kind ?_
      rw [nodes_eq_cons, children_call]
      exact List.mem_cons_of_mem _ (mem_nodesOfAll.mpr ⟨u, hu, hn⟩)
    rw [evaluate_call]
    rcases sound_evaluateAll values with ⟨vs, hvs, hvalues⟩ | ⟨e, herror, he⟩
    · rw [hvs]
      refine fits vs sorts s hvalues hresult ?_
      rwa [hvalues.length_eq, ← values.length_eq, ← harguments.length_eq]
    · rw [herror]
      exact .failure he

/-- **Well-sorted expressions of real arithmetic do not go wrong.**  Where the term of a text has a
sort and its variables are bound to numbers, it has a value of this sort, or it divides by zero, or
a function or an operator is not defined for its arguments. -/
theorem evaluate_sorted {input : String} (h : ofText Grammar.real input = .ok t)
    (hs : t.sort? = some s)
    (bound : ∀ name ∈ t.variableNames, ∃ x, b.get? name = some (.number x)) :
    (∃ v, t.evaluate b = .ok v ∧ v.HasSort s) ∨ t.evaluate b = .error .divisionByZero ∨
      ∃ fault, t.evaluate b = .error (.invalidArgument fault) := by
  obtain ⟨tree, -, h⟩ := bind_eq_ok.mp h
  have sound : Outcome.Sound s (t.evaluate b) :=
    sound_of_bind (ofTree_eq_ok.mp h).2 hs fun name kind hn =>
      bound name (mem_variableNames.mpr ⟨kind, hn⟩)
  generalize t.evaluate b = outcome at sound
  cases sound with
  | @value v hv => exact Or.inl ⟨v, rfl, hv⟩
  | @failure e he =>
      cases e with
      | divisionByZero => exact Or.inr (Or.inl rfl)
      | invalidArgument fault => exact Or.inr (Or.inr ⟨fault, rfl⟩)
      | unboundVariable | kindMismatch | expectedNumber | expectedBool | argumentCount =>
          exact absurd he id

/-- A choice between two numbers by a condition on two variables. -/
theorem evaluate_sorted_sample :
    ∃ (t : Term) (b : Bindings),
      ofText Grammar.real "if(x < e and not (x == y), |x - tau|!, mean(x, y) / e)" = .ok t ∧
      t.sort? = some .num ∧
      (∀ name ∈ t.variableNames, ∃ x, b.get? name = some (.number x)) ∧
      ((∃ v, t.evaluate b = .ok v ∧ v.HasSort .num) ∨ t.evaluate b = .error .divisionByZero ∨
        ∃ fault, t.evaluate b = .error (.invalidArgument fault)) := by
  have hread : TokenTree.ofText Grammar.real
      "if(x < e and not (x == y), |x - tau|!, mean(x, y) / e)" = .ok (.top
        (.node "if" .function
          [.node "and" .multary [.node "<" .binary [.leaf "x" .identifier, .leaf "e" .identifier],
            .node "not" .preUnary [.node "(" .opening
              [.node "==" .binary [.leaf "x" .identifier, .leaf "y" .identifier]]]],
          .node "!" .postUnary [.node "|" .opening
            [.node "-" .binary [.leaf "x" .identifier, .leaf "tau" .identifier]]],
          .node "/" .binary [.node "mean" .function [.leaf "x" .identifier, .leaf "y" .identifier],
            .leaf "e" .identifier]])) := by
    decide +kernel
  let b : Bindings := .ofList [("x", .number 1.0), ("y", .number 2.0)]
  obtain ⟨t, ht, hs, names⟩ : ∃ t,
      ofText Grammar.real "if(x < e and not (x == y), |x - tau|!, mean(x, y) / e)" = .ok t ∧
        t.sort? = some .num ∧ t.variableNames = ["x", "y"] :=
    ⟨_, bind_eq_ok.mpr ⟨_, hread, ofTree_eq_ok.mpr ⟨by decide +kernel, rfl⟩⟩, rfl,
      by decide +kernel⟩
  have bound : ∀ name ∈ t.variableNames, ∃ x, b.get? name = some (.number x) := by
    rw [names]
    simp [b, Table.ofList, Table.insertAll, Table.get?_insert]
  exact ⟨t, b, ht, hs, bound, evaluate_sorted ht hs bound⟩

end Term

end OperatorGrammar
