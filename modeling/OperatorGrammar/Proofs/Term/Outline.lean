import OperatorGrammar.Grammar.Bundled
import OperatorGrammar.Proofs.Term.Arity
import OperatorGrammar.Proofs.Term.Variables

/-! # Binding keeps the shape of a tree

A term has a node for each node of its tree, but for three kinds of level: the root, a group that is
no enclosure, and a separator that is the content of an enclosure.  `TokenTree.erase` takes these
levels out of a tree.  What is left and the term have one outline, node for node
(`outline_of_bind`), every call stands with the callable of the table that its node is looked up in
(`callables_of_bind`), and the variables are the identifiers that are no constants
(`mem_variableNames_of_bind`). -/

namespace OperatorGrammar

/-- A tree of names. -/
inductive Outline where
  | node (name : String) (below : List Outline)

namespace Outline

mutual

def text : Outline → String
  | .node name below => bracketed name (texts below)

def texts : List Outline → List String
  | [] => []
  | o :: os => text o :: texts os

end

theorem texts_eq_map (os : List Outline) : texts os = os.map text := by
  induction os with
  | nil => rfl
  | cons o os ih => rw [texts, ih, List.map_cons]

end Outline

namespace TokenTree

mutual

/-- The names of a tree in its shape. -/
def outline : TokenTree → Outline
  | .node name _ children => .node name (outlines children)

def outlines : List TokenTree → List Outline
  | [] => []
  | t :: ts => outline t :: outlines ts

end

theorem outlines_eq_map (ts : List TokenTree) : outlines ts = ts.map outline := by
  induction ts with
  | nil => rfl
  | cons t ts ih => rw [outlines, ih, List.map_cons]

theorem text_outline (t : TokenTree) : t.outline.text = t.text := by
  induction t using TokenTree.induction with
  | node name kind children ih =>
      rw [outline, Outline.text, text, Outline.texts_eq_map, outlines_eq_map, texts_eq_map,
        List.map_map]
      exact congrArg (bracketed name) (List.map_congr_left ih)

mutual

/-- A tree without the levels that have no node in a term.  A root and a group that is no enclosure
give way to their content; an enclosure takes the trees below a separator as its own. -/
def erase (g : Grammar) : TokenTree → TokenTree
  | .node name kind children =>
    match kind, children with
    | .top, [child] => erase g child
    | .opening, [child] =>
      if g.enclosures.contains name then
        .node name .opening
          (if g.isSeparator child.name child.kind then (erase g child).children
          else [erase g child])
      else erase g child
    | kind, children => .node name kind (eraseAll g children)

def eraseAll (g : Grammar) : List TokenTree → List TokenTree
  | [] => []
  | t :: ts => erase g t :: eraseAll g ts

end

theorem eraseAll_eq_map (g : Grammar) (ts : List TokenTree) : eraseAll g ts = ts.map (erase g) := by
  induction ts with
  | nil => rfl
  | cons t ts ih => rw [eraseAll, ih, List.map_cons]

/-- The names of the identifiers of a tree. -/
def identifiers (t : TokenTree) : List String :=
  (t.nodes.filter fun n => n.kind = .identifier).map name

variable {g : Grammar} {tree : TokenTree} {trees : List TokenTree} {callable : Callable}
  {name : String}

/-! ### What is left of a node -/

theorem erase_root (name : String) (child : TokenTree) :
    (node name .top [child]).erase g = child.erase g := by
  rw [erase]

theorem erase_group (h : g.enclosures.get? name = none) (child : TokenTree) :
    (node name .opening [child]).erase g = child.erase g := by
  rw [erase, Table.contains, h]
  rfl

theorem erase_applied {kind : TokenKind} (h : kind.isApplied = true) (children : List TokenTree) :
    (node name kind children).erase g = node name kind (children.map (erase g)) := by
  cases kind with
  | preUnary | postUnary | binary | multary | function => rw [erase, eraseAll_eq_map] <;> simp
  | _ => cases h

theorem erase_enclosure (h : g.enclosures.get? name = some callable) (content : TokenTree) :
    (node name .opening [content]).erase g =
      node name .opening ((g.contents content).map (erase g)) := by
  obtain ⟨name', kind', children'⟩ := content
  rw [erase, Table.contains, h, Grammar.contents]
  by_cases hs : g.isSeparator name' kind' = true
  · have hk : kind'.isApplied = true := by
      cases kind' with
      | binary | multary => rfl
      | _ => cases hs
    simp [TokenTree.name, TokenTree.kind, hs, erase_applied hk, TokenTree.children]
  · simp [TokenTree.name, TokenTree.kind, hs]

/-- What a node is called on stands below it in what is left of its tree. -/
theorem erase_of_calls (h : g.Calls tree callable trees) :
    tree.erase g = node tree.name tree.kind (trees.map (erase g)) := by
  cases h with
  | applied applied => exact erase_applied applied _
  | enclosed found => exact erase_enclosure found _

/-! ### Identifiers -/

theorem mem_identifiers :
    name ∈ tree.identifiers ↔ ∃ n ∈ tree.nodes, n.kind = .identifier ∧ n.name = name := by
  simp [identifiers, and_assoc]

theorem identifiers_identifier (symbol : String) :
    (leaf symbol .identifier).identifiers = [symbol] := rfl

theorem identifiers_number (literal : String) : (leaf literal .number).identifiers = [] :=
  rfl

theorem mem_identifiers_node {symbol : String} {kind : TokenKind} {children : List TokenTree}
    (h : kind ≠ .identifier) :
    name ∈ (node symbol kind children).identifiers ↔ ∃ t ∈ children, name ∈ t.identifiers := by
  simp only [mem_identifiers, nodes, List.mem_cons, mem_nodesOfAll]
  constructor
  · rintro ⟨n, rfl | ⟨t, ht, hn⟩, hk, hname⟩
    · exact absurd hk h
    · exact ⟨t, ht, n, hn, hk, hname⟩
  · rintro ⟨t, ht, n, hn, hk, hname⟩
    exact ⟨n, Or.inr ⟨t, ht, hn⟩, hk, hname⟩

theorem mem_identifiers_contents (content : TokenTree) :
    (∃ t ∈ g.contents content, name ∈ t.identifiers) ↔ name ∈ content.identifiers := by
  obtain ⟨symbol, kind, children⟩ := content
  rw [Grammar.contents]
  by_cases hs : g.isSeparator symbol kind = true
  · rw [if_pos hs, mem_identifiers_node]
    rintro rfl
    cases hs
  · rw [if_neg hs]
    simp

/-- A call is made on all identifiers of its tree. -/
theorem mem_identifiers_of_calls (h : g.Calls tree callable trees) :
    name ∈ tree.identifiers ↔ ∃ t ∈ trees, name ∈ t.identifiers := by
  cases h with
  | @applied symbol kind children _ applied =>
      refine mem_identifiers_node ?_
      rintro rfl
      cases applied
  | enclosed =>
      rw [mem_identifiers_contents, mem_identifiers_node TokenKind.noConfusion]
      simp

end TokenTree

/-- The callable that the tables hold for a node: that of an operator in its role, of a function, or
of an enclosure. -/
def Grammar.callableFor? (g : Grammar) (kind : TokenKind) (name : String) : Option Callable :=
  match kind with
  | .preUnary => g.operator .preUnary name
  | .postUnary => g.operator .postUnary name
  | .binary | .multary => g.operator .nary name
  | .function => g.functions.get? name
  | .opening => g.enclosures.get? name
  | .number | .identifier | .closing | .top => none

theorem Grammar.Calls.callableFor? {g : Grammar} {tree : TokenTree} {trees : List TokenTree}
    {callable : Callable} (h : g.Calls tree callable trees) :
    g.callableFor? tree.kind tree.name = some callable := by
  cases h with
  | @applied name kind _ _ applied found =>
      cases kind with
      | preUnary | postUnary | binary | multary => exact callableOf_eq_ok.mp found
      | function => exact callableOfFunction_eq_ok.mp found
      | _ => cases applied
  | enclosed found => exact found

namespace Term

mutual

/-- The labels of a term in its shape. -/
def outline : Term → Outline
  | .constant label _ => .node label []
  | .free name _ => .node name []
  | .method label _ arguments => .node label (outlines arguments)
  | .vararg label _ arguments => .node label (outlines arguments)

def outlines : List Term → List Outline
  | [] => []
  | t :: ts => outline t :: outlines ts

end

theorem outlines_eq_map (ts : List Term) : outlines ts = ts.map outline := by
  induction ts with
  | nil => rfl
  | cons t ts ih => rw [outlines, ih, List.map_cons]

theorem text_outline (t : Term) : t.outline.text = t.text := by
  induction t using Term.induction with
  | constant label value | free label kind => rfl
  | method label callable arguments ih | vararg label callable arguments ih =>
      rw [outline, Outline.text, text, Outline.texts_eq_map, outlines_eq_map, texts_eq_map,
        List.map_map]
      exact congrArg (bracketed label) (List.map_congr_left ih)

section call

variable (label : String) (callable : Callable) (arguments : List Term)

theorem outline_call :
    (call label callable arguments).outline = .node label (arguments.map outline) := by
  unfold call
  split <;> rw [outline, outlines_eq_map]

theorem callable?_call : (call label callable arguments).callable? = some callable := by
  unfold call
  split <;> rfl

theorem nodes_call : (call label callable arguments).nodes =
    call label callable arguments :: nodesOfAll arguments := by
  rw [nodes_eq_cons, children_call]

theorem free_mem_nodes_call {name : String} :
    (∃ kind, .free name kind ∈ (call label callable arguments).nodes) ↔
      ∃ a ∈ arguments, ∃ kind, .free name kind ∈ a.nodes := by
  have other : ∀ kind, Term.free name kind ≠ call label callable arguments := by
    intro kind h
    have := congrArg callable? h
    rw [callable?_call] at this
    cases this
  simp only [nodes_call, List.mem_cons, other, false_or, mem_nodesOfAll]
  exact ⟨fun ⟨kind, a, ha, hn⟩ => ⟨a, ha, kind, hn⟩, fun ⟨a, ha, kind, hn⟩ => ⟨kind, a, ha, hn⟩⟩

end call

/-! ### What binding makes of a tree -/

variable {g : Grammar} {tree : TokenTree} {t : Term}

/-- The labels of a term are the names of what is left of its tree. -/
theorem outline_of_bind (h : bind g tree = .ok t) : t.outline = (tree.erase g).outline := by
  refine bind_induction (P := fun tree t => t.outline = (tree.erase g).outline) ?_ ?_ ?_ ?_ ?_ ?_ h
  · intro name child t _ ih
    rw [TokenTree.erase_root, ih]
  · intro name child t plain _ ih
    rw [TokenTree.erase_group plain, ih]
  · exact fun _ _ _ => rfl
  · exact fun _ _ _ => rfl
  · exact fun _ _ _ _ => rfl
  · intro tree callable trees arguments calls _ bound
    rw [outline_call, TokenTree.erase_of_calls calls, TokenTree.outline,
      TokenTree.outlines_eq_map, List.map_map]
    congr 1
    refine List.forall₂_eq_eq_eq ▸ ?_
    rw [List.forall₂_map_left_iff, List.forall₂_map_right_iff]
    exact (bound.imp fun _ _ hb => hb.2).flip

/-- What holds of the nodes of the terms and of what is left of their trees, term by term, holds of
all of these nodes. -/
theorem forall₂_nodesOfAll {R : TokenTree → Term → Prop} {trees : List TokenTree} {ts : List Term}
    (h : List.Forall₂ (fun tree t => List.Forall₂ R (tree.erase g).nodes t.nodes) trees ts) :
    List.Forall₂ R (TokenTree.nodesOfAll (trees.map (TokenTree.erase g))) (nodesOfAll ts) := by
  induction h with
  | nil => exact List.Forall₂.nil
  | cons first _ ih => exact List.rel_append first ih

/-- **Every call is that of the table its node is looked up in**: of its role for an operator, of
the functions, or of the enclosures. -/
theorem callables_of_bind (h : bind g tree = .ok t) :
    List.Forall₂ (fun n u => u.callable? = g.callableFor? n.kind n.name)
      (tree.erase g).nodes t.nodes := by
  refine bind_induction (P := fun tree t => List.Forall₂
    (fun n u => u.callable? = g.callableFor? n.kind n.name) (tree.erase g).nodes t.nodes)
    ?_ ?_ ?_ ?_ ?_ ?_ h
  · intro name child t _ ih
    rwa [TokenTree.erase_root]
  · intro name child t plain _ ih
    rwa [TokenTree.erase_group plain]
  · exact fun _ _ _ => List.Forall₂.cons rfl List.Forall₂.nil
  · exact fun _ _ _ => List.Forall₂.cons rfl List.Forall₂.nil
  · exact fun _ _ _ _ => List.Forall₂.cons rfl List.Forall₂.nil
  · intro tree callable trees arguments calls _ bound
    rw [TokenTree.erase_of_calls calls, TokenTree.nodes, nodes_call]
    refine List.Forall₂.cons ?_ (forall₂_nodesOfAll (bound.imp fun _ _ hb => hb.2))
    rw [callable?_call]
    exact calls.callableFor?.symm

/-- **The variables of a term** are the identifiers of its tree that are no constants. -/
theorem mem_variableNames_of_bind (h : bind g tree = .ok t) {name : String} :
    name ∈ t.variableNames ↔ name ∈ tree.identifiers ∧ g.constants.get? name = none := by
  rw [mem_variableNames]
  refine bind_induction (P := fun tree t => (∃ kind, .free name kind ∈ t.nodes) ↔
    name ∈ tree.identifiers ∧ g.constants.get? name = none) ?_ ?_ ?_ ?_ ?_ ?_ h
  · intro top child t _ ih
    rw [TokenTree.mem_identifiers_node TokenKind.noConfusion]
    simpa using ih
  · intro opener child t _ _ ih
    rw [TokenTree.mem_identifiers_node TokenKind.noConfusion]
    simpa using ih
  · intro literal x _
    rw [TokenTree.identifiers_number]
    simp [nodes]
  · intro constant value hv
    rw [TokenTree.identifiers_identifier, List.mem_singleton]
    have bound : ¬ (name = constant ∧ g.constants.get? name = none) := by
      rintro ⟨rfl, hn⟩
      rw [hn] at hv
      cases hv
    simpa [nodes] using bound
  · intro other kind hn _
    rw [TokenTree.identifiers_identifier, List.mem_singleton]
    have unbound : name = other → g.constants.get? name = none := by
      rintro rfl
      exact hn
    simpa [nodes] using unbound
  · intro tree callable trees arguments calls _ bound
    rw [free_mem_nodes_call, TokenTree.mem_identifiers_of_calls calls]
    constructor
    · rintro ⟨u, hu, hfree⟩
      obtain ⟨child, hchild, -, ih⟩ := exists_mem_of_forall₂ bound hu
      obtain ⟨hname, hn⟩ := ih.mp hfree
      exact ⟨⟨child, hchild, hname⟩, hn⟩
    · rintro ⟨⟨child, hchild, hname⟩, hn⟩
      obtain ⟨u, hu, -, ih⟩ := exists_mem_of_forall₂ bound.flip hchild
      exact ⟨u, hu, ih.mpr ⟨hname, hn⟩⟩

/-- **Binding keeps the shape.**  A term and its tree without the levels that binding takes out have
one outline and one text, the calls are those of the tables for their nodes, and the variables are
the identifiers that are no constants. -/
theorem ofTree_erase (h : ofTree g tree = .ok t) :
    t.outline = (tree.erase g).outline ∧
    List.Forall₂ (fun n u => u.callable? = g.callableFor? n.kind n.name)
      (tree.erase g).nodes t.nodes ∧
    (∀ name, name ∈ t.variableNames ↔ name ∈ tree.identifiers ∧ g.constants.get? name = none) ∧
    t.text = (tree.erase g).text := by
  obtain ⟨-, bound⟩ := ofTree_eq_ok.mp h
  have outlines := outline_of_bind bound
  refine ⟨outlines, callables_of_bind bound, fun _ => mem_variableNames_of_bind bound, ?_⟩
  rw [← text_outline, outlines, TokenTree.text_outline]

/-- A root over a plain group, with an enclosure of a list, one of a single value, a function and a
constant. -/
theorem ofTree_erase_sample :
    let tree : TokenTree := .top (.node "(" .opening [.node "+" .multary [
      .node "|" .opening [.node "-" .preUnary [.leaf "x" .identifier]],
      .node "[" .opening [.node "," .multary [.leaf "pi" .identifier, .leaf "y" .identifier]],
      .node "sin" .function [.node "(" .opening [.node "!" .postUnary [.leaf "2" .number]]]]])
    ∃ t, ofTree Grammar.real tree = .ok t ∧ t.text = "+[|[-[x]], [[pi, y], sin[![2]]]" ∧
      t.outline = (tree.erase Grammar.real).outline ∧
      List.Forall₂ (fun n u => u.callable? = Grammar.real.callableFor? n.kind n.name)
        (tree.erase Grammar.real).nodes t.nodes ∧
      ∀ name, name ∈ t.variableNames ↔ name = "x" ∨ name = "y" := by
  intro tree
  have depth : tree.depth ≤ (Grammar.real.maxDepth + 1).toNat := by decide +kernel
  obtain ⟨t, ht⟩ : ∃ t, ofTree Grammar.real tree = .ok t := ⟨_, ofTree_eq_ok.mpr ⟨depth, rfl⟩⟩
  obtain ⟨outlines, callables, names, texts⟩ := ofTree_erase ht
  refine ⟨t, ht, texts.trans (by decide +kernel), outlines, callables, fun name => ?_⟩
  rw [names]
  have identifiers : tree.identifiers = ["x", "pi", "y"] := by decide +kernel
  have pi : Grammar.real.constants.get? "pi" ≠ none := by decide +kernel
  have x : Grammar.real.constants.get? "x" = none := by decide +kernel
  have y : Grammar.real.constants.get? "y" = none := by decide +kernel
  rw [identifiers]
  grind

end Term

end OperatorGrammar
