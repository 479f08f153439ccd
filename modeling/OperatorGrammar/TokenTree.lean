import OperatorGrammar.Text.Bracketed
import OperatorGrammar.Token

/-! # Token trees

A token tree is an expression with its structure but without meaning: an operator stands over its
operands, an opening delimiter over its content, a function over its arguments, and the root over
the whole. -/

namespace OperatorGrammar

/-- A node with the text and the role of its token. -/
inductive TokenTree where
  | node (name : String) (kind : TokenKind) (children : List TokenTree)
deriving Inhabited

namespace TokenTree

/-- The name of every root. -/
def topName : String := "TOP"

def name : TokenTree → String
  | .node name _ _ => name

def kind : TokenTree → TokenKind
  | .node _ kind _ => kind

def children : TokenTree → List TokenTree
  | .node _ _ children => children

def leaf (name : String) (kind : TokenKind) : TokenTree := .node name kind []

def isLeaf (t : TokenTree) : Bool := t.children.isEmpty

/-- The root over an expression. -/
def top (expression : TokenTree) : TokenTree := .node topName .top [expression]

mutual

def text : TokenTree → String
  | .node name _ children => bracketed name (texts children)

def texts : List TokenTree → List String
  | [] => []
  | t :: ts => text t :: texts ts

end

theorem texts_eq_map (ts : List TokenTree) : texts ts = ts.map text := by
  induction ts with
  | nil => rfl
  | cons t ts ih => simp [texts, ih]

mutual

def size : TokenTree → Nat
  | .node _ _ children => 1 + sizes children

def sizes : List TokenTree → Nat
  | [] => 0
  | t :: ts => size t + sizes ts

end

/-- Some trees, all of whose roots are at one level. -/
def atLevel (level : Nat) (ts : List TokenTree) : List (TokenTree × Nat) := ts.map (·, level)

theorem map_fst_atLevel (level : Nat) (ts : List TokenTree) :
    (atLevel level ts).map Prod.fst = ts := by
  rw [atLevel, List.map_map]
  exact List.map_id ts

theorem sizes_append (ts us : List TokenTree) : sizes (ts ++ us) = sizes ts + sizes us := by
  induction ts with
  | nil => simp [sizes]
  | cons t ts ih => simp [sizes, ih, Nat.add_assoc]

/-- The deepest level that is reached from nodes at known levels.  The nodes that are left stand in
a list, so that the depth of the tree costs no stack. -/
def deepest (best : Nat) : List (TokenTree × Nat) → Nat
  | [] => best
  | (.node _ _ children, level) :: rest =>
    deepest (max best level) (atLevel (level + 1) children ++ rest)
termination_by work => sizes (work.map Prod.fst)
decreasing_by
  rw [List.map_append, sizes_append, map_fst_atLevel]
  simp only [List.map_cons, sizes, size]
  omega

/-- The number of nodes on the longest way from the root to a leaf. -/
def depth (t : TokenTree) : Nat := deepest 0 [(t, 1)]

mutual

/-- Equality of trees in names, roles and structure. -/
def beq : TokenTree → TokenTree → Bool
  | .node name kind children, .node name' kind' children' =>
    name == name' && kind == kind' && beqList children children'

def beqList : List TokenTree → List TokenTree → Bool
  | [], [] => true
  | t :: ts, u :: us => beq t u && beqList ts us
  | _, _ => false

end

instance : BEq TokenTree := ⟨beq⟩

end TokenTree

end OperatorGrammar
