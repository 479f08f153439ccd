/-! # Bracketed text of trees

Both kinds of tree are written alike: the name of a node, and behind it its children in brackets
if it has any. -/

namespace OperatorGrammar

/-- A name with the texts of its children. -/
def bracketed (name : String) (children : List String) : String :=
  if children.isEmpty then name else name ++ "[" ++ ", ".intercalate children ++ "]"

end OperatorGrammar
