/-!
# Positions in a source text

Lines and columns count from one; a column counts characters.
-/

set_option autoImplicit false

namespace MiniJava

/-- A place in a source text. -/
structure Position where
  line : Nat
  col : Nat
deriving DecidableEq, Repr, Inhabited

/-- The position as messages show it, `line:column`. -/
def Position.text (p : Position) : String := s!"{p.line}:{p.col}"

end MiniJava
