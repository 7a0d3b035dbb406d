import MiniJava.Text.Basic

/-!
# Fresh names

The numbers of the temporaries and of the labels of a compilation.  They only grow, so a name is
given once; labels that belong together share a number.
-/

set_option autoImplicit false

namespace MiniJava

/-- The numbers of the next temporary and of the next labels. -/
structure Fresh where
  temps : Nat := 0
  labels : Nat := 0
deriving DecidableEq, Repr, Inhabited

namespace Fresh

/-- The name of the temporary of a number. -/
def tempName (n : Nat) : Text := "tmp" ++ toString n

/-- The name of the label of a stem and a number. -/
def labelName (stem : Text) (n : Nat) : Text := stem ++ "_" ++ toString n

/-- The next temporary. -/
def temp (f : Fresh) : Text × Fresh := (tempName f.temps, { f with temps := f.temps + 1 })

/-- The next label of a stem. -/
def label (f : Fresh) (stem : Text) : Text × Fresh :=
  (labelName stem f.labels, { f with labels := f.labels + 1 })

/-- The next labels of some stems, of one number. -/
def family (f : Fresh) (stems : List Text) : List Text × Fresh :=
  (stems.map fun stem ↦ labelName stem f.labels, { f with labels := f.labels + 1 })

end Fresh

end MiniJava
