import MiniJava.IR.Instr

/-!
# Fragments

A piece of intermediate code with labels, counted from its own start.  Fragments are joined with
`++`, which moves the labels of the second one.
-/

set_option autoImplicit false

namespace MiniJava

open IR

/-- Instructions with labels. -/
structure Fragment where
  code : List Instr := []
  labels : List (Text × Nat) := []
deriving DecidableEq, Repr, Inhabited

namespace Fragment

/-- The fragment without instructions. -/
def empty : Fragment := {}

/-- A fragment of instructions. -/
def instrs (xs : List Instr) : Fragment := { code := xs }

/-- A fragment of one instruction. -/
def instr (x : Instr) : Fragment := instrs [x]

/-- A label by itself. -/
def label (name : Text) : Fragment := { labels := [(name, 0)] }

/-- One fragment after another. -/
def append (s t : Fragment) : Fragment :=
  { code := s.code ++ t.code
    labels := s.labels ++ t.labels.map fun (name, i) ↦ (name, s.code.length + i) }

instance : Append Fragment := ⟨append⟩

@[simp] theorem code_append (s t : Fragment) : (s ++ t).code = s.code ++ t.code := rfl

@[simp] theorem labels_append (s t : Fragment) :
    (s ++ t).labels = s.labels ++ t.labels.map fun (name, i) ↦ (name, s.code.length + i) := rfl

@[simp] theorem empty_append (s : Fragment) : empty ++ s = s := by
  show append empty s = s
  simp [append, empty]

@[simp] theorem append_empty (s : Fragment) : s ++ empty = s := by
  show append s empty = s
  simp [append, empty]

theorem append_assoc (s t u : Fragment) : s ++ t ++ u = s ++ (t ++ u) := by
  show append (append s t) u = append s (append t u)
  simp [append, Nat.add_assoc]

/-- Control cannot run off the end: the last instruction is a return, and no label stands after
it. -/
def endsWithReturn (s : Fragment) : Bool :=
  s.labels.all (fun l ↦ l.2 != s.code.length) &&
    match s.code.getLast? with
    | some x => x.isReturn
    | none => false

end Fragment

end MiniJava
