import MiniJava.IR.Instr
import MiniJava.IR.Variable

/-!
# Methods of the intermediate code

A method is a list of instructions with labels: a label names the index of the instruction it stands
before, and an index equal to the number of instructions is the place after the last one.
`Method.check` says whether every variable and label that the code names exists.
-/

set_option autoImplicit false

namespace MiniJava.IR

/-- The labels of a method, each at one index. -/
structure Labels where
  entries : List (Text × Int)
  nodup : (entries.map Prod.fst).Nodup
deriving DecidableEq, Repr

namespace Labels

/-- No labels. -/
def empty : Labels := ⟨[], List.nodup_nil⟩

instance : Inhabited Labels := ⟨empty⟩

/-- The index of a label. -/
def get? (ls : Labels) (label : Text) : Option Int := ls.entries.lookup label

/-- The labels with one more, unless its name is taken. -/
def add (ls : Labels) (label : Text) (index : Int) : Except Error Labels :=
  if h : label ∈ ls.entries.map Prod.fst then .error (.defect (.labelRedefined label))
  else .ok ⟨ls.entries ++ [(label, index)], by
    rw [List.map_append, List.nodup_append]
    refine ⟨ls.nodup, by simp, ?_⟩
    intro a ha b hb hab
    simp only [List.map_cons, List.map_nil, List.mem_singleton] at hb
    subst hab hb
    exact h ha⟩

/-- Labels at their indices; a name that occurs twice is an error. -/
def ofList (ls : List (Text × Int)) : Except Error Labels :=
  ls.foldlM (fun acc l ↦ acc.add l.1 l.2) empty

/-- The labels at an index, in the order of their names. -/
def namesAt (ls : Labels) (index : Int) : List Text :=
  ((ls.entries.filter fun e ↦ e.2 == index).map Prod.fst).mergeSort fun a b ↦ !b.isBefore a

/-- The indices that have a label. -/
def indices (ls : Labels) : List Int := (ls.entries.map Prod.snd).eraseDups

end Labels

/-- A parameter. -/
structure Param where
  name : Text
  ty : Ty
deriving DecidableEq, Repr, Inhabited

/-- A method. -/
structure Method where
  name : Text
  isPublic : Bool := false
  isStatic : Bool := false
  isConstructor : Bool := false
  params : List Param := []
  varargs : Bool := false
  ret : Ty := .void
  code : List Instr := []
  labels : Labels := .empty
  vars : VarTable := .empty
deriving DecidableEq, Repr

instance : Inhabited Method := ⟨{ name := "" }⟩

namespace Method

/-- The name of the receiver. -/
def receiver : Text := "this"

/-- The number of slots taken by the receiver and the parameters. -/
def reserved (m : Method) : Nat := m.params.length + if m.isStatic then 0 else 1

/-- The method with one more instruction. -/
def append (m : Method) (x : Instr) : Method := { m with code := m.code ++ [x] }

/-- The method with a label at the place after its last instruction. -/
def label (m : Method) (name : Text) : Except Error Method := do
  let labels ← m.labels.add name m.code.length
  return { m with labels }

/-- The index of a label. -/
def target? (m : Method) (label : Text) : Option Int := m.labels.get? label

/-- A label that stands before an instruction or after the last one. -/
def hasLabel (m : Method) (label : Text) : Bool :=
  match m.target? label with
  | some j => 0 ≤ j && j ≤ m.code.length
  | none => false

/-- The first rule that the instruction at an index breaks. -/
def checkInstr (m : Method) (i : Nat) (x : Instr) : Except Error Unit := do
  match (x.uses ++ x.defs?.toList).find? fun n ↦ !m.vars.contains n with
  | some name => throw (.defect (.undeclaredAt m.name i name))
  | none => pure ()
  match x.target? with
  | some label =>
    if m.hasLabel label then pure () else throw (.defect (.undefinedLabel m.name i label))
  | none => pure ()

/-- Every variable that the code names is declared, and every label that it jumps to is placed. -/
def check (m : Method) : Except Error Unit :=
  m.code.zipIdx.forM fun (x, i) ↦ m.checkInstr i x

end Method

end MiniJava.IR
