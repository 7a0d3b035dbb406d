import MiniJava.Error

/-!
# Variables

The variables of a method in the order they were declared, each with its kind, its type and the slot
it lives in.  A table never holds two variables of one name; that is part of its type.
-/

set_option autoImplicit false

namespace MiniJava.IR

/-- Where a variable comes from: the receiver, a parameter, a declared local, a temporary of the
compiler.  `unknown` is a kind that does not exist. -/
inductive VarKind where
  | this | param | declared | temp | unknown
deriving DecidableEq, Repr, Inhabited

/-- The kind of a variable as listings write it. -/
def VarKind.text : VarKind → String
  | this => "this"
  | param => "param"
  | declared => "local"
  | temp => "temp"
  | unknown => "var?"

/-- A variable.  A negative register means that it has none. -/
structure Variable where
  name : Text
  ty : Ty
  kind : VarKind
  reg : Int := -1
deriving DecidableEq, Repr, Inhabited

/-- The variables of a method, in order of declaration. -/
structure VarTable where
  vars : List Variable
  nodup : (vars.map Variable.name).Nodup
deriving DecidableEq, Repr

namespace VarTable

/-- The table without variables. -/
def empty : VarTable := ⟨[], List.nodup_nil⟩

instance : Inhabited VarTable := ⟨empty⟩

/-- The variable of a name. -/
def get? (t : VarTable) (name : Text) : Option Variable := t.vars.find? (·.name == name)

/-- Whether there is a variable of a name. -/
def contains (t : VarTable) (name : Text) : Bool := t.vars.any (·.name == name)

theorem contains_iff {t : VarTable} {name : Text} :
    t.contains name = true ↔ name ∈ t.vars.map Variable.name := by
  simp [contains, List.mem_map]

/-- The table with one more variable, whose name is new. -/
def push (t : VarTable) (v : Variable) (h : t.contains v.name = false) : VarTable :=
  ⟨t.vars ++ [v], by
    rw [List.map_append, List.nodup_append]
    refine ⟨t.nodup, by simp, ?_⟩
    intro a ha b hb hab
    simp only [List.map_cons, List.map_nil, List.mem_singleton] at hb
    subst hab hb
    rw [← Bool.not_eq_true] at h
    exact h (contains_iff.mpr ha)⟩

/-- The table with one more variable, unless its name is taken. -/
def add (t : VarTable) (v : Variable) : Except Error VarTable :=
  if h : t.contains v.name = false then .ok (t.push v h) else .error (.defect (.redeclared v.name))

/-- The table with the register of every variable changed, by name. -/
def mapReg (t : VarTable) (f : Variable → Int) : VarTable :=
  ⟨t.vars.map fun v ↦ { v with reg := f v }, by
    have : (t.vars.map fun v ↦ { v with reg := f v }).map Variable.name =
        t.vars.map Variable.name := by simp
    rw [this]
    exact t.nodup⟩

/-- The table with the register of one variable changed. -/
def setReg (t : VarTable) (name : Text) (reg : Int) : VarTable :=
  t.mapReg fun v ↦ if v.name == name then reg else v.reg

/-- The variables of some names, in order; a name that occurs twice is an error. -/
def ofList (vs : List Variable) : Except Error VarTable := vs.foldlM add empty

end VarTable

end MiniJava.IR
