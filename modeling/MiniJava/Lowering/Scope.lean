import MiniJava.IR.Method
import MiniJava.Lowering.Fragment
import MiniJava.Lowering.Fresh
import MiniJava.Symbols

/-!
# Scopes

What a method body is lowered in: the symbol table, the signature of the method, the variables
declared so far and the fresh names.

A name is looked up among the fields first, then the parameters, then the locals.  In a static
method only static fields are seen.
-/

set_option autoImplicit false

namespace MiniJava

open IR

/-- The declarations that a method body can refer to. -/
structure Scope where
  table : Symbols
  sig : Signature
deriving DecidableEq, Repr, Inhabited

/-- What lowering changes: the fresh names and the variables of the method. -/
structure LowerState where
  fresh : Fresh := {}
  vars : VarTable := .empty
deriving DecidableEq, Repr, Inhabited

/-- Steps of lowering.  What a failed step took of the fresh names stays taken. -/
abbrev LowerM := ExceptT Error (StateM LowerState)

namespace LowerM

/-- Stops with a construct that there is no code for. -/
def unsupported {α : Type} (pos : Position) (what : Unsupported) : LowerM α :=
  throw (.unsupported what (some pos))

/-- Adds a place to the error of a step. -/
def within {α : Type} (place : String) (step : LowerM α) : LowerM α :=
  ExceptT.mk do return withinPlace place (← step.run)

/-- The next label of each of two stems. -/
def labelPair (first second : Text) : LowerM (Text × Text) := do
  let s ← get
  set { s with fresh := { s.fresh with labels := s.fresh.labels + 1 } }
  return (Fresh.labelName first s.fresh.labels, Fresh.labelName second s.fresh.labels)

/-- The next label of each of three stems. -/
def labelTriple (first second third : Text) : LowerM (Text × Text × Text) := do
  let s ← get
  set { s with fresh := { s.fresh with labels := s.fresh.labels + 1 } }
  return (Fresh.labelName first s.fresh.labels, Fresh.labelName second s.fresh.labels,
    Fresh.labelName third s.fresh.labels)

/-- Declares a variable. -/
def declare (v : Variable) : LowerM Unit := do
  let s ← get
  let vars ← s.vars.add v
  set { s with vars }

/-- The least number from `n` on whose temporary is no variable yet.  Among `fuel + 1` numbers there
is one if there are at most `fuel` variables. -/
def freeTemp (vars : VarTable) : Nat → Nat → Nat
  | 0, n => n
  | fuel + 1, n => if vars.contains (Fresh.tempName n) then freeTemp vars fuel (n + 1) else n

/-- Declares a temporary of a type and gives its name. -/
def tempName (ty : Ty) : LowerM Text := do
  let s ← get
  let n := freeTemp s.vars s.vars.vars.length s.fresh.temps
  set { s with fresh := { s.fresh with temps := n + 1 } }
  declare { name := Fresh.tempName n, ty, kind := .temp }
  return Fresh.tempName n

/-- Declares a temporary of a type. -/
def temp (ty : Ty) : LowerM Operand := do return .var (← tempName ty) ty

end LowerM

/-- What a name refers to. -/
inductive Referent where
  | field (symbol : Symbol)
  | var (symbol : Symbol)
deriving DecidableEq, Repr, Inhabited

namespace Scope

/-- What a name refers to. -/
def lookup (t : Scope) (name : Text) : Option Referent :=
  let field := t.table.field? name
  match field.filter fun f ↦ f.isStatic || !t.sig.isStatic with
  | some f => some (.field f)
  | none => ((t.sig.param? name).or (t.sig.local? name)).map .var

/-- The receiver; a static method has none. -/
def this (t : Scope) (pos : Position) : LowerM Operand :=
  if t.sig.isStatic then LowerM.unsupported pos (.thisInStatic t.sig.name)
  else return .var Method.receiver (.receiver t.table.cls)

/-- The object that a field is reached through; a static field needs none. -/
def fieldObject (t : Scope) (pos : Position) (field : Symbol) : LowerM Operand :=
  if field.isStatic then return .missing else t.this pos

/-- The type of a class of a name, or of another name without suffix. -/
def typeNamed (t : Scope) (name : Text) : Ty := t.table.type { name }

end Scope

end MiniJava
