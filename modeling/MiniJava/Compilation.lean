import MiniJava.Allocation
import MiniJava.Jvm.Assembly
import MiniJava.Lowering.Class
import MiniJava.Source.Reading

/-!
# Compilation

The whole way from a program to assembly: its symbol table, its intermediate code, the slots of its
variables, its assembly.  The intermediate code is checked on the way.
-/

set_option autoImplicit false

namespace MiniJava

/-- What a class is compiled to. -/
structure CompiledUnit where
  name : Text
  /-- The intermediate code before slots are chosen. -/
  code : IR.ClassDef
  /-- The intermediate code with slots. -/
  allocated : IR.ClassDef
  assembly : Text
deriving Repr, Inhabited

namespace CompiledUnit

/-- Compiles a program with its symbol table. -/
def ofProgram (s : Strategy) (t : Symbols) (p : Program) : Except Error CompiledUnit := do
  let code ← withinPlace "front" (lowerProgram t (some p) {}).1
  code.methods.forM fun m ↦ withinPlace "check ir" m.check
  let allocated ← withinPlace "regalloc" (Allocation.cls s code)
  let assembly ← withinPlace "back" (Jvm.assemble allocated)
  return { name := t.cls, code, allocated, assembly }

/-- Compiles programs in order, the first of which has the number `n`. -/
def ofPrograms (s : Strategy) : Nat → List Program → Except Error (List CompiledUnit)
  | _, [] => .ok []
  | n, p :: rest => do
    let t ← withinPlace s!"unit {n}: symbol table" (Symbols.build p)
    let u ← withinPlace s!"unit {n}: {t.cls}" (ofProgram s t p)
    return u :: (← ofPrograms s (n + 1) rest)

end CompiledUnit

/-- Compiles independent programs. -/
def compileAll (s : Strategy) (ps : List Program) : Except Error (List CompiledUnit) :=
  CompiledUnit.ofPrograms s 0 ps

/-- A text, filled up with spaces to a width. -/
def padRight (width : Nat) (t : Text) : Text := t ++ Text.replicate (width - t.length) ' '

/-- The variables of a method with their slots, as the command line shows them. -/
def registerLines (m : IR.Method) : Text :=
  "\n" ++ m.name ++ " registers:\n" ++ Text.join (m.vars.vars.map fun v ↦
    "\t" ++ padRight 10 v.name ++ " " ++ padRight 6 v.kind.text ++ " " ++ toString v.reg ++ "\n")

end MiniJava
