import MiniJava.IR.ClassDef
import MiniJava.Lowering.Stmt

/-!
# Lowering a class

The class of a program in intermediate code: a constructor that calls that of the superclass, and
then the methods in order.  What is declared comes from the symbol table, and the bodies from the
program.
-/

set_option autoImplicit false

namespace MiniJava

open IR

namespace Lowering

/-- The receiver of an instance method as a variable. -/
def receiverVar (t : Symbols) : Variable :=
  { name := Method.receiver, ty := .receiver t.cls, kind := .this }

/-- The constructor. -/
def constructor (t : Symbols) : Method :=
  { name := "<init>", isPublic := true, isConstructor := true, ret := .void
    code := [
      .call { kind := .special, caller := .var Method.receiver (.receiver t.cls),
              method := "<init>", ret := .void },
      .ret .missing .void]
    vars := VarTable.empty.push (receiverVar t) rfl }

/-- Declares the locals whose names are not taken. -/
def declareLocals : List Symbol → LowerM Unit
  | [] => return
  | l :: rest => do
    unless (← get).vars.contains l.name do
      LowerM.declare { name := l.name, ty := l.ty, kind := .declared }
    declareLocals rest

/-- Declares the variables of a method. -/
def declareVars (t : Scope) : LowerM Unit := do
  modify fun s ↦ { s with vars := .empty }
  unless t.sig.isStatic do LowerM.declare (receiverVar t.table)
  t.sig.params.forM fun p ↦
    LowerM.within "param" (LowerM.declare { name := p.name, ty := p.ty, kind := .param })
  declareLocals t.sig.locals

/-- A body that returns at its end, if the method has no result. -/
def close (ret : Ty) (s : Fragment) : Fragment :=
  if ret.isVoid && !s.endsWithReturn then s ++ .instr (.ret .missing .void) else s

/-- Lowers a method. -/
def method (t : Symbols) (d : MethodDecl) : LowerM Method := do
  match t.method? d.name with
  | none => throw (.defect (.unknownMethod d.name))
  | some sig =>
    let scope : Scope := { table := t, sig }
    declareVars scope
    let body ← lowerStmts scope d.body
    let body := close sig.ret body
    let labels ← Labels.ofList (body.labels.map fun (name, i) ↦ (name, (i : Int)))
    return { name := d.name, isPublic := sig.isPublic, isStatic := sig.isStatic
             params := sig.params.map fun p ↦ { name := p.name, ty := p.ty }
             varargs := sig.varargs, ret := sig.ret, code := body.code, labels
             vars := (← get).vars }

/-- The class that a symbol table declares, without methods. -/
def header (t : Symbols) : ClassDef :=
  { name := t.cls, super := t.super
    imports := t.imports.map fun i ↦
      { name := i.name, path := i.internal, isInterface := i.isInterface }
    fields := t.fields.map fun f ↦
      { name := f.name, ty := f.ty, access := if f.isPublic then .pub else .package
        isStatic := f.isStatic, isFinal := f.isFinal } }

/-- Lowers the class of a program. -/
def cls (t : Symbols) (p : Program) : LowerM ClassDef := do
  let methods ← p.cls.methods.mapM fun d ↦ LowerM.within s!"method {d.name}" (method t d)
  return { header t with methods := constructor t :: methods }

end Lowering

/-- The class of a program in intermediate code, and the fresh names that are left. -/
def lowerProgram (t : Symbols) (p : Option Program) (fresh : Fresh) :
    Except Error ClassDef × Fresh :=
  match p with
  | none => (.error { cause := .noClass }, fresh)
  | some p =>
    let (result, state) := (Lowering.cls t p).run { fresh }
    (result, state.fresh)

end MiniJava
