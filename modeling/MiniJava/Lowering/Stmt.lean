import MiniJava.Lowering.Expr

/-!
# Lowering statements

A statement becomes a fragment.  In a conditional the code for the other case comes first, since it
is what control falls through to, and a case that ends in a return does not jump to the end.  A loop
tests its condition anew on each round.
-/

set_option autoImplicit false

namespace MiniJava

open IR

namespace Lowering

/-- An expression for its effects; the result of a call is not asked for. -/
def effects (t : Scope) (e : Expr) : LowerM Fragment := do
  match e.unparen with
  | .call pos recv name args =>
    let (c, s) ← call t pos (lowerReceiver t recv) name (lowerArgs t args) .void
    return s ++ .instr (.call c)
  | _ =>
    let (_, s) ← operand (e.lower t) .absent
    return s

/-- An assignment to a variable or a field.  A fresh object is made in the variable itself. -/
def assign (t : Scope) (pos : Position) (name : Text) (value : Expr) : LowerM Fragment := do
  match t.lookup name with
  | none => LowerM.unsupported pos (.unresolved name)
  | some (.field f) =>
    let object ← t.fieldObject pos f
    let (x, s) ← operand (value.lower t) f.ty
    return s ++ .instr (.putField object { name, ty := f.ty } x)
  | some (.var v) =>
    match value.unparen with
    | .new _ cls => return construct (.var name v.ty) cls
    | _ =>
      let (x, s) ← instr (value.lower t) v.ty
      return s ++ .instr (.assign (.var name v.ty) v.ty x)

/-- An assignment to an element of an array. -/
def indexAssign (t : Scope) (pos : Position) (name : Text) (index value : Expr) :
    LowerM Fragment := do
  let (a, s) ← array pos (fun _ ↦ ident t pos name)
  let (i, is) ← operand (index.lower t) .int
  let (x, xs) ← instr (value.lower t) a.ty.elem
  return s ++ is ++ xs ++ .instr (.assign (a.get i) a.ty.elem x)

/-- A return, with a value exactly if the method has a result. -/
def ret (t : Scope) (pos : Position) : Option Expr → LowerM Fragment
  | none =>
    if t.sig.ret.isVoid then return .instr (.ret .missing .void)
    else LowerM.unsupported pos (.returnWithoutValue t.sig.ret)
  | some value => do
    if t.sig.ret.isVoid then LowerM.unsupported pos .returnWithValue
    else
      let (x, s) ← operand (value.lower t) t.sig.ret
      return s ++ .instr (.ret x t.sig.ret)

/-- A conditional, from its test and the code of its two cases. -/
def conditional (test : LowerM (Instr × Fragment)) (onTrue onFalse : LowerM Fragment) :
    LowerM Fragment := do
  let (cond, s) ← test
  let (yes, done) ← LowerM.labelPair "then" "end"
  let no ← onFalse
  let body ← onTrue
  let leaves := !no.endsWithReturn
  return s ++ .instr (.branch cond yes) ++ no ++
    (if leaves then .instr (.goto done) else .empty) ++ .label yes ++ body ++
    (if leaves || !body.endsWithReturn then .label done else .empty)

/-- A loop, from its test and the code of its body. -/
def loop (test : LowerM (Instr × Fragment)) (body : LowerM Fragment) : LowerM Fragment := do
  let (again, enter, done) ← LowerM.labelTriple "cond" "body" "end"
  let (cond, s) ← test
  let b ← body
  return .label again ++ s ++ .instrs [.branch cond enter, .goto done] ++ .label enter ++ b ++
    .instr (.goto again) ++ .label done

end Lowering

open Lowering in
mutual

/-- Lowers a statement. -/
def Stmt.lower (t : Scope) : Stmt → LowerM Fragment
  | .block _ stmts => lowerStmts t stmts
  | .cond _ test onTrue onFalse =>
    conditional (test.lowerTest t) (lowerStmt? t onTrue) (lowerStmt? t onFalse)
  | .loop _ test body => loop (test.lowerTest t) (lowerStmt? t body)
  | .expr _ e => effects t e
  | .assign pos name value => assign t pos name value
  | .indexAssign pos name index value => indexAssign t pos name index value
  | .ret pos value => ret t pos value
termination_by structural s => s

/-- Lowers statements one after another. -/
def lowerStmts (t : Scope) : List Stmt → LowerM Fragment
  | [] => return .empty
  | s :: rest => do
    let code ← s.lower t
    let more ← lowerStmts t rest
    return code ++ more
termination_by structural ss => ss

/-- Lowers a statement, if there is one. -/
def lowerStmt? (t : Scope) : Option Stmt → LowerM Fragment
  | none => return .empty
  | some s => s.lower t
termination_by structural s => s

end

end MiniJava
