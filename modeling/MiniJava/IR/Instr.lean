import MiniJava.Ty

/-!
# Instructions of the intermediate code

Each instruction names the variables it works on.  An operand is a literal, a variable or an element
of an array variable; `Operand.missing` is an operand place left empty, as the receiver of a static
call, the object of a static field or the value of a return that has none.  `Instr.missing` is an
instruction place left empty.

A right-hand side and a condition are instructions again.  Only the forms that compute a value
(`call`, `binary`, `unary`, `single`, `getField`) can be emitted there; that the others cannot is
found when code is emitted, so an instruction of any shape can be listed, analysed and allocated.

## What is here

* `Instr.uses` and `Instr.defs?`: the variables an instruction reads, and the one it writes;
* `Instr.ty`: the type of the value it computes;
* the algebra of operators: `Op.swap` for exchanged operands, `Op.negate` for the opposite answer.
-/

set_option autoImplicit false

namespace MiniJava.IR

/-- An operand, or a place left empty. -/
inductive Operand where
  | missing
  | literal (text : Text) (ty : Ty)
  | var (name : Text) (ty : Ty)
  | elem (base : Text) (index : Operand) (ty : Ty)
deriving DecidableEq, Repr, Inhabited

namespace Operand

/-- The type of an operand. -/
def ty : Operand → Ty
  | missing => .absent
  | literal _ t | var _ t | elem _ _ t => t

/-- The variables an operand reads.  Of an index only a variable counts. -/
def uses : Operand → List Text
  | missing | literal _ _ => []
  | var name _ => [name]
  | elem base (var index _) _ => [base, index]
  | elem base _ _ => [base]

@[simp] theorem uses_missing : missing.uses = [] := rfl

@[simp] theorem uses_literal (text : Text) (ty : Ty) : (literal text ty).uses = [] := rfl

@[simp] theorem uses_var (name : Text) (ty : Ty) : (var name ty).uses = [name] := rfl

/-- The form of an operand, as messages name it. -/
def form : Operand → String
  | missing => "<nil>"
  | literal _ _ => "ir.Literal"
  | var _ _ => "ir.Var"
  | elem _ _ _ => "ir.Elem"

end Operand

/-- An operator; `other` is a text that is none. -/
inductive Op where
  | add | sub | mul | div
  | lt | le | gt | ge | eq | ne
  | and | or
  | not | neg
  | other (text : Text)
deriving DecidableEq, Repr, Inhabited

namespace Op

/-- The operator as listings write it. -/
def text : Op → Text
  | add => "+" | sub => "-" | mul => "*" | div => "/"
  | lt => "<" | le => "<=" | gt => ">" | ge => ">=" | eq => "==" | ne => "!="
  | and => "&&" | or => "||"
  | not => "!" | neg => "neg"
  | other text => text

/-- The operators that have a text of their own. -/
def all : List Op := [add, sub, mul, div, lt, le, gt, ge, eq, ne, and, or, not, neg]

/-- The operator that a text writes. -/
def ofText (text : Text) : Op := (all.find? fun op ↦ op.text == text).getD (other text)

/-- The operator compares two values. -/
def isCompare : Op → Bool
  | lt | le | gt | ge | eq | ne => true
  | _ => false

/-- The operator works on booleans. -/
def isLogic : Op → Bool
  | and | or | not => true
  | _ => false

/-- The type of the result. -/
def result : Op → Ty
  | add | sub | mul | div | neg => .int
  | _ => .bool

/-- The comparison that holds of the exchanged operands. -/
def swap : Op → Op
  | lt => gt | gt => lt | le => ge | ge => le
  | op => op

/-- The comparison that holds when this one does not. -/
def negate : Op → Op
  | lt => ge | ge => lt | gt => le | le => gt | eq => ne | ne => eq
  | op => op

@[simp] theorem swap_swap (op : Op) : op.swap.swap = op := by cases op <;> rfl

@[simp] theorem negate_negate (op : Op) : op.negate.negate = op := by cases op <;> rfl

@[simp] theorem isCompare_swap (op : Op) : op.swap.isCompare = op.isCompare := by cases op <;> rfl

end Op

/-- How a call finds its target; `unknown` is the number of a way that does not exist. -/
inductive CallKind where
  | static | special | virtual | interface
  | newObject | newArray | arrayLength
  | unknown (number : Int)
deriving DecidableEq, Repr, Inhabited

/-- The kind of a call as listings write it. -/
def CallKind.text : CallKind → String
  | static => "invokestatic"
  | special => "invokespecial"
  | virtual => "invokevirtual"
  | interface => "invokeinterface"
  | newObject | newArray => "new"
  | arrayLength => "arraylength"
  | unknown _ => "call?"

/-- A call, or an allocation or the length of an array, which take their operands like calls. -/
structure Call where
  kind : CallKind
  caller : Operand := .missing
  cls : Text := ""
  method : Text := ""
  args : List Operand := []
  ret : Ty
deriving DecidableEq, Repr, Inhabited

/-- A field as an instruction names it. -/
structure FieldRef where
  name : Text
  ty : Ty
deriving DecidableEq, Repr, Inhabited

/-- An instruction, or a place left empty. -/
inductive Instr where
  | missing
  | assign (dest : Operand) (ty : Ty) (value : Instr)
  | call (call : Call)
  | binary (op : Op) (left right : Operand) (ty : Ty)
  | unary (op : Op) (arg : Operand) (ty : Ty)
  | single (arg : Operand)
  | ret (value : Operand) (ty : Ty)
  | branch (cond : Instr) (label : Text)
  | goto (label : Text)
  | putField (object : Operand) (field : FieldRef) (value : Operand)
  | getField (object : Operand) (field : FieldRef) (ty : Ty)
deriving DecidableEq, Repr, Inhabited

namespace Instr

/-- The type of the value an instruction computes. -/
def ty : Instr → Ty
  | assign _ t _ | binary _ _ _ t | unary _ _ t | getField _ _ t => t
  | call c => c.ret
  | single arg => arg.ty
  | missing | ret _ _ | branch _ _ | goto _ | putField _ _ _ => .void

/-- The type of the value an instruction computes, if it has the operand that tells it. -/
def ty? : Instr → Option Ty
  | single .missing => none
  | x => some x.ty

/-- The variables an instruction reads, in the order it names them. -/
def uses : Instr → List Text
  | assign dest _ value =>
    match dest with
    | .elem _ _ _ => dest.uses ++ value.uses
    | _ => value.uses
  | call c => c.caller.uses ++ c.args.flatMap Operand.uses
  | binary _ l r _ => l.uses ++ r.uses
  | unary _ x _ | single x | ret x _ => x.uses
  | branch cond _ => cond.uses
  | putField object _ value => object.uses ++ value.uses
  | getField object _ _ => object.uses
  | missing | goto _ => []

/-- The variable an instruction writes. -/
def defs? : Instr → Option Text
  | assign (.var name _) _ _ => some name
  | _ => none

/-- The label an instruction may jump to. -/
def target? : Instr → Option Text
  | branch _ label | goto label => some label
  | _ => none

/-- The form of an instruction, as messages name it. -/
def form : Instr → String
  | missing => "<nil>"
  | assign _ _ _ => "*ir.Assign"
  | call _ => "*ir.Call"
  | binary _ _ _ _ => "*ir.BinaryOp"
  | unary _ _ _ => "*ir.UnaryOp"
  | single _ => "*ir.SingleOp"
  | ret _ _ => "*ir.Return"
  | branch _ _ => "*ir.CondBranch"
  | goto _ => "*ir.Goto"
  | putField _ _ _ => "*ir.PutField"
  | getField _ _ _ => "*ir.GetField"

/-- Whether an instruction is a return. -/
def isReturn : Instr → Bool
  | ret _ _ => true
  | _ => false

end Instr

end MiniJava.IR
