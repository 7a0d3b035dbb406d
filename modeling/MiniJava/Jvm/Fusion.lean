import MiniJava.IR.Method
import MiniJava.Literal

/-!
# Temporaries that stay on the stack

A temporary that is written once and read once, as the very first operand of the next instruction,
need not go to its slot: its value is already on the stack when it is wanted.  `stackTemp?` finds
the instructions of which the result can be left there.
-/

set_option autoImplicit false

namespace MiniJava.Jvm

open IR

/-- A literal that denotes zero. -/
def isZero : Operand → Bool
  | .literal text _ =>
    match Literal.value text with
    | .ok v => v == 0
    | .error _ => false
  | _ => false

/-- The operand that an instruction loads before anything else, `missing` if that is not one operand
alone.  A comparison of zero with something loads only that. -/
def firstOperand : IR.Instr → Operand
  | .assign (.var _ _) _ value => firstOperand value
  | .single (.elem _ _ _) => .missing
  | .single x => x
  | .binary op l r _ => if op.isCompare && !isZero r && isZero l then r else l
  | .unary _ x _ => x
  | .call c =>
    match c.kind with
    | .newObject => .missing
    | .newArray | .static => c.args.headD .missing
    | _ => c.caller
  | .ret x _ => x
  | .branch cond _ => firstOperand cond
  | .putField .missing _ value => value
  | .putField object _ _ => object
  | .getField object _ _ => object
  | .assign _ _ _ | .goto _ | .missing => .missing

/-- How often the code of a method reads a variable. -/
def useCount (m : Method) (name : Text) : Nat := (m.code.flatMap IR.Instr.uses).count name

/-- How often the code of a method writes a variable. -/
def defCount (m : Method) (name : Text) : Nat := (m.code.filterMap IR.Instr.defs?).count name

/-- The variable is a temporary of the method. -/
def isTemp (m : Method) (name : Text) : Bool :=
  match m.vars.get? name with
  | some v => v.kind = .temp
  | none => false

/-- The temporary that the instruction at `i` can leave on the stack: it is written only there and
read only by the next instruction, before anything else, and no label stands between. -/
def stackTemp? (m : Method) (i : Nat) : Option Text :=
  match m.code[i]?, m.code[i + 1]? with
  | some (.assign (.var name _) _ _), some next =>
    match firstOperand next with
    | .var first _ =>
      if (m.labels.namesAt (i + 1)).isEmpty && isTemp m name && useCount m name == 1 &&
          defCount m name == 1 && first == name
      then some name else none
    | _ => none
  | _, _ => none

end MiniJava.Jvm
