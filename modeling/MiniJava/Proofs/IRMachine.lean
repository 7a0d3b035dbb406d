import MiniJava.IR.Method
import MiniJava.Literal
import MiniJava.Proofs.Execution

/-!
# Running the intermediate code

The meaning of a method in intermediate code: a machine with a program counter and a value for every
variable.  Arithmetic is that of 32 bits; what an instruction wants of objects and arrays is an
`Operation` that the environment is asked for, with the values it is applied to.

An operation says what the instruction says and no more: the types and names it is written with.  How
much of that the environment sees is up to `ask`, so the same machine can be compared with the source,
which knows less, and with the stack machine, which names things otherwise.
-/

set_option autoImplicit false

namespace MiniJava

/-- Where control goes after an instruction. -/
inductive Control where
  | next
  | jump (label : Text)
deriving DecidableEq, Repr, Inhabited

namespace IR

/-- An operation on objects or arrays, as an instruction states it. -/
inductive Operation where
  | newObject (cls : Text)
  | newArray (ty : Ty)
  | arrayLength
  | invoke (kind : CallKind) (caller : Ty) (cls method : Text) (params : List Ty) (ret : Ty)
  | arrayLoad (elem : Ty)
  | arrayStore (elem : Ty)
  | getStatic (field : Text) (ty : Ty)
  | getField (object : Ty) (field : Text) (ty : Ty)
  | putStatic (field : FieldRef)
  | putField (object : Ty) (field : FieldRef)
deriving DecidableEq, Repr, Inhabited

/-! ## Operators -/

namespace Op

/-- The relation that a comparison of integers decides. -/
def relation? : Op → Option (BitVec 32 → BitVec 32 → Bool)
  | lt => some fun a b ↦ a.slt b
  | le => some fun a b ↦ a.sle b
  | gt => some fun a b ↦ b.slt a
  | ge => some fun a b ↦ b.sle a
  | eq => some fun a b ↦ a == b
  | ne => some fun a b ↦ a != b
  | _ => none

variable {K : Type}

/-- The result of a binary operator.  Division goes toward zero and throws on zero; references can
be compared for equality only. -/
def apply (op : Op) (a b : Word) : Act K Word :=
  match op, a, b with
  | add, .int x, .int y => return .int (x + y)
  | sub, .int x, .int y => return .int (x - y)
  | mul, .int x, .int y => return .int (x * y)
  | div, .int x, .int y => if y = 0 then throw .thrown else return .int (x.sdiv y)
  | and, a, b =>
    match a.bool?, b.bool? with
    | some p, some q => return .ofBool (p && q)
    | _, _ => throw .stuck
  | or, a, b =>
    match a.bool?, b.bool? with
    | some p, some q => return .ofBool (p || q)
    | _, _ => throw .stuck
  | eq, .ref x, .ref y => return .ofBool (x == y)
  | ne, .ref x, .ref y => return .ofBool (x != y)
  | op, .int x, .int y =>
    match op.relation? with
    | some holds => return .ofBool (holds x y)
    | none => throw .stuck
  | _, _, _ => throw .stuck

/-- The result of a unary operator. -/
def applyUnary (op : Op) (a : Word) : Act K Word :=
  match op, a with
  | neg, .int x => return .int (-x)
  | not, a =>
    match a.bool? with
    | some p => return .ofBool !p
    | none => throw .stuck
  | _, _ => throw .stuck

theorem apply_compare {op : Op} {holds : BitVec 32 → BitVec 32 → Bool} (h : op.relation? = some holds)
    (x y : BitVec 32) :
    op.apply (.int x) (.int y) = (return .ofBool (holds x y) : Act K Word) := by
  cases op <;> simp_all [apply, relation?]

end Op

/-! ## Instructions -/

section
variable {K : Type} (ask : Operation → List Word → Act K Word) (store : Text → Word)

/-- The value of an operand. -/
def Operand.eval : Operand → Act K Word
  | .missing => throw .stuck
  | .literal text _ =>
    match Literal.value text with
    | .ok v => return .int (BitVec.ofInt 32 v)
    | .error _ => throw .stuck
  | .var name _ => return store name
  | .elem base index ty => do
    let i ← index.eval
    ask (.arrayLoad ty) [store base, i]

/-- The operands of a call, in the order they are evaluated. -/
def Call.operands? (x : Call) : Option (List Operand) :=
  match x.kind with
  | .newObject => some []
  | .newArray => if x.args.length = 1 then some x.args else none
  | .arrayLength => some [x.caller]
  | .static => some x.args
  | .special | .virtual | .interface => some (x.caller :: x.args)
  | .unknown _ => none

theorem Call.operands?_sublist (x : Call) : (x.operands?.getD []).Sublist (x.caller :: x.args) := by
  rw [operands?]
  cases x.kind with
  | newObject | unknown _ => exact List.nil_sublist _
  | newArray =>
    dsimp only
    split
    · exact List.sublist_cons_self _ _
    · exact List.nil_sublist _
  | arrayLength => exact (List.nil_sublist _).cons_cons _
  | static => exact List.sublist_cons_self _ _
  | special | virtual | interface => exact List.Sublist.refl _

/-- What a call asks for. -/
def Call.operation (x : Call) : Operation :=
  match x.kind with
  | .newObject => .newObject x.cls
  | .newArray => .newArray x.ret
  | .arrayLength => .arrayLength
  | kind => .invoke kind x.caller.ty x.cls x.method (x.args.map Operand.ty) x.ret

/-- The result of a call. -/
def Call.eval (x : Call) : Act K Word :=
  match x.operands? with
  | some operands => do
    let vs ← operands.mapM (Operand.eval ask store)
    ask x.operation vs
  | none => throw .stuck

/-- The value that an instruction computes. -/
def Instr.eval : Instr → Act K Word
  | .single x => x.eval ask store
  | .binary op l r _ => do
    let a ← l.eval ask store
    let b ← r.eval ask store
    op.apply a b
  | .unary op x _ => do
    let a ← x.eval ask store
    op.applyUnary a
  | .call x => x.eval ask store
  | .getField .missing field ty => ask (.getStatic field.name ty) []
  | .getField object field ty => do
    let o ← object.eval ask store
    ask (.getField object.ty field.name ty) [o]
  | _ => throw .stuck

/-- What an instruction does: the variables after it, and where control goes. -/
def Instr.exec : Instr → Act K ((Text → Word) × Control)
  | .assign (.var name _) _ rhs => do
    let v ← rhs.eval ask store
    return (Function.update store name v, .next)
  | .assign (.elem base index ty) _ rhs => do
    let i ← index.eval ask store
    let v ← rhs.eval ask store
    let _ ← ask (.arrayStore ty) [store base, i, v]
    return (store, .next)
  | .ret .missing _ => throw (.returned none)
  | .ret x _ => do
    let v ← x.eval ask store
    throw (.returned (some v))
  | .goto label => return (store, .jump label)
  | .branch cond label => do
    let v ← cond.eval ask store
    match v.bool? with
    | some true => return (store, .jump label)
    | some false => return (store, .next)
    | none => throw .stuck
  | .putField .missing field value => do
    let v ← value.eval ask store
    let _ ← ask (.putStatic field) [v]
    return (store, .next)
  | .putField object field value => do
    let o ← object.eval ask store
    let v ← value.eval ask store
    let _ ← ask (.putField object.ty field) [o, v]
    return (store, .next)
  | x => do
    let _ ← x.eval ask store
    return (store, .next)

section
variable {ask store}

theorem Instr.eval_getField {object : Operand} (h : object ≠ .missing) (field : FieldRef) (ty : Ty) :
    (Instr.getField object field ty).eval ask store = (do
      let o ← object.eval ask store
      ask (.getField object.ty field.name ty) [o]) := by
  cases object with
  | missing => exact absurd rfl h
  | literal _ _ | var _ _ | elem _ _ _ => rfl

theorem Instr.exec_ret {x : Operand} (h : x ≠ .missing) (ty : Ty) :
    (Instr.ret x ty).exec ask store = (do
      let v ← x.eval ask store
      throw (.returned (some v))) := by
  cases x with
  | missing => exact absurd rfl h
  | literal _ _ | var _ _ | elem _ _ _ => rfl

theorem Instr.exec_putField {object : Operand} (h : object ≠ .missing) (field : FieldRef)
    (value : Operand) :
    (Instr.putField object field value).exec ask store = (do
      let o ← object.eval ask store
      let v ← value.eval ask store
      let _ ← ask (.putField object.ty field) [o, v]
      return (store, .next)) := by
  cases object with
  | missing => exact absurd rfl h
  | literal _ _ | var _ _ | elem _ _ _ => rfl

end

end

/-! ## Methods -/

/-- Where a run of the intermediate code stands. -/
structure State where
  pc : Nat
  store : Text → Word

/-- Goes on after an instruction, with the next one or with the one that the label of a jump stands
before. -/
def Method.goOn {K : Type} (m : Method) (next : Nat) (r : (Text → Word) × Control) : Act K State :=
  match r.2 with
  | .next => return ⟨next, r.1⟩
  | .jump label =>
    match m.target? label with
    | some (.ofNat j) => return ⟨j, r.1⟩
    | _ => throw .stuck

/-- The machine of a method. -/
def Method.machine {K : Type} (m : Method) (ask : Operation → List Word → Act K Word) :
    Machine K State := fun s ↦
  match m.code[s.pc]? with
  | none => throw .exhausted
  | some x => x.exec ask s.store >>= m.goOn (s.pc + 1)

theorem Method.machine_of_code {K : Type} {m : Method} {ask : Operation → List Word → Act K Word}
    {i : Nat} {x : Instr} (hx : m.code[i]? = some x) (store : Text → Word) :
    m.machine ask ⟨i, store⟩ = x.exec ask store >>= m.goOn (i + 1) := by
  simp only [machine, hx]

end IR

end MiniJava
