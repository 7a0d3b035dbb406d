import MiniJava.Jvm.Descriptor
import MiniJava.Jvm.Fusion

/-!
# Emitting a method

Each instruction of the intermediate code becomes a few lines for the stack machine.  The emitter
keeps the depth of the operand stack as it goes: a line that would take it below zero, or a label
reached with two different depths, is an error, and so is a value left on the stack after an
instruction.

After a jump or a return nothing falls through, so the depth there is the one recorded by the jumps
to the next label, if there are any.

A temporary that `Fusion` leaves on the stack is neither stored nor loaded.  A variable with no name
is taken for the value on top of the stack too.
-/

set_option autoImplicit false

namespace MiniJava.Jvm

open IR

/-- The state of the emitter. -/
structure Emitter where
  lines : List Line := []
  depth : Nat := 0
  maxDepth : Nat := 0
  /-- Nothing falls through to the next line. -/
  unreachable : Bool := false
  /-- The depths at the labels seen so far. -/
  labelDepths : List (Text × Nat) := []
  /-- The number of slots up to the last one named. -/
  slots : Nat := 0
  /-- The temporary that the next assignment leaves on the stack. -/
  keep : Option Text := none
  /-- The temporary that is on the stack. -/
  onStack : Option Text := none
  /-- The number of the next pair of private labels. -/
  nextLabel : Nat := 0
deriving DecidableEq, Repr, Inhabited

/-- Steps of the emitter. -/
abbrev EmitM := StateT Emitter (Except Error)

namespace EmitM

/-- Adds a place to the error of a step. -/
def within {α : Type} (place : String) (step : EmitM α) : EmitM α :=
  fun e ↦ withinPlace place (step e)

/-- Stops with a construct that cannot be emitted. -/
def unsupported {α : Type} (what : Unsupported) : EmitM α := throw (.unsupported what)

/-- Stops with a broken rule. -/
def defect {α : Type} (what : Defect) : EmitM α := throw (.defect what)

end EmitM

/-- A name, unless it is empty. -/
def named (name : Text) : Option Text := if name = "" then none else some name

variable (c : ClassDef) (m : Method)

/-! ## Lines -/

/-- Emits an instruction and keeps the depth. -/
def emit (i : Instr) : EmitM Unit := do
  let e ← get
  match i.knownEffect? with
  | none => EmitM.defect (.noStackEffect i.mnemonic)
  | some d =>
    let depth : Int := e.depth + d
    if depth < 0 then EmitM.defect (.underflow m.name)
    else set { e with lines := e.lines ++ [Line.instr i], depth := depth.toNat,
                      maxDepth := max e.maxDepth depth.toNat }

/-- Emits a jump to a label and records the depth there. -/
def jump (i : Instr) (label : Text) : EmitM Unit := do
  emit m i
  let e ← get
  match e.labelDepths.lookup label with
  | some depth =>
    if depth ≠ e.depth then EmitM.defect (.depthMismatch m.name label depth e.depth)
  | none => set { e with labelDepths := (label, e.depth) :: e.labelDepths }

/-- Emits a jump that is always taken. -/
def goto (label : Text) : EmitM Unit := do
  jump m (.goto label) label
  modify fun e ↦ { e with unreachable := true }

/-- Emits a label.  The depth there is that of the jumps to it when nothing falls through, and has
to be the same when something does. -/
def placeLabel (label : Text) : EmitM Unit := do
  let e ← get
  let line := e.lines ++ [Line.label label]
  match e.labelDepths.lookup label with
  | some depth =>
    if e.unreachable then set { e with lines := line, depth, unreachable := false }
    else if depth ≠ e.depth then EmitM.defect (.depthMismatch m.name label depth e.depth)
    else set { e with lines := line }
  | none =>
    if e.unreachable then set { e with lines := line, unreachable := false }
    else set { e with lines := line, labelDepths := (label, e.depth) :: e.labelDepths }

/-! ## Variables and operands -/

/-- A variable with its slot. -/
def slotOf (name : Text) : EmitM (Kind × Nat) := do
  match m.vars.get? name with
  | none => EmitM.defect (.undeclared m.name name)
  | some v =>
    if v.reg < 0 then EmitM.defect (.noRegister m.name name)
    else
      modify fun e ↦ { e with slots := max e.slots (v.reg.toNat + 1) }
      return (Kind.ofTy v.ty, v.reg.toNat)

/-- Loads a variable from its slot. -/
def loadVar (name : Text) : EmitM Unit := do
  let (kind, slot) ← slotOf m name
  emit m (.load kind slot)

/-- Stores the value on the stack to the slot of a variable. -/
def storeVar (name : Text) : EmitM Unit := do
  let (kind, slot) ← slotOf m name
  emit m (.store kind slot)

/-- Loads a literal. -/
def loadLiteral (text : Text) (ty : Ty) : EmitM Unit := do
  if ty = .int || ty = .bool then
    let v ← Literal.parse text
    emit m (.push v)
  else EmitM.unsupported (.literalOf ty)

/-- Loads an operand; a temporary on the stack is there already. -/
def load : Operand → EmitM Unit
  | .literal text ty => loadLiteral m text ty
  | .var name _ => do
    let e ← get
    if e.onStack.getD "" = name then set { e with onStack := none }
    else loadVar m name
  | .elem base index ty => do
    loadVar m base
    load index
    emit m (.arrayLoad (.ofTy ty))
  | .missing => EmitM.defect (.missingOperand m.name)

/-- Loads operands in order. -/
def loadAll (ops : List Operand) : EmitM Unit := ops.forM (load m)

/-! ## Conditions -/

/-- Jumps when a comparison holds.  A comparison with zero takes one operand. -/
def branchCompare (op : Op) (cond : Cond) (l r : Operand) (label : Text) : EmitM Unit := do
  if isZero r then
    load m l
    jump m (.ifZero cond label) label
  else if isZero l then
    load m r
    jump m (.ifZero ((Cond.ofOp? op.swap).getD cond) label) label
  else
    load m l
    load m r
    jump m (.ifCompare cond label) label

/-- Two fresh private labels. -/
def freshLabels : EmitM (Text × Text) := do
  let e ← get
  set { e with nextLabel := e.nextLabel + 1 }
  return ((s!"cmp_{e.nextLabel}_true" : String), (s!"cmp_{e.nextLabel}_end" : String))

/-- Pushes the answer of a comparison. -/
def compare (op : Op) (cond : Cond) (l r : Operand) : EmitM Unit := do
  let (onTrue, done) ← freshLabels
  branchCompare m op cond l r onTrue
  emit m (.push 0)
  goto m done
  placeLabel m onTrue
  emit m (.push 1)
  placeLabel m done

/-! ## Calls and fields -/

/-- The class that a call with a receiver is emitted against: a constructor called on the receiver
of the method is that of the superclass. -/
def callClass (x : Call) : EmitM Text := do
  match x.kind, x.caller.ty with
  | .static, _ => return c.resolve x.cls
  | kind, ty =>
    match ty with
    | .receiver _ =>
      if kind = .special && x.method = "<init>" then return c.superName
    | _ => pure ()
    match ty.className? with
    | some name => return c.resolve name
    | none => EmitM.unsupported (.methodOn x.method ty)

/-- Allocates an array of a type. -/
def newArray (ty : Ty) : EmitM Unit :=
  match ty.elem with
  | .int => emit m (.newArray "int")
  | .bool => emit m (.newArray "boolean")
  | .string => emit m (.newRefArray "java/lang/String")
  | .object cls _ => emit m (.newRefArray (c.resolve cls))
  | elem => EmitM.unsupported (.arrayOf elem)

/-- How a kind of call is invoked. -/
def invocation? : CallKind → Option Invocation
  | .static => some .static
  | .special => some .special
  | .virtual => some .virtual
  | .interface => some .interface
  | _ => none

/-- Loads the receiver of a call and its arguments, and invokes. -/
def invoke (x : Call) : EmitM Unit := do
  if x.kind ≠ .static then
    if x.caller = .missing then EmitM.defect (.noReceiver m.name x.kind.text x.method)
    load m x.caller
  loadAll m x.args
  let cls ← callClass c x
  match invocation? x.kind with
  | some how =>
    emit m (.invoke how cls x.method (x.args.map fun a ↦ descriptor c a.ty) (descriptor c x.ret))
  | none => EmitM.unsupported (.callKind x.kind.text)

/-- Emits a call; its result, if it has one, is on the stack afterwards. -/
def call (x : Call) : EmitM Unit :=
  match x.kind with
  | .newObject => emit m (.new (c.resolve x.cls))
  | .newArray =>
    match x.args with
    | [size] => do
      load m size
      newArray c m x.ret
    | args => EmitM.defect (.arraySizes m.name args.length)
  | .arrayLength => do
    load m x.caller
    emit m .arrayLength
  | _ => invoke c m x

/-- A field with its class, as instructions name it. -/
def fieldName (object : Operand) (field : Text) : Text :=
  let cls := match object.ty.className? with
    | some name => c.resolve name
    | none => c.name
  cls ++ "/" ++ field

/-- Pushes the value of a field. -/
def getField (object : Operand) (field : FieldRef) (ty : Ty) : EmitM Unit := do
  let name := fieldName c object field.name
  if object = .missing then emit m (.getStatic name (descriptor c ty))
  else
    load m object
    emit m (.getField name (descriptor c ty))

/-- Stores a value to a field. -/
def putField (object : Operand) (field : FieldRef) (value : Operand) : EmitM Unit := do
  let name := fieldName c object field.name
  if object = .missing then
    load m value
    emit m (.putStatic name (descriptor c field.ty))
  else
    load m object
    load m value
    emit m (.putField name (descriptor c field.ty))

/-! ## Instructions -/

/-- Pushes the value that an instruction computes. -/
def value : IR.Instr → EmitM Unit
  | .single x => load m x
  | .binary op l r _ =>
    match Cond.ofOp? op with
    | some cond => compare m op cond l r
    | none =>
      match Arith.ofOp? op with
      | some arith => do
        load m l
        load m r
        emit m (.arith arith)
      | none => EmitM.unsupported (.binaryCode op.text)
  | .unary op x _ => do
    load m x
    match op with
    | .not =>
      emit m (.push 1)
      emit m (.arith .xor)
    | .neg => emit m .neg
    | _ => EmitM.unsupported (.unaryCode op.text)
  | .call x =>
    if x.ret.isVoid then EmitM.defect (.voidValue m.name x.method) else call c m x
  | .getField object field ty => getField c m object field ty
  | x => EmitM.unsupported (.valueInstruction x.form)

/-- Jumps to a label when a condition holds. -/
def branch (cond : IR.Instr) (label : Text) : EmitM Unit := do
  match cond with
  | .binary op l r _ =>
    match Cond.ofOp? op with
    | some test => branchCompare m op test l r label
    | none =>
      value c m cond
      jump m (.ifZero .ne label) label
  | .unary .not x _ =>
    load m x
    jump m (.ifZero .eq label) label
  | _ =>
    value c m cond
    jump m (.ifZero .ne label) label

/-- Stores the value of an instruction. -/
def assign (dest : Operand) (rhs : IR.Instr) : EmitM Unit :=
  match dest with
  | .var name _ => do
    value c m rhs
    let e ← get
    if e.keep.getD "" = name then set { e with keep := none, onStack := named name }
    else storeVar m name
  | .elem base index ty => do
    loadVar m base
    load m index
    value c m rhs
    emit m (.arrayStore (.ofTy ty))
  | dest => EmitM.defect (.badDestination m.name dest.form)

/-- Emits an instruction. -/
def instr : IR.Instr → EmitM Unit
  | .assign dest _ rhs => assign c m dest rhs
  | .call x => do
    call c m x
    if x.ret.isVoid then pure () else emit m .pop
  | .ret x ty => do
    if x = .missing then emit m .ret
    else
      load m x
      emit m (.retValue (.ofTy ty))
    modify fun e ↦ { e with unreachable := true }
  | .goto label => goto m label
  | .branch cond label => branch c m cond label
  | .putField object field value => putField c m object field value
  | .missing => EmitM.unsupported (.instruction IR.Instr.missing.form)
  | x => do
    value c m x
    emit m .pop

/-- Emits the instruction at `i` with the labels before it, leaving a temporary on the stack where
`keepAt` says so.  Nothing else may be on the stack afterwards. -/
def emitAt (keepAt : Nat → Option Text) (i : Nat) (x : IR.Instr) : EmitM Unit := do
  EmitM.within s!"instr {i}" ((m.labels.namesAt i).forM (placeLabel m))
  let kept := (← get).onStack
  match keepAt i with
  | some name => modify fun e ↦ { e with keep := named name }
  | none => pure ()
  EmitM.within s!"instr {i}" (instr c m x)
  let e ← get
  match kept with
  | some name => if e.onStack = some name then EmitM.defect (.leftOnStack m.name i name)
  | none => pure ()
  let expected := if e.onStack.isSome then 1 else 0
  if e.depth ≠ expected && !e.unreachable then
    EmitM.defect (.stackNotEmpty m.name i e.depth)

/-- The label after the last instruction that something jumps to. -/
def targetPastEnd? : Option Text :=
  (m.labels.namesAt m.code.length).find? fun label ↦
    m.code.any fun x ↦ x.target? = some label

/-- The emitter after the code of a method, leaving temporaries on the stack where `keepAt` says
so. -/
def emitWith (keepAt : Nat → Option Text) : Except Error Emitter := do
  let (_, e) ← (m.code.zipIdx.forM fun (x, i) ↦ emitAt c m keepAt i x).run {}
  match targetPastEnd? m with
  | some label => throw (.defect (.branchPastEnd m.name label))
  | none => return e

/-- The emitter after the code of a method. -/
def emitMethod : Except Error Emitter := emitWith c m (stackTemp? m)

end MiniJava.Jvm
