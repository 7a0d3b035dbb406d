import MiniJava.Lowering.Scope

/-!
# Lowering expressions

An expression becomes a fragment that computes it and a `Value`: either an operand, which can stand
anywhere, or an instruction whose result is the value, which can stand on the right of an assignment
without a temporary.  `operand` and `instr` turn one into the other.

Operands, receivers and arguments are lowered from left to right.  The right side of `&&` and `||`
is reached only when it decides the answer.

An expression is lowered with the type that its consumer expects, `Ty.absent` if it expects none.
The expected type decides the elements of an array literal and the result of a method that the
symbol table does not know, and nothing else.
-/

set_option autoImplicit false

namespace MiniJava

open IR

/-- What an expression is lowered to. -/
inductive Value where
  | operand (x : Operand)
  | instr (x : Instr)
deriving DecidableEq, Repr, Inhabited

/-- Lowers an expression for a consumer that expects a type. -/
abbrev Lowering := Ty → LowerM (Value × Fragment)

namespace Lowering

/-- The literal of an integer. -/
def intLiteral (n : Nat) : Operand := .literal (toString n) .int

/-- The literal of a boolean. -/
def boolLiteral (b : Bool) : Operand := .literal (if b then "1" else "0") .bool

/-! ## Consumers -/

/-- An expression as an operand; the result of an instruction goes to a temporary. -/
def operand (lower : Lowering) (want : Ty) : LowerM (Operand × Fragment) := do
  let (v, s) ← lower want
  match v with
  | .operand x => return (x, s)
  | .instr x =>
    let tmp ← LowerM.temp x.ty
    return (tmp, s ++ .instr (.assign tmp x.ty x))

/-- An expression as an instruction that computes it. -/
def instr (lower : Lowering) (want : Ty) : LowerM (Instr × Fragment) := do
  let (v, s) ← lower want
  match v with
  | .operand x => return (.single x, s)
  | .instr x => return (x, s)

/-- Expressions as operands, all for one type. -/
def operands (want : Ty) : List Lowering → LowerM (List Operand × Fragment)
  | [] => return ([], .empty)
  | lower :: rest => do
    let (x, s) ← operand lower want
    let (xs, t) ← operands want rest
    return (x :: xs, s ++ t)

/-- A variable that holds an array of a type. -/
structure ArrayVar where
  name : Text
  ty : Ty
deriving DecidableEq, Repr, Inhabited

namespace ArrayVar

/-- The array itself. -/
def whole (a : ArrayVar) : Operand := .var a.name a.ty

/-- The element at an index. -/
def get (a : ArrayVar) (index : Operand) : Operand := .elem a.name index a.ty.elem

end ArrayVar

/-- An expression as an array variable. -/
def array (pos : Position) (lower : Lowering) : LowerM (ArrayVar × Fragment) := do
  let (x, s) ← operand lower .absent
  match x with
  | .var name ty =>
    if ty.elem = .absent then LowerM.unsupported pos (.notArray ty) else return (⟨name, ty⟩, s)
  | x => LowerM.unsupported pos (.notArray x.ty)

/-- Operands stored one after another into a fresh array of a type. -/
def pack (ty : Ty) (items : List Operand) : LowerM (Operand × Fragment) := do
  let a : ArrayVar := ⟨← LowerM.tempName ty, ty⟩
  return (a.whole, .instr (.assign a.whole ty
      (.call { kind := .newArray, args := [intLiteral items.length], ret := ty })) ++
    .instrs (items.zipIdx.map fun (x, i) ↦
      .assign (a.get (intLiteral i)) ty.elem (.single x)))

/-! ## Forms of expressions -/

/-- A name. -/
def ident (t : Scope) (pos : Position) (name : Text) : LowerM (Value × Fragment) := do
  match t.lookup name with
  | none => LowerM.unsupported pos (.unresolved name)
  | some (.var v) => return (.operand (.var name v.ty), .empty)
  | some (.field f) =>
    let object ← t.fieldObject pos f
    return (.instr (.getField object { name, ty := f.ty } f.ty), .empty)

/-- The operator of a binary expression. -/
def binaryOp? (op : Text) : Option Op :=
  match Op.ofText op with
  | .not | .neg | .other _ => none
  | o => some o

/-- A short-circuit operator. -/
def logic (isAnd : Bool) (left right : Lowering) : LowerM (Value × Fragment) := do
  let (l, ls) ← operand left .bool
  let tmp ← LowerM.temp .bool
  let (onTrue, done) ← LowerM.labelPair "true" "end"
  let set (x : Operand) : Fragment := .instr (.assign tmp .bool (.single x))
  let test := ls ++ .instr (.branch (.single l) onTrue)
  if isAnd then
    let (r, rs) ← operand right .bool
    return (.operand tmp, test ++ set (boolLiteral false) ++ .instr (.goto done) ++
      .label onTrue ++ rs ++ set r ++ .label done)
  else
    let (r, rs) ← operand right .bool
    return (.operand tmp, test ++ rs ++ set r ++ .instr (.goto done) ++
      .label onTrue ++ set (boolLiteral true) ++ .label done)

/-- A binary expression. -/
def binary (pos : Position) (op : Text) (left right : Lowering) : LowerM (Value × Fragment) := do
  match binaryOp? op with
  | none => LowerM.unsupported pos (.binaryOperator op)
  | some .and => logic true left right
  | some .or => logic false left right
  | some o =>
    let (l, ls) ← operand left .int
    let (r, rs) ← operand right .int
    return (.instr (.binary o l r o.result), ls ++ rs)

/-- The operator of a unary expression. -/
def unaryOp? (op : Text) : Option Op :=
  if op = "!" then some .not else if op = "-" then some .neg else none

/-- A unary expression. -/
def unary (pos : Position) (op : Text) (arg : Lowering) : LowerM (Value × Fragment) := do
  match unaryOp? op with
  | none => LowerM.unsupported pos (.unaryOperator op)
  | some o =>
    let (x, s) ← operand arg o.result
    return (.instr (.unary o x o.result), s)

/-- The instructions that make an object in a variable and run its constructor. -/
def construct (dest : Operand) (cls : Text) : Fragment :=
  .instrs [.assign dest dest.ty (.call { kind := .newObject, cls, ret := dest.ty }),
    .call { kind := .special, caller := dest, method := "<init>", ret := .void }]

/-- A fresh object. -/
def newObject (t : Scope) (cls : Text) : LowerM (Value × Fragment) := do
  let tmp ← LowerM.temp (t.typeNamed cls)
  return (.operand tmp, construct tmp cls)

/-- A fresh array. -/
def newArray (t : Scope) (elem : TypeName) (size : Lowering) : LowerM (Value × Fragment) := do
  let (n, s) ← operand size .int
  let ret := Ty.array (t.typeNamed elem.name)
  return (.instr (.call { kind := .newArray, args := [n], ret }), s)

/-- An array literal; its elements are integers unless its consumer expects others. -/
def arrayLiteral (elems : List Lowering) (want : Ty) : LowerM (Value × Fragment) := do
  let elem := if want.elem = .absent then .int else want.elem
  let (items, s) ← operands elem elems
  let (x, p) ← pack (.array elem) items
  return (.operand x, s ++ p)

/-- An element of an array. -/
def element (basePos : Position) (base index : Lowering) : LowerM (Value × Fragment) := do
  let (a, s) ← array basePos base
  let (i, is) ← operand index .int
  return (.instr (.single (a.get i)), s ++ is)

/-- The length of an array. -/
def length (argPos : Position) (arg : Lowering) : LowerM (Value × Fragment) := do
  let (a, s) ← array argPos arg
  return (.instr (.call { kind := .arrayLength, caller := a.whole, ret := .int }), s)

/-! ## Calls -/

/-- What a call is made on: a way, a receiver or a class, and the signature if the method belongs to
the class under compilation. -/
structure Target where
  kind : CallKind
  caller : Operand := .missing
  cls : Text := ""
  sig : Option Signature := none
deriving DecidableEq, Repr, Inhabited

/-- A call of a static method of the class under compilation. -/
def Target.ownStatic (t : Scope) (sig : Signature) : Target :=
  { kind := .static, cls := t.table.cls, sig := some sig }

/-- The target of a call on a class name. -/
def classTarget (t : Scope) (pos : Position) (cls name : Text) : LowerM Target := do
  let sig := if cls = t.table.cls then t.table.method? name else none
  match sig with
  | some s =>
    if s.isStatic then return .ownStatic t s
    else LowerM.unsupported pos (.calledStatically name)
  | none => return { kind := .static, cls }

/-- The target of a call on a value.  A static method takes no receiver. -/
def valueTarget (t : Scope) (pos : Position) (x : Operand) (name : Text) : LowerM Target := do
  let own : Target :=
    match t.table.method? name with
    | some s =>
      if s.isStatic then .ownStatic t s else { kind := .virtual, caller := x, sig := some s }
    | none => { kind := .virtual, caller := x }
  match x.ty with
  | .receiver _ | .object _ true => return own
  | .object cls false =>
    let kind := match t.table.import? cls with
      | some i => if i.isInterface then .interface else .virtual
      | none => .virtual
    return { kind, caller := x }
  | .string => return { kind := .virtual, caller := x }
  | ty => LowerM.unsupported pos (.callOn ty)

/-- A name that is no variable, at its position: the class that a call may be made on. -/
def className? (t : Scope) : Expr → Option (Position × Text)
  | .ident pos name => if (t.lookup name).isSome then none else some (pos, name)
  | _ => none

/-- The target of a call, and the code of its receiver. -/
def target (t : Scope) (pos : Position) (recv : Option (Expr × Lowering)) (name : Text) :
    LowerM (Target × Fragment) := do
  match recv with
  | none =>
    match (t.table.method? name).filter (·.isStatic) with
    | some s => return (.ownStatic t s, .empty)
    | none =>
      let x ← t.this pos
      return (← valueTarget t pos x name, .empty)
  | some (e, lower) =>
    match className? t e.unparen with
    | some (idPos, cls) =>
      if cls ≠ t.table.cls && (t.table.import? cls).isNone then
        LowerM.unsupported idPos (.unresolved cls)
      else return (← classTarget t pos cls name, .empty)
    | none =>
      let (x, s) ← operand lower .absent
      return (← valueTarget t pos x name, s)

/-- Arguments for the parameters in front of them. -/
def fixedArgs : List Lowering → List Symbol → LowerM (List Operand × Fragment)
  | lower :: rest, p :: params => do
    let (x, s) ← operand lower p.ty
    let (xs, t) ← fixedArgs rest params
    return (x :: xs, s ++ t)
  | _, _ => return ([], .empty)

/-- Expressions for one type are arguments of parameters of that type. -/
theorem operands_eq_fixedArgs (want : Ty) (lowers : List Lowering) :
    operands want lowers = fixedArgs lowers (lowers.map fun _ ↦ { name := "", ty := want }) := by
  induction lowers with
  | nil => rfl
  | cons lower lowers ih => rw [operands, ih, List.map_cons, fixedArgs]

/-- Whether an expression is an array literal. -/
def isArrayLiteral (e : Expr) : Bool := e.unparen matches .array _ _

/-- The arguments of a variadic parameter: packed into an array, but for a single one that is such
an array itself. -/
def variadicArgs (ty : Ty) : List (Expr × Lowering) → LowerM (Operand × Fragment)
  | [(e, lower)] => do
    let (x, s) ← operand lower (if isArrayLiteral e then ty else .absent)
    if x.ty = ty then return (x, s)
    let (y, p) ← pack ty [x]
    return (y, s ++ p)
  | args => do
    let (xs, s) ← operands ty.elem (args.map Prod.snd)
    let (y, p) ← pack ty xs
    return (y, s ++ p)

/-- The arguments of a call of a method with a signature. -/
def argsFor (pos : Position) (sig : Signature) (args : List (Expr × Lowering)) :
    LowerM (List Operand × Fragment) := do
  let miscount : LowerM (List Operand × Fragment) :=
    LowerM.unsupported pos (.argumentCount sig.name args.length sig.params.length)
  if !sig.varargs then
    if args.length ≠ sig.params.length then miscount
    else fixedArgs (args.map Prod.snd) sig.params
  else
    match sig.params.getLast? with
    | none => throw { cause := .outOfRange }
    | some last =>
      let fixed := sig.params.dropLast
      if args.length < fixed.length then miscount
      else
        let (xs, s) ← fixedArgs ((args.take fixed.length).map Prod.snd) fixed
        match last.ty with
        | .array _ =>
          let (y, p) ← variadicArgs last.ty (args.drop fixed.length)
          return (xs ++ [y], s ++ p)
        | ty => throw (.defect (.variadicNotArray sig.name ty))

/-- A call for a consumer that expects a type. -/
def call (t : Scope) (pos : Position) (recv : Option (Expr × Lowering)) (name : Text)
    (args : List (Expr × Lowering)) (want : Ty) : LowerM (Call × Fragment) := do
  let (target, s) ← target t pos recv name
  let (xs, as) ← match target.sig with
    | some sig => argsFor pos sig args
    | none => operands .absent (args.map Prod.snd)
  let ret := match target.sig with
    | some sig => sig.ret
    | none => if want = .absent then .void else want
  return ({ kind := target.kind, caller := target.caller, cls := target.cls, method := name,
            args := xs, ret }, s ++ as)

/-- A call whose result is used; what is not known of it is an integer. -/
def callValue (t : Scope) (pos : Position) (recv : Option (Expr × Lowering)) (name : Text)
    (args : List (Expr × Lowering)) (want : Ty) : LowerM (Value × Fragment) := do
  let (c, s) ← call t pos recv name args (if want.isVoid then .int else want)
  if c.ret.isVoid then LowerM.unsupported pos (.voidAsValue name)
  else return (.instr (.call c), s)

end Lowering

open Lowering in
mutual

/-- Lowers an expression. -/
def Expr.lower (t : Scope) : Expr → Lowering
  | .int _ text => fun _ ↦ return (.operand (.literal text .int), .empty)
  | .bool _ b => fun _ ↦ return (.operand (boolLiteral b), .empty)
  | .ident pos name => fun _ ↦ ident t pos name
  | .this pos => fun _ ↦ return (.operand (← t.this pos), .empty)
  | .paren _ e => fun want ↦ e.lower t want
  | .binary pos op l r => fun _ ↦ binary pos op (l.lower t) (r.lower t)
  | .unary pos op e => fun _ ↦ unary pos op (e.lower t)
  | .call pos recv name args => fun want ↦
    callValue t pos (lowerReceiver t recv) name (lowerArgs t args) want
  | .new _ cls => fun _ ↦ newObject t cls
  | .newArray _ elem size => fun _ ↦ newArray t elem (size.lower t)
  | .array _ elems => fun want ↦ arrayLiteral ((lowerArgs t elems).map Prod.snd) want
  | .index _ base i => fun _ ↦ element base.pos (base.lower t) (i.lower t)
  | .length _ e => fun _ ↦ length e.pos (e.lower t)
termination_by structural e => e

/-- A receiver with its lowering. -/
def lowerReceiver (t : Scope) : Option Expr → Option (Expr × Lowering)
  | none => none
  | some e => some (e, e.lower t)
termination_by structural e => e

/-- Arguments with their lowerings. -/
def lowerArgs (t : Scope) : List Expr → List (Expr × Lowering)
  | [] => []
  | e :: es => (e, e.lower t) :: lowerArgs t es
termination_by structural es => es

end

/-- An expression whose instruction can stand in a branch as it is. -/
def Expr.isTest : Expr → Bool
  | .binary _ op _ _ => (Op.ofText op).isCompare
  | .unary _ op _ => op == "!"
  | _ => false

/-- Lowers the condition of a branch. -/
def Expr.lowerTest (t : Scope) (e : Expr) : LowerM (Instr × Fragment) := do
  if e.unparen.isTest then Lowering.instr (e.lower t) .bool
  else
    let (x, s) ← Lowering.operand (e.lower t) .bool
    return (.single x, s)

end MiniJava
