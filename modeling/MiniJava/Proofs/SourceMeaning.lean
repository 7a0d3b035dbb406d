import MiniJava.Proofs.IRMachine
import MiniJava.Symbols

/-!
# The meaning of programs

A natural semantics of method bodies, on the syntax and the declarations of a program alone.

* Expressions are evaluated from left to right, each part once, as a computation that asks the
  environment for calls, fields, arrays and objects (`Expr.eval`).  They do not change variables.  The
  right side of `&&` and `||` is evaluated only if it is needed.  The elements of an array literal and
  the arguments of a variadic parameter are evaluated first, and then stored in order into a fresh
  array.
* A name is a field, else a parameter, else a local; a static method does not see the fields of
  objects (`Context.resolve`).
* Statements are run by the rules of `Exec`, whose derivations are finite, so only runs that end have
  one.  A run ends normally, with new values of the variables, or with an `End`.

Types decide what is called: a static method takes no receiver, and a single argument of a variadic
parameter is passed on as it is if it is an array of the type.
-/

set_option autoImplicit false

namespace MiniJava

open IR

namespace Source

/-- What a program asks of its environment.  The object or the array that it is asked of is the first
of the values that go with it. -/
inductive Effect where
  | newObject (cls : Text)
  | newArray (ty : Ty)
  | arrayLength
  | arrayLoad
  | arrayStore
  | callStatic (cls method : Text)
  | callMethod (method : Text)
  | getStatic (field : Text)
  | getField (field : Text)
  | putStatic (field : Text)
  | putField (field : Text)
deriving DecidableEq, Repr, Inhabited

/-! ## Names -/

/-- The method that code stands in, and the program around it. -/
structure Context where
  program : Program
  method : MethodDecl

/-- What a name stands for. -/
inductive Binding where
  | field (decl : VarDecl)
  | var (decl : VarDecl)

/-- What a call reaches: a static method of a class, or else the method of an object, with its
declaration if it belongs to the program. -/
structure Callee where
  cls? : Option Text := none
  decl? : Option MethodDecl := none

/-- The parameter that takes any number of arguments. -/
def variadic? (d : MethodDecl) : Option VarDecl := d.params.getLast?.filter (·.type.varargs)

namespace Context

variable (c : Context)

/-- The class of the program. -/
def cls : ClassDecl := c.program.cls

/-- The type that a type name stands for. -/
def typeOf (n : TypeName) : Ty := Symbols.typeOf c.cls.name n

/-- What a name stands for. -/
def resolve (name : Text) : Option Binding :=
  match (c.cls.fields.find? (·.name == name)).filter fun f ↦ f.isStatic || !c.method.isStatic with
  | some f => some (.field f)
  | none =>
    ((c.method.params.find? (·.name == name)).or (c.method.locals.find? (·.name == name))).map .var

/-- The type of what a name stands for. -/
def typeOfName (name : Text) : Ty :=
  match c.resolve name with
  | some (.field d) | some (.var d) => c.typeOf d.type
  | none => .absent

/-- The declaration of a method. -/
def method? (name : Text) : Option MethodDecl := c.cls.methods.find? (·.name == name)

/-- The method that is called on an object of the class of the program, or without a receiver. -/
def ownCallee (name : Text) : Callee :=
  match c.method? name with
  | some d => { cls? := if d.isStatic then some c.cls.name else none, decl? := some d }
  | none => {}

/-- The method that is called on a value of a type. -/
def calleeOn (ty : Ty) (name : Text) : Callee :=
  match ty with
  | .receiver _ | .object _ true => c.ownCallee name
  | _ => {}

/-- The method that is called on a class. -/
def calleeIn (cls name : Text) : Callee :=
  { cls? := some cls, decl? := if cls = c.cls.name then c.method? name else none }

/-- The class that a receiver names: a name that stands for nothing else. -/
def className? : Expr → Option Text
  | .ident _ name => if (c.resolve name).isSome then none else some name
  | _ => none

/-- The type of the result of a call; what is not known of it is an integer. -/
def resultType (callee : Callee) : Ty :=
  match callee.decl? with
  | some d => c.typeOf d.ret
  | none => .int

end Context

/-! ## Types -/

/-- The operators of two operands. -/
def binaryOperators : List (Text × Op) :=
  [("+", .add), ("-", .sub), ("*", .mul), ("/", .div), ("<", .lt), ("<=", .le), (">", .gt),
    (">=", .ge), ("==", .eq), ("!=", .ne), ("&&", .and), ("||", .or)]

/-- The operators of one operand. -/
def unaryOperators : List (Text × Op) := [("!", .not), ("-", .neg)]

/-- The type of the result of an operator among some. -/
def operatorType (ops : List (Text × Op)) (op : Text) : Ty :=
  match ops.lookup op with
  | some o => o.result
  | none => .absent

end Source

open Source

mutual

/-- The type of an expression of which nothing is expected. -/
def Expr.type (c : Context) : Expr → Ty
  | .int _ _ => .int
  | .bool _ _ => .bool
  | .ident _ name => c.typeOfName name
  | .this _ => .receiver c.cls.name
  | .paren _ e => e.type c
  | .binary _ op _ _ => operatorType binaryOperators op
  | .unary _ op _ => operatorType unaryOperators op
  | .call _ recv name _ => c.resultType (calleeOf c name recv)
  | .new _ cls => c.typeOf { name := cls }
  | .newArray _ elem _ => .array (c.typeOf { name := elem.name })
  | .array _ _ => .array .int
  | .index _ base _ => (base.type c).elem
  | .length _ _ => .int
termination_by structural e => e

/-- What a call of a name reaches, by its receiver. -/
def calleeOf (c : Context) (name : Text) : Option Expr → Callee
  | none => c.ownCallee name
  | some e =>
    match c.className? e.unparen with
    | some cls => c.calleeIn cls name
    | none => c.calleeOn (e.type c) name
termination_by structural e => e

end

/-! ## Expressions -/

namespace Source

/-- The values of the receiver and of the variables. -/
structure Locals where
  self : Word
  vars : Text → Word
deriving Inhabited

/-- The variables with another value of one. -/
def Locals.set (l : Locals) (name : Text) (v : Word) : Locals :=
  { l with vars := Function.update l.vars name v }

/-- The value of an expression for a consumer that expects a type.  The expected type decides the
elements of an array literal. -/
abbrev Evaluation := Ty → Act Effect Word

/-- The value of an integer literal. -/
def literal (text : Text) : Act Effect Word :=
  match Literal.value text with
  | .ok v => return .int (BitVec.ofInt 32 v)
  | .error _ => throw .stuck

/-- The boolean that a value stands for. -/
def truth (v : Word) : Act Effect Bool :=
  match v.bool? with
  | some b => return b
  | none => throw .stuck

/-- The value of a binary expression. -/
def binary (op : Text) (left right : Evaluation) : Act Effect Word :=
  match binaryOperators.lookup op with
  | none => throw .stuck
  | some .and => do
    if ← truth (← left .bool) then right .bool else return .ofBool false
  | some .or => do
    if ← truth (← left .bool) then return .ofBool true else right .bool
  | some o => do
    let a ← left .int
    let b ← right .int
    o.apply a b

/-- The value of a unary expression. -/
def unary (op : Text) (arg : Evaluation) : Act Effect Word :=
  match unaryOperators.lookup op with
  | none => throw .stuck
  | some o => do
    let a ← arg o.result
    o.applyUnary a

/-- An array literal, in parentheses or not. -/
def isArrayLiteral (e : Expr) : Bool := e.unparen matches .array _ _

section
variable (c : Context) (env : Env Effect) (l : Locals)

/-- The value of a name. -/
def load (name : Text) : Act Effect Word :=
  match c.resolve name with
  | some (.var _) => return l.vars name
  | some (.field d) =>
    if d.isStatic then perform env (.getStatic name) [] else perform env (.getField name) [l.self]
  | none => throw .stuck

/-- A new object, after its constructor has run. -/
def create (cls : Text) : Act Effect Word := do
  let o ← perform env (.newObject cls) []
  let _ ← perform env (.callMethod "<init>") [o]
  return o

/-- Stores values into an array, from an index on. -/
def fill (a : Word) : Nat → List Word → Act Effect Unit
  | _, [] => return
  | i, v :: vs => do
    let _ ← perform env .arrayStore [a, .int (BitVec.ofNat 32 i), v]
    fill a (i + 1) vs

/-- A new array of values.  Its length has to be an integer. -/
def pack (ty : Ty) (vs : List Word) : Act Effect Word :=
  if vs.length < 2 ^ 31 then do
    let a ← perform env (.newArray ty) [.int (BitVec.ofNat 32 vs.length)]
    fill env a 0 vs
    return a
  else throw .stuck

/-- The argument of a variadic parameter: a new array, but for a single argument that is such an array
itself. -/
def variadicArg (ty : Ty) : List (Expr × Evaluation) → Act Effect Word
  | [(e, eval)] =>
    if isArrayLiteral e then eval ty
    else do
      let v ← eval .absent
      if e.type c = ty then return v else pack env ty [v]
  | args => do
    let vs ← args.mapM fun arg ↦ arg.2 ty.elem
    pack env ty vs

/-- The arguments for the parameters in front of them. -/
def fixedArgs (params : List VarDecl) (args : List (Expr × Evaluation)) : Act Effect (List Word) :=
  (args.zip params).mapM fun (arg, p) ↦ arg.2 (c.typeOf p.type)

/-- The arguments of a call of a method that may have a declaration. -/
def arguments (decl? : Option MethodDecl) (args : List (Expr × Evaluation)) :
    Act Effect (List Word) :=
  match decl? with
  | none => args.mapM fun arg ↦ arg.2 .absent
  | some d =>
    match variadic? d with
    | none => fixedArgs c d.params args
    | some last => do
      let vs ← fixedArgs c d.params.dropLast args
      let v ← variadicArg c env (c.typeOf last.type) (args.drop d.params.dropLast.length)
      return vs ++ [v]

/-- A call on a receiver, which a static method does not take. -/
def invoke (callee : Callee) (name : Text) (self? : Option Word) (vs : List Word) :
    Act Effect Word :=
  match callee.cls? with
  | some cls => perform env (.callStatic cls name) vs
  | none => perform env (.callMethod name) (self?.toList ++ vs)

end

end Source

mutual

/-- The value of an expression. -/
def Expr.eval (c : Context) (env : Env Effect) (l : Locals) : Expr → Evaluation
  | .int _ text => fun _ ↦ literal text
  | .bool _ b => fun _ ↦ return .ofBool b
  | .ident _ name => fun _ ↦ load c env l name
  | .this _ => fun _ ↦ return l.self
  | .paren _ e => fun want ↦ e.eval c env l want
  | .binary _ op left right => fun _ ↦ binary op (left.eval c env l) (right.eval c env l)
  | .unary _ op arg => fun _ ↦ unary op (arg.eval c env l)
  | .call _ recv name args => fun _ ↦ do
    let callee := calleeOf c name recv
    let self? ← evalReceiver c env l recv
    let vs ← arguments c env callee.decl? (evalArgs c env l args)
    invoke env callee name self? vs
  | .new _ cls => fun _ ↦ create env cls
  | .newArray _ elem size => fun _ ↦ do
    let n ← size.eval c env l .int
    perform env (.newArray (.array (c.typeOf { name := elem.name }))) [n]
  | .array _ elems => fun want ↦ do
    let elem := if want.elem = .absent then .int else want.elem
    let vs ← (evalArgs c env l elems).mapM fun arg ↦ arg.2 elem
    pack env (.array elem) vs
  | .index _ base index => fun _ ↦ do
    let a ← base.eval c env l .absent
    let i ← index.eval c env l .int
    perform env .arrayLoad [a, i]
  | .length _ arg => fun _ ↦ do
    let a ← arg.eval c env l .absent
    perform env .arrayLength [a]
termination_by structural e => e

/-- The value of a receiver: that of the method itself if there is none, and nothing for a class. -/
def evalReceiver (c : Context) (env : Env Effect) (l : Locals) : Option Expr → Act Effect (Option Word)
  | none => return some l.self
  | some e =>
    match c.className? e.unparen with
    | some _ => return none
    | none => do
      let v ← e.eval c env l .absent
      return some v
termination_by structural e => e

/-- Arguments with their values. -/
def evalArgs (c : Context) (env : Env Effect) (l : Locals) : List Expr → List (Expr × Evaluation)
  | [] => []
  | e :: es => (e, e.eval c env l) :: evalArgs c env l es
termination_by structural es => es

end

/-! ## Statements -/

namespace Source

section
variable (c : Context) (env : Env Effect) (l : Locals)

/-- The answer of a condition. -/
def test (e : Expr) : Act Effect Bool := do truth (← e.eval c env l .bool)

/-- The variables after an expression has been evaluated for its effects. -/
def evaluate (e : Expr) : Act Effect Locals := do
  let _ ← e.eval c env l .absent
  return l

/-- Gives a value to a field, of the class or of the receiver. -/
def put (isStatic : Bool) (name : Text) (v : Word) : Act Effect Word :=
  if isStatic then perform env (.putStatic name) [v] else perform env (.putField name) [l.self, v]

/-- The variables after a value has been given to a name. -/
def save (name : Text) (v : Word) : Act Effect Locals :=
  match c.resolve name with
  | some (.var _) => return l.set name v
  | some (.field d) => do
    let _ ← put env l d.isStatic name v
    return l
  | none => throw .stuck

/-- The variables after an assignment. -/
def assign (name : Text) (value : Expr) : Act Effect Locals := do
  let v ← value.eval c env l (c.typeOfName name)
  save c env l name v

/-- The variables after an assignment to an element. -/
def assignElement (name : Text) (index value : Expr) : Act Effect Locals := do
  let a ← load c env l name
  let i ← index.eval c env l .int
  let v ← value.eval c env l (c.typeOfName name).elem
  let _ ← perform env .arrayStore [a, i, v]
  return l

/-- Leaves the method, with a value if there is one. -/
def giveBack : Option Expr → Act Effect Locals
  | none => throw (.returned none)
  | some e => do
    let v ← e.eval c env l (c.typeOf c.method.ret)
    throw (.returned (some v))

end

/-- A statement that may be left out: it does nothing then. -/
def orNothing (s : Option Stmt) : Stmt := s.getD (.block default [])

/-- **The rules for statements.**  A statement is run with some values of the variables, after some
requests; it ends normally with new values, or it ends the run of the method. -/
inductive Exec (c : Context) (env : Env Effect) : Stmt → Locals → List (Request Effect) →
    Except End Locals → List (Request Effect) → Prop
  | expr {pos : Position} {e : Expr} {l : Locals} {past past' : List (Request Effect)}
      {r : Except End Locals} (h : (evaluate c env l e).result past = (r, past')) :
      Exec c env (.expr pos e) l past r past'
  | assign {pos : Position} {name : Text} {value : Expr} {l : Locals}
      {past past' : List (Request Effect)} {r : Except End Locals}
      (h : (assign c env l name value).result past = (r, past')) :
      Exec c env (.assign pos name value) l past r past'
  | assignElement {pos : Position} {name : Text} {index value : Expr} {l : Locals}
      {past past' : List (Request Effect)} {r : Except End Locals}
      (h : (assignElement c env l name index value).result past = (r, past')) :
      Exec c env (.indexAssign pos name index value) l past r past'
  | ret {pos : Position} {value : Option Expr} {l : Locals} {past past' : List (Request Effect)}
      {r : Except End Locals} (h : (giveBack c env l value).result past = (r, past')) :
      Exec c env (.ret pos value) l past r past'
  | nil {pos : Position} {l : Locals} {past : List (Request Effect)} :
      Exec c env (.block pos []) l past (.ok l) past
  | cons {pos : Position} {s : Stmt} {ss : List Stmt} {l l' : Locals}
      {past past' past'' : List (Request Effect)} {r : Except End Locals}
      (h : Exec c env s l past (.ok l') past') (h' : Exec c env (.block pos ss) l' past' r past'') :
      Exec c env (.block pos (s :: ss)) l past r past''
  | consEnd {pos : Position} {s : Stmt} {ss : List Stmt} {l : Locals}
      {past past' : List (Request Effect)} {e : End} (h : Exec c env s l past (.error e) past') :
      Exec c env (.block pos (s :: ss)) l past (.error e) past'
  | cond {pos : Position} {e : Expr} {onTrue onFalse : Option Stmt} {l : Locals} {b : Bool}
      {past past' past'' : List (Request Effect)} {r : Except End Locals}
      (ht : (test c env l e).result past = (.ok b, past'))
      (h : Exec c env (orNothing (if b then onTrue else onFalse)) l past' r past'') :
      Exec c env (.cond pos e onTrue onFalse) l past r past''
  | condEnd {pos : Position} {e : Expr} {onTrue onFalse : Option Stmt} {l : Locals} {x : End}
      {past past' : List (Request Effect)} (ht : (test c env l e).result past = (.error x, past')) :
      Exec c env (.cond pos e onTrue onFalse) l past (.error x) past'
  | exit {pos : Position} {e : Expr} {body : Option Stmt} {l : Locals}
      {past past' : List (Request Effect)} (ht : (test c env l e).result past = (.ok false, past')) :
      Exec c env (.loop pos e body) l past (.ok l) past'
  | round {pos : Position} {e : Expr} {body : Option Stmt} {l l' : Locals}
      {past past₁ past₂ past₃ : List (Request Effect)} {r : Except End Locals}
      (ht : (test c env l e).result past = (.ok true, past₁))
      (h : Exec c env (orNothing body) l past₁ (.ok l') past₂)
      (h' : Exec c env (.loop pos e body) l' past₂ r past₃) :
      Exec c env (.loop pos e body) l past r past₃
  | roundEnd {pos : Position} {e : Expr} {body : Option Stmt} {l : Locals} {x : End}
      {past past₁ past₂ : List (Request Effect)}
      (ht : (test c env l e).result past = (.ok true, past₁))
      (h : Exec c env (orNothing body) l past₁ (.error x) past₂) :
      Exec c env (.loop pos e body) l past (.error x) past₂
  | testEnd {pos : Position} {e : Expr} {body : Option Stmt} {l : Locals} {x : End}
      {past past' : List (Request Effect)} (ht : (test c env l e).result past = (.error x, past')) :
      Exec c env (.loop pos e body) l past (.error x) past'

/-- **How the body of a method ends.**  A method without result may run off its end. -/
inductive Context.Ends (c : Context) (env : Env Effect) (l : Locals) (past : List (Request Effect)) :
    End → List (Request Effect) → Prop
  | inside {e : End} {past' : List (Request Effect)}
      (h : Exec c env (.block c.method.pos c.method.body) l past (.error e) past') :
      Ends c env l past e past'
  | atEnd {l' : Locals} {past' : List (Request Effect)} (hr : (c.typeOf c.method.ret).isVoid = true)
      (h : Exec c env (.block c.method.pos c.method.body) l past (.ok l') past') :
      Ends c env l past (.returned none) past'

end Source

end MiniJava
