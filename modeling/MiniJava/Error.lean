import MiniJava.Ty
import MiniJava.Text.Quoted
import MiniJava.Source.Position
import MiniJava.Yaml.Fault

/-!
# Errors

Everything that can go wrong, by cause.  A cause is one of

* `Unsupported`: a construct of the program that the compiler has no code for;
* `Defect`: intermediate code that breaks a rule it should keep;
* `LiteralFault`: an integer literal that denotes no 32-bit integer;
* `SourceFault`: a document that is YAML but no program;
* a few more, each with its own constructor of `Cause`.

An `Error` is a cause with the places on the way to it, outermost first.  The wording is in the
`message` functions and nowhere else.
-/

set_option autoImplicit false

namespace MiniJava

/-- A construct that there is no code for. -/
inductive Unsupported where
  | unresolved (name : Text)
  | thisInStatic (method : Text)
  | binaryOperator (op : Text)
  | unaryOperator (op : Text)
  | voidAsValue (method : Text)
  | notArray (ty : Ty)
  | returnWithoutValue (ty : Ty)
  | returnWithValue
  | callOn (ty : Ty)
  | calledStatically (method : Text)
  | argumentCount (method : Text) (args params : Nat)
  | instruction (form : Text)
  | valueInstruction (form : Text)
  | binaryCode (op : Text)
  | unaryCode (op : Text)
  | arrayOf (ty : Ty)
  | callKind (kind : Text)
  | methodOn (method : Text) (ty : Ty)
  | literalOf (ty : Ty)
deriving DecidableEq, Repr

/-- The construct in words. -/
def Unsupported.message : Unsupported → String
  | unresolved name => s!"unresolved identifier {name}"
  | thisInStatic method => s!"this in static method {method}"
  | binaryOperator op => s!"binary operator {Text.quoted op}"
  | unaryOperator op => s!"unary operator {Text.quoted op}"
  | voidAsValue method => s!"void method {method} used as a value"
  | notArray ty => s!"array operand of type {ty.text}"
  | returnWithoutValue ty => s!"return without value from {ty.text} method"
  | returnWithValue => "return with value from void method"
  | callOn ty => s!"method call on {ty.text}"
  | calledStatically method => s!"instance method {method} called statically"
  | argumentCount method args params => s!"{method}: {args} arguments for {params} parameters"
  | instruction form => s!"instruction {form}"
  | valueInstruction form => s!"value instruction {form}"
  | binaryCode op => s!"binary operator {op}"
  | unaryCode op => s!"unary operator {op}"
  | arrayOf ty => s!"array of {ty.text}"
  | callKind kind => s!"call kind {kind}"
  | methodOn method ty => s!"method {method} on {ty.text}"
  | literalOf ty => s!"literal of type {ty.text}"

/-- A rule of intermediate code that does not hold. -/
inductive Defect where
  | unknownMethod (name : Text)
  | redeclared (name : Text)
  | labelRedefined (label : Text)
  | undeclaredAt (method : Text) (instr : Nat) (name : Text)
  | undefinedLabel (method : Text) (instr : Nat) (label : Text)
  | noReceiverVariable (method : Text)
  | noParameterVariable (method param : Text)
  | variadicNotArray (method : Text) (ty : Ty)
  | undeclared (method name : Text)
  | noRegister (method name : Text)
  | missingOperand (method : Text)
  | badDestination (method form : Text)
  | voidValue (method callee : Text)
  | noReceiver (method kind callee : Text)
  | arraySizes (method : Text) (count : Nat)
  | noStackEffect (mnemonic : String)
  | underflow (method : Text)
  | depthMismatch (method label : Text) (expected actual : Nat)
  | leftOnStack (method : Text) (instr : Nat) (name : Text)
  | stackNotEmpty (method : Text) (instr depth : Nat)
  | branchPastEnd (method label : Text)
deriving DecidableEq, Repr

/-- The broken rule in words. -/
def Defect.message : Defect → String
  | unknownMethod name => s!"method not in symbol table: {name}"
  | redeclared name => s!"variable redeclared: {name}"
  | labelRedefined label => s!"label redefined: {label}"
  | undeclaredAt method instr name => s!"{method}: instr {instr}: undeclared variable {name}"
  | undefinedLabel method instr label => s!"{method}: instr {instr}: undefined label {label}"
  | noReceiverVariable method => s!"{method}: no receiver variable"
  | noParameterVariable method param => s!"{method}: no variable for parameter {param}"
  | variadicNotArray method ty => s!"{method}: variadic parameter is not an array: {ty.text}"
  | undeclared method name => s!"{method}: undeclared variable {name}"
  | noRegister method name => s!"{method}: no register for {name}"
  | missingOperand method => s!"{method}: nil operand"
  | badDestination method form => s!"{method}: assignment destination {form}"
  | voidValue method callee => s!"{method}: void call {callee} used as a value"
  | noReceiver method kind callee => s!"{method}: {kind} {callee} without receiver"
  | arraySizes method count => s!"{method}: array allocation with {count} sizes"
  | noStackEffect mnemonic => s!"no stack effect for {mnemonic}"
  | underflow method => s!"{method}: operand stack underflow"
  | depthMismatch method label expected actual =>
    s!"{method}: stack depth mismatch at {label}: {expected} vs {actual}"
  | leftOnStack method instr name => s!"{method}: instr {instr}: {name} left on the stack"
  | stackNotEmpty method instr depth =>
    s!"{method}: instr {instr}: operand stack not empty: {depth}"
  | branchPastEnd method label => s!"{method}: branch to {label} past the last instruction"

/-- Why a text denotes no 32-bit integer. -/
inductive LiteralFault where
  | notANumber
  | outOfRange
deriving DecidableEq, Repr

/-- The fault of a literal in words. -/
def LiteralFault.message : LiteralFault → String
  | notANumber => "invalid syntax"
  | outOfRange => "value out of range"

/-- What a document lacks to be a program. -/
inductive SourceFault where
  | mapping
  | singleKey
  | imports
  | importPath
  | emptyImportPath
  | cls
  | className
  | methods
  | methodName
  | declarations
  | variableName
  | statements
  | expressions
  | part (key : String)
  | scalar (key : String)
  | unknownStatement (key : String)
  | unknownExpression (key : String)
deriving DecidableEq, Repr

/-- The fault of a document in words. -/
def SourceFault.message : SourceFault → String
  | mapping => "mapping expected"
  | singleKey => "single-key mapping expected"
  | imports => "imports: sequence expected"
  | importPath => "import path expected"
  | emptyImportPath => "empty import path"
  | cls => "class expected"
  | className => "class name expected"
  | methods => "methods: sequence expected"
  | methodName => "method name expected"
  | declarations => "sequence expected"
  | variableName => "variable name expected"
  | statements => "statement list expected"
  | expressions => "expression list expected"
  | part key => s!"{key} expected"
  | scalar key => s!"{key}: scalar expected"
  | unknownStatement key => s!"unknown statement: {key}"
  | unknownExpression key => s!"unknown expression: {key}"

/-- Why a file cannot be read or written. -/
inductive FileFault where
  | notFound
  | notADirectory
  | isADirectory
  | nameTooLong
  | invalidName
  | other (reason : String)
deriving DecidableEq, Repr

/-- The fault of a file in words. -/
def FileFault.message : FileFault → String
  | notFound => "no such file or directory"
  | notADirectory => "not a directory"
  | isADirectory => "is a directory"
  | nameTooLong => "file name too long"
  | invalidName => "invalid argument"
  | other reason => reason

/-- Why something failed. -/
inductive Cause where
  | unsupported (what : Unsupported) (pos : Option Position)
  | defect (what : Defect)
  | literal (text : Text) (fault : LiteralFault)
  | source (pos : Position) (what : SourceFault)
  | malformed (what : Yaml.Malformed)
  | mismatch (what : List Yaml.Mismatch)
  | noProgram
  | noClass
  | methodRedeclared (pos : Position) (name : Text)
  | variadicNotLast (pos : Position) (method : Text)
  | unknownStrategy (name : String)
  | file (action : String) (name : Text) (fault : FileFault)
  | usage (text : String)
  /-- An index outside the list it points into. -/
  | outOfRange
  /-- A collection where keys are compared. -/
  | collectionKey
deriving DecidableEq, Repr

/-- The cause in words. -/
def Cause.message : Cause → String
  | unsupported what none => s!"unsupported construct: {what.message}"
  | unsupported what (some pos) => s!"{pos.text}: unsupported construct: {what.message}"
  | defect what => s!"internal error: {what.message}"
  | literal text fault =>
    let q := Text.quoted text
    s!"malformed integer literal {q}: strconv.ParseInt: parsing {q}: {fault.message}"
  | source pos what => s!"{pos.text}: {what.message}"
  | malformed what => what.message
  | mismatch what => Yaml.Mismatch.messages what
  | noProgram => "no program in document"
  | noClass => "no class declaration"
  | methodRedeclared pos name => s!"{pos.text}: method redeclared: {name}"
  | variadicNotLast pos method =>
    s!"{pos.text}: {method}: variadic parameter must be the last one"
  | unknownStrategy name => s!"unknown register allocation strategy: {Text.quoted name}"
  | file action name fault => s!"{action} {name}: {fault.message}"
  | usage text => text
  | outOfRange => "index out of range"
  | collectionKey => Yaml.Halt.collectionKey.message

/-- The cause is that of a run that breaks off, and no answer to what was asked. -/
def Cause.isBreakdown : Cause → Bool
  | outOfRange | collectionKey => true
  | _ => false

/-- A cause, and the places on the way to it, outermost first. -/
structure Error where
  context : List String := []
  cause : Cause
deriving DecidableEq, Repr

namespace Error

/-- The error with one more place around it. -/
def within (place : String) (e : Error) : Error := { e with context := place :: e.context }

/-- The whole message: the places and the cause, divided by colons. -/
def message (e : Error) : String :=
  e.context.foldr (fun place text ↦ place ++ ": " ++ text) e.cause.message

/-- The error of a construct that there is no code for. -/
def unsupported (what : Unsupported) (pos : Option Position := none) : Error :=
  { cause := .unsupported what pos }

/-- The error of intermediate code that breaks a rule. -/
def defect (what : Defect) : Error := { cause := .defect what }

/-- The error of a document that is no program. -/
def source (pos : Position) (what : SourceFault) : Error := { cause := .source pos what }

@[simp] theorem cause_within (place : String) (e : Error) : (e.within place).cause = e.cause := rfl

end Error

/-- Adds a place to the error of a failed result. -/
def withinPlace {α : Type} (place : String) : Except Error α → Except Error α :=
  Except.mapError (Error.within place)

end MiniJava
