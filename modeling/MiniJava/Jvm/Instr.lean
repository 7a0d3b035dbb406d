import MiniJava.IR.Instr

/-!
# Instructions of the stack machine

The instructions that methods become, and lines of assembly.  `Instr.effect` is the
change of the depth of the operand stack that an instruction makes; `Instr.text` is its line of
assembly.

An instruction is written with its mnemonic, and mnemonics have effects of their own: `effect?`
knows those of the single instructions, of which `iload_0` and the like are short forms.  An
invocation has none by itself, since it depends on what is invoked.  `Instr.knownEffect?` is what the
emitter reads there.
-/

set_option autoImplicit false

namespace MiniJava.Jvm

/-- What a slot or a result holds: an integer or a reference. -/
inductive Kind where
  | int | ref
deriving DecidableEq, Repr, Inhabited

namespace Kind

/-- The kind of the values of a type. -/
def ofTy (t : Ty) : Kind := if t.isRef then ref else int

/-- The letter of a kind in mnemonics. -/
def letter : Kind → String
  | int => "i"
  | ref => "a"

end Kind

/-- What an array holds. -/
inductive Elem where
  | int | bool | ref
deriving DecidableEq, Repr, Inhabited

namespace Elem

/-- What an array of a type of elements holds. -/
def ofTy : Ty → Elem
  | .bool => bool
  | .int => int
  | _ => ref

/-- The letter of the elements in mnemonics. -/
def letter : Elem → String
  | int => "i"
  | bool => "b"
  | ref => "a"

end Elem

/-- A comparison of two integers, or of one with zero. -/
inductive Cond where
  | eq | ne | lt | ge | gt | le
deriving DecidableEq, Repr, Inhabited

namespace Cond

/-- The comparison of an operator. -/
def ofOp? : IR.Op → Option Cond
  | .eq => some eq
  | .ne => some ne
  | .lt => some lt
  | .ge => some ge
  | .gt => some gt
  | .le => some le
  | _ => none

/-- The ending of a comparison in mnemonics. -/
def suffix : Cond → String
  | eq => "eq"
  | ne => "ne"
  | lt => "lt"
  | ge => "ge"
  | gt => "gt"
  | le => "le"

theorem isSome_ofOp? (op : IR.Op) : (ofOp? op).isSome = op.isCompare := by cases op <;> rfl

theorem isCompare_of_ofOp? {op : IR.Op} {cond : Cond} (h : ofOp? op = some cond) :
    op.isCompare = true := by
  rw [← isSome_ofOp?, h, Option.isSome_some]

end Cond

/-- An operation on two integers. -/
inductive Arith where
  | add | sub | mul | div | and | or | xor
deriving DecidableEq, Repr, Inhabited

namespace Arith

/-- The operation of an operator. -/
def ofOp? : IR.Op → Option Arith
  | .add => some add
  | .sub => some sub
  | .mul => some mul
  | .div => some div
  | .and => some and
  | .or => some or
  | _ => none

/-- The mnemonic of an operation. -/
def mnemonic : Arith → String
  | add => "iadd"
  | sub => "isub"
  | mul => "imul"
  | div => "idiv"
  | and => "iand"
  | or => "ior"
  | xor => "ixor"

end Arith

/-- How an invocation finds its target. -/
inductive Invocation where
  | static | special | virtual | interface
deriving DecidableEq, Repr, Inhabited

namespace Invocation

/-- The mnemonic of an invocation. -/
def mnemonic : Invocation → String
  | static => "invokestatic"
  | special => "invokespecial"
  | virtual => "invokevirtual"
  | interface => "invokeinterface"

/-- The invocation takes a receiver from the stack. -/
def hasReceiver : Invocation → Bool
  | static => false
  | special | virtual | interface => true

end Invocation

/-- An instruction of the stack machine. -/
inductive Instr where
  /-- Pushes an integer. -/
  | push (value : Int)
  | load (kind : Kind) (slot : Nat)
  | store (kind : Kind) (slot : Nat)
  | arrayLoad (elem : Elem)
  | arrayStore (elem : Elem)
  | arith (op : Arith)
  | neg
  /-- Jumps when the integer on the stack compares to zero as told. -/
  | ifZero (cond : Cond) (label : Text)
  /-- Jumps when the two integers on the stack compare as told. -/
  | ifCompare (cond : Cond) (label : Text)
  | goto (label : Text)
  | new (cls : Text)
  /-- Makes an array of integers or booleans. -/
  | newArray (elem : Text)
  /-- Makes an array of references. -/
  | newRefArray (cls : Text)
  | arrayLength
  | getField (field desc : Text)
  | putField (field desc : Text)
  | getStatic (field desc : Text)
  | putStatic (field desc : Text)
  | pop
  | ret
  | retValue (kind : Kind)
  /-- Invokes a method, by the descriptors of its parameters and its result. -/
  | invoke (how : Invocation) (cls method : Text) (params : List Text) (result : Text)
deriving DecidableEq, Repr, Inhabited

/-- The instruction that pushes an integer: the shortest of the forms that can. -/
def pushText (v : Int) : String :=
  if v = -1 then "iconst_m1"
  else if 0 ≤ v ∧ v ≤ 5 then s!"iconst_{v}"
  else if -128 ≤ v ∧ v ≤ 127 then s!"bipush {v}"
  else if -32768 ≤ v ∧ v ≤ 32767 then s!"sipush {v}"
  else s!"ldc {v}"

/-- An access to a slot; the first four slots have short forms. -/
def slotText (mnemonic : String) (slot : Nat) : String :=
  if slot ≤ 3 then s!"{mnemonic}_{slot}" else s!"{mnemonic} {slot}"

/-- The descriptor of a method, from those of its parameters and its result. -/
def joinDescriptor (params : List Text) (result : Text) : Text :=
  "(" ++ Text.join params ++ ")" ++ result

/-- The change of the depth of the stack that an invocation makes. -/
def invokeEffect (args : Int) (hasReceiver hasResult : Bool) : Int :=
  -args - (if hasReceiver then 1 else 0) + (if hasResult then 1 else 0)

/-- The effects of the mnemonics, invocations apart. -/
def effects : List (String × Int) :=
  [("iconst_m1", 1), ("iconst_0", 1), ("iconst_1", 1), ("iconst_2", 1), ("iconst_3", 1),
   ("iconst_4", 1), ("iconst_5", 1), ("bipush", 1), ("sipush", 1), ("ldc", 1),
   ("iload", 1), ("aload", 1), ("istore", -1), ("astore", -1),
   ("iaload", -1), ("baload", -1), ("aaload", -1),
   ("iastore", -3), ("bastore", -3), ("aastore", -3),
   ("iadd", -1), ("isub", -1), ("imul", -1), ("idiv", -1), ("iand", -1), ("ior", -1),
   ("ixor", -1), ("ineg", 0),
   ("ifeq", -1), ("ifne", -1), ("iflt", -1), ("ifge", -1), ("ifgt", -1), ("ifle", -1),
   ("if_icmpeq", -2), ("if_icmpne", -2), ("if_icmplt", -2), ("if_icmpge", -2),
   ("if_icmpgt", -2), ("if_icmple", -2), ("goto", 0),
   ("new", 1), ("newarray", 0), ("anewarray", 0), ("arraylength", 0),
   ("getfield", 0), ("putfield", -2), ("getstatic", 1), ("putstatic", -1),
   ("dup", 1), ("pop", -1), ("ireturn", -1), ("areturn", -1), ("return", 0)]

/-- The mnemonics whose slot may follow an underscore. -/
def slotMnemonics : List String := ["iload", "aload", "istore", "astore"]

/-- The text before the first blank. -/
def beforeBlank (s : String) : String := String.ofList (s.toList.takeWhile (· != ' '))

/-- The text before the last underscore. -/
def beforeUnderscore? (cs : List Char) : Option (List Char) :=
  match cs.reverse.dropWhile (· != '_') with
  | [] => none
  | _ :: before => some before.reverse

/-- The effect of a mnemonic, if it is one. -/
def effect? (mnemonic : String) : Option Int :=
  match effects.lookup mnemonic with
  | some d => some d
  | none => do
    let base := String.ofList (← beforeUnderscore? mnemonic.toList)
    if slotMnemonics.contains base then effects.lookup base else none

namespace Instr

/-- The change of the depth of the stack. -/
def effect : Instr → Int
  | push _ | load _ _ | new _ | getStatic _ _ => 1
  | store _ _ | arrayLoad _ | arith _ | ifZero _ _ | putStatic _ _ | pop | retValue _ => -1
  | ifCompare _ _ | putField _ _ => -2
  | arrayStore _ => -3
  | neg | goto _ | newArray _ | newRefArray _ | arrayLength | getField _ _ | ret => 0
  | invoke how _ _ params result => invokeEffect params.length how.hasReceiver (result != "V")

/-- The line of assembly. -/
def text : Instr → Text
  | push v => pushText v
  | load kind slot => slotText (kind.letter ++ "load") slot
  | store kind slot => slotText (kind.letter ++ "store") slot
  | arrayLoad elem => elem.letter ++ "aload"
  | arrayStore elem => elem.letter ++ "astore"
  | arith op => op.mnemonic
  | neg => "ineg"
  | ifZero cond label => "if" ++ cond.suffix ++ " " ++ label
  | ifCompare cond label => "if_icmp" ++ cond.suffix ++ " " ++ label
  | goto label => "goto " ++ label
  | new cls => "new " ++ cls
  | newArray elem => "newarray " ++ elem
  | newRefArray cls => "anewarray " ++ cls
  | arrayLength => "arraylength"
  | getField field desc => "getfield " ++ field ++ " " ++ desc
  | putField field desc => "putfield " ++ field ++ " " ++ desc
  | getStatic field desc => "getstatic " ++ field ++ " " ++ desc
  | putStatic field desc => "putstatic " ++ field ++ " " ++ desc
  | pop => "pop"
  | ret => "return"
  | retValue kind => kind.letter ++ "return"
  | invoke how cls method params result =>
    let target : Text := cls ++ "/" ++ method ++ joinDescriptor params result
    match how with
    | .interface => how.mnemonic ++ " " ++ target ++ " " ++ toString (params.length + 1)
    | _ => how.mnemonic ++ " " ++ target

/-- The mnemonic. -/
def mnemonic : Instr → String
  | push v => beforeBlank (pushText v)
  | load kind slot => beforeBlank (slotText (kind.letter ++ "load") slot)
  | store kind slot => beforeBlank (slotText (kind.letter ++ "store") slot)
  | arrayLoad elem => elem.letter ++ "aload"
  | arrayStore elem => elem.letter ++ "astore"
  | arith op => op.mnemonic
  | neg => "ineg"
  | ifZero cond _ => "if" ++ cond.suffix
  | ifCompare cond _ => "if_icmp" ++ cond.suffix
  | goto _ => "goto"
  | new _ => "new"
  | newArray _ => "newarray"
  | newRefArray _ => "anewarray"
  | arrayLength => "arraylength"
  | getField _ _ => "getfield"
  | putField _ _ => "putfield"
  | getStatic _ _ => "getstatic"
  | putStatic _ _ => "putstatic"
  | pop => "pop"
  | ret => "return"
  | retValue kind => kind.letter ++ "return"
  | invoke how _ _ _ _ => how.mnemonic

/-- The change of the depth that is known for the mnemonic, or for what is invoked. -/
def knownEffect? : Instr → Option Int
  | invoke how _ _ params result =>
    some (invokeEffect params.length how.hasReceiver (result != "V"))
  | i => effect? i.mnemonic

/-- The label an instruction may jump to. -/
def target? : Instr → Option Text
  | ifZero _ label | ifCompare _ label | goto label => some label
  | _ => none

end Instr

/-- A line of a method body. -/
inductive Line where
  | label (name : Text)
  | instr (instr : Instr)
deriving DecidableEq, Repr, Inhabited

/-- A line as text. -/
def Line.text : Line → Text
  | label name => name ++ ":\n"
  | instr i => "\t" ++ i.text ++ "\n"

end MiniJava.Jvm
