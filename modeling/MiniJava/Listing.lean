import MiniJava.IR.ClassDef

/-!
# Listings

The text of intermediate code.  Every name is followed by its type, as in `x.i32`; an instruction
stands on a line of its own, ended by a semicolon, and a label stands on the line before.

The lines of a method are indented, and there are only so many columns: `method?` has no listing for
a depth beyond the margin.
-/

set_option autoImplicit false

namespace MiniJava.Listing

open IR

/-- The suffix that tells the type of a value. -/
def ty : Ty → Text
  | .int => ".i32"
  | .bool => ".bool"
  | .void | .absent => ".V"
  | .string => ".String"
  | .array elem => ".array" ++ ty elem
  | .object cls _ | .receiver cls => "." ++ cls

/-- The text of an operand. -/
def operand : Operand → Text
  | .literal text t => text ++ ty t
  | .var name t => name ++ ty t
  | .elem base index t => base ++ "[" ++ operand index ++ "]" ++ ty t
  | .missing => "<nil>"

/-- The text of a field as an instruction names it. -/
def fieldRef (f : FieldRef) : Text := f.name ++ ty f.ty

/-- What a call is made on. -/
def callTarget (c : Call) : Text :=
  match c.kind with
  | .static => c.cls ++ ", " ++ Text.quoted c.method
  | .newObject => c.cls
  | .newArray => "array"
  | .arrayLength => operand c.caller
  | _ => operand c.caller ++ ", " ++ Text.quoted c.method

/-- The text of a call. -/
def call (c : Call) : Text :=
  c.kind.text ++ "(" ++ callTarget c ++ Text.join (c.args.map fun a ↦ ", " ++ operand a) ++ ")" ++
    ty c.ret

/-- The text of an instruction. -/
def instr : Instr → Text
  | .assign dest t value => operand dest ++ " :=" ++ ty t ++ " " ++ instr value
  | .call c => call c
  | .binary op l r t => operand l ++ " " ++ op.text ++ ty t ++ " " ++ operand r
  | .unary op x t => op.text ++ ty t ++ " " ++ operand x
  | .single x => operand x
  | .ret .missing t => "ret" ++ ty t
  | .ret x t => "ret" ++ ty t ++ " " ++ operand x
  | .branch cond label => "if (" ++ instr cond ++ ") goto " ++ label
  | .goto label => "goto " ++ label
  | .putField .missing field value =>
    "putstatic(" ++ fieldRef field ++ ", " ++ operand value ++ ").V"
  | .putField object field value =>
    "putfield(" ++ operand object ++ ", " ++ fieldRef field ++ ", " ++ operand value ++ ").V"
  | .getField .missing field t => "getstatic(" ++ fieldRef field ++ ")" ++ ty t
  | .getField object field t =>
    "getfield(" ++ operand object ++ ", " ++ fieldRef field ++ ")" ++ ty t
  | .missing => "<" ++ Instr.missing.form ++ ">"

/-- The first line of a method. -/
def methodHead (m : Method) : Text :=
  (if m.isConstructor then ".construct " else ".method ") ++
    (if m.isPublic then "public " else "") ++ (if m.isStatic then "static " else "") ++
    (if m.varargs then "varargs " else "") ++ m.name ++ "(" ++
    Text.intercalate ", " (m.params.map fun p ↦ p.name ++ ty p.ty) ++ ")" ++ ty m.ret ++ " \x7b\n"

/-- Tabs. -/
def tabs (depth : Nat) : Text := .replicate depth '\t'

/-- The lines of the labels at an index. -/
def labelLines (m : Method) (depth index : Nat) : Text :=
  Text.join ((m.labels.namesAt index).map fun label ↦ tabs depth ++ label ++ ":\n")

/-- The listing of a method, indented. -/
def method (depth : Nat) (m : Method) : Text :=
  tabs depth ++ methodHead m ++
    Text.join (m.code.zipIdx.map fun (x, i) ↦
      labelLines m depth i ++ tabs (depth + 1) ++ instr x ++ ";\n") ++
    labelLines m depth m.code.length ++ tabs depth ++ "\x7d\n"

/-- The deepest indentation of a line. -/
def margin : Nat := 15

/-- The listing of a method at a depth, if all its lines are within the margin. -/
def method? (depth : Int) (m : Method) : Option Text :=
  let deepest := if m.code.isEmpty then depth else depth + 1
  if 0 ≤ depth ∧ deepest ≤ margin then some (method depth.toNat m) else none

/-- The line of a field. -/
def field (f : Field) : Text :=
  "\t.field " ++ (if f.access.text = "" then "" else f.access.text ++ " ") ++
    (if f.isStatic then "static " else "") ++ f.name ++ ty f.ty ++ ";\n"

/-- The superclass of a class, if it is told. -/
def extendsClause (c : ClassDef) : Text := if c.super = "" then "" else " extends " ++ c.super

/-- The listing of a class. -/
def cls (c : ClassDef) : Text :=
  Text.join (c.imports.map fun i ↦ "import " ++ i.path ++ ";\n") ++
    (if c.imports.isEmpty then "" else "\n") ++ c.name ++ extendsClause c ++ " \x7b\n" ++
    Text.join (c.fields.map field) ++
    Text.join (c.methods.map fun m ↦ "\n" ++ method 1 m) ++ "\x7d\n"

end MiniJava.Listing
