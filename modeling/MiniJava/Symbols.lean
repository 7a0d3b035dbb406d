import MiniJava.Error
import MiniJava.Source.Syntax

/-!
# Symbol tables

What a program declares, with its type names resolved: the fields, and for each method its
signature with parameters and locals.  `Symbols.build` makes the table of a program; it refuses two
methods of one name, and a variadic parameter that is not the last.
-/

set_option autoImplicit false

namespace MiniJava

/-- A declared field, parameter or local, with its type. -/
structure Symbol where
  name : Text
  ty : Ty
  isPublic : Bool := false
  isStatic : Bool := false
  isFinal : Bool := false
deriving DecidableEq, Repr, Inhabited

/-- What a method declares. -/
structure Signature where
  name : Text
  isPublic : Bool := false
  isStatic : Bool := false
  ret : Ty
  params : List Symbol := []
  /-- The last parameter takes any number of arguments. -/
  varargs : Bool := false
  locals : List Symbol := []
deriving DecidableEq, Repr, Inhabited

namespace Signature

/-- The first parameter of a name. -/
def param? (s : Signature) (name : Text) : Option Symbol := s.params.find? (·.name == name)

/-- The first local of a name. -/
def local? (s : Signature) (name : Text) : Option Symbol := s.locals.find? (·.name == name)

end Signature

/-- An imported class, by the parts of its path. -/
structure ImportPath where
  path : List Text
  isInterface : Bool := false
deriving DecidableEq, Repr, Inhabited

namespace ImportPath

/-- The name that the class is referred to by: the last part of its path. -/
def name (i : ImportPath) : Text := i.path.getLastD ""

/-- The path with slashes. -/
def internal (i : ImportPath) : Text := Text.intercalate "/" i.path

end ImportPath

/-- The symbol table of a class. -/
structure Symbols where
  cls : Text
  super : Text := ""
  imports : List ImportPath := []
  fields : List Symbol := []
  methods : List Signature := []
deriving DecidableEq, Repr, Inhabited

namespace Symbols

/-- The signature of a method. -/
def method? (t : Symbols) (name : Text) : Option Signature := t.methods.find? (·.name == name)

/-- The first field of a name. -/
def field? (t : Symbols) (name : Text) : Option Symbol := t.fields.find? (·.name == name)

/-- The first import of a name. -/
def import? (t : Symbols) (name : Text) : Option ImportPath := t.imports.find? (·.name == name)

/-- The type that a name without suffix stands for, in the class `cls`. -/
def scalarType (cls name : Text) : Ty :=
  match name.string? with
  | some "int" => .int
  | some "boolean" | some "bool" => .bool
  | some "void" | some "" => .void
  | some "String" => .string
  | _ => .object name (name == cls)

/-- The type that a type name stands for, in the class `cls`. -/
def typeOf (cls : Text) (t : TypeName) : Ty :=
  if t.array then .array (scalarType cls t.name) else scalarType cls t.name

/-- The type that a type name stands for. -/
def type (t : Symbols) (n : TypeName) : Ty := typeOf t.cls n

/-- The symbol of a declaration in the class `cls`. -/
def symbolOf (cls : Text) (d : VarDecl) : Symbol :=
  { name := d.name, ty := typeOf cls d.type, isPublic := d.isPublic, isStatic := d.isStatic,
    isFinal := d.isFinal }

/-- The first variadic parameter that is not the last one. -/
def misplacedVarargs? : List VarDecl → Option VarDecl
  | [] | [_] => none
  | p :: rest => if p.type.varargs then some p else misplacedVarargs? rest

/-- The signature of a method in the class `cls`. -/
def signatureOf (cls : Text) (d : MethodDecl) : Except Error Signature :=
  match misplacedVarargs? d.params with
  | some p => .error { cause := .variadicNotLast p.pos d.name }
  | none => .ok
    { name := d.name, isPublic := d.isPublic, isStatic := d.isStatic, ret := typeOf cls d.ret,
      params := d.params.map (symbolOf cls), varargs := d.params.any (·.type.varargs),
      locals := d.locals.map (symbolOf cls) }

/-- The table with the signature of one more method. -/
def addMethod (t : Symbols) (d : MethodDecl) : Except Error Symbols := do
  if (t.method? d.name).isSome then throw { cause := .methodRedeclared d.pos d.name }
  let sig ← signatureOf t.cls d
  return { t with methods := t.methods ++ [sig] }

/-- The symbol table of a program. -/
def build (p : Program) : Except Error Symbols :=
  p.cls.methods.foldlM addMethod
    { cls := p.cls.name, super := p.cls.super,
      imports := p.imports.map fun i ↦ { path := i.path, isInterface := i.isInterface },
      fields := p.cls.fields.map (symbolOf p.cls.name) }

/-- The symbol table of a program that has to be there. -/
def ofProgram? : Option Program → Except Error Symbols
  | none => .error { cause := .noClass }
  | some p => build p

end Symbols

end MiniJava
