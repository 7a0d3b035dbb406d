import MiniJava.IR.Method

/-!
# Classes of the intermediate code

A class with the classes it imports.  `ClassDef.resolve` gives the full name that a class name
stands for: the class itself comes first, then the imports in order, then the two classes of the
language library that are known without an import.
-/

set_option autoImplicit false

namespace MiniJava.IR

/-- An imported class: the name it is referred to by, and its path with slashes. -/
structure Import where
  name : Text
  path : Text
  isInterface : Bool := false
deriving DecidableEq, Repr, Inhabited

/-- Who may use a member; `package` is the default. -/
inductive Access where
  | package | pub | priv | prot
deriving DecidableEq, Repr, Inhabited

/-- The keyword of an access, empty for the default. -/
def Access.text : Access → String
  | package => ""
  | pub => "public"
  | priv => "private"
  | prot => "protected"

/-- A field. -/
structure Field where
  name : Text
  ty : Ty
  access : Access := .package
  isStatic : Bool := false
  isFinal : Bool := false
deriving DecidableEq, Repr, Inhabited

/-- A class; `super` is empty for one that extends nothing. -/
structure ClassDef where
  name : Text
  super : Text := ""
  imports : List Import := []
  fields : List Field := []
  methods : List Method := []
deriving DecidableEq, Repr, Inhabited

namespace ClassDef

/-- The class that every other one extends. -/
def root : Text := "java/lang/Object"

/-- The import of a name. -/
def import? (c : ClassDef) (name : Text) : Option Import := c.imports.find? (·.name == name)

/-- The field of a name. -/
def field? (c : ClassDef) (name : Text) : Option Field := c.fields.find? (·.name == name)

/-- The method of a name. -/
def method? (c : ClassDef) (name : Text) : Option Method := c.methods.find? (·.name == name)

/-- The classes known without an import. -/
def builtin? (name : Text) : Option Text :=
  match name.string? with
  | some "String" => some ("java/lang/String" : String)
  | some "Object" => some root
  | _ => none

/-- The full name of the class that a name stands for. -/
def resolve (c : ClassDef) (name : Text) : Text :=
  if name = c.name then name
  else match c.import? name with
    | some i => i.path
    | none => (builtin? name).getD name

/-- The full name of the superclass. -/
def superName (c : ClassDef) : Text := if c.super = "" then root else c.resolve c.super

/-- A class refers to itself by its own name, whatever it imports. -/
@[simp] theorem resolve_name (c : ClassDef) : c.resolve c.name = c.name := by simp [resolve]

end ClassDef

end MiniJava.IR
