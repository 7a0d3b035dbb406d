import MiniJava.Jvm.Emitter

/-!
# Assembly text

The assembly of a class: its header, its fields, and its methods with the limits that the machine
needs, the depth of the stack and the number of slots.
-/

set_option autoImplicit false

namespace MiniJava.Jvm

open IR

/-- The number of slots of a method: those of the receiver and the parameters, and all up to the
last one named. -/
def slotLimit (m : Method) (e : Emitter) : Nat := max e.slots m.reserved

/-- The assembly of a method. -/
def methodText (c : ClassDef) (m : Method) (e : Emitter) : Text :=
  ".method " ++ (if m.isPublic then "public " else "") ++ (if m.isStatic then "static " else "") ++
    m.name ++ methodDescriptor c (m.params.map Param.ty) m.ret ++ "\n" ++
    "\t.limit stack " ++ toString e.maxDepth ++ "\n" ++
    "\t.limit locals " ++ toString (slotLimit m e) ++ "\n" ++
    Text.join (e.lines.map Line.text) ++
    ".end method\n"

/-- The assembly of a field. -/
def fieldText (c : ClassDef) (f : Field) : Text :=
  ".field " ++ (if f.access = .package then "" else f.access.text ++ " ") ++
    (if f.isStatic then "static " else "") ++ (if f.isFinal then "final " else "") ++
    f.name ++ " " ++ descriptor c f.ty ++ "\n"

/-- The assembly of a class up to its methods. -/
def headerText (c : ClassDef) : Text :=
  ".class public " ++ c.name ++ "\n.super " ++ c.superName ++ "\n" ++
    (if c.fields.isEmpty then "" else "\n") ++ Text.join (c.fields.map (fieldText c))

/-- The assembly of a class. -/
def assemble (c : ClassDef) : Except Error Text := do
  let methods ← c.methods.mapM fun m ↦ do
    let e ← withinPlace s!"method {m.name}" (emitMethod c m)
    return "\n" ++ methodText c m e
  return headerText c ++ Text.join methods

end MiniJava.Jvm
