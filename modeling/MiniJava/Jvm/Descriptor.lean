import MiniJava.IR.ClassDef
import MiniJava.Jvm.Instr

/-!
# Descriptors

The text that stands for a type in the assembly of a class, and for the parameters and the result of
a method.  A class name is written in full, as the class resolves it.
-/

set_option autoImplicit false

namespace MiniJava.Jvm

open IR

/-- The descriptor of a type. -/
def descriptor (c : ClassDef) : Ty → Text
  | .int => "I"
  | .bool => "Z"
  | .void | .absent => "V"
  | .string => "Ljava/lang/String;"
  | .array elem => "[" ++ descriptor c elem
  | .object cls _ | .receiver cls => "L" ++ c.resolve cls ++ ";"

/-- The descriptor of a method. -/
def methodDescriptor (c : ClassDef) (params : List Ty) (ret : Ty) : Text :=
  joinDescriptor (params.map (descriptor c)) (descriptor c ret)

end MiniJava.Jvm
