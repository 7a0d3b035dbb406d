import MiniJava.Text.Basic

/-!
# Types

The types of the language: the integer, the boolean, `void`, strings, arrays and classes.

* `Ty.object cls own` is the class type `cls`; `own` says that `cls` is the class under compilation
  itself.
* `Ty.receiver cls` is the type of the receiver of an instance method of `cls`.  It names the same
  class as `Ty.object cls true` and is kept apart from it, because a constructor called on the
  receiver is the constructor of the superclass.
* `Ty.absent` stands where no type is stated: a value of which nothing is expected, or the element
  of something that is no array.  A method that states no return type returns nothing, so `absent`
  counts as void.
-/

set_option autoImplicit false

namespace MiniJava

/-- A type, or the absence of one. -/
inductive Ty where
  | absent
  | int
  | bool
  | void
  | string
  | array (elem : Ty)
  | object (cls : Text) (own : Bool)
  | receiver (cls : Text)
deriving DecidableEq, Repr, Inhabited

namespace Ty

/-- The type as messages show it. -/
def text : Ty → Text
  | absent => "<nil>"
  | int => "int"
  | bool => "boolean"
  | void => "void"
  | string => "String"
  | array elem => elem.text ++ "[]"
  | object cls _ => cls
  | receiver cls => "this." ++ cls

/-- Values of the type are references. -/
def isRef : Ty → Bool
  | string | array _ | object _ _ | receiver _ => true
  | absent | int | bool | void => false

/-- The type has no values. -/
def isVoid : Ty → Bool
  | absent | void => true
  | int | bool | string | array _ | object _ _ | receiver _ => false

/-- The type of the elements, `absent` for a type that is no array. -/
def elem : Ty → Ty
  | array elem => elem
  | absent | int | bool | void | string | object _ _ | receiver _ => absent

/-- The class that methods called on a value of the type belong to. -/
def className? : Ty → Option Text
  | object cls _ | receiver cls => some cls
  | string => some "String"
  | absent | int | bool | void | array _ => none

/-- A reference is never void. -/
theorem isVoid_eq_false_of_isRef {t : Ty} (h : t.isRef = true) : t.isVoid = false := by
  cases t <;> simp_all [isRef, isVoid]

end Ty

end MiniJava
