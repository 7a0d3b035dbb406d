import MiniJava.Text.Quoted

/-!
# Faults of YAML texts and values

A text that is no YAML, or a scalar that contradicts its tag, is `Yaml.Malformed`: nothing can be
read from it.  A well-formed value of the wrong type is a `Yaml.Mismatch`; reading goes on after
one, so a declaration can have several.  `Yaml.Halt` is what ends the reading of a value at once.
-/

set_option autoImplicit false

namespace MiniJava.Yaml

/-- Why a text, or a value in it, cannot be read at all; `line` counts from one. -/
structure Malformed where
  line : Nat
  reason : String
deriving DecidableEq, Repr, Inhabited

/-- The message for a text that cannot be read. -/
def Malformed.message (m : Malformed) : String := s!"yaml: line {m.line}: {m.reason}"

/-- Why reading a value ended early. -/
inductive Halt where
  | malformed (what : Malformed)
  /-- A collection is among the keys of a mapping that includes others, where keys are compared. -/
  | collectionKey
deriving DecidableEq, Repr, Inhabited

/-- The message for a value that cannot be read. -/
def Halt.message : Halt → String
  | malformed what => what.message
  | collectionKey => "collection as a key cannot be compared"

/-- A value that does not fit the place it is read into. -/
inductive Mismatch where
  /-- The value has another type than `target`; `shown` is its text as it follows the tag. -/
  | type (line : Nat) (tag shown target : String)
  /-- The key occurs twice in one mapping, first at line `first`. -/
  | duplicateKey (line : Nat) (key : String) (first : Nat)
  /-- Two different keys of one mapping name the same field. -/
  | repeatedField (line : Nat) (field : String) (target : String)
deriving DecidableEq, Repr, Inhabited

/-- The message for one mismatch. -/
def Mismatch.message : Mismatch → String
  | type line tag shown target => s!"line {line}: cannot unmarshal {tag}{shown} into {target}"
  | duplicateKey line key first =>
    s!"line {line}: mapping key {Text.quoted key} already defined at line {first}"
  | repeatedField line field target =>
    s!"line {line}: field {field} already set in type {target}"

/-- The message for all mismatches of a declaration. -/
def Mismatch.messages (ms : List Mismatch) : String :=
  ms.foldl (fun acc m ↦ acc ++ "\n  " ++ m.message) "yaml: unmarshal errors:"

end MiniJava.Yaml
