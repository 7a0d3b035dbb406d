import MiniJava.Yaml.Cursor

/-!
# Tokens

The words of a YAML text.  Indentation is made explicit: a block collection starts with a token of
its own and ends with `blockEnd`, and a key without a question mark has a `key` token before it all
the same.
-/

set_option autoImplicit false

namespace MiniJava.Yaml

/-- What a token is. -/
inductive Word where
  | streamStart
  | streamEnd
  | version (major minor : Nat)
  | tagHandle (handle stem : String)
  | documentStart
  | documentEnd
  | blockSequence
  | blockMapping
  | blockEnd
  | flowSequence
  | flowSequenceEnd
  | flowMapping
  | flowMappingEnd
  | entry
  | comma
  | key
  | value
  | aliasOf (name : String)
  | anchor (name : String)
  | tag (handle suffix : String)
  /-- A scalar; `plain` means that it stands without quotes. -/
  | scalar (text : String) (plain : Bool)
deriving DecidableEq, Repr, Inhabited

/-- A word with the places where it starts and ends. -/
structure Token where
  word : Word
  start : Mark
  stop : Mark
deriving DecidableEq, Repr, Inhabited

namespace Token

/-- Where a token starts, as messages show it. -/
def pos (t : Token) : Position := t.start.pos

/-- Where a token ends, as messages show it. -/
def endPos (t : Token) : Position := t.stop.pos

end Token

end MiniJava.Yaml
