/-!
# Texts

The names, operators and literals of a program.  They are characters for the most part, but a text
can be given by its bytes, and then it may hold some that belong to no character.  Such bytes are
kept: two texts are the same only if all their bytes are.  Where a text is shown, each of them
appears as the replacement character.

A string is a text by coercion, and `Text.string?` is the way back.
-/

set_option autoImplicit false

namespace MiniJava

/-- A character, or a byte that belongs to none. -/
inductive Sign where
  | char (c : Char)
  | byte (b : UInt8)
deriving DecidableEq, Repr, Inhabited

namespace Sign

/-- The character, if it is one. -/
def char? : Sign → Option Char
  | char c => some c
  | byte _ => none

/-- The character that a sign is shown as. -/
def shown : Sign → Char
  | char c => c
  | byte _ => '\ufffd'

/-- The bytes of a sign. -/
def bytes : Sign → List UInt8
  | char c => (String.singleton c).toUTF8.data.toList
  | byte b => [b]

end Sign

/-- A sequence of signs. -/
structure Text where
  signs : List Sign
deriving DecidableEq, Repr, Inhabited

namespace Text

/-- The text of a string. -/
def ofString (s : String) : Text := ⟨s.toList.map .char⟩

instance : Coe String Text := ⟨ofString⟩

/-- One text after another. -/
def append (s t : Text) : Text := ⟨s.signs ++ t.signs⟩

instance : Append Text := ⟨append⟩

/-- The texts of a list one after another. -/
def join (ts : List Text) : Text := ⟨ts.flatMap signs⟩

/-- The texts of a list with another one between any two. -/
def intercalate (separator : Text) (ts : List Text) : Text :=
  ⟨separator.signs.intercalate (ts.map signs)⟩

/-- The parts of a text between the occurrences of a character. -/
def splitOn (separator : Char) (t : Text) : List Text :=
  (t.signs.splitOn (.char separator)).map mk

/-- The number of signs. -/
def length (t : Text) : Nat := t.signs.length

/-- A character a number of times. -/
def replicate (n : Nat) (c : Char) : Text := ⟨List.replicate n (.char c)⟩

/-- The text as it is shown. -/
def shown (t : Text) : String := String.ofList (t.signs.map Sign.shown)

instance : ToString Text := ⟨shown⟩

/-- The string that the text is, if it has only characters. -/
def string? (t : Text) : Option String := (t.signs.mapM Sign.char?).map String.ofList

/-- The bytes of a text. -/
def bytes (t : Text) : List UInt8 := t.signs.flatMap Sign.bytes

/-- The text comes before another one in the order of their bytes. -/
def isBefore (s t : Text) : Bool := s.bytes < t.bytes

@[simp] theorem signs_append (s t : Text) : (s ++ t).signs = s.signs ++ t.signs := rfl

@[simp] theorem signs_ofString (s : String) : (ofString s).signs = s.toList.map .char := rfl

/-- The string of a text that comes from one. -/
@[simp] theorem string?_ofString (s : String) : (ofString s).string? = some s := by
  have h (cs : List Char) : (cs.map Sign.char).mapM Sign.char? = some cs := by
    induction cs with
    | nil => rfl
    | cons c cs ih => simp [List.mapM_cons, ih, Sign.char?]
  simp [string?, h]

/-- A text with a string comes from it. -/
theorem eq_ofString_of_string? {t : Text} {s : String} (h : t.string? = some s) :
    t = ofString s := by
  obtain ⟨cs, hcs, rfl⟩ := Option.map_eq_some_iff.1 h
  clear h
  obtain ⟨signs⟩ := t
  rw [ofString, String.toList_ofList, Text.mk.injEq]
  induction signs generalizing cs with
  | nil =>
    cases hcs
    rfl
  | cons x signs ih =>
    rw [List.mapM_cons, Option.bind_eq_bind, Option.bind_eq_some_iff] at hcs
    obtain ⟨c, hc, hcs⟩ := hcs
    obtain ⟨ds, hds, hcs⟩ := Option.bind_eq_some_iff.1 hcs
    cases hcs
    cases x with
    | char d =>
      cases hc
      rw [List.map_cons, ← ih ds hds]
    | byte _ => cases hc

/-- Different strings are different texts. -/
theorem ofString_injective {s t : String} (h : ofString s = ofString t) : s = t := by
  have := congrArg string? h
  simpa using this

end Text

end MiniJava
