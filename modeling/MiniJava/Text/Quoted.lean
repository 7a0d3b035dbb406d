import MiniJava.Text.Basic
import MiniJava.Text.Printable

/-!
# Quoted texts

A text in double quotes, as messages and listings show it.  A quote and a backslash are escaped by
a backslash, seven control characters have a letter of their own, other characters that are not
printable are written by their code point in hexadecimal: two digits below 0x80, four below
0x10000, eight above.  A byte that belongs to no character has two digits as well.
-/

set_option autoImplicit false

namespace MiniJava.Text

/-- The hexadecimal digits of `n`, in lower case, padded with zeros to `width`. -/
def hexDigits (width n : Nat) : List Char :=
  let ds := Nat.toDigits 16 n
  List.replicate (width - ds.length) '0' ++ ds

/-- The value of a hexadecimal digit. -/
def hexDigit? (c : Char) : Option Nat :=
  if '0' ≤ c ∧ c ≤ '9' then some (c.toNat - '0'.toNat)
  else if 'a' ≤ c ∧ c ≤ 'f' then some (c.toNat - 'a'.toNat + 10)
  else if 'A' ≤ c ∧ c ≤ 'F' then some (c.toNat - 'A'.toNat + 10)
  else none

/-- The letter that stands for a control character after a backslash. -/
def escapeLetter? (c : Char) : Option Char :=
  match c.toNat with
  | 7 => some 'a'
  | 8 => some 'b'
  | 9 => some 't'
  | 10 => some 'n'
  | 11 => some 'v'
  | 12 => some 'f'
  | 13 => some 'r'
  | _ => none

/-- One character of a quoted text. -/
def quotedChar (c : Char) : List Char :=
  if c = '\x22' || c = '\\' then ['\\', c]
  else match escapeLetter? c with
    | some l => ['\\', l]
    | none =>
      if isPrintable c then [c]
      else if c.toNat < 0x80 then '\\' :: 'x' :: hexDigits 2 c.toNat
      else if c.toNat < 0x10000 then '\\' :: 'u' :: hexDigits 4 c.toNat
      else '\\' :: 'U' :: hexDigits 8 c.toNat

/-- One sign of a quoted text. -/
def quotedSign : Sign → List Char
  | .char c => quotedChar c
  | .byte b => '\\' :: 'x' :: hexDigits 2 b.toNat

/-- The text in double quotes. -/
def quoted (t : Text) : String :=
  String.ofList ('\x22' :: t.signs.flatMap quotedSign ++ ['\x22'])

end MiniJava.Text
