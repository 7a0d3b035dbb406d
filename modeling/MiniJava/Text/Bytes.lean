import MiniJava.Text.Basic

/-!
# Bytes as text

Reading bytes as UTF-8, and bytes that are written in base 64.  A byte that belongs to no character
is kept as it is, so that reading never fails and loses nothing.
-/

set_option autoImplicit false

namespace MiniJava.Text

/-- The character that the first `n` bytes encode, if they encode one. -/
def charOfBytes? (n : Nat) (bytes : List UInt8) : Option Char :=
  if bytes.length < n then none
  else match (String.fromUTF8? ⟨(bytes.take n).toArray⟩).map String.toList with
    | some [c] => some c
    | _ => none

/-- The first sign of a list of bytes, and the number of bytes it takes. -/
def firstSign (first : UInt8) (rest : List UInt8) : Sign × Nat :=
  let found := [1, 2, 3, 4].findSome? fun n ↦
    (charOfBytes? n (first :: rest)).map fun c ↦ (Sign.char c, n)
  found.getD (.byte first, 1)

/-- The signs of at most `fuel` bytes. -/
def signsOfBytes : Nat → List UInt8 → List Sign
  | 0, _ | _, [] => []
  | fuel + 1, first :: rest =>
    let (sign, n) := firstSign first rest
    sign :: signsOfBytes fuel ((first :: rest).drop n)

/-- The text of a list of bytes. -/
def ofBytes (bytes : List UInt8) : Text := ⟨signsOfBytes bytes.length bytes⟩

/-! ## Base 64 -/

/-- The value of a digit of base 64. -/
def base64Digit? (c : Char) : Option Nat :=
  if 'A' ≤ c ∧ c ≤ 'Z' then some (c.toNat - 'A'.toNat)
  else if 'a' ≤ c ∧ c ≤ 'z' then some (c.toNat - 'a'.toNat + 26)
  else if '0' ≤ c ∧ c ≤ '9' then some (c.toNat - '0'.toNat + 52)
  else if c == '+' then some 62
  else if c == '/' then some 63
  else none

/-- The bytes of a number of 24 bits. -/
def threeBytes (n : Nat) : List UInt8 :=
  [UInt8.ofNat (n / 65536), UInt8.ofNat (n / 256), UInt8.ofNat n]

/-- The number that digits of base 64 denote. -/
def base64Number? (cs : List Char) : Option Nat :=
  cs.foldlM (fun n c ↦ (base64Digit? c).map fun d ↦ 64 * n + d) 0

/-- The bytes of groups of four digits, the last of which may be filled up with equals signs. -/
def base64Groups? : List Char → Option (List UInt8)
  | [] => some []
  | [a, b, '=', '='] => do return (threeBytes (← base64Number? [a, b, 'A', 'A'])).take 1
  | [a, b, c, '='] => do return (threeBytes (← base64Number? [a, b, c, 'A'])).take 2
  | a :: b :: c :: d :: rest => do
    let first ← base64Number? [a, b, c, d]
    return threeBytes first ++ (← base64Groups? rest)
  | _ => none

/-- The bytes that a string in base 64 stands for; line breaks in it count for nothing. -/
def ofBase64? (s : String) : Option (List UInt8) :=
  base64Groups? (s.toList.filter fun c ↦ c != '\n' && c != '\r')

end MiniJava.Text
