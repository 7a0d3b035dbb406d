import MiniJava.Error

/-!
# Integer literals

The 32-bit integer that a text denotes: an optional sign and one or more ASCII digits, nothing else.

The characters are looked at from left to right, and the first thing that is wrong is the fault: a
character that is no digit, or a digit that takes the number past 32 bits.  Whether the number fits
with its sign is looked at last.
-/

set_option autoImplicit false

namespace MiniJava.Literal

/-- The value of an ASCII digit. -/
def digit? : Sign → Option Nat
  | .char c => if '0' ≤ c ∧ c ≤ '9' then some (c.toNat - '0'.toNat) else none
  | .byte _ => none

/-- The number that digits denote after digits that denote `n`, below `2 ^ 32`. -/
def digits (n : Nat) : List Sign → Except LiteralFault Nat
  | [] => .ok n
  | s :: ss =>
    match digit? s with
    | none => .error .notANumber
    | some d => if 10 * n + d < 0x100000000 then digits (10 * n + d) ss else .error .outOfRange

/-- The number that one or more digits denote, below `2 ^ 32`. -/
def magnitude : List Sign → Except LiteralFault Nat
  | [] => .error .notANumber
  | ss => digits 0 ss

/-- The integer that a list of signs denotes. -/
def ofSigns : List Sign → Except LiteralFault Int
  | .char '-' :: ss => do
    let n ← magnitude ss
    if n ≤ 0x80000000 then return -n else throw .outOfRange
  | ss => do
    let n ← magnitude (match ss with
      | .char '+' :: rest => rest
      | _ => ss)
    if n < 0x80000000 then return n else throw .outOfRange

/-- The integer that a text denotes. -/
def value (text : Text) : Except LiteralFault Int := ofSigns text.signs

/-- The integer that a text denotes, or the error that it denotes none. -/
def parse (text : Text) : Except Error Int :=
  (value text).mapError fun fault ↦ { cause := .literal text fault }

end MiniJava.Literal
