import MiniJava.Yaml.Fault

/-!
# Tags

The tag of a scalar without one is read off its text: the null and the booleans have a few spellings
each, then come dates, integers and floating-point numbers, and everything else is a string.  The
text of a scalar with such a tag has to agree with it: `taggedPlain?` is what it stands for then.

* An integer is decimal, or has a prefix for base two, eight or sixteen, a leading zero being one
  for base eight too.  It fits 64 bits, without a sign if it does not fit with one.
* A floating-point number is decimal and does not round to an infinity.
* Underscores between the digits count for nothing.
-/

set_option autoImplicit false

namespace MiniJava.Yaml

/-- The beginning of the tags that YAML itself defines. -/
def standardStem : String := "tag:yaml.org,2002:"

/-- The short form of a tag. -/
def shortTag (tag : String) : String :=
  if standardStem.toList.isPrefixOf tag.toList then
    "!!" ++ String.ofList (tag.toList.drop standardStem.length)
  else tag

namespace Numeric

/-- The number that one or more digits of a base denote. -/
def ofDigits? (base : Nat) : List Char → Option Nat
  | [] => none
  | cs => cs.foldlM (fun n c ↦ do
      let d ← Text.hexDigit? c
      if d < base then some (base * n + d) else none) 0

/-- The number that digits with or without a prefix for their base denote. -/
def magnitude? : List Char → Option Nat
  | '0' :: 'x' :: cs | '0' :: 'X' :: cs => ofDigits? 16 cs
  | '0' :: 'b' :: cs | '0' :: 'B' :: cs => ofDigits? 2 cs
  | '0' :: 'o' :: cs | '0' :: 'O' :: cs => ofDigits? 8 cs
  | '0' :: c :: cs => ofDigits? 8 (c :: cs)
  | cs => ofDigits? 10 cs

/-- Splits a sign off: whether there is one, and whether it is a minus. -/
def sign : List Char → Bool × Bool × List Char
  | '+' :: cs => (true, false, cs)
  | '-' :: cs => (true, true, cs)
  | cs => (false, false, cs)

/-- The number with its sign, if it fits 64 bits; one without sign may use the place of the sign. -/
def signed? (signed minus : Bool) (n : Nat) : Option Int :=
  if minus then if n ≤ 0x8000000000000000 then some (-n) else none
  else if n < (if signed then 0x8000000000000000 else 0x10000000000000000) then some n else none

/-- The integer of a text in the ordinary notation. -/
def plainInt? (cs : List Char) : Option Int :=
  let (signed, minus, digits) := sign cs
  (magnitude? digits).bind (signed? signed minus)

/-- The integer of a base after a prefix, with a sign of its own. -/
def basedInt? (base : Nat) (cs : List Char) : Option Int :=
  let (signed, minus, digits) := sign cs
  (ofDigits? base digits).bind (signed? signed minus)

/-- The integer of a text without underscores. -/
def int? (cs : List Char) : Option Int :=
  (plainInt? cs).or <| match cs with
    | '0' :: 'b' :: rest => basedInt? 2 rest
    | '-' :: '0' :: 'b' :: rest => basedInt? 2 ('-' :: rest)
    | '0' :: 'o' :: rest => basedInt? 8 rest
    | '-' :: '0' :: 'o' :: rest => basedInt? 8 ('-' :: rest)
    | _ => none

/-- Digits, up to the first character that is none. -/
def digits (cs : List Char) : List Char × List Char := cs.span Char.isDigit

/-- The number of a list of decimal digits. -/
def decimal (cs : List Char) : Nat := cs.foldl (fun n c ↦ 10 * n + (c.toNat - '0'.toNat)) 0

/-- The exponent after the digits of a number; `none` if what stands there is no exponent. -/
def exponent? : List Char → Option Int
  | [] => some 0
  | e :: cs =>
    if e == 'e' || e == 'E' then
      let (_, minus, rest) := sign cs
      let (ds, after) := digits rest
      if ds.isEmpty || !after.isEmpty then none
      else some (if minus then -(decimal ds : Int) else decimal ds)
    else none

/-- A decimal number stays below the infinity that rounding reaches from `2 ^ 1024 - 2 ^ 970` on. -/
def isFinite (mantissa : List Char) (exponent : Int) : Bool :=
  let ds := mantissa.dropWhile (· == '0')
  let bound : Nat := 1 <<< 1024 - 1 <<< 970
  if ds.isEmpty || ds.length + exponent < 309 then true
  else if 310 < ds.length + exponent then false
  else if 0 ≤ exponent then decimal ds * Nat.pow 10 exponent.toNat < bound
  else decimal ds < bound * Nat.pow 10 (-exponent).toNat

/-- The number `mantissa * 10 ^ exponent`. -/
structure Decimal where
  mantissa : Int
  exponent : Int
deriving DecidableEq, Repr, Inhabited

/-- The number of a sign, digits and an exponent, with the smallest mantissa there is. -/
def Decimal.ofDigits (minus : Bool) (ds : List Char) (exponent : Int) : Decimal :=
  let zeros := (ds.reverse.takeWhile (· == '0')).length
  let n : Int := decimal (ds.take (ds.length - zeros))
  if n = 0 then ⟨0, 0⟩ else ⟨if minus then -n else n, exponent + zeros⟩

/-- The decimal number of a text with digits before the point, after it or both. -/
def float? (cs : List Char) : Option Decimal :=
  let (_, minus, rest) := sign cs
  let (whole, afterWhole) := digits rest
  let (fraction, afterFraction) := match afterWhole with
    | '.' :: more => digits more
    | _ => ([], afterWhole)
  let ds := whole ++ fraction
  match exponent? afterFraction with
  | some e =>
    if !ds.isEmpty && isFinite ds (e - fraction.length) then
      some (.ofDigits minus ds (e - fraction.length))
    else none
  | none => none

/-- Every underscore of the text stands between two digits. -/
def separates : List Char → Bool
  | a :: '_' :: b :: rest => a.isDigit && b.isDigit && separates (b :: rest)
  | _ :: rest => rest.head? != some '_' && separates rest
  | [] => true

end Numeric

/-! ## Dates -/

namespace Date

/-- A number of at most `width` digits from `low` to `high`. -/
def field? (width low high : Nat) (cs : List Char) : Option (Nat × List Char) :=
  let ds := (cs.take width).takeWhile Char.isDigit
  let n := Numeric.decimal ds
  if !ds.isEmpty && low ≤ n && n ≤ high then some (n, cs.drop ds.length) else none

/-- The rest of a text after a character. -/
def after? (x : Char) : List Char → Option (List Char)
  | c :: cs => if c == x then some cs else none
  | [] => none

/-- The number of days of a month. -/
def monthLength (year month : Nat) : Nat :=
  if month = 2 then
    if year % 4 = 0 ∧ (year % 100 ≠ 0 ∨ year % 400 = 0) then 29 else 28
  else if month = 4 ∨ month = 6 ∨ month = 9 ∨ month = 11 then 30
  else 31

/-- The rest after a year of four digits, a month and a day. -/
def day? (cs : List Char) : Option (List Char) := do
  if (cs.takeWhile Char.isDigit).length ≠ 4 then none
  let (year, cs) ← field? 4 0 9999 cs
  let (month, cs) ← field? 2 1 12 (← after? '-' cs)
  let (_, cs) ← field? 2 1 (monthLength year month) (← after? '-' cs)
  return cs

/-- The rest after a time of day. -/
def time? (cs : List Char) : Option (List Char) := do
  let (_, cs) ← field? 2 0 23 cs
  let (_, cs) ← field? 2 0 59 (← after? ':' cs)
  let (_, cs) ← field? 2 0 59 (← after? ':' cs)
  match cs with
  | mark :: d :: rest =>
    if (mark == '.' || mark == ',') && d.isDigit then return rest.dropWhile Char.isDigit
    else return cs
  | _ => return cs

/-- The text is a distance from universal time. -/
def isZone : List Char → Bool
  | ['Z'] => true
  | [s, a, b, ':', c, d] =>
    (s == '+' || s == '-') && [a, b, c, d].all Char.isDigit &&
      Numeric.decimal [a, b] ≤ 24 && Numeric.decimal [c, d] ≤ 60
  | _ => false

/-- The text is a date, alone, with a time and a zone after a letter, or with a time after one or
more blanks. -/
def isDate (cs : List Char) : Bool :=
  match day? cs with
  | none => false
  | some [] => true
  | some (mark :: rest) =>
    if mark == 'T' || mark == 't' then (time? rest).any isZone
    else mark == ' ' && (time? (rest.dropWhile (· == ' '))).any List.isEmpty

end Date

/-! ## Plain scalars -/

/-- The spellings of the null. -/
def nulls : List String := ["", "~", "null", "Null", "NULL"]

/-- The spellings of the boolean that is true. -/
def trues : List String := ["true", "True", "TRUE"]

/-- The spellings of the boolean that is false. -/
def falses : List String := ["false", "False", "FALSE"]

/-- The spellings of what is no number, though a floating-point one. -/
def nans : List String := [".nan", ".NaN", ".NAN"]

/-- The spellings of infinity. -/
def infinities : List String := [".inf", ".Inf", ".INF", "+.inf", "+.Inf", "+.INF"]

/-- The spellings of negative infinity. -/
def negativeInfinities : List String := ["-.inf", "-.Inf", "-.INF"]

/-- What the text of a scalar stands for, if it is no string. -/
inductive Plain where
  | null
  | bool (value : Bool)
  | int (value : Int)
  | float (value : Numeric.Decimal)
  | infinity (negative : Bool)
  | nan
  | date (text : String)
deriving DecidableEq, Repr, Inhabited

/-- The tag of what a text stands for. -/
def Plain.tag : Plain → String
  | null => "!!null"
  | bool _ => "!!bool"
  | int _ => "!!int"
  | float _ | infinity _ | nan => "!!float"
  | date _ => "!!timestamp"

/-- The number or the date of a text; dates are looked for only if `dates` says so. -/
def numeric? (dates : Bool) (cs : List Char) : Option Plain :=
  let plain := cs.filter (· != '_')
  match cs with
  | '.' :: _ => if Numeric.separates cs then (Numeric.float? plain).map .float else none
  | c :: _ =>
    if !(c.isDigit || c == '+' || c == '-') then none
    else if dates && Date.isDate cs then some (.date (String.ofList cs))
    else ((Numeric.int? plain).map .int).or ((Numeric.float? plain).map .float)
  | [] => none

/-- What a text stands for, if it is no string; dates are looked for only if `dates` says so. -/
def plain? (dates : Bool) (text : String) : Option Plain :=
  if nulls.contains text then some .null
  else if trues.contains text then some (.bool true)
  else if falses.contains text then some (.bool false)
  else if nans.contains text then some .nan
  else if infinities.contains text then some (.infinity false)
  else if negativeInfinities.contains text then some (.infinity true)
  else numeric? dates text.toList

/-- The tag of a plain scalar without one. -/
def plainTag (text : String) : String := ((plain? true text).map Plain.tag).getD "!!str"

/-- The tags that a text has to agree with. -/
def checkedTags : List String := ["!!bool", "!!int", "!!float", "!!null", "!!timestamp"]

/-- What the text of a scalar with one of the checked tags stands for, if it agrees with the tag.
An integer that fits 64 bits with its sign is a floating-point number too. -/
def taggedPlain? (tag text : String) : Option Plain :=
  match plain? (tag == "!!timestamp") text with
  | some (.int n) =>
    if tag == "!!int" then some (.int n)
    else if tag == "!!float" && n < 0x8000000000000000 then
      some (.float (.ofDigits (n < 0) (toString n.natAbs).toList 0))
    else none
  | some p => if p.tag == tag then some p else none
  | none => none

end MiniJava.Yaml
