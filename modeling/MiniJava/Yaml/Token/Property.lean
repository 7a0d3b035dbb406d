import MiniJava.Text.Bytes
import MiniJava.Yaml.Token.Scalar

/-!
# Anchors, tags and directives

The words that start with `&`, `*`, `!` or `%`.
-/

set_option autoImplicit false

namespace MiniJava.Yaml

/-- A character of a name: an ASCII letter or digit, an underscore or a hyphen. -/
def isNameChar (c : Char) : Bool := c.isAlphanum || c == '_' || c == '-'

/-- The characters that may follow the name of an anchor directly. -/
def endsAnchor : List Char → Bool
  | [] => true
  | c :: _ =>
    isBlank c || isBreak c || c == '?' || c == ':' || c == ',' || c == ']' || c == '\x7d' ||
      c == '%' || c == '@' || c == '\x60'

/-- The name of the anchor or alias at a place. -/
def anchorName (c : Cursor) : Except Malformed (String × Cursor) := do
  let (name, d) ← c.next.readWhile isNameChar
  if name.isEmpty || !endsAnchor d.rest then
    c.fault "did not find expected alphabetic or numeric character"
  else return (name, d)

/-! ## Tags -/

/-- A character of a tag, the percent sign of an escape included.  A comma and brackets count too,
inside of brackets as well. -/
def isTagChar (c : Char) : Bool :=
  isNameChar c || c == ';' || c == '/' || c == '?' || c == ':' || c == '@' || c == '&' ||
    c == '=' || c == '+' || c == '$' || c == ',' || c == '.' || c == '!' || c == '~' || c == '*' ||
    c == '\x27' || c == '(' || c == ')' || c == '[' || c == ']' || c == '%'

/-- The number of bytes of a character whose first byte is given. -/
def octetCount? (first : UInt8) : Option Nat :=
  if first < 0x80 then some 1
  else if first &&& 0xe0 == 0xc0 then some 2
  else if first &&& 0xf0 == 0xe0 then some 3
  else if first &&& 0xf8 == 0xf0 then some 4
  else none

/-- The byte that is escaped at a place. -/
def octetAt (c : Cursor) : Except Malformed (UInt8 × Cursor) := do
  let c ← c.need 3
  match c.rest with
  | '%' :: a :: b :: _ =>
    match Text.hexDigit? a, Text.hexDigit? b with
    | some m, some n => return (UInt8.ofNat (16 * m + n), c.skip 3)
    | _, _ => c.fault "did not find URI escaped octet"
  | _ => c.fault "did not find URI escaped octet"

/-- The `count` bytes of a character that follow its first one. -/
def trailingOctets : Nat → Cursor → Except Malformed (List UInt8 × Cursor)
  | 0, c => .ok ([], c)
  | count + 1, c => do
    let (octet, d) ← octetAt c
    if octet &&& 0xc0 != 0x80 then c.fault "found an incorrect trailing UTF-8 octet"
    let (more, e) ← trailingOctets count d
    return (octet :: more, e)

/-- The bytes of the character that is escaped at a place: as many as the first one asks for. -/
def octetsAt (c : Cursor) : Except Malformed (List UInt8 × Cursor) := do
  let (first, d) ← octetAt c
  match octetCount? first with
  | none => c.fault "found an incorrect leading UTF-8 octet"
  | some count =>
    let (more, e) ← trailingOctets (count - 1) d
    return (first :: more, e)

/-- Reads the characters of a tag as bytes, after those in `text`. -/
def tagBytes : Nat → List UInt8 → Cursor → Except Malformed (List UInt8 × Cursor)
  | 0, text, c => .ok (text, c)
  | fuel + 1, text, c =>
    match c.peek? with
    | none => .ok (text, c)
    | some x =>
      if x == '%' then do
        let (octets, d) ← octetsAt c
        tagBytes fuel (text ++ octets) (← d.need 1)
      else if isTagChar x then do
        tagBytes fuel (text ++ [UInt8.ofNat x.toNat]) (← c.next.need 1)
      else .ok (text, c)

/-- The tag characters at a place. -/
def tagChars (c : Cursor) : Except Malformed (String × Cursor) := do
  let (bytes, d) ← tagBytes c.size [] (← c.need 1)
  return ((Text.ofBytes bytes).shown, d)

/-- The handle at a place: an exclamation mark, a name, and another mark if there is one. -/
def tagHandle (c : Cursor) : Except Malformed (String × Cursor) := do
  let c ← c.need 1
  if !c.sees '!' then c.fault "did not find expected '!'"
  let (name, d) ← c.next.readWhile isNameChar
  if d.sees '!' then return ("!" ++ name ++ "!", d.next) else return ("!" ++ name, d)

/-- The tag at a place, as its handle and the rest of it; a tag in angle brackets and the tag `!`
have no handle. -/
def tagAt (c : Cursor) : Except Malformed (String × String × Cursor) := do
  let c ← c.need 2
  let (handle, suffix, e) ←
    if c.next.sees '<' then
      let (text, d) ← tagChars (c.skip 2)
      if text.isEmpty then c.fault "did not find expected tag URI"
      else if !d.sees '>' then c.fault "did not find the expected '>'"
      else pure ("", text, d.next)
    else
      let (handle, d) ← tagHandle c
      let (text, e) ← tagChars d
      if 1 < handle.length && handle.endsWith "!" then
        if text.isEmpty then c.fault "did not find expected tag URI"
        else pure (handle, text, e)
      else
        let suffix := String.ofList handle.toList.tail ++ text
        if suffix.isEmpty then pure ("", "!", e) else pure ("!", suffix, e)
  let e ← e.need 1
  if startsBlank e.rest then return (handle, suffix, e)
  else c.fault "did not find expected whitespace or line break"

/-! ## Directives -/

/-- Reads the digits of a number, after some that denote `value`; only `room` more may follow. -/
def versionDigits : Nat → Nat → Cursor → Except Malformed (Nat × Cursor)
  | room, value, c =>
    match c.peek? with
    | some x =>
      if x.isDigit then
        match room with
        | 0 => c.fault "found extremely long version number"
        | room + 1 => do
          versionDigits room (10 * value + (x.toNat - '0'.toNat)) (← c.next.need 1)
      else .ok (value, c)
    | none => .ok (value, c)

/-- The number at a place, of one or two digits. -/
def versionNumber (c : Cursor) : Except Malformed (Nat × Cursor) := do
  let c ← c.need 1
  if c.peek?.any Char.isDigit then versionDigits 2 0 c
  else c.fault "did not find expected version number"

/-- The version of a version directive. -/
def versionDirective (c : Cursor) : Except Malformed (Word × Cursor) := do
  let (major, d) ← versionNumber (← c.skipBlanks)
  if !d.sees '.' then d.fault "did not find expected digit or '.' character"
  let (minor, e) ← versionNumber d.next
  return (.version major minor, e)

/-- The handle and the stem of a tag directive. -/
def tagDirective (c : Cursor) : Except Malformed (Word × Cursor) := do
  let d ← c.skipBlanks
  let (handle, e) ← tagHandle d
  if !handle.endsWith "!" then d.fault "did not find expected '!'"
  let e ← e.need 1
  if !e.atBlank then e.fault "did not find expected whitespace"
  let (stem, f) ← tagChars (← e.skipBlanks)
  if stem.isEmpty then e.fault "did not find expected tag URI"
  let f ← f.need 1
  if !startsBlank f.rest then f.fault "did not find expected whitespace or line break"
  return (.tagHandle handle stem, f)

/-- The directive at a place and where it ends, up to the end of its line. -/
def directiveAt (c : Cursor) : Except Malformed (Word × Mark × Cursor) := do
  let (name, d) ← c.next.readWhile isNameChar
  if name.isEmpty then c.fault "could not find expected directive name"
  if !startsBlank d.rest then c.fault "found unexpected non-alphabetical character"
  let (word, e) ← match name with
    | "YAML" => versionDirective d
    | "TAG" => tagDirective d
    | _ => c.fault "found unknown directive name"
  let f ← e.skipBlanks
  let g ← if f.sees '#' then f.skipToBreak else pure f
  if !startsBreak g.rest then c.fault "did not find expected comment or line break"
  return (word, e.mark, ← g.skipBreak)

end MiniJava.Yaml
