import MiniJava.Source.Position
import MiniJava.Yaml.Fault

/-!
# Cursors

A place in a text: what is left to read, and how many lines, columns and characters lie before.
Lines and columns count from zero here, since columns are compared with indentations; `Mark.pos` is
the place as messages show it.

A text is read in blocks of 512 bytes, each when something in it is looked at for the first time.
`Cursor.need` does that: a character that may not stand in a text is a fault from then on, and not
before.  The `Window` of a cursor says how far the text has been read in.

A line break is a line feed, a carriage return with or without one, or one of the three breaks that
Unicode adds.
-/

set_option autoImplicit false

namespace MiniJava.Yaml

/-! ## Characters -/

/-- A space or a tab. -/
def isBlank (c : Char) : Bool := c == ' ' || c == '\t'

/-- A character that ends a line. -/
def isBreak (c : Char) : Bool :=
  c == '\n' || c == '\r' || c == '\u0085' || c == '\u2028' || c == '\u2029'

/-- A character that may stand in a text. -/
def isAllowed (c : Char) : Bool :=
  let n := c.toNat
  n == 0x09 || n == 0x0a || n == 0x0d || (0x20 ≤ n && n ≤ 0x7e) || n == 0x85 ||
    (0xa0 ≤ n && n ≤ 0xfffd) || 0x10000 ≤ n

/-- The text starts with a blank or a line break, or is over. -/
def startsBlank : List Char → Bool
  | [] => true
  | c :: _ => isBlank c || isBreak c

/-- The text starts with a line break, or is over. -/
def startsBreak : List Char → Bool
  | [] => true
  | c :: _ => isBreak c

/-! ## Windows -/

/-- How far a text has been read in. -/
structure Window where
  /-- The number of characters that have been read in.  The end of the text counts as one, anew each
  time that it is found. -/
  loaded : Nat := 0
  /-- The numbers of characters up to the ends of the blocks that are left. -/
  blocks : List Nat
  /-- The block after those has a character that may not stand in a text. -/
  tainted : Bool := false
  /-- What was still needed of the text when a block was last read in started with a byte order
  mark. -/
  marked : Bool := false
deriving DecidableEq, Repr, Inhabited

namespace Window

/-- The number of bytes of a block. -/
def blockSize : Nat := 512

/-- The numbers of characters up to the end of each block: of `count` characters before, the last
block has room up to the byte `limit`, and `offset` bytes are taken.  A character that does not fit
starts the next block. -/
def blockEnds (limit offset count : Nat) : List Char → List Nat
  | [] => [count]
  | c :: rest =>
    if offset + c.utf8Size ≤ limit then blockEnds limit (offset + c.utf8Size) (count + 1) rest
    else count :: blockEnds (offset + blockSize) (offset + c.utf8Size) (count + 1) rest

/-- The window of a text of which nothing has been read, after `offset` bytes that do not count. -/
def ofChars (offset : Nat) (cs : List Char) : Window :=
  let ends := blockEnds blockSize offset 0 cs
  match cs.findIdx? fun c ↦ !isAllowed c with
  | some i => { blocks := ends.takeWhile (· ≤ i), tainted := true }
  | none => { blocks := ends }

/-- The window after reading in blocks until there are `count` characters; `none` if a character
among them may not stand in a text. -/
def load? (w : Window) (count : Nat) : Option Window :=
  match w.blocks.dropWhile (· < count) with
  | loaded :: blocks => some { w with loaded, blocks }
  | [] =>
    if w.tainted then none
    else some { w with loaded := w.blocks.getLastD w.loaded + 1, blocks := [] }

end Window

/-! ## Places -/

/-- A place by its line, its column and the number of characters before it. -/
structure Mark where
  index : Int := 0
  line : Nat := 0
  col : Nat := 0
deriving DecidableEq, Repr, Inhabited

/-- The place as messages show it. -/
def Mark.pos (m : Mark) : Position := ⟨m.line + 1, m.col + 1⟩

/-- A place in a text. -/
structure Cursor where
  rest : List Char
  line : Nat := 0
  col : Nat := 0
  index : Nat := 0
  /-- The number of line breaks since the last character that is no blank. -/
  breaks : Nat := 0
  window : Window
  /-- A bound on the number of steps to the end of the text. -/
  size : Nat
deriving DecidableEq, Repr, Inhabited

namespace Cursor

/-- The start of a text.  A byte order mark there counts for nothing. -/
def ofText (text : String) : Cursor :=
  let (offset, rest) := match text.toList with
    | '\ufeff' :: rest => (3, rest)
    | cs => (0, cs)
  { rest, window := .ofChars offset rest, size := rest.length + 1 }

/-- The place by itself. -/
def mark (c : Cursor) : Mark := { index := c.index, line := c.line, col := c.col }

/-- The fault of a text at this place. -/
def fault {α : Type} (c : Cursor) (reason : String) : Except Malformed α :=
  .error { line := c.line + 1, reason }

/-- The next character. -/
def peek? (c : Cursor) : Option Char := c.rest.head?

/-- Makes sure that the next `n` characters have been read in. -/
def need (c : Cursor) (n : Nat) : Except Malformed Cursor :=
  if c.index + n ≤ c.window.loaded then .ok c
  else match c.window.load? (c.index + n) with
    | some w => .ok { c with window := { w with marked := c.peek? == some '\ufeff' } }
    | none => c.fault "control characters are not allowed"

/-- The next character is the one given. -/
def sees (c : Cursor) (x : Char) : Bool := c.peek? == some x

/-- The next character is a blank. -/
def atBlank (c : Cursor) : Bool := c.peek?.any isBlank

/-- The next character ends a line. -/
def atBreak (c : Cursor) : Bool := c.peek?.any isBreak

/-- Nothing is left to read. -/
def atEnd (c : Cursor) : Bool := c.rest.isEmpty

/-- The place after the next character of a line. -/
def next (c : Cursor) : Cursor :=
  { c with rest := c.rest.tail, col := c.col + 1, index := c.index + 1,
           breaks := if c.atBlank then c.breaks else 0 }

/-- The place after `n` characters of a line. -/
def skip (c : Cursor) : Nat → Cursor
  | 0 => c
  | n + 1 => c.next.skip n

/-- The place after the line break here, if there is one. -/
def nextLine (c : Cursor) : Cursor :=
  let after (rest : List Char) (n : Nat) : Cursor :=
    { c with rest, line := c.line + 1, col := 0, index := c.index + n, breaks := c.breaks + 1 }
  match c.rest with
  | '\r' :: '\n' :: rest => after rest 2
  | x :: rest => if isBreak x then after rest 1 else c
  | [] => c

/-- The place after the line break here, if there is one, with all of it read in before. -/
def skipBreak (c : Cursor) : Except Malformed Cursor :=
  if c.atBreak then do return (← c.need 2).nextLine else .ok c

/-- The text that the line break here stands for; the breaks that Unicode adds for lines and
paragraphs stand for themselves. -/
def breakText (c : Cursor) : String :=
  match c.rest with
  | x :: _ =>
    if x == '\u2028' || x == '\u2029' then String.singleton x else if isBreak x then "\n" else ""
  | [] => ""

/-- Reads the characters of a list as long as they satisfy `p`, each read in before it is looked
at; the list is what is left of the text. -/
def readList (p : Char → Bool) : List Char → String → Cursor → Except Malformed (String × Cursor)
  | x :: xs, text, c =>
    if p x then do readList p xs (text.push x) (← c.next.need 1) else .ok (text, c)
  | [], text, c => .ok (text, c)

/-- Reads the characters of a line that satisfy `p`. -/
def readWhile (c : Cursor) (p : Char → Bool) : Except Malformed (String × Cursor) := do
  let c ← c.need 1
  readList p c.rest "" c

/-- Moves past the characters of a line that satisfy `p`. -/
def skipWhile (c : Cursor) (p : Char → Bool) : Except Malformed Cursor := do
  let (_, d) ← c.readWhile p
  return d

/-- Moves past the blanks. -/
def skipBlanks (c : Cursor) : Except Malformed Cursor := c.skipWhile isBlank

/-- Moves to the end of the line. -/
def skipToBreak (c : Cursor) : Except Malformed Cursor := c.skipWhile fun x ↦ !isBreak x

/-- A line here starts with three times a character, followed by a blank or the end of the line. -/
def atMarker (c : Cursor) (x : Char) : Bool :=
  c.col == 0 && c.rest.take 3 == [x, x, x] && startsBlank (c.rest.drop 3)

/-- A line here divides documents. -/
def atDocument (c : Cursor) : Bool := c.atMarker '-' || c.atMarker '.'

end Cursor

end MiniJava.Yaml
