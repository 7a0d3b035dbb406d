import MiniJava.Yaml.Token

/-!
# Scalars

The texts of plain, quoted and block scalars.

In plain and quoted scalars a single line break counts as a space, and of several all but the first
are kept; the blanks around them are dropped.  A block scalar keeps its breaks (`|`) or joins its
lines in the same way (`>`), and its last breaks are dropped, kept or reduced to one.
-/

set_option autoImplicit false

namespace MiniJava.Yaml

/-! ## Blanks inside scalars -/

/-- A run of blanks and line breaks inside a scalar. -/
structure Gap where
  /-- The blanks before the first break. -/
  blanks : String := ""
  /-- The first break. -/
  first : String := ""
  /-- The other breaks. -/
  more : String := ""
  broken : Bool := false
deriving DecidableEq, Repr, Inhabited

namespace Gap

/-- What a run of blanks stands for between two words. -/
def text (g : Gap) : String :=
  if !g.broken then g.blanks
  else if g.first == "\n" then if g.more.isEmpty then " " else g.more
  else g.first ++ g.more

/-- The run with one more blank. -/
def addBlank (g : Gap) (c : Cursor) : Gap :=
  if g.broken then g else { g with blanks := g.blanks ++ String.ofList (c.rest.take 1) }

/-- The run with one more line break. -/
def addBreak (g : Gap) (c : Cursor) : Gap :=
  if g.broken then { g with more := g.more ++ c.breakText }
  else { g with blanks := "", first := c.breakText, broken := true }

/-- Reads on to the end of a run.  On a new line a tab may not stand before the column `indent`. -/
def read (indent : Nat) : Nat → Gap → Cursor → Except Malformed (Gap × Cursor)
  | 0, g, c => .ok (g, c)
  | fuel + 1, g, c => do
    if c.atBlank then
      if g.broken && decide (c.col < indent) && c.sees '\t' then
        c.fault "found a tab character that violates indentation"
      read indent fuel (g.addBlank c) (← c.next.need 1)
    else if c.atBreak then
      let c ← c.need 2
      read indent fuel (g.addBreak c) (← c.nextLine.need 1)
    else return (g, c)

end Gap

/-- A scalar that was read: its text, the place after it, and whether a line break comes before that
place. -/
structure Scanned where
  text : String
  after : Cursor
  broken : Bool := false
  /-- Where a comment starts that stands between the indicators of a block scalar and its text. -/
  comment : Option Mark := none
deriving DecidableEq, Repr, Inhabited

/-! ## Plain scalars -/

/-- The characters that stand by themselves inside brackets, and end a plain scalar there. -/
def isFlowMark (c : Char) : Bool :=
  c == ',' || c == '?' || c == '[' || c == ']' || c == '\x7b' || c == '\x7d'

/-- Reads a plain word, after the characters in `text`. -/
def plainWord (flow : Bool) : List Char → String → Cursor → Except Malformed (String × Cursor)
  | [], text, c => .ok (text, c)
  | x :: rest, text, c =>
    if isBlank x || isBreak x || (x == ':' && startsBlank rest) || (flow && isFlowMark x) then
      .ok (text, c)
    else do plainWord flow rest (text.push x) (← c.next.need 2)

/-- Reads the words of a plain scalar whose lines are indented by `indent`, after the words in
`text` and a gap. -/
def plainWords (flow : Bool) (indent : Nat) :
    Nat → String → Gap → Cursor → Except Malformed Scanned
  | 0, text, _, c => .ok { text, after := c }
  | fuel + 1, text, gap, c => do
    let c ← c.need 4
    if c.atDocument || c.sees '#' then return { text, after := c, broken := gap.broken }
    let (word, d) ← plainWord flow c.rest "" c
    if word.isEmpty then return { text, after := d, broken := gap.broken }
    let text := text ++ gap.text ++ word
    if !d.atBlank && !d.atBreak then return { text, after := d }
    let (gap, e) ← Gap.read indent d.size {} (← d.need 1)
    if !flow && decide (e.col < indent) then return { text, after := e, broken := gap.broken }
    plainWords flow indent fuel text gap e

/-- The plain scalar at a place. -/
def plainScalar (flow : Bool) (indent : Nat) (c : Cursor) : Except Malformed Scanned :=
  plainWords flow indent c.size "" {} c

/-! ## Quoted scalars -/

/-- The number that hexadecimal digits denote. -/
def hexValue? (cs : List Char) : Option Nat :=
  cs.foldlM (fun n c ↦ (Text.hexDigit? c).map fun d ↦ 16 * n + d) 0

/-- What the character after a backslash stands for. -/
def escape? : Char → Option Char
  | '0' => some '\x00'
  | 'a' => some '\x07'
  | 'b' => some '\x08'
  | 't' | '\t' => some '\t'
  | 'n' => some '\n'
  | 'v' => some '\x0b'
  | 'f' => some '\x0c'
  | 'r' => some '\r'
  | 'e' => some '\x1b'
  | ' ' => some ' '
  | '\x22' => some '\x22'
  | '\x27' => some '\x27'
  | '\\' => some '\\'
  | 'N' => some '\u0085'
  | '_' => some '\u00a0'
  | 'L' => some '\u2028'
  | 'P' => some '\u2029'
  | _ => none

/-- The number of digits after the letter of a numeric escape. -/
def escapeWidth? : Char → Option Nat
  | 'x' => some 2
  | 'u' => some 4
  | 'U' => some 8
  | _ => none

/-- Reads an escape that starts with a backslash, up to the place after it. -/
def escapeAt (c : Cursor) : Except Malformed (Char × Cursor) :=
  match c.rest.tail with
  | [] => c.fault "found unknown escape character"
  | x :: _ =>
    match escape? x, escapeWidth? x with
    | some y, _ => .ok (y, c.skip 2)
    | none, some width => do
      let d ← (c.skip 2).need width
      let digits := d.rest.take width
      match if digits.length < width then none else hexValue? digits with
      | none => c.fault "did not find expected hexdecimal number"
      | some n =>
        if n.isValidChar then return (Char.ofNat n, d.skip width)
        else c.fault "found invalid Unicode character escape code"
    | none, none => c.fault "found unknown escape character"

/-- Reads a word inside of quotes, after the characters in `text`; the answer tells whether a
backslash at its end joins it to the next line. -/
def quotedWord (single : Bool) : Nat → String → Cursor → Except Malformed (String × Bool × Cursor)
  | 0, text, c => .ok (text, false, c)
  | fuel + 1, text, c =>
    match c.rest with
    | [] => .ok (text, false, c)
    | x :: rest =>
      if isBlank x || isBreak x then .ok (text, false, c)
      else if single && x == '\x27' then
        if rest.head? == some '\x27' then do
          quotedWord single fuel (text.push x) (← (c.skip 2).need 2)
        else .ok (text, false, c)
      else if !single && x == '\x22' then .ok (text, false, c)
      else if !single && x == '\\' then
        if rest.head?.any isBreak then do
          let c ← c.need 3
          return (text, true, c.next.nextLine)
        else do
          let (y, d) ← escapeAt c
          quotedWord single fuel (text.push y) (← d.need 2)
      else do quotedWord single fuel (text.push x) (← c.next.need 2)

/-- Reads a quoted scalar on to its end, after the characters in `text`. -/
def quotedWords (single : Bool) : Nat → String → Cursor → Except Malformed (String × Cursor)
  | 0, _, c => c.fault "found unexpected end of stream"
  | fuel + 1, text, c => do
    let c ← c.need 4
    if c.atDocument then c.fault "found unexpected document indicator"
    if c.atEnd then c.fault "found unexpected end of stream"
    let (text, broken, d) ← quotedWord single c.size text c
    let d ← d.need 1
    if d.sees (if single then '\x27' else '\x22') then return (text, d.next)
    let (gap, e) ← Gap.read 0 d.size { broken } d
    quotedWords single fuel (text ++ gap.text) e

/-- The quoted scalar at a place. -/
def quotedScalar (single : Bool) (c : Cursor) : Except Malformed Scanned := do
  let (text, d) ← quotedWords single c.size "" c.next
  return { text, after := d }

/-! ## Block scalars -/

/-- What happens to the last line breaks of a block scalar. -/
inductive Chomp where
  | strip | clip | keep
deriving DecidableEq, Repr, Inhabited

/-- The chomping that an indicator asks for. -/
def Chomp.ofChar? : Char → Option Chomp
  | '+' => some .keep
  | '-' => some .strip
  | _ => none

/-- The chomping at a place, if it is told. -/
def chompAt (c : Cursor) : Except Malformed (Chomp × Cursor) := do
  let c ← c.need 1
  match c.peek?.bind Chomp.ofChar? with
  | some chomp => return (chomp, c.next)
  | none => return (.clip, c)

/-- The indentation at a place, if it is told; zero otherwise. -/
def incrementAt (c : Cursor) : Except Malformed (Nat × Cursor) := do
  let c ← c.need 1
  match c.peek? with
  | some x =>
    if x == '0' then c.fault "found an indentation indicator equal to 0"
    else if x.isDigit then return (x.toNat - '0'.toNat, c.next)
    else return (0, c)
  | none => return (0, c)

/-- The indicators of a block scalar, in either order. -/
def blockIndicators (c : Cursor) : Except Malformed (Chomp × Nat × Cursor) := do
  let c ← c.need 1
  if (c.peek?.bind Chomp.ofChar?).isSome then
    let (chomp, d) ← chompAt c
    let (increment, e) ← incrementAt d
    return (chomp, increment, e)
  else
    let (increment, d) ← incrementAt c
    if increment = 0 then return (.clip, 0, d)
    let (chomp, e) ← chompAt d
    return (chomp, increment, e)

/-- Moves past the spaces before the column `indent`; zero is one that is not known. -/
def skipIndent (indent : Nat) : Nat → Cursor → Except Malformed Cursor
  | 0, c => .ok c
  | fuel + 1, c =>
    if (indent = 0 || decide (c.col < indent)) && c.sees ' ' then do
      skipIndent indent fuel (← c.next.need 1)
    else .ok c

/-- Reads the indentation of lines on to the first that is not empty: the deepest indentation seen,
and the breaks.  An `indent` of zero is one that is not known yet. -/
def blockGap (indent : Nat) : Nat → Nat → String → Cursor →
    Except Malformed (Nat × String × Cursor)
  | 0, deepest, breaks, c => .ok (deepest, breaks, c)
  | fuel + 1, deepest, breaks, c => do
    let d ← skipIndent indent c.size (← c.need 1)
    let deepest := max deepest d.col
    if (indent = 0 || decide (d.col < indent)) && d.sees '\t' then
      d.fault "found a tab character where an indentation space is expected"
    else if d.atBreak then
      let d ← d.need 2
      blockGap indent fuel deepest (breaks ++ d.breakText) d.nextLine
    else return (deepest, breaks, d)

/-- What has been read of a block scalar: its text, the break after it and the empty lines after
that, and whether its last line starts with a blank. -/
structure BlockText where
  text : String := ""
  last : String := ""
  empties : String := ""
  indented : Bool := false
deriving DecidableEq, Repr, Inhabited

/-- Reads the lines of a block scalar. -/
def blockLines (literal : Bool) (indent : Nat) : Nat → BlockText → Cursor →
    Except Malformed (BlockText × Cursor)
  | 0, b, c => .ok (b, c)
  | fuel + 1, b, c => do
    if c.col ≠ indent || c.atEnd then return (b, c)
    let blank := c.atBlank
    let folds := !literal && !b.indented && !blank && b.last == "\n"
    let joint := if folds then if b.empties.isEmpty then " " else "" else b.last
    let (line, d) ← c.readWhile fun x ↦ !isBreak x
    let d ← d.need 2
    let (_, empties, e) ← blockGap indent d.size 0 "" d.nextLine
    blockLines literal indent fuel
      { text := b.text ++ joint ++ b.empties ++ line, last := d.breakText, empties,
        indented := blank } e

/-- The end of a line after the indicators of a block scalar, and where a comment before it
starts. -/
def blockHeaderEnd (c : Cursor) : Except Malformed (Option Mark × Cursor) := do
  let d ← c.skipBlanks
  let comment := if d.sees '#' then some d.mark else none
  let e ← if d.sees '#' then d.skipToBreak else pure d
  if startsBreak e.rest then return (comment, ← e.skipBreak)
  else e.fault "did not find expected comment or line break"

/-- The block scalar at a place, inside a block indented by `parent`. -/
def blockScalar (literal : Bool) (parent : Int) (c : Cursor) : Except Malformed Scanned := do
  let (chomp, increment, d) ← blockIndicators c.next
  let (comment, e) ← blockHeaderEnd d
  let told := if increment = 0 then 0 else increment + parent.toNat
  let (deepest, empties, f) ← blockGap told e.size 0 "" e
  let indent := if told = 0 then max (max deepest (parent + 1).toNat) 1 else told
  let (b, g) ← blockLines literal indent f.size { empties } (← f.need 1)
  let tail := match chomp with
    | .strip => ""
    | .clip => b.last
    | .keep => b.last ++ b.empties
  return { text := b.text ++ tail, after := g, comment }

end MiniJava.Yaml
