import MiniJava.Yaml.Token

/-!
# Comments

Comments stand for nothing, but they move the places where blocks end: a comment that is indented as
a block that has ended comes after the block, so the block ends before it.  For that the comments
that are not passed yet are kept, each with the span that was searched for it.

A comment on the line of a token belongs to that token.  Comments on lines of their own are read
together, and cut into those that belong to what comes before and those that belong to what comes
next.  They are looked for at most 512 bytes ahead.
-/

set_option autoImplicit false

namespace MiniJava.Yaml

/-- What a comment belongs to: the token on its line, what comes before it, or what comes next. -/
inductive CommentPlace where
  | line | foot | head
deriving DecidableEq, Repr, Inhabited

/-- A comment, which may take several lines. -/
structure Comment where
  place : CommentPlace
  /-- The index from which on a token has passed the comment. -/
  token : Int
  /-- Where it starts.  The column counts from one if it stands on a line of its own. -/
  start : Mark
  /-- The index where the search for it started. -/
  scan : Int := 0
  /-- The index where it ends; zero if it stands on the line of a token. -/
  stop : Int := 0
deriving DecidableEq, Repr, Inhabited

/-- How far comments are looked for. -/
def lookahead : Nat := 512

namespace Comment

/-! ## Comments on the line of a token -/

/-- The number of blanks before a comment, if there is nothing else before it; the list is what
follows `n` blanks. -/
def blanksBefore (n : Nat) : List Char → Cursor → Except Malformed (Option Nat × Cursor)
  | rest, c =>
    if lookahead ≤ n then .ok (none, c)
    else do
      let c ← c.need (n + 1)
      match rest with
      | x :: rest =>
        if isBlank x then blanksBefore (n + 1) rest c
        else return (if x == '#' then some n else none, c)
      | [] => return (none, c)

/-- The comment on the line of the token that starts at the index `token`, if the line goes on, and
the place after it. -/
def onLine (token : Int) (c : Cursor) : Except Malformed (Option Comment × Cursor) := do
  if 0 < c.breaks then return (none, c)
  let (blanks, c) ← blanksBefore 0 c.rest c
  match blanks with
  | none => return (none, c)
  | some n =>
    let d := c.skip n
    return (some { place := .line, token, start := d.mark }, ← d.skipToBreak)

/-! ## Comments on lines of their own -/

/-- What comments are read between. -/
structure Setting where
  /-- Inside of brackets. -/
  flow : Bool
  /-- The indentation of the block around them. -/
  indent : Nat
  /-- The token before them is a colon. -/
  afterValue : Bool
  /-- The line where a comment starts that can still belong to what comes before. -/
  footLine : Int
deriving DecidableEq, Repr, Inhabited

/-- The search for comments. -/
structure Search where
  /-- The comments found, the first one first. -/
  found : List Comment := []
  /-- The index where the search for the next one started. -/
  scan : Int
  /-- The index of the token that the next one belongs to. -/
  token : Int
  /-- Where the comment starts that is being read. -/
  start : Mark := {}
  /-- A comment is being read. -/
  isOpen : Bool := false
  /-- The line before was empty. -/
  afterEmpty : Bool := false
  /-- There was no empty line yet. -/
  noEmpty : Bool
  line : Nat
  col : Nat
deriving DecidableEq, Repr, Inhabited

namespace Search

/-- The comment that is being read starts further left than the block around it. -/
def dedented (s : Search) (t : Setting) : Bool := (s.start.col : Int) - 1 < t.indent

/-- Ends the comment that is being read at an index: it belongs to what comes before it. -/
def close (s : Search) (token stop : Int) : Search :=
  { s with found := s.found ++
             [{ place := .foot, token, start := s.start, scan := s.scan, stop }],
           scan := stop, token := stop, isOpen := false }

/-- What an empty line, the end of the text or a closing bracket at an index does to the comment
that is being read. -/
def atGap (s : Search) (t : Setting) (closes : Bool) (index : Int) : Search :=
  let ends := closes || (s.noEmpty &&
    (((s.start.line : Int) == t.footLine && !t.afterValue) || s.dedented t))
  if (closes || !s.afterEmpty) && ends && s.isOpen then
    s.close (if s.dedented t then s.start.index else s.token) index
  else s

/-- What a character that is no blank and no break does to the comment that is being read: it ends
if the line is indented less than the block, and otherwise than the comment. -/
def atLine (s : Search) (t : Setting) (index : Int) : Search :=
  if s.isOpen && decide ((s.col : Int) - 1 < t.indent) && s.col != s.start.col then
    s.close s.token index
  else s

/-- Starts a comment at an index, or goes on with the one that is being read. -/
def opened (s : Search) (index : Int) : Search :=
  { s with start := if s.isOpen then s.start else { index, line := s.line, col := s.col },
           isOpen := true, afterEmpty := false }

end Search

/-- Moves to the comment that starts at an index, over blanks and breaks, and on to the end of its
line. -/
def pass (start : Nat) : Nat → Cursor → Except Malformed Cursor
  | 0, c => c.skipToBreak
  | fuel + 1, c =>
    if start ≤ c.index then c.skipToBreak
    else do
      let c ← c.need 1
      if c.atBreak then pass start fuel (← c.skipBreak) else pass start fuel c.next

/-- Looks for comments from `n` bytes ahead on, where the text goes on with a list; `inside` says
that the byte there is not the first of its character.  The answer has the number of bytes ahead
where the search ended. -/
def search (t : Setting) :
    Nat → Nat → Bool → List Char → Search → Cursor → Except Malformed (Search × Nat × Cursor)
  | 0, n, _, _, s, c => .ok (s, n, c)
  | fuel + 1, n, inside, ahead, s, c => do
    if lookahead ≤ n then return (s, n, c)
    let c ← c.need (n + 1)
    let s := { s with col := s.col + 1 }
    let index : Int := c.index + n
    match if inside then some '\x00' else ahead.head? with
    | none => return (s.atGap t false index, n, c)
    | some x =>
      if isBlank x then search t fuel (n + 1) false ahead.tail s c
      else if t.flow && (x == ']' || x == '\x7d') then return (s.atGap t true index, n, c)
      else if isBreak x then
        let s := s.atGap t false index
        search t fuel (n + 1) (1 < x.utf8Size) ahead.tail
          { s with noEmpty := false, afterEmpty := true, col := 0, line := s.line + 1 } c
      else
        let s := s.atLine t index
        if x == '#' then
          let s := s.opened index
          let d ← pass (c.index + n) n c
          search t fuel 1 (d.peek?.any fun y ↦ 1 < y.utf8Size) d.rest.tail
            { s with col := 0, line := d.line } d
        else return (s, n, c)

/-- Reads the comments on the lines from here on; the search started at `scan`, and `last` is the
token before them. -/
def onLines (flow : Bool) (indent : Int) (last : Token) (scan : Mark) (c : Cursor) :
    Except Malformed (List Comment × Cursor) := do
  let footLine : Int :=
    if scan.line = 0 then -1
    else (c.line : Int) - c.breaks + 1 + (if c.breaks = 0 && 1 < c.col then 1 else 0)
  let t : Setting :=
    { flow, indent := indent.toNat, afterValue := last.word == .value, footLine }
  let s : Search :=
    { scan := scan.index, token := last.start.index, noEmpty := c.breaks ≤ 1, line := c.line,
      col := c.col }
  let (s, n, d) ← search t (2 * c.size + lookahead) 0 false c.rest s c
  let rest : List Comment :=
    if s.isOpen then
      [{ place := .head, token := s.start.index, start := s.start, scan := s.scan,
         stop := d.index + n - 1 }]
    else []
  return (s.found ++ rest, d)

end Comment

end MiniJava.Yaml
