import MiniJava.Yaml.Token.Comment
import MiniJava.Yaml.Token.Property

/-!
# From text to tokens

A YAML text is cut into tokens from left to right.  Two things cannot be told at once.

* Where a block collection ends is told by the indentation of what follows: the indentations of the
  open blocks are kept on a stack, and a token further left closes the deeper ones.
* Whether something is a key is told by the colon after it: each place where a key may start is kept
  as a `Candidate`, and when its colon comes, a `key` token is put there.  A candidate is given up
  when its line ends, or 1024 characters later.  In a block, what stands where a key has to stand
  must turn out to be one.

Tokens are cut off only as they are wanted, so that a fault is met no earlier than that: the next
one is handed out when two more are known and it can no longer turn out to be a key.
-/

set_option autoImplicit false

namespace MiniJava.Yaml

/-- A place where a key may have started. -/
structure Candidate where
  /-- It may still turn out to be a key. -/
  possible : Bool := false
  /-- It stands where only a key can stand. -/
  required : Bool := false
  /-- The number of tokens before it. -/
  number : Nat := 0
  mark : Mark := {}
deriving DecidableEq, Repr, Inhabited

/-- The fault of a candidate that had to be a key. -/
def Candidate.fault {α : Type} (k : Candidate) : Except Malformed α :=
  .error { line := k.mark.line + 1, reason := "could not find expected ':'" }

/-- How far a text has been cut. -/
structure Layout where
  cursor : Cursor
  /-- The tokens that have not been handed out, the next one first. -/
  queue : List Token := []
  /-- The number of tokens that have been handed out. -/
  taken : Nat := 0
  /-- The indentation of the innermost block, and of those around it. -/
  indent : Int := -1
  outer : List Int := []
  /-- A key without question mark may start here. -/
  keyAllowed : Bool := true
  /-- The candidates outside of all brackets and inside of each open one, the innermost last. -/
  candidates : Array Candidate := #[{}]
  /-- The places among the candidates of those that start with the token of a number. -/
  starts : List (Nat × Nat) := []
  /-- The comments that no token has passed yet, the first one first. -/
  comments : List Comment := []
deriving DecidableEq, Repr, Inhabited

namespace Layout

/-- Inside of brackets. -/
def inFlow (s : Layout) : Bool := 1 < s.candidates.size

/-- The number of the next token. -/
def number (s : Layout) : Nat := s.taken + s.queue.length

/-- The candidate on the current level. -/
def current (s : Layout) : Candidate := s.candidates.back?.getD {}

/-- Changes the candidate on the current level. -/
def setCurrent (s : Layout) (k : Candidate) : Layout :=
  { s with candidates := s.candidates.pop.push k }

/-- Forgets that a candidate starts with the token of a number. -/
def forget (s : Layout) (number : Nat) : Layout :=
  { s with starts := s.starts.filter (·.1 != number) }

/-- Adds a token. -/
def push (s : Layout) (word : Word) (start stop : Mark) : Layout :=
  { s with queue := s.queue ++ [⟨word, start, stop⟩] }

/-- Puts a token before the one of a number, or behind all others if that one has been handed
out. -/
def insertAt (s : Layout) (number : Nat) (word : Word) (mark : Mark) : Layout :=
  let place := if number < s.taken then s.queue.length else number - s.taken
  { s with queue := s.queue.take place ++ ⟨word, mark, mark⟩ :: s.queue.drop place }

/-- Adds a token for the next `n` characters and moves past them. -/
def take (s : Layout) (word : Word) (n : Nat) : Layout :=
  let d := s.cursor.skip n
  { s.push word s.cursor.mark d.mark with cursor := d }

/-! ## Indentation -/

/-- The place before the comments after a block that are indented as the block was: from the last
comment backwards, as long as one follows the other. -/
def blockStop (indent : Int) : Mark → Int → List Comment → Mark
  | mark, _, [] => mark
  | mark, stop, k :: earlier =>
    if k.stop < stop then mark
    else
      blockStop indent (if (k.start.col : Int) = indent + 1 then k.start else mark) k.scan earlier

/-- Closes the blocks that are deeper than a column; the tokens for it stand at `mark`, or before
comments that belong behind the block. -/
def unrollFrom (column : Int) : Mark → Layout → List Int → Layout
  | _, s, [] => s
  | mark, s, previous :: rest =>
    if column < s.indent then
      let mark := blockStop s.indent mark mark.index s.comments.reverse
      unrollFrom column mark
        { s.push .blockEnd mark mark with indent := previous, outer := rest } rest
    else s

/-- Closes the blocks that are deeper than a column, after a place. -/
def unroll (s : Layout) (mark : Mark) (column : Int) : Layout :=
  if s.inFlow then s else unrollFrom column { mark with index := mark.index - 1 } s s.outer

/-- The greatest number of blocks, and of brackets, that may be open at once. -/
def maxDepth : Nat := 10000

/-- The fault of blocks or brackets that are nested too deeply. -/
def tooDeep {α : Type} (s : Layout) : Except Malformed α :=
  s.cursor.fault s!"exceeded max depth of {maxDepth}"

/-- Opens a block at a column, if it is deeper than the innermost one: its token comes before the
one of a number. -/
def roll (s : Layout) (column number : Nat) (word : Word) (mark : Mark) : Except Malformed Layout :=
  if s.inFlow || column ≤ s.indent then .ok s
  else if maxDepth ≤ s.outer.length then s.tooDeep
  else
    .ok { s.insertAt number word mark with indent := column, outer := s.indent :: s.outer }

/-! ## Candidates -/

/-- Gives up the candidate on the current level. -/
def dropCandidate (s : Layout) : Except Malformed Layout :=
  let k := s.current
  if !k.possible then .ok s
  else if k.required then k.fault
  else .ok ((s.setCurrent { k with possible := false }).forget k.number)

/-- Keeps this place as a candidate, if a key may start here. -/
def saveCandidate (s : Layout) : Except Malformed Layout := do
  if s.keyAllowed then
    let required := !s.inFlow && s.indent == s.cursor.col
    let t ← s.dropCandidate
    let k : Candidate := { possible := true, required, number := s.number, mark := s.cursor.mark }
    let t := t.setCurrent k
    return { t with starts := (k.number, t.candidates.size - 1) :: t.starts }
  else return s

/-- The candidate is on an earlier line, or too far away. -/
def isStale (s : Layout) (k : Candidate) : Bool :=
  k.mark.line < s.cursor.line || k.mark.index + 1024 < s.cursor.index

/-- Whether the candidate at a place may still turn out to be a key; one that may not is given up
for good. -/
def isLive (s : Layout) (place : Nat) : Except Malformed (Bool × Layout) :=
  match s.candidates[place]? with
  | none => .ok (false, s)
  | some k =>
    if !k.possible then .ok (false, s)
    else if !s.isStale k then .ok (true, s)
    else if k.required then k.fault
    else .ok (false, { s with
      candidates := s.candidates.modify place fun k ↦ { k with possible := false } })

/-! ## Blanks and comments -/

/-- The last token and the one before it. -/
def lastTwo (s : Layout) : Option Token × Option Token :=
  match s.queue.reverse with
  | a :: b :: _ => (some a, some b)
  | [a] => (some a, none)
  | [] => (none, none)

/-- A comment on the line of a hyphen that starts a sequence belongs to what comes next, if that is
on a later line. -/
def adoptComment (s : Layout) : Layout :=
  match s.comments.reverse, s.lastTwo with
  | k :: earlier, (some last, some before) =>
    if before.word == .blockSequence && last.word == .entry && k.place == .line &&
        !s.cursor.atBreak then
      let token := if k.start.line + 1 = s.cursor.line then s.cursor.mark.index else k.token
      { s with comments := ({ k with place := .head, token } :: earlier).reverse }
    else s
  | _, _ => s

/-- The token that comments from here on come after: a comma inside of brackets does not count. -/
def tokenBefore (s : Layout) : Token :=
  match s.lastTwo with
  | (some last, some before) => if last.word == .comma then before else last
  | (some last, none) => last
  | (none, _) => default

/-- Moves on to the next token.  Outside of brackets a tab may not stand where a key may start, and
a key may start on every new line.  At the start of a line a character is passed over if what was
last read in starts with a byte order mark. -/
def skipToToken (scan : Mark) : Nat → Layout → Except Malformed Layout
  | 0, s => .ok s
  | fuel + 1, s => do
    let c ← s.cursor.need 1
    let c := if c.col == 0 && c.window.marked then c.next else c
    let tabs := s.inFlow || !s.keyAllowed
    let c ← c.skipWhile fun x ↦ x == ' ' || (tabs && x == '\t')
    let s := { s with cursor := c }.adoptComment
    let s ← if c.sees '#' then do
        let (found, d) ← Comment.onLines s.inFlow s.indent s.tokenBefore scan c
        pure { s with cursor := d, comments := s.comments ++ found }
      else pure s
    if s.cursor.atBreak then
      skipToToken scan fuel
        { s with cursor := ← s.cursor.skipBreak, keyAllowed := s.keyAllowed || !s.inFlow }
    else return s

/-- Reads the comment on the line of the token that starts at an index.  After a hyphen there is
none: it belongs to what comes next. -/
def lineComment (s : Layout) (token : Int) : Except Malformed Layout := do
  match s.lastTwo with
  | (some ⟨.entry, _, _⟩, _) => return s
  | _ =>
    let (found, d) ← Comment.onLine token s.cursor
    return { s with cursor := d, comments := s.comments ++ found.toList }

/-- Drops the comments that a token passes.  The end of a block does not pass those that belong to
what comes next. -/
def passComments (t : Token) : List Comment → List Comment
  | [] => []
  | k :: later =>
    if k.token ≤ t.start.index && !(k.place == .head && t.word == .blockEnd) then
      passComments t later
    else k :: later

/-! ## Tokens -/

/-- Ends the stream.  An unfinished line counts as one. -/
def finish (s : Layout) : Except Malformed Layout := do
  let c := s.cursor
  let c := if c.col = 0 then c else { c with line := c.line + 1, col := 0 }
  let t ← ({ s with cursor := c }.unroll c.mark (-1)).dropCandidate
  return { t.push .streamEnd c.mark c.mark with keyAllowed := false }

/-- A directive. -/
def directive (s : Layout) : Except Malformed Layout := do
  let t ← (s.unroll s.cursor.mark (-1)).dropCandidate
  let (word, stop, d) ← directiveAt t.cursor
  return { t.push word t.cursor.mark stop with cursor := d, keyAllowed := false }

/-- A line that divides documents. -/
def documentMarker (s : Layout) (word : Word) : Except Malformed Layout := do
  let t ← (s.unroll s.cursor.mark (-1)).dropCandidate
  return { t.take word 3 with keyAllowed := false }

/-- An opening bracket. -/
def openFlow (s : Layout) (word : Word) : Except Malformed Layout := do
  let t ← s.saveCandidate
  if maxDepth < t.candidates.size then t.tooDeep
  let inner : Candidate := { number := t.number, mark := t.cursor.mark }
  return { t.take word 1 with candidates := t.candidates.push inner, keyAllowed := true }

/-- A closing bracket. -/
def closeFlow (s : Layout) (word : Word) : Except Malformed Layout := do
  let t ← s.dropCandidate
  let t := if t.inFlow then
      { t.forget t.current.number with candidates := t.candidates.pop }
    else t
  return { t.take word 1 with keyAllowed := false }

/-- A comma. -/
def comma (s : Layout) : Except Malformed Layout := do
  let t ← s.dropCandidate
  return { t.take .comma 1 with keyAllowed := true }

/-- A hyphen before an entry. -/
def entry (s : Layout) : Except Malformed Layout := do
  if !s.inFlow && !s.keyAllowed then
    s.cursor.fault "block sequence entries are not allowed in this context"
  let t ← (← s.roll s.cursor.col s.number .blockSequence s.cursor.mark).dropCandidate
  return { t.take .entry 1 with keyAllowed := true }

/-- A question mark before a key. -/
def explicitKey (s : Layout) : Except Malformed Layout := do
  if !s.inFlow && !s.keyAllowed then
    s.cursor.fault "mapping keys are not allowed in this context"
  let t ← (← s.roll s.cursor.col s.number .blockMapping s.cursor.mark).dropCandidate
  return { t.take .key 1 with keyAllowed := !s.inFlow }

/-- A colon before a value. -/
def value (s : Layout) : Except Malformed Layout := do
  let (live, s) ← s.isLive (s.candidates.size - 1)
  if live then
    let k := s.current
    let t ← (s.insertAt k.number .key k.mark).roll k.mark.col k.number .blockMapping k.mark
    let t := (t.setCurrent { k with possible := false }).forget k.number
    return { t.take .value 1 with keyAllowed := false }
  else if s.inFlow then return { s.take .value 1 with keyAllowed := false }
  else if !s.keyAllowed then
    s.cursor.fault "mapping values are not allowed in this context"
  else
    let t ← s.roll s.cursor.col s.number .blockMapping s.cursor.mark
    return { t.take .value 1 with keyAllowed := true }

/-- A word that may be a key, or a part of one. -/
def property (s : Layout) (read : Cursor → Except Malformed (Word × Cursor)) :
    Except Malformed Layout := do
  let t ← s.saveCandidate
  let (word, d) ← read t.cursor
  return { t.push word t.cursor.mark d.mark with cursor := d, keyAllowed := false }

/-- A plain or quoted scalar. -/
def scalar (s : Layout) (plain : Bool) (read : Cursor → Except Malformed Scanned) :
    Except Malformed Layout := do
  let t ← s.saveCandidate
  let r ← read t.cursor
  return { t.push (.scalar r.text plain) t.cursor.mark r.after.mark with
           cursor := r.after, keyAllowed := r.broken }

/-- A block scalar. -/
def block (s : Layout) (literal : Bool) : Except Malformed Layout := do
  let t ← s.dropCandidate
  let start := t.cursor.mark
  let r ← blockScalar literal t.indent t.cursor
  let found : List Comment := r.comment.toList.map fun mark ↦
    { place := .line, token := start.index, start := mark }
  return { t.push (.scalar r.text false) start r.after.mark with
           cursor := r.after, keyAllowed := true, comments := t.comments ++ found }

/-- The characters that cannot start a plain scalar. -/
def isIndicator (c : Char) : Bool :=
  isBlank c || isBreak c || isFlowMark c || c == '-' || c == '?' || c == ':' || c == '#' ||
    c == '&' || c == '*' || c == '!' || c == '|' || c == '>' || c == '\x27' || c == '\x22' ||
    c == '%' || c == '@' || c == '\x60'

/-- A plain scalar may start with a character: with a hyphen, and outside of brackets with a
question mark or a colon, if no blank follows. -/
def startsPlain (flow : Bool) (x : Char) (rest : List Char) : Bool :=
  !isIndicator x || (x == '-' && !rest.head?.any isBlank) ||
    (!flow && (x == '?' || x == ':') && !startsBlank rest)

/-- The token that starts with a character, which is not the first of its line or marks nothing
there. -/
def wordAt (s : Layout) (x : Char) (rest : List Char) : Except Malformed Layout :=
  let alone := startsBlank rest
  if x == '[' then s.openFlow .flowSequence
  else if x == '\x7b' then s.openFlow .flowMapping
  else if x == ']' then s.closeFlow .flowSequenceEnd
  else if x == '\x7d' then s.closeFlow .flowMappingEnd
  else if x == ',' then s.comma
  else if x == '-' && alone then s.entry
  else if x == '?' && (s.inFlow || alone) then s.explicitKey
  else if x == ':' && (s.inFlow || alone) then s.value
  else if x == '*' then s.property fun c ↦ do
    let (name, d) ← anchorName c
    return (.aliasOf name, d)
  else if x == '&' then s.property fun c ↦ do
    let (name, d) ← anchorName c
    return (.anchor name, d)
  else if x == '!' then s.property fun c ↦ do
    let (handle, suffix, d) ← tagAt c
    return (.tag handle suffix, d)
  else if x == '|' && !s.inFlow then s.block true
  else if x == '>' && !s.inFlow then s.block false
  else if x == '\x27' then s.scalar false (quotedScalar true)
  else if x == '\x22' then s.scalar false (quotedScalar false)
  else if startsPlain s.inFlow x rest then
    s.scalar true (plainScalar s.inFlow (s.indent + 1).toNat)
  else s.cursor.fault "found character that cannot start any token"

/-- The index of the token that a comment on the line of the next token belongs to: that of the
token before, if the next one is a colon in a block or a comma in brackets. -/
def commentToken (s : Layout) (x : Char) : Int :=
  match s.lastTwo.1 with
  | some last =>
    if (!s.inFlow && x == ':') || (s.inFlow && x == ',') then last.start.index
    else s.cursor.index
  | none => s.cursor.index

/-- Cuts the next token off. -/
def next (s : Layout) : Except Malformed Layout := do
  let c ← s.cursor.need 1
  let scan := c.mark
  let s ← skipToToken scan c.size { s with cursor := c }
  let s := s.unroll scan s.cursor.col
  let c ← s.cursor.need 4
  let s := { s with cursor := c }
  match c.rest with
  | [] => s.finish
  | x :: rest =>
    if c.col == 0 && x == '%' then s.directive
    else if c.atMarker '-' then s.documentMarker .documentStart
    else if c.atMarker '.' then s.documentMarker .documentEnd
    else (← s.wordAt x rest).lineComment (s.commentToken x)

/-- The next token can be handed out: two more are known, and it is no candidate any more. -/
def isReady (s : Layout) : Except Malformed (Bool × Layout) :=
  if s.queue.length < 3 then .ok (false, s)
  else match s.starts.lookup s.taken with
    | none => .ok (true, s)
    | some place => do
      let (live, s) ← s.isLive place
      return (!live, s)

/-- Cuts tokens off until the next one can be handed out. -/
def fill : Nat → Layout → Except Malformed Layout
  | 0, s => .ok s
  | fuel + 1, s => do
    let (ready, s) ← s.isReady
    if ready then return s else fill fuel (← s.next)

/-- Hands out tokens up to the end of the stream, or to a fault; those handed out before come
first. -/
def run : Nat → List Token → Layout → List Token × Option Malformed
  | 0, done, _ => (done.reverse, none)
  | fuel + 1, done, s =>
    match s.fill (s.cursor.size + 3) with
    | .error fault => (done.reverse, some fault)
    | .ok s =>
      match s.queue with
      | [] => (done.reverse, none)
      | t :: queue =>
        if t.word == .streamEnd then ((t :: done).reverse, none)
        else run fuel (t :: done)
          { s with queue, taken := s.taken + 1, comments := passComments t s.comments }

end Layout

/-- The tokens of a text, as far as they go, and the fault that follows them. -/
structure Tokens where
  items : Array Token
  fault : Option Malformed := none
deriving DecidableEq, Repr, Inhabited

namespace Tokens

/-- The tokens of a text. -/
def ofText (text : String) : Tokens :=
  let c := Cursor.ofText text
  match c.need 1 with
  | .error fault => { items := #[], fault := some fault }
  | .ok c =>
    let (items, fault) := Layout.run (4 * c.size + 4) []
      { cursor := c, queue := [⟨.streamStart, c.mark, c.mark⟩] }
    { items := items.toArray, fault }

/-- The token of a number; the end of the stream comes again and again. -/
def get (ts : Tokens) (n : Nat) : Except Malformed Token :=
  match ts.items[n]?, ts.fault with
  | some t, _ => .ok t
  | none, some fault => .error fault
  | none, none => .ok (ts.items.back?.getD default)

end Tokens

end MiniJava.Yaml
