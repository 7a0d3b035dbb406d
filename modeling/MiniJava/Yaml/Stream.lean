import MiniJava.Yaml.Node
import MiniJava.Yaml.Tag
import MiniJava.Yaml.Token.Layout

/-!
# Streams of documents

The documents of a text.  They are built one after another from the tokens, so the documents before
a fault are there even so.

The first document may start anywhere, a later one starts with `---`.  A value that is left out is
an empty plain scalar.  An anchor holds for the rest of the stream, or until its name is used again,
and it holds inside of the collection that it names already.
-/

set_option autoImplicit false

namespace MiniJava.Yaml

/-- What an anchor names: a node, which may have references to unfinished collections around it, or
such a collection. -/
inductive Anchored where
  | node (n : Node) (loose : Bool)
  | opened (number : Nat) (head : Head) (isMapping : Bool)
deriving Repr, Inhabited

/-- How far the tokens have been read. -/
structure Builder where
  /-- The number of the next token; the first one is the start of the stream. -/
  next : Nat := 1
  anchors : List (String × Anchored) := []
  /-- The handles of tags that the document declares, and what they stand for. -/
  handles : List (String × String) := []
  /-- The number of the next anchored collection. -/
  number : Nat := 0
  /-- The numbers of the anchored collections that are still open. -/
  unfinished : List Nat := []
deriving Repr, Inhabited

/-- Steps of building nodes from tokens. -/
abbrev BuildM := ReaderT Tokens (StateT Builder (Except Malformed))

namespace Builder

/-- The next token. -/
def peek : BuildM Token := do (← read).get (← get).next

/-- Moves past the next token. -/
def advance : BuildM Unit := modify fun b ↦ { b with next := b.next + 1 }

/-- Stops at a place. -/
def fault {α : Type} (pos : Position) (reason : String) : BuildM α :=
  throw { line := pos.line, reason }

/-- A value that is left out. -/
def empty (pos : Position) : Node := .scalar ⟨pos, plainTag ""⟩ ""

/-- Names a node, if there is a name for it. -/
def bind (name : Option String) (a : Anchored) : BuildM Unit :=
  match name with
  | some name => modify fun b ↦ { b with anchors := (name, a) :: b.anchors }
  | none => pure ()

/-! ## Anchors and tags -/

/-- The anchor and the tag of a node, and where it starts. -/
structure Properties where
  anchor : Option String := none
  tag : Option String := none
  pos : Position
deriving DecidableEq, Repr, Inhabited

/-- The handles that need no declaration. -/
def defaultHandles : List (String × String) := [("!", "!"), ("!!", standardStem)]

/-- The full tag of a handle and a suffix. -/
def resolveTag (pos : Position) (handle suffix : String) : BuildM String := do
  if handle = "" then return suffix
  match ((← get).handles ++ defaultHandles).lookup handle with
  | some stem => return stem ++ suffix
  | none => fault pos "found undefined tag handle"

/-- Reads the tag at the next token, if there is one. -/
def tag? : BuildM (Option String) := do
  let t ← peek
  match t.word with
  | .tag handle suffix =>
    advance
    return some (← resolveTag t.pos handle suffix)
  | _ => return none

/-- Reads the anchor at the next token, if there is one. -/
def anchor? : BuildM (Option String) := do
  match (← peek).word with
  | .anchor name =>
    advance
    return some name
  | _ => return none

/-- Reads an anchor and a tag, in either order. -/
def properties : BuildM Properties := do
  let pos := (← peek).pos
  match ← anchor? with
  | some name => return { anchor := some name, tag := ← tag?, pos }
  | none =>
    let tag ← tag?
    let anchor ← if tag.isSome then anchor? else pure none
    return { anchor, tag, pos }

/-- The tag of a node that states none, or only that it has one. -/
def tagOr (tag : Option String) (default : String) : String :=
  match tag with
  | some t => if t = "!" then default else shortTag t
  | none => default

/-- A scalar with its properties. -/
def scalarNode (p : Properties) (text : String) (plain : Bool) : BuildM Node := do
  let default := if !plain then "!!str" else if text = "<<" then "!!merge" else plainTag text
  let n := Node.scalar ⟨p.pos, tagOr p.tag default⟩ text
  bind p.anchor (.node n false)
  return n

/-- Starts a collection with an anchor, which holds inside of it already: gives its number. -/
def start (name : String) (head : Head) (isMapping : Bool) : BuildM Nat := do
  let b ← get
  set { b with number := b.number + 1, unfinished := b.number :: b.unfinished }
  bind (some name) (.opened b.number head isMapping)
  return b.number

/-- Ends the collection of a number: the references to it inside of it, and inside of the nodes that
are named already, lead to it. -/
def finish (number : Nat) (n : Node) : BuildM Node := do
  let b ← get
  let unfinished := b.unfinished.filter (· != number)
  let loose := n.isLoose unfinished
  let whole := Node.close number n loose n
  let finished : Anchored → Anchored
    | .opened k h m => if k = number then .node whole (whole.isLoose unfinished) else .opened k h m
    | .node m false => .node m false
    | .node m true =>
      let m := Node.close number n loose m
      .node m (m.isLoose unfinished)
  set { b with unfinished, anchors := b.anchors.map fun (a, x) ↦ (a, finished x) }
  return whole

/-- Reads a collection with its properties. -/
def collection (p : Properties) (isMapping : Bool) (content : Head → BuildM Node) :
    BuildM Node := do
  let head : Head := ⟨p.pos, tagOr p.tag (if isMapping then "!!map" else "!!seq")⟩
  match p.anchor with
  | none => content head
  | some name =>
    let number ← start name head isMapping
    finish number (← content head)

/-- Reads an alias. -/
def aliasNode (pos : Position) (name : String) : BuildM Node := do
  match (← get).anchors.lookup name with
  | some (.node n loose) => return .aliasOf pos name n loose
  | some (.opened number head isMapping) => return .enclosing pos name number head isMapping
  | none => fault pos s!"unknown anchor '{name}' referenced"

/-! ## Nodes -/

/-- A node that has properties but no content. -/
def emptyNode (p : Properties) (t : Token) : BuildM Node :=
  if p.anchor.isSome || p.tag.isSome then scalarNode p "" true
  else fault t.pos "did not find expected node content"

/-- The token starts no node in a block mapping. -/
def endsBlockPart : Word → Bool
  | .key | .value | .blockEnd => true
  | _ => false

mutual

/-- Reads a node.  Blocks are read only if `block` says so, and a sequence that is not indented
further than the mapping around it only if `level` says so. -/
def node : Nat → Bool → Bool → BuildM Node
  | 0, _, _ => do fault (← peek).pos "exceeded max depth"
  | fuel + 1, block, level => do
    let t ← peek
    match t.word with
    | .aliasOf name =>
      advance
      aliasNode t.pos name
    | _ =>
      let p ← properties
      let t ← peek
      match t.word with
      | .entry =>
        if level then
          collection p false fun head ↦ return .sequence head (← levelItems fuel)
        else emptyNode p t
      | .scalar text plain =>
        advance
        scalarNode p text plain
      | .flowSequence =>
        advance
        collection p false fun head ↦ return .sequence head (← flowItems fuel true)
      | .flowMapping =>
        advance
        collection p true fun head ↦ return .mapping head (← flowEntries fuel true)
      | .blockSequence =>
        if block then
          advance
          collection p false fun head ↦ return .sequence head (← blockItems fuel)
        else emptyNode p t
      | .blockMapping =>
        if block then
          advance
          collection p true fun head ↦ return .mapping head (← blockEntries fuel)
        else emptyNode p t
      | _ => emptyNode p t
termination_by structural fuel => fuel

/-- Reads the items of a block sequence. -/
def blockItems : Nat → BuildM (List Node)
  | 0 => return []
  | fuel + 1 => do
    let t ← peek
    match t.word with
    | .entry =>
      advance
      let item ← match (← peek).word with
        | .entry | .blockEnd => pure (empty t.endPos)
        | _ => node fuel true false
      return item :: (← blockItems fuel)
    | .blockEnd =>
      advance
      return []
    | _ => fault t.pos "did not find expected '-' indicator"
termination_by structural fuel => fuel

/-- Reads the items of a sequence that is not indented further than the mapping around it. -/
def levelItems : Nat → BuildM (List Node)
  | 0 => return []
  | fuel + 1 => do
    let t ← peek
    match t.word with
    | .entry =>
      advance
      let item ← match (← peek).word with
        | .entry | .key | .value | .blockEnd => pure (empty t.endPos)
        | _ => node fuel true false
      return item :: (← levelItems fuel)
    | _ => return []
termination_by structural fuel => fuel

/-- Reads the entries of a block mapping. -/
def blockEntries : Nat → BuildM (List (Node × Node))
  | 0 => return []
  | fuel + 1 => do
    let t ← peek
    match t.word with
    | .key =>
      advance
      let key ← if endsBlockPart (← peek).word then pure (empty t.endPos) else node fuel true true
      let value ← blockValue fuel
      return (key, value) :: (← blockEntries fuel)
    | .blockEnd =>
      advance
      return []
    | _ => fault t.pos "did not find expected key"
termination_by structural fuel => fuel

/-- Reads the value of an entry of a block mapping. -/
def blockValue : Nat → BuildM Node
  | 0 => do return empty (← peek).pos
  | fuel + 1 => do
    let t ← peek
    match t.word with
    | .value =>
      advance
      if endsBlockPart (← peek).word then return empty t.endPos else node fuel true true
    | _ => return empty t.pos
termination_by structural fuel => fuel

/-- Reads the items of a sequence in brackets. -/
def flowItems : Nat → Bool → BuildM (List Node)
  | 0, _ => return []
  | fuel + 1, first => do
    let t ← peek
    if t.word != .flowSequenceEnd && !first then
      if t.word != .comma then fault t.pos "did not find expected ',' or ']'"
      advance
    let t ← peek
    match t.word with
    | .flowSequenceEnd =>
      advance
      return []
    | .key =>
      advance
      let pair ← flowPair fuel t.pos
      return pair :: (← flowItems fuel false)
    | _ =>
      let item ← node fuel false false
      return item :: (← flowItems fuel false)
termination_by structural fuel => fuel

/-- Reads a single entry inside of a sequence in brackets: a mapping by itself. -/
def flowPair : Nat → Position → BuildM Node
  | 0, pos => return empty pos
  | fuel + 1, pos => do
    let t ← peek
    let key ← match t.word with
      | .value | .comma | .flowSequenceEnd =>
        advance
        pure (empty t.endPos)
      | _ => node fuel false false
    let t ← peek
    let value ← match t.word with
      | .value =>
        advance
        match (← peek).word with
        | .comma | .flowSequenceEnd => pure (empty t.pos)
        | _ => node fuel false false
      | _ => pure (empty t.pos)
    return .mapping ⟨pos, "!!map"⟩ [(key, value)]
termination_by structural fuel => fuel

/-- Reads the entries of a mapping in brackets. -/
def flowEntries : Nat → Bool → BuildM (List (Node × Node))
  | 0, _ => return []
  | fuel + 1, first => do
    let t ← peek
    if t.word != .flowMappingEnd && !first then
      if t.word != .comma then fault t.pos "did not find expected ',' or '\x7d'"
      advance
    let t ← peek
    match t.word with
    | .flowMappingEnd =>
      advance
      return []
    | .key =>
      advance
      let t ← peek
      let key ← match t.word with
        | .value | .comma | .flowMappingEnd => pure (empty t.pos)
        | _ => node fuel false false
      let value ← flowValue fuel
      return (key, value) :: (← flowEntries fuel false)
    | _ =>
      let key ← node fuel false false
      let value := empty (← peek).pos
      return (key, value) :: (← flowEntries fuel false)
termination_by structural fuel => fuel

/-- Reads the value of an entry of a mapping in brackets. -/
def flowValue : Nat → BuildM Node
  | 0 => do return empty (← peek).pos
  | fuel + 1 => do
    if (← peek).word == .value then
      advance
      let t ← peek
      match t.word with
      | .comma | .flowMappingEnd => return empty t.pos
      | _ => node fuel false false
    else return empty (← peek).pos
termination_by structural fuel => fuel

end

/-! ## Documents -/

/-- Reads the directives before a document; `versioned` says that there was a version already. -/
def directives : Nat → Bool → BuildM Unit
  | 0, _ => return
  | fuel + 1, versioned => do
    let t ← peek
    match t.word with
    | .version major minor =>
      if versioned then fault t.pos "found duplicate %YAML directive"
      if major ≠ 1 || minor ≠ 1 then fault t.pos "found incompatible YAML document"
      advance
      directives fuel true
    | .tagHandle handle stem =>
      let b ← get
      if (b.handles.lookup handle).isSome then fault t.pos "found duplicate %TAG directive"
      set { b with handles := b.handles ++ [(handle, stem)], next := b.next + 1 }
      directives fuel versioned
    | _ => return

/-- The token starts no content of a document. -/
def endsDocument : Word → Bool
  | .version _ _ | .tagHandle _ _ | .documentStart | .documentEnd | .streamEnd => true
  | _ => false

/-- Passes over the ends of documents. -/
def skipEnds : Nat → BuildM Unit
  | 0 => return
  | fuel + 1 => do
    if (← peek).word == .documentEnd then
      advance
      skipEnds fuel
    else return

/-- Reads the next document, if there is one.  Only the first one may start without `---`. -/
def document? (fuel : Nat) (first : Bool) : BuildM (Option Node) := do
  modify fun b ↦ { b with handles := [] }
  unless first do skipEnds fuel
  let t ← peek
  if t.word == .streamEnd then return none
  let n ←
    if first && (!endsDocument t.word || t.word == .documentEnd) then node fuel true false
    else
      directives fuel false
      let t ← peek
      if t.word != .documentStart then fault t.pos "did not find expected <document start>"
      advance
      let t ← peek
      if endsDocument t.word then pure (empty t.pos) else node fuel true false
  if (← peek).word == .documentEnd then advance
  return some n

/-- Reads documents as long as there are any. -/
def documents (ts : Tokens) (size : Nat) : Nat → Bool → Builder → List Node × Option Malformed
  | 0, _, _ => ([], none)
  | fuel + 1, first, b =>
    match (document? size first).run ts |>.run b with
    | .error fault => ([], some fault)
    | .ok (none, _) => ([], none)
    | .ok (some n, b) =>
      let (rest, fault) := documents ts size fuel false b
      (n :: rest, fault)

end Builder

/-- The documents of a text, and the fault that ends it early. -/
structure Stream where
  documents : List Node
  fault : Option Malformed := none
deriving Repr, Inhabited

/-- The documents of a text. -/
def Stream.ofText (text : String) : Stream :=
  let ts := Tokens.ofText text
  let size := 2 * ts.items.size + 8
  let (documents, fault) := Builder.documents ts size size true {}
  { documents, fault }

end MiniJava.Yaml
