import MiniJava.Text.Bytes
import MiniJava.Yaml.Node
import MiniJava.Yaml.Tag

/-!
# Values of nodes

A node read as a string, as a boolean or as a record with named fields.  Aliases are followed.  The
null leaves what it is read into as it is.

A value of another type is a `Mismatch`, and reading goes on: a record reports the mismatches of all
its fields.  A text that contradicts its tag is `Malformed`, and so is a record that includes itself
and one in which nearly everything comes from aliases; that ends the reading at once.

A record can include others under the key `<<`.  Its own fields come first, then those of the
included ones that it lacks.  To tell which these are, all its keys are read for what they are, and
compared by value; a collection cannot be compared.  A collection among the keys is read with all
that it holds, and what it holds may be malformed in its turn.
-/

set_option autoImplicit false

namespace MiniJava.Yaml

/-! ## Mismatches -/

/-- The text of a mismatched scalar: all of it, or the first bytes of a long one. -/
def shortened (text : Text) : String :=
  if 10 < text.bytes.length then (Text.ofBytes (text.bytes.take 7)).shown ++ "..."
  else text.shown

/-- The text of a mismatched node as it follows its tag: a short text in backquotes.  After the tag
of a collection it is the text as it is, empty unless a scalar claims to be one. -/
def shownText (tag : String) (text : Text) : String :=
  if tag == "!!seq" || tag == "!!map" then text.shown else s!" `{shortened text}`"

/-- The mismatch of a node with a tag and a text. -/
def mismatchOf (head : Head) (text : Text) (target : String) : Mismatch :=
  .type head.pos.line head.tag (shownText head.tag text) target

/-- Two keys are the same: of one kind and with one text. -/
def Node.sameKey : Node → Node → Bool
  | .scalar _ s, .scalar _ t => s == t
  | .sequence _ _, .sequence _ _ => true
  | .mapping _ _, .mapping _ _ => true
  | .aliasOf _ a _ _, .aliasOf _ b _ _ | .aliasOf _ a _ _, .enclosing _ b _ _ _
  | .enclosing _ a _ _ _, .aliasOf _ b _ _ | .enclosing _ a _ _ _, .enclosing _ b _ _ _ => a == b
  | _, _ => false

/-- The keys that occur again further on. -/
def duplicateKeys : List Node → List Mismatch
  | [] => []
  | k :: rest =>
    (rest.filter k.sameKey).map (fun n ↦ .duplicateKey n.pos.line n.text.shown k.pos.line) ++
      duplicateKeys rest

/-- A mapping read into something else: repeated keys are found first. -/
def mappingMismatch (head : Head) (entries : List (Node × Node)) (target : String) :
    List Mismatch :=
  match duplicateKeys (entries.map Prod.fst) with
  | [] => [mismatchOf head "" target]
  | found => found

/-! ## Reading -/

/-- A scalar by its value. -/
inductive Key where
  | plain (value : Plain)
  | text (text : Text)
deriving DecidableEq, Repr, Inhabited

/-- The value of a field. -/
inductive FieldValue where
  | text (t : Text)
  | flag (b : Bool)
deriving DecidableEq, Repr, Inhabited

/-- What has been read so far. -/
structure Progress where
  mismatches : List Mismatch := []
  /-- The fields of a record. -/
  fields : List (String × FieldValue) := []
  /-- The number of nodes that were read. -/
  steps : Nat := 0
  /-- The number of those among them that aliases led to. -/
  aliased : Nat := 0
  /-- The keys that an included mapping cannot set any more, while one is read. -/
  taken : Option (List Key) := none
deriving DecidableEq, Repr, Inhabited

/-- Aliases led to too large a part of what was read: to more than 99 in 100 nodes of up to 400000,
to more than 10 in 100 of 4000000 and more, and in between the part shrinks evenly. -/
def Progress.isExcessive (p : Progress) : Bool :=
  100 < p.aliased && 1000 < p.steps &&
    if p.steps ≤ 400000 then 99 * p.steps < 100 * p.aliased
    else if 4000000 ≤ p.steps then p.steps < 10 * p.aliased
    else p.steps * (356400000 - 89 * (p.steps - 400000)) < 360000000 * p.aliased

/-- Steps of reading. -/
abbrev ReadM := StateT Progress (Except Halt)

namespace ReadM

/-- Stops at a place. -/
def fault {α : Type} (pos : Position) (reason : String) : ReadM α :=
  throw (.malformed { line := pos.line, reason })

/-- Reports mismatches. -/
def report (found : List Mismatch) : ReadM Unit :=
  modify fun p ↦ { p with mismatches := p.mismatches ++ found }

/-- Counts the node at a place; `inside` says that an alias led to it. -/
def countNode (inside : Bool) (pos : Position) : ReadM Unit := do
  let p ← get
  let p := { p with steps := p.steps + 1, aliased := p.aliased + if inside then 1 else 0 }
  if p.isExcessive then fault pos "document contains excessive aliasing"
  set p

/-- Changes which keys an included mapping cannot set. -/
def setTaken (taken : Option (List Key)) : ReadM Unit := modify fun p ↦ { p with taken }

/-- What was read, and the mismatches. -/
def outcome {α : Type} (step : ReadM α) : Except Halt (α × List Mismatch) :=
  match step.run {} with
  | .ok (a, p) => .ok (a, p.mismatches)
  | .error halt => .error halt

end ReadM

open ReadM

/-! ## Scalars -/

/-- What a scalar stands for. -/
def scalarKey (head : Head) (text : Text) : ReadM Key :=
  if checkedTags.contains head.tag then
    match text.string?.bind (taggedPlain? head.tag) with
    | some value => return .plain value
    | none => fault head.pos s!"cannot decode `{text}` as a {head.tag}"
  else if head.tag == "!!binary" then
    match text.string?.bind Text.ofBase64? with
    | some bytes => return .text (Text.ofBytes bytes)
    | none => fault head.pos "!!binary value contains invalid base64 data"
  else return .text text

/-- Reads a node as a string; `none` is a null or a mismatch. -/
def Node.readString (inside : Bool) : Node → ReadM (Option Text)
  | .scalar head text => do
    countNode inside head.pos
    match ← scalarKey head text with
    | .text t => return some t
    | .plain .null => return none
    | .plain _ => return some text
  | .sequence head _ => do
    countNode inside head.pos
    report [mismatchOf head "" "string"]
    return none
  | .mapping head entries => do
    countNode inside head.pos
    report (mappingMismatch head entries "string")
    return none
  | .aliasOf pos _ target _ => do
    countNode inside pos
    target.readString true
  | .enclosing pos _ _ head _ => do
    countNode inside pos
    countNode true head.pos
    report [mismatchOf head "" "string"]
    return none

/-- The words for the booleans that are booleans only where one is wanted. -/
def boolWord? : String → Option Bool
  | "y" | "Y" | "yes" | "Yes" | "YES" | "on" | "On" | "ON" => some true
  | "n" | "N" | "no" | "No" | "NO" | "off" | "Off" | "OFF" => some false
  | _ => none

/-- The boolean that a scalar stands for. -/
def Key.bool? : Key → Option Bool
  | plain (.bool b) => some b
  | plain _ => none
  | text t => t.string?.bind boolWord?

/-- Reads a node as a boolean; `none` is a null or a mismatch. -/
def Node.readBool (inside : Bool) : Node → ReadM (Option Bool)
  | .scalar head text => do
    countNode inside head.pos
    let key ← scalarKey head text
    if key = .plain .null then return none
    if key.bool?.isNone then report [mismatchOf head text "bool"]
    return key.bool?
  | .sequence head _ => do
    countNode inside head.pos
    report [mismatchOf head "" "bool"]
    return none
  | .mapping head entries => do
    countNode inside head.pos
    report (mappingMismatch head entries "bool")
    return none
  | .aliasOf pos _ target _ => do
    countNode inside pos
    target.readBool true
  | .enclosing pos _ _ head _ => do
    countNode inside pos
    countNode true head.pos
    report [mismatchOf head "" "bool"]
    return none

/-! ## Mappings -/

/-- The fields of a kind of record, and the name that messages give to it. -/
structure Schema where
  target : String
  texts : List String
  flags : List String
deriving DecidableEq, Repr, Inhabited

/-- The field that a key names. -/
def Schema.field? (s : Schema) : Key → Option String
  | .text t => t.string?.filter fun name ↦ s.texts.contains name || s.flags.contains name
  | .plain _ => none

/-- What a mapping is read into: a record, or a mapping of which nothing is expected, whose keys are
strings or not. -/
inductive Target where
  | record (schema : Schema)
  | mapping (strings : Bool)
deriving DecidableEq, Repr, Inhabited

/-- The keys of the mapping are read as strings. -/
def Target.namesKeys : Target → Bool
  | record _ => true
  | mapping strings => strings

/-- What a node stands for where nothing is expected of it. -/
inductive Any where
  | scalar (key : Key)
  | collection
deriving DecidableEq, Repr, Inhabited

/-- The key includes another mapping. -/
def isInclusion : Node → Bool
  | .scalar head text => text == ("<<" : Text) && head.tag == "!!merge"
  | _ => false

/-- All keys of a mapping are strings, those that include others apart. -/
def hasStringKeys (entries : List (Node × Node)) : Bool :=
  entries.all fun (k, _) ↦ k.tag == "!!str" || k.tag == "!!merge"

/-- A key has been taken.  What is no number is never the same as another. -/
def isTaken (taken : Option (List Key)) (key : Key) : Bool :=
  key ≠ .plain .nan && taken.any (·.contains key)

/-- Reports the repeated keys of a mapping; tells whether there are any. -/
def reportDuplicates (entries : List (Node × Node)) : ReadM Bool := do
  let found := duplicateKeys (entries.map Prod.fst)
  report found
  return !found.isEmpty

/-- The fault of an inclusion of something that is no mapping. -/
def notIncludable {α : Type} (pos : Position) : ReadM α :=
  fault pos "map merge requires map or sequence of maps as the value"

/-- The fault of something that includes itself. -/
def selfInclusion {α : Type} (pos : Position) (name : String) : ReadM α :=
  fault pos s!"anchor '{name}' value contains itself"

/-- The node is a mapping. -/
def isMapping : Node → Bool
  | .mapping _ _ => true
  | _ => false

/-- Reads a node into a field of a record. -/
def readField (inside : Bool) (s : Schema) (field : String) (n : Node) : ReadM Unit := do
  let value ← if s.texts.contains field then
      pure ((← n.readString inside).map .text)
    else pure ((← n.readBool inside).map .flag)
  modify fun p ↦ { p with fields := (value.map fun v ↦ (field, v)).toList ++ p.fields }

/-- Reads a mapping: its entries, from the keys that are taken to those that are taken afterwards;
then, if it includes something and is not included itself, its keys; then what it includes. -/
def readMapping (entries : Option (List Key) → ReadM (Option (List Key))) (keys : ReadM Unit)
    (inclusion : Option (ReadM Unit)) : ReadM Unit := do
  let before := (← get).taken
  setTaken none
  let taken ← entries before
  setTaken taken
  match inclusion with
  | none => pure ()
  | some step =>
    if taken.isNone then
      setTaken (some [])
      keys
    step
    if taken.isNone then setTaken none

mutual

/-- Reads a node of which nothing is expected; `none` is a mapping with repeated keys. -/
def readAny (inside : Bool) : Node → ReadM (Option Any)
  | .scalar head text => do
    countNode inside head.pos
    return some (.scalar (← scalarKey head text))
  | .sequence head items => do
    countNode inside head.pos
    readItems inside items
    return some .collection
  | .mapping head entries => do
    countNode inside head.pos
    if ← reportDuplicates entries then return none
    let target := Target.mapping (hasStringKeys entries)
    readMapping (readEntries inside target entries []) (readKeys inside entries)
      (readInclusion inside target entries)
    return some .collection
  | .aliasOf pos _ target _ => do
    countNode inside pos
    readAny true target
  | .enclosing pos name _ _ _ => do
    countNode inside pos
    selfInclusion pos name
termination_by structural n => n

/-- Reads the items of a sequence of which nothing is expected. -/
def readItems (inside : Bool) : List Node → ReadM Unit
  | [] => return
  | n :: rest => do
    let _ ← readAny inside n
    readItems inside rest
termination_by structural ns => ns

/-- Reads entries into a target, those of taken keys apart; `done` are the fields of a record that
earlier entries set.  The answer has the keys that are taken afterwards. -/
def readEntries (inside : Bool) (target : Target) : List (Node × Node) → List String →
    Option (List Key) → ReadM (Option (List Key))
  | [], _, taken => return taken
  | (k, v) :: rest, done, taken => do
    if isInclusion k then readEntries inside target rest done taken
    else
      let key ← if target.namesKeys then
          pure ((← k.readString inside).map fun t ↦ Any.scalar (.text t))
        else readAny inside k
      match key with
      | none => readEntries inside target rest done taken
      | some .collection =>
        if taken.isSome then throw .collectionKey else fault k.pos "invalid map key"
      | some (.scalar key) =>
        if isTaken taken key then readEntries inside target rest done taken
        else
          let taken := taken.map (key :: ·)
          match target with
          | .mapping _ =>
            let _ ← readAny inside v
            readEntries inside target rest done taken
          | .record s =>
            match s.field? key with
            | none => readEntries inside target rest done taken
            | some field =>
              if done.contains field then
                report [.repeatedField k.pos.line field s.target]
                readEntries inside target rest done taken
              else
                readField inside s field v
                readEntries inside target rest (field :: done) taken
termination_by structural es => es

/-- Takes the keys of a mapping. -/
def readKeys (inside : Bool) : List (Node × Node) → ReadM Unit
  | [] => return
  | (k, _) :: rest => do
    match ← readAny inside k with
    | none => pure ()
    | some .collection => throw .collectionKey
    | some (.scalar key) => modify fun p ↦ { p with taken := p.taken.map (key :: ·) }
    readKeys inside rest
termination_by structural es => es

/-- Reads what the last inclusion among entries includes, if there is one. -/
def readInclusion (inside : Bool) (target : Target) : List (Node × Node) → Option (ReadM Unit)
  | [] => none
  | (k, v) :: rest =>
    match readInclusion inside target rest with
    | some step => some step
    | none => if isInclusion k then some (readIncluded inside target true v) else none
termination_by structural es => es

/-- Reads an included mapping, or those of a sequence if `several` says so. -/
def readIncluded (inside : Bool) (target : Target) (several : Bool) : Node → ReadM Unit
  | .mapping head entries => do
    countNode inside head.pos
    unless ← reportDuplicates entries do
      readMapping (readEntries inside target entries []) (readKeys inside entries)
        (readInclusion inside target entries)
  | .aliasOf pos _ node _ =>
    if isMapping node then do
      countNode inside pos
      readIncluded true target false node
    else notIncludable pos
  | .sequence head items =>
    if several then readIncludedItems inside target items else notIncludable head.pos
  | .scalar head _ => notIncludable head.pos
  | .enclosing pos name _ _ isMapping =>
    if isMapping then selfInclusion pos name else notIncludable pos
termination_by structural n => n

/-- Reads included mappings in order. -/
def readIncludedItems (inside : Bool) (target : Target) : List Node → ReadM Unit
  | [] => return
  | n :: rest => do
    readIncluded inside target false n
    readIncludedItems inside target rest
termination_by structural ns => ns

end

/-! ## Records -/

/-- Reads a node as a record, into the fields. -/
def Node.readRecord (s : Schema) (inside : Bool) : Node → ReadM Unit
  | .mapping head entries => do
    countNode inside head.pos
    unless ← reportDuplicates entries do
      readMapping (readEntries inside (.record s) entries []) (readKeys inside entries)
        (readInclusion inside (.record s) entries)
  | .scalar head text => do
    countNode inside head.pos
    if (← scalarKey head text) ≠ .plain .null then report [mismatchOf head text s.target]
  | .sequence head _ => do
    countNode inside head.pos
    report [mismatchOf head "" s.target]
  | .aliasOf pos _ target _ => do
    countNode inside pos
    target.readRecord s true
  | .enclosing pos _ _ head _ => do
    countNode inside pos
    countNode true head.pos
    report [mismatchOf head "" s.target]

/-- The fields of a record that were set. -/
structure Record where
  fields : List (String × FieldValue) := []
deriving DecidableEq, Repr, Inhabited

namespace Record

/-- The text of a field, empty if it was not set. -/
def text (r : Record) (field : String) : Text :=
  match r.fields.lookup field with
  | some (.text t) => t
  | _ => ""

/-- The boolean of a field, false if it was not set. -/
def flag (r : Record) (field : String) : Bool :=
  match r.fields.lookup field with
  | some (.flag b) => b
  | _ => false

end Record

namespace Node

/-- A node as a string, `none` for a null or a mismatch, and the mismatches. -/
def string? (n : Node) : Except Halt (Option Text × List Mismatch) := (n.readString false).outcome

/-- A node as a boolean, `none` for a null or a mismatch, and the mismatches. -/
def bool? (n : Node) : Except Halt (Option Bool × List Mismatch) := (n.readBool false).outcome

/-- A node as a record, and the mismatches. -/
def record? (n : Node) (s : Schema) : Except Halt (Record × List Mismatch) :=
  ReadM.outcome do
    n.readRecord s false
    return { fields := (← get).fields }

end Node

end MiniJava.Yaml
