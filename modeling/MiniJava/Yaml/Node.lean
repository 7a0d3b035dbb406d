import MiniJava.Source.Position
import MiniJava.Text.Basic

/-!
# Nodes

A YAML document as a tree.  An alias holds the node that it stands for.  The one exception is an
alias inside of the very collection that it stands for: there the node is `enclosing`, with the
number of that collection, and following aliases further would never end.  An alias is `loose` while
the node that it holds may have references of that kind to a collection that is not complete yet.

The text of a node is what the program format looks at: of a scalar its own, of an alias the name of
the anchor, and of a collection none.
-/

set_option autoImplicit false

namespace MiniJava.Yaml

/-- Where a node starts, and its tag in short form. -/
structure Head where
  pos : Position
  tag : String
deriving DecidableEq, Repr, Inhabited

/-- A node of a document. -/
inductive Node where
  | scalar (head : Head) (text : Text)
  | sequence (head : Head) (items : List Node)
  | mapping (head : Head) (entries : List (Node × Node))
  /-- A reference to a node elsewhere. -/
  | aliasOf (pos : Position) (name : String) (target : Node) (loose : Bool := false)
  /-- A reference to a collection around it, of which `target` is the head. -/
  | enclosing (pos : Position) (name : String) (number : Nat) (target : Head) (isMapping : Bool)
deriving Repr, Inhabited

namespace Node

/-- Where a node starts. -/
def pos : Node → Position
  | scalar h _ | sequence h _ | mapping h _ => h.pos
  | aliasOf p _ _ _ | enclosing p _ _ _ _ => p

/-- The text of a node. -/
def text : Node → Text
  | scalar _ t => t
  | aliasOf _ name _ _ | enclosing _ name _ _ _ => name
  | sequence _ _ | mapping _ _ => ""

/-- The node stands for nothing: a scalar whose tag is that of the null. -/
def isNull : Node → Bool
  | scalar h _ => h.tag == "!!null"
  | _ => false

/-- The tag of a node; that of an alias is the one of what it stands for. -/
def tag : Node → String
  | scalar h _ | sequence h _ | mapping h _ | enclosing _ _ _ h _ => h.tag
  | aliasOf _ _ target _ => target.tag

mutual

/-- The node has references to one of the collections of some numbers. -/
def isLoose (unfinished : List Nat) : Node → Bool
  | scalar _ _ => false
  | sequence _ items => anyLoose unfinished items
  | mapping _ entries => anyLooseEntry unfinished entries
  | aliasOf _ _ _ loose => loose
  | enclosing _ _ n _ _ => unfinished.contains n
termination_by structural n => n

/-- One of the nodes has such references. -/
def anyLoose (unfinished : List Nat) : List Node → Bool
  | [] => false
  | n :: rest => isLoose unfinished n || anyLoose unfinished rest
termination_by structural ns => ns

/-- One of the keys and values has such references. -/
def anyLooseEntry (unfinished : List Nat) : List (Node × Node) → Bool
  | [] => false
  | (k, v) :: rest =>
    isLoose unfinished k || isLoose unfinished v || anyLooseEntry unfinished rest
termination_by structural es => es

end

mutual

/-- The node where the references to the collection of a number lead to `whole`, which has
references to other unfinished collections if `loose` says so. -/
def close (number : Nat) (whole : Node) (loose : Bool) : Node → Node
  | scalar h t => scalar h t
  | sequence h items => sequence h (closeItems number whole loose items)
  | mapping h entries => mapping h (closeEntries number whole loose entries)
  | aliasOf p name target isLoose =>
    if isLoose then aliasOf p name (close number whole loose target) isLoose
    else aliasOf p name target isLoose
  | enclosing p name n h isMapping =>
    if n = number then aliasOf p name whole loose else enclosing p name n h isMapping
termination_by structural n => n

/-- The same in every item. -/
def closeItems (number : Nat) (whole : Node) (loose : Bool) : List Node → List Node
  | [] => []
  | n :: rest => close number whole loose n :: closeItems number whole loose rest
termination_by structural ns => ns

/-- The same in every key and value. -/
def closeEntries (number : Nat) (whole : Node) (loose : Bool) :
    List (Node × Node) → List (Node × Node)
  | [] => []
  | (k, v) :: rest =>
    (close number whole loose k, close number whole loose v) ::
      closeEntries number whole loose rest
termination_by structural es => es

end

end Node

end MiniJava.Yaml
