import MiniJava.IR.ClassDef
import MiniJava.Interference

/-!
# Slots for variables

The receiver and the parameters of a method have the slots in front, in order.  Locals and
temporaries come after them, by one of three strategies:

* `Strategy.ranges` lets two of them share a slot when their spans do not overlap;
* `Strategy.liveSets` lets them share a slot when they are never live together;
* `Strategy.sequential` gives each its own.

A local or temporary that the code never names keeps no slot, except with the last strategy.

Slots are given in place: when something is found missing on the way, the slots given so far stay.
-/

set_option autoImplicit false

namespace MiniJava

open IR

/-- How locals and temporaries get their slots; `unknown` is a name of no strategy. -/
inductive Strategy where
  | ranges | liveSets | sequential
  | unknown (name : String)
deriving DecidableEq, Repr, Inhabited

namespace Strategy

/-- The name of a strategy. -/
def text : Strategy → String
  | ranges => "ranges"
  | liveSets => "liveness"
  | sequential => "none"
  | unknown name => name

/-- The strategy of a name; the empty name is that of spans. -/
def ofName : String → Strategy
  | "ranges" | "" => ranges
  | "liveness" => liveSets
  | "none" => sequential
  | name => unknown name

/-- The strategy of a name, if there is one. -/
def parse (name : String) : Except Error Strategy :=
  match ofName name with
  | unknown name => .error { cause := .unknownStrategy name }
  | s => .ok s

end Strategy

namespace Allocation

/-- Whether a variable gets its slot from the strategy. -/
def isFree (v : Variable) : Bool := v.kind = .declared || v.kind = .temp

/-- The variables that get their slots from the strategy. -/
def free (m : Method) : List Variable := m.vars.vars.filter isFree

/-- The interference graph of a strategy that needs one. -/
def graph (m : Method) (s : Strategy) : Except Error Graph := do
  let l ← withinPlace "liveness" (Liveness.analyze m)
  let names := (free m).map Variable.name
  match s with
  | .ranges => return .ofRanges (names.filterMap fun n ↦ (l.range? n).map fun r ↦ (n, r))
  | .liveSets => return .ofLiveSets l names
  | .sequential => return .empty
  | .unknown name => throw { cause := .unknownStrategy name }

/-- A number for each variable that gets its slot from the strategy. -/
def numbering (m : Method) : Strategy → Except Error (List (Text × Nat))
  | .sequential => .ok ((free m).map Variable.name).zipIdx
  | s => return (← graph m s).colors

/-- The steps of an allocation, which work on one method and may stop on the way. -/
abbrev Step := ExceptT Error (StateM Method)

/-- Gives a slot to the variable of a name, which has to be there. -/
def place (name : Text) (slot : Nat) (missing : Defect) : Step Unit := do
  let m ← get
  if m.vars.contains name then set { m with vars := m.vars.setReg name slot }
  else throw (.defect missing)

/-- Slot 0 for the receiver of a method that has one. -/
def placeReceiver : Step Unit := do
  let m ← get
  if m.isStatic then pure ()
  else place Method.receiver 0 (.noReceiverVariable m.name)

/-- The slots from `slot` on for the parameters of a list. -/
def placeParams (method : Text) : List Param → Nat → Step Unit
  | [], _ => pure ()
  | p :: rest, slot => do
    place p.name slot (.noParameterVariable method p.name)
    placeParams method rest (slot + 1)

/-- The slots after those of the receiver and the parameters for all other variables. -/
def placeFree (s : Strategy) : Step Unit := do
  let m ← get
  let numbers ← numbering m s
  let reg (v : Variable) : Int :=
    match numbers.lookup v.name with
    | some n => if isFree v then n + m.reserved else v.reg
    | none => v.reg
  set { m with vars := m.vars.mapReg reg }

/-- Gives slots to the variables of a method. -/
def allocate (s : Strategy) : Step Unit := do
  let m ← get
  placeReceiver
  placeParams m.name m.params (if m.isStatic then 0 else 1)
  placeFree s

/-- The method after an allocation, and how it ended. -/
def run (s : Strategy) (m : Method) : Except Error Unit × Method := (allocate s).run m

/-- The method with slots for its variables. -/
def method (s : Strategy) (m : Method) : Except Error Method :=
  match run s m with
  | (.ok _, m) => .ok m
  | (.error e, _) => .error e

/-- The class with slots for the variables of all its methods. -/
def cls (s : Strategy) (c : ClassDef) : Except Error ClassDef := do
  let methods ← c.methods.mapM fun m ↦ withinPlace s!"method {m.name}" (method s m)
  return { c with methods }

end Allocation

end MiniJava
