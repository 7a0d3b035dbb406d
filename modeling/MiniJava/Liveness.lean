import MiniJava.Bitmap
import MiniJava.IR.Method

/-!
# Liveness

A variable is live before an instruction when some path from there reads it before writing it.  The
analysis works backwards: what is live after an instruction is what is live before one of its
successors, and what is live before it is what it reads together with what is live after it and not
written by it.

`Liveness.build` reads off what each instruction does, with all sets empty.  `Liveness.sweep`
recomputes the sets of every instruction once, from the last to the first, and only ever adds to
them, so that `Liveness.solve` ends: it sweeps until nothing changes.  The sets of `n` instructions
over `v` variables can grow `2 * n * v` times, and one more sweep finds that they do not; that
number bounds the sweeps.

Variables are numbered by their place in the table of the method, and sets of variables are bitmaps.
-/

set_option autoImplicit false

namespace MiniJava

open IR

/-- What an instruction reads and writes, and where control goes after it. -/
structure Flow where
  use : Bitmap
  defs : Bitmap
  succ : List Int
deriving DecidableEq, Repr, Inhabited

/-- A span of instructions, both ends included. -/
structure Interval where
  start : Int
  stop : Int
deriving DecidableEq, Repr, Inhabited

/-- Two spans have an instruction in common. -/
def Interval.overlaps (a b : Interval) : Bool := b.start ≤ a.stop && a.start ≤ b.stop

/-- The state of the analysis: the sets found so far, and the number of sweeps it took. -/
structure Liveness where
  vars : List Text
  flow : List Flow
  liveIn : List Bitmap
  liveOut : List Bitmap
  sweeps : Nat := 0
deriving DecidableEq, Repr, Inhabited

namespace Liveness

/-! ## What an instruction does -/

/-- The set with the number of a variable that the instruction at `i` names. -/
def insertVar (m : Method) (i : Nat) (s : Bitmap) (name : Text) : Except Error Bitmap :=
  match (m.vars.vars.map Variable.name).idxOf? name with
  | some j => .ok (s.insert j)
  | none => .error (.defect (.undeclaredAt m.name i name))

/-- The index of a label that the instruction at `i` jumps to. -/
def target (m : Method) (i : Nat) (label : Text) : Except Error Int :=
  match m.target? label with
  | some j => .ok j
  | none => .error (.defect (.undefinedLabel m.name i label))

/-- Where control goes after the instruction at `i`; a place after the last one is left out. -/
def successors (m : Method) (i : Nat) (x : Instr) : Except Error (List Int) := do
  let next : Int := i + 1
  let all ← match x with
    | .ret _ _ => pure []
    | .goto label => do
      let j ← target m i label
      pure [j]
    | .branch _ label => do
      let j ← target m i label
      pure (if j = next then [j] else [j, next])
    | _ => pure [next]
  return all.filter (· < m.code.length)

/-- What the instruction at `i` does. -/
def flowAt (m : Method) (i : Nat) (x : Instr) : Except Error Flow := do
  let none := Bitmap.withCapacity m.vars.vars.length
  let use ← x.uses.foldlM (insertVar m i) none
  let defs ← x.defs?.toList.foldlM (insertVar m i) none
  let succ ← successors m i x
  return { use, defs, succ }

/-- The analysis of a method before the first sweep. -/
def build (m : Method) : Except Error Liveness := do
  let flow ← m.code.zipIdx.mapM fun (x, i) ↦ flowAt m i x
  let none := Bitmap.withCapacity m.vars.vars.length
  return { vars := m.vars.vars.map Variable.name, flow,
           liveIn := flow.map fun _ ↦ none, liveOut := flow.map fun _ ↦ none }

/-! ## Sweeps -/

/-- What is live before the instruction at `i`. -/
def inAt (l : Liveness) (i : Nat) : Bitmap := l.liveIn.getD i .wordless

/-- What is live after the instruction at `i`. -/
def outAt (l : Liveness) (i : Nat) : Bitmap := l.liveOut.getD i .wordless

/-- What the instruction at `i` does. -/
def flowOf (l : Liveness) (i : Nat) : Flow := l.flow.getD i default

/-- What is live before one of the successors of the instruction at `i`. -/
def joinAt (l : Liveness) (i : Nat) : Bitmap :=
  (l.flowOf i).succ.foldl (fun s j ↦ s.union (l.inAt j.toNat))
    (Bitmap.withCapacity l.vars.length)

/-- Adds to the sets of the instruction at `i` what its successors give; tells whether one grew. -/
def sweepAt (l : Liveness) (i : Nat) : Liveness × Bool :=
  let out := l.joinAt i
  let before := (out.diff (l.flowOf i).defs).union (l.flowOf i).use
  let (newOut, outGrew) := (l.outAt i).merge out
  let (newIn, inGrew) := (l.inAt i).merge before
  ({ l with liveOut := l.liveOut.set i newOut, liveIn := l.liveIn.set i newIn },
    outGrew || inGrew)

/-- Adds to the sets of the instructions at the indices of a list, in that order. -/
def sweepList (l : Liveness) : List Nat → Liveness × Bool
  | [] => (l, false)
  | i :: rest =>
    let (l₁, grew₁) := l.sweepAt i
    let (l₂, grew₂) := l₁.sweepList rest
    (l₂, grew₁ || grew₂)

/-- One sweep over all instructions, from the last to the first. -/
def sweepAll (l : Liveness) : Liveness × Bool :=
  let (swept, grew) := l.sweepList (List.range l.flow.length).reverse
  ({ swept with sweeps := swept.sweeps + 1 }, grew)

/-- Every successor is the index of an instruction. -/
def inRange (l : Liveness) : Bool := l.flow.all fun f ↦ f.succ.all (0 ≤ ·)

/-- One sweep; a successor before the first instruction is an error. -/
def sweep (l : Liveness) : Except Error (Liveness × Bool) :=
  if l.inRange then .ok l.sweepAll else .error { cause := .outOfRange }

/-- Sweeps until nothing changes, `fuel` times at most. -/
def settle : Nat → Liveness → Liveness
  | 0, l => l
  | fuel + 1, l =>
    let (swept, grew) := l.sweepAll
    if grew then settle fuel swept else swept

/-- A number of sweeps after which nothing changes. -/
def bound (l : Liveness) : Nat := 2 * l.flow.length * l.vars.length + 1

/-- The sets at the end of the analysis.  A lone instruction needs no sweep: it reads what it
reads. -/
def solve (l : Liveness) : Except Error Liveness :=
  if l.flow.length ≤ 1 then
    .ok { l with liveIn := List.zipWith (fun s f ↦ s.union f.use) l.liveIn l.flow }
  else if l.inRange then .ok (settle l.bound l)
  else .error { cause := .outOfRange }

/-- The analysis of a method. -/
def analyze (m : Method) : Except Error Liveness := do
  let l ← build m
  l.solve

/-! ## What the analysis says -/

/-- The variables of a set, in table order. -/
def names (l : Liveness) (s : Bitmap) : List Text := s.toList.map fun j ↦ l.vars.getD j ""

/-- The variable of number `j` is read, written or live at the instruction at `i`. -/
def occursAt (l : Liveness) (j i : Nat) : Bool :=
  (l.flowOf i).use.mem j || (l.flowOf i).defs.mem j || (l.inAt i).mem j || (l.outAt i).mem j

/-- The span from the first instruction a variable occurs at to the last. -/
def range? (l : Liveness) (name : Text) : Option Interval := do
  let j ← l.vars.idxOf? name
  let places := (List.range l.flow.length).filter (l.occursAt j)
  return { start := ← places.head?, stop := ← places.getLast? }

end Liveness

end MiniJava
