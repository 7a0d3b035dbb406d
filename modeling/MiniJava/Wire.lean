import MiniJava.Interference
import MiniJava.IR.Variable

/-!
# Wire format

The bytes of bitmaps, graphs and variable tables in logs.  Every value starts with a head: a tag
in the upper three bits, and a number in the lower five or, if it does not fit there, in the
one, two, four or eight bytes that follow, highest byte first.
-/

set_option autoImplicit false

namespace MiniJava.Wire

/-- Bytes in order. -/
abbrev Bytes := List UInt8

/-- The lowest `count` bytes of a number, highest first. -/
def bigEndian (count n : Nat) : Bytes :=
  (List.range count).reverse.map fun i ↦ UInt8.ofNat (n >>> (8 * i))

/-- A head with a tag and a number. -/
def head (tag : UInt8) (n : Nat) : Bytes :=
  if n < 24 then [tag ||| UInt8.ofNat n]
  else if n < 0x100 then (tag ||| 24) :: bigEndian 1 n
  else if n < 0x10000 then (tag ||| 25) :: bigEndian 2 n
  else if n < 0x100000000 then (tag ||| 26) :: bigEndian 4 n
  else (tag ||| 27) :: bigEndian 8 n

/-- An integer.  The number of a negative one is its distance from one. -/
def int (v : Int) : Bytes := if 0 ≤ v then head 0x00 v.toNat else head 0x20 (1 - v).toNat

/-- A text, after its length in bytes. -/
def string (t : Text) : Bytes := head 0x60 t.bytes.length ++ t.bytes

/-- The absent value. -/
def absent : Bytes := [0xf6]

/-- A list whose length is not told in advance. -/
def openList (items : List Bytes) : Bytes := 0x9f :: items.flatten ++ [0xff]

/-- The head of a map with a number of entries. -/
def mapHead (size : Nat) : Bytes := head 0xa0 size

/-- A bitmap: its elements, or the absent value if it never had a word. -/
def bitmap (s : Bitmap) : Bytes :=
  if s.words.isEmpty then absent else openList (s.toList.map fun i : Nat ↦ int i)

/-- A graph: every vertex with its neighbours. -/
def graph (g : Graph) : Bytes :=
  mapHead g.vertices.length ++ g.vertices.flatMap fun v ↦ string v.name ++ bitmap v.adj

/-- A table of variables: every variable with its register. -/
def varTable (t : IR.VarTable) : Bytes :=
  mapHead t.vars.length ++ t.vars.flatMap fun v ↦ string v.name ++ int v.reg

end MiniJava.Wire
