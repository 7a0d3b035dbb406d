import MiniJava.Liveness

/-!
# Interference and colouring

Variables that must not share a slot are the edges of a graph.  The graph of spans joins variables
whose spans overlap; the graph of live sets joins variables that are live together, before or after
some instruction.

`Graph.colors` colours a graph greedily: the vertices are taken by increasing key, and those of one
key in the order they were added; each gets the smallest colour that no neighbour has yet.
-/

set_option autoImplicit false

namespace MiniJava

/-- A vertex with its neighbours, by index. -/
structure Vertex where
  name : Text
  key : Int
  adj : Bitmap
deriving DecidableEq, Repr, Inhabited

/-- A graph of named vertices, in the order they were added. -/
structure Graph where
  vertices : List Vertex
deriving DecidableEq, Repr, Inhabited

namespace Graph

/-- The graph without vertices. -/
def empty : Graph := ⟨[]⟩

/-- The index of a vertex. -/
def index? (g : Graph) (name : Text) : Option Nat := g.vertices.findIdx? (·.name == name)

/-- The vertex at an index. -/
def vertex (g : Graph) (i : Nat) : Vertex := g.vertices.getD i default

/-- The graph with a vertex of a name, and its index.  A vertex that is there keeps its key. -/
def add (g : Graph) (name : Text) (key : Int) : Graph × Nat :=
  match g.index? name with
  | some i => (g, i)
  | none => (⟨g.vertices ++ [⟨name, key, .withCapacity 0⟩]⟩, g.vertices.length)

/-- The graph where the vertex at `i` has the neighbour `j`. -/
def link (g : Graph) (i j : Nat) : Graph :=
  ⟨g.vertices.modify i fun v ↦ { v with adj := v.adj.insert j }⟩

/-- The graph with an edge between two vertices.  An unknown name or one vertex twice adds none. -/
def connect (g : Graph) (a b : Text) : Graph :=
  match g.index? a, g.index? b with
  | some i, some j => if i = j then g else (g.link i j).link j i
  | _, _ => g

/-- There is an edge between two vertices. -/
def interfere (g : Graph) (a b : Text) : Bool :=
  match g.index? a, g.index? b with
  | some i, some j => (g.vertex i).adj.mem j
  | _, _ => false

/-- The names of the vertices. -/
def names (g : Graph) : List Text := g.vertices.map Vertex.name

/-- The neighbours of a vertex. -/
def neighbors (g : Graph) (name : Text) : List Text :=
  match g.index? name with
  | some i => (g.vertex i).adj.toList.map fun j ↦ (g.vertex j).name
  | none => []

/-- The edges, each once, from the vertex that was added first. -/
def edges (g : Graph) : List (Text × Text) :=
  g.vertices.zipIdx.flatMap fun (v, i) ↦
    (v.adj.toList.filter (i < ·)).map fun j ↦ (v.name, (g.vertex j).name)

/-- The graph with edges between any two of a list of vertices. -/
def connectAll (g : Graph) : List Text → Graph
  | [] => g
  | a :: rest => (rest.foldl (fun g b ↦ g.connect a b) g).connectAll rest

/-! ## Two ways to a graph -/

/-- The graph with an edge for every two spans of a list that overlap. -/
def joinOverlaps (g : Graph) : List (Text × Interval) → Graph
  | [] => g
  | a :: rest =>
    let joined := rest.foldl (fun g b ↦ if a.2.overlaps b.2 then g.connect a.1 b.1 else g) g
    joined.joinOverlaps rest

/-- The graph of variables whose spans overlap, with the start of its span as key of each. -/
def ofRanges (rs : List (Text × Interval)) : Graph :=
  (rs.foldl (fun g r ↦ (g.add r.1 r.2.start).1) empty).joinOverlaps rs

/-- The graph of the variables among `vars` that are live together, with the first instruction that
writes it, or before or after which it is live, as key of each. -/
def ofLiveSets (l : Liveness) (vars : List Text) : Graph :=
  let keep := (vars.filterMap l.vars.idxOf?).foldl Bitmap.insert (.withCapacity l.vars.length)
  let places := List.range l.flow.length
  let vertices := places.foldl
    (fun g i ↦ [(l.flowOf i).defs, l.outAt i, l.inAt i].foldl
      (fun g s ↦ (l.names (s.inter keep)).foldl (fun g v ↦ (g.add v i).1) g) g)
    empty
  places.foldl
    (fun g i ↦
      let after := ((l.outAt i).union (l.flowOf i).defs).inter keep
      let before := (l.inAt i).inter keep
      (g.connectAll (l.names after)).connectAll (l.names before))
    vertices

/-! ## Colouring -/

/-- The smallest number that is not in a list. -/
def firstFree (used : List Nat) : Nat :=
  ((List.range (used.length + 1)).find? fun c ↦ !used.contains c).getD 0

/-- The indices of the vertices by increasing key; those of one key in the order they were added. -/
def order (g : Graph) : List Nat :=
  (List.range g.vertices.length).mergeSort fun i j ↦ (g.vertex i).key ≤ (g.vertex j).key

/-- The colour of the vertex at `i`, from the colours that its neighbours have so far. -/
def pick (g : Graph) (colors : List (Option Nat)) (i : Nat) : Nat :=
  firstFree ((g.vertex i).adj.toList.filterMap fun j ↦ colors.getD j none)

/-- The colours of all vertices, by index. -/
def colorList (g : Graph) : List (Option Nat) :=
  g.order.foldl (fun colors i ↦ colors.set i (some (g.pick colors i)))
    (g.vertices.map fun _ ↦ none)

/-- The colours of all vertices. -/
def colors (g : Graph) : List (Text × Nat) :=
  List.zipWith (fun v c ↦ (v.name, c.getD 0)) g.vertices g.colorList

end Graph

end MiniJava
