import MiniJava.Proofs.OptimalRanges

/-!
# The two interference graphs compared

The graph of spans joins variables whose spans overlap, and the graph of live sets joins variables that are
live together.  Both are made by changes that add vertices first and edges then (`joined_append_iff`), so a
graph is known from the variables at each instruction (`placeNames`) and from the cliques of its edges.

A variable occurs at an instruction if it is written there, or live before or after it: what is read is live
before (`Analyzed.use`).  So both graphs have the same vertices, with the first place of a variable as its
key, and variables that are live together have spans with a place in common (`live_graph_within_spans`).
-/

set_option autoImplicit false

namespace MiniJava

open IR

/-! ## What holds of every analysis -/

namespace Liveness

section
variable {m : Method} {l : Liveness}

/-- What holds of an analysis that succeeds, of a checked method or not. -/
structure Analyzed (m : Method) (l : Liveness) : Prop where
  vars : l.vars = m.vars.vars.map Variable.name
  length : l.flow.length = m.code.length
  /-- What an instruction reads is live before it. -/
  use : ∀ i < l.flow.length, ∀ j, (l.flowOf i).use.mem j = true → (l.inAt i).mem j = true
  before : ∀ i, Below l.vars.length (l.inAt i)
  after : ∀ i, Below l.vars.length (l.outAt i)
  defs : ∀ i, Below l.vars.length (l.flowOf i).defs

theorem analyzed_of_ok (h : analyze m = .ok l) : Analyzed m l := by
  have hlength := length_flow h
  obtain ⟨l₀, hbuild, hsolve⟩ := Except.bind_eq_ok.1 h
  have hs := build_sound hbuild
  have hdefs (i : Nat) := (below_build hbuild i).2
  have hvars : l₀.vars = m.vars.vars.map Variable.name := by
    obtain ⟨flow, -, hl₀⟩ := Except.bind_eq_ok.1 hbuild
    cases hl₀
    rfl
  rw [solve] at hsolve
  split at hsolve
  · cases hsolve
    refine ⟨hvars, hlength, fun i _ j hj ↦ (mem_inAt_lone hs.lengthIn).2 (.inr hj), fun i j hj ↦ ?_,
      hs.after, hdefs⟩
    rcases (mem_inAt_lone hs.lengthIn).1 hj with hj | hj
    · exact hs.before i j hj
    · exact hs.use i j hj
  · split at hsolve
    · cases hsolve
      obtain ⟨hs', hle, hstable⟩ := settle_bound_spec hs
      refine ⟨hle.vars.trans hvars, hlength, fun i hi j hj ↦ ?_, hs'.before, hs'.after, fun i ↦ ?_⟩
      · exact (hstable i hi).before j (mem_beforeAt.2 (.inr hj))
      · rw [flowOf_congr hle.flow, hle.vars]
        exact hdefs i
    · cases hsolve

/-! ## The variables at a place -/

/-- A variable is written by the instruction at `i`, or live before or after it. -/
def placedAt (l : Liveness) (j i : Nat) : Bool :=
  (l.flowOf i).defs.mem j || (l.outAt i).mem j || (l.inAt i).mem j

variable {i : Nat} {a b : Text}

theorem Analyzed.occursAt_eq (h : Analyzed m l) (hi : i < l.flow.length) (j : Nat) :
    l.occursAt j i = l.placedAt j i := by
  have huse := h.use i hi j
  rw [Bool.eq_iff_iff, occursAt, placedAt]
  simp only [Bool.or_eq_true]
  tauto

/-- A span starts where the variable is placed first. -/
theorem Analyzed.map_start_range? (h : Analyzed m l) (name : Text) :
    (l.range? name).map Interval.start = (l.vars.idxOf? name).bind fun j ↦
      ((List.range l.flow.length).find? (l.placedAt j)).map fun i : Nat ↦ (i : Int) := by
  have hstart (places : List Nat) : Option.map Interval.start
      (do return { start := ← places.head?, stop := ← places.getLast? }) =
        places.head?.map fun i : Nat ↦ (i : Int) := by
    cases places <;> rfl
  rw [range?]
  cases l.vars.idxOf? name with
  | none => rfl
  | some j =>
    have hplaces : (List.range l.flow.length).filter (l.occursAt j) =
        (List.range l.flow.length).filter (l.placedAt j) :=
      List.filter_congr fun i hi ↦ h.occursAt_eq (List.mem_range.1 hi) j
    rw [Option.bind_some, ← List.head?_filter, ← hplaces]
    exact hstart _

/-- The numbers of the variables of a list. -/
def numbersOf (l : Liveness) (vars : List Text) : Bitmap :=
  (vars.filterMap l.vars.idxOf?).foldl Bitmap.insert (.withCapacity l.vars.length)

theorem mem_numbersOf {vars : List Text} {j : Nat} :
    (l.numbersOf vars).mem j = true ↔ ∃ v ∈ vars, l.vars.idxOf? v = some j := by
  rw [numbersOf, Bitmap.mem_foldl_insert, List.mem_filterMap, Bitmap.mem_withCapacity]
  simp

theorem getD_of_idxOf? {name : Text} {j : Nat} (h : l.vars.idxOf? name = some j) :
    l.vars.getD j "" = name := by
  obtain ⟨hj, hname, -⟩ := List.idxOf?_eq_some_iff.1 h
  rw [List.getD_eq_getElem?_getD, List.getElem?_eq_getElem hj, Option.getD_some, hname]

/-- The variable of a name is in a set. -/
def Holds (l : Liveness) (s : Bitmap) (a : Text) : Prop := ∃ j, l.vars.idxOf? a = some j ∧ s.mem j = true

theorem mem_names_inter {vars : List Text} {s : Bitmap} {a : Text} :
    a ∈ l.names (s.inter (l.numbersOf vars)) ↔ a ∈ vars ∧ l.Holds s a := by
  rw [names, List.mem_map]
  simp only [Bitmap.mem_toList, Bitmap.mem_inter, Bool.and_eq_true, mem_numbersOf]
  constructor
  · rintro ⟨j, ⟨hj, v, hv, hvj⟩, rfl⟩
    rw [getD_of_idxOf? hvj]
    exact ⟨hv, j, hvj, hj⟩
  · rintro ⟨ha, j, haj, hj⟩
    exact ⟨j, ⟨hj, a, ha, haj⟩, getD_of_idxOf? haj⟩

theorem Analyzed.mem_names (h : Analyzed m l) {s : Bitmap} (hs : Below l.vars.length s) {a : Text} :
    a ∈ l.names s ↔ l.Holds s a := by
  rw [names, List.mem_map]
  constructor
  · rintro ⟨j, hj, rfl⟩
    rw [Bitmap.mem_toList] at hj
    refine ⟨j, ?_, hj⟩
    have hlt := hs j hj
    have hnodup : l.vars.Nodup := h.vars ▸ m.vars.nodup
    rw [List.getD_eq_getElem?_getD, List.getElem?_eq_getElem hlt, Option.getD_some,
      List.idxOf?_eq_some_iff]
    refine ⟨hlt, rfl, fun k hk heq ↦ ?_⟩
    exact absurd (hnodup.getElem_inj_iff.1 heq) (Nat.ne_of_lt hk)
  · rintro ⟨j, haj, hj⟩
    exact ⟨j, Bitmap.mem_toList.2 hj, getD_of_idxOf? haj⟩

/-- What is written by the instruction at `i` or live after it. -/
def writtenOrAfter (l : Liveness) (i : Nat) : Bitmap := (l.outAt i).union (l.flowOf i).defs

/-- Two variables are live before the instruction at `i`, or each is written by it or live after it. -/
def Together (l : Liveness) (i : Nat) (a b : Text) : Prop :=
  (a ∈ l.names (l.inAt i) ∧ b ∈ l.names (l.inAt i)) ∨
    (a ∈ l.names (l.writtenOrAfter i) ∧ b ∈ l.names (l.writtenOrAfter i))

/-- The same by the numbers of the variables. -/
def Meet (l : Liveness) (i : Nat) (a b : Text) : Prop :=
  (l.Holds (l.inAt i) a ∧ l.Holds (l.inAt i) b) ∨
    (l.Holds (l.writtenOrAfter i) a ∧ l.Holds (l.writtenOrAfter i) b)

theorem Analyzed.together_iff (h : Analyzed m l) : l.Together i a b ↔ l.Meet i a b := by
  have hbelow : Below l.vars.length (l.writtenOrAfter i) := by
    intro j hj
    rw [writtenOrAfter, Bitmap.mem_union, Bool.or_eq_true] at hj
    exact hj.elim (h.after i j) (h.defs i j)
  rw [Together, Meet, h.mem_names (h.before i), h.mem_names (h.before i), h.mem_names hbelow,
    h.mem_names hbelow]

theorem Meet.left (h : l.Meet i a b) :
    l.Holds (l.inAt i) a ∨ l.Holds (l.writtenOrAfter i) a := Or.imp And.left And.left h

theorem Meet.right (h : l.Meet i a b) :
    l.Holds (l.inAt i) b ∨ l.Holds (l.writtenOrAfter i) b := Or.imp And.right And.right h

theorem exists_placedAt_iff {a : Text} :
    (∃ j, l.vars.idxOf? a = some j ∧ l.placedAt j i = true) ↔
      l.Holds (l.inAt i) a ∨ l.Holds (l.writtenOrAfter i) a := by
  simp only [Holds, ← exists_or, ← and_or_left, placedAt, writtenOrAfter, Bitmap.mem_union,
    Bool.or_eq_true]
  grind

end

end Liveness

namespace Graph

/-! ## Cliques -/

/-- The edges between any two of a list of vertices. -/
def cliqueChanges : List Text → List Change
  | [] => []
  | a :: rest => rest.map (.connect a) ++ cliqueChanges rest

theorem connectAll_eq (xs : List Text) (g : Graph) :
    g.connectAll xs = (cliqueChanges xs).foldl apply g := by
  induction xs generalizing g with
  | nil => rfl
  | cons a rest ih =>
    rw [connectAll, cliqueChanges, List.foldl_append, ih, List.foldl_map]
    rfl

theorem vertex?_of_mem_cliqueChanges {xs : List Text} {c : Change} (h : c ∈ cliqueChanges xs) :
    c.vertex? = none := by
  induction xs with
  | nil => cases h
  | cons a rest ih =>
    rw [cliqueChanges, List.mem_append, List.mem_map] at h
    rcases h with ⟨b, -, rfl⟩ | h
    · rfl
    · exact ih h

theorem exists_joins_cliqueChanges (xs : List Text) {a b : Text} (hne : a ≠ b) :
    (∃ c ∈ cliqueChanges xs, c.Joins a b) ↔ a ∈ xs ∧ b ∈ xs := by
  induction xs with
  | nil => simp [cliqueChanges]
  | cons x rest ih =>
    have hfirst : (∃ c ∈ rest.map (Change.connect x), c.Joins a b) ↔
        x = a ∧ b ∈ rest ∨ x = b ∧ a ∈ rest := by
      simp only [List.mem_map, exists_exists_and_eq_and, Change.Joins, Change.connect.injEq]
      grind
    simp only [cliqueChanges, List.mem_append, or_and_right, exists_or, hfirst, ih, List.mem_cons]
    grind

/-! ## The graph of live sets, by changes -/

section
variable (l : Liveness) (vars : List Text)

/-- The variables of a list that are written by the instruction at `i`, or live after or before it. -/
def placeNames (i : Nat) : List Text :=
  [(l.flowOf i).defs, l.outAt i, l.inAt i].flatMap fun s ↦ l.names (s.inter (l.numbersOf vars))

/-- The vertices of the graph of live sets. -/
def vertexChanges : List Change :=
  (List.range l.flow.length).flatMap fun i ↦ (placeNames l vars i).map fun v ↦ .add v i

/-- The edges of the graph of live sets: variables that are written or live after an instruction, and
variables that are live before it. -/
def edgeChanges : List Change :=
  (List.range l.flow.length).flatMap fun i ↦
    cliqueChanges (l.names ((l.writtenOrAfter i).inter (l.numbersOf vars))) ++
      cliqueChanges (l.names ((l.inAt i).inter (l.numbersOf vars)))

theorem ofLiveSets_eq : ofLiveSets l vars = ofChanges (vertexChanges l vars ++ edgeChanges l vars) := by
  rw [ofLiveSets, ofChanges, List.foldl_append, vertexChanges, edgeChanges, List.foldl_flatMap,
    List.foldl_flatMap]
  simp only [connectAll_eq, placeNames, List.foldl_append, List.foldl_map, List.foldl_flatMap]
  rfl

theorem added_vertexChanges : added (vertexChanges l vars) =
    (List.range l.flow.length).flatMap fun i ↦ (placeNames l vars i).map fun v ↦ (v, (i : Int)) := by
  rw [added, vertexChanges, List.filterMap_flatMap]
  refine congrArg (List.flatMap · _) (funext fun i ↦ ?_)
  rw [List.filterMap_map]
  exact congrFun (List.filterMap_eq_map (f := fun v : Text ↦ (v, (i : Int)))) _

end

/-- In a list of names place by place, a name stands at its first place. -/
theorem lookup_places (names : Nat → List Text) (is : List Nat) (a : Text) :
    (is.flatMap fun i ↦ (names i).map fun v ↦ (v, (i : Int))).lookup a =
      (is.find? fun i ↦ decide (a ∈ names i)).map fun i : Nat ↦ (i : Int) := by
  have hplace (vs : List Text) (i : Int) :
      (vs.map fun v ↦ (v, i)).lookup a = if a ∈ vs then some i else none := by
    induction vs with
    | nil => rfl
    | cons v vs ih =>
      rw [List.map_cons, List.lookup_cons, ih]
      by_cases hav : a = v
      · simp [hav]
      · simp [hav, beq_false_of_ne hav]
  induction is with
  | nil => rfl
  | cons i is ih =>
    rw [List.flatMap_cons, List.lookup_append, hplace, ih, List.find?_cons]
    by_cases ha : a ∈ names i <;> simp [ha]

section
variable {l : Liveness} {vars : List Text} {a b : Text}

theorem mem_placeNames {i : Nat} :
    a ∈ placeNames l vars i ↔ a ∈ vars ∧ ∃ j, l.vars.idxOf? a = some j ∧ l.placedAt j i = true := by
  simp only [placeNames, List.mem_flatMap, List.mem_cons, List.not_mem_nil, or_false, exists_eq_or_imp,
    exists_eq_left, Liveness.mem_names_inter, Liveness.Holds, Liveness.placedAt, Bool.or_eq_true]
  grind

theorem vertex?_of_mem_edgeChanges {c : Change} (h : c ∈ edgeChanges l vars) : c.vertex? = none := by
  obtain ⟨i, -, h⟩ := List.mem_flatMap.1 h
  rcases List.mem_append.1 h with h | h
  · exact vertex?_of_mem_cliqueChanges h
  · exact vertex?_of_mem_cliqueChanges h

/-- The key of a vertex is the first instruction that writes the variable, or before or after which it is
live. -/
theorem lookup_ofLiveSets : (ofLiveSets l vars).entries.lookup a =
    if a ∈ vars then (l.vars.idxOf? a).bind fun j ↦
      ((List.range l.flow.length).find? (l.placedAt j)).map fun i : Nat ↦ (i : Int)
    else none := by
  rw [ofLiveSets_eq, (records_ofChanges _).key, added_append_joins _ fun c ↦ vertex?_of_mem_edgeChanges,
    added_vertexChanges, lookup_places]
  simp only [mem_placeNames]
  by_cases ha : a ∈ vars
  · cases hj : l.vars.idxOf? a with
    | none => simp [ha]
    | some j => simp [ha]
  · simp [ha]

theorem mem_addedNames_vertexChanges :
    a ∈ addedNames (vertexChanges l vars) ↔ ∃ i < l.flow.length, a ∈ placeNames l vars i := by
  rw [addedNames, added_vertexChanges]
  simp only [List.map_flatMap, List.map_map, List.mem_flatMap, List.mem_range, List.mem_map,
    Function.comp_apply, exists_eq_right]

theorem exists_joins_edgeChanges (hne : a ≠ b) : (∃ c ∈ edgeChanges l vars, c.Joins a b) ↔
    a ∈ vars ∧ b ∈ vars ∧ ∃ i < l.flow.length, l.Meet i a b := by
  have hafter (i : Nat) :=
    exists_joins_cliqueChanges (l.names ((l.writtenOrAfter i).inter (l.numbersOf vars))) hne
  have hbefore (i : Nat) :=
    exists_joins_cliqueChanges (l.names ((l.inAt i).inter (l.numbersOf vars))) hne
  simp only [Liveness.mem_names_inter] at hafter hbefore
  simp only [edgeChanges, List.mem_flatMap, List.mem_range, List.mem_append, Liveness.Meet]
  grind

/-- Neighbours are two variables of the list that are live before one instruction, or written by it or live
after it. -/
theorem interfere_ofLiveSets : (ofLiveSets l vars).interfere a b = true ↔
    a ≠ b ∧ a ∈ vars ∧ b ∈ vars ∧ ∃ i < l.flow.length, l.Meet i a b := by
  have hadds : ∀ c ∈ vertexChanges l vars, ∀ a b, ¬ c.Joins a b := by
    intro c hc a b
    obtain ⟨i, -, hc⟩ := List.mem_flatMap.1 hc
    obtain ⟨v, -, rfl⟩ := List.mem_map.1 hc
    exact not_joins_add
  rw [ofLiveSets_eq, (records_ofChanges _).joined,
    joined_append_iff hadds fun c ↦ vertex?_of_mem_edgeChanges]
  refine and_congr_right fun hne ↦ ?_
  rw [exists_joins_edgeChanges hne, mem_addedNames_vertexChanges, mem_addedNames_vertexChanges]
  -- what is in one of the sets of an instruction is placed there, so it is a vertex
  have hvertex {v : Text} {i : Nat} (hv : v ∈ vars) (hi : i < l.flow.length)
      (h : l.Holds (l.inAt i) v ∨ l.Holds (l.writtenOrAfter i) v) :
      ∃ i < l.flow.length, v ∈ placeNames l vars i :=
    ⟨i, hi, mem_placeNames.2 ⟨hv, Liveness.exists_placedAt_iff.2 h⟩⟩
  constructor
  · exact fun h ↦ h.2.2
  · rintro ⟨ha, hb, i, hi, h⟩
    exact ⟨hvertex ha hi h.left, hvertex hb hi h.right, ha, hb, i, hi, h⟩

end

/-- Graphs whose vertices have the same keys by name have the same vertices. -/
theorem entries_perm {g h : Graph} (hg : g.WellFormed) (hh : h.WellFormed)
    (hkey : ∀ a, g.entries.lookup a = h.entries.lookup a) : g.entries.Perm h.entries := by
  have hnodup {g : Graph} (hg : g.WellFormed) : (g.entries.map Prod.fst).Nodup := by
    rw [map_fst_entries]
    exact hg.nodup
  rw [List.perm_ext_iff_of_nodup (hnodup hg).of_map (hnodup hh).of_map]
  rintro ⟨a, k⟩
  constructor
  · intro hmem
    exact mem_of_lookup_eq_some ((hkey a).symm.trans (lookup_eq_some_of_mem (hnodup hg) hmem))
  · intro hmem
    exact mem_of_lookup_eq_some ((hkey a).trans (lookup_eq_some_of_mem (hnodup hh) hmem))

end Graph

/-! ## The two graphs of a method -/

namespace Allocation

section
variable {m : Method} {l : Liveness} {a b : Text}

theorem lookup_filterMap {β : Type} (f : Text → Option β) (names : List Text) (a : Text) :
    (names.filterMap fun n ↦ (f n).map fun r ↦ (n, r)).lookup a = if a ∈ names then f a else none := by
  induction names with
  | nil => rfl
  | cons n names ih =>
    cases hf : f n with
    | none =>
      rw [List.filterMap_cons_none (by rw [hf]; rfl), ih]
      by_cases han : a = n
      · simp [han, hf]
      · simp [han]
    | some r =>
      rw [List.filterMap_cons_some (by rw [hf]; rfl), List.lookup_cons, ih]
      by_cases han : a = n
      · simp [han, hf]
      · simp [han, beq_false_of_ne han]

/-- The key of a vertex is the start of its span. -/
theorem lookup_ofRanges_spans : (Graph.ofRanges (spans m l)).entries.lookup a =
    if a ∈ (free m).map Variable.name then (l.range? a).map Interval.start else none := by
  have hkeys : (spans m l).map (fun p ↦ (p.1, p.2.start)) = ((free m).map Variable.name).filterMap
      fun n ↦ ((l.range? n).map Interval.start).map fun k ↦ (n, k) := by
    rw [spans, List.map_filterMap]
    refine List.filterMap_congr fun n _ ↦ ?_
    rw [Option.map_map, Option.map_map]
    rfl
  rw [Graph.ofRanges_eq, (Graph.records_ofChanges _).key, Graph.added_spanChanges, hkeys,
    lookup_filterMap]

/-- A local or temporary in one of the sets of an instruction has that instruction in its span. -/
theorem exists_span (hl : Liveness.Analyzed m l) (ha : a ∈ (free m).map Variable.name) {i : Nat}
    (hi : i < l.flow.length) (h : l.Holds (l.inAt i) a ∨ l.Holds (l.writtenOrAfter i) a) :
    ∃ r, (a, r) ∈ spans m l ∧ r.covers i = true := by
  obtain ⟨j, hj, hplaced⟩ := Liveness.exists_placedAt_iff.2 h
  rw [← hl.occursAt_eq hi] at hplaced
  obtain ⟨r, hr, hspan⟩ := Liveness.range?_spec hj hi hplaced
  refine ⟨r, List.mem_filterMap.2 ⟨a, ha, ?_⟩, Interval.covers_iff.2 hspan⟩
  rw [hr]
  rfl

end

/-- How the graph of live sets of a method compares with its graph of spans. -/
structure Refines (m : Method) (l : Liveness) (spanGraph liveGraph : Graph) : Prop where
  /-- The same variables are vertices, with the same keys. -/
  vertices : spanGraph.entries.Perm liveGraph.entries
  /-- Variables that are live together have spans that overlap. -/
  edges : ∀ a b, liveGraph.interfere a b = true → spanGraph.interfere a b = true
  together : ∀ v ∈ free m, ∀ w ∈ free m, v.name ≠ w.name →
    (liveGraph.interfere v.name w.name = true ↔ ∃ i < m.code.length, l.Together i v.name w.name)

/-- **The graph of live sets is within the graph of spans.**  For every method that can be analysed, both
strategies find the same vertices with the same keys.  Live sets join two locals or temporaries exactly if
some instruction has both live before it, or both written by it or live after it, and spans join these
too. -/
theorem live_graph_within_spans {m : Method} {l : Liveness} (h : Liveness.analyze m = .ok l) :
    graph m .ranges = .ok (.ofRanges (spans m l)) ∧
      graph m .liveSets = .ok (.ofLiveSets l ((free m).map Variable.name)) ∧
      Refines m l (.ofRanges (spans m l)) (.ofLiveSets l ((free m).map Variable.name)) := by
  have hl := Liveness.analyzed_of_ok h
  refine ⟨by rw [graph, h]; rfl, by rw [graph, h]; rfl, ?_, ?_, ?_⟩
  · refine Graph.entries_perm (Graph.ofRanges_spec _).1 (Graph.ofLiveSets_spec l _).1 fun a ↦ ?_
    rw [lookup_ofRanges_spans, Graph.lookup_ofLiveSets, hl.map_start_range?]
  · intro a b hab
    obtain ⟨hne, ha, hb, i, hi, hmeet⟩ := Graph.interfere_ofLiveSets.1 hab
    obtain ⟨r, hr, hri⟩ := exists_span hl ha hi hmeet.left
    obtain ⟨s, hs, hsi⟩ := exists_span hl hb hi hmeet.right
    exact (Graph.interfere_ofRanges nodup_map_fst_spans hr hs).2
      ⟨hne, Interval.overlaps_of_covers hri hsi⟩
  · intro v hv w hw hne
    rw [Graph.interfere_ofLiveSets, hl.length]
    simp only [hl.together_iff]
    refine ⟨fun h ↦ h.2.2.2, fun h ↦ ⟨hne, ?_, ?_, h⟩⟩
    · exact List.mem_map.2 ⟨v, hv, rfl⟩
    · exact List.mem_map.2 ⟨w, hw, rfl⟩

/-- A method that writes a local and never reads it before it writes it again; meanwhile it uses another. -/
def overwritten : Method where
  name := "overwritten"
  isStatic := true
  ret := .int
  code := [
    .assign (.var "a" .int) .int (.single (.literal "1" .int)),
    .assign (.var "b" .int) .int (.single (.literal "2" .int)),
    .assign (.var "a" .int) .int (.binary .add (.var "b" .int) (.literal "1" .int) .int),
    .ret (.var "a" .int) .int]
  vars := ⟨[⟨"a", .int, .declared, -1⟩, ⟨"b", .int, .declared, -1⟩], by decide⟩

/-- The locals of `overwritten` are never live together, but the span of one has that of the other. -/
theorem overwritten_live_graph_within_spans :
    ∃ l, Liveness.analyze overwritten = .ok l ∧
      Refines overwritten l (.ofRanges (spans overwritten l))
        (.ofLiveSets l ((free overwritten).map Variable.name)) ∧
      (Graph.ofRanges (spans overwritten l)).interfere "a" "b" = true ∧
      (Graph.ofLiveSets l ((free overwritten).map Variable.name)).interfere "a" "b" = false := by
  obtain ⟨l, hl, -⟩ := Liveness.analyze_spec (m := overwritten) (by decide)
  have hedges : (Liveness.analyze overwritten).toOption.map (fun l ↦
      ((Graph.ofRanges (spans overwritten l)).interfere "a" "b",
        (Graph.ofLiveSets l ((free overwritten).map Variable.name)).interfere "a" "b")) =
      some (true, false) := by decide +kernel
  rw [hl] at hedges
  obtain ⟨hspans, hlive⟩ := Prod.mk.inj (Option.some.inj hedges)
  exact ⟨l, hl, (live_graph_within_spans hl).2.2, hspans, hlive⟩

end Allocation

end MiniJava
