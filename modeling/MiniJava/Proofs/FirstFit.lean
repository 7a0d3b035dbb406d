import Mathlib.Data.List.Induction
import Mathlib.Data.List.Sort
import MiniJava.Proofs.Coloring

/-!
# First-fit colouring

A graph is made by changes, each of which adds a vertex or an edge (`ofChanges`).  Its vertices are the
ones added, with the key and in the place of the first time, and two of them are neighbours exactly if
they were connected when both were there.

The colours of a graph are those of first fit: all colours below that of a vertex are taken by
neighbours that are coloured before it (`exists_earlier_neighbor`), which are those of smaller key, or of
the same key and added earlier.  So a vertex never needs more colours than it has neighbours.

`firstFit_ofChanges` says all of this of every list of changes.
-/

set_option autoImplicit false

namespace MiniJava.Graph

variable {i : Nat} {g : Graph} {a b : Text}

/-! ## The order of colouring -/

/-- The vertex at `j` is coloured before the one at `i`: it has a smaller key, or the same key and was
added earlier. -/
def Earlier (g : Graph) (j i : Nat) : Prop :=
  (g.vertex j).key < (g.vertex i).key ∨ (g.vertex j).key = (g.vertex i).key ∧ j < i

/-- The key of the vertex at `i` is not above that of the one at `j`. -/
def leKey (g : Graph) (i j : Nat) : Bool := (g.vertex i).key ≤ (g.vertex j).key

/-- Vertices can be put in order by insertion, which can be evaluated. -/
theorem order_eq_insertionSort (g : Graph) :
    g.order = (List.range g.vertices.length).insertionSort fun i j ↦ g.leKey i j = true := by
  refine mergeSort_eq_insertionSort (fun i j k hij hjk ↦ ?_) (fun i j ↦ ?_) _
  · simp only [decide_eq_true_eq] at hij hjk ⊢
    exact Int.le_trans hij hjk
  · simp only [Bool.or_eq_true, decide_eq_true_eq]
    exact Int.le_total _ _

/-- A vertex that was added before all others goes in front of those of its key. -/
theorem pairwise_orderedInsert {l : List Nat} (hl : l.Pairwise g.Earlier) (hi : ∀ j ∈ l, i < j) :
    (l.orderedInsert (fun i j ↦ g.leKey i j = true) i).Pairwise g.Earlier := by
  induction l with
  | nil => exact List.pairwise_singleton _ _
  | cons j l ih =>
    obtain ⟨hj, hl'⟩ := List.pairwise_cons.1 hl
    obtain ⟨hij, hi'⟩ := List.forall_mem_cons.1 hi
    rw [List.orderedInsert_cons]
    split
    · rename_i hle
      refine List.pairwise_cons.2 ⟨fun k hk ↦ ?_, hl⟩
      rcases List.mem_cons.1 hk with rfl | hk
      · exact (Int.lt_or_eq_of_le (of_decide_eq_true hle)).imp_right fun h ↦ ⟨h, hij⟩
      · have hjk := hj k hk
        have hlt := hi k (List.mem_cons_of_mem j hk)
        grind [Earlier, leKey]
    · rename_i hlt
      refine List.pairwise_cons.2 ⟨fun k hk ↦ ?_, ih hl' hi'⟩
      rcases (List.mem_orderedInsert _).1 hk with rfl | hk
      · exact .inl (Int.not_le.1 (mt decide_eq_true hlt))
      · exact hj k hk

/-- Vertices are coloured in the order of their keys; the sort is stable, so that those of one key keep
the order they were added in. -/
theorem pairwise_order (g : Graph) : g.order.Pairwise g.Earlier := by
  rw [order_eq_insertionSort]
  have hrange := List.pairwise_lt_range (n := g.vertices.length)
  generalize List.range g.vertices.length = l at hrange ⊢
  induction hrange with
  | nil => exact .nil
  | cons hi _ ih =>
    exact pairwise_orderedInsert ih fun j hj ↦ hi j ((List.mem_insertionSort _).1 hj)

/-! ## All smaller colours are taken -/

/-- All numbers below the first free one are taken. -/
theorem mem_of_lt_firstFree {used : List Nat} {c : Nat} (h : c < firstFree used) : c ∈ used := by
  rw [firstFree] at h
  cases hf : (List.range (used.length + 1)).find? (fun c ↦ !used.contains c) with
  | none =>
    rw [hf] at h
    simp at h
  | some d =>
    rw [hf, Option.getD_some] at h
    simpa using (List.find?_range_eq_some.1 hf).2.2 c h

/-- The colours once the vertices of a list have theirs. -/
def colorAfter (g : Graph) (done : List Nat) : List (Option Nat) :=
  done.foldl (fun colors i ↦ colors.set i (some (g.pick colors i))) (g.vertices.map fun _ ↦ none)

/-- Colouring more vertices does not change the colour of another. -/
theorem getD_colorAfter_append {done more : List Nat} {j : Nat} (hj : j ∉ more) :
    (g.colorAfter (done ++ more)).getD j none = (g.colorAfter done).getD j none := by
  induction more using List.reverseRecOn with
  | nil => rw [List.append_nil]
  | append_singleton more i ih =>
    rw [List.mem_append, List.mem_singleton, not_or] at hj
    rw [← ih hj.1, ← List.append_assoc, colorAfter, List.foldl_concat, List.getD_eq_getElem?_getD,
      List.getElem?_set_ne (Ne.symm hj.2), ← List.getD_eq_getElem?_getD]
    rfl

theorem getD_colorAfter_of_not_mem {done : List Nat} {j : Nat} (hj : j ∉ done) :
    (g.colorAfter done).getD j none = none := by
  have h : (g.colorAfter ([] ++ done)).getD j none = (g.colorAfter []).getD j none :=
    getD_colorAfter_append hj
  rw [List.nil_append] at h
  rw [h, colorAfter, List.foldl_nil, List.getD_eq_getElem?_getD, List.getElem?_map]
  cases g.vertices[j]? <;> rfl

theorem length_colorAfter (g : Graph) (done : List Nat) :
    (g.colorAfter done).length = g.vertices.length := by
  induction done using List.reverseRecOn with
  | nil => exact List.length_map _
  | append_singleton done i ih =>
    rw [colorAfter, List.foldl_concat, List.length_set]
    exact ih

/-- **First fit**: every colour below that of a vertex is the colour of a neighbour that comes before
it. -/
theorem exists_earlier_neighbor {c d : Nat} (hc : g.colorList.getD i none = some c) (hd : d < c) :
    ∃ j, g.adj i j ∧ g.Earlier j i ∧ g.colorList.getD j none = some d := by
  have hlist : g.colorList = g.colorAfter g.order := rfl
  have hmem : i ∈ g.order := by
    by_contra hi
    rw [hlist, getD_colorAfter_of_not_mem hi] at hc
    cases hc
  obtain ⟨before, after, hsplit⟩ := List.append_of_mem hmem
  have hnodup : (before ++ i :: after).Nodup := by
    rw [← hsplit]
    exact (order_perm g).nodup_iff.2 List.nodup_range
  rw [List.nodup_append, List.nodup_cons] at hnodup
  -- the vertex got its colour when those of `before` had theirs, and kept it
  have hi : i < (g.colorAfter before).length := by
    rw [length_colorAfter]
    exact List.mem_range.1 ((order_perm g).mem_iff.1 hmem)
  have hpick : g.pick (g.colorAfter before) i = c := by
    rw [hlist, hsplit, List.append_cons, getD_colorAfter_append hnodup.2.1.1, colorAfter,
      List.foldl_concat] at hc
    have hset := getD_set hi (g.pick (g.colorAfter before) i) i
    rw [if_pos rfl] at hset
    exact Option.some.inj (hset.symm.trans hc)
  rw [← hpick, pick] at hd
  obtain ⟨j, hj, hjd⟩ := List.mem_filterMap.1 (mem_of_lt_firstFree hd)
  have hbefore : j ∈ before := by
    by_contra hj
    rw [getD_colorAfter_of_not_mem hj] at hjd
    cases hjd
  refine ⟨j, Bitmap.mem_toList.1 hj, ?_, ?_⟩
  · have hpair := g.pairwise_order
    rw [hsplit, List.pairwise_append] at hpair
    exact hpair.2.2 j hbefore i (by simp)
  · rw [hlist, hsplit, getD_colorAfter_append, hjd]
    exact fun h ↦ hnodup.2.2 j hbefore j h rfl

/-! ## The list of edges -/

theorem WellFormed.index?_iff (h : WellFormed g) : g.index? a = some i ↔ g.names[i]? = some a := by
  rw [index?_eq, List.idxOf?_eq_some_iff, List.getElem?_eq_some_iff]
  constructor
  · rintro ⟨hi, hn, -⟩
    exact ⟨hi, hn⟩
  · rintro ⟨hi, hn⟩
    refine ⟨hi, hn, fun j hj hne ↦ ?_⟩
    have := h.nodup.getElem_inj_iff.1 (hne.trans hn.symm)
    omega

theorem getElem?_vertices (hi : i < g.vertices.length) : g.vertices[i]? = some (g.vertex i) := by
  rw [vertex, List.getD_eq_getElem?_getD, List.getElem?_eq_getElem hi, Option.getD_some]

theorem getElem?_names (hi : i < g.vertices.length) : g.names[i]? = some (g.vertex i).name := by
  rw [names, List.getElem?_map, getElem?_vertices hi, Option.map_some]

theorem WellFormed.name_vertex (h : WellFormed g) (ha : g.index? a = some i) : (g.vertex i).name = a :=
  Option.some.inj ((getElem?_names (index?_lt ha)).symm.trans (h.index?_iff.1 ha))

/-- An edge is listed from the vertex that was added first. -/
theorem WellFormed.mem_edges (h : WellFormed g) :
    (a, b) ∈ g.edges ↔ ∃ i j, g.index? a = some i ∧ g.index? b = some j ∧ g.adj i j ∧ i < j := by
  rw [edges, List.mem_flatMap]
  constructor
  · rintro ⟨⟨v, i⟩, hv, hab⟩
    have hvi := List.mem_zipIdx_iff_getElem?.1 hv
    obtain ⟨j, hj, heq⟩ := List.mem_map.1 hab
    rw [List.mem_filter, Bitmap.mem_toList, decide_eq_true_eq] at hj
    obtain ⟨rfl, rfl⟩ := Prod.mk.inj heq
    have hadj : g.adj i j := by
      rw [adj, vertex, List.getD_eq_getElem?_getD, hvi]
      exact hj.1
    refine ⟨i, j, h.index?_iff.2 ?_, h.index?_iff.2 (getElem?_names (h.lt hadj)), hadj, hj.2⟩
    rw [names, List.getElem?_map, hvi]
    rfl
  · rintro ⟨i, j, ha, hb, hadj, hij⟩
    have hv := getElem?_vertices (index?_lt ha)
    refine ⟨(g.vertex i, i), List.mem_zipIdx_iff_getElem?.2 hv, List.mem_map.2 ⟨j, ?_, ?_⟩⟩
    · rw [List.mem_filter, Bitmap.mem_toList, decide_eq_true_eq]
      exact ⟨hadj, hij⟩
    · rw [h.name_vertex ha, h.name_vertex hb]

theorem WellFormed.nodup_edges (h : WellFormed g) : g.edges.Nodup := by
  have hname {v : Vertex} {i : Nat} (hv : (v, i) ∈ g.vertices.zipIdx) : g.names[i]? = some v.name := by
    rw [names, List.getElem?_map, List.mem_zipIdx_iff_getElem?.1 hv]
    rfl
  rw [edges, List.nodup_flatMap]
  constructor
  · rintro ⟨v, i⟩ hv
    refine List.Nodup.map_on (fun j hj k hk heq ↦ ?_) ((Bitmap.nodup_toList _).filter _)
    -- neighbours of one name stand at one index
    have hlt {t : Nat} (ht : t ∈ v.adj.toList.filter (i < ·)) : t < g.vertices.length := by
      refine h.lt (i := i) ?_
      rw [adj, vertex, List.getD_eq_getElem?_getD, List.mem_zipIdx_iff_getElem?.1 hv]
      exact Bitmap.mem_toList.1 (List.mem_filter.1 ht).1
    have hnames : g.names[j]? = g.names[k]? := by
      rw [getElem?_names (hlt hj), getElem?_names (hlt hk), (Prod.mk.inj heq).2]
    exact (List.getElem?_inj (by rw [length_names]; exact hlt hj) h.nodup).1 hnames
  · have hne : g.vertices.zipIdx.Pairwise fun p q ↦ p.2 ≠ q.2 := by
      refine List.pairwise_map.1 ?_
      rw [List.zipIdx_map_snd]
      exact List.nodup_range'
    refine hne.imp_of_mem ?_
    rintro ⟨v, i⟩ ⟨w, j⟩ hv hw hij e hev hew
    -- the two edges start at vertices of one name
    obtain ⟨_, _, rfl⟩ := List.mem_map.1 hev
    obtain ⟨_, _, heq⟩ := List.mem_map.1 hew
    have hnames : g.names[i]? = g.names[j]? := by
      rw [hname hv, hname hw, (Prod.mk.inj heq).1]
    exact hij ((List.getElem?_inj (List.getElem?_eq_some_iff.1 (hname hv)).1 h.nodup).1 hnames)

/-- **Every edge is listed exactly once**, in one of its two directions. -/
theorem WellFormed.count_edges (h : WellFormed g) (a b : Text) :
    g.edges.count (a, b) + g.edges.count (b, a) = if g.interfere a b = true then 1 else 0 := by
  rw [h.nodup_edges.count, h.nodup_edges.count]
  by_cases hab : g.interfere a b = true
  · rw [if_pos hab]
    obtain ⟨i, j, ha, hb, hadj⟩ := interfere_iff.1 hab
    rcases Nat.lt_or_gt_of_ne (h.ne hadj) with hij | hij
    · rw [if_pos (h.mem_edges.2 ⟨i, j, ha, hb, hadj, hij⟩), if_neg]
      intro hba
      obtain ⟨j', i', hj', hi', -, hlt⟩ := h.mem_edges.1 hba
      rw [hb, Option.some.injEq] at hj'
      rw [ha, Option.some.injEq] at hi'
      omega
    · rw [if_neg, if_pos (h.mem_edges.2 ⟨j, i, hb, ha, h.symm hadj, hij⟩)]
      intro hab
      obtain ⟨i', j', hi', hj', -, hlt⟩ := h.mem_edges.1 hab
      rw [ha, Option.some.injEq] at hi'
      rw [hb, Option.some.injEq] at hj'
      omega
  · rw [if_neg hab, if_neg, if_neg]
    · intro hba
      obtain ⟨j, i, hb, ha, hadj, -⟩ := h.mem_edges.1 hba
      exact hab (interfere_iff.2 ⟨i, j, ha, hb, h.symm hadj⟩)
    · intro hmem
      obtain ⟨i, j, ha, hb, hadj, -⟩ := h.mem_edges.1 hmem
      exact hab (interfere_iff.2 ⟨i, j, ha, hb, hadj⟩)

/-! ## Changes -/

/-- A change of a graph: a vertex or an edge is added. -/
inductive Change where
  | add (name : Text) (key : Int)
  | connect (a b : Text)
deriving DecidableEq, Repr, Inhabited

/-- The graph after a change. -/
def apply (g : Graph) : Change → Graph
  | .add name key => (g.add name key).1
  | .connect a b => g.connect a b

/-- The graph that changes make, starting without vertices. -/
def ofChanges (cs : List Change) : Graph := cs.foldl apply empty

theorem ofChanges_append_singleton (cs : List Change) (c : Change) :
    ofChanges (cs ++ [c]) = (ofChanges cs).apply c := List.foldl_concat ..

/-- The vertex that a change adds, with its key. -/
def Change.vertex? : Change → Option (Text × Int)
  | add name key => some (name, key)
  | connect _ _ => none

/-- The vertices that are added, with their keys; one that is added again stands there again. -/
def added (cs : List Change) : List (Text × Int) := cs.filterMap Change.vertex?

/-- The names of the vertices that are added. -/
def addedNames (cs : List Change) : List Text := (added cs).map Prod.fst

@[simp] theorem added_append_add (cs : List Change) (name : Text) (key : Int) :
    added (cs ++ [.add name key]) = added cs ++ [(name, key)] := List.filterMap_append

@[simp] theorem added_append_connect (cs : List Change) (a b : Text) :
    added (cs ++ [.connect a b]) = added cs := by
  rw [added, List.filterMap_append]
  exact List.append_nil _

@[simp] theorem addedNames_append_add (cs : List Change) (name : Text) (key : Int) :
    addedNames (cs ++ [.add name key]) = addedNames cs ++ [name] := by
  simp [addedNames]

@[simp] theorem addedNames_append_connect (cs : List Change) (a b : Text) :
    addedNames (cs ++ [.connect a b]) = addedNames cs := by
  rw [addedNames, added_append_connect, addedNames]

theorem added_append_joins (adds : List Change) {joins : List Change} (h : ∀ c ∈ joins, c.vertex? = none) :
    added (adds ++ joins) = added adds := by
  rw [added, List.filterMap_append, List.filterMap_eq_nil_iff.2 h]
  exact List.append_nil _

/-- One vertex comes before another: its key is smaller, or they have one key and it was added
earlier.  The first time that a vertex is added decides, both for its key and for its place. -/
def Precedes (cs : List Change) (a b : Text) : Prop :=
  ∃ k l, (added cs).lookup a = some k ∧ (added cs).lookup b = some l ∧
    (k < l ∨ k = l ∧ (addedNames cs).idxOf a < (addedNames cs).idxOf b)

/-- A change connects two vertices. -/
def Change.Joins (c : Change) (a b : Text) : Prop := c = .connect a b ∨ c = .connect b a

/-- Two vertices were connected when both were there. -/
def Joined (cs : List Change) (a b : Text) : Prop :=
  a ≠ b ∧ ∃ before c after, cs = before ++ c :: after ∧ c.Joins a b ∧
    a ∈ addedNames before ∧ b ∈ addedNames before

theorem joined_append_singleton {cs : List Change} {c : Change} : Joined (cs ++ [c]) a b ↔
      Joined cs a b ∨ (a ≠ b ∧ c.Joins a b ∧ a ∈ addedNames cs ∧ b ∈ addedNames cs) := by
  constructor
  · rintro ⟨hne, before, d, after, hcs, hjoins, ha, hb⟩
    rcases List.eq_nil_or_concat after with rfl | ⟨after', e, rfl⟩
    · obtain ⟨rfl, hcd⟩ := List.append_inj' hcs rfl
      obtain rfl := List.singleton_inj.1 hcd
      exact .inr ⟨hne, hjoins, ha, hb⟩
    · rw [List.concat_eq_append, ← List.cons_append, ← List.append_assoc] at hcs
      obtain ⟨rfl, -⟩ := List.append_inj' hcs rfl
      exact .inl ⟨hne, before, d, after', rfl, hjoins, ha, hb⟩
  · rintro (⟨hne, before, d, after, rfl, hjoins, ha, hb⟩ | ⟨hne, hjoins, ha, hb⟩)
    · exact ⟨hne, before, d, after ++ [c], by simp, hjoins, ha, hb⟩
    · exact ⟨hne, cs, c, [], rfl, hjoins, ha, hb⟩

/-- When no vertex is added after the first edge, the vertices that are connected are neighbours. -/
theorem joined_append_iff {adds joins : List Change} (hadds : ∀ c ∈ adds, ∀ a b, ¬ c.Joins a b)
    (hjoins : ∀ c ∈ joins, c.vertex? = none) : Joined (adds ++ joins) a b ↔
      a ≠ b ∧ a ∈ addedNames adds ∧ b ∈ addedNames adds ∧ ∃ c ∈ joins, c.Joins a b := by
  constructor
  · rintro ⟨hne, before, c, after, hcs, hc, ha, hb⟩
    have hsub : addedNames before ⊆ addedNames adds := by
      rw [addedNames, addedNames, ← added_append_joins adds hjoins, hcs]
      exact ((List.sublist_append_left before _).filterMap _ |>.map _).subset
    have hmem : c ∈ adds ++ joins := by
      rw [hcs]
      simp
    rcases List.mem_append.1 hmem with hadd | hjoin
    · exact absurd hc (hadds c hadd a b)
    · exact ⟨hne, hsub ha, hsub hb, c, hjoin, hc⟩
  · rintro ⟨hne, ha, hb, c, hjoin, hc⟩
    obtain ⟨before, after, rfl⟩ := List.append_of_mem hjoin
    have hsub : addedNames adds ⊆ addedNames (adds ++ before) :=
      ((List.sublist_append_left adds before).filterMap _ |>.map _).subset
    exact ⟨hne, adds ++ before, c, after, by simp, hc, hsub ha, hsub hb⟩

variable {name : Text}

theorem not_joins_add {key : Int} : ¬ (Change.add name key).Joins a b := by
  rintro (h | h) <;> cases h

/-! ## What changes leave behind -/

/-- The vertices with their keys. -/
def entries (g : Graph) : List (Text × Int) := g.vertices.map fun v ↦ (v.name, v.key)

theorem map_fst_entries (g : Graph) : g.entries.map Prod.fst = g.names := by
  rw [entries, List.map_map]
  rfl

theorem entries_add (g : Graph) (name : Text) (key : Int) : (g.add name key).1.entries =
    if name ∈ g.names then g.entries else g.entries ++ [(name, key)] :=
  map_vertices_add (fun v ↦ (v.name, v.key)) g name key

theorem entries_link (g : Graph) (i j : Nat) : (g.link i j).entries = g.entries :=
  map_vertices_link (fun _ _ ↦ rfl) g i j

theorem entries_connect (g : Graph) (a b : Text) : (g.connect a b).entries = g.entries := by
  rw [connect]
  split
  · split
    · rfl
    · rw [entries_link, entries_link]
  · rfl

/-- A new vertex stands behind those that are there. -/
theorem WellFormed.index?_add (h : WellFormed g) {key : Int} (hn : name ∉ g.names)
    (ha : (g.add name key).1.index? a = some i) :
    g.index? a = some i ∨ i = g.vertices.length ∧ a = name := by
  rw [(h.add name key).index?_iff, names_add, if_neg hn] at ha
  rcases Nat.lt_or_ge i g.names.length with hi | hi
  · rw [List.getElem?_append_left hi] at ha
    exact .inl (h.index?_iff.2 ha)
  · rw [List.getElem?_append_right hi, List.getElem?_singleton] at ha
    split at ha
    · rename_i hi'
      rw [length_names] at hi hi'
      exact .inr ⟨by omega, (Option.some.inj ha).symm⟩
    · cases ha

theorem WellFormed.interfere_add (h : WellFormed g) {key : Int} :
    (g.add name key).1.interfere a b = true ↔ g.interfere a b = true := by
  -- an edge joins vertices that were there, and those keep their indices
  have hindex {c : Text} {i : Nat} (hi : i < g.vertices.length) :
      (g.add name key).1.index? c = some i ↔ g.index? c = some i := by
    rw [(h.add name key).index?_iff, h.index?_iff, names_add]
    split
    · rfl
    · rw [List.getElem?_append_left (by rwa [length_names])]
  rw [interfere_iff, interfere_iff]
  simp only [adj_add]
  constructor
  · rintro ⟨i, j, ha, hb, hadj⟩
    exact ⟨i, j, (hindex (h.lt (h.symm hadj))).1 ha, (hindex (h.lt hadj)).1 hb, hadj⟩
  · rintro ⟨i, j, ha, hb, hadj⟩
    exact ⟨i, j, (hindex (index?_lt ha)).2 ha, (hindex (index?_lt hb)).2 hb, hadj⟩

theorem interfere_connect_iff {c d : Text} :
    (g.connect a b).interfere c d = true ↔ g.interfere c d = true ∨
      (c ≠ d ∧ (Change.connect a b).Joins c d ∧ c ∈ g.names ∧ d ∈ g.names) := by
  simp only [interfere_iff, index?_congr (names_connect g a b), adj_connect]
  constructor
  · rintro ⟨i, j, hc, hd, hadj | ⟨hij, hab⟩⟩
    · exact .inl ⟨i, j, hc, hd, hadj⟩
    · refine .inr ⟨fun hcd ↦ hij ?_, ?_, mem_names_of_index? hc, mem_names_of_index? hd⟩
      · rw [hcd, hd, Option.some.injEq] at hc
        exact hc.symm
      · rcases hab with ⟨ha, hb⟩ | ⟨hb, ha⟩
        · rw [index?_inj ha hc, index?_inj hb hd]
          exact .inl rfl
        · rw [index?_inj ha hd, index?_inj hb hc]
          exact .inr rfl
  · rintro (⟨i, j, hc, hd, hadj⟩ | ⟨hcd, hjoins, hc, hd⟩)
    · exact ⟨i, j, hc, hd, .inl hadj⟩
    · obtain ⟨i, hi⟩ := exists_index? hc
      obtain ⟨j, hj⟩ := exists_index? hd
      refine ⟨i, j, hi, hj, .inr ⟨fun hij ↦ hcd (index?_inj hi (hij ▸ hj)), ?_⟩⟩
      rcases hjoins with heq | heq
      · obtain ⟨rfl, rfl⟩ := Change.connect.inj heq
        exact .inl ⟨hi, hj⟩
      · obtain ⟨rfl, rfl⟩ := Change.connect.inj heq
        exact .inr ⟨hi, hj⟩

/-- A graph has the vertices and the edges that changes add, in the order of the changes. -/
structure Records (cs : List Change) (g : Graph) : Prop where
  wellFormed : g.WellFormed
  key : ∀ a, g.entries.lookup a = (added cs).lookup a
  order : ∀ {a b i j}, g.index? a = some i → g.index? b = some j →
    (i < j ↔ (addedNames cs).idxOf a < (addedNames cs).idxOf b)
  joined : ∀ {a b}, g.interfere a b = true ↔ Joined cs a b

namespace Records

variable {cs : List Change} {g : Graph}

theorem mem_names (h : Records cs g) : a ∈ g.names ↔ a ∈ addedNames cs := by
  have hlookup := h.key a
  rw [← map_fst_entries, addedNames]
  constructor
  · intro ha
    obtain ⟨⟨b, k⟩, hmem, rfl⟩ := List.mem_map.1 ha
    have hk := lookup_eq_some_of_mem (by rw [map_fst_entries]; exact h.wellFormed.nodup) hmem
    exact List.mem_map.2 ⟨_, mem_of_lookup_eq_some (hlookup.symm.trans hk), rfl⟩
  · intro ha
    obtain ⟨⟨b, k⟩, hmem, rfl⟩ := List.mem_map.1 ha
    cases hb : (added cs).lookup b with
    | some l =>
      exact List.mem_map.2 ⟨_, mem_of_lookup_eq_some (hlookup.trans hb), rfl⟩
    | none =>
      rw [List.lookup_eq_none_iff] at hb
      exact absurd (hb _ hmem) (by simp)

theorem add (h : Records cs g) (name : Text) (key : Int) :
    Records (cs ++ [.add name key]) (g.add name key).1 where
  wellFormed := h.wellFormed.add name key
  key := by
    intro a
    rw [added_append_add, List.lookup_append, ← h.key, entries_add]
    by_cases hn : name ∈ g.names
    · rw [if_pos hn]
      cases ha : g.entries.lookup a with
      | some k => rfl
      | none =>
        rw [← map_fst_entries, List.mem_map] at hn
        obtain ⟨⟨b, k⟩, hmem, rfl⟩ := hn
        have hne : a ≠ b := bne_iff_ne.1 (List.lookup_eq_none_iff.1 ha _ hmem)
        rw [Option.none_or, List.lookup_cons, beq_false_of_ne hne]
        rfl
    · rw [if_neg hn, List.lookup_append]
  order := by
    intro a b i j ha hb
    rw [addedNames_append_add]
    by_cases hn : name ∈ g.names
    · have hnames : (g.add name key).1.names = g.names := by rw [names_add, if_pos hn]
      rw [index?_congr hnames] at ha hb
      rw [List.idxOf_append_of_mem (h.mem_names.1 (mem_names_of_index? ha)),
        List.idxOf_append_of_mem (h.mem_names.1 (mem_names_of_index? hb))]
      exact h.order ha hb
    · have hmem {c : Text} {k : Nat} (hc : g.index? c = some k) : c ∈ addedNames cs :=
        h.mem_names.1 (mem_names_of_index? hc)
      have hnew : name ∉ addedNames cs := fun hm ↦ hn (h.mem_names.2 hm)
      rcases h.wellFormed.index?_add hn ha with ha' | ⟨rfl, rfl⟩
      · rcases h.wellFormed.index?_add hn hb with hb' | ⟨rfl, rfl⟩
        · rw [List.idxOf_append_of_mem (hmem ha'), List.idxOf_append_of_mem (hmem hb')]
          exact h.order ha' hb'
        · rw [List.idxOf_append_of_mem (hmem ha'), List.idxOf_append_of_notMem hnew]
          have := List.idxOf_lt_length_iff.2 (hmem ha')
          have := index?_lt ha'
          omega
      · rcases h.wellFormed.index?_add hn hb with hb' | ⟨rfl, rfl⟩
        · rw [List.idxOf_append_of_mem (hmem hb'), List.idxOf_append_of_notMem hnew]
          have := List.idxOf_lt_length_iff.2 (hmem hb')
          have := index?_lt hb'
          omega
        · simp
  joined := by
    intro a b
    rw [h.wellFormed.interfere_add, h.joined, joined_append_singleton, or_iff_left]
    rintro ⟨-, hjoins, -⟩
    exact not_joins_add hjoins

theorem connect (h : Records cs g) (a b : Text) :
    Records (cs ++ [.connect a b]) (g.connect a b) where
  wellFormed := h.wellFormed.connect a b
  key := by
    intro c
    rw [entries_connect, added_append_connect, h.key]
  order := by
    intro c d i j hc hd
    rw [index?_congr (names_connect g a b)] at hc hd
    rw [addedNames_append_connect]
    exact h.order hc hd
  joined := by
    intro c d
    rw [interfere_connect_iff, h.joined, joined_append_singleton, h.mem_names, h.mem_names]

end Records

theorem records_empty : Records [] empty where
  wellFormed := wellFormed_empty
  key := fun _ ↦ rfl
  order := fun ha ↦ by cases ha
  joined := by
    intro a b
    refine iff_of_false (by simp [interfere, index?, empty]) ?_
    rintro ⟨-, before, c, after, hcs, -⟩
    simp at hcs

theorem records_ofChanges (cs : List Change) : Records cs (ofChanges cs) := by
  induction cs using List.reverseRecOn with
  | nil => exact records_empty
  | append_singleton cs c ih =>
    rw [ofChanges_append_singleton]
    cases c with
    | add name key => exact ih.add name key
    | connect a b => exact ih.connect a b

/-! ## First fit, by names -/

namespace Records

variable {cs : List Change} {g : Graph} {a b : Text}

theorem lookup_added (h : Records cs g) (ha : g.index? a = some i) :
    (added cs).lookup a = some (g.vertex i).key := by
  rw [← h.key]
  refine lookup_eq_some_of_mem (by rw [map_fst_entries]; exact h.wellFormed.nodup) ?_
  have hv := getElem?_vertices (index?_lt ha)
  refine List.mem_map.2 ⟨g.vertex i, List.mem_of_getElem? hv, ?_⟩
  rw [h.wellFormed.name_vertex ha]

theorem precedes (h : Records cs g) {j : Nat} (ha : g.index? a = some i) (hb : g.index? b = some j)
    (hji : g.Earlier j i) : Precedes cs b a :=
  ⟨_, _, h.lookup_added hb, h.lookup_added ha, hji.imp_right fun ⟨hkey, hlt⟩ ↦
    ⟨hkey, (h.order hb ha).1 hlt⟩⟩

/-- Every colour below that of a vertex is the colour of a neighbour that comes before it. -/
theorem exists_preceding_neighbor (h : Records cs g) {c d : Nat} (hc : g.colors.lookup a = some c)
    (hd : d < c) : ∃ b, g.interfere a b = true ∧ Precedes cs b a ∧ g.colors.lookup b = some d := by
  have hmem : a ∈ g.names := by
    rw [← map_fst_colors h.wellFormed]
    exact List.mem_map.2 ⟨_, mem_of_lookup_eq_some hc, rfl⟩
  obtain ⟨i, ha⟩ := exists_index? hmem
  obtain ⟨c', hc', hi⟩ := lookup_colors h.wellFormed ha
  obtain rfl := Option.some.inj (hc'.symm.trans hc)
  obtain ⟨j, hadj, hearlier, hj⟩ := exists_earlier_neighbor hi hd
  have hb := h.wellFormed.index?_iff.2 (getElem?_names (h.wellFormed.lt hadj))
  obtain ⟨d', hd', hj'⟩ := lookup_colors h.wellFormed hb
  obtain rfl := Option.some.inj (hj'.symm.trans hj)
  exact ⟨_, interfere_iff.2 ⟨i, j, ha, hb, hadj⟩, h.precedes ha hb hearlier, hd'⟩

/-- No vertex has a colour above the number of its neighbours, since those have all smaller colours. -/
theorem color_le_degree (h : Records cs g) {c : Nat} (hc : g.colors.lookup a = some c) :
    c ≤ g.names.countP (g.interfere a) := by
  have hsub : List.range c ⊆
      (g.names.filter (g.interfere a)).filterMap fun b ↦ g.colors.lookup b := by
    intro d hd
    obtain ⟨b, hab, -, hb⟩ := h.exists_preceding_neighbor hc (List.mem_range.1 hd)
    obtain ⟨i, j, -, hj, -⟩ := interfere_iff.1 hab
    exact List.mem_filterMap.2 ⟨b, List.mem_filter.2 ⟨mem_names_of_index? hj, hab⟩, hb⟩
  calc c = (List.range c).length := List.length_range.symm
    _ ≤ _ := (List.nodup_range.subperm hsub).length_le
    _ ≤ (g.names.filter (g.interfere a)).length := List.length_filterMap_le _ _
    _ = g.names.countP (g.interfere a) := List.countP_eq_length_filter.symm

end Records

/-- A graph made by changes, and its first-fit colours. -/
structure FirstFit (cs : List Change) (g : Graph) : Prop where
  /-- The vertices are those that are added, each once. -/
  nodup : g.names.Nodup
  mem_names : ∀ a, a ∈ g.names ↔ a ∈ addedNames cs
  /-- The edges are between those that are connected. -/
  joined : ∀ a b, g.interfere a b = true ↔ Joined cs a b
  symm : ∀ a b, g.interfere a b = g.interfere b a
  irrefl : ∀ a, g.interfere a a = false
  /-- Each edge is listed once, in one of its two directions, and nothing else is listed. -/
  edges : ∀ a b, g.edges.count (a, b) + g.edges.count (b, a) = if g.interfere a b = true then 1 else 0
  /-- Each vertex has one colour. -/
  colors : g.colors.map Prod.fst = g.names
  proper : ∀ a b, g.interfere a b = true → g.colors.lookup a ≠ g.colors.lookup b
  /-- All smaller colours are taken by neighbours that come before. -/
  firstFit : ∀ a c d, g.colors.lookup a = some c → d < c →
    ∃ b, g.interfere a b = true ∧ Precedes cs b a ∧ g.colors.lookup b = some d
  degree : ∀ a c, g.colors.lookup a = some c → c ≤ g.names.countP (g.interfere a)

/-- **Every graph gets a proper first-fit colouring**, whatever changes it was made by. -/
theorem firstFit_ofChanges (cs : List Change) : FirstFit cs (ofChanges cs) := by
  have h := records_ofChanges cs
  have hw := h.wellFormed
  refine {
    nodup := hw.nodup
    mem_names := fun a ↦ h.mem_names
    joined := fun a b ↦ h.joined
    symm := fun a b ↦ Bool.eq_iff_iff.2 ⟨hw.interfere_symm, hw.interfere_symm⟩
    irrefl := fun a ↦ ?_
    edges := hw.count_edges
    colors := map_fst_colors hw
    proper := fun a b ↦ colors_ne_of_interfere hw
    firstFit := fun a c d ↦ h.exists_preceding_neighbor
    degree := fun a c ↦ h.color_le_degree }
  rw [Bool.eq_false_iff]
  intro ha
  exact (h.joined.1 ha).1 rfl

/-- Three vertices; the first is added again with another key, one edge is from a vertex to itself and
one is to a vertex that is not there yet. -/
example : (ofChanges [.add "a" 2, .add "b" 1, .add "a" 0, .connect "a" "a", .connect "b" "c",
    .connect "a" "b", .add "c" 1, .connect "c" "a"]).colors =
      [(("a" : Text), 1), (("b" : Text), 0), (("c" : Text), 0)] := by
  cbv

end MiniJava.Graph
