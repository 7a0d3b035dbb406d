import Mathlib.Data.List.Perm.Subperm
import MiniJava.Interference
import MiniJava.Proofs.Bitmap
import MiniJava.Proofs.Tables

/-!
# Greedy colouring is proper

A graph that is made by adding vertices and edges is well formed: its vertices have different names,
and each edge is seen from both of its ends (`WellFormed`).  In a well-formed graph no two neighbours
get one colour (`colors_ne_of_interfere`), since the later of the two avoids the colour of the earlier.

The file also says which edges the two builders put in: `connectAll_spec` for variables that are
live together, `joinOverlaps_spec` for overlapping spans.
-/

set_option autoImplicit false

namespace MiniJava

theorem Interval.overlaps_symm {a b : Interval} (h : a.overlaps b = true) :
    b.overlaps a = true := by
  rw [Interval.overlaps, Bool.and_eq_true] at h ⊢
  exact h.symm

namespace Graph

variable {g : Graph} {name a b : Text} {i j : Nat} {colors : List (Option Nat)}

/-! ## Vertices by name -/

theorem index?_eq (g : Graph) (name : Text) : g.index? name = g.names.idxOf? name := by
  rw [index?, names, List.idxOf?, List.findIdx?_map]
  rfl

theorem index?_congr {h : Graph} (hn : h.names = g.names) (name : Text) :
    h.index? name = g.index? name := by
  rw [index?_eq, index?_eq, hn]

theorem length_names (g : Graph) : g.names.length = g.vertices.length := List.length_map _

theorem index?_lt (h : g.index? name = some i) : i < g.vertices.length := by
  rw [index?_eq, List.idxOf?_eq_some_iff] at h
  obtain ⟨hi, -, -⟩ := h
  rwa [length_names] at hi

theorem getElem?_names_of_index? (h : g.index? name = some i) : g.names[i]? = some name := by
  rw [index?_eq, List.idxOf?_eq_some_iff] at h
  obtain ⟨hi, hn, -⟩ := h
  exact List.getElem?_eq_some_iff.2 ⟨hi, hn⟩

theorem exists_index? (h : name ∈ g.names) : ∃ i, g.index? name = some i := by
  rw [index?_eq]
  exact Option.isSome_iff_exists.1 (List.isSome_idxOf?.2 h)

theorem mem_names_of_index? (h : g.index? name = some i) : name ∈ g.names :=
  List.mem_of_getElem? (getElem?_names_of_index? h)

theorem index?_inj (ha : g.index? a = some i) (hb : g.index? b = some i) : a = b :=
  Option.some.inj ((getElem?_names_of_index? ha).symm.trans (getElem?_names_of_index? hb))

/-! ## Well-formed graphs -/

/-- The vertex at `i` has the neighbour `j`. -/
def adj (g : Graph) (i j : Nat) : Prop := (g.vertex i).adj.mem j = true

/-- Names are different, and an edge is seen from both of its ends. -/
structure WellFormed (g : Graph) : Prop where
  nodup : g.names.Nodup
  symm : ∀ {i j}, g.adj i j → g.adj j i
  lt : ∀ {i j}, g.adj i j → j < g.vertices.length
  ne : ∀ {i j}, g.adj i j → i ≠ j

theorem not_adj_of_length_le (hi : g.vertices.length ≤ i) : ¬ g.adj i j := by
  rw [adj, vertex, List.getD_eq_getElem?_getD, List.getElem?_eq_none hi]
  exact Bool.eq_false_iff.1 (Bitmap.mem_wordless j)

theorem wellFormed_empty : WellFormed empty := by
  have h {i j : Nat} : ¬ empty.adj i j := not_adj_of_length_le (Nat.zero_le i)
  exact ⟨List.nodup_nil, fun ha ↦ absurd ha h, fun ha ↦ absurd ha h, fun ha ↦ absurd ha h⟩

theorem interfere_iff :
    g.interfere a b = true ↔ ∃ i j, g.index? a = some i ∧ g.index? b = some j ∧ g.adj i j := by
  rw [interfere]
  cases ha : g.index? a with
  | none => simp
  | some i =>
    cases hb : g.index? b with
    | none => simp
    | some j => simp [adj]

/-! ## Adding vertices -/

variable {α : Type}

theorem map_vertices_add (f : Vertex → α) (g : Graph) (name : Text) (key : Int) :
    (g.add name key).1.vertices.map f = if name ∈ g.names then g.vertices.map f else
      g.vertices.map f ++ [f ⟨name, key, .withCapacity 0⟩] := by
  rw [add]
  cases h : g.index? name with
  | some i => rw [if_pos (mem_names_of_index? h)]
  | none =>
    rw [index?_eq, List.idxOf?_eq_none_iff] at h
    rw [if_neg h, List.map_append]
    rfl

theorem names_add (g : Graph) (name : Text) (key : Int) :
    (g.add name key).1.names = if name ∈ g.names then g.names else g.names ++ [name] :=
  map_vertices_add Vertex.name g name key

theorem mem_names_add {key : Int} : a ∈ (g.add name key).1.names ↔ a ∈ g.names ∨ a = name := by
  rw [names_add]
  split
  · rename_i h
    exact ⟨Or.inl, fun ha ↦ ha.elim id fun ha ↦ ha ▸ h⟩
  · rw [List.mem_append, List.mem_singleton]

theorem adj_add {key : Int} : (g.add name key).1.adj i j ↔ g.adj i j := by
  rw [add]
  split
  · rfl
  · rcases Nat.lt_trichotomy i g.vertices.length with hi | rfl | hi
    · rw [adj, adj, vertex, vertex, List.getD_eq_getElem?_getD, List.getElem?_append_left hi,
        ← List.getD_eq_getElem?_getD]
    · refine iff_of_false ?_ (not_adj_of_length_le (Nat.le_refl _))
      simp [adj, vertex]
    · refine iff_of_false (not_adj_of_length_le ?_) (not_adj_of_length_le (Nat.le_of_lt hi))
      rw [List.length_append, List.length_singleton]
      exact hi

theorem length_le_add (g : Graph) (name : Text) (key : Int) :
    g.vertices.length ≤ (g.add name key).1.vertices.length := by
  rw [add]
  split <;> simp

theorem WellFormed.add (h : WellFormed g) (name : Text) (key : Int) :
    WellFormed (g.add name key).1 := by
  refine ⟨?_, fun ha ↦ adj_add.2 (h.symm (adj_add.1 ha)),
    fun ha ↦ Nat.lt_of_lt_of_le (h.lt (adj_add.1 ha)) (length_le_add g name key),
    fun ha ↦ h.ne (adj_add.1 ha)⟩
  rw [names_add]
  split
  · exact h.nodup
  · rename_i hn
    exact List.nodup_append.2 ⟨h.nodup, List.nodup_singleton _, fun a ha b hb hab ↦
      hn (by rwa [← List.mem_singleton.1 hb, ← hab])⟩

/-! ## Adding edges -/

/-- A new neighbour changes nothing else of a vertex. -/
theorem map_vertices_link {f : Vertex → α} (hf : ∀ v adj, f { v with adj } = f v) (g : Graph) (i j : Nat) :
    (g.link i j).vertices.map f = g.vertices.map f := by
  rw [link]
  refine List.ext_getElem? fun k ↦ ?_
  rw [List.getElem?_map, List.getElem?_map, List.getElem?_modify]
  cases g.vertices[k]? with
  | none => rfl
  | some v => by_cases hk : i = k <;> simp [hk, hf]

theorem names_link (g : Graph) (i j : Nat) : (g.link i j).names = g.names :=
  map_vertices_link (fun _ _ ↦ rfl) g i j

theorem length_link (g : Graph) (i j : Nat) :
    (g.link i j).vertices.length = g.vertices.length := by
  rw [← length_names, names_link, length_names]

theorem adj_link (hi : i < g.vertices.length) {k t : Nat} :
    (g.link i j).adj k t ↔ g.adj k t ∨ (k = i ∧ t = j) := by
  rw [adj, adj, vertex, vertex, List.getD_eq_getElem?_getD, List.getD_eq_getElem?_getD, link,
    List.getElem?_modify]
  by_cases hk : i = k
  · subst hk
    rw [List.getElem?_eq_getElem hi]
    simp [or_comm, eq_comm (a := t)]
  · simp [hk, Ne.symm hk]

theorem names_connect (g : Graph) (a b : Text) : (g.connect a b).names = g.names := by
  rw [connect]
  split
  · split
    · rfl
    · rw [names_link, names_link]
  · rfl

theorem length_connect (g : Graph) (a b : Text) :
    (g.connect a b).vertices.length = g.vertices.length := by
  rw [← length_names, names_connect, length_names]

/-- The edges after an edge is added. -/
theorem adj_connect {k t : Nat} : (g.connect a b).adj k t ↔ g.adj k t ∨ (k ≠ t ∧
      ((g.index? a = some k ∧ g.index? b = some t) ∨
        (g.index? b = some k ∧ g.index? a = some t))) := by
  rw [connect]
  cases ha : g.index? a with
  | none => simp
  | some i =>
    cases hb : g.index? b with
    | none => simp
    | some j =>
      by_cases hij : i = j
      · subst hij
        simp only [if_pos, Option.some.injEq]
        grind
      · simp only [if_neg hij, Option.some.injEq]
        rw [adj_link (by rw [length_link]; exact index?_lt hb), adj_link (index?_lt ha)]
        grind

theorem WellFormed.connect (h : WellFormed g) (a b : Text) : WellFormed (g.connect a b) := by
  refine ⟨by rw [names_connect]; exact h.nodup, fun ha ↦ ?_, fun ha ↦ ?_, fun ha ↦ ?_⟩
  · rw [adj_connect] at ha ⊢
    rcases ha with ha | ⟨hne, ha⟩
    · exact .inl (h.symm ha)
    · exact .inr ⟨hne.symm, ha.symm.imp And.symm And.symm⟩
  · rw [length_connect]
    rcases adj_connect.1 ha with ha | ⟨-, ⟨-, ht⟩ | ⟨-, ht⟩⟩
    · exact h.lt ha
    · exact index?_lt ht
    · exact index?_lt ht
  · rcases adj_connect.1 ha with ha | ⟨hne, -⟩
    · exact h.ne ha
    · exact hne

/-! ## Graphs that only grow

`Extends g h` says that `h` has the vertices of `g` and no fewer edges. -/

/-- The same vertices and at least the same edges. -/
structure Extends (g h : Graph) : Prop where
  names : h.names = g.names
  adj : ∀ {i j}, g.adj i j → h.adj i j

theorem Extends.refl (g : Graph) : Extends g g := ⟨rfl, id⟩

theorem Extends.trans {h k : Graph} (hgh : Extends g h) (hhk : Extends h k) : Extends g k :=
  ⟨hhk.names.trans hgh.names, fun ha ↦ hhk.adj (hgh.adj ha)⟩

theorem Extends.interfere {h : Graph} (he : Extends g h) (hi : g.interfere a b = true) :
    h.interfere a b = true := by
  rw [interfere_iff] at hi ⊢
  obtain ⟨i, j, ha, hb, hij⟩ := hi
  exact ⟨i, j, by rwa [index?_congr he.names], by rwa [index?_congr he.names], he.adj hij⟩

theorem extends_connect (g : Graph) (a b : Text) : Extends g (g.connect a b) :=
  ⟨names_connect g a b, fun ha ↦ adj_connect.2 (.inl ha)⟩

theorem interfere_connect (ha : a ∈ g.names) (hb : b ∈ g.names) (hne : a ≠ b) :
    (g.connect a b).interfere a b = true := by
  obtain ⟨i, hi⟩ := exists_index? ha
  obtain ⟨j, hj⟩ := exists_index? hb
  have hij : i ≠ j := by
    rintro rfl
    exact hne (index?_inj hi hj)
  rw [interfere_iff]
  exact ⟨i, j, by rwa [index?_congr (names_connect g a b)],
    by rwa [index?_congr (names_connect g a b)], adj_connect.2 (.inr ⟨hij, .inl ⟨hi, hj⟩⟩)⟩

theorem WellFormed.interfere_symm (h : WellFormed g) (hi : g.interfere a b = true) :
    g.interfere b a = true := by
  rw [interfere_iff] at hi ⊢
  obtain ⟨i, j, ha, hb, hij⟩ := hi
  exact ⟨j, i, hb, ha, h.symm hij⟩

/-- Joining one vertex to those of a list that pass a test. -/
theorem foldl_connect (name : α → Text) (test : α → Bool) (a : Text) (bs : List α) (h : WellFormed g) :
    let g' := bs.foldl (fun g b ↦ if test b then g.connect a (name b) else g) g
    WellFormed g' ∧ Extends g g' ∧
      ∀ b ∈ bs, test b = true → a ∈ g.names → name b ∈ g.names → a ≠ name b →
        g'.interfere a (name b) = true := by
  induction bs generalizing g with
  | nil => exact ⟨h, Extends.refl g, by simp⟩
  | cons b bs ih =>
    rw [List.foldl_cons]
    by_cases hb : test b = true
    · rw [if_pos hb]
      obtain ⟨hw, he, hi⟩ := ih (h.connect a (name b))
      refine ⟨hw, (extends_connect g a (name b)).trans he, fun c hc htc ha hnc hne ↦ ?_⟩
      rcases List.mem_cons.1 hc with rfl | hc
      · exact he.interfere (interfere_connect ha hnc hne)
      · exact hi c hc htc (by rwa [names_connect]) (by rwa [names_connect]) hne
    · rw [if_neg hb]
      obtain ⟨hw, he, hi⟩ := ih h
      refine ⟨hw, he, fun c hc htc ↦ ?_⟩
      rcases List.mem_cons.1 hc with rfl | hc
      · exact absurd htc hb
      · exact hi c hc htc

/-! ## The two builders -/

/-- Vertices of a list that are there become neighbours, each of each. -/
theorem connectAll_spec (xs : List Text) (h : WellFormed g) :
    WellFormed (g.connectAll xs) ∧ Extends g (g.connectAll xs) ∧
      ∀ a ∈ xs, ∀ b ∈ xs, a ∈ g.names → b ∈ g.names → a ≠ b →
        (g.connectAll xs).interfere a b = true := by
  induction xs generalizing g with
  | nil => exact ⟨h, Extends.refl g, by simp⟩
  | cons x xs ih =>
    rw [connectAll]
    obtain ⟨hw, he, hi⟩ := foldl_connect (fun b : Text ↦ b) (fun _ ↦ true) x xs h
    simp only [if_true] at hw he hi
    obtain ⟨hw', he', hi'⟩ := ih hw
    refine ⟨hw', he.trans he', fun a ha b hb han hbn hne ↦ ?_⟩
    rcases List.mem_cons.1 ha with rfl | ha'
    · rcases List.mem_cons.1 hb with rfl | hb'
      · exact absurd rfl hne
      · exact he'.interfere (hi b hb' trivial han hbn hne)
    · rcases List.mem_cons.1 hb with rfl | hb'
      · exact hw'.interfere_symm (he'.interfere (hi a ha' trivial hbn han hne.symm))
      · exact hi' a ha' b hb' (by rwa [he.names]) (by rwa [he.names]) hne

/-- Vertices of a list that are there become neighbours when their spans overlap. -/
theorem joinOverlaps_spec (rs : List (Text × Interval)) (h : WellFormed g) :
    WellFormed (g.joinOverlaps rs) ∧ Extends g (g.joinOverlaps rs) ∧
      ∀ p ∈ rs, ∀ q ∈ rs, p.1 ∈ g.names → q.1 ∈ g.names → p.1 ≠ q.1 →
        p.2.overlaps q.2 = true → (g.joinOverlaps rs).interfere p.1 q.1 = true := by
  induction rs generalizing g with
  | nil => exact ⟨h, Extends.refl g, by simp⟩
  | cons r rs ih =>
    rw [joinOverlaps]
    obtain ⟨hw, he, hi⟩ := foldl_connect Prod.fst (fun b ↦ r.2.overlaps b.2) r.1 rs h
    obtain ⟨hw', he', hi'⟩ := ih hw
    refine ⟨hw', he.trans he', fun p hp q hq hpn hqn hne hov ↦ ?_⟩
    rcases List.mem_cons.1 hp with rfl | hp'
    · rcases List.mem_cons.1 hq with rfl | hq'
      · exact absurd rfl hne
      · exact he'.interfere (hi q hq' hov hpn hqn hne)
    · rcases List.mem_cons.1 hq with rfl | hq'
      · exact hw'.interfere_symm
          (he'.interfere (hi p hp' (Interval.overlaps_symm hov) hqn hpn hne.symm))
      · exact hi' p hp' q hq' (by rwa [he.names]) (by rwa [he.names]) hne hov

/-- Steps that each add some vertices add them all. -/
theorem foldl_names {f : Graph → α → Graph} {P : α → Text → Prop}
    (hf : ∀ g x, WellFormed g → WellFormed (f g x) ∧ ∀ a, a ∈ (f g x).names ↔ a ∈ g.names ∨ P x a)
    (xs : List α) (h : WellFormed g) :
    WellFormed (xs.foldl f g) ∧ ∀ a, a ∈ (xs.foldl f g).names ↔ a ∈ g.names ∨ ∃ x ∈ xs, P x a := by
  induction xs generalizing g with
  | nil => exact ⟨h, by simp⟩
  | cons x xs ih =>
    obtain ⟨hw, hn⟩ := hf g x h
    obtain ⟨hw', hn'⟩ := ih hw
    refine ⟨hw', fun a ↦ ?_⟩
    rw [List.foldl_cons, hn', hn, or_assoc]
    simp

theorem ofRanges_spec (rs : List (Text × Interval)) :
    WellFormed (ofRanges rs) ∧ (∀ a, a ∈ (ofRanges rs).names ↔ ∃ r ∈ rs, r.1 = a) ∧
      ∀ p ∈ rs, ∀ q ∈ rs, p.1 ≠ q.1 → p.2.overlaps q.2 = true →
        (ofRanges rs).interfere p.1 q.1 = true := by
  obtain ⟨hw, hn⟩ := foldl_names (f := fun g (r : Text × Interval) ↦ (g.add r.1 r.2.start).1)
    (P := fun r a ↦ a = r.1)
    (fun g r h ↦ ⟨h.add _ _, fun a ↦ mem_names_add⟩) rs wellFormed_empty
  obtain ⟨hw', he, hi⟩ := joinOverlaps_spec rs hw
  refine ⟨hw', fun a ↦ ?_, fun p hp q hq ↦ hi p hp q hq ?_ ?_⟩
  · rw [ofRanges, he.names, hn]
    simp [names, empty, eq_comm]
  · exact (hn p.1).2 (.inr ⟨p, hp, rfl⟩)
  · exact (hn q.1).2 (.inr ⟨q, hq, rfl⟩)

theorem mem_names_of_mem {l : Liveness} {b : Bitmap} (h : b.mem j = true) :
    l.vars.getD j "" ∈ l.names b :=
  List.mem_map.2 ⟨j, Bitmap.mem_toList.2 h, rfl⟩

/-- Cliques put in one after another are all there at the end. -/
theorem foldl_cliques (A B : α → List Text) (xs : List α) (h : WellFormed g) :
    let g' := xs.foldl (fun g x ↦ (g.connectAll (A x)).connectAll (B x)) g
    WellFormed g' ∧ Extends g g' ∧
      ∀ x ∈ xs, ∀ a ∈ A x, ∀ b ∈ A x, a ∈ g.names → b ∈ g.names → a ≠ b →
        g'.interfere a b = true := by
  induction xs generalizing g with
  | nil => exact ⟨h, Extends.refl g, by simp⟩
  | cons x xs ih =>
    obtain ⟨hwA, heA, hiA⟩ := connectAll_spec (A x) h
    obtain ⟨hwB, heB, -⟩ := connectAll_spec (B x) hwA
    obtain ⟨hw, he, hi⟩ := ih hwB
    refine ⟨hw, (heA.trans heB).trans he, fun y hy a ha b hb han hbn hne ↦ ?_⟩
    rcases List.mem_cons.1 hy with rfl | hy'
    · exact he.interfere (heB.interfere (hiA a ha b hb han hbn hne))
    · have hnames := (heA.trans heB).names
      exact hi y hy' a ha b hb (by rwa [hnames]) (by rwa [hnames]) hne

/-- What the graph of live sets has: a vertex for each variable of the list that is written or live
somewhere, and an edge between two of them that are live after an instruction or written by it. -/
theorem ofLiveSets_spec (l : Liveness) (vars : List Text) :
    WellFormed (ofLiveSets l vars) ∧
      (∀ i < l.flow.length, ∀ v ∈ vars, ∀ j, l.vars.idxOf? v = some j →
        ((l.flowOf i).defs.mem j = true ∨ (l.outAt i).mem j = true ∨ (l.inAt i).mem j = true) →
        l.vars.getD j "" ∈ (ofLiveSets l vars).names) ∧
      ∀ i < l.flow.length, ∀ v ∈ vars, ∀ w ∈ vars, ∀ j k, l.vars.idxOf? v = some j →
        l.vars.idxOf? w = some k → ((l.outAt i).union (l.flowOf i).defs).mem j = true →
        ((l.outAt i).union (l.flowOf i).defs).mem k = true → l.vars.getD j "" ≠ l.vars.getD k "" →
        (ofLiveSets l vars).interfere (l.vars.getD j "") (l.vars.getD k "") = true := by
  rw [ofLiveSets]
  generalize hkeep : (vars.filterMap l.vars.idxOf?).foldl Bitmap.insert
    (Bitmap.withCapacity l.vars.length) = keep
  have hmem {v : Text} (hv : v ∈ vars) {j : Nat} (hj : l.vars.idxOf? v = some j) :
      keep.mem j = true := by
    rw [← hkeep, Bitmap.mem_foldl_insert]
    exact .inl (List.mem_filterMap.2 ⟨v, hv, hj⟩)
  -- the vertices: the fold over places, over the three sets of a place, over the names of a set
  have hset (i : Nat) (g : Graph) (b : Bitmap) (h : WellFormed g) :=
    foldl_names (f := fun g v ↦ (g.add v (i : Int)).1) (P := fun v a ↦ a = v)
      (fun g v h ↦ ⟨h.add _ _, fun a ↦ mem_names_add⟩) (l.names (b.inter keep)) h
  have hplace (g : Graph) (i : Nat) (h : WellFormed g) :=
    foldl_names (f := fun g (b : Bitmap) ↦
      (l.names (b.inter keep)).foldl (fun g v ↦ (g.add v (i : Int)).1) g)
      (fun g b h ↦ hset i g b h) [(l.flowOf i).defs, l.outAt i, l.inAt i] h
  obtain ⟨hw, hn⟩ := foldl_names hplace (List.range l.flow.length) wellFormed_empty
  have hvert {i j : Nat} (hi : i < l.flow.length) (hk : keep.mem j = true)
      (hj : (l.flowOf i).defs.mem j = true ∨ (l.outAt i).mem j = true ∨
        (l.inAt i).mem j = true) := by
    refine (hn (l.vars.getD j "")).2 (.inr ⟨i, List.mem_range.2 hi, ?_⟩)
    have hin (b : Bitmap) (hb : b.mem j = true) : l.vars.getD j "" ∈ l.names (b.inter keep) :=
      mem_names_of_mem (by rw [Bitmap.mem_inter, hb, hk]; rfl)
    rcases hj with hj | hj | hj
    · exact ⟨_, by simp, _, hin _ hj, rfl⟩
    · exact ⟨_, by simp, _, hin _ hj, rfl⟩
    · exact ⟨_, by simp, _, hin _ hj, rfl⟩
  obtain ⟨hw', he, hi'⟩ := foldl_cliques
    (fun i ↦ l.names (((l.outAt i).union (l.flowOf i).defs).inter keep))
    (fun i ↦ l.names ((l.inAt i).inter keep)) (List.range l.flow.length) hw
  refine ⟨hw', fun i hi v hv j hj hm ↦ ?_, fun i hi v hv w hw j k hj hk hmj hmk hne ↦ ?_⟩
  · rw [he.names]
    exact hvert hi (hmem hv hj) hm
  · have hsplit {t : Nat} (ht : ((l.outAt i).union (l.flowOf i).defs).mem t = true) :
        (l.flowOf i).defs.mem t = true ∨ (l.outAt i).mem t = true ∨ (l.inAt i).mem t = true := by
      rw [Bitmap.mem_union, Bool.or_eq_true] at ht
      tauto
    refine hi' i (List.mem_range.2 hi) _ (mem_names_of_mem ?_) _ (mem_names_of_mem ?_)
      (hvert hi (hmem hv hj) (hsplit hmj)) (hvert hi (hmem hw hk) (hsplit hmk)) hne
    · rw [Bitmap.mem_inter, hmj, hmem hv hj]
      rfl
    · rw [Bitmap.mem_inter, hmk, hmem hw hk]
      rfl

/-! ## Colours -/

/-- The first free colour is free. -/
theorem firstFree_not_mem (used : List Nat) : firstFree used ∉ used := by
  rw [firstFree]
  cases hf : (List.range (used.length + 1)).find? (fun c ↦ !used.contains c) with
  | some c =>
    rw [Option.getD_some]
    simpa using List.find?_some hf
  | none =>
    -- otherwise all of the first `used.length + 1` numbers would be in `used`
    rw [List.find?_eq_none] at hf
    have hsub : List.range (used.length + 1) ⊆ used := fun c hc ↦ by simpa using hf c hc
    have hlen := (List.nodup_range.subperm hsub).length_le
    rw [List.length_range] at hlen
    omega

/-- The colours given so far: exactly the vertices of `done` have one, and neighbours differ. -/
structure Colored (g : Graph) (done : List Nat) (colors : List (Option Nat)) : Prop where
  length : colors.length = g.vertices.length
  given : ∀ i ∈ done, ∃ c, colors.getD i none = some c
  free : ∀ i, i ∉ done → colors.getD i none = none
  proper : ∀ i ∈ done, ∀ j ∈ done, g.adj i j → colors.getD i none ≠ colors.getD j none

theorem getD_set (hi : i < colors.length) (c : Nat) (k : Nat) :
    (colors.set i (some c)).getD k none = if i = k then some c else colors.getD k none := by
  rw [List.getD_eq_getElem?_getD, List.getD_eq_getElem?_getD, List.getElem?_set, if_pos hi]
  split <;> rfl

/-- The colour of a vertex differs from those its neighbours have so far. -/
theorem pick_ne {c : Nat} (hij : g.adj i j) (hj : colors.getD j none = some c) :
    g.pick colors i ≠ c := by
  intro hc
  refine firstFree_not_mem ((g.vertex i).adj.toList.filterMap fun j ↦ colors.getD j none) ?_
  rw [pick] at hc
  rw [hc, List.mem_filterMap]
  exact ⟨j, Bitmap.mem_toList.2 hij, hj⟩

theorem Colored.step (h : WellFormed g) {done : List Nat} (hc : Colored g done colors)
    (hi : i < g.vertices.length) (hn : i ∉ done) :
    Colored g (i :: done) (colors.set i (some (g.pick colors i))) := by
  have hget := getD_set (hc.length ▸ hi) (g.pick colors i)
  refine ⟨by rw [List.length_set, hc.length], fun k hk ↦ ?_, fun k hk ↦ ?_, fun k hk t ht ha ↦ ?_⟩
  · rw [hget]
    split
    · exact ⟨_, rfl⟩
    · rename_i hik
      exact hc.given k ((List.mem_cons.1 hk).resolve_left fun e ↦ hik e.symm)
  · rw [List.mem_cons, not_or] at hk
    rw [hget, if_neg fun e ↦ hk.1 e.symm]
    exact hc.free k hk.2
  · rw [hget, hget]
    rcases List.mem_cons.1 hk with rfl | hk'
    · rcases List.mem_cons.1 ht with rfl | ht'
      · exact absurd rfl (h.ne ha)
      · obtain ⟨c, hcol⟩ := hc.given t ht'
        rw [if_pos rfl, if_neg (h.ne ha), hcol]
        exact fun e ↦ pick_ne ha hcol (Option.some.inj e)
    · rcases List.mem_cons.1 ht with rfl | ht'
      · obtain ⟨c, hcol⟩ := hc.given k hk'
        rw [if_pos rfl, if_neg (h.ne ha).symm, hcol]
        exact fun e ↦ pick_ne (h.symm ha) hcol (Option.some.inj e.symm)
      · have hik : i ≠ k := fun e ↦ hn (e ▸ hk')
        have hit : i ≠ t := fun e ↦ hn (e ▸ ht')
        rw [if_neg hik, if_neg hit]
        exact hc.proper k hk' t ht' ha

theorem Colored.run (h : WellFormed g) {todo done : List Nat} (hc : Colored g done colors)
    (hd : todo.Nodup) (ht : ∀ i ∈ todo, i < g.vertices.length ∧ i ∉ done) :
    Colored g (todo.reverse ++ done)
      (todo.foldl (fun colors i ↦ colors.set i (some (g.pick colors i))) colors) := by
  induction todo generalizing done colors with
  | nil => exact hc
  | cons i todo ih =>
    rw [List.nodup_cons] at hd
    obtain ⟨hi, hn⟩ := ht i (by simp)
    have hrun := ih (hc.step h hi hn) hd.2 fun k hk ↦ by
      obtain ⟨hlt, hkd⟩ := ht k (by simp [hk])
      refine ⟨hlt, fun hm ↦ ?_⟩
      rcases List.mem_cons.1 hm with rfl | hm
      · exact hd.1 hk
      · exact hkd hm
    rw [List.reverse_cons, List.append_assoc]
    exact hrun

theorem order_perm (g : Graph) : g.order.Perm (List.range g.vertices.length) :=
  List.mergeSort_perm _ _

theorem colored_colorList (h : WellFormed g) : Colored g g.order.reverse g.colorList := by
  have hc : Colored g [] (g.vertices.map fun _ ↦ none) := by
    refine ⟨List.length_map _, by simp, fun i _ ↦ ?_, by simp⟩
    rw [List.getD_eq_getElem?_getD, List.getElem?_map]
    cases g.vertices[i]? <;> rfl
  have hd : g.order.Nodup := (order_perm g).nodup_iff.2 List.nodup_range
  have hrun := hc.run h hd fun i hi ↦
    ⟨List.mem_range.1 ((order_perm g).mem_iff.1 hi), List.not_mem_nil⟩
  rwa [List.append_nil] at hrun

theorem mem_order (hi : i < g.vertices.length) : i ∈ g.order.reverse :=
  List.mem_reverse.2 ((order_perm g).mem_iff.2 (List.mem_range.2 hi))

theorem map_fst_colors (h : WellFormed g) : g.colors.map Prod.fst = g.names := by
  have hlen := (colored_colorList h).length
  refine List.ext_getElem? fun i ↦ ?_
  rw [colors, names, List.getElem?_map, List.getElem?_zipWith, List.getElem?_map]
  cases hv : g.vertices[i]? with
  | none => rfl
  | some v =>
    have hi : i < g.colorList.length := hlen ▸ (List.getElem?_eq_some_iff.1 hv).1
    rw [List.getElem?_eq_getElem hi]
    rfl

/-- The colour of a vertex, by its name. -/
theorem lookup_colors (h : WellFormed g) (ha : g.index? a = some i) :
    ∃ c, g.colors.lookup a = some c ∧ g.colorList.getD i none = some c := by
  have hi := index?_lt ha
  have hcol := colored_colorList h
  obtain ⟨c, hc⟩ := hcol.given i (mem_order hi)
  refine ⟨c, lookup_eq_some_of_mem ?_ ?_, hc⟩
  · rw [map_fst_colors h]
    exact h.nodup
  · have hic : i < g.colorList.length := by rwa [hcol.length]
    have hname : (g.vertices[i]).name = a := by
      have := getElem?_names_of_index? ha
      rw [names, List.getElem?_map, List.getElem?_eq_getElem hi] at this
      exact Option.some.inj this
    refine List.mem_iff_getElem?.2 ⟨i, ?_⟩
    rw [List.getD_eq_getElem?_getD, List.getElem?_eq_getElem hic, Option.getD_some] at hc
    rw [colors, List.getElem?_zipWith, List.getElem?_eq_getElem hi, List.getElem?_eq_getElem hic]
    simp [hname, hc]

theorem exists_color (h : WellFormed g) (ha : a ∈ g.names) : ∃ c, g.colors.lookup a = some c := by
  obtain ⟨i, hi⟩ := exists_index? ha
  obtain ⟨c, hc, -⟩ := lookup_colors h hi
  exact ⟨c, hc⟩

/-- **Neighbours get different colours.** -/
theorem colors_ne_of_interfere (h : WellFormed g) (hab : g.interfere a b = true) :
    g.colors.lookup a ≠ g.colors.lookup b := by
  obtain ⟨i, j, ha, hb, hij⟩ := interfere_iff.1 hab
  obtain ⟨c, hc, hci⟩ := lookup_colors h ha
  obtain ⟨d, hd, hdj⟩ := lookup_colors h hb
  have hne := (colored_colorList h).proper i (mem_order (index?_lt ha)) j (mem_order (index?_lt hb)) hij
  rw [hc, hd]
  rwa [hci, hdj] at hne

end Graph

end MiniJava
