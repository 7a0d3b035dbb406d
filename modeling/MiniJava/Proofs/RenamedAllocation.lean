import MiniJava.Proofs.Renaming
import MiniJava.Proofs.StrategyChoice

/-!
# Slots do not depend on names

An allocation works with variables by their place in the table: liveness is about numbers, the graphs of
interference are joined and coloured by index, and vertices are taken in the order of instructions.  So a
method with other names gets the same slots (`method_rename`).

Each step is shown to commute with a renaming.  The front slots are given by name, to the receiver and the
parameters, so these names must stay.
-/

set_option autoImplicit false

namespace MiniJava

open IR

/-! ## Liveness -/

namespace Liveness

/-- The analysis with other names for the variables. -/
def rename (f : Equiv.Perm Text) (l : Liveness) : Liveness := { l with vars := l.vars.map f }

section
variable (f g : Equiv.Perm Text) {m : Method} {i : Nat}

theorem insertVar_rename {s s' : Bitmap} {name : Text} (h : insertVar m i s name = .ok s') :
    insertVar (m.rename f g) i s (f name) = .ok s' := by
  have hindex : ((m.rename f g).vars.vars.map Variable.name).idxOf? (f name) =
      (m.vars.vars.map Variable.name).idxOf? name := by
    rw [show (m.rename f g).vars = m.vars.rename f from rfl, VarTable.names_rename, idxOf?_map_perm]
  rw [insertVar] at h ⊢
  rw [hindex]
  cases hj : (m.vars.vars.map Variable.name).idxOf? name with
  | some j => rwa [hj] at h
  | none =>
    rw [hj] at h
    cases h

theorem foldlM_insertVar_rename {names : List Text} {s s' : Bitmap}
    (h : names.foldlM (insertVar m i) s = .ok s') :
    (names.map f).foldlM (insertVar (m.rename f g) i) s = .ok s' := by
  induction names generalizing s with
  | nil => exact h
  | cons name names ih =>
    rw [List.foldlM_cons] at h
    obtain ⟨s₁, hs₁, h⟩ := Except.bind_eq_ok.1 h
    rw [List.map_cons, List.foldlM_cons]
    exact Except.bind_eq_ok.2 ⟨s₁, insertVar_rename f g hs₁, ih h⟩

theorem target_rename {label : Text} {j : Int} (h : target m i label = .ok j) :
    target (m.rename f g) i (g label) = .ok j := by
  rw [target] at h ⊢
  rw [Method.target?_rename]
  cases ht : m.target? label with
  | some k => rwa [ht] at h
  | none =>
    rw [ht] at h
    cases h

theorem successors_rename {x : Instr} {js : List Int} (h : successors m i x = .ok js) :
    successors (m.rename f g) i (x.rename f g) = .ok js := by
  have hlength : (m.rename f g).code.length = m.code.length := List.length_map _
  cases x with
  | goto label =>
    obtain ⟨j, hj, h⟩ := Except.bind_eq_ok.1 h
    refine Except.bind_eq_ok.2 ⟨j, target_rename f g hj, ?_⟩
    rw [hlength]
    exact h
  | branch cond label =>
    obtain ⟨j, hj, h⟩ := Except.bind_eq_ok.1 h
    refine Except.bind_eq_ok.2 ⟨j, target_rename f g hj, ?_⟩
    rw [hlength]
    exact h
  | _ =>
    simp only [Instr.rename, successors, hlength]
    exact h

theorem flowAt_rename {x : Instr} {fl : Flow} (h : flowAt m i x = .ok fl) :
    flowAt (m.rename f g) i (x.rename f g) = .ok fl := by
  have hlength : (m.rename f g).vars.vars.length = m.vars.vars.length := List.length_map _
  obtain ⟨use, huse, h⟩ := Except.bind_eq_ok.1 h
  obtain ⟨defs, hdefs, h⟩ := Except.bind_eq_ok.1 h
  obtain ⟨succ, hsucc, h⟩ := Except.bind_eq_ok.1 h
  have hdefs' : (x.rename f g).defs?.toList = x.defs?.toList.map f := by
    rw [Instr.defs?_rename]
    cases x.defs? <;> rfl
  refine Except.bind_eq_ok.2 ⟨use, ?_, Except.bind_eq_ok.2 ⟨defs, ?_,
    Except.bind_eq_ok.2 ⟨succ, successors_rename f g hsucc, h⟩⟩⟩
  · rw [Instr.uses_rename, hlength]
    exact foldlM_insertVar_rename f g huse
  · rw [hdefs', hlength]
    exact foldlM_insertVar_rename f g hdefs

theorem build_rename {l : Liveness} (h : build m = .ok l) :
    build (m.rename f g) = .ok (l.rename f) := by
  have hlength : (m.rename f g).vars.vars.length = m.vars.vars.length := List.length_map _
  obtain ⟨flow, hflow, h⟩ := Except.bind_eq_ok.1 h
  cases h
  refine Except.bind_eq_ok.2 ⟨flow, ?_, ?_⟩
  · rw [Method.zipIdx_rename]
    refine Except.mapM_eq_ok.2 (List.forall₂_map_left_iff.2 ?_)
    exact (Except.mapM_eq_ok.1 hflow).imp fun p fl hp ↦ flowAt_rename f g hp
  · rw [hlength, show (m.rename f g).vars = m.vars.rename f from rfl, VarTable.names_rename]
    rfl

variable (l : Liveness)

theorem joinAt_rename (i : Nat) : (l.rename f).joinAt i = l.joinAt i := by
  rw [joinAt, joinAt, show (l.rename f).vars.length = l.vars.length from List.length_map _]
  rfl

theorem sweepAt_rename (i : Nat) :
    (l.rename f).sweepAt i = ((l.sweepAt i).1.rename f, (l.sweepAt i).2) := by
  simp only [sweepAt, joinAt_rename]
  rfl

theorem sweepList_rename (is : List Nat) :
    (l.rename f).sweepList is = ((l.sweepList is).1.rename f, (l.sweepList is).2) := by
  induction is generalizing l with
  | nil => rfl
  | cons i is ih => simp only [sweepList, sweepAt_rename, ih]

theorem sweepAll_rename :
    (l.rename f).sweepAll = (l.sweepAll.1.rename f, l.sweepAll.2) := by
  have hlength : (l.rename f).flow.length = l.flow.length := rfl
  simp only [sweepAll, sweepList_rename, hlength]
  rfl

theorem settle_rename (fuel : Nat) : settle fuel (l.rename f) = (settle fuel l).rename f := by
  induction fuel generalizing l with
  | zero => rfl
  | succ fuel ih =>
    simp only [settle, sweepAll_rename]
    split
    · exact ih _
    · rfl

theorem solve_rename {l' : Liveness} (h : l.solve = .ok l') :
    (l.rename f).solve = .ok (l'.rename f) := by
  have hbound : (l.rename f).bound = l.bound := by
    rw [bound, bound, show (l.rename f).vars.length = l.vars.length from List.length_map _]
    rfl
  have hrange : (l.rename f).inRange = l.inRange := rfl
  have hflow : (l.rename f).flow = l.flow := rfl
  rw [solve] at h ⊢
  rw [hflow, hrange, hbound, settle_rename]
  split at h
  · rename_i hlone
    cases h
    rw [if_pos hlone]
    rfl
  · rename_i hlone
    rw [if_neg hlone]
    split at h
    · rename_i hin
      cases h
      rw [if_pos hin]
    · cases h

theorem analyze_rename {l : Liveness} (h : analyze m = .ok l) :
    analyze (m.rename f g) = .ok (l.rename f) := by
  obtain ⟨l₀, hl₀, h⟩ := Except.bind_eq_ok.1 h
  exact Except.bind_eq_ok.2 ⟨_, build_rename f g hl₀, solve_rename f l₀ h⟩

theorem range?_rename (name : Text) : (l.rename f).range? (f name) = l.range? name := by
  rw [range?, range?, show (l.rename f).vars = l.vars.map f from rfl, idxOf?_map_perm]
  rfl

/-- The names of a set; the name that stands for no variable is the empty one. -/
theorem names_rename (hf : f "" = "") (s : Bitmap) : (l.rename f).names s = (l.names s).map f := by
  rw [names, names, List.map_map]
  refine List.map_congr_left fun j _ ↦ ?_
  rw [Function.comp_apply, List.getD_eq_getElem?_getD, List.getD_eq_getElem?_getD,
    show (l.rename f).vars = l.vars.map f from rfl, List.getElem?_map]
  cases l.vars[j]? with
  | some name => rfl
  | none => exact hf.symm

end

end Liveness

/-! ## Graphs -/

/-- The vertex with another name. -/
def Vertex.rename (f : Equiv.Perm Text) (v : Vertex) : Vertex := { v with name := f v.name }

namespace Graph

/-- The graph with other names for its vertices. -/
def rename (f : Equiv.Perm Text) (g : Graph) : Graph := ⟨g.vertices.map (Vertex.rename f)⟩

section
variable (f : Equiv.Perm Text) (g : Graph)

theorem index?_rename (name : Text) : (g.rename f).index? (f name) = g.index? name := by
  rw [index?, index?, rename, List.findIdx?_map]
  congr 1
  funext v
  exact beq_perm f v.name name

theorem add_rename (name : Text) (key : Int) :
    (g.rename f).add (f name) key = ((g.add name key).1.rename f, (g.add name key).2) := by
  rw [add, add, index?_rename]
  cases g.index? name with
  | some i => rfl
  | none => simp [rename, Vertex.rename]

theorem link_rename (i j : Nat) : (g.rename f).link i j = (g.link i j).rename f := by
  have hmodify (vs : List Vertex) (i : Nat) : (vs.map (Vertex.rename f)).modify i
      (fun v ↦ { v with adj := v.adj.insert j }) =
        (vs.modify i fun v ↦ { v with adj := v.adj.insert j }).map (Vertex.rename f) := by
    induction vs generalizing i with
    | nil => cases i <;> rfl
    | cons v vs ih =>
      cases i with
      | zero => rfl
      | succ i => simp only [List.map_cons, List.modify_succ_cons, ih]
  exact congrArg Graph.mk (hmodify g.vertices i)

theorem connect_rename (a b : Text) :
    (g.rename f).connect (f a) (f b) = (g.connect a b).rename f := by
  rw [connect, connect, index?_rename, index?_rename]
  cases g.index? a with
  | none => rfl
  | some i =>
    cases g.index? b with
    | none => rfl
    | some j =>
      simp only [link_rename]
      split <;> rfl

theorem connectAll_rename (names : List Text) :
    (g.rename f).connectAll (names.map f) = (g.connectAll names).rename f := by
  induction names generalizing g with
  | nil => rfl
  | cons a rest ih =>
    have hjoin : (rest.map f).foldl (fun g b ↦ g.connect (f a) b) (g.rename f) =
        (rest.foldl (fun g b ↦ g.connect a b) g).rename f := by
      rw [List.foldl_map]
      exact List.foldl_hom (rename f) fun g b ↦ connect_rename f g a b
    rw [List.map_cons, connectAll, connectAll, hjoin, ih]

/-- Spans with other names. -/
def renameSpans (f : Equiv.Perm Text) (rs : List (Text × Interval)) : List (Text × Interval) :=
  rs.map fun r ↦ (f r.1, r.2)

theorem joinOverlaps_rename (rs : List (Text × Interval)) :
    (g.rename f).joinOverlaps (renameSpans f rs) = (g.joinOverlaps rs).rename f := by
  induction rs generalizing g with
  | nil => rfl
  | cons a rest ih =>
    have hjoin : (renameSpans f rest).foldl
        (fun g b ↦ if a.2.overlaps b.2 then g.connect (f a.1) b.1 else g) (g.rename f) =
        (rest.foldl (fun g b ↦ if a.2.overlaps b.2 then g.connect a.1 b.1 else g) g).rename f := by
      rw [renameSpans, List.foldl_map]
      refine List.foldl_hom (rename f) fun g b ↦ ?_
      split
      · exact connect_rename f g a.1 b.1
      · rfl
    rw [renameSpans, List.map_cons, joinOverlaps, joinOverlaps, ← renameSpans, hjoin, ih]

theorem ofRanges_rename (rs : List (Text × Interval)) :
    ofRanges (renameSpans f rs) = (ofRanges rs).rename f := by
  have hadd : (renameSpans f rs).foldl (fun g r ↦ (g.add r.1 r.2.start).1) (empty.rename f) =
      (rs.foldl (fun g r ↦ (g.add r.1 r.2.start).1) empty).rename f := by
    rw [renameSpans, List.foldl_map]
    refine List.foldl_hom (rename f) fun g r ↦ ?_
    rw [add_rename]
  rw [ofRanges, ofRanges, ← joinOverlaps_rename, ← hadd]
  rfl

theorem ofLiveSets_rename (hf : f "" = "") (l : Liveness) (vars : List Text) :
    ofLiveSets (l.rename f) (vars.map f) = (ofLiveSets l vars).rename f := by
  have hkeep : (vars.map f).filterMap (l.rename f).vars.idxOf? = vars.filterMap l.vars.idxOf? := by
    rw [List.filterMap_map]
    congr 1
    funext name
    exact idxOf?_map_perm f l.vars name
  have hlength : (l.rename f).vars.length = l.vars.length := List.length_map _
  have hadd (i : Nat) (g : Graph) (names : List Text) :
      (names.map f).foldl (fun g v ↦ (g.add v i).1) (g.rename f) =
        (names.foldl (fun g v ↦ (g.add v i).1) g).rename f := by
    rw [List.foldl_map]
    refine List.foldl_hom (rename f) fun g v ↦ ?_
    rw [add_rename]
  rw [ofLiveSets, ofLiveSets, hkeep, hlength]
  generalize (vars.filterMap l.vars.idxOf?).foldl Bitmap.insert (.withCapacity l.vars.length) = keep
  have hvertices : (List.range l.flow.length).foldl
      (fun g i ↦ [(l.flowOf i).defs, l.outAt i, l.inAt i].foldl
        (fun g s ↦ ((l.rename f).names (s.inter keep)).foldl (fun g v ↦ (g.add v i).1) g) g)
      (empty.rename f) = ((List.range l.flow.length).foldl
      (fun g i ↦ [(l.flowOf i).defs, l.outAt i, l.inAt i].foldl
        (fun g s ↦ (l.names (s.inter keep)).foldl (fun g v ↦ (g.add v i).1) g) g) empty).rename f := by
    refine List.foldl_hom (rename f) fun g i ↦ List.foldl_hom (rename f) fun g s ↦ ?_
    rw [Liveness.names_rename f l hf, hadd]
  have hedges (g : Graph) : (List.range l.flow.length).foldl
      (fun g i ↦
        (g.connectAll ((l.rename f).names (((l.outAt i).union (l.flowOf i).defs).inter keep))).connectAll
          ((l.rename f).names ((l.inAt i).inter keep))) (g.rename f) =
      ((List.range l.flow.length).foldl
      (fun g i ↦ (g.connectAll (l.names (((l.outAt i).union (l.flowOf i).defs).inter keep))).connectAll
        (l.names ((l.inAt i).inter keep))) g).rename f := by
    refine List.foldl_hom (rename f) fun g i ↦ ?_
    rw [Liveness.names_rename f l hf, Liveness.names_rename f l hf, connectAll_rename,
      connectAll_rename]
  refine Eq.trans ?_ (hedges _)
  rw [← hvertices]
  rfl

/-! ## Colours -/

theorem colors_rename : (g.rename f).colors = g.colors.map fun p ↦ (f p.1, p.2) := by
  have hlength : (g.rename f).vertices.length = g.vertices.length := List.length_map _
  have hvertex (i : Nat) : ((g.rename f).vertex i).key = (g.vertex i).key ∧
      ((g.rename f).vertex i).adj = (g.vertex i).adj := by
    rw [vertex, vertex, List.getD_eq_getElem?_getD, List.getD_eq_getElem?_getD, rename,
      List.getElem?_map]
    cases g.vertices[i]? <;> exact ⟨rfl, rfl⟩
  have horder : (g.rename f).order = g.order := by
    simp only [order, hlength, hvertex]
  have hcolors : (g.rename f).colorList = g.colorList := by
    simp only [colorList, horder, pick, hvertex]
    rw [rename, List.map_map]
    rfl
  rw [colors, colors, hcolors, rename, List.zipWith_map_left, List.map_zipWith]
  rfl

end

end Graph

/-! ## Allocations -/

namespace Allocation

section
variable {f : Equiv.Perm Text} (g : Equiv.Perm Text) {m : Method} {s : Strategy}

theorem free_rename (f g : Equiv.Perm Text) (m : Method) :
    (free (m.rename f g)).map Variable.name = ((free m).map Variable.name).map f := by
  rw [free, free, show (m.rename f g).vars.vars = m.vars.vars.map (Variable.rename f) from rfl,
    List.filter_map, List.map_map, List.map_map]
  rfl

/-- The numbers of a strategy go with the variables. -/
theorem numbering_rename (hf : f "" = "") {numbers : List (Text × Nat)}
    (h : numbering m s = .ok numbers) :
    numbering (m.rename f g) s = .ok (numbers.map fun p ↦ (f p.1, p.2)) := by
  have hanalyze {l : Liveness} (hl : withinPlace "liveness" (Liveness.analyze m) = .ok l) :
      withinPlace "liveness" (Liveness.analyze (m.rename f g)) = .ok (l.rename f) :=
    withinPlace_eq_ok.2 (Liveness.analyze_rename f g (withinPlace_eq_ok.1 hl))
  cases s with
  | sequential =>
    cases h
    rw [numbering, free_rename, List.zipIdx_map]
    rfl
  | unknown name =>
    obtain ⟨e, he⟩ := numbering_unknown m name
    rw [he] at h
    cases h
  | ranges =>
    obtain ⟨graph, hgraph, h⟩ := Except.bind_eq_ok.1 h
    obtain ⟨l, hl, hgraph⟩ := Except.bind_eq_ok.1 hgraph
    cases h
    cases hgraph
    refine Except.bind_eq_ok.2 ⟨_, Except.bind_eq_ok.2 ⟨_, hanalyze hl, rfl⟩, ?_⟩
    have hspans : ((free (m.rename f g)).map Variable.name).filterMap
        (fun n ↦ ((l.rename f).range? n).map fun r ↦ (n, r)) = Graph.renameSpans f
          (((free m).map Variable.name).filterMap fun n ↦ (l.range? n).map fun r ↦ (n, r)) := by
      rw [free_rename, List.filterMap_map, Graph.renameSpans, List.map_filterMap]
      congr 1
      funext n
      rw [Function.comp_apply, Liveness.range?_rename, Option.map_map]
      rfl
    rw [hspans, Graph.ofRanges_rename, Graph.colors_rename]
    rfl
  | liveSets =>
    obtain ⟨graph, hgraph, h⟩ := Except.bind_eq_ok.1 h
    obtain ⟨l, hl, hgraph⟩ := Except.bind_eq_ok.1 hgraph
    cases h
    cases hgraph
    refine Except.bind_eq_ok.2 ⟨_, Except.bind_eq_ok.2 ⟨_, hanalyze hl, rfl⟩, ?_⟩
    rw [free_rename, Graph.ofLiveSets_rename f hf, Graph.colors_rename]
    rfl

/-- The names that an allocation knows by themselves stay as they are. -/
structure FixesFront (f : Equiv.Perm Text) (m : Method) : Prop where
  receiver : f Method.receiver = Method.receiver
  params : ∀ p ∈ m.params, f p.name = p.name

theorem setParams_rename {ps : List Param} (hf : ∀ p ∈ ps, f p.name = p.name) (t : VarTable)
    (slot : Nat) : setParams (t.rename f) ps slot = (setParams t ps slot).rename f := by
  induction ps generalizing t slot with
  | nil => rfl
  | cons p ps ih =>
    have hset := VarTable.setReg_rename f t p.name slot
    rw [hf p (by simp)] at hset
    rw [setParams, setParams, hset, ih fun q hq ↦ hf q (by simp [hq])]

theorem fixedVars_rename (hf : FixesFront f m) :
    fixedVars (m.rename f g) = (fixedVars m).rename f := by
  have hset := VarTable.setReg_rename f m.vars Method.receiver 0
  rw [hf.receiver] at hset
  rw [fixedVars, fixedVars, ← setParams_rename hf.params]
  congr 1
  split
  · rename_i hs
    rw [if_pos (show m.isStatic = true from hs)]
    rfl
  · rename_i hs
    rw [if_neg (show ¬ m.isStatic = true from hs)]
    exact hset

theorem standardTable_rename (hf : FixesFront f m) (ht : m.StandardTable) :
    (m.rename f g).StandardTable where
  receiver := by
    intro hs
    obtain ⟨x, hx, hk⟩ := ht.receiver hs
    have hget := VarTable.get?_rename f m.vars Method.receiver
    rw [hf.receiver, hx] at hget
    exact ⟨_, hget, hk⟩
  ofThis := by
    intro x hx hk
    obtain ⟨v, hv, rfl⟩ := List.mem_map.1 hx
    obtain ⟨hname, hs⟩ := ht.ofThis v hv hk
    refine ⟨?_, hs⟩
    rw [Variable.rename, hname, hf.receiver]
  nodup := ht.nodup
  param := by
    intro p hp
    obtain ⟨x, hx, hk⟩ := ht.param p hp
    have hget := VarTable.get?_rename f m.vars p.name
    rw [hf.params p hp, hx] at hget
    exact ⟨_, hget, hk⟩
  ofParam := by
    intro x hx hk
    obtain ⟨v, hv, rfl⟩ := List.mem_map.1 hx
    obtain ⟨p, hp, hname⟩ := ht.ofParam v hv hk
    refine ⟨p, hp, ?_⟩
    rw [Variable.rename, ← hname, hf.params p hp]
  known := by
    intro x hx
    obtain ⟨v, hv, rfl⟩ := List.mem_map.1 hx
    exact ht.known v hv

/-- A strategy that does not exist is refused once liveness is known. -/
theorem numbering_eq_error {l : Liveness} (hl : Liveness.analyze m = .ok l) (name : String) :
    numbering m (.unknown name) = .error { cause := .unknownStrategy name } := by
  simp only [numbering, graph, hl]
  rfl

/-- **A method with other names gets the same slots.** -/
theorem method_rename (hf : FixesFront f m) (hempty : f "" = "") (hc : m.check = .ok ())
    (ht : m.StandardTable) (s : Strategy) :
    SameOutcome (fun m' n' ↦ n' = m'.rename f g) (method s m) (method s (m.rename f g)) := by
  have ht' := standardTable_rename g hf ht
  have hvars : { m.rename f g with vars := fixedVars (m.rename f g) } =
      { m with vars := fixedVars m }.rename f g := by
    rw [fixedVars_rename g hf]
    rfl
  obtain ⟨reg, hreg⟩ := exists_fixedVars_eq m
  have hc' : { m with vars := fixedVars m }.check = .ok () := hreg ▸ check_mapReg hc reg
  have hknown (hs : Known s) :
      SameOutcome (fun m' n' ↦ n' = m'.rename f g) (method s m) (method s (m.rename f g)) := by
    obtain ⟨numbers, hnumbers, -⟩ := numbering_spec hs hc'
    have hrenamed := numbering_rename g hempty hnumbers
    rw [method_eq_ok ht hnumbers, method_eq_ok ht' (hvars ▸ hrenamed), fixedVars_rename g hf]
    refine .ok ?_
    have hmap : ((fixedVars m).rename f).mapReg
        (freeReg (m.rename f g) (numbers.map fun p ↦ (f p.1, p.2))) =
          ((fixedVars m).mapReg (freeReg m numbers)).rename f := by
      refine VarTable.mapReg_rename f (fixedVars m) fun v _ ↦ ?_
      rw [freeReg, freeReg, Variable.rename, lookup_map_perm]
      rfl
    rw [hmap]
    rfl
  cases s with
  | unknown name =>
    obtain ⟨l, hl, -⟩ := Liveness.analyze_spec hc'
    have hl' := Liveness.analyze_rename f g hl
    rw [← hvars] at hl'
    rw [method, run_eq_placeFree ht, run_placeFree_error (numbering_eq_error hl name), method,
      run_eq_placeFree ht', run_placeFree_error (numbering_eq_error hl' name)]
    exact .error _
  | ranges => exact hknown (.inl rfl)
  | liveSets => exact hknown (.inr (.inl rfl))
  | sequential => exact hknown (.inr (.inr rfl))

end

end Allocation

end MiniJava
