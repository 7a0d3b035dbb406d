import MiniJava.Proofs.WrittenRecords

/-!
# Aliases and what they stand for

`Node.expand` puts a copy of its node in the place of every alias.  Reading a node as a boolean or as a
record follows aliases, so it should not see the difference.  It nearly does not:

* The number of nodes that aliases led to is counted, and too many end the reading.  That can only
  happen before aliases are replaced.
* Keys of a mapping are the same if their nodes are, and an alias is never the same as a scalar.  So
  two keys may become the same.  `Node.keepsKeys` says of a mapping that this does not happen, and
  that no key turns into one that includes another mapping.

`Tracks` compares two steps of reading: whenever the first one goes through with nothing to report,
so does the second one, with the same result.  It is kept by `>>=` and proved of each step along the
recursion of the readers; `record?_expand` and `bool?_expand` are what comes out.
-/

set_option autoImplicit false

namespace MiniJava.Yaml

open ReadM

/-! ## Nodes without aliases -/

namespace Node

/-- Induction on a node, its items, its keys and values, and what it stands for. -/
theorem induction {P : Node → Prop} (scalar : ∀ h t, P (.scalar h t))
    (sequence : ∀ h items, (∀ n ∈ items, P n) → P (.sequence h items))
    (mapping : ∀ h entries, (∀ e ∈ entries, P e.1 ∧ P e.2) → P (.mapping h entries))
    (aliasOf : ∀ pos name target loose, P target → P (.aliasOf pos name target loose))
    (enclosing : ∀ pos name number h isMapping, P (.enclosing pos name number h isMapping))
    (n : Node) : P n :=
  @Node.rec P (fun items ↦ ∀ n ∈ items, P n) (fun entries ↦ ∀ e ∈ entries, P e.1 ∧ P e.2)
    (fun e ↦ P e.1 ∧ P e.2) scalar sequence mapping aliasOf enclosing (List.forall_mem_nil _)
    (fun _ _ hn hrest ↦ List.forall_mem_cons.2 ⟨hn, hrest⟩) (List.forall_mem_nil _)
    (fun _ _ he hrest ↦ List.forall_mem_cons.2 ⟨he, hrest⟩) (fun _ _ hk hv ↦ ⟨hk, hv⟩) n

mutual

/-- The node with a copy of what it stands for in the place of every alias. -/
def expand : Node → Node
  | scalar h t => scalar h t
  | sequence h items => sequence h (expandItems items)
  | mapping h entries => mapping h (expandEntries entries)
  | aliasOf _ _ target _ => expand target
  | enclosing pos name number h isMapping => enclosing pos name number h isMapping
termination_by structural n => n

/-- The same in every item. -/
def expandItems : List Node → List Node
  | [] => []
  | n :: rest => expand n :: expandItems rest
termination_by structural ns => ns

/-- The same in every key and value. -/
def expandEntries : List (Node × Node) → List (Node × Node)
  | [] => []
  | (k, v) :: rest => (expand k, expand v) :: expandEntries rest
termination_by structural es => es

end

mutual

/-- A property of the node, of all nodes in it and of those that aliases stand for. -/
def everywhere (p : Node → Bool) : Node → Bool
  | scalar h t => p (scalar h t)
  | sequence h items => p (sequence h items) && everyItem p items
  | mapping h entries => p (mapping h entries) && everyEntry p entries
  | aliasOf pos name target loose => p (aliasOf pos name target loose) && everywhere p target
  | enclosing pos name number h isMapping => p (enclosing pos name number h isMapping)
termination_by structural n => n

/-- The same of every item. -/
def everyItem (p : Node → Bool) : List Node → Bool
  | [] => true
  | n :: rest => everywhere p n && everyItem p rest
termination_by structural ns => ns

/-- The same of every key and value. -/
def everyEntry (p : Node → Bool) : List (Node × Node) → Bool
  | [] => true
  | (k, v) :: rest => everywhere p k && everywhere p v && everyEntry p rest
termination_by structural es => es

end

/-- The node stands for one elsewhere. -/
def isAlias : Node → Bool
  | aliasOf _ _ _ _ => true
  | _ => false

/-- Expanding the keys of a mapping does not change which of them include another mapping, and makes no
two of them the same. -/
def keepsKeys : Node → Bool
  | mapping _ entries =>
    (entries.map Prod.fst).all (fun k ↦ isInclusion k.expand == isInclusion k) &&
      decide ((entries.map Prod.fst).Pairwise fun k l ↦
        k.expand.sameKey l.expand = true → k.sameKey l = true)
  | _ => true

theorem expandItems_eq_map (items : List Node) : expandItems items = items.map expand := by
  induction items with
  | nil => rfl
  | cons n rest ih => rw [expandItems, ih, List.map_cons]

variable {p : Node → Bool}

theorem everyItem_iff {items : List Node} :
    everyItem p items = true ↔ ∀ n ∈ items, everywhere p n = true := by
  induction items with
  | nil => simp [everyItem]
  | cons n rest ih => rw [everyItem, Bool.and_eq_true, ih, List.forall_mem_cons]

theorem everyEntry_iff {entries : List (Node × Node)} :
    everyEntry p entries = true ↔
      ∀ e ∈ entries, everywhere p e.1 = true ∧ everywhere p e.2 = true := by
  induction entries with
  | nil => simp [everyEntry]
  | cons e rest ih => rw [everyEntry, Bool.and_eq_true, Bool.and_eq_true, ih, List.forall_mem_cons]

theorem everyItem_expandItems {items : List Node} (h : ∀ n ∈ items, n.expand.everywhere p = true) :
    everyItem p (expandItems items) = true := by
  rw [expandItems_eq_map, everyItem_iff, List.forall_mem_map]
  exact h

theorem everyEntry_expandEntries {entries : List (Node × Node)}
    (h : ∀ e ∈ entries, e.1.expand.everywhere p = true ∧ e.2.expand.everywhere p = true) :
    everyEntry p (expandEntries entries) = true := by
  induction entries with
  | nil => rfl
  | cons e rest ih =>
    obtain ⟨he, hrest⟩ := List.forall_mem_cons.1 h
    rw [expandEntries, everyEntry, he.1, he.2, ih hrest]
    rfl

/-- No alias is left. -/
theorem everywhere_expand (n : Node) : n.expand.everywhere (!·.isAlias) = true := by
  induction n using Node.induction with
  | scalar | enclosing => rfl
  | sequence head items ih => exact everyItem_expandItems ih
  | mapping head entries ih => exact everyEntry_expandEntries ih
  | aliasOf pos name target loose ih => exact ih

theorem tag_expand (n : Node) : n.expand.tag = n.tag := by
  induction n using Node.induction with
  | aliasOf pos name target loose ih => exact ih
  | scalar | sequence | mapping | enclosing => rfl

end Node

/-! ## Steps of reading side by side -/

/-- What has been read so far is the same, the first time with aliases and the second time without
them, and there is nothing to report. -/
structure Progress.Like (p q : Progress) : Prop where
  fields : q.fields = p.fields
  taken : q.taken = p.taken
  aliased : q.aliased = 0
  mismatches : q.mismatches = []

/-- Whenever the first step goes through with nothing to report, there was nothing to report before,
and the second step goes through as well, with the same result. -/
def Tracks {α : Type} (x y : ReadM α) : Prop :=
  ∀ p a p', x.run p = .ok (a, p') → p'.mismatches = [] →
    p.mismatches = [] ∧ ∀ q, p.Like q → ∃ q', y.run q = .ok (a, q') ∧ p'.Like q'

section
variable {α β : Type} {x y : ReadM α} {f g : α → ReadM β}

theorem ReadM.bind_eq_ok {p p'' : Progress} {b : β} :
    (x >>= f).run p = .ok (b, p'') ↔
      ∃ a p', x.run p = .ok (a, p') ∧ (f a).run p' = .ok (b, p'') := by
  rw [StateT.run_bind, Except.bind_eq_ok]
  simp [Prod.exists]

theorem Tracks.bind (h : Tracks x y) (hf : ∀ a, Tracks (f a) (g a)) :
    Tracks (x >>= f) (y >>= g) := by
  intro p b p'' hrun hnone
  obtain ⟨a, p', hx, hfa⟩ := ReadM.bind_eq_ok.1 hrun
  obtain ⟨hp', hg⟩ := hf a p' b p'' hfa hnone
  obtain ⟨hp, hy⟩ := h p a p' hx hp'
  refine ⟨hp, fun q hq ↦ ?_⟩
  obtain ⟨q', hyq, hq'⟩ := hy q hq
  obtain ⟨q'', hgq, hq''⟩ := hg q' hq'
  exact ⟨q'', ReadM.bind_eq_ok.2 ⟨a, q', hyq, hgq⟩, hq''⟩

theorem tracks_pure (a : α) : Tracks (pure a) (pure a) := by
  rintro p _ _ ⟨⟩ hnone
  exact ⟨hnone, fun q hq ↦ ⟨q, rfl, hq⟩⟩

theorem tracks_throw (halt : Halt) : Tracks (throw halt) y := by
  rintro p a p' ⟨⟩

theorem tracks_fault (pos : Position) (reason : String) : Tracks (fault pos reason) y :=
  tracks_throw _

/-- What comes after a report has no counterpart: a report is never taken back. -/
theorem Tracks.after_report {found : List Mismatch} (h : Tracks x y) (hfound : found ≠ [])
    {z : ReadM α} : Tracks (do report found; x) z := by
  intro p a p' hrun hnone
  obtain ⟨u, p₁, hreport, hx⟩ := ReadM.bind_eq_ok.1 hrun
  cases hreport
  exact absurd (List.append_eq_nil_iff.1 (h _ a p' hx hnone).1).2 hfound

theorem tracks_mismatch {found : Mismatch} {more : List Mismatch} {a : α} {z : ReadM α} :
    Tracks (do report (found :: more); return a) z :=
  (tracks_pure a).after_report (List.cons_ne_nil _ _)

theorem tracks_modify {u : Progress → Progress}
    (hu : ∀ p q, p.Like q → (u p).Like (u q)) (hm : ∀ p, (u p).mismatches = p.mismatches) :
    Tracks (modify u) (modify u) := by
  rintro p _ _ ⟨⟩ hnone
  exact ⟨(hm p).symm.trans hnone, fun q hq ↦ ⟨u q, rfl, hu p q hq⟩⟩

theorem tracks_report_nil : Tracks (report []) (report []) :=
  tracks_modify (fun _ _ h ↦ ⟨h.fields, h.taken, h.aliased, by rw [h.mismatches, List.append_nil]⟩)
    fun _ ↦ List.append_nil _

theorem tracks_setTaken (taken : Option (List Key)) : Tracks (setTaken taken) (setTaken taken) :=
  tracks_modify (fun _ _ h ↦ ⟨h.fields, rfl, h.aliased, h.mismatches⟩) fun _ ↦ rfl

theorem tracks_get {f g : Progress → ReadM β} (h : ∀ p q, p.Like q → Tracks (f p) (g q)) :
    Tracks (get >>= f) (get >>= g) := by
  intro p b p' hrun hnone
  have hlike : p.Like { p with aliased := 0, mismatches := [] } := ⟨rfl, rfl, rfl, rfl⟩
  refine ⟨(h p _ hlike p b p' hrun hnone).1, fun q hq ↦ ?_⟩
  exact (h p q hq p b p' hrun hnone).2 q hq

/-- What counting leaves, if it does not end the reading. -/
theorem countNode_eq_ok {inside : Bool} {pos : Position} {p p' : Progress} {u : Unit}
    (h : (countNode inside pos).run p = .ok (u, p')) :
    p'.fields = p.fields ∧ p'.taken = p.taken ∧ p'.mismatches = p.mismatches := by
  obtain ⟨p₁, p₂, hget, h⟩ := ReadM.bind_eq_ok.1 h
  cases hget
  generalize (if inside = true then 1 else 0) = more at h
  dsimp only at h
  split at h
  · cases h
  · cases h
    exact ⟨rfl, rfl, rfl⟩

theorem Tracks.skip_countNode {inside : Bool} {pos : Position} (h : Tracks x y) :
    Tracks (do countNode inside pos; x) y := by
  intro p a p'' hrun hnone
  obtain ⟨u, p', hcount, hx⟩ := ReadM.bind_eq_ok.1 hrun
  obtain ⟨hfields, htaken, hmismatches⟩ := countNode_eq_ok hcount
  obtain ⟨hp', hy⟩ := h p' a p'' hx hnone
  refine ⟨hmismatches.symm.trans hp', fun q hq ↦ hy q ?_⟩
  exact ⟨hq.fields.trans hfields.symm, hq.taken.trans htaken.symm, hq.aliased, hq.mismatches⟩

theorem tracks_countNode (inside : Bool) (pos pos' : Position) :
    Tracks (countNode inside pos) (countNode false pos') := by
  rintro p ⟨⟩ p' hrun hnone
  obtain ⟨hfields, htaken, hmismatches⟩ := countNode_eq_ok hrun
  refine ⟨hmismatches.symm.trans hnone, fun q hq ↦ ⟨_, run_countNode hq.aliased pos', ?_⟩⟩
  exact ⟨hq.fields.trans hfields.symm, hq.taken.trans htaken.symm, hq.aliased, hq.mismatches⟩

end

/-! ## Scalars -/

theorem tracks_scalarKey (head : Head) (text : Text) :
    Tracks (scalarKey head text) (scalarKey head text) := by
  rw [scalarKey]
  split
  · split
    · exact tracks_pure _
    · exact tracks_fault _ _
  · split
    · split
      · exact tracks_pure _
      · exact tracks_fault _ _
    · exact tracks_pure _

theorem mappingMismatch_ne_nil (head : Head) (entries : List (Node × Node)) (target : String) :
    mappingMismatch head entries target ≠ [] := by
  rw [mappingMismatch]
  split
  · exact List.cons_ne_nil _ _
  · assumption

theorem tracks_readString (n : Node) (inside : Bool) :
    Tracks (n.readString inside) (n.expand.readString false) := by
  induction n using Node.induction generalizing inside with
  | scalar head text =>
    refine (tracks_countNode _ _ _).bind fun _ ↦ (tracks_scalarKey head text).bind fun key ↦ ?_
    split <;> exact tracks_pure _
  | sequence head items => exact tracks_mismatch.skip_countNode
  | mapping head entries =>
    exact ((tracks_pure _).after_report (mappingMismatch_ne_nil _ _ _)).skip_countNode
  | aliasOf pos name target loose ih => exact (ih true).skip_countNode
  | enclosing pos name number head isMapping =>
    exact tracks_mismatch.skip_countNode.skip_countNode

theorem tracks_readBool (n : Node) (inside : Bool) :
    Tracks (n.readBool inside) (n.expand.readBool false) := by
  induction n using Node.induction generalizing inside with
  | scalar head text =>
    refine (tracks_countNode _ _ _).bind fun _ ↦ (tracks_scalarKey head text).bind fun key ↦ ?_
    split
    · exact tracks_pure _
    · split
      · exact tracks_mismatch
      · exact tracks_pure _
  | sequence head items => exact tracks_mismatch.skip_countNode
  | mapping head entries =>
    exact ((tracks_pure _).after_report (mappingMismatch_ne_nil _ _ _)).skip_countNode
  | aliasOf pos name target loose ih => exact (ih true).skip_countNode
  | enclosing pos name number head isMapping =>
    exact tracks_mismatch.skip_countNode.skip_countNode

theorem tracks_readField (s : Schema) (field : String) (n : Node) (inside : Bool) :
    Tracks (readField inside s field n) (readField false s field n.expand) := by
  have hset (value : Option FieldValue) : Tracks
      (modify fun p ↦ { p with fields := (value.map fun v ↦ (field, v)).toList ++ p.fields })
      (modify fun p ↦ { p with fields := (value.map fun v ↦ (field, v)).toList ++ p.fields }) :=
    tracks_modify (fun p q h ↦ ⟨by rw [h.fields], h.taken, h.aliased, h.mismatches⟩) fun _ ↦ rfl
  rw [readField, readField]
  split
  · exact (tracks_readString n inside).bind fun _ ↦ (tracks_pure _).bind hset
  · exact (tracks_readBool n inside).bind fun _ ↦ (tracks_pure _).bind hset

/-! ## Mappings -/

theorem duplicateKeys_eq_nil_iff {keys : List Node} :
    duplicateKeys keys = [] ↔ keys.Pairwise fun k l ↦ ¬ k.sameKey l = true := by
  induction keys with
  | nil => simp [duplicateKeys]
  | cons k rest ih =>
    rw [duplicateKeys, List.append_eq_nil_iff, List.map_eq_nil_iff, List.filter_eq_nil_iff, ih,
      List.pairwise_cons]

theorem Node.map_fst_expandEntries (entries : List (Node × Node)) :
    (expandEntries entries).map Prod.fst = (entries.map Prod.fst).map expand := by
  induction entries with
  | nil => rfl
  | cons e rest ih => rw [expandEntries, List.map_cons, ih, List.map_cons, List.map_cons]

theorem tracks_reportDuplicates {head : Head} {entries : List (Node × Node)}
    (h : (Node.mapping head entries).keepsKeys = true) :
    Tracks (reportDuplicates entries) (reportDuplicates (Node.expandEntries entries)) := by
  by_cases hnil : duplicateKeys (entries.map Prod.fst) = []
  · have hkeep := of_decide_eq_true (Bool.and_eq_true_iff.1 h).2
    have hnil' : duplicateKeys ((Node.expandEntries entries).map Prod.fst) = [] := by
      rw [Node.map_fst_expandEntries, duplicateKeys_eq_nil_iff, List.pairwise_map]
      exact ((duplicateKeys_eq_nil_iff.1 hnil).and hkeep).imp fun hkl ↦ mt hkl.2 hkl.1
    rw [reportDuplicates, reportDuplicates, hnil, hnil']
    exact tracks_report_nil.bind fun _ ↦ tracks_pure _
  · exact (tracks_pure _).after_report hnil

theorem tracks_readMapping {entries entries' : Option (List Key) → ReadM (Option (List Key))}
    {keys keys' : ReadM Unit} {inclusion inclusion' : Option (ReadM Unit)}
    (hentries : ∀ taken, Tracks (entries taken) (entries' taken)) (hkeys : Tracks keys keys')
    (hinclusion : Option.Rel Tracks inclusion inclusion') :
    Tracks (readMapping entries keys inclusion) (readMapping entries' keys' inclusion') := by
  refine tracks_get fun p q hq ↦ (tracks_setTaken none).bind fun _ ↦ ?_
  rw [hq.taken]
  refine (hentries p.taken).bind fun taken ↦ (tracks_setTaken taken).bind fun _ ↦ ?_
  cases hinclusion with
  | none => exact tracks_pure _
  | some hstep =>
    dsimp only
    split
    · exact (tracks_setTaken _).bind fun _ ↦ hkeys.bind fun _ ↦ hstep.bind fun _ ↦ tracks_setTaken none
    · exact hstep.bind fun _ ↦ tracks_pure _

/-- Where nothing is expected, and where a mapping is included, a node is read as its expansion is. -/
structure Node.ReadsAlike (n : Node) : Prop where
  any : ∀ inside, Tracks (readAny inside n) (readAny false n.expand)
  included : ∀ inside target several,
    Tracks (readIncluded inside target several n) (readIncluded false target several n.expand)

/-- The key of an entry is the same before what follows it. -/
theorem tracks_key {β : Type} {k : Node} (hk : k.ReadsAlike) {f g : Option Any → ReadM β}
    (hfg : ∀ key, Tracks (f key) (g key)) (inside named : Bool) :
    Tracks
      (if named then do
        let t ← k.readString inside
        let key ← pure (t.map fun t ↦ Any.scalar (.text t))
        f key
      else do
        let key ← readAny inside k
        f key)
      (if named then do
        let t ← k.expand.readString false
        let key ← pure (t.map fun t ↦ Any.scalar (.text t))
        g key
      else do
        let key ← readAny false k.expand
        g key) := by
  split
  · exact (tracks_readString k inside).bind fun _ ↦ (tracks_pure _).bind hfg
  · exact (hk.any inside).bind hfg

section
variable {entries : List (Node × Node)} (h : ∀ e ∈ entries, e.1.ReadsAlike ∧ e.2.ReadsAlike)
  (hinc : ∀ e ∈ entries, isInclusion e.1.expand = isInclusion e.1)
include h

theorem tracks_readKeys (inside : Bool) :
    Tracks (readKeys inside entries) (readKeys false (Node.expandEntries entries)) := by
  induction entries with
  | nil => exact tracks_pure _
  | cons e rest ih =>
    obtain ⟨he, hrest⟩ := List.forall_mem_cons.1 h
    refine (he.1.any inside).bind fun key ↦ ?_
    split
    · exact ih hrest
    · exact (tracks_throw _).bind fun _ ↦ ih hrest
    · refine Tracks.bind (tracks_modify (fun p q h ↦ ?_) fun _ ↦ rfl) fun _ ↦ ih hrest
      exact ⟨h.fields, by rw [h.taken], h.aliased, h.mismatches⟩

include hinc

theorem tracks_readInclusion (inside : Bool) (target : Target) :
    Option.Rel Tracks (readInclusion inside target entries)
      (readInclusion false target (Node.expandEntries entries)) := by
  induction entries with
  | nil => exact .none
  | cons e rest ih =>
    obtain ⟨he, hrest⟩ := List.forall_mem_cons.1 h
    obtain ⟨hi, hinc⟩ := List.forall_mem_cons.1 hinc
    specialize ih hrest hinc
    rw [Node.expandEntries, readInclusion, readInclusion, hi]
    generalize readInclusion inside target rest = step at ih ⊢
    generalize readInclusion false target (Node.expandEntries rest) = step' at ih ⊢
    cases ih with
    | some hstep => exact .some hstep
    | none =>
      dsimp only
      split
      · exact .some (he.2.included inside target true)
      · exact .none

theorem tracks_readEntries (inside : Bool) (target : Target) (done : List String)
    (taken : Option (List Key)) :
    Tracks (readEntries inside target entries done taken)
      (readEntries false target (Node.expandEntries entries) done taken) := by
  induction entries generalizing done taken with
  | nil => exact tracks_pure _
  | cons e rest ih =>
    obtain ⟨he, hrest⟩ := List.forall_mem_cons.1 h
    obtain ⟨hi, hinc⟩ := List.forall_mem_cons.1 hinc
    specialize ih hrest hinc
    rw [Node.expandEntries, readEntries, readEntries, hi]
    split
    · exact ih done taken
    · refine tracks_key he.1 (fun key ↦ ?_) inside target.namesKeys
      split
      · exact ih done taken
      · split
        · exact tracks_throw _
        · exact tracks_fault _ _
      · split
        · exact ih done taken
        · split
          · exact (he.2.any inside).bind fun _ ↦ ih done _
          · split
            · exact ih done _
            · split
              · exact (ih done _).after_report (List.cons_ne_nil _ _)
              · exact (tracks_readField _ _ e.2 inside).bind fun _ ↦ ih _ _

end

/-! ## Nodes -/

theorem Node.tracks_readItems {items : List Node} (h : ∀ n ∈ items, n.ReadsAlike) (inside : Bool) :
    Tracks (readItems inside items) (readItems false (expandItems items)) := by
  induction items with
  | nil => exact tracks_pure _
  | cons n rest ih =>
    obtain ⟨hn, hrest⟩ := List.forall_mem_cons.1 h
    exact (hn.any inside).bind fun _ ↦ ih hrest

theorem Node.tracks_readIncludedItems {items : List Node} (h : ∀ n ∈ items, n.ReadsAlike)
    (inside : Bool) (target : Target) :
    Tracks (readIncludedItems inside target items)
      (readIncludedItems false target (expandItems items)) := by
  induction items with
  | nil => exact tracks_pure _
  | cons n rest ih =>
    obtain ⟨hn, hrest⟩ := List.forall_mem_cons.1 h
    exact (hn.included inside target false).bind fun _ ↦ ih hrest

theorem hasStringKeys_expandEntries (entries : List (Node × Node)) :
    hasStringKeys (Node.expandEntries entries) = hasStringKeys entries := by
  induction entries with
  | nil => rfl
  | cons e rest ih =>
    show ((e.1.expand.tag == "!!str" || e.1.expand.tag == "!!merge") &&
      hasStringKeys (Node.expandEntries rest)) = _
    rw [Node.tag_expand, ih]
    rfl

section
variable {head : Head} {entries : List (Node × Node)}

theorem Node.isInclusion_of_keepsKeys (h : (mapping head entries).keepsKeys = true) :
    ∀ e ∈ entries, isInclusion e.1.expand = isInclusion e.1 := by
  have hall := List.all_eq_true.1 (Bool.and_eq_true_iff.1 h).1
  exact fun e he ↦ eq_of_beq (hall e.1 (List.mem_map_of_mem he))

/-- A mapping is read into a target as its expansion is. -/
theorem tracks_entries (h : ∀ e ∈ entries, e.1.ReadsAlike ∧ e.2.ReadsAlike)
    (hkeys : (Node.mapping head entries).keepsKeys = true) (inside : Bool) (target : Target) :
    Tracks
      (readMapping (readEntries inside target entries []) (readKeys inside entries)
        (readInclusion inside target entries))
      (readMapping (readEntries false target (Node.expandEntries entries) [])
        (readKeys false (Node.expandEntries entries))
        (readInclusion false target (Node.expandEntries entries))) := by
  have hinc := Node.isInclusion_of_keepsKeys hkeys
  exact tracks_readMapping (tracks_readEntries h hinc inside target []) (tracks_readKeys h inside)
    (tracks_readInclusion h hinc inside target)

end

variable {n : Node}

theorem Node.readsAlike (h : n.everywhere keepsKeys = true) : n.ReadsAlike := by
  induction n using Node.induction with
  | scalar head text =>
    refine ⟨fun inside ↦ ?_, fun inside target several ↦ tracks_fault _ _⟩
    exact (tracks_countNode _ _ _).bind fun _ ↦ (tracks_scalarKey head text).bind fun _ ↦ tracks_pure _
  | sequence head items ih =>
    have hitems : ∀ n ∈ items, n.ReadsAlike := fun n hn ↦
      ih n hn (everyItem_iff.1 (Bool.and_eq_true_iff.1 h).2 n hn)
    refine ⟨fun inside ↦ ?_, fun inside target several ↦ ?_⟩
    · exact (tracks_countNode _ _ _).bind fun _ ↦ (tracks_readItems hitems inside).bind fun _ ↦
        tracks_pure _
    · rw [expand, readIncluded, readIncluded]
      split
      · exact tracks_readIncludedItems hitems inside target
      · exact tracks_fault _ _
  | mapping head entries ih =>
    obtain ⟨hkeys, hentries⟩ := Bool.and_eq_true_iff.1 h
    have hall : ∀ e ∈ entries, e.1.ReadsAlike ∧ e.2.ReadsAlike := fun e he ↦
      have hev := everyEntry_iff.1 hentries e he
      ⟨(ih e he).1 hev.1, (ih e he).2 hev.2⟩
    refine ⟨fun inside ↦ ?_, fun inside target several ↦ ?_⟩
    · rw [expand, readAny, readAny, hasStringKeys_expandEntries]
      refine (tracks_countNode _ _ _).bind fun _ ↦ (tracks_reportDuplicates hkeys).bind fun found ↦ ?_
      split
      · exact tracks_pure _
      · exact (tracks_entries hall hkeys inside _).bind fun _ ↦ tracks_pure _
    · rw [expand, readIncluded, readIncluded]
      refine (tracks_countNode _ _ _).bind fun _ ↦ (tracks_reportDuplicates hkeys).bind fun found ↦ ?_
      split
      · exact tracks_pure _
      · exact tracks_entries hall hkeys inside target
  | aliasOf pos name target loose ih =>
    have htarget := ih (Bool.and_eq_true_iff.1 h).2
    refine ⟨fun inside ↦ (htarget.any true).skip_countNode, fun inside into several ↦ ?_⟩
    rw [readIncluded]
    split
    · rename_i hmap
      refine Tracks.skip_countNode ?_
      have hseveral : readIncluded true into false target = readIncluded true into several target := by
        cases target with
        | mapping => rfl
        | _ => cases hmap
      rw [hseveral]
      exact htarget.included true into several
    · exact tracks_fault _ _
  | enclosing pos name number head isMapping =>
    refine ⟨fun inside ↦ (tracks_fault _ _).skip_countNode, fun inside target several ↦ ?_⟩
    rw [readIncluded]
    split
    · exact tracks_fault _ _
    · exact tracks_fault _ _

theorem tracks_readRecord (h : n.everywhere Node.keepsKeys = true) (s : Schema) (inside : Bool) :
    Tracks (n.readRecord s inside) (n.expand.readRecord s false) := by
  induction n using Node.induction generalizing inside with
  | scalar head text =>
    refine (tracks_countNode _ _ _).bind fun _ ↦ (tracks_scalarKey head text).bind fun key ↦ ?_
    split
    · exact tracks_mismatch
    · exact tracks_pure _
  | sequence head items => exact tracks_mismatch.skip_countNode
  | mapping head entries =>
    obtain ⟨hkeys, hentries⟩ := Bool.and_eq_true_iff.1 h
    have hall : ∀ e ∈ entries, e.1.ReadsAlike ∧ e.2.ReadsAlike := fun e he ↦
      have hev := Node.everyEntry_iff.1 hentries e he
      ⟨Node.readsAlike hev.1, Node.readsAlike hev.2⟩
    rw [Node.expand, Node.readRecord, Node.readRecord]
    refine (tracks_countNode _ _ _).bind fun _ ↦ (tracks_reportDuplicates hkeys).bind fun found ↦ ?_
    split
    · exact tracks_pure _
    · exact tracks_entries hall hkeys inside (.record s)
  | aliasOf pos name target loose ih =>
    exact (ih (Bool.and_eq_true_iff.1 h).2 true).skip_countNode
  | enclosing pos name number head isMapping =>
    exact tracks_mismatch.skip_countNode.skip_countNode

/-! ## Values -/

/-- Whatever is read with nothing to report. -/
theorem ReadM.outcome_eq_ok {α : Type} {x : ReadM α} {a : α} :
    x.outcome = .ok (a, []) ↔ ∃ p, x.run {} = .ok (a, p) ∧ p.mismatches = [] := by
  rw [ReadM.outcome]
  cases x.run {} with
  | error halt => simp
  | ok result => simp [Prod.ext_iff]

theorem Tracks.outcome {α : Type} {x y : ReadM α} (h : Tracks x y) {a : α}
    (hx : x.outcome = .ok (a, [])) : y.outcome = .ok (a, []) := by
  obtain ⟨p, hrun, hnone⟩ := ReadM.outcome_eq_ok.1 hx
  obtain ⟨q, hrun', hq⟩ := (h {} a p hrun hnone).2 {} ⟨rfl, rfl, rfl, rfl⟩
  exact ReadM.outcome_eq_ok.2 ⟨q, hrun', hq.mismatches⟩

/-- A node that is a boolean has the value of its expansion. -/
theorem Node.bool?_expand {value : Option Bool} (h : n.bool? = .ok (value, [])) :
    n.expand.bool? = .ok (value, []) :=
  (tracks_readBool n false).outcome h

/-- A node that is a record has the fields of its expansion. -/
theorem Node.record?_expand (hkeys : n.everywhere keepsKeys = true) {s : Schema} {r : Record}
    (h : n.record? s = .ok (r, [])) : n.expand.record? s = .ok (r, []) := by
  refine Tracks.outcome ((tracks_readRecord hkeys s false).bind fun _ ↦ tracks_get fun p q hq ↦ ?_) h
  rw [hq.fields]
  exact tracks_pure _

end MiniJava.Yaml
