import MiniJava.Allocation
import MiniJava.Proofs.Coloring
import MiniJava.Proofs.LivenessPaths

/-!
# The numbers that the strategies give

Each strategy numbers the locals and temporaries of a checked method so that

* a variable which the code names has a number, and
* a variable that is written does not have the number of another one that is still wanted after it.

`numbering_spec` says this of all strategies at once: spans that meet at an instruction overlap,
variables that are live together are neighbours, and places in a list are different anyway.
-/

set_option autoImplicit false

namespace MiniJava

open IR

namespace IR.Method

variable {m : Method} {v : Text}

/-- The code of a method reads or writes a variable. -/
def Names (m : Method) (v : Text) : Prop :=
  ∃ (i : Nat) (x : Instr), m.code[i]? = some x ∧ (v ∈ x.uses ∨ x.defs? = some v)

/-- An instruction that writes one variable can be followed by a path that still wants another. -/
def Clash (m : Method) (w v : Text) : Prop :=
  ∃ i k, m.defAt i = some w ∧ m.Next i k ∧ m.Live v k

theorem Clash.names_left {w : Text} (h : m.Clash w v) : m.Names w := by
  obtain ⟨i, k, hd, hn, -⟩ := h
  obtain ⟨x, hx⟩ := hn.exists_code
  rw [defAt, hx, Option.bind_some] at hd
  exact ⟨i, x, hx, .inr hd⟩

theorem Live.names {i : Nat} (h : m.Live v i) : m.Names v := by
  induction h with
  | use hx hv => exact ⟨_, _, hx, .inl hv⟩
  | later _ _ _ ih => exact ih

theorem Clash.names_right {w : Text} (h : m.Clash w v) : m.Names v := by
  obtain ⟨i, k, -, -, hl⟩ := h
  exact hl.names

theorem Names.contains (h : m.Names v) (hc : m.check = .ok ()) : m.vars.contains v = true := by
  obtain ⟨i, x, hx, hv | hv⟩ := h
  · exact contains_of_mem_uses hc hx hv
  · exact contains_of_defs? hc hx hv

/-- A method of one instruction cannot write a variable and go on. -/
theorem two_le_length_of_def {w : Text} {i k : Nat} (hd : m.defAt i = some w) (hn : m.Next i k)
    (hl : m.Live v k) : 2 ≤ m.code.length := by
  obtain ⟨x, hx⟩ := hn.exists_code
  have hi := hn.lt_length
  have hk := hl.lt_length
  rw [defAt, hx, Option.bind_some] at hd
  rcases (next_iff hx).1 hn with ⟨-, rfl⟩ | ⟨label, ht, -⟩
  · omega
  · cases x <;> simp [Instr.defs?, Instr.target?] at hd ht

end IR.Method

/-! ## Spans -/

namespace Liveness

variable {l : Liveness} {v : Text} {j : Nat}

theorem range?_spec {i : Nat} (hj : l.vars.idxOf? v = some j) (hi : i < l.flow.length)
    (ho : l.occursAt j i = true) : ∃ r, l.range? v = some r ∧ r.start ≤ i ∧ (i : Int) ≤ r.stop := by
  have hmem : i ∈ (List.range l.flow.length).filter (l.occursAt j) :=
    List.mem_filter.2 ⟨List.mem_range.2 hi, ho⟩
  have hsorted : ((List.range l.flow.length).filter (l.occursAt j)).Pairwise (· ≤ ·) :=
    List.pairwise_le_range.filter _
  have hr : l.range? v = (do
      let places := (List.range l.flow.length).filter (l.occursAt j)
      return { start := ← places.head?, stop := ← places.getLast? }) := by
    rw [range?, hj]
    rfl
  generalize (List.range l.flow.length).filter (l.occursAt j) = places at hmem hsorted hr
  have hne := List.ne_nil_of_mem hmem
  simp only [List.head?_eq_some_head hne, List.getLast?_eq_some_getLast hne] at hr
  exact ⟨_, hr, Int.ofNat_le.2 (hsorted.rel_head hmem), Int.ofNat_le.2 (hsorted.rel_getLast hmem)⟩

variable {m : Method}

/-- An analysis that describes a method has each variable that the code names in a set of the
instruction that names it. -/
theorem Describes.occurs (h : Describes m l) (hj : m.number? v = some j) (hv : m.Names v) :
    ∃ i < l.flow.length, (l.flowOf i).defs.mem j = true ∨ (l.outAt i).mem j = true ∨
      (l.inAt i).mem j = true := by
  obtain ⟨i, x, hx, hv⟩ := hv
  refine ⟨i, h.length ▸ (List.getElem?_eq_some_iff.1 hx).1, ?_⟩
  rcases hv with hv | hv
  · exact .inr (.inr (h.before (.use hx hv) hj))
  · exact .inl ((h.mem_defs hx hj).2 hv)

/-- A written variable and one that is still wanted after it are in the sets of one instruction. -/
theorem Describes.clash (h : Describes m l) {w : Text} {k : Nat} (hk : m.number? w = some k)
    (hj : m.number? v = some j) (hc : m.Clash w v) :
    ∃ i < l.flow.length, (l.flowOf i).defs.mem k = true ∧ (l.outAt i).mem j = true := by
  obtain ⟨i, n, hd, hn, hl⟩ := hc
  obtain ⟨x, hx⟩ := hn.exists_code
  refine ⟨i, h.length ▸ hn.lt_length, ?_, ?_⟩
  · rw [h.mem_defs hx hk]
    rwa [Method.defAt, hx, Option.bind_some] at hd
  · exact h.after (Method.two_le_length_of_def hd hn hl) hn hl hj

theorem Describes.name_of_number? (h : Describes m l) (hj : m.number? v = some j) :
    l.vars.idxOf? v = some j ∧ l.vars.getD j "" = v := by
  rw [h.vars]
  refine ⟨hj, ?_⟩
  rw [List.getD_eq_getElem?_getD, Method.number?_eq_some.1 hj, Option.getD_some]

theorem occursAt_iff {i : Nat} : l.occursAt j i = true ↔
    (l.flowOf i).use.mem j = true ∨ (l.flowOf i).defs.mem j = true ∨ (l.inAt i).mem j = true ∨
      (l.outAt i).mem j = true := by
  simp [occursAt, or_assoc]

end Liveness

/-! ## Numbers -/

namespace Allocation

variable {m : Method}

/-- The name of a variable that gets its slot from the strategy. -/
def IsFree (m : Method) (v : Text) : Prop := ∃ x, m.vars.get? v = some x ∧ isFree x = true

theorem mem_free_iff {v : Text} : v ∈ (free m).map Variable.name ↔ IsFree m v := by
  rw [List.mem_map]
  constructor
  · rintro ⟨x, hx, rfl⟩
    rw [free, List.mem_filter] at hx
    exact ⟨x, VarTable.get?_eq_some_iff.2 ⟨hx.1, rfl⟩, hx.2⟩
  · rintro ⟨x, hx, hf⟩
    rw [VarTable.get?_eq_some_iff] at hx
    exact ⟨x, List.mem_filter.2 ⟨hx.1, hf⟩, hx.2⟩

/-- Numbers that keep the variables of a method apart where it matters. -/
structure Separates (m : Method) (numbers : List (Text × Nat)) : Prop where
  given : ∀ {v}, IsFree m v → m.Names v → ∃ n, numbers.lookup v = some n
  apart : ∀ {w v}, IsFree m w → IsFree m v → w ≠ v → m.Clash w v →
    numbers.lookup w ≠ numbers.lookup v

theorem IsFree.exists_number? {v : Text} (h : IsFree m v) : ∃ j, m.number? v = some j :=
  Method.exists_number? (VarTable.contains_iff_get?.2 (h.imp fun _ hx ↦ hx.1))

variable {l : Liveness}

/-- The colours of a well-formed graph keep the variables of a method apart, if the graph has every one that
is in a set of an instruction, and an edge between one that is written and one that is live after it. -/
theorem separates_colors {g : Graph} (h : l.Describes m) (hw : g.WellFormed)
    (hv : ∀ {v j i}, IsFree m v → m.number? v = some j → i < l.flow.length →
      ((l.flowOf i).defs.mem j = true ∨ (l.outAt i).mem j = true ∨ (l.inAt i).mem j = true) → v ∈ g.names)
    (he : ∀ {w v k j i}, IsFree m w → IsFree m v → w ≠ v → m.number? w = some k → m.number? v = some j →
      i < l.flow.length → (l.flowOf i).defs.mem k = true → (l.outAt i).mem j = true →
      g.interfere w v = true) : Separates m g.colors := by
  refine ⟨fun hf hn ↦ ?_, fun hfw hfv hne hc ↦ ?_⟩
  · obtain ⟨j, hj⟩ := hf.exists_number?
    obtain ⟨i, hi, hm⟩ := h.occurs hj hn
    exact Graph.exists_color hw (hv hf hj hi hm)
  · obtain ⟨k, hk⟩ := hfw.exists_number?
    obtain ⟨j, hj⟩ := hfv.exists_number?
    obtain ⟨i, hi, hd, ho⟩ := h.clash hk hj hc
    exact Graph.colors_ne_of_interfere hw (he hfw hfv hne hk hj hi hd ho)

theorem separates_sequential (m : Method) :
    Separates m ((free m).map Variable.name).zipIdx := by
  have hnodup : ((free m).map Variable.name).Nodup :=
    m.vars.nodup.sublist (List.filter_sublist.map _)
  have hlookup {v : Text} (hv : IsFree m v) : ∃ n, ((free m).map Variable.name)[n]? = some v ∧
      ((free m).map Variable.name).zipIdx.lookup v = some n := by
    obtain ⟨n, hn⟩ := List.mem_iff_getElem?.1 (mem_free_iff.2 hv)
    refine ⟨n, hn, lookup_eq_some_of_mem ?_ (List.mem_zipIdx_iff_getElem?.2 hn)⟩
    rwa [List.zipIdx_map_fst]
  refine ⟨fun hf _ ↦ (hlookup hf).imp fun n hn ↦ hn.2, fun {w v} hw hv hne _ he ↦ ?_⟩
  obtain ⟨n, hn, hln⟩ := hlookup hw
  obtain ⟨k, hk, hlk⟩ := hlookup hv
  rw [hln, hlk, Option.some.injEq] at he
  subst he
  exact hne (Option.some.inj (hn.symm.trans hk))

theorem separates_ranges (h : l.Describes m) :
    Separates m (Graph.ofRanges (((free m).map Variable.name).filterMap fun n ↦
      (l.range? n).map fun r ↦ (n, r))).colors := by
  generalize hrs : (((free m).map Variable.name).filterMap fun n ↦
      (l.range? n).map fun r ↦ (n, r)) = rs
  obtain ⟨hw, hnames, hedge⟩ := Graph.ofRanges_spec rs
  -- a variable that occurs at an instruction has a span, and the instruction lies in it
  have hspan {v : Text} {j i : Nat} (hf : IsFree m v) (hj : m.number? v = some j)
      (hi : i < l.flow.length) (ho : l.occursAt j i = true) :
      ∃ r, (v, r) ∈ rs ∧ r.start ≤ i ∧ (i : Int) ≤ r.stop := by
    obtain ⟨r, hr, hlo, hhi⟩ := Liveness.range?_spec (h.name_of_number? hj).1 hi ho
    refine ⟨r, ?_, hlo, hhi⟩
    rw [← hrs, List.mem_filterMap]
    exact ⟨v, mem_free_iff.2 hf, by rw [hr]; rfl⟩
  refine separates_colors h hw (fun {v j i} hf hj hi hm ↦ ?_)
    (fun {w v k j i} hfw hfv hne hk hj hi hd ho ↦ ?_)
  · obtain ⟨r, hr, -, -⟩ := hspan hf hj hi (Liveness.occursAt_iff.2 (by tauto))
    exact (hnames v).2 ⟨_, hr, rfl⟩
  · obtain ⟨a, ha, hlo, hhi⟩ := hspan hfw hk hi (Liveness.occursAt_iff.2 (by tauto))
    obtain ⟨b, hb, hlo', hhi'⟩ := hspan hfv hj hi (Liveness.occursAt_iff.2 (by tauto))
    refine hedge _ ha _ hb hne ?_
    rw [Interval.overlaps, Bool.and_eq_true, decide_eq_true_eq, decide_eq_true_eq]
    exact ⟨hlo'.trans hhi, hlo.trans hhi'⟩

theorem separates_liveSets (h : l.Describes m) :
    Separates m (Graph.ofLiveSets l ((free m).map Variable.name)).colors := by
  obtain ⟨hw, hnames, hedge⟩ := Graph.ofLiveSets_spec l ((free m).map Variable.name)
  refine separates_colors h hw (fun {v j i} hf hj hi hm ↦ ?_)
    (fun {w v k j i} hfw hfv hne hk hj hi hd ho ↦ ?_)
  · obtain ⟨hidx, hname⟩ := h.name_of_number? hj
    have := hnames i hi v (mem_free_iff.2 hf) j hidx hm
    rwa [hname] at this
  · obtain ⟨hidw, hnw⟩ := h.name_of_number? hk
    obtain ⟨hidv, hnv⟩ := h.name_of_number? hj
    have := hedge i hi w (mem_free_iff.2 hfw) v (mem_free_iff.2 hfv) k j hidw hidv
      (by simp [hd]) (by simp [ho]) (by rwa [hnw, hnv])
    rwa [hnw, hnv] at this

/-- A strategy that exists. -/
def Known (s : Strategy) : Prop := s = .ranges ∨ s = .liveSets ∨ s = .sequential

/-- **Every strategy numbers the variables of a checked method so that they stay apart.** -/
theorem numbering_spec {s : Strategy} (hs : Known s) (hc : m.check = .ok ()) :
    ∃ numbers, numbering m s = .ok numbers ∧ Separates m numbers := by
  obtain ⟨l, hl, hd⟩ := Liveness.analyze_spec hc
  have hl' : withinPlace "liveness" (Liveness.analyze m) = .ok l := withinPlace_eq_ok.2 hl
  rcases hs with rfl | rfl | rfl
  · refine ⟨_, ?_, separates_ranges hd⟩
    rw [numbering, graph, hl']
    · rfl
    · simp
  · refine ⟨_, ?_, separates_liveSets hd⟩
    rw [numbering, graph, hl']
    · rfl
    · simp
  · exact ⟨_, rfl, separates_sequential m⟩

end Allocation

end MiniJava
