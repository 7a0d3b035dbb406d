import Mathlib.Data.Finset.Lattice.Fold
import Mathlib.Data.Int.Interval
import MiniJava.Proofs.FirstFit
import MiniJava.Proofs.StrategyChoice

/-!
# Spans share as few slots as possible

Two variables whose spans overlap need two slots, so a method needs at least as many slots for its locals
and temporaries as there are spans with one instruction in common (`widthBelow_le_card`).  First fit by the
starts of the spans needs no more: when a variable gets its colour, all smaller colours belong to spans
that began before and have not ended (`color_lt_crossing`).

So the strategy of spans gives out exactly the first `width` slots after those of the receiver and the
parameters (`ranges_use_fewest_slots`).
-/

set_option autoImplicit false

namespace MiniJava

open IR

/-- A span has an instruction. -/
def Interval.covers (r : Interval) (i : Int) : Bool := r.start ≤ i && i ≤ r.stop

theorem Interval.covers_iff {r : Interval} {i : Int} : r.covers i = true ↔ r.start ≤ i ∧ i ≤ r.stop := by
  simp [covers]

theorem Interval.overlaps_iff {r s : Interval} :
    r.overlaps s = true ↔ s.start ≤ r.stop ∧ r.start ≤ s.stop := by
  simp [overlaps]

/-- Spans with an instruction in common overlap. -/
theorem Interval.overlaps_of_covers {r s : Interval} {i : Int} (hr : r.covers i = true)
    (hs : s.covers i = true) : r.overlaps s = true := by
  rw [covers_iff] at hr hs
  rw [overlaps_iff]
  omega

namespace Graph

variable {rs : List (Text × Interval)}

/-! ## The graph of spans, by changes -/

/-- The edges for the spans of a list that overlap. -/
def overlapChanges : List (Text × Interval) → List Change
  | [] => []
  | a :: rest =>
    (rest.filter fun b ↦ a.2.overlaps b.2).map (fun b ↦ .connect a.1 b.1) ++ overlapChanges rest

/-- The vertices for the spans of a list, and then the edges. -/
def spanChanges (rs : List (Text × Interval)) : List Change :=
  rs.map (fun r ↦ .add r.1 r.2.start) ++ overlapChanges rs

theorem joinOverlaps_eq (rs : List (Text × Interval)) (g : Graph) :
    g.joinOverlaps rs = (overlapChanges rs).foldl apply g := by
  induction rs generalizing g with
  | nil => rfl
  | cons a rest ih =>
    rw [joinOverlaps, overlapChanges, List.foldl_append, ih, List.foldl_map, List.foldl_filter]
    rfl

theorem ofRanges_eq (rs : List (Text × Interval)) : ofRanges rs = ofChanges (spanChanges rs) := by
  rw [ofRanges, joinOverlaps_eq, ofChanges, spanChanges, List.foldl_append, List.foldl_map]
  rfl

theorem mem_overlapChanges {c : Change} (h : c ∈ overlapChanges rs) :
    ∃ p ∈ rs, ∃ q ∈ rs, c = .connect p.1 q.1 ∧ p.2.overlaps q.2 = true := by
  induction rs with
  | nil => cases h
  | cons a rest ih =>
    rw [overlapChanges, List.mem_append, List.mem_map] at h
    rcases h with ⟨b, hb, rfl⟩ | h
    · obtain ⟨hb, hab⟩ := List.mem_filter.1 hb
      exact ⟨a, by simp, b, by simp [hb], rfl, hab⟩
    · obtain ⟨p, hp, q, hq, hc, hpq⟩ := ih h
      exact ⟨p, by simp [hp], q, by simp [hq], hc, hpq⟩

theorem vertex?_of_mem_overlapChanges {c : Change} (h : c ∈ overlapChanges rs) : c.vertex? = none := by
  obtain ⟨p, -, q, -, rfl, -⟩ := mem_overlapChanges h
  rfl

theorem added_spanChanges (rs : List (Text × Interval)) :
    added (spanChanges rs) = rs.map fun r ↦ (r.1, r.2.start) := by
  rw [spanChanges, added_append_joins _ fun c ↦ vertex?_of_mem_overlapChanges, added, List.filterMap_map]
  exact congrFun (List.filterMap_eq_map (f := fun r : Text × Interval ↦ (r.1, r.2.start))) rs

/-! ## Colours of spans -/

/-- The spans with a number in them. -/
def crossingAt (rs : List (Text × Interval)) (i : Int) : List (Text × Interval) :=
  rs.filter fun r ↦ r.2.covers i

theorem mem_crossingAt {i : Int} {r : Text × Interval} :
    r ∈ crossingAt rs i ↔ r ∈ rs ∧ r.2.start ≤ i ∧ i ≤ r.2.stop := by
  rw [crossingAt, List.mem_filter, Interval.covers_iff]

/-- The largest number of spans with a number in common that is less than `n`. -/
def widthBelow (rs : List (Text × Interval)) (n : Nat) : Nat :=
  (Finset.range n).sup fun i ↦ (crossingAt rs i).length

/-- The colour of a variable. -/
def color (g : Graph) (a : Text) : Nat := (g.colors.lookup a).getD 0

theorem lookup_colors_ofRanges {p : Text × Interval} (hp : p ∈ rs) :
    (ofRanges rs).colors.lookup p.1 = some ((ofRanges rs).color p.1) := by
  obtain ⟨hw, hnames, -⟩ := ofRanges_spec rs
  obtain ⟨c, hc⟩ := exists_color hw ((hnames p.1).2 ⟨p, hp, rfl⟩)
  rw [color, hc, Option.getD_some]

section
variable {rs : List (Text × Interval)} (hn : (rs.map Prod.fst).Nodup)
include hn
variable {p q : Text × Interval}

theorem eq_of_fst_eq (hp : p ∈ rs) (hq : q ∈ rs) (h : p.1 = q.1) : p = q :=
  List.inj_on_of_nodup_map hn hp hq h

/-- Neighbours are two different spans that overlap. -/
theorem interfere_ofRanges (hp : p ∈ rs) (hq : q ∈ rs) :
    (ofRanges rs).interfere p.1 q.1 = true ↔ p.1 ≠ q.1 ∧ p.2.overlaps q.2 = true := by
  refine ⟨fun h ↦ ?_, fun h ↦ (ofRanges_spec rs).2.2 p hp q hq h.1 h.2⟩
  have hadds : ∀ c ∈ rs.map fun r ↦ Change.add r.1 r.2.start, ∀ a b, ¬ c.Joins a b := by
    intro c hc a b
    obtain ⟨r, -, rfl⟩ := List.mem_map.1 hc
    exact not_joins_add
  rw [ofRanges_eq, (records_ofChanges _).joined, spanChanges,
    joined_append_iff hadds fun c ↦ vertex?_of_mem_overlapChanges] at h
  obtain ⟨hne, -, -, c, hc, hjoins⟩ := h
  refine ⟨hne, ?_⟩
  obtain ⟨p', hp', q', hq', rfl, hover⟩ := mem_overlapChanges hc
  rcases hjoins with h | h
  · obtain ⟨hp'', hq''⟩ := Change.connect.inj h
    rwa [← eq_of_fst_eq hn hp' hp hp'', ← eq_of_fst_eq hn hq' hq hq'']
  · obtain ⟨hp'', hq''⟩ := Change.connect.inj h
    rw [eq_of_fst_eq hn hp' hq hp'', eq_of_fst_eq hn hq' hp hq''] at hover
    exact Interval.overlaps_symm hover

/-- A span that comes before another does not start after it. -/
theorem start_le_of_precedes (hp : p ∈ rs) (hq : q ∈ rs) (h : Precedes (spanChanges rs) q.1 p.1) :
    q.2.start ≤ p.2.start := by
  have hkey {r : Text × Interval} (hr : r ∈ rs) :
      (added (spanChanges rs)).lookup r.1 = some r.2.start := by
    rw [added_spanChanges]
    refine lookup_eq_some_of_mem ?_ (List.mem_map.2 ⟨r, hr, rfl⟩)
    rw [List.map_map]
    exact hn
  obtain ⟨k, l, hk, hl, hlt⟩ := h
  rw [hkey hq, Option.some.injEq] at hk
  rw [hkey hp, Option.some.injEq] at hl
  omega

theorem color_ne (hp : p ∈ rs) (hq : q ∈ rs) (hne : p.1 ≠ q.1) (h : p.2.overlaps q.2 = true) :
    (ofRanges rs).color p.1 ≠ (ofRanges rs).color q.1 := by
  have hcolors := colors_ne_of_interfere (ofRanges_spec rs).1 ((interfere_ofRanges hn hp hq).2 ⟨hne, h⟩)
  rw [lookup_colors_ofRanges hp, lookup_colors_ofRanges hq] at hcolors
  exact fun heq ↦ hcolors (congrArg some heq)

/-- **The colour of a span is less than the number of spans where it starts**: all smaller colours are
taken by spans that overlap it and do not start after it, so they have its start. -/
theorem color_lt_crossing (hp : p ∈ rs) (hv : p.2.start ≤ p.2.stop) :
    (ofRanges rs).color p.1 < (crossingAt rs p.2.start).length := by
  have hc := lookup_colors_ofRanges hp
  generalize (ofRanges rs).color p.1 = c at hc ⊢
  have hsub : List.range (c + 1) ⊆
      (crossingAt rs p.2.start).filterMap fun r ↦ (ofRanges rs).colors.lookup r.1 := by
    intro d hd
    rw [List.mem_range, Nat.lt_succ_iff_lt_or_eq] at hd
    rw [List.mem_filterMap]
    rcases hd with hd | rfl
    · have hrec : Records (spanChanges rs) (ofRanges rs) := ofRanges_eq rs ▸ records_ofChanges _
      obtain ⟨b, hint, hprec, hb⟩ := hrec.exists_preceding_neighbor hc hd
      obtain ⟨i, j, -, hj, -⟩ := interfere_iff.1 hint
      obtain ⟨q, hq, rfl⟩ := ((ofRanges_spec rs).2.1 b).1 (mem_names_of_index? hj)
      have hover := Interval.overlaps_iff.1 ((interfere_ofRanges hn hp hq).1 hint).2
      have hstart := start_le_of_precedes hn hp hq hprec
      exact ⟨q, mem_crossingAt.2 ⟨hq, hstart, hover.2⟩, hb⟩
    · exact ⟨p, mem_crossingAt.2 ⟨hp, Int.le_refl _, hv⟩, hc⟩
  calc c < (List.range (c + 1)).length := by simp
    _ ≤ _ := (List.nodup_range.subperm hsub).length_le
    _ ≤ (crossingAt rs p.2.start).length := List.length_filterMap_le _ _

/-- **Spans with a number in common all need slots of their own.** -/
theorem widthBelow_le_card {α : Type} [DecidableEq α] {slot : Text → α}
    (hsep : ∀ p ∈ rs, ∀ q ∈ rs, p.1 ≠ q.1 → p.2.overlaps q.2 = true → slot p.1 ≠ slot q.1) (n : Nat) :
    widthBelow rs n ≤ (rs.map fun r ↦ slot r.1).toFinset.card := by
  refine Finset.sup_le fun i _ ↦ ?_
  have hnodup : ((crossingAt rs i).map fun r ↦ slot r.1).Nodup := by
    refine List.Nodup.map_on (fun p hp q hq heq ↦ ?_) (hn.of_map.filter _)
    obtain ⟨hp, hpi⟩ := List.mem_filter.1 hp
    obtain ⟨hq, hqi⟩ := List.mem_filter.1 hq
    by_contra hne
    exact hsep p hp q hq (fun h ↦ hne (eq_of_fst_eq hn hp hq h)) (Interval.overlaps_of_covers hpi hqi) heq
  calc (crossingAt rs i).length = ((crossingAt rs i).map fun r ↦ slot r.1).length := by simp
    _ = ((crossingAt rs i).map fun r ↦ slot r.1).toFinset.card :=
        (List.toFinset_card_of_nodup hnodup).symm
    _ ≤ (rs.map fun r ↦ slot r.1).toFinset.card := by
        refine Finset.card_le_card fun s hs ↦ ?_
        rw [List.mem_toFinset, List.mem_map] at hs ⊢
        obtain ⟨r, hr, rfl⟩ := hs
        exact ⟨r, List.mem_of_mem_filter hr, rfl⟩

/-- The colours of spans are as few as can be, and they are the first ones. -/
theorem colors_ofRanges {n : Nat}
    (hv : ∀ r ∈ rs, 0 ≤ r.2.start ∧ r.2.start ≤ r.2.stop ∧ r.2.start < n) :
    (rs.map fun r ↦ (ofRanges rs).color r.1).toFinset = Finset.range (widthBelow rs n) := by
  refine Finset.eq_of_subset_of_card_le (fun c hc ↦ ?_) ?_
  · obtain ⟨p, hp, rfl⟩ := List.mem_map.1 (List.mem_toFinset.1 hc)
    obtain ⟨h0, hle, hlt⟩ := hv p hp
    obtain ⟨i, hi⟩ := Int.eq_ofNat_of_zero_le h0
    have hin : i ∈ Finset.range n := Finset.mem_range.2 (by omega)
    have hcross := color_lt_crossing hn hp hle
    rw [hi] at hcross
    exact Finset.mem_range.2 (Nat.lt_of_lt_of_le hcross
      (Finset.le_sup (f := fun i : Nat ↦ (crossingAt rs i).length) hin))
  · rw [Finset.card_range]
    exact widthBelow_le_card hn (fun p hp q hq ↦ color_ne hn hp hq) n

end

end Graph

/-! ## What the analysis keeps -/

namespace Liveness

theorem flow_sweepList (l : Liveness) (is : List Nat) : (l.sweepList is).1.flow = l.flow := by
  induction is generalizing l with
  | nil => rfl
  | cons i is ih => exact ih (l.sweepAt i).1

theorem flow_settle (fuel : Nat) (l : Liveness) : (settle fuel l).flow = l.flow := by
  induction fuel generalizing l with
  | zero => rfl
  | succ fuel ih =>
    have hsweep : l.sweepAll.1.flow = l.flow := flow_sweepList l _
    rw [settle_succ]
    split
    · rw [ih, hsweep]
    · exact hsweep

/-- The analysis has a flow for each instruction. -/
theorem length_flow {m : Method} {l : Liveness} (h : analyze m = .ok l) :
    l.flow.length = m.code.length := by
  obtain ⟨l₀, hbuild, hsolve⟩ := Except.bind_eq_ok.1 h
  obtain ⟨flow, hflow, hl₀⟩ := Except.bind_eq_ok.1 hbuild
  cases hl₀
  have hlength := Except.length_of_mapM_eq_ok hflow
  rw [List.length_zipIdx] at hlength
  rw [← hlength]
  rw [solve] at hsolve
  split at hsolve
  · cases hsolve
    rfl
  · split at hsolve
    · cases hsolve
      rw [flow_settle]
    · cases hsolve

/-- Registers do not matter to the analysis. -/
theorem analyze_withRegs (m : Method) (reg : Variable → Int) :
    analyze (m.withRegs reg) = analyze m := by
  have hnames : (m.withRegs reg).vars.vars.map Variable.name = m.vars.vars.map Variable.name := by
    simp [VarTable.mapReg]
  have hlength : (m.withRegs reg).vars.vars.length = m.vars.vars.length := List.length_map _
  have hinsert : insertVar (m.withRegs reg) = insertVar m := by
    funext i s name
    rw [insertVar, insertVar, hnames]
  have hflow : flowAt (m.withRegs reg) = flowAt m := by
    funext i x
    rw [flowAt, flowAt, hinsert, hlength]
    rfl
  rw [analyze, analyze, build, build, hflow, hnames, hlength]

/-- A span is one of instructions of the method. -/
theorem range?_bounds {l : Liveness} {v : Text} {r : Interval} (h : l.range? v = some r) :
    0 ≤ r.start ∧ r.start ≤ r.stop ∧ r.start < l.flow.length := by
  obtain ⟨j, -, h⟩ := Option.bind_eq_some_iff.1 h
  obtain ⟨first, hfirst, h⟩ := Option.bind_eq_some_iff.1 h
  obtain ⟨last, hlast, h⟩ := Option.bind_eq_some_iff.1 h
  cases h
  have hsorted : ((List.range l.flow.length).filter (l.occursAt j)).Pairwise (· ≤ ·) :=
    List.pairwise_le_range.filter _
  have hmem := List.mem_of_head? hfirst
  have hlt := List.mem_range.1 (List.mem_of_mem_filter hmem)
  have hle : first ≤ last := by
    rw [← Option.some.inj ((List.getLast?_eq_some_getLast (List.ne_nil_of_mem hmem)).symm.trans hlast)]
    exact hsorted.rel_getLast hmem
  exact ⟨Int.natCast_nonneg _, Int.ofNat_le.2 hle, Int.ofNat_lt.2 hlt⟩

end Liveness

namespace Allocation

variable {m : Method}

/-! ## Slots -/

/-- The locals and temporaries that have a span. -/
def spanned (m : Method) (l : Liveness) : List Variable :=
  (free m).filter fun v ↦ (l.range? v.name).isSome

/-- The locals and temporaries with an instruction in their span. -/
def crossing (m : Method) (l : Liveness) (i : Nat) : List Variable :=
  (free m).filter fun v ↦ (l.range? v.name).any (·.covers i)

/-- The largest number of locals and temporaries with one instruction in their spans. -/
def width (m : Method) (l : Liveness) : Nat :=
  (Finset.range m.code.length).sup fun i ↦ (crossing m l i).length

/-- The slots of the locals and temporaries that have a span. -/
def spanSlots (m : Method) (l : Liveness) : Finset Int := ((spanned m l).map Variable.reg).toFinset

/-- The spans of two variables overlap. -/
def Overlap (l : Liveness) (a b : Text) : Prop :=
  ∃ r s, l.range? a = some r ∧ l.range? b = some s ∧ r.overlaps s = true

/-- The slots after those in front are given to spans without a gap, and no fewer would do: `m` is the
method before the allocation and `m'` the one after it. -/
structure FewestSlots (m m' : Method) (l : Liveness) : Prop where
  /-- The slots are the first ones after those of the receiver and the parameters. -/
  slots : spanSlots m' l = Finset.Ico (m.reserved : Int) (m.reserved + width m l)
  card : (spanSlots m' l).card = width m l
  /-- Spans that overlap have different slots. -/
  apart : ∀ v ∈ spanned m' l, ∀ w ∈ spanned m' l, v.name ≠ w.name → Overlap l v.name w.name →
    v.reg ≠ w.reg
  /-- Other slots that are different where spans overlap are no fewer. -/
  least : ∀ slot : Text → Int,
    (∀ v ∈ spanned m l, ∀ w ∈ spanned m l, v.name ≠ w.name → Overlap l v.name w.name →
      slot v.name ≠ slot w.name) →
    (spanSlots m' l).card ≤ ((spanned m l).map fun v ↦ slot v.name).toFinset.card

/-- The locals and temporaries that have a span, with their spans. -/
def spans (m : Method) (l : Liveness) : List (Text × Interval) :=
  ((free m).map Variable.name).filterMap fun n ↦ (l.range? n).map fun r ↦ (n, r)

section
variable {m : Method} {l : Liveness}

theorem mem_spans {p : Text × Interval} :
    p ∈ spans m l ↔ ∃ v ∈ spanned m l, v.name = p.1 ∧ l.range? v.name = some p.2 := by
  rw [spans, List.mem_filterMap]
  constructor
  · rintro ⟨a, ha, hp⟩
    obtain ⟨v, hv, rfl⟩ := List.mem_map.1 ha
    obtain ⟨r, hr, rfl⟩ := Option.map_eq_some_iff.1 hp
    exact ⟨v, List.mem_filter.2 ⟨hv, by rw [hr]; rfl⟩, rfl, hr⟩
  · rintro ⟨v, hv, hname, hr⟩
    refine ⟨v.name, List.mem_map.2 ⟨v, List.mem_of_mem_filter hv, rfl⟩, ?_⟩
    rw [hr, Option.map_some, hname]

theorem exists_mem_spans {v : Variable} (hv : v ∈ spanned m l) : ∃ r, (v.name, r) ∈ spans m l := by
  obtain ⟨r, hr⟩ := Option.isSome_iff_exists.1 (List.mem_filter.1 hv).2
  exact ⟨r, mem_spans.2 ⟨v, hv, rfl, hr⟩⟩

theorem map_fst_spans : (spans m l).map Prod.fst = (spanned m l).map Variable.name := by
  rw [spans, spanned, List.filterMap_map, List.map_filterMap, ← List.filterMap_eq_filter,
    List.map_filterMap]
  refine List.filterMap_congr fun v _ ↦ ?_
  cases h : l.range? v.name <;> simp [h, Option.guard]

theorem nodup_map_fst_spans : ((spans m l).map Prod.fst).Nodup := by
  rw [map_fst_spans]
  exact m.vars.nodup.sublist ((List.filter_sublist.trans List.filter_sublist).map _)

theorem length_crossing (i : Nat) :
    (crossing m l i).length = (Graph.crossingAt (spans m l) i).length := by
  rw [crossing, Graph.crossingAt, spans, ← List.countP_eq_length_filter, ← List.countP_eq_length_filter,
    List.countP_filterMap, List.countP_map]
  refine List.countP_congr fun v _ ↦ ?_
  cases h : l.range? v.name <;> simp [h]

theorem width_eq : width m l = Graph.widthBelow (spans m l) m.code.length := by
  rw [width, Graph.widthBelow]
  exact Finset.sup_congr rfl fun i _ ↦ length_crossing i

/-- Registers change neither which variables have a span nor the spans. -/
theorem spanned_withRegs (reg : Variable → Int) :
    spanned (m.withRegs reg) l = (spanned m l).map fun v ↦ { v with reg := reg v } := by
  simp only [spanned, free, VarTable.mapReg, List.filter_map]
  rfl

theorem spans_withRegs (reg : Variable → Int) : spans (m.withRegs reg) l = spans m l := by
  have hnames : (free (m.withRegs reg)).map Variable.name = (free m).map Variable.name := by
    simp only [free, VarTable.mapReg, List.filter_map, List.map_map]
    rfl
  rw [spans, spans, hnames]

end

/-- The numbers by the strategy of spans are the colours of the graph of spans. -/
theorem numbering_ranges {numbers : List (Text × Nat)} (h : numbering m .ranges = .ok numbers) :
    ∃ l, Liveness.analyze m = .ok l ∧ numbers = (Graph.ofRanges (spans m l)).colors := by
  obtain ⟨g, hg, hnumbers⟩ := Except.bind_eq_ok.1 h
  obtain ⟨l, hl, hgraph⟩ := Except.bind_eq_ok.1 hg
  cases hgraph
  cases hnumbers
  exact ⟨l, withinPlace_eq_ok.1 hl, rfl⟩

/-- The slot of a variable by the strategy of spans. -/
theorem regBy_color {l : Liveness} (front : Variable → Int) {v : Variable} (hv : v ∈ spanned m l) :
    regBy m front (Graph.ofRanges (spans m l)).colors v =
      ((Graph.ofRanges (spans m l)).color v.name + m.reserved : Int) := by
  obtain ⟨r, hr⟩ := exists_mem_spans hv
  have hfree : isFree { v with reg := front v } = true :=
    (List.mem_filter.1 (List.mem_of_mem_filter hv)).2
  simp only [regBy, freeReg, Graph.lookup_colors_ofRanges hr, hfree, if_true]

/-- The slots that the strategy of spans gives out. -/
theorem spanSlots_regBy {l : Liveness} (hl : Liveness.analyze m = .ok l) (front : Variable → Int) :
    spanSlots (m.withRegs (regBy m front (Graph.ofRanges (spans m l)).colors)) l =
      Finset.Ico (m.reserved : Int) (m.reserved + width m l) := by
  have hregs : (spanned (m.withRegs (regBy m front (Graph.ofRanges (spans m l)).colors)) l).map
      Variable.reg = ((spans m l).map fun p ↦ (Graph.ofRanges (spans m l)).color p.1).map
        fun c : Nat ↦ (c + m.reserved : Int) := by
    have hcomp : ((spans m l).map fun p ↦ (Graph.ofRanges (spans m l)).color p.1) =
        ((spanned m l).map Variable.name).map (Graph.ofRanges (spans m l)).color := by
      rw [← map_fst_spans, List.map_map]
      rfl
    rw [hcomp, spanned_withRegs, List.map_map, List.map_map, List.map_map]
    exact List.map_congr_left fun v hv ↦ regBy_color front hv
  have hbounds : ∀ p ∈ spans m l, 0 ≤ p.2.start ∧ p.2.start ≤ p.2.stop ∧ p.2.start < m.code.length := by
    intro p hp
    obtain ⟨v, -, -, hr⟩ := mem_spans.1 hp
    rw [← Liveness.length_flow hl]
    exact Liveness.range?_bounds hr
  have hcolors := Graph.colors_ofRanges nodup_map_fst_spans hbounds
  rw [← width_eq] at hcolors
  rw [spanSlots, hregs]
  ext x
  rw [List.mem_toFinset, List.mem_map, Finset.mem_Ico]
  simp only [← List.mem_toFinset, hcolors, Finset.mem_range]
  constructor
  · rintro ⟨c, hc, rfl⟩
    omega
  · rintro ⟨hlo, hhi⟩
    exact ⟨(x - m.reserved).toNat, by omega, by omega⟩

/-- **The strategy of spans uses as few slots as possible.** -/
theorem ranges_use_fewest_slots {m m' : Method} (h : method .ranges m = .ok m') :
    ∃ l, Liveness.analyze m = .ok l ∧ FewestSlots m m' l := by
  obtain ⟨front, numbers, hnumbers, rfl⟩ := exists_regBy h
  obtain ⟨l, hl, rfl⟩ := numbering_ranges hnumbers
  rw [Liveness.analyze_withRegs] at hl
  rw [spans_withRegs]
  have hslots := spanSlots_regBy hl front
  have hcard : (spanSlots (m.withRegs (regBy m front (Graph.ofRanges (spans m l)).colors)) l).card =
      width m l := by
    rw [hslots, Int.card_Ico]
    omega
  refine ⟨l, hl, hslots, hcard, ?_, fun slot hsep ↦ ?_⟩
  · rw [spanned_withRegs]
    rintro _ hv' _ hw' hne ⟨r, s, hr, hs, hover⟩
    obtain ⟨v, hv, rfl⟩ := List.mem_map.1 hv'
    obtain ⟨w, hw, rfl⟩ := List.mem_map.1 hw'
    have hp : (v.name, r) ∈ spans m l := mem_spans.2 ⟨v, hv, rfl, hr⟩
    have hq : (w.name, s) ∈ spans m l := mem_spans.2 ⟨w, hw, rfl, hs⟩
    have hcolor : (Graph.ofRanges (spans m l)).color v.name ≠ (Graph.ofRanges (spans m l)).color w.name :=
      Graph.color_ne nodup_map_fst_spans hp hq hne hover
    simp only [regBy_color front hv, regBy_color front hw]
    omega
  · have hnames : ((spanned m l).map fun v ↦ slot v.name) = (spans m l).map fun p ↦ slot p.1 := by
      have hcomp := congrArg (List.map slot) (map_fst_spans (m := m) (l := l))
      rw [List.map_map, List.map_map] at hcomp
      exact hcomp.symm
    rw [hcard, width_eq, hnames]
    refine Graph.widthBelow_le_card nodup_map_fst_spans (fun p hp q hq hne hover ↦ ?_) _
    obtain ⟨v, hv, hvn, hr⟩ := mem_spans.1 hp
    obtain ⟨w, hw, hwn, hs⟩ := mem_spans.1 hq
    rw [← hvn, ← hwn] at hne ⊢
    exact hsep v hv w hw hne ⟨_, _, hr, hs, hover⟩

/-- In `sumDown` the sum and the temporary are wanted at one time, so they need two slots. -/
theorem sumDown_uses_fewest_slots :
    ∃ m' l, method .ranges sumDown = .ok m' ∧ Liveness.analyze sumDown = .ok l ∧
      width sumDown l = 2 ∧ FewestSlots sumDown m' l := by
  obtain ⟨numbers, h, -⟩ := exists_withNumbers (.inl rfl) (by decide) sumDown_standardTable
  obtain ⟨l, hl, hfew⟩ := ranges_use_fewest_slots h
  have hwidth : (Liveness.analyze sumDown).toOption.map (width sumDown) = some 2 := by decide +kernel
  rw [hl] at hwidth
  exact ⟨_, l, h, hl, Option.some.inj hwidth, hfew⟩

end Allocation

end MiniJava
