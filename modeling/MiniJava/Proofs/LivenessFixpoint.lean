import Mathlib.Data.Finset.Prod
import Mathlib.Data.Fintype.Card
import MiniJava.Liveness
import MiniJava.Proofs.Bitmap

/-!
# The sweeps of the liveness analysis reach a fixpoint

A sweep only adds to the live sets, and the sets stay within the variables of the method.  So the
marks `(before or after, instruction, variable)` that are set can grow only finitely often
(`card_marks_le`), and `settle` ends in a state where a further sweep adds nothing (`settle_spec`).

`Stable` is what such a state is good for: at each instruction the live sets contain what its
successors and the instruction itself ask for.
-/

set_option autoImplicit false

namespace MiniJava.Liveness

variable {l k : Liveness} {i j : Nat}

/-! ## One instruction -/

/-- What the instruction at `i` asks to be live before it. -/
def beforeAt (l : Liveness) (i : Nat) : Bitmap :=
  ((l.joinAt i).diff (l.flowOf i).defs).union (l.flowOf i).use

theorem mem_joinAt :
    (l.joinAt i).mem j = true ↔ ∃ s ∈ (l.flowOf i).succ, (l.inAt s.toNat).mem j = true := by
  have h (ss : List Int) (b : Bitmap) :
      (ss.foldl (fun b s ↦ b.union (l.inAt s.toNat)) b).mem j = true ↔
        b.mem j = true ∨ ∃ s ∈ ss, (l.inAt s.toNat).mem j = true := by
    induction ss generalizing b with
    | nil => simp
    | cons s ss ih =>
      rw [List.foldl_cons, ih, Bitmap.mem_union, Bool.or_eq_true, or_assoc]
      simp
  rw [joinAt, h]
  simp

theorem mem_beforeAt : (l.beforeAt i).mem j = true ↔
      ((l.joinAt i).mem j = true ∧ (l.flowOf i).defs.mem j = false) ∨
        (l.flowOf i).use.mem j = true := by
  simp [beforeAt]

/-- The live sets at `i` contain all that is asked of them. -/
structure StableAt (l : Liveness) (i : Nat) : Prop where
  out : ∀ j, (l.joinAt i).mem j = true → (l.outAt i).mem j = true
  before : ∀ j, (l.beforeAt i).mem j = true → (l.inAt i).mem j = true

/-! ## States of the analysis

`Sound` is the shape of a state: one set before and one after each instruction, all of them within
the variables.  `Le` compares two states of one method. -/

/-- All variables of a set are numbered below `n`. -/
def Below (n : Nat) (s : Bitmap) : Prop := ∀ j, s.mem j = true → j < n

/-- The sets of a state fit the method. -/
structure Sound (l : Liveness) : Prop where
  lengthIn : l.liveIn.length = l.flow.length
  lengthOut : l.liveOut.length = l.flow.length
  use : ∀ i, Below l.vars.length (l.flowOf i).use
  before : ∀ i, Below l.vars.length (l.inAt i)
  after : ∀ i, Below l.vars.length (l.outAt i)

/-- The second state has all that the first one has. -/
structure Le (l k : Liveness) : Prop where
  vars : k.vars = l.vars
  flow : k.flow = l.flow
  before : ∀ i j, (l.inAt i).mem j = true → (k.inAt i).mem j = true
  after : ∀ i j, (l.outAt i).mem j = true → (k.outAt i).mem j = true

theorem Le.refl (l : Liveness) : Le l l := ⟨rfl, rfl, fun _ _ h ↦ h, fun _ _ h ↦ h⟩

theorem Le.trans {n : Liveness} (h : Le l k) (h' : Le k n) : Le l n :=
  ⟨h'.vars.trans h.vars, h'.flow.trans h.flow, fun i j hj ↦ h'.before i j (h.before i j hj),
    fun i j hj ↦ h'.after i j (h.after i j hj)⟩

theorem flowOf_congr (h : k.flow = l.flow) (i : Nat) : k.flowOf i = l.flowOf i := by
  rw [flowOf, flowOf, h]

theorem Le.joinAt (h : Le l k) (hj : (l.joinAt i).mem j = true) : (k.joinAt i).mem j = true := by
  rw [mem_joinAt] at hj ⊢
  obtain ⟨s, hs, hj⟩ := hj
  exact ⟨s, by rwa [flowOf_congr h.flow], h.before _ _ hj⟩

theorem Le.beforeAt (h : Le l k) (hj : (l.beforeAt i).mem j = true) : (k.beforeAt i).mem j = true := by
  rw [mem_beforeAt, flowOf_congr h.flow]
  rcases mem_beforeAt.1 hj with ⟨hj, hd⟩ | hu
  · exact .inl ⟨h.joinAt hj, hd⟩
  · exact .inr hu

/-- A stable place stays stable in a state with the same sets. -/
theorem StableAt.of_le_of_le (h : StableAt l i) (hlk : Le l k) (hkl : Le k l) : StableAt k i :=
  ⟨fun j hj ↦ hlk.after i j (h.out j (hkl.joinAt hj)),
    fun j hj ↦ hlk.before i j (h.before j (hkl.beforeAt hj))⟩

theorem Sound.below_joinAt (h : Sound l) (i : Nat) : Below l.vars.length (l.joinAt i) := by
  intro j hj
  obtain ⟨s, -, hj⟩ := mem_joinAt.1 hj
  exact h.before _ j hj

theorem Sound.below_beforeAt (h : Sound l) (i : Nat) : Below l.vars.length (l.beforeAt i) := by
  intro j hj
  rcases mem_beforeAt.1 hj with ⟨hj, -⟩ | hu
  · exact h.below_joinAt i j hj
  · exact h.use i j hu

/-! ## Sweeps -/

theorem inAt_sweepAt (hi : i < l.liveIn.length) (k : Nat) :
    (l.sweepAt i).1.inAt k = if i = k then (l.inAt i).union (l.beforeAt i) else l.inAt k := by
  simp only [inAt, sweepAt, List.getD_eq_getElem?_getD, List.getElem?_set, if_pos hi]
  split
  · rfl
  · rfl

theorem outAt_sweepAt (hi : i < l.liveOut.length) (k : Nat) :
    (l.sweepAt i).1.outAt k = if i = k then (l.outAt i).union (l.joinAt i) else l.outAt k := by
  simp only [outAt, sweepAt, List.getD_eq_getElem?_getD, List.getElem?_set, if_pos hi]
  split
  · rfl
  · rfl

theorem sweepAt_snd :
    (l.sweepAt i).2 = (((l.outAt i).merge (l.joinAt i)).2 || ((l.inAt i).merge (l.beforeAt i)).2) :=
  rfl

theorem le_sweepAt (h : Sound l) (hi : i < l.flow.length) : Le l (l.sweepAt i).1 := by
  refine ⟨rfl, rfl, fun k j hj ↦ ?_, fun k j hj ↦ ?_⟩
  · rw [inAt_sweepAt (by rwa [h.lengthIn])]
    split
    · rename_i hk
      simp [hk, hj]
    · exact hj
  · rw [outAt_sweepAt (by rwa [h.lengthOut])]
    split
    · rename_i hk
      simp [hk, hj]
    · exact hj

theorem Sound.sweepAt (h : Sound l) (hi : i < l.flow.length) : Sound (l.sweepAt i).1 := by
  refine ⟨?_, ?_, h.use, fun k j hj ↦ ?_, fun k j hj ↦ ?_⟩
  · simpa [Liveness.sweepAt] using h.lengthIn
  · simpa [Liveness.sweepAt] using h.lengthOut
  · rw [inAt_sweepAt (by rwa [h.lengthIn])] at hj
    split at hj
    · rw [Bitmap.mem_union, Bool.or_eq_true] at hj
      exact hj.elim (h.before i j) (h.below_beforeAt i j)
    · exact h.before k j hj
  · rw [outAt_sweepAt (by rwa [h.lengthOut])] at hj
    split at hj
    · rw [Bitmap.mem_union, Bool.or_eq_true] at hj
      exact hj.elim (h.after i j) (h.below_joinAt i j)
    · exact h.after k j hj

/-- A place that does not grow is stable, and the state keeps its sets. -/
theorem stableAt_of_sweepAt (h : Sound l) (hi : i < l.flow.length) (hg : (l.sweepAt i).2 = false) :
    StableAt l i ∧ Le (l.sweepAt i).1 l := by
  rw [sweepAt_snd, Bool.or_eq_false_iff, Bitmap.merge_snd_eq_false, Bitmap.merge_snd_eq_false] at hg
  refine ⟨⟨hg.1, hg.2⟩, rfl, rfl, fun k j hj ↦ ?_, fun k j hj ↦ ?_⟩
  · rw [inAt_sweepAt (by rwa [h.lengthIn])] at hj
    split at hj
    · rename_i hk
      rw [Bitmap.mem_union, Bool.or_eq_true] at hj
      exact hk ▸ hj.elim id (hg.2 j)
    · exact hj
  · rw [outAt_sweepAt (by rwa [h.lengthOut])] at hj
    split at hj
    · rename_i hk
      rw [Bitmap.mem_union, Bool.or_eq_true] at hj
      exact hk ▸ hj.elim id (hg.1 j)
    · exact hj

theorem sweepList_spec {is : List Nat} (h : Sound l) (his : ∀ i ∈ is, i < l.flow.length) :
    Sound (l.sweepList is).1 ∧ Le l (l.sweepList is).1 ∧
      ((l.sweepList is).2 = false → Le (l.sweepList is).1 l ∧ ∀ i ∈ is, StableAt l i) := by
  induction is generalizing l with
  | nil => exact ⟨h, Le.refl l, fun _ ↦ ⟨Le.refl l, by simp⟩⟩
  | cons i is ih =>
    have hi := his i (by simp)
    have hle := le_sweepAt h hi
    obtain ⟨hs, hle', hst⟩ := ih (h.sweepAt hi) fun k hk ↦ his k (by simp [hk])
    refine ⟨hs, hle.trans hle', fun hg ↦ ?_⟩
    rw [sweepList, Bool.or_eq_false_iff] at hg
    obtain ⟨hsi, hback⟩ := stableAt_of_sweepAt h hi hg.1
    obtain ⟨hback', hall⟩ := hst hg.2
    refine ⟨hback'.trans hback, fun k hk ↦ ?_⟩
    rcases List.mem_cons.1 hk with rfl | hk
    · exact hsi
    · exact (hall k hk).of_le_of_le hback hle

/-! ## Why sweeping ends -/

/-- The marks that are set in a state: `(true, i, j)` for the variable `j` live before the instruction
at `i`, `(false, i, j)` for one live after it. -/
def marks (l : Liveness) : Finset (Bool × Nat × Nat) :=
  (Finset.univ ×ˢ Finset.range l.flow.length ×ˢ Finset.range l.vars.length).filter fun x ↦
    (bif x.1 then l.inAt x.2.1 else l.outAt x.2.1).mem x.2.2 = true

theorem mem_marks (h : Sound l) {b : Bool} (hi : i < l.flow.length) :
    (b, i, j) ∈ l.marks ↔ (bif b then l.inAt i else l.outAt i).mem j = true := by
  rw [marks, Finset.mem_filter]
  simp only [Finset.mem_product, Finset.mem_univ, Finset.mem_range, true_and]
  refine ⟨And.right, fun hm ↦ ⟨⟨hi, ?_⟩, hm⟩⟩
  cases b with
  | false => exact h.after i j hm
  | true => exact h.before i j hm

theorem card_marks_le (l : Liveness) : l.marks.card ≤ 2 * l.flow.length * l.vars.length := by
  refine (Finset.card_filter_le _ _).trans ?_
  simp [Finset.card_product, Nat.mul_assoc]

theorem Le.marks_subset (h : Le l k) : l.marks ⊆ k.marks := by
  intro ⟨b, i, j⟩ hm
  rw [marks, Finset.mem_filter] at hm ⊢
  rw [h.flow, h.vars]
  refine ⟨hm.1, ?_⟩
  cases b with
  | false => exact h.after i j hm.2
  | true => exact h.before i j hm.2

/-- A place that grows sets a mark. -/
theorem card_marks_sweepAt_lt (h : Sound l) (hi : i < l.flow.length) (hg : (l.sweepAt i).2 = true) :
    l.marks.card < (l.sweepAt i).1.marks.card := by
  have hs := h.sweepAt hi
  refine Finset.card_lt_card ⟨(le_sweepAt h hi).marks_subset, fun hsub ↦ ?_⟩
  rw [sweepAt_snd, Bool.or_eq_true, Bitmap.merge_snd_eq_true, Bitmap.merge_snd_eq_true] at hg
  rcases hg with ⟨j, hj, hn⟩ | ⟨j, hj, hn⟩
  · have hm : (false, i, j) ∈ (l.sweepAt i).1.marks := by
      rw [mem_marks hs hi, cond_false, outAt_sweepAt (by rwa [h.lengthOut]), if_pos rfl]
      simp [hj]
    have := (mem_marks h hi).1 (hsub hm)
    rw [cond_false, hn] at this
    exact Bool.false_ne_true this
  · have hm : (true, i, j) ∈ (l.sweepAt i).1.marks := by
      rw [mem_marks hs hi, cond_true, inAt_sweepAt (by rwa [h.lengthIn]), if_pos rfl]
      simp [hj]
    have := (mem_marks h hi).1 (hsub hm)
    rw [cond_true, hn] at this
    exact Bool.false_ne_true this

theorem card_marks_sweepList_lt {is : List Nat} (h : Sound l) (his : ∀ i ∈ is, i < l.flow.length)
    (hg : (l.sweepList is).2 = true) : l.marks.card < (l.sweepList is).1.marks.card := by
  induction is generalizing l with
  | nil => simp [sweepList] at hg
  | cons i is ih =>
    have hi := his i (by simp)
    have hs := h.sweepAt hi
    have his' : ∀ k ∈ is, k < (l.sweepAt i).1.flow.length := fun k hk ↦ his k (by simp [hk])
    rw [sweepList, Bool.or_eq_true] at hg
    rcases hg with hg | hg
    · refine (card_marks_sweepAt_lt h hi hg).trans_le (Finset.card_le_card ?_)
      exact (sweepList_spec hs his').2.1.marks_subset
    · exact (Finset.card_le_card (le_sweepAt h hi).marks_subset).trans_lt (ih hs his' hg)

/-! ## The fixpoint -/

/-- The live sets contain all that is asked of them, at every instruction. -/
def Stable (l : Liveness) : Prop := ∀ i < l.flow.length, StableAt l i

theorem lt_of_mem_sweepOrder {n : Nat} (h : i ∈ (List.range n).reverse) : i < n := by
  simpa using h

theorem Sound.sweepAll (h : Sound l) : Sound l.sweepAll.1 := by
  have hs := (sweepList_spec h fun _ ↦ lt_of_mem_sweepOrder).1
  exact ⟨hs.lengthIn, hs.lengthOut, hs.use, hs.before, hs.after⟩

theorem le_sweepAll (h : Sound l) : Le l l.sweepAll.1 := by
  have hle := (sweepList_spec h fun _ ↦ lt_of_mem_sweepOrder).2.1
  exact ⟨hle.vars, hle.flow, hle.before, hle.after⟩

theorem stable_sweepAll (h : Sound l) (hg : l.sweepAll.2 = false) : Stable l.sweepAll.1 := by
  obtain ⟨hback, hst⟩ :=
    (sweepList_spec h fun _ ↦ lt_of_mem_sweepOrder).2.2 hg
  have hback' : Le l.sweepAll.1 l := ⟨hback.vars, hback.flow, hback.before, hback.after⟩
  intro i hi
  rw [(le_sweepAll h).flow] at hi
  exact (hst i (by simpa using hi)).of_le_of_le (le_sweepAll h) hback'

theorem card_marks_sweepAll_lt (h : Sound l) (hg : l.sweepAll.2 = true) :
    l.marks.card < l.sweepAll.1.marks.card :=
  card_marks_sweepList_lt h (fun _ ↦ lt_of_mem_sweepOrder) hg

theorem settle_succ (fuel : Nat) (l : Liveness) : settle (fuel + 1) l =
    if l.sweepAll.2 then settle fuel l.sweepAll.1 else l.sweepAll.1 := rfl

/-- What a number of sweeps keeps, and that enough of them reach a fixpoint: the marks that are not
set yet are fewer than the sweeps that are left. -/
theorem settle_spec {fuel : Nat} (h : Sound l)
    (hf : 2 * l.flow.length * l.vars.length < fuel + l.marks.card) :
    Sound (settle fuel l) ∧ Le l (settle fuel l) ∧ Stable (settle fuel l) := by
  induction fuel generalizing l with
  | zero =>
    have := card_marks_le l
    omega
  | succ fuel ih =>
    have hs := h.sweepAll
    have hle := le_sweepAll h
    rw [settle_succ]
    cases hg : l.sweepAll.2 with
    | false => exact ⟨hs, hle, stable_sweepAll h hg⟩
    | true =>
      rw [if_pos rfl]
      have hlt := card_marks_sweepAll_lt h hg
      obtain ⟨hs', hle', hst⟩ := ih hs (by rw [hle.flow, hle.vars]; omega)
      exact ⟨hs', hle.trans hle', hst⟩

/-- **The number of sweeps that `solve` allows is enough.** -/
theorem settle_bound_spec (h : Sound l) :
    Sound (settle l.bound l) ∧ Le l (settle l.bound l) ∧ Stable (settle l.bound l) :=
  settle_spec h (by rw [bound]; omega)

end MiniJava.Liveness
