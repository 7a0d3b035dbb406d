import Mathlib.Data.Finset.Sort
import Mathlib.Data.Finset.Max
import MiniJava.Proofs.Bitmap

/-!
# Bitmaps through any history of operations

The same set can have any number of words behind it, and how many depends on all that happened to a
bitmap: a capacity that it was made with, growth by an insertion or a union, a copy that leaves
empty words out.  Here bitmaps have names and go through an arbitrary history of operations (`Op`),
beside finite sets that go through the operations of the same meaning on sets.

* `Represents` is the invariant: membership is the same.  Each operation keeps it
  (`Op.represents_value`), so every history does (`represents_bitmaps`).
* `Reports` collects what a bitmap says about its elements, and follows from membership alone
  (`Represents.reports`).

`history_refines_sets` puts the two together and adds the comparisons of two bitmaps.
-/

set_option autoImplicit false

namespace MiniJava.Bitmap

/-! ## Histories -/

/-- An operation on bitmaps that have names; the name that is written comes first. -/
inductive Op (ν : Type) where
  | make (s : ν) (capacity : Nat)
  | collect (s : ν) (xs : List Nat)
  | wordless (s : ν)
  | insert (s : ν) (i : Nat)
  | erase (s : ν) (i : Nat)
  | union (s t : ν)
  | merge (s t : ν)
  | inter (s t : ν)
  | diff (s t : ν)
  | diffCopy (r s t : ν)
  | copy (r s : ν)
  | clear (s : ν)

variable {ν : Type}

namespace Op

/-- The name that an operation writes. -/
def target : Op ν → ν
  | make s _ | collect s _ | wordless s | insert s _ | erase s _ | union s _ | merge s _ | inter s _
  | diff s _ | diffCopy s _ _ | copy s _ | clear s => s

/-- The bitmap that it writes there. -/
def value (b : ν → Bitmap) : Op ν → Bitmap
  | make _ n => withCapacity n
  | collect _ xs => ofList xs
  | wordless _ => Bitmap.wordless
  | insert s i => (b s).insert i
  | erase s i => (b s).erase i
  | union s t => (b s).union (b t)
  | merge s t => ((b s).merge (b t)).1
  | inter s t => (b s).inter (b t)
  | diff s t => (b s).diff (b t)
  | diffCopy _ s t => (b s).diffCopy (b t)
  | copy _ s => (b s).copy
  | clear s => (b s).clear

/-- The set that it stands for. -/
def setValue (S : ν → Finset Nat) : Op ν → Finset Nat
  | make _ _ | wordless _ | clear _ => ∅
  | collect _ xs => xs.toFinset
  | insert s i => {i} ∪ S s
  | erase s i => (S s).erase i
  | union s t | merge s t => S s ∪ S t
  | inter s t => S s ∩ S t
  | diff s t | diffCopy _ s t => S s \ S t
  | copy _ s => S s

end Op

variable [DecidableEq ν]

/-- The bitmaps after one operation. -/
def Op.step (b : ν → Bitmap) (op : Op ν) : ν → Bitmap := Function.update b op.target (op.value b)

/-- The sets after one operation. -/
def Op.setStep (S : ν → Finset Nat) (op : Op ν) : ν → Finset Nat :=
  Function.update S op.target (op.setValue S)

/-- The bitmaps after a history, before which none had a word. -/
def bitmaps (ops : List (Op ν)) : ν → Bitmap := ops.foldl Op.step fun _ ↦ .wordless

/-- The sets after a history, before which all were empty. -/
def sets (ops : List (Op ν)) : ν → Finset Nat := ops.foldl Op.setStep fun _ ↦ ∅

/-! ## Membership -/

/-- The bitmap has the elements of the set. -/
def Represents (b : Bitmap) (S : Finset Nat) : Prop := ∀ i, b.mem i = true ↔ i ∈ S

omit [DecidableEq ν] in
/-- An operation on bitmaps that represent sets gives one that represents the new set. -/
theorem Op.represents_value {b : ν → Bitmap} {S : ν → Finset Nat}
    (h : ∀ s, (b s).Represents (S s)) (op : Op ν) :
    (op.value b).Represents (op.setValue S) := by
  intro i
  cases op with
  | make s n => simp [value, setValue]
  | collect s xs => simp [value, setValue, ofList, mem_foldl_insert]
  | wordless s => simp [value, setValue]
  | insert s j => simp [value, setValue, ← h s i, @eq_comm Nat i j]
  | erase s j => simp [value, setValue, ← h s i, @eq_comm Nat i j]
  | union s t => simp [value, setValue, ← h s i, ← h t i]
  | merge s t => simp [value, setValue, ← h s i, ← h t i]
  | inter s t => simp [value, setValue, ← h s i, ← h t i]
  | diff s t => simp [value, setValue, ← h s i, ← h t i]
  | diffCopy r s t => simp [value, setValue, ← h s i, ← h t i]
  | copy r s => simp [value, setValue, ← h s i]
  | clear s => simp [value, setValue]

theorem Op.represents_step {b : ν → Bitmap} {S : ν → Finset Nat}
    (h : ∀ s, (b s).Represents (S s)) (op : Op ν) (s : ν) :
    (op.step b s).Represents (op.setStep S s) := by
  rw [step, setStep]
  by_cases hs : s = op.target
  · rw [hs, Function.update_self, Function.update_self]
    exact op.represents_value h
  · rw [Function.update_of_ne hs, Function.update_of_ne hs]
    exact h s

/-- So it is along a whole history. -/
theorem represents_foldl (ops : List (Op ν)) {b : ν → Bitmap} {S : ν → Finset Nat}
    (h : ∀ s, (b s).Represents (S s)) (s : ν) :
    (ops.foldl Op.step b s).Represents (ops.foldl Op.setStep S s) := by
  induction ops generalizing b S with
  | nil => exact h s
  | cons op ops ih => exact ih (op.represents_step h)

theorem represents_bitmaps (ops : List (Op ν)) (s : ν) :
    (bitmaps ops s).Represents (sets ops s) :=
  represents_foldl ops (fun _ i ↦ by simp) s

/-! ## What a bitmap says about its elements -/

/-- A bitmap answers every question about its elements as the set does. -/
structure Reports (b : Bitmap) (S : Finset Nat) : Prop where
  /-- The membership test. -/
  mem : ∀ i, b.mem i = true ↔ i ∈ S
  /-- The list of elements goes up. -/
  increasing : b.toList.Pairwise (· < ·)
  /-- It has exactly the elements. -/
  toList : b.toList = S.sort (· ≤ ·)
  /-- A visitor is handed the elements in that order, up to the one at which it has enough. -/
  visit : ∀ (σ : Type) (f : σ → Nat → σ × Bool) (a : σ),
    b.visit f a = (visitList f (S.sort (· ≤ ·)) a).1
  /-- The number of elements. -/
  size : b.size = S.card
  /-- The least element, or -1. -/
  first : index b.first? = if h : S.Nonempty then (S.min' h : Int) else -1
  /-- The greatest element, or -1. -/
  last : index b.last? = if h : S.Nonempty then (S.max' h : Int) else -1
  /-- The least number above all elements. -/
  length : (b.length : Int) = index b.last? + 1

theorem index_last?_add_one (b : Bitmap) : (b.length : Int) = index b.last? + 1 := by
  rw [length]
  cases b.last? <;> simp [index]

section Represents

variable {b c : Bitmap} {S T : Finset Nat}

theorem Represents.toFinset_toList (h : b.Represents S) : b.toList.toFinset = S := by
  ext i
  rw [List.mem_toFinset, mem_toList, h i]

theorem Represents.toList_eq_sort (h : b.Represents S) : b.toList = S.sort (· ≤ ·) := by
  rw [← h.toFinset_toList]
  exact ((List.toFinset_sort _ b.nodup_toList).2 (b.pairwise_toList.imp Nat.le_of_lt)).symm

theorem Represents.size_eq_card (h : b.Represents S) : b.size = S.card := by
  rw [size_eq_length, h.toList_eq_sort, Finset.length_sort]

theorem Represents.first?_eq (h : b.Represents S) :
    b.first? = if hS : S.Nonempty then some (S.min' hS) else none := by
  rw [first?_eq_head?, h.toList_eq_sort]
  by_cases hS : S.Nonempty
  · have hlen : 0 < S.sort.length := by rwa [Finset.length_sort, Finset.card_pos]
    rw [dif_pos hS, List.head?_eq_getElem?, List.getElem?_eq_getElem hlen,
      Finset.sorted_zero_eq_min']
  · rw [dif_neg hS, Finset.not_nonempty_iff_eq_empty.1 hS, Finset.sort_empty, List.head?_nil]

theorem Represents.last?_eq (h : b.Represents S) :
    b.last? = if hS : S.Nonempty then some (S.max' hS) else none := by
  rw [last?_eq_getLast?]
  by_cases hS : S.Nonempty
  · rw [dif_pos hS]
    refine getLast?_of_pairwise b.pairwise_toList ?_ fun i hi ↦ ?_
    · exact mem_toList.2 ((h _).2 (S.max'_mem hS))
    · exact S.le_max' i ((h i).1 (mem_toList.1 hi))
  · rw [dif_neg hS, h.toList_eq_sort, Finset.not_nonempty_iff_eq_empty.1 hS, Finset.sort_empty,
      List.getLast?_nil]

theorem Represents.reports (h : b.Represents S) : b.Reports S where
  mem := h
  increasing := b.pairwise_toList
  toList := h.toList_eq_sort
  visit := fun _ f a ↦ by rw [visit_eq_visitList, h.toList_eq_sort]
  size := h.size_eq_card
  first := by
    rw [h.first?_eq]
    split <;> rfl
  last := by
    rw [h.last?_eq]
    split <;> rfl
  length := b.index_last?_add_one

theorem Represents.equal_iff_eq (h : b.Represents S) (k : c.Represents T) :
    b.equal c = true ↔ S = T := by
  rw [equal_iff, Finset.ext_iff]
  exact forall_congr' fun i ↦ by rw [Bool.eq_iff_iff, h i, k i]

theorem Represents.subset_iff_subset (h : b.Represents S) (k : c.Represents T) :
    b.subset c = true ↔ S ⊆ T := by
  rw [subset_iff, Finset.subset_iff]
  exact forall_congr' fun i ↦ by rw [h i, k i]

theorem Represents.merge_snd_iff (h : b.Represents S) (k : c.Represents T) :
    (b.merge c).2 = true ↔ S ⊂ S ∪ T := by
  rw [← Bool.not_eq_false, merge_snd_eq_false, Finset.ssubset_iff_subset_ne]
  have hT : (∀ i, c.mem i = true → b.mem i = true) ↔ T ⊆ S := by
    rw [Finset.subset_iff]
    exact forall_congr' fun i ↦ by rw [h i, k i]
  rw [hT, and_iff_right Finset.subset_union_left, ne_comm, Ne, Finset.union_eq_left]

end Represents

/-- After any history of operations every bitmap reports the set that the operations of sets give,
a merge reports whether it adds an element, and comparisons are those of the sets, whatever the
numbers of words are. -/
theorem history_refines_sets (ops : List (Op ν)) (s t : ν) :
    (bitmaps ops s).Reports (sets ops s) ∧
      (((bitmaps ops s).merge (bitmaps ops t)).2 = true ↔ sets ops s ⊂ sets ops s ∪ sets ops t) ∧
      ((bitmaps ops s).equal (bitmaps ops t) = true ↔ sets ops s = sets ops t) ∧
      ((bitmaps ops s).subset (bitmaps ops t) = true ↔ sets ops s ⊆ sets ops t) := by
  have hs := represents_bitmaps ops s
  have ht := represents_bitmaps ops t
  exact ⟨hs.reports, hs.merge_snd_iff ht, hs.equal_iff_eq ht, hs.subset_iff_subset ht⟩

end MiniJava.Bitmap
