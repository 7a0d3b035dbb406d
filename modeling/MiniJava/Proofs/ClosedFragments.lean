import Mathlib.Data.List.Nodup
import MiniJava.Lowering.Fragment
import MiniJava.Lowering.Fresh

/-!
# Closed fragments

A fragment is closed (`Closed lo hi`) if each label that it jumps to is placed in it, no label is placed
twice, each stands before an instruction or right after the last one, and the numbers of all its labels
are from `lo` on and below `hi`.

Fragments whose numbers come one after another stay closed when they are joined.  A conditional or a loop
has labels of one number around parts of other numbers, and jumps between its parts; it is closed as a
whole (`Closed.around`).
-/

set_option autoImplicit false

namespace MiniJava

open IR

/-! ## Labels by number -/

/-- What stands before and behind the last occurrence of an element. -/
theorem append_cons_inj_of_not_mem {α : Type} {xs xs' ys ys' : List α} {a : α} (h : a ∉ ys)
    (h' : a ∉ ys') (heq : xs ++ a :: ys = xs' ++ a :: ys') : xs = xs' ∧ ys = ys' := by
  rcases List.append_eq_append_iff.1 heq with ⟨zs, rfl, hzs⟩ | ⟨zs, rfl, hzs⟩
  · cases zs with
    | nil => simpa using hzs
    | cons z zs =>
      obtain ⟨-, rfl⟩ := List.cons_eq_cons.1 hzs
      exact absurd (by simp) h
  · cases zs with
    | nil => simpa [eq_comm] using hzs
    | cons z zs =>
      obtain ⟨-, rfl⟩ := List.cons_eq_cons.1 hzs
      exact absurd (by simp) h'

theorem toDigits_inj {n k : Nat} (h : Nat.toDigits 10 n = Nat.toDigits 10 k) : n = k := by
  have hd := congrArg (fun cs ↦ Nat.ofDigitChars 10 cs 0) h
  simpa only [Nat.ofDigitChars_toDigits (b := 10) (by decide) (by decide)] using hd

namespace Fresh

theorem signs_labelName (stem : Text) (n : Nat) : (labelName stem n).signs =
    stem.signs ++ .char '_' :: (Nat.toDigits 10 n).map .char := by
  simp [labelName]

/-- No two labels have one name. -/
theorem labelName_inj {stem stem' : Text} {n n' : Nat}
    (h : labelName stem n = labelName stem' n') : stem = stem' ∧ n = n' := by
  have hdigits : ∀ k, Sign.char '_' ∉ (Nat.toDigits 10 k).map Sign.char := by
    intro k hk
    obtain ⟨c, hc, heq⟩ := List.mem_map.1 hk
    cases heq
    exact absurd (Nat.isDigit_of_mem_toDigits (by decide) (by decide) hc) (by decide)
  have hsigns := congrArg Text.signs h
  rw [signs_labelName, signs_labelName] at hsigns
  obtain ⟨hstem, hn⟩ := append_cons_inj_of_not_mem (hdigits n) (hdigits n') hsigns
  refine ⟨by cases stem; cases stem'; cases hstem; rfl, ?_⟩
  exact toDigits_inj (List.map_injective_iff.2 (fun _ _ hc ↦ Sign.char.inj hc) hn)

end Fresh

/-- Labels without repetition whose numbers are from `lo` on and below `hi`. -/
structure Numbered (lo hi : Nat) (ls : List Text) : Prop where
  nodup : ls.Nodup
  number : ∀ l ∈ ls, ∃ stem n, l = Fresh.labelName stem n ∧ lo ≤ n ∧ n < hi

namespace Numbered

variable {lo mid hi : Nat} {ls ls' : List Text}

theorem nil : Numbered lo hi [] := ⟨List.nodup_nil, by simp⟩

theorem mono {lo' hi' : Nat} (h : Numbered lo hi ls) (hlo : lo' ≤ lo) (hhi : hi ≤ hi') :
    Numbered lo' hi' ls := by
  refine ⟨h.nodup, fun l hl ↦ ?_⟩
  obtain ⟨stem, n, rfl, hn, hn'⟩ := h.number l hl
  exact ⟨stem, n, rfl, by omega, by omega⟩

theorem perm (h : Numbered lo hi ls) (hp : ls'.Perm ls) : Numbered lo hi ls' :=
  ⟨hp.nodup_iff.2 h.nodup, fun l hl ↦ h.number l (hp.mem_iff.1 hl)⟩

theorem sublist (h : Numbered lo hi ls) (hs : ls'.Sublist ls) : Numbered lo hi ls' :=
  ⟨h.nodup.sublist hs, fun l hl ↦ h.number l (hs.subset hl)⟩

theorem append (h : Numbered lo mid ls) (h' : Numbered mid hi ls') (hlo : lo ≤ mid) (hhi : mid ≤ hi) :
    Numbered lo hi (ls ++ ls') where
  nodup := by
    refine List.nodup_append.2 ⟨h.nodup, h'.nodup, fun a ha b hb hab ↦ ?_⟩
    obtain ⟨stem, n, rfl, -, hn⟩ := h.number a ha
    obtain ⟨stem', n', rfl, hn', -⟩ := h'.number b hb
    have heq := (Fresh.labelName_inj hab).2
    omega
  number := by
    intro l hl
    rcases List.mem_append.1 hl with hl | hl
    · exact (h.mono (Nat.le_refl lo) hhi).number l hl
    · exact (h'.mono hlo (Nat.le_refl hi)).number l hl

/-- Labels of one number. -/
theorem family {stems : List Text} (h : stems.Nodup) (n : Nat) :
    Numbered n (n + 1) (stems.map fun stem ↦ Fresh.labelName stem n) where
  nodup := h.map fun _ _ heq ↦ (Fresh.labelName_inj heq).1
  number := by
    intro l hl
    obtain ⟨stem, -, rfl⟩ := List.mem_map.1 hl
    exact ⟨stem, n, rfl, Nat.le_refl n, Nat.lt_succ_self n⟩

end Numbered

/-! ## Fragments -/

namespace Fragment

/-- The labels that a fragment places. -/
def placed (f : Fragment) : List Text := f.labels.map Prod.fst

/-- The labels that a fragment jumps to. -/
def wanted (f : Fragment) : List Text := f.code.filterMap Instr.target?

/-- All labels stand before an instruction or right after the last one. -/
def Bounded (f : Fragment) : Prop := ∀ l ∈ f.labels, l.2 ≤ f.code.length

section
variable {f g : Fragment} {P : Instr → Prop}

@[simp, grind =] theorem placed_append (f g : Fragment) : (f ++ g).placed = f.placed ++ g.placed := by
  rw [placed, labels_append, List.map_append, List.map_map]
  rfl

@[simp, grind =] theorem wanted_append (f g : Fragment) : (f ++ g).wanted = f.wanted ++ g.wanted := by
  rw [wanted, code_append, List.filterMap_append]
  rfl

@[simp, grind =] theorem placed_empty : empty.placed = [] := rfl

@[simp, grind =] theorem wanted_empty : empty.wanted = [] := rfl

@[simp, grind =] theorem placed_label (name : Text) : (label name).placed = [name] := rfl

@[simp, grind =] theorem wanted_label (name : Text) : (label name).wanted = [] := rfl

@[simp, grind =] theorem placed_instr (x : Instr) : (instr x).placed = [] := rfl

@[simp, grind =] theorem wanted_instr (x : Instr) : (instr x).wanted = x.target?.toList := by
  cases h : x.target? <;> simp [wanted, instr, instrs, h]

@[simp, grind =] theorem placed_instrs (xs : List Instr) : (instrs xs).placed = [] := rfl

@[simp, grind =] theorem wanted_instrs (xs : List Instr) : (instrs xs).wanted = xs.filterMap Instr.target? := rfl

theorem Bounded.append (hf : f.Bounded) (hg : g.Bounded) : (f ++ g).Bounded := by
  intro l hl
  rw [labels_append, List.mem_append] at hl
  rw [code_append, List.length_append]
  rcases hl with hl | hl
  · have := hf l hl
    omega
  · obtain ⟨l', hl', rfl⟩ := List.mem_map.1 hl
    have := hg l' hl'
    exact Nat.add_le_add_left this _

theorem bounded_of_labels_eq_nil (h : f.labels = []) : f.Bounded := by simp [Bounded, h]

theorem bounded_empty : empty.Bounded := bounded_of_labels_eq_nil rfl

theorem bounded_instr (x : Instr) : (instr x).Bounded := bounded_of_labels_eq_nil rfl

theorem bounded_instrs (xs : List Instr) : (instrs xs).Bounded := bounded_of_labels_eq_nil rfl

theorem bounded_label (name : Text) : (label name).Bounded := by simp [Bounded, label]

end

theorem endsWithReturn_def (f : Fragment) : f.endsWithReturn =
    (f.labels.all (fun l ↦ l.2 != f.code.length) && f.code.getLast?.any Instr.isReturn) := by
  rw [endsWithReturn]
  cases f.code.getLast? <;> rfl

/-- **A closed fragment**: it jumps to labels of its own only, and its labels have numbers from `lo` on
and below `hi`. -/
structure Closed (lo hi : Nat) (f : Fragment) : Prop where
  le : lo ≤ hi
  numbered : Numbered lo hi f.placed
  wanted : f.wanted ⊆ f.placed
  bounded : f.Bounded

namespace Closed

variable {lo mid hi : Nat} {f g : Fragment}

/-- A fragment without labels and jumps. -/
theorem plain (h : lo ≤ hi) (hl : f.labels = []) (hw : f.wanted = []) : Closed lo hi f where
  le := h
  numbered := by
    rw [placed, hl]
    exact .nil
  wanted := by simp [hw]
  bounded := bounded_of_labels_eq_nil hl

theorem append (hf : Closed lo mid f) (hg : Closed mid hi g) : Closed lo hi (f ++ g) where
  le := Nat.le_trans hf.le hg.le
  numbered := by
    rw [placed_append]
    exact hf.numbered.append hg.numbered hf.le hg.le
  wanted := by
    rw [placed_append, wanted_append]
    exact List.append_subset.2 ⟨List.subset_append_of_subset_left _ hf.wanted,
      List.subset_append_of_subset_right _ hg.wanted⟩
  bounded := hf.bounded.append hg.bounded

/-- A fragment with labels of its own around closed parts. -/
theorem around {mid' : Nat} {whole : Fragment} {labels : List Text} (hf : Closed lo mid f)
    (hl : Numbered mid mid' labels) (hle : mid ≤ mid') (hg : Closed mid' hi g)
    (hplaced : whole.placed.Perm (f.placed ++ labels ++ g.placed))
    (hwanted : whole.wanted ⊆ whole.placed) (hbounded : whole.Bounded) : Closed lo hi whole where
  le := Nat.le_trans hf.le (Nat.le_trans hle hg.le)
  numbered := by
    have hfl := hf.numbered.append hl hf.le hle
    exact (hfl.append hg.numbered (Nat.le_trans hf.le hle) hg.le).perm hplaced
  wanted := hwanted
  bounded := hbounded

end Closed

end Fragment

end MiniJava
