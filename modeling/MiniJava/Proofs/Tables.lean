import Mathlib.Data.List.Nodup
import Mathlib.Data.List.Sort
import MiniJava.IR.Method
import MiniJava.Proofs.Outcome

/-!
# Tables by name

Labels and variables are found by their names in lists that hold each name once.  So what is found is
what the list holds (`lookup_eq_some_of_mem`, `VarTable.get?_eq_some_iff`), and a change of registers
changes what is found in the register only (`VarTable.get?_mapReg`).  A list makes a table if it holds
no name twice (`Labels.ofList_eq_ok`).  Labels at one place are sorted by name, which can be evaluated as
an insertion sort (`Labels.namesAt_eq_insertionSort`).
-/

set_option autoImplicit false

namespace MiniJava

/-- In a list that holds each key once, an entry is found by its key. -/
theorem lookup_eq_some_of_mem {α β : Type} [BEq α] [LawfulBEq α] {xs : List (α × β)}
    (hn : (xs.map Prod.fst).Nodup) {a : α} {b : β} (h : (a, b) ∈ xs) : xs.lookup a = some b := by
  obtain ⟨before, after, rfl⟩ := List.append_of_mem h
  refine List.lookup_eq_some_iff.2 ⟨before, after, rfl, fun p hp ↦ bne_iff_ne.2 ?_⟩
  rw [List.map_append, List.map_cons, List.nodup_middle, List.nodup_cons] at hn
  exact fun hap ↦ hn.1 (List.mem_append_left _ (List.mem_map.2 ⟨p, hp, hap.symm⟩))

theorem mem_of_lookup_eq_some {α β : Type} [BEq α] [LawfulBEq α] {xs : List (α × β)} {a : α} {b : β}
    (h : xs.lookup a = some b) : (a, b) ∈ xs := by
  obtain ⟨before, after, rfl, -⟩ := List.lookup_eq_some_iff.1 h
  simp

/-- The labels at an index are those that the table puts there. -/
theorem IR.Labels.mem_namesAt {ls : IR.Labels} {index : Int} {name : Text} :
    name ∈ ls.namesAt index ↔ (name, index) ∈ ls.entries := by
  simp [IR.Labels.namesAt, List.mem_mergeSort]

/-- Both ways to sort keep the order of elements that are alike, and insertion can be evaluated. -/
theorem mergeSort_eq_insertionSort {α : Type} {le : α → α → Bool}
    (htrans : ∀ a b c, le a b = true → le b c = true → le a c = true)
    (htotal : ∀ a b, (le a b || le b a) = true) (l : List α) :
    l.mergeSort le = l.insertionSort fun a b ↦ le a b = true := by
  induction l with
  | nil => simp
  | cons a l ih =>
    obtain ⟨l₁, l₂, hcons, hl, hbefore⟩ := List.mergeSort_cons htrans htotal a l
    have hsorted := List.pairwise_mergeSort htrans htotal (a :: l)
    rw [hcons] at hsorted ⊢
    have hafter := (List.pairwise_cons.1 (List.pairwise_append.1 hsorted).2.1).1
    rw [List.insertionSort_cons, ← ih, hl, List.orderedInsert_eq_take_drop,
      List.takeWhile_append_of_pos (by simpa using hbefore),
      List.dropWhile_append_of_pos (by simpa using hbefore)]
    cases l₂ with
    | nil => simp
    | cons b l₂ => simp [hafter b List.mem_cons_self]

theorem Text.not_isBefore_trans (a b c : Text) (hab : (!b.isBefore a) = true)
    (hbc : (!c.isBefore b) = true) : (!c.isBefore a) = true := by
  simp only [Text.isBefore, Bool.not_eq_true', decide_eq_false_iff_not, List.not_lt] at hab hbc ⊢
  exact List.le_trans hab hbc

theorem Text.not_isBefore_total (a b : Text) : (!b.isBefore a || !a.isBefore b) = true := by
  simpa [Text.isBefore] using List.le_total a.bytes b.bytes

theorem IR.Labels.namesAt_eq_insertionSort (ls : IR.Labels) (index : Int) : ls.namesAt index =
    ((ls.entries.filter fun e ↦ e.2 == index).map Prod.fst).insertionSort
      fun a b ↦ (!b.isBefore a) = true :=
  mergeSort_eq_insertionSort Text.not_isBefore_trans Text.not_isBefore_total _

/-- A list of labels is a table of labels exactly if no name stands in it twice. -/
theorem IR.Labels.ofList_eq_ok {ls : List (Text × Int)} {labels : IR.Labels} :
    IR.Labels.ofList ls = .ok labels ↔ labels.entries = ls := by
  suffices h : ∀ acc : IR.Labels, ls.foldlM (fun acc l ↦ acc.add l.1 l.2) acc = .ok labels ↔
      labels.entries = acc.entries ++ ls from h .empty
  induction ls with
  | nil =>
    intro acc
    rw [List.append_nil]
    refine ⟨fun h ↦ ?_, fun h ↦ ?_⟩
    · cases h
      rfl
    · obtain ⟨entries, _⟩ := acc
      obtain ⟨_, _⟩ := labels
      cases h
      rfl
  | cons l ls ih =>
    intro acc
    rw [List.foldlM_cons, IR.Labels.add]
    split
    · rename_i hl
      refine ⟨fun h ↦ (nomatch h), fun h ↦ ?_⟩
      -- the name would stand in the table twice
      have hn := labels.nodup
      rw [h, List.map_append, List.nodup_append] at hn
      exact absurd rfl (hn.2.2 _ hl _ (by simp))
    · refine (ih _).trans ?_
      rw [List.append_assoc, List.singleton_append]

namespace IR.VarTable

variable {t : VarTable} {name : Text}

theorem get?_eq_some_iff {v : Variable} : t.get? name = some v ↔ v ∈ t.vars ∧ v.name = name := by
  rw [get?]
  constructor
  · intro h
    exact ⟨List.mem_of_find?_eq_some h, by simpa using List.find?_some h⟩
  · rintro ⟨hv, rfl⟩
    cases hf : t.vars.find? (·.name == v.name) with
    | none => exact absurd (List.find?_eq_none.1 hf v hv) (by simp)
    | some w =>
      have hw := List.mem_of_find?_eq_some hf
      have hname : w.name = v.name := by simpa using List.find?_some hf
      rw [List.inj_on_of_nodup_map t.nodup hw hv hname]

theorem contains_iff_get? : t.contains name = true ↔ ∃ v, t.get? name = some v := by
  rw [contains_iff, List.mem_map]
  simp only [get?_eq_some_iff]

theorem get?_mapReg (f : Variable → Int) :
    (t.mapReg f).get? name = (t.get? name).map fun v ↦ { v with reg := f v } := by
  rw [get?, get?, mapReg, List.find?_map]
  rfl

/-- The table with its own registers. -/
theorem mapReg_reg (t : VarTable) : t.mapReg Variable.reg = t := by
  obtain ⟨vars, nodup⟩ := t
  simp [mapReg]

theorem get?_setReg {a : Text} {reg : Int} : (t.setReg a reg).get? name =
    (t.get? name).map fun v ↦ { v with reg := if v.name == a then reg else v.reg } :=
  get?_mapReg _

end IR.VarTable

end MiniJava
