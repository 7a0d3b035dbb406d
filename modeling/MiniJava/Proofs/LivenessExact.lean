import MiniJava.Proofs.LivenessPaths
import MiniJava.Proofs.SlotSafety

/-!
# The live sets are exact

The sets of the analysis hold every variable that a path reads before writing it
(`MiniJava.Proofs.LivenessPaths`).  Here is the other half: whatever a sweep puts into a set, there is a
path for it (`Justified`).  A sweep adds to the sets at an instruction what the instruction reads, and
what is live before a successor and not written by it; in both cases a path of the set that it is taken
from, or none, is made longer by one step at its start.  The sets are empty at first, so all that is ever
in them is justified.

Together the two halves say that the sets are those of the paths, no more and no less
(`live_sets_are_exact`).
-/

set_option autoImplicit false

namespace MiniJava

open IR

/-- A variable is live exactly if it is read at the end of a path that does not write it. -/
theorem IR.Method.live_iff_path {m : Method} {v : Text} {i : Nat} :
    m.Live v i ↔ ∃ path k x, m.Path i path k ∧ m.code[k]? = some x ∧ v ∈ x.uses ∧
      ∀ j ∈ path, m.defAt j ≠ some v := by
  constructor
  · intro h
    induction h with
    | use hx hv => exact ⟨[], _, _, .nil, hx, hv, by simp⟩
    | later hd hn _ ih =>
      obtain ⟨path, k, x, hp, hx, hv, hpath⟩ := ih
      exact ⟨_ :: path, k, x, .cons hn hp, hx, hv, List.forall_mem_cons.2 ⟨hd, hpath⟩⟩
  · rintro ⟨path, k, x, hp, hx, hv, hpath⟩
    exact hp.live hpath (.use hx hv)

namespace Liveness

/-- For whatever is in the sets of a state there is a path. -/
structure Justified (m : Method) (l : Liveness) : Prop where
  before : ∀ i j, (l.inAt i).mem j = true → ∃ v, m.number? v = some j ∧ m.Live v i
  after : ∀ i j, (l.outAt i).mem j = true →
    ∃ k v, m.Next i k ∧ m.number? v = some j ∧ m.Live v k

section
variable {m : Method} {l : Liveness}

theorem Justified.joinAt (h : Justified m l) (hfit : Fits m l) {i j : Nat} {x : Instr}
    (hx : m.code[i]? = some x) (hj : (l.joinAt i).mem j = true) :
    ∃ k v, m.Next i k ∧ m.number? v = some j ∧ m.Live v k := by
  obtain ⟨s, hs, hj⟩ := mem_joinAt.1 hj
  obtain ⟨k, rfl, -, hn⟩ := ((hfit.flow i x hx).succ s).1 hs
  rw [Int.toNat_natCast] at hj
  obtain ⟨v, hv, hlive⟩ := h.before k j hj
  exact ⟨k, v, hn, hv, hlive⟩

theorem Justified.beforeAt (h : Justified m l) (hfit : Fits m l) {i j : Nat} {x : Instr}
    (hx : m.code[i]? = some x) (hj : (l.beforeAt i).mem j = true) :
    ∃ v, m.number? v = some j ∧ m.Live v i := by
  rcases mem_beforeAt.1 hj with ⟨hj, hd⟩ | hu
  · obtain ⟨k, v, hn, hv, hlive⟩ := h.joinAt hfit hx hj
    refine ⟨v, hv, .later ?_ hn hlive⟩
    rwa [Method.defAt, hx, Option.bind_some, Ne, ← hfit.mem_defs hx hv, Bool.not_eq_true]
  · obtain ⟨v, hv, hnum⟩ := ((hfit.flow i x hx).use j).1 hu
    exact ⟨v, hnum, .use hx hv⟩

/-- What one step of a sweep adds is justified. -/
theorem Justified.sweepAt (h : Justified m l) (hfit : Fits m l) (hs : Sound l) {i : Nat}
    (hi : i < l.flow.length) : Justified m (l.sweepAt i).1 := by
  have hx : m.code[i]? = some _ := List.getElem?_eq_getElem (hfit.length ▸ hi)
  constructor
  · intro k j hj
    rw [inAt_sweepAt (by rwa [hs.lengthIn])] at hj
    split at hj
    · rename_i hk
      subst hk
      rw [Bitmap.mem_union, Bool.or_eq_true] at hj
      exact hj.elim (h.before i j) (h.beforeAt hfit hx)
    · exact h.before k j hj
  · intro k j hj
    rw [outAt_sweepAt (by rwa [hs.lengthOut])] at hj
    split at hj
    · rename_i hk
      subst hk
      rw [Bitmap.mem_union, Bool.or_eq_true] at hj
      exact hj.elim (h.after i j) (h.joinAt hfit hx)
    · exact h.after k j hj

theorem Justified.sweepList {is : List Nat} (h : Justified m l) (hfit : Fits m l) (hs : Sound l)
    (his : ∀ i ∈ is, i < l.flow.length) : Justified m (l.sweepList is).1 := by
  induction is generalizing l with
  | nil => exact h
  | cons i is ih =>
    have hi := his i (by simp)
    exact ih (h.sweepAt hfit hs hi) (hfit.le (le_sweepAt hs hi)) (hs.sweepAt hi)
      fun k hk ↦ his k (by simp [hk])

theorem Justified.sweepAll (h : Justified m l) (hfit : Fits m l) (hs : Sound l) :
    Justified m l.sweepAll.1 := by
  have hj := h.sweepList hfit hs fun _ ↦ lt_of_mem_sweepOrder
  exact ⟨hj.before, hj.after⟩

theorem Justified.settle {fuel : Nat} (h : Justified m l) (hfit : Fits m l) (hs : Sound l) :
    Justified m (settle fuel l) := by
  induction fuel generalizing l with
  | zero => exact h
  | succ fuel ih =>
    have hset : Liveness.settle (fuel + 1) l =
        if l.sweepAll.2 then Liveness.settle fuel l.sweepAll.1 else l.sweepAll.1 := rfl
    rw [hset]
    split
    · exact ih (h.sweepAll hfit hs) (hfit.le (le_sweepAll hs)) hs.sweepAll
    · exact h.sweepAll hfit hs

/-- What a lone instruction reads is live before it, and nothing after it. -/
theorem justified_lone (hfit : Fits m l) (hs : Sound l) (hempty : ∀ i j, (l.inAt i).mem j = false ∧
    (l.outAt i).mem j = false) :
    Justified m { l with liveIn := List.zipWith (fun s f ↦ s.union f.use) l.liveIn l.flow } := by
  constructor
  · intro i j hj
    rcases (mem_inAt_lone hs.lengthIn).1 hj with hj | hj
    · rw [(hempty i j).1] at hj
      cases hj
    · cases hf : l.flow[i]? with
      | none =>
        rw [flowOf, List.getD_eq_getElem?_getD, hf] at hj
        exact absurd hj (Bool.eq_false_iff.1 (Bitmap.mem_wordless j))
      | some f =>
        have hx : m.code[i]? = some _ :=
          List.getElem?_eq_getElem (hfit.length ▸ (List.getElem?_eq_some_iff.1 hf).1)
        obtain ⟨v, hv, hnum⟩ := ((hfit.flow i _ hx).use j).1 hj
        exact ⟨v, hnum, .use hx hv⟩
  · intro i j hj
    have hout := (hempty i j).2
    rw [outAt] at hj hout
    rw [hj] at hout
    cases hout

/-- All that the analysis of a checked method finds is justified. -/
theorem justified_of_analyze (hc : m.check = .ok ()) (h : analyze m = .ok l) : Justified m l := by
  obtain ⟨l₀, hl₀, hfit, hs⟩ := build_spec hc
  have hempty := build_empty hl₀
  rw [analyze, hl₀] at h
  replace h : l₀.solve = .ok l := h
  rw [solve] at h
  split at h
  · cases h
    exact justified_lone hfit hs hempty
  · rw [if_pos hfit.inRange] at h
    cases h
    refine Justified.settle ⟨fun i j hj ↦ ?_, fun i j hj ↦ ?_⟩ hfit hs
    · rw [(hempty i j).1] at hj
      cases hj
    · rw [(hempty i j).2] at hj
      cases hj

/-- The names of a set of numbers of variables. -/
theorem mem_names_iff (hfit : Fits m l) {s : Bitmap}
    (hs : ∀ j, s.mem j = true → ∃ v, m.number? v = some j) {v : Text} :
    v ∈ l.names s ↔ ∃ j, m.number? v = some j ∧ s.mem j = true := by
  have hname {w : Text} {j : Nat} (hj : m.number? w = some j) : l.vars.getD j "" = w := by
    rw [hfit.vars, List.getD_eq_getElem?_getD, Method.number?_eq_some.1 hj, Option.getD_some]
  rw [names, List.mem_map]
  constructor
  · rintro ⟨j, hj, rfl⟩
    rw [Bitmap.mem_toList] at hj
    obtain ⟨w, hw⟩ := hs j hj
    rw [hname hw]
    exact ⟨j, hw, hj⟩
  · rintro ⟨j, hv, hj⟩
    exact ⟨j, Bitmap.mem_toList.2 hj, hname hv⟩

theorem mem_names_inAt (hd : Describes m l) (hj : Justified m l) {v : Text}
    (hv : m.vars.contains v = true) (i : Nat) : v ∈ l.names (l.inAt i) ↔ m.Live v i := by
  rw [mem_names_iff hd.toFits fun j hmem ↦ (hj.before i j hmem).imp fun _ h ↦ h.1]
  constructor
  · rintro ⟨j, hnum, hmem⟩
    obtain ⟨w, hw, hlive⟩ := hj.before i j hmem
    rwa [Method.number?_inj hnum hw]
  · intro hlive
    obtain ⟨j, hnum⟩ := Method.exists_number? hv
    exact ⟨j, hnum, hd.before hlive hnum⟩

theorem mem_names_outAt (hd : Describes m l) (hj : Justified m l) (hlen : 2 ≤ m.code.length)
    {v : Text} (hv : m.vars.contains v = true) (i : Nat) :
    v ∈ l.names (l.outAt i) ↔ ∃ k, m.Next i k ∧ m.Live v k := by
  have hnumber (j : Nat) (hmem : (l.outAt i).mem j = true) : ∃ w, m.number? w = some j := by
    obtain ⟨k, w, -, hw, -⟩ := hj.after i j hmem
    exact ⟨w, hw⟩
  rw [mem_names_iff hd.toFits hnumber]
  constructor
  · rintro ⟨j, hnum, hmem⟩
    obtain ⟨k, w, hn, hw, hlive⟩ := hj.after i j hmem
    rw [← Method.number?_inj hnum hw] at hlive
    exact ⟨k, hn, hlive⟩
  · rintro ⟨k, hn, hlive⟩
    obtain ⟨j, hnum⟩ := Method.exists_number? hv
    exact ⟨j, hnum, hd.after hlen hn hlive hnum⟩

end

/-- **Liveness is exact.**  The analysis of a checked method succeeds, and the successors it finds are
the instructions that control can go to.  A variable is in the set before an instruction exactly if some
path from there reads it before writing it, and in the set after an instruction exactly if it is in the
set before one of its successors. -/
theorem live_sets_are_exact {m : Method} (hc : m.check = .ok ()) :
    ∃ l, analyze m = .ok l ∧ ∀ i < m.code.length,
      (∀ s, s ∈ (l.flowOf i).succ ↔ ∃ j : Nat, s = j ∧ j < m.code.length ∧ m.Next i j) ∧
      ∀ v, m.vars.contains v = true →
        (v ∈ l.names (l.inAt i) ↔ ∃ path k x, m.Path i path k ∧ m.code[k]? = some x ∧ v ∈ x.uses ∧
          ∀ j ∈ path, m.defAt j ≠ some v) ∧
        (2 ≤ m.code.length → (v ∈ l.names (l.outAt i) ↔
          ∃ s ∈ (l.flowOf i).succ, v ∈ l.names (l.inAt s.toNat))) := by
  obtain ⟨l, hl, hd⟩ := analyze_spec hc
  have hj := justified_of_analyze hc hl
  refine ⟨l, hl, fun i hi ↦ ?_⟩
  have hsucc := (hd.flow i _ (List.getElem?_eq_getElem hi)).succ
  refine ⟨hsucc, fun v hv ↦ ⟨?_, fun hlen ↦ ?_⟩⟩
  · rw [mem_names_inAt hd hj hv, Method.live_iff_path]
  · rw [mem_names_outAt hd hj hlen hv]
    simp only [mem_names_inAt hd hj hv]
    constructor
    · rintro ⟨k, hn, hlive⟩
      exact ⟨k, (hsucc k).2 ⟨k, rfl, hlive.lt_length, hn⟩, by rwa [Int.toNat_natCast]⟩
    · rintro ⟨s, hs, hlive⟩
      obtain ⟨k, rfl, -, hn⟩ := (hsucc s).1 hs
      exact ⟨k, hn, by rwa [Int.toNat_natCast] at hlive⟩

/-- In the loop of `sumDown` the parameter is wanted again after the branch at its end. -/
theorem sumDown_live_sets_are_exact :
    Allocation.sumDown.check = .ok () ∧ ∃ l, analyze Allocation.sumDown = .ok l ∧
      ("n" : Text) ∈ l.names (l.inAt 0) ∧ ("n" : Text) ∈ l.names (l.outAt 4) := by
  have hc : Allocation.sumDown.check = .ok () := by decide
  obtain ⟨l, hl, hall⟩ := live_sets_are_exact hc
  have hnext : Allocation.sumDown.Next 0 1 := .fall rfl rfl
  have hback : Allocation.sumDown.Next 4 1 := .jump rfl rfl rfl
  refine ⟨hc, l, hl, ?_, ?_⟩
  · have h := ((hall 0 (by decide)).2 "n" (by decide)).1
    exact h.2 ⟨[0], 1, _, .cons hnext .nil, rfl, by decide, by decide⟩
  · have h := ((hall 4 (by decide)).2 "n" (by decide)).2 (by decide)
    refine h.2 ⟨1, ((hall 4 (by decide)).1 1).2 ⟨1, rfl, by decide, hback⟩, ?_⟩
    exact ((hall 1 (by decide)).2 "n" (by decide)).1.2 ⟨[], 1, _, .nil, rfl, by decide, by simp⟩

end Liveness

end MiniJava
