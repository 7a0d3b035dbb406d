import MiniJava.Proofs.LivenessPaths
import MiniJava.Proofs.SlotSafety

/-!
# Sweeping ends

Sweeps are taken one after another here, without a bound (`sweepTimes`).  One sweep leaves every set with
what it had, and it reports a change exactly if a set grew (`Swept`).  A sweep that reports none leaves the
state as it is, word by word, so that no later one does anything (`sweepTimes_add`).  For this the sets must
have room for all variables from the start (`Roomy`): then a sweep never makes a set longer.

Each sweep that reports a change sets one more of `2 * n * v` marks, for `n` instructions and `v` variables.
So there is a first sweep that reports none (`exists_settlesAfter`), and the state after it is what `settle`
gives with any larger number of sweeps allowed.
-/

set_option autoImplicit false

namespace MiniJava

/-! ## The words of a set -/

namespace Bitmap

theorem length_orWords (xs ys : List (BitVec 64)) :
    (orWords xs ys).length = max xs.length ys.length := by
  induction xs, ys using orWords.induct with
  | case1 ys => simp [orWords]
  | case2 xs h => cases xs <;> simp [orWords]
  | case3 x xs y ys ih => simp [orWords, ih]

theorem length_union (s t : Bitmap) :
    (s.union t).words.length = max s.words.length t.words.length := length_orWords _ _

theorem length_diff (s t : Bitmap) : (s.diff t).words.length = s.words.length := by simp [diff]

theorem length_insert (s : Bitmap) (i : Nat) :
    (s.insert i).words.length = max s.words.length (i / 64 + 1) := by
  simp only [insert, grow, List.length_modify, List.length_append, List.length_replicate]
  omega

/-- A fresh set has room for the numbers below its capacity. -/
theorem lt_length_withCapacity {n j : Nat} (h : j < n) :
    j / 64 + 1 ≤ (withCapacity n).words.length := by
  rw [withCapacity, List.length_replicate]
  omega

/-- Nothing changes in a set when a set within it, of no more words, is added. -/
theorem union_eq_left {s t : Bitmap} (hlen : t.words.length ≤ s.words.length)
    (h : ∀ i, t.mem i = true → s.mem i = true) : s.union t = s := by
  have hwords : orWords s.words t.words = s.words := by
    refine List.ext_getElem (by rw [length_orWords, Nat.max_eq_left hlen]) fun k hk hk' ↦ ?_
    have hget := getD_orWords s.words t.words k
    rw [List.getD_eq_getElem?_getD, List.getElem?_eq_getElem hk, Option.getD_some] at hget
    have hword : s.words.getD k 0 = s.words[k] := by
      rw [List.getD_eq_getElem?_getD, List.getElem?_eq_getElem hk', Option.getD_some]
    rw [hget, ← hword]
    refine BitVec.eq_of_getLsbD_eq fun b hb ↦ ?_
    have hd : (64 * k + b) / 64 = k := by omega
    have hr : (64 * k + b) % 64 = b := by omega
    have hi := h (64 * k + b)
    simp only [mem, word, hd, hr] at hi
    rw [BitVec.getLsbD_or]
    cases ht : (t.words.getD k 0).getLsbD b with
    | false => rw [Bool.or_false]
    | true => rw [hi ht, Bool.or_true]
  rw [union, hwords]

/-- A set has grown: it has all that it had, and something new. -/
def Grew (s t : Bitmap) : Prop :=
  (∀ j, s.mem j = true → t.mem j = true) ∧ ∃ j, t.mem j = true ∧ s.mem j = false

end Bitmap

namespace Liveness

open IR

/-! ## Room for all variables -/

/-- The number of words of a set of variables. -/
def room (l : Liveness) : Nat := (Bitmap.withCapacity l.vars.length).words.length

/-- All sets have room for all variables, and none has more. -/
structure Roomy (l : Liveness) : Prop where
  use : ∀ i, (l.flowOf i).use.words.length ≤ l.room
  before : ∀ s ∈ l.liveIn, s.words.length = l.room
  after : ∀ s ∈ l.liveOut, s.words.length = l.room

section
variable {l : Liveness}

theorem Roomy.inAt (h : Roomy l) (i : Nat) : (l.inAt i).words.length ≤ l.room := by
  rw [Liveness.inAt, List.getD_eq_getElem?_getD]
  cases hs : l.liveIn[i]? with
  | none => exact Nat.zero_le _
  | some s => exact Nat.le_of_eq (h.before s (List.mem_of_getElem? hs))

theorem Roomy.joinAt (h : Roomy l) (i : Nat) : (l.joinAt i).words.length ≤ l.room := by
  have hfold (ss : List Int) (b : Bitmap) (hb : b.words.length ≤ l.room) :
      (ss.foldl (fun b s ↦ b.union (l.inAt s.toNat)) b).words.length ≤ l.room := by
    induction ss generalizing b with
    | nil => exact hb
    | cons s ss ih =>
      refine ih _ ?_
      rw [Bitmap.length_union]
      exact Nat.max_le.2 ⟨hb, h.inAt s.toNat⟩
  exact hfold _ _ (Nat.le_refl _)

theorem Roomy.beforeAt (h : Roomy l) (i : Nat) : (l.beforeAt i).words.length ≤ l.room := by
  rw [Liveness.beforeAt, Bitmap.length_union, Bitmap.length_diff]
  exact Nat.max_le.2 ⟨h.joinAt i, h.use i⟩

variable {i : Nat}

theorem getElem_liveIn (hi : i < l.liveIn.length) : l.liveIn[i] = l.inAt i := by
  rw [inAt, List.getD_eq_getElem?_getD, List.getElem?_eq_getElem hi, Option.getD_some]

theorem getElem_liveOut (hi : i < l.liveOut.length) : l.liveOut[i] = l.outAt i := by
  rw [outAt, List.getD_eq_getElem?_getD, List.getElem?_eq_getElem hi, Option.getD_some]

theorem sweepAt_fst (l : Liveness) (i : Nat) : (l.sweepAt i).1 =
    { l with liveOut := l.liveOut.set i ((l.outAt i).union (l.joinAt i))
             liveIn := l.liveIn.set i ((l.inAt i).union (l.beforeAt i)) } := rfl

theorem Roomy.sweepAt (h : Roomy l) (hs : Sound l) (hi : i < l.flow.length) : Roomy (l.sweepAt i).1 := by
  have hin : i < l.liveIn.length := hs.lengthIn ▸ hi
  have hout : i < l.liveOut.length := hs.lengthOut ▸ hi
  rw [sweepAt_fst]
  refine ⟨h.use, fun s hmem ↦ ?_, fun s hmem ↦ ?_⟩
  · rcases List.mem_or_eq_of_mem_set hmem with hmem | rfl
    · exact h.before s hmem
    · have hlen := h.before _ (List.getElem_mem hin)
      rw [getElem_liveIn] at hlen
      rw [Bitmap.length_union, hlen]
      exact Nat.max_eq_left (h.beforeAt i)
  · rcases List.mem_or_eq_of_mem_set hmem with hmem | rfl
    · exact h.after s hmem
    · have hlen := h.after _ (List.getElem_mem hout)
      rw [getElem_liveOut] at hlen
      rw [Bitmap.length_union, hlen]
      exact Nat.max_eq_left (h.joinAt i)

theorem Roomy.sweepList {is : List Nat} (h : Roomy l) (hs : Sound l)
    (his : ∀ i ∈ is, i < l.flow.length) : Roomy (l.sweepList is).1 := by
  induction is generalizing l with
  | nil => exact h
  | cons i is ih =>
    have hi := his i (by simp)
    exact ih (h.sweepAt hs hi) (hs.sweepAt hi) fun k hk ↦ his k (by simp [hk])

theorem Roomy.sweepAll (h : Roomy l) (hs : Sound l) : Roomy l.sweepAll.1 := by
  have hr := h.sweepList hs fun _ ↦ lt_of_mem_sweepOrder
  exact ⟨hr.use, hr.before, hr.after⟩

/-! ## A sweep that reports no change -/

theorem sweepAt_eq_self (h : Roomy l) (hs : Sound l) (hi : i < l.flow.length)
    (hg : (l.sweepAt i).2 = false) : (l.sweepAt i).1 = l := by
  have hin : i < l.liveIn.length := hs.lengthIn ▸ hi
  have hout : i < l.liveOut.length := hs.lengthOut ▸ hi
  rw [sweepAt_snd, Bool.or_eq_false_iff, Bitmap.merge_snd_eq_false, Bitmap.merge_snd_eq_false] at hg
  have hbefore : (l.inAt i).union (l.beforeAt i) = l.inAt i := by
    refine Bitmap.union_eq_left ?_ hg.2
    rw [← getElem_liveIn hin, h.before _ (List.getElem_mem hin)]
    exact h.beforeAt i
  have hafter : (l.outAt i).union (l.joinAt i) = l.outAt i := by
    refine Bitmap.union_eq_left ?_ hg.1
    rw [← getElem_liveOut hout, h.after _ (List.getElem_mem hout)]
    exact h.joinAt i
  rw [sweepAt_fst, hbefore, hafter, ← getElem_liveIn hin, ← getElem_liveOut hout,
    List.set_getElem_self, List.set_getElem_self]

theorem sweepList_eq_self {is : List Nat} (h : Roomy l) (hs : Sound l)
    (his : ∀ i ∈ is, i < l.flow.length) (hg : (l.sweepList is).2 = false) :
    (l.sweepList is).1 = l := by
  induction is with
  | nil => rfl
  | cons i is ih =>
    rw [sweepList, Bool.or_eq_false_iff] at hg
    have hself := sweepAt_eq_self h hs (his i (by simp)) hg.1
    rw [hself] at hg
    have hcons : (l.sweepList (i :: is)).1 = ((l.sweepAt i).1.sweepList is).1 := rfl
    rw [hcons, hself]
    exact ih (fun k hk ↦ his k (by simp [hk])) hg.2

theorem sweepAll_fst (l : Liveness) : l.sweepAll.1 =
    { (l.sweepList (List.range l.flow.length).reverse).1 with
      sweeps := (l.sweepList (List.range l.flow.length).reverse).1.sweeps + 1 } := rfl

/-- **A sweep reports a change exactly if a set grew.** -/
theorem sweepAll_snd_iff (h : Sound l) : l.sweepAll.2 = true ↔ ∃ i < l.flow.length,
    (l.inAt i).Grew (l.sweepAll.1.inAt i) ∨ (l.outAt i).Grew (l.sweepAll.1.outAt i) := by
  have hle := le_sweepAll h
  constructor
  · intro hg
    -- the marks after the sweep are more than those before it
    obtain ⟨⟨b, i, j⟩, hnew, hold⟩ := Finset.exists_mem_notMem_of_card_lt_card
      (card_marks_sweepAll_lt h hg)
    have hi : i < l.flow.length := by
      have := (Finset.mem_filter.1 hnew).1
      simp only [Finset.mem_product, Finset.mem_range] at this
      rw [hle.flow] at this
      exact this.2.1
    rw [mem_marks h.sweepAll (hle.flow ▸ hi)] at hnew
    rw [mem_marks h hi, Bool.not_eq_true] at hold
    refine ⟨i, hi, ?_⟩
    cases b with
    | true => exact .inl ⟨hle.before i, j, hnew, hold⟩
    | false => exact .inr ⟨hle.after i, j, hnew, hold⟩
  · rintro ⟨i, -, hgrew⟩
    by_contra hg
    have hback := ((sweepList_spec h fun _ ↦ lt_of_mem_sweepOrder).2.2 (Bool.eq_false_iff.2 hg)).1
    rcases hgrew with ⟨-, j, hnew, hold⟩ | ⟨-, j, hnew, hold⟩
    · rw [hback.before i j hnew] at hold
      cases hold
    · rw [hback.after i j hnew] at hold
      cases hold

end

/-! ## Many sweeps -/

/-- The state after a number of sweeps. -/
def sweepTimes (l : Liveness) : Nat → Liveness
  | 0 => l
  | n + 1 => (l.sweepTimes n).sweepAll.1

/-- After some number of sweeps, all of which report a change, the next one reports none. -/
structure SettlesAfter (l : Liveness) (n : Nat) : Prop where
  changed : ∀ k < n, (l.sweepTimes k).sweepAll.2 = true
  unchanged : (l.sweepTimes n).sweepAll.2 = false

section
variable {l : Liveness}

theorem sweepTimes_sweepAll (l : Liveness) (n : Nat) :
    l.sweepAll.1.sweepTimes n = l.sweepTimes (n + 1) := by
  induction n with
  | zero => rfl
  | succ n ih => rw [sweepTimes, ih, ← sweepTimes]

theorem sweeps_sweepList (l : Liveness) (is : List Nat) : (l.sweepList is).1.sweeps = l.sweeps := by
  induction is generalizing l with
  | nil => rfl
  | cons i is ih => exact ih (l.sweepAt i).1

theorem sweeps_sweepTimes (l : Liveness) (n : Nat) : (l.sweepTimes n).sweeps = l.sweeps + n := by
  induction n with
  | zero => rfl
  | succ n ih =>
    have hcount : (l.sweepTimes n).sweepAll.1.sweeps = (l.sweepTimes n).sweeps + 1 :=
      congrArg (· + 1) (sweeps_sweepList _ _)
    rw [sweepTimes, hcount, ih, Nat.add_assoc]

/-- What sweeps keep. -/
theorem sweepTimes_spec (hs : Sound l) (hr : Roomy l) (n : Nat) :
    Sound (l.sweepTimes n) ∧ Roomy (l.sweepTimes n) ∧ Le l (l.sweepTimes n) := by
  induction n with
  | zero => exact ⟨hs, hr, Le.refl l⟩
  | succ n ih =>
    obtain ⟨hs, hr, hle⟩ := ih
    exact ⟨hs.sweepAll, hr.sweepAll hs, hle.trans (le_sweepAll hs)⟩

/-- The count of sweeps does not matter to a sweep. -/
theorem sweepList_count (l : Liveness) (c : Nat) (is : List Nat) :
    { l with sweeps := c }.sweepList is =
      ({ (l.sweepList is).1 with sweeps := c }, (l.sweepList is).2) := by
  induction is generalizing l with
  | nil => rfl
  | cons i is ih =>
    have hstep : { l with sweeps := c }.sweepAt i =
        ({ (l.sweepAt i).1 with sweeps := c }, (l.sweepAt i).2) := rfl
    rw [sweepList, hstep]
    dsimp only
    rw [ih]
    rfl

/-- **After a sweep that reports no change, sweeps leave the state as it is**; they are only counted. -/
theorem sweepTimes_add (hs : Sound l) (hr : Roomy l) {n : Nat}
    (hg : (l.sweepTimes n).sweepAll.2 = false) (k : Nat) :
    l.sweepTimes (n + k) = { l.sweepTimes n with sweeps := (l.sweepTimes n).sweeps + k } := by
  obtain ⟨hs, hr, -⟩ := sweepTimes_spec hs hr n
  have hself := sweepList_eq_self hr hs (fun _ ↦ lt_of_mem_sweepOrder) hg
  induction k with
  | zero => rfl
  | succ k ih => rw [← Nat.add_assoc, sweepTimes, ih, sweepAll_fst, sweepList_count, hself, Nat.add_assoc]

/-- There is a first sweep that reports no change: each one before it sets a mark. -/
theorem exists_settlesAfter (hs : Sound l) :
    ∃ n ≤ 2 * l.flow.length * l.vars.length, l.SettlesAfter n := by
  -- the marks that are not set yet bound the sweeps that are left
  suffices h : ∀ (free : Nat) (l : Liveness), Sound l →
      2 * l.flow.length * l.vars.length ≤ free + l.marks.card → ∃ n ≤ free, l.SettlesAfter n from
    h _ l hs (Nat.le_add_right _ _)
  intro free
  induction free with
  | zero =>
    intro l hs hfree
    refine ⟨0, Nat.le_refl 0, fun _ hk ↦ absurd hk (Nat.not_lt_zero _), ?_⟩
    by_contra hg
    have hlt := card_marks_sweepAll_lt hs (Bool.eq_true_of_not_eq_false hg)
    have hle := card_marks_le l.sweepAll.1
    rw [(le_sweepAll hs).flow, (le_sweepAll hs).vars] at hle
    omega
  | succ free ih =>
    intro l hs hfree
    cases hg : l.sweepAll.2 with
    | false => exact ⟨0, Nat.zero_le _, fun _ hk ↦ absurd hk (Nat.not_lt_zero _), hg⟩
    | true =>
      have hlt := card_marks_sweepAll_lt hs hg
      obtain ⟨n, hn, hchanged, hunchanged⟩ := ih l.sweepAll.1 hs.sweepAll (by
        rw [(le_sweepAll hs).flow, (le_sweepAll hs).vars]
        omega)
      rw [sweepTimes_sweepAll] at hunchanged
      refine ⟨n + 1, Nat.succ_le_succ hn, fun k hk ↦ ?_, hunchanged⟩
      cases k with
      | zero => exact hg
      | succ k =>
        rw [← sweepTimes_sweepAll]
        exact hchanged k (Nat.lt_of_succ_lt_succ hk)

/-- The bound on the sweeps of `settle` does not matter if it is large enough. -/
theorem SettlesAfter.settle_eq {n fuel : Nat} (h : l.SettlesAfter n) (hf : n < fuel) :
    settle fuel l = l.sweepTimes (n + 1) := by
  induction n generalizing l fuel with
  | zero =>
    obtain ⟨fuel, rfl⟩ := Nat.exists_eq_succ_of_ne_zero (Nat.ne_of_gt hf)
    rw [settle_succ, show l.sweepAll.2 = false from h.unchanged]
    rfl
  | succ n ih =>
    obtain ⟨fuel, rfl⟩ := Nat.exists_eq_succ_of_ne_zero (Nat.ne_of_gt (Nat.zero_lt_of_lt hf))
    have hnext : l.sweepAll.1.SettlesAfter n := by
      refine ⟨fun k hk ↦ ?_, ?_⟩
      · rw [sweepTimes_sweepAll]
        exact h.changed (k + 1) (Nat.succ_lt_succ hk)
      · rw [sweepTimes_sweepAll]
        exact h.unchanged
    rw [settle_succ, show l.sweepAll.2 = true from h.changed 0 (Nat.succ_pos n), if_pos rfl,
      ih hnext (Nat.lt_of_succ_lt_succ hf), sweepTimes_sweepAll]

end

/-! ## The state before the first sweep -/

/-- Sets of variables of a method stay within the room for all of them. -/
theorem build_roomy {m : Method} {l : Liveness} (h : build m = .ok l) : Roomy l := by
  have hroom : l.room = (Bitmap.withCapacity m.vars.vars.length).words.length := by
    rw [room, build_vars h, List.length_map]
  have huse (i : Nat) := (build_induction (P := fun s ↦ s.words.length ≤ l.room) (Nat.zero_le _)
    hroom.ge (fun s k hk hs ↦ by
      rw [Bitmap.length_insert]
      exact Nat.max_le.2 ⟨hs, hroom ▸ Bitmap.lt_length_withCapacity hk⟩) h i).1
  refine ⟨huse, fun s hs ↦ ?_, fun s hs ↦ ?_⟩
  all_goals
    obtain ⟨flow, -, h⟩ := Except.bind_eq_ok.1 h
    cases h
    obtain ⟨_, -, rfl⟩ := List.mem_map.1 hs
    exact hroom.symm

/-! ## Sweeping ends -/

/-- What one sweep makes of a state of a method. -/
structure Swept (m : Method) (l l' : Liveness) (changed : Bool) : Prop where
  /-- No set loses anything. -/
  le : Le l l'
  /-- The sets are of variables of the method. -/
  before : ∀ i, Below m.vars.vars.length (l'.inAt i)
  after : ∀ i, Below m.vars.vars.length (l'.outAt i)
  /-- A change is reported exactly if some set grew. -/
  changed : changed = true ↔ ∃ i < m.code.length,
    (l.inAt i).Grew (l'.inAt i) ∨ (l.outAt i).Grew (l'.outAt i)

theorem Fits.swept {m : Method} {l : Liveness} (hfit : Fits m l) (hs : Sound l) :
    l.sweep = .ok l.sweepAll ∧ Swept m l l.sweepAll.1 l.sweepAll.2 := by
  have hvars : l.sweepAll.1.vars.length = m.vars.vars.length := by
    rw [(le_sweepAll hs).vars, hfit.vars, List.length_map]
  refine ⟨by rw [sweep, if_pos hfit.inRange], le_sweepAll hs, ?_, ?_, ?_⟩
  · exact fun i ↦ hvars ▸ hs.sweepAll.before i
  · exact fun i ↦ hvars ▸ hs.sweepAll.after i
  · rw [sweepAll_snd_iff hs, hfit.length]

/-- **Sweeping only grows the sets, and it ends.**  On the state that a checked method starts from, sweeps
succeed however often they are made.  Each keeps what the sets have and stays within the variables, and it
reports a change exactly if a set grew.  After one that reports none, the state stays as it is.  The first
of these is no later than the sweep after `2 * n * v` others, for `n` instructions and `v` variables, and
this is where the analysis stops. -/
theorem sweeps_grow_and_end {m : Method} (hc : m.check = .ok ()) :
    ∃ l, build m = .ok l ∧
      (∀ n, ∃ changed, (l.sweepTimes n).sweep = .ok (l.sweepTimes (n + 1), changed) ∧
        Swept m (l.sweepTimes n) (l.sweepTimes (n + 1)) changed ∧
        (changed = false → ∀ k, l.sweepTimes (n + k) = { l.sweepTimes n with sweeps := n + k })) ∧
      ∃ n, n + 1 ≤ 2 * m.code.length * m.vars.vars.length + 1 ∧ l.SettlesAfter n ∧
        (∀ fuel, n < fuel → settle fuel l = l.sweepTimes (n + 1)) ∧
        (2 ≤ m.code.length → l.solve = .ok (l.sweepTimes (n + 1))) := by
  obtain ⟨l, hl, hfit, hs⟩ := build_spec hc
  have hr := build_roomy hl
  have hcount (n : Nat) : (l.sweepTimes n).sweeps = n := by
    obtain ⟨flow, -, h⟩ := Except.bind_eq_ok.1 hl
    cases h
    rw [sweeps_sweepTimes]
    exact Nat.zero_add n
  have hvars : l.vars.length = m.vars.vars.length := by rw [hfit.vars, List.length_map]
  refine ⟨l, hl, fun n ↦ ?_, ?_⟩
  · obtain ⟨hsn, -, hle⟩ := sweepTimes_spec hs hr n
    obtain ⟨hsweep, hswept⟩ := (hfit.le hle).swept hsn
    refine ⟨_, hsweep, hswept, fun hg k ↦ ?_⟩
    rw [sweepTimes_add hs hr hg, hcount]
  · obtain ⟨n, hn, hsettles⟩ := exists_settlesAfter hs
    rw [hfit.length, hvars] at hn
    refine ⟨n, Nat.succ_le_succ hn, hsettles, fun fuel ↦ hsettles.settle_eq, fun hlen ↦ ?_⟩
    have hbound : n < l.bound := by
      rw [bound, hfit.length, hvars]
      exact Nat.lt_succ_of_le hn
    have hmany : ¬ l.flow.length ≤ 1 := by
      rw [hfit.length]
      omega
    rw [solve, if_neg hmany, if_pos hfit.inRange, hsettles.settle_eq hbound]

/-- The loop of `sumDown` is swept at most 49 times. -/
theorem sumDown_sweeps_end : Allocation.sumDown.check = .ok () ∧ ∃ l n, build Allocation.sumDown = .ok l ∧
    n + 1 ≤ 49 ∧ l.SettlesAfter n ∧ l.solve = .ok (l.sweepTimes (n + 1)) := by
  have hc : Allocation.sumDown.check = .ok () := by decide
  obtain ⟨l, hl, -, n, hn, hsettles, -, hsolve⟩ := sweeps_grow_and_end hc
  exact ⟨hc, l, n, hl, hn, hsettles, hsolve (by decide)⟩

end Liveness

end MiniJava
