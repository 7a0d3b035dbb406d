import MiniJava.Bitmap

/-!
# Bitmaps are finite sets

`MiniJava.Bitmap` says what each operation does to one membership test.  This file adds what is said
about whole sets: `toList` lists exactly the elements, the other scans of the words agree with it,
`subset` decides inclusion, and the flag of `merge` tells whether the set really grew.
-/

set_option autoImplicit false

namespace MiniJava.Bitmap

variable {w : BitVec 64} {s t : Bitmap} {σ : Type}

/-! ## The bits of a word

The scan takes the lowest bit off the word until none is left.  All that follows rests on
`bits_eq_filter`: what it finds are the places of the word that have a bit, in their order. -/

theorem getLsbD_dropBit (w : BitVec 64) (j i : Nat) :
    (dropBit w j).getLsbD i = (w.getLsbD i && decide (j ≠ i)) := by
  rw [dropBit, BitVec.getLsbD_and, BitVec.getLsbD_not, BitVec.getLsbD_twoPow]
  by_cases hi : i < 64
  · by_cases h : j = i <;> simp [h, hi]
  · rw [BitVec.getLsbD_of_ge w i (by omega)]
    rfl

/-- The lowest bit comes first, and dropping it leaves the others. -/
theorem filter_getLsbD_of_ne_zero (h : w ≠ 0) : (List.range 64).filter w.getLsbD =
      w.ctz.toNat :: (List.range 64).filter (dropBit w w.ctz.toNat).getLsbD := by
  have hset : w.getLsbD w.ctz.toNat = true := BitVec.getLsbD_true_ctz_of_ne_zero h
  have hbelow : ∀ i < w.ctz.toNat, w.getLsbD i = false :=
    fun i hi ↦ BitVec.getLsbD_false_of_lt_ctz hi
  generalize w.ctz.toNat = c at hset hbelow ⊢
  have hc : c < 64 := BitVec.lt_of_getLsbD hset
  obtain ⟨d, hd⟩ : ∃ d, 64 = c + (d + 1) := ⟨63 - c, by omega⟩
  have hlow (v : BitVec 64) (hv : ∀ i < c, v.getLsbD i = false) :
      (List.range c).filter v.getLsbD = [] :=
    List.filter_eq_nil_iff.2 fun i hi ↦ by simp [hv i (List.mem_range.1 hi)]
  have hlow' : ∀ i < c, (dropBit w c).getLsbD i = false := by
    intro i hi
    rw [getLsbD_dropBit, hbelow i hi, Bool.false_and]
  have hdropped : (dropBit w c).getLsbD c = false := by simp [getLsbD_dropBit]
  have hhigh : ((List.range d).map (c + 1 + ·)).filter (dropBit w c).getLsbD =
      ((List.range d).map (c + 1 + ·)).filter w.getLsbD := by
    refine List.filter_congr fun i hi ↦ ?_
    obtain ⟨j, -, rfl⟩ := List.mem_map.1 hi
    have hne : c ≠ c + 1 + j := by omega
    simp [getLsbD_dropBit, hne]
  have hsplit : List.range 64 = List.range c ++ c :: (List.range d).map (c + 1 + ·) := by
    rw [hd, List.range_add, List.range_succ_eq_map, List.map_cons, List.map_map]
    simp [Function.comp_def, Nat.add_assoc, Nat.add_comm 1]
  rw [hsplit, List.filter_append, List.filter_append, hlow w hbelow, hlow _ hlow',
    List.filter_cons_of_pos hset, List.filter_cons_of_neg (by simp [hdropped]), hhigh]
  rfl

theorem lowestBits_eq_take (n : Nat) (w : BitVec 64) :
    lowestBits n w = ((List.range 64).filter w.getLsbD).take n := by
  induction n generalizing w with
  | zero => rfl
  | succ n ih =>
    rw [lowestBits]
    by_cases h : w = 0
    · rw [if_pos h, h, List.filter_eq_nil_iff.2 (by simp), List.take_nil]
    · rw [if_neg h, ih, filter_getLsbD_of_ne_zero h, List.take_succ_cons]

/-- Scanning a word finds each of its bits. -/
theorem bits_eq_filter (w : BitVec 64) : bits w = (List.range 64).filter w.getLsbD := by
  rw [bits, lowestBits_eq_take]
  refine List.take_of_length_le ?_
  exact Nat.le_trans (List.length_filter_le _ _) (Nat.le_of_eq List.length_range)

theorem cpopNatRec_eq_length_filter (w : BitVec 64) (n acc : Nat) :
    w.cpopNatRec n acc = acc + ((List.range n).filter w.getLsbD).length := by
  induction n generalizing acc with
  | zero => simp
  | succ n ih =>
    rw [BitVec.cpopNatRec_succ, ih, List.range_succ, List.filter_append, List.length_append]
    cases hb : w.getLsbD n with
    | false => simp [hb]
    | true =>
      simp [hb]
      omega

theorem toNat_cpop_eq_length (w : BitVec 64) : w.cpop.toNat = (bits w).length := by
  rw [BitVec.toNat_cpop, cpopNatRec_eq_length_filter, bits_eq_filter]
  omega

theorem mem_bits {b : Nat} : b ∈ bits w ↔ b < 64 ∧ w.getLsbD b = true := by
  simp [bits_eq_filter, List.mem_filter]

theorem pairwise_bits (w : BitVec 64) : (bits w).Pairwise (· < ·) := by
  rw [bits_eq_filter]
  exact List.pairwise_lt_range.filter _

theorem bits_zero : bits 0 = [] := rfl

theorem head?_bits (h : w ≠ 0) : (bits w).head? = some w.ctz.toNat := by
  rw [bits_eq_filter, filter_getLsbD_of_ne_zero h, List.head?_cons]

/-- An increasing list ends in its greatest number. -/
theorem getLast?_of_pairwise {xs : List Nat} (h : xs.Pairwise (· < ·)) {m : Nat} (hm : m ∈ xs)
    (hle : ∀ x ∈ xs, x ≤ m) : xs.getLast? = some m := by
  have hne : xs ≠ [] := List.ne_nil_of_mem hm
  rw [← List.dropLast_concat_getLast hne] at h hm
  have hlast : xs.getLast hne ≤ m := hle _ (List.getLast_mem hne)
  have heq : m = xs.getLast hne := by
    rcases List.mem_append.1 hm with hm | hm
    · have hlt := (List.pairwise_append.1 h).2.2 m hm _ (List.mem_singleton_self _)
      omega
    · exact List.mem_singleton.1 hm
  rw [List.getLast?_eq_some_getLast hne, heq]

theorem getLast?_bits (h : w ≠ 0) : (bits w).getLast? = some (63 - w.clz.toNat) := by
  have hset : w.getLsbD (63 - w.clz.toNat) = true :=
    BitVec.getLsbD_true_clz_of_ne_zero (by decide) h
  have habove : ∀ b, w.getLsbD b = true → b ≤ 63 - w.clz.toNat := by
    intro b hb
    refine Nat.le_of_not_lt fun hlt ↦ ?_
    have hbound : w.toNat < 2 ^ b :=
      Nat.lt_of_lt_of_le BitVec.toNat_lt_two_pow_sub_clz (Nat.pow_le_pow_right (by decide) (by omega))
    rw [BitVec.getLsbD, Nat.testBit_lt_two_pow hbound] at hb
    exact Bool.false_ne_true hb
  refine getLast?_of_pairwise (pairwise_bits w) (mem_bits.2 ⟨by omega, hset⟩) fun b hb ↦ ?_
  exact habove b (mem_bits.1 hb).2

/-! ## The elements of a bitmap -/

theorem mem_elementsFrom {ws : List (BitVec 64)} {k i : Nat} :
    i ∈ elementsFrom k ws ↔ k ≤ i / 64 ∧ (ws.getD (i / 64 - k) 0).getLsbD (i % 64) = true := by
  induction ws generalizing k with
  | nil => simp [elementsFrom]
  | cons w ws ih =>
    rw [elementsFrom, List.mem_append, ih, List.mem_map]
    constructor
    · rintro (⟨b, hb, rfl⟩ | ⟨hk, hm⟩)
      · obtain ⟨hb, hw⟩ := mem_bits.1 hb
        have hd : (64 * k + b) / 64 = k := by omega
        have hr : (64 * k + b) % 64 = b := by omega
        simp [hd, hr, hw]
      · have hd : i / 64 - k = (i / 64 - (k + 1)) + 1 := by omega
        refine ⟨by omega, ?_⟩
        rwa [hd, List.getD_cons_succ]
    · rintro ⟨hk, hm⟩
      rcases Nat.eq_or_lt_of_le hk with hk | hk
      · left
        rw [← hk, Nat.sub_self, List.getD_cons_zero] at hm
        exact ⟨i % 64, mem_bits.2 ⟨Nat.mod_lt _ (by omega), hm⟩, by omega⟩
      · right
        have hd : i / 64 - k = (i / 64 - (k + 1)) + 1 := by omega
        rw [hd, List.getD_cons_succ] at hm
        exact ⟨hk, hm⟩

@[simp] theorem mem_toList {i : Nat} : i ∈ s.toList ↔ s.mem i = true := by
  simp [toList, mem_elementsFrom, mem, word]

theorem pairwise_elementsFrom (k : Nat) (ws : List (BitVec 64)) :
    (elementsFrom k ws).Pairwise (· < ·) := by
  induction ws generalizing k with
  | nil => exact .nil
  | cons w ws ih =>
    rw [elementsFrom, List.pairwise_append]
    refine ⟨?_, ih (k + 1), fun i hi j hj ↦ ?_⟩
    · exact List.pairwise_map.2 ((pairwise_bits w).imp fun h ↦ Nat.add_lt_add_left h _)
    · obtain ⟨b, hb, rfl⟩ := List.mem_map.1 hi
      have hlt := (mem_bits.1 hb).1
      have hle := (mem_elementsFrom.1 hj).1
      omega

/-- The elements are listed from the least to the greatest. -/
theorem pairwise_toList (s : Bitmap) : s.toList.Pairwise (· < ·) := pairwise_elementsFrom 0 s.words

theorem nodup_toList (s : Bitmap) : s.toList.Nodup := s.pairwise_toList.imp Nat.ne_of_lt

/-- A set made by inserting the numbers of a list has these and those it had. -/
theorem mem_foldl_insert {xs : List Nat} {i : Nat} :
    (xs.foldl insert s).mem i = true ↔ i ∈ xs ∨ s.mem i = true := by
  induction xs generalizing s with
  | nil => simp
  | cons x xs ih =>
    rw [List.foldl_cons, ih, mem_insert, Bool.or_eq_true, beq_iff_eq, List.mem_cons]
    grind

/-! ## What the scans of the words find -/

theorem firstFrom?_eq_head? (k : Nat) (ws : List (BitVec 64)) :
    firstFrom? k ws = (elementsFrom k ws).head? := by
  induction ws generalizing k with
  | nil => rfl
  | cons w ws ih =>
    rw [firstFrom?, elementsFrom, List.head?_append, List.head?_map]
    by_cases h : w = 0
    · rw [if_pos h, ih, h, bits_zero]
      rfl
    · rw [if_neg h, head?_bits h]
      rfl

theorem first?_eq_head? (s : Bitmap) : s.first? = s.toList.head? := firstFrom?_eq_head? 0 s.words

theorem lastFrom?_eq_getLast? (k : Nat) (ws : List (BitVec 64)) :
    lastFrom? k ws = (elementsFrom k ws).getLast? := by
  induction ws generalizing k with
  | nil => rfl
  | cons w ws ih =>
    rw [lastFrom?, elementsFrom, List.getLast?_append, ← ih, List.getLast?_map]
    by_cases h : w = 0
    · rw [if_pos h, h, bits_zero]
      rfl
    · rw [if_neg h, getLast?_bits h]
      rfl

theorem last?_eq_getLast? (s : Bitmap) : s.last? = s.toList.getLast? :=
  lastFrom?_eq_getLast? 0 s.words

theorem foldl_cpop (ws : List (BitVec 64)) (k n : Nat) :
    ws.foldl (fun n w ↦ n + w.cpop.toNat) n = n + (elementsFrom k ws).length := by
  induction ws generalizing k n with
  | nil => rfl
  | cons w ws ih =>
    rw [List.foldl_cons, ih (k + 1), elementsFrom, List.length_append, List.length_map,
      toNat_cpop_eq_length, Nat.add_assoc]

theorem size_eq_length (s : Bitmap) : s.size = s.toList.length := by
  rw [size, foldl_cpop s.words 0 0, Nat.zero_add, toList]

/-- A visitor that is handed the numbers of a list, until it has enough. -/
def visitList {σ : Type} (f : σ → Nat → σ × Bool) : List Nat → σ → σ × Bool
  | [], a => (a, true)
  | i :: is, a => if (f a i).2 then visitList f is (f a i).1 else f a i

theorem visitList_append (f : σ → Nat → σ × Bool) (is js : List Nat) (a : σ) :
    visitList f (is ++ js) a =
      if (visitList f is a).2 then visitList f js (visitList f is a).1 else visitList f is a := by
  induction is generalizing a with
  | nil => rfl
  | cons i is ih =>
    rw [List.cons_append, visitList, visitList]
    by_cases h : (f a i).2 = true
    · rw [if_pos h, if_pos h, ih]
    · rw [if_neg h, if_neg h, if_neg h]

theorem visitWord_eq_visitList (f : σ → Nat → σ × Bool) (k n : Nat) (w : BitVec 64) (a : σ) :
    visitWord f k n w a = visitList f ((lowestBits n w).map (64 * k + ·)) a := by
  induction n generalizing w a with
  | zero => rfl
  | succ n ih =>
    rw [visitWord, lowestBits]
    by_cases h : w = 0
    · rw [if_pos h, if_pos h]
      rfl
    · rw [if_neg h, if_neg h, List.map_cons, visitList]
      simp only [ih]

theorem visitFrom_eq_visitList (f : σ → Nat → σ × Bool) (k : Nat) (ws : List (BitVec 64)) (a : σ) :
    visitFrom f k ws a = visitList f (elementsFrom k ws) a := by
  induction ws generalizing k a with
  | nil => rfl
  | cons w ws ih =>
    rw [visitFrom, elementsFrom, visitList_append, bits]
    simp only [visitWord_eq_visitList, ih]

theorem visit_eq_visitList (s : Bitmap) (f : σ → Nat → σ × Bool) (a : σ) :
    s.visit f a = (visitList f s.toList a).1 := by
  rw [visit, visitFrom_eq_visitList, toList]

/-! ## Comparisons -/

theorem mem_place (s : Bitmap) {k b : Nat} (hb : b < 64) :
    s.mem (64 * k + b) = (s.word k).getLsbD b := by
  have hd : (64 * k + b) / 64 = k := by omega
  have hr : (64 * k + b) % 64 = b := by omega
  rw [mem, hd, hr]

theorem word_of_length_le {k : Nat} (h : s.words.length ≤ k) : s.word k = 0 := by
  rw [word, List.getD_eq_getElem?_getD, List.getElem?_eq_none h]
  rfl

/-- What holds of every bit of every word holds of every number. -/
theorem forall_mem_iff {p : Nat → Prop} : (∀ i, s.mem i = true → p i) ↔
      ∀ k < s.words.length, ∀ b < 64, (s.word k).getLsbD b = true → p (64 * k + b) := by
  constructor
  · intro h k _ b hb hs
    exact h _ (by rwa [mem_place s hb])
  · intro h i hi
    have hb : i % 64 < 64 := Nat.mod_lt _ (by decide)
    rw [mem] at hi
    have hk : i / 64 < s.words.length := by
      refine Nat.lt_of_not_le fun hk ↦ ?_
      rw [word_of_length_le hk] at hi
      simp at hi
    have hp := h (i / 64) hk (i % 64) hb hi
    rwa [Nat.div_add_mod] at hp

theorem and_not_eq_zero_iff {v : BitVec 64} :
    v &&& ~~~ w = 0 ↔ ∀ b < 64, v.getLsbD b = true → w.getLsbD b = true := by
  constructor
  · intro h b hb hv
    have hbit := congrArg (·.getLsbD b) h
    simpa [hv, hb] using hbit
  · intro h
    refine BitVec.eq_of_getLsbD_eq fun b hb ↦ ?_
    cases hv : v.getLsbD b with
    | false => simp [hv]
    | true => simp [h b hb hv]

theorem or_eq_left_iff {v : BitVec 64} :
    v ||| w = v ↔ ∀ b < 64, w.getLsbD b = true → v.getLsbD b = true := by
  constructor
  · intro h b _ hw
    rw [← h, BitVec.getLsbD_or, hw, Bool.or_true]
  · intro h
    refine BitVec.eq_of_getLsbD_eq fun b hb ↦ ?_
    cases hw : w.getLsbD b with
    | false => simp [hw]
    | true => simp [h b hb hw]

theorem subset_iff : s.subset t = true ↔ ∀ i, s.mem i = true → t.mem i = true := by
  rw [subset, List.all_eq_true, forall_mem_iff]
  refine forall_congr' fun k ↦ ?_
  rw [List.mem_range, beq_iff_eq, and_not_eq_zero_iff]
  refine imp_congr_right fun _ ↦ forall_congr' fun b ↦ imp_congr_right fun hb ↦ ?_
  rw [mem_place t hb]

/-- Two bitmaps are equal when they have the same elements, however many words they have. -/
theorem equal_iff : s.equal t = true ↔ ∀ i, s.mem i = t.mem i := by
  rw [equal, List.all_eq_true]
  constructor
  · intro h i
    by_cases hk : i / 64 < max s.words.length t.words.length
    · rw [mem, mem, eq_of_beq (h (i / 64) (List.mem_range.2 hk))]
    · rw [mem, mem, word_of_length_le (by omega), word_of_length_le (by omega)]
  · intro h k _
    rw [beq_iff_eq]
    refine BitVec.eq_of_getLsbD_eq fun b hb ↦ ?_
    rw [← mem_place s hb, ← mem_place t hb, h]

/-- A merge that reports no growth had nothing to add. -/
theorem merge_snd_eq_false : (s.merge t).2 = false ↔ ∀ i, t.mem i = true → s.mem i = true := by
  rw [merge, List.any_eq_false, forall_mem_iff]
  refine forall_congr' fun k ↦ ?_
  rw [List.mem_range, bne_iff_ne, Decidable.not_not, or_eq_left_iff]
  refine imp_congr_right fun _ ↦ forall_congr' fun b ↦ imp_congr_right fun hb ↦ ?_
  rw [mem_place s hb]

/-- A merge that reports growth added an element. -/
theorem merge_snd_eq_true : (s.merge t).2 = true ↔ ∃ i, t.mem i = true ∧ s.mem i = false := by
  rw [← Bool.not_eq_false, merge_snd_eq_false]
  simp

end MiniJava.Bitmap
