/-!
# Bitmaps

Finite sets of natural numbers as lists of 64-bit words: `i` is an element when bit `i % 64` of word
`i / 64` is set.  A word beyond the end of the list counts as zero, so two lists of different
lengths can be the same set; `Bitmap.equal` and `Bitmap.subset` compare sets, not lists.

The number of words is kept apart from the set, since one thing shows it: the bitmap that never had
a word, `Bitmap.wordless`, is written as a nil by `MiniJava.Wire`, while an empty bitmap that has one is
written as an empty array.

## What is here

* the operations of sets (`insert`, `erase`, `union`, `inter`, `diff`) and what they do to `mem`;
* the elements in increasing order (`toList`, `visit`), their number, the least and the greatest, all
  read off the words by counting zeros and bits;
* `insertInt`, `eraseInt?` and `memInt?`, which take a signed index and refuse one that is negative.
-/

set_option autoImplicit false

namespace MiniJava

/-- A finite set of natural numbers, as words of 64 bits. -/
structure Bitmap where
  words : List (BitVec 64)
deriving DecidableEq, Repr, Inhabited

namespace Bitmap

/-- The bitmap that never had a word. -/
def wordless : Bitmap := ⟨[]⟩

/-- The empty bitmap with room for the numbers below `n`, and for one word at least. -/
def withCapacity (n : Nat) : Bitmap := ⟨List.replicate (max 1 ((n + 63) / 64)) 0⟩

/-- The word at position `k`. -/
def word (s : Bitmap) (k : Nat) : BitVec 64 := s.words.getD k 0

/-- Whether `i` is an element. -/
def mem (s : Bitmap) (i : Nat) : Bool := (s.word (i / 64)).getLsbD (i % 64)

instance : Membership Nat Bitmap := ⟨fun s i ↦ s.mem i = true⟩

instance (s : Bitmap) (i : Nat) : Decidable (i ∈ s) :=
  inferInstanceAs (Decidable (s.mem i = true))

theorem mem_def {s : Bitmap} {i : Nat} : i ∈ s ↔ s.mem i = true := Iff.rfl

/-- The bitmap with at least `n` words. -/
def grow (s : Bitmap) (n : Nat) : Bitmap :=
  ⟨s.words ++ List.replicate (n - s.words.length) 0⟩

/-- The set with the element `i`. -/
def insert (s : Bitmap) (i : Nat) : Bitmap :=
  ⟨(s.grow (i / 64 + 1)).words.modify (i / 64) (· ||| BitVec.twoPow 64 (i % 64))⟩

/-- The set without the element `i`. -/
def erase (s : Bitmap) (i : Nat) : Bitmap :=
  ⟨s.words.modify (i / 64) (· &&& ~~~ (BitVec.twoPow 64 (i % 64)))⟩

/-- The set of the numbers of a list. -/
def ofList (xs : List Nat) : Bitmap := xs.foldl insert (withCapacity 0)

/-- Word by word, `or`; the longer list gives the rest. -/
def orWords : List (BitVec 64) → List (BitVec 64) → List (BitVec 64)
  | [], ys => ys
  | xs, [] => xs
  | x :: xs, y :: ys => (x ||| y) :: orWords xs ys

/-- The union of two sets. -/
def union (s t : Bitmap) : Bitmap := ⟨orWords s.words t.words⟩

/-- The elements of `s` that are in `t`. -/
def inter (s t : Bitmap) : Bitmap := ⟨s.words.mapIdx fun k w ↦ w &&& t.word k⟩

/-- The elements of `s` that are not in `t`. -/
def diff (s t : Bitmap) : Bitmap := ⟨s.words.mapIdx fun k w ↦ w &&& ~~~ (t.word k)⟩

/-- The empty set in the words of `s`. -/
def clear (s : Bitmap) : Bitmap := ⟨s.words.map fun _ ↦ 0⟩

/-- Whether the two sets have the same elements. -/
def equal (s t : Bitmap) : Bool :=
  (List.range (max s.words.length t.words.length)).all fun k ↦ s.word k == t.word k

/-- Whether every element of `s` is one of `t`. -/
def subset (s t : Bitmap) : Bool :=
  (List.range s.words.length).all fun k ↦ s.word k &&& ~~~ (t.word k) == 0

/-- The union, and whether a word of `s` became another one. -/
def merge (s t : Bitmap) : Bitmap × Bool :=
  (s.union t, (List.range t.words.length).any fun k ↦ s.word k ||| t.word k != s.word k)

/-- A word without its bit `j`. -/
def dropBit (w : BitVec 64) (j : Nat) : BitVec 64 := w &&& ~~~ (BitVec.twoPow 64 j)

/-- The positions of the `n` lowest bits of a word, from the lowest on. -/
def lowestBits : Nat → BitVec 64 → List Nat
  | 0, _ => []
  | n + 1, w =>
    if w = 0 then [] else w.ctz.toNat :: lowestBits n (dropBit w w.ctz.toNat)

/-- The positions of the bits of a word, which are at most 64. -/
def bits (w : BitVec 64) : List Nat := lowestBits 64 w

/-- The elements in words that start at word `k`. -/
def elementsFrom (k : Nat) : List (BitVec 64) → List Nat
  | [] => []
  | w :: ws => (bits w).map (64 * k + ·) ++ elementsFrom (k + 1) ws

/-- The elements in increasing order. -/
def toList (s : Bitmap) : List Nat := elementsFrom 0 s.words

/-- Hands the `n` lowest elements of word `k` to a visitor, from the lowest on, until the visitor
has enough; the answer says whether it would go on. -/
def visitWord {σ : Type} (f : σ → Nat → σ × Bool) (k : Nat) : Nat → BitVec 64 → σ → σ × Bool
  | 0, _, a => (a, true)
  | n + 1, w, a =>
    if w = 0 then (a, true)
    else
      let next := f a (64 * k + w.ctz.toNat)
      if next.2 then visitWord f k n (dropBit w w.ctz.toNat) next.1 else next

/-- The same with words that start at word `k`. -/
def visitFrom {σ : Type} (f : σ → Nat → σ × Bool) (k : Nat) : List (BitVec 64) → σ → σ × Bool
  | [], a => (a, true)
  | w :: ws, a =>
    let next := visitWord f k 64 w a
    if next.2 then visitFrom f (k + 1) ws next.1 else next

/-- Hands the elements to a visitor, which says after each one whether it goes on. -/
def visit {σ : Type} (s : Bitmap) (f : σ → Nat → σ × Bool) (a : σ) : σ :=
  (visitFrom f 0 s.words a).1

/-- The number of elements. -/
def size (s : Bitmap) : Nat := s.words.foldl (fun n w ↦ n + w.cpop.toNat) 0

/-- The lowest bit of the first word that has one, in words that start at word `k`. -/
def firstFrom? (k : Nat) : List (BitVec 64) → Option Nat
  | [] => none
  | w :: ws => if w = 0 then firstFrom? (k + 1) ws else some (64 * k + w.ctz.toNat)

/-- The least element. -/
def first? (s : Bitmap) : Option Nat := firstFrom? 0 s.words

/-- The highest bit of the last word that has one, in words that start at word `k`. -/
def lastFrom? (k : Nat) : List (BitVec 64) → Option Nat
  | [] => none
  | w :: ws =>
    (lastFrom? (k + 1) ws).or (if w = 0 then none else some (64 * k + (63 - w.clz.toNat)))

/-- The greatest element. -/
def last? (s : Bitmap) : Option Nat := lastFrom? 0 s.words

/-- An element as a signed index, which is -1 for none. -/
def index (i? : Option Nat) : Int := (i?.map Int.ofNat).getD (-1)

/-- The least number above all elements. -/
def length (s : Bitmap) : Nat :=
  match s.last? with
  | some i => i + 1
  | none => 0

/-- The same set, in as few words as a fresh bitmap for it would have and no fewer than `s`. -/
def copy (s : Bitmap) : Bitmap := (withCapacity s.length).union s

/-- The elements of `s` that are not in `t`, in words of their own. -/
def diffCopy (s t : Bitmap) : Bitmap := s.copy.diff t

/-! ## Signed indices

A signed index names the bit `i.tmod 64` of the word `i.tdiv 64`, both rounded toward zero.  A word
beyond the end is the empty word whatever the bit; otherwise a negative word or bit is no place at
all. -/

/-- The bitmap after an attempt to insert `i`, and whether there was a place for it.  Room is made
before the bit is looked at, so an attempt at an index between -63 and -1 leaves one word. -/
def insertInt (s : Bitmap) (i : Int) : Bitmap × Bool :=
  if 0 ≤ i then (s.insert i.toNat, true)
  else if -64 < i then (s.grow 1, false)
  else (s, false)

/-- The bitmap without `i`, if there is a place for it. -/
def eraseInt? (s : Bitmap) (i : Int) : Option Bitmap :=
  if 0 ≤ i then some (s.erase i.toNat)
  else if -64 < i && s.words.isEmpty then some s
  else none

/-- Whether `i` is an element, if there is a place for it. -/
def memInt? (s : Bitmap) (i : Int) : Option Bool :=
  if 0 ≤ i then some (s.mem i.toNat)
  else if -64 < i && s.words.isEmpty then some false
  else none

/-! ## What the operations do to membership -/

theorem word_grow (s : Bitmap) (n k : Nat) : (s.grow n).word k = s.word k := by
  simp only [word, grow, List.getD_eq_getElem?_getD, List.getElem?_append]
  split
  · rfl
  · rw [List.getElem?_replicate, List.getElem?_eq_none (by omega)]
    split <;> rfl

theorem getD_modify (f : BitVec 64 → BitVec 64) (ws : List (BitVec 64)) {n : Nat}
    (hn : n < ws.length) (k : Nat) :
    (ws.modify n f).getD k 0 = if n = k then f (ws.getD k 0) else ws.getD k 0 := by
  simp only [List.getD_eq_getElem?_getD, List.getElem?_modify]
  split
  · subst n
    rw [List.getElem?_eq_getElem hn]
    rfl
  · simp

theorem getD_mapIdx (f : Nat → BitVec 64 → BitVec 64) (hf : ∀ k, f k 0#64 = 0#64)
    (ws : List (BitVec 64)) (k : Nat) : (ws.mapIdx f).getD k 0 = f k (ws.getD k 0) := by
  simp only [List.getD_eq_getElem?_getD, List.getElem?_mapIdx]
  cases ws[k]? <;> simp [hf]

theorem getD_orWords (xs ys : List (BitVec 64)) (k : Nat) :
    (orWords xs ys).getD k 0 = xs.getD k 0 ||| ys.getD k 0 := by
  induction xs, ys using orWords.induct generalizing k with
  | case1 ys => simp [orWords]
  | case2 xs h => cases xs <;> simp [orWords]
  | case3 x xs y ys ih => cases k <;> simp_all [orWords]

@[simp] theorem mem_withCapacity (n i : Nat) : (withCapacity n).mem i = false := by
  simp only [mem, word, withCapacity, List.getD_eq_getElem?_getD, List.getElem?_replicate]
  split <;> simp

@[simp] theorem mem_wordless (i : Nat) : wordless.mem i = false := by
  simp [mem, word, wordless]

@[simp] theorem mem_grow (s : Bitmap) (n i : Nat) : (s.grow n).mem i = s.mem i := by
  rw [mem, mem, word_grow]

@[simp] theorem mem_union (s t : Bitmap) (i : Nat) : (s.union t).mem i = (s.mem i || t.mem i) := by
  simp only [mem, word, union, getD_orWords, BitVec.getLsbD_or]

@[simp] theorem mem_inter (s t : Bitmap) (i : Nat) : (s.inter t).mem i = (s.mem i && t.mem i) := by
  rw [mem, word, inter, getD_mapIdx _ (by simp), BitVec.getLsbD_and]
  rfl

@[simp] theorem mem_diff (s t : Bitmap) (i : Nat) :
    (s.diff t).mem i = (s.mem i && !t.mem i) := by
  have h : i % 64 < 64 := by omega
  rw [mem, word, diff, getD_mapIdx _ (by simp), BitVec.getLsbD_and, BitVec.getLsbD_not]
  simp [mem, word, h]

@[simp] theorem mem_clear (s : Bitmap) (i : Nat) : s.clear.mem i = false := by
  simp only [mem, word, clear, List.getD_eq_getElem?_getD, List.getElem?_map]
  cases s.words[i / 64]? <;> simp

@[simp] theorem mem_insert (s : Bitmap) (i j : Nat) :
    (s.insert i).mem j = (i == j || s.mem j) := by
  have hl : i / 64 < (s.grow (i / 64 + 1)).words.length := by
    simp only [grow, List.length_append, List.length_replicate]
    omega
  have hw := word_grow s (i / 64 + 1) (j / 64)
  rw [word] at hw
  rw [mem, word, insert, getD_modify _ _ hl, hw, mem]
  by_cases hk : i / 64 = j / 64
  · have hj : j % 64 < 64 := by omega
    have hij : (i == j) = decide (i % 64 = j % 64) := by
      rw [Bool.eq_iff_iff, beq_iff_eq, decide_eq_true_eq]
      omega
    rw [if_pos hk, BitVec.getLsbD_or, BitVec.getLsbD_twoPow, hij, Bool.or_comm]
    by_cases h : i % 64 = j % 64 <;> simp [h, hj]
  · have hij : (i == j) = false := beq_eq_false_iff_ne.mpr fun h ↦ hk (by rw [h])
    rw [if_neg hk, hij, Bool.false_or]

@[simp] theorem mem_erase (s : Bitmap) (i j : Nat) :
    (s.erase i).mem j = (i != j && s.mem j) := by
  by_cases hl : i / 64 < s.words.length
  · rw [mem, word, erase, getD_modify _ _ hl, mem, word]
    by_cases hk : i / 64 = j / 64
    · have hj : j % 64 < 64 := by omega
      have hij : (i != j) = !decide (i % 64 = j % 64) := by
        rw [Bool.eq_iff_iff, bne_iff_ne, Bool.not_eq_true', decide_eq_false_iff_not]
        omega
      rw [if_pos hk, BitVec.getLsbD_and, BitVec.getLsbD_not, BitVec.getLsbD_twoPow, hij]
      by_cases h : i % 64 = j % 64 <;> simp [h, hj]
    · have hij : (i != j) = true := bne_iff_ne.mpr fun h ↦ hk (by rw [h])
      rw [if_neg hk, hij, Bool.true_and]
  · have he : s.erase i = s := by
      rw [erase, List.modify_eq_self (by omega)]
    rw [he]
    by_cases h : i = j
    · subst h
      simp [mem, word, List.getD_eq_getElem?_getD, List.getElem?_eq_none (Nat.le_of_not_lt hl)]
    · simp [h]

@[simp] theorem mem_copy (s : Bitmap) (i : Nat) : s.copy.mem i = s.mem i := by simp [copy]

@[simp] theorem mem_diffCopy (s t : Bitmap) (i : Nat) :
    (s.diffCopy t).mem i = (s.mem i && !t.mem i) := by simp [diffCopy]

@[simp] theorem mem_merge (s t : Bitmap) (i : Nat) :
    (s.merge t).1.mem i = (s.mem i || t.mem i) := by simp [merge]

end Bitmap

end MiniJava
