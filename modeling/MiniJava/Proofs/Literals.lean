import MiniJava.Literal
import MiniJava.Proofs.Outcome

/-!
# What integer literals denote

`Denotes` says which integer a text stands for, without a look at how it is read: one or more decimal
digits, with a sign in front of them or not.  `value_eq_ok_iff` says that reading a literal finds this
integer exactly if it fits 32 bits, whatever comes first on the way: a sign, zeros in front, or more
digits than 32 bits can hold.
-/

set_option autoImplicit false

namespace MiniJava.Literal

/-- Decimal digits, at least one of them. -/
structure IsNumeral (cs : List Char) : Prop where
  nonempty : cs ≠ []
  digits : ∀ c ∈ cs, c.isDigit = true

/-- The text denotes an integer, in decimal digits. -/
inductive Denotes : Text → Int → Prop
  | unsigned {cs : List Char} (h : IsNumeral cs) : Denotes ⟨cs.map .char⟩ (Nat.ofDigitChars 10 cs 0)
  | plus {cs : List Char} (h : IsNumeral cs) :
      Denotes ⟨.char '+' :: cs.map .char⟩ (Nat.ofDigitChars 10 cs 0)
  | minus {cs : List Char} (h : IsNumeral cs) :
      Denotes ⟨.char '-' :: cs.map .char⟩ (-(Nat.ofDigitChars 10 cs 0 : Int))

/-- The integer fits 32 bits with its sign. -/
def Fits (v : Int) : Prop := -0x80000000 ≤ v ∧ v < 0x80000000

instance (v : Int) : Decidable (Fits v) :=
  inferInstanceAs (Decidable (-0x80000000 ≤ v ∧ v < 0x80000000))

/-! ## Digits -/

theorem le_ofDigitChars (cs : List Char) (n : Nat) : n ≤ Nat.ofDigitChars 10 cs n := by
  induction cs generalizing n with
  | nil => exact Nat.le_refl n
  | cons c cs ih => exact Nat.le_trans (by omega) (ih (10 * n + (c.toNat - '0'.toNat)))

theorem digit?_eq_some_iff {s : Sign} {d : Nat} :
    digit? s = some d ↔ ∃ c : Char, s = .char c ∧ c.isDigit = true ∧ d = c.toNat - '0'.toNat := by
  cases s with
  | byte b => simp [digit?]
  | char c =>
    have hdigit : c.isDigit = true ↔ '0' ≤ c ∧ c ≤ '9' := by
      simp only [Char.isDigit, Bool.and_eq_true, decide_eq_true_eq]
      rfl
    rw [digit?]
    by_cases hc : '0' ≤ c ∧ c ≤ '9'
    · rw [if_pos hc, Option.some.injEq]
      constructor
      · rintro rfl
        exact ⟨c, rfl, hdigit.2 hc, rfl⟩
      · rintro ⟨c', hc', -, rfl⟩
        cases hc'
        rfl
    · rw [if_neg hc]
      constructor
      · intro h
        cases h
      · rintro ⟨c', hc', hdigits, -⟩
        cases hc'
        exact absurd (hdigit.1 hdigits) hc

variable {ss : List Sign}

/-- Signs are read as a number below `2 ^ 32` if they are the digits of one. -/
theorem digits_eq_ok_iff {n v : Nat} (hn : n < 0x100000000) :
    digits n ss = .ok v ↔ ∃ cs : List Char, ss = cs.map .char ∧ (∀ c ∈ cs, c.isDigit = true) ∧
      v = Nat.ofDigitChars 10 cs n ∧ v < 0x100000000 := by
  induction ss generalizing n with
  | nil =>
    constructor
    · intro h
      cases h
      exact ⟨[], rfl, by simp, rfl, hn⟩
    · rintro ⟨cs, hcs, -, rfl, -⟩
      rw [List.map_eq_nil_iff.1 hcs.symm]
      rfl
  | cons s ss ih =>
    rw [digits]
    constructor
    · intro h
      split at h
      · cases h
      · rename_i d hd
        obtain ⟨c, rfl, hc, rfl⟩ := digit?_eq_some_iff.1 hd
        split at h
        · rename_i hlt
          obtain ⟨cs, rfl, hcs, rfl, hv⟩ := (ih hlt).1 h
          exact ⟨c :: cs, rfl, by simpa [hc] using hcs, rfl, hv⟩
        · cases h
    · rintro ⟨cs, hcs, hdigits, rfl, hv⟩
      obtain ⟨c, cs, rfl⟩ : ∃ c cs', cs = c :: cs' := by
        cases cs with
        | nil => cases hcs
        | cons c cs => exact ⟨c, cs, rfl⟩
      obtain ⟨rfl, rfl⟩ := List.cons.inj hcs
      have hd : digit? (.char c) = some (c.toNat - '0'.toNat) :=
        digit?_eq_some_iff.2 ⟨c, rfl, hdigits c (by simp), rfl⟩
      have hlt : 10 * n + (c.toNat - '0'.toNat) < 0x100000000 :=
        Nat.lt_of_le_of_lt (le_ofDigitChars cs _) hv
      simp only [hd, if_pos hlt]
      exact (ih hlt).2 ⟨cs, rfl, fun c' hc' ↦ hdigits c' (by simp [hc']), rfl, hv⟩

theorem magnitude_eq_ok_iff {v : Nat} :
    magnitude ss = .ok v ↔ ∃ cs : List Char, ss = cs.map .char ∧ IsNumeral cs ∧
      v = Nat.ofDigitChars 10 cs 0 ∧ v < 0x100000000 := by
  cases ss with
  | nil =>
    constructor
    · intro h
      cases h
    · rintro ⟨cs, hcs, hnum, -⟩
      exact absurd (List.map_eq_nil_iff.1 hcs.symm) hnum.nonempty
  | cons s ss =>
    rw [magnitude, digits_eq_ok_iff (by decide)]
    constructor
    · rintro ⟨cs, hcs, hdigits, hv⟩
      refine ⟨cs, hcs, ⟨?_, hdigits⟩, hv⟩
      rintro rfl
      cases hcs
    · rintro ⟨cs, hcs, hnum, hv⟩
      exact ⟨cs, hcs, hnum.digits, hv⟩
    · simp

/-! ## Signs -/

/-- A number within a bound, given a sign. -/
theorem bounded_eq_ok_iff {x : Except LiteralFault Nat} {p : Nat → Prop} [DecidablePred p]
    {f : Nat → Int} {v : Int} :
    (do
      let n ← x
      if p n then return f n else throw .outOfRange : Except LiteralFault Int) = .ok v ↔
      ∃ n, x = .ok n ∧ p n ∧ v = f n := by
  rw [Except.bind_eq_ok]
  refine exists_congr fun n ↦ and_congr_right fun _ ↦ ?_
  by_cases hp : p n
  · rw [if_pos hp]
    constructor
    · intro h
      cases h
      exact ⟨hp, rfl⟩
    · rintro ⟨-, rfl⟩
      rfl
  · rw [if_neg hp]
    constructor
    · intro h
      cases h
    · rintro ⟨h, -⟩
      exact absurd h hp

/-- The first character of a numeral is no sign. -/
theorem IsNumeral.head {cs : List Char} (h : IsNumeral cs) :
    ∃ c rest, cs = c :: rest ∧ c ≠ '-' ∧ c ≠ '+' := by
  obtain ⟨c, rest, rfl⟩ := List.exists_cons_of_ne_nil h.nonempty
  have hc := h.digits c (by simp)
  refine ⟨c, rest, rfl, ?_, ?_⟩
  · rintro rfl
    cases hc
  · rintro rfl
    cases hc

theorem ofSigns_minus (ss : List Sign) : ofSigns (.char '-' :: ss) = (do
    let n ← magnitude ss
    if n ≤ 0x80000000 then return -n else throw .outOfRange) := rfl

theorem ofSigns_plus (ss : List Sign) : ofSigns (.char '+' :: ss) = (do
    let n ← magnitude ss
    if n < 0x80000000 then return n else throw .outOfRange) := rfl

/-- Without a sign in front all is read as digits. -/
theorem ofSigns_of_head (h : ss.head? ≠ some (.char '-')) (h' : ss.head? ≠ some (.char '+')) :
    ofSigns ss = (do
    let n ← magnitude ss
    if n < 0x80000000 then return n else throw .outOfRange) := by
  rw [ofSigns.eq_def]
  split
  · exact absurd rfl h
  · split
    · exact absurd rfl h'
    · rfl

/-- **A literal is read as what it denotes**, if that fits 32 bits, and otherwise not at all. -/
theorem value_eq_ok_iff {text : Text} {v : Int} : value text = .ok v ↔ Denotes text v ∧ Fits v := by
  rw [value]
  constructor
  · intro h
    obtain ⟨ss⟩ := text
    by_cases hm : ss.head? = some (.char '-')
    · obtain ⟨ss, rfl⟩ := List.head?_eq_some_iff.1 hm
      obtain ⟨n, hn, hle, rfl⟩ := bounded_eq_ok_iff.1 ((ofSigns_minus ss).symm.trans h)
      obtain ⟨cs, rfl, hcs, rfl, -⟩ := magnitude_eq_ok_iff.1 hn
      exact ⟨.minus hcs, by constructor <;> omega⟩
    · by_cases hp : ss.head? = some (.char '+')
      · obtain ⟨ss, rfl⟩ := List.head?_eq_some_iff.1 hp
        obtain ⟨n, hn, hlt, rfl⟩ := bounded_eq_ok_iff.1 ((ofSigns_plus ss).symm.trans h)
        obtain ⟨cs, rfl, hcs, rfl, -⟩ := magnitude_eq_ok_iff.1 hn
        exact ⟨.plus hcs, by constructor <;> omega⟩
      · obtain ⟨n, hn, hlt, rfl⟩ := bounded_eq_ok_iff.1 ((ofSigns_of_head hm hp).symm.trans h)
        obtain ⟨cs, rfl, hcs, rfl, -⟩ := magnitude_eq_ok_iff.1 hn
        exact ⟨.unsigned hcs, by constructor <;> omega⟩
  · rintro ⟨h, hlow, hhigh⟩
    cases h with
    | unsigned hcs =>
      obtain ⟨c, rest, rfl, hm, hp⟩ := hcs.head
      rw [ofSigns_of_head (by simpa using hm) (by simpa using hp), bounded_eq_ok_iff]
      exact ⟨_, magnitude_eq_ok_iff.2 ⟨_, rfl, hcs, rfl, by omega⟩, by omega, rfl⟩
    | plus hcs =>
      rw [ofSigns_plus, bounded_eq_ok_iff]
      exact ⟨_, magnitude_eq_ok_iff.2 ⟨_, rfl, hcs, rfl, by omega⟩, by omega, rfl⟩
    | minus hcs =>
      rw [ofSigns_minus, bounded_eq_ok_iff]
      exact ⟨_, magnitude_eq_ok_iff.2 ⟨_, rfl, hcs, rfl, by omega⟩, by omega, rfl⟩

/-! ## Printed integers -/

theorem isNumeral_toString (n : Nat) : IsNumeral (toString n).toList := by
  rw [Nat.toString_eq_ofList_toDigits, String.toList_ofList]
  exact ⟨Nat.toDigits_ne_nil, fun c hc ↦ Nat.isDigit_of_mem_toDigits (by decide) (by decide) hc⟩

theorem ofDigitChars_toString (n : Nat) : Nat.ofDigitChars 10 (toString n).toList 0 = n := by
  rw [Nat.toString_eq_ofList_toDigits, String.toList_ofList, Nat.ofDigitChars_ten_toDigits]

/-- An integer denotes itself as it is printed. -/
theorem denotes_toString (v : Int) : Denotes (toString v) v := by
  cases v with
  | ofNat n =>
    have h := Denotes.unsigned (isNumeral_toString n)
    rwa [ofDigitChars_toString] at h
  | negSucc n =>
    have h := Denotes.minus (isNumeral_toString (n + 1))
    rw [ofDigitChars_toString] at h
    have hprint : (Text.ofString (toString (Int.negSucc n))) =
        ⟨.char '-' :: (toString (n + 1)).toList.map .char⟩ := by
      have htext : toString (Int.negSucc n) = "-" ++ toString (n + 1) := rfl
      simp [Text.ofString, htext]
    rw [hprint]
    exact h

/-- A number is denoted by its decimal digits. -/
theorem value_toString {n : Nat} (hn : n < 0x80000000) : value (toString n) = .ok (n : Int) :=
  value_eq_ok_iff.2 ⟨denotes_toString n, by constructor <;> omega⟩

end MiniJava.Literal
