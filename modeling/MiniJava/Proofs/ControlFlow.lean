import MiniJava.IR.Method
import MiniJava.Proofs.Outcome

/-!
# Control flow of a method

Where control can go in the code of a method, said without the analysis: `Method.Next` is one step,
`Method.Path` a sequence of them.  A variable is live before an instruction when some path from there
reads it before writing it; `Method.Live` says so by following the path.

`Method.check_eq_ok_iff` reads off what a checked method promises: each variable that the code names is
in the table, and each jump goes to an instruction or to the place after the last one.
-/

set_option autoImplicit false

namespace MiniJava.IR

/-- Control can go on with the next instruction. -/
def Instr.fallsThrough : Instr → Bool
  | ret _ _ | goto _ => false
  | _ => true

namespace Method

/-- The variable that the instruction at an index writes. -/
def defAt (m : Method) (i : Nat) : Option Text := m.code[i]?.bind Instr.defs?

/-- Control can go from the instruction at one index to another index. -/
inductive Next (m : Method) : Nat → Nat → Prop
  | fall {i : Nat} {x : Instr} (hx : m.code[i]? = some x) (h : x.fallsThrough = true) :
      Next m i (i + 1)
  | jump {i j : Nat} {x : Instr} {label : Text} (hx : m.code[i]? = some x)
      (hl : x.target? = some label) (hj : m.target? label = some (j : Int)) : Next m i j

variable {m : Method}

theorem Next.exists_code {i k : Nat} (h : m.Next i k) : ∃ x, m.code[i]? = some x := by
  cases h with
  | fall hx _ => exact ⟨_, hx⟩
  | jump hx _ _ => exact ⟨_, hx⟩

theorem Next.lt_length {i k : Nat} (h : m.Next i k) : i < m.code.length := by
  obtain ⟨x, hx⟩ := h.exists_code
  exact (List.getElem?_eq_some_iff.1 hx).1

/-- Where control can go from a known instruction. -/
theorem next_iff {i j : Nat} {x : Instr} (hx : m.code[i]? = some x) :
    m.Next i j ↔ (x.fallsThrough = true ∧ j = i + 1) ∨
      ∃ label, x.target? = some label ∧ m.target? label = some (j : Int) := by
  constructor
  · rintro (⟨hy, hf⟩ | ⟨hy, hl, hj⟩)
    · obtain rfl := Option.some.inj (hx.symm.trans hy)
      exact .inl ⟨hf, rfl⟩
    · obtain rfl := Option.some.inj (hx.symm.trans hy)
      exact .inr ⟨_, hl, hj⟩
  · rintro (⟨hf, rfl⟩ | ⟨label, hl, hj⟩)
    · exact .fall hx hf
    · exact .jump hx hl hj

/-- Control can go from one index to another by the instructions of a list, in that order; the
instruction it arrives at is not one of them. -/
inductive Path (m : Method) : Nat → List Nat → Nat → Prop
  | nil {i : Nat} : Path m i [] i
  | cons {i j k : Nat} {is : List Nat} (h : Next m i j) (hp : Path m j is k) :
      Path m i (i :: is) k

/-- Some path from an index reads a variable before writing it. -/
inductive Live (m : Method) (v : Text) : Nat → Prop
  | use {i : Nat} {x : Instr} (hx : m.code[i]? = some x) (hv : v ∈ x.uses) : Live m v i
  | later {i j : Nat} (hd : m.defAt i ≠ some v) (hn : Next m i j) (hl : Live m v j) : Live m v i

/-- A variable that an instruction without a jump does not read is wanted after it or not at all. -/
theorem Live.after {v : Text} {i : Nat} {x : Instr} (h : Live m v i) (hx : m.code[i]? = some x)
    (hv : v ∉ x.uses) (ht : x.target? = none) : x.defs? ≠ some v ∧ Live m v (i + 1) := by
  cases h with
  | use hy hu =>
    obtain rfl := Option.some.inj (hx.symm.trans hy)
    exact absurd hu hv
  | later hd hn hl =>
    rw [defAt, hx] at hd
    rcases (next_iff hx).1 hn with ⟨-, rfl⟩ | ⟨label, hlabel, -⟩
    · exact ⟨hd, hl⟩
    · rw [ht] at hlabel
      cases hlabel

theorem Live.lt_length {v : Text} {i : Nat} (h : Live m v i) : i < m.code.length := by
  cases h with
  | use hx _ => exact (List.getElem?_eq_some_iff.1 hx).1
  | later _ hn _ => exact hn.lt_length

/-- The rest of a path, from one of its instructions on. -/
theorem Path.split {before after : List Nat} {i j k : Nat} (h : Path m i (before ++ j :: after) k) :
    ∃ n, Next m j n ∧ Path m n after k := by
  induction before generalizing i with
  | nil =>
    cases h with
    | cons hn hp => exact ⟨_, hn, hp⟩
  | cons b before ih =>
    cases h with
    | cons _ hp => exact ih hp

/-- A variable read at the end of a path that never writes it is live at its start. -/
theorem Path.live {v : Text} {is : List Nat} {i k : Nat} (h : Path m i is k)
    (hd : ∀ j ∈ is, m.defAt j ≠ some v) (hk : Live m v k) : Live m v i := by
  induction h with
  | nil => exact hk
  | cons hn _ ih =>
    exact .later (hd _ (by simp)) hn (ih (fun j hj ↦ hd j (by simp [hj])) hk)

section
variable {m m' : Method} (hc : m'.code = m.code) (hl : m'.labels = m.labels)
include hc hl

/-- Where control can go depends on the code and its labels only. -/
theorem Next.congr {i j : Nat} (h : m.Next i j) : m'.Next i j := by
  cases h with
  | fall hx hf => exact .fall (hc ▸ hx) hf
  | jump hx ht hj => exact .jump (hc ▸ hx) ht (by rw [target?, hl]; exact hj)

theorem Live.congr {v : Text} {i : Nat} (h : m.Live v i) : m'.Live v i := by
  induction h with
  | use hx hv => exact .use (hc ▸ hx) hv
  | later hd hn _ ih => exact .later (by rwa [defAt, hc]) (hn.congr hc hl) ih

end

/-! ## Checked methods -/

theorem hasLabel_iff {label : Text} :
    m.hasLabel label = true ↔ ∃ j ≤ m.code.length, m.target? label = some (j : Int) := by
  rw [hasLabel]
  cases m.target? label with
  | none => simp
  | some j =>
    simp only [Bool.and_eq_true, decide_eq_true_eq, Option.some.injEq]
    constructor
    · rintro ⟨h0, h1⟩
      exact ⟨j.toNat, by omega, by omega⟩
    · rintro ⟨k, hk, rfl⟩
      omega

theorem checkInstr_eq_ok_iff {i : Nat} {x : Instr} :
    m.checkInstr i x = .ok () ↔
      (∀ n ∈ x.uses, m.vars.contains n = true) ∧
      (∀ n, x.defs? = some n → m.vars.contains n = true) ∧
      ∀ label, x.target? = some label → m.hasLabel label = true := by
  have hfind : (x.uses ++ x.defs?.toList).find? (fun n ↦ !m.vars.contains n) = none ↔
      (∀ n ∈ x.uses, m.vars.contains n = true) ∧
      (∀ n, x.defs? = some n → m.vars.contains n = true) := by
    rw [List.find?_eq_none]
    simp only [List.mem_append, Option.mem_toList, Bool.not_eq_true', Bool.not_eq_false]
    exact ⟨fun h ↦ ⟨fun n hn ↦ h n (.inl hn), fun n hn ↦ h n (.inr hn)⟩,
      fun h n hn ↦ hn.elim (h.1 n) (h.2 n)⟩
  rw [checkInstr]
  cases hf : (x.uses ++ x.defs?.toList).find? (fun n ↦ !m.vars.contains n) with
  | some name =>
    have : ¬ ((∀ n ∈ x.uses, m.vars.contains n = true) ∧
        (∀ n, x.defs? = some n → m.vars.contains n = true)) := by
      rw [← hfind, hf]
      simp
    refine ⟨fun h ↦ by simp [bind, Except.bind, throw, throwThe, MonadExceptOf.throw] at h,
      fun h ↦ absurd ⟨h.1, h.2.1⟩ this⟩
  | none =>
    have hd := hfind.1 hf
    cases ht : x.target? with
    | none => simpa [bind, Except.bind, pure, Except.pure] using hd
    | some label =>
      by_cases hl : m.hasLabel label = true
      · simpa [bind, Except.bind, pure, Except.pure, hl] using hd
      · simp [hl, throw, throwThe, MonadExceptOf.throw]

/-- What a checked method promises about each of its instructions. -/
theorem check_eq_ok_iff : m.check = .ok () ↔ ∀ i x, m.code[i]? = some x → m.checkInstr i x = .ok () := by
  rw [check, Except.forM_eq_ok]
  constructor
  · intro h i x hx
    exact h (x, i) (List.mem_zipIdx_iff_getElem?.2 hx)
  · rintro h ⟨x, i⟩ hx
    exact h i x (List.mem_zipIdx_iff_getElem?.1 hx)

section
variable {m : Method} {i : Nat} {x : Instr}

theorem contains_of_mem_uses (hc : m.check = .ok ()) (hx : m.code[i]? = some x) {n : Text}
    (hn : n ∈ x.uses) : m.vars.contains n = true :=
  (checkInstr_eq_ok_iff.1 (check_eq_ok_iff.1 hc i x hx)).1 n hn

theorem contains_of_defs? (hc : m.check = .ok ()) (hx : m.code[i]? = some x) {n : Text}
    (hn : x.defs? = some n) : m.vars.contains n = true :=
  (checkInstr_eq_ok_iff.1 (check_eq_ok_iff.1 hc i x hx)).2.1 n hn

theorem exists_target (hc : m.check = .ok ()) (hx : m.code[i]? = some x) {label : Text}
    (hl : x.target? = some label) : ∃ j ≤ m.code.length, m.target? label = some (j : Int) :=
  hasLabel_iff.1 ((checkInstr_eq_ok_iff.1 (check_eq_ok_iff.1 hc i x hx)).2.2 label hl)

end

end Method

end MiniJava.IR
