import MiniJava.Proofs.ClosedFragments
import MiniJava.Proofs.Emission

/-!
# Labels in the lines of a method

The lines of an instruction jump to the label that the instruction names and to the private labels of a
comparison, and they place the private labels only (`Emits.mentioned_cases`).  Private labels are
numbered, each number is used once, and labels of the method are not of their form; so no label means
two things.
-/

set_option autoImplicit false

namespace MiniJava

open IR

namespace Jvm

variable {name : Text}

/-! ## Private labels -/

/-- A label of the form that the emitter makes up. -/
def IsPrivate (name : Text) : Prop := ∃ n, name = trueLabel n ∨ name = endLabel n

theorem toList_trueLabel (n : Nat) : (s!"cmp_{n}_true" : String).toList =
    "cmp_".toList ++ (Nat.toDigits 10 n ++ "_true".toList) := by
  simp [toString, Nat.repr_eq_ofList_toDigits]

theorem toList_endLabel (n : Nat) : (s!"cmp_{n}_end" : String).toList =
    "cmp_".toList ++ (Nat.toDigits 10 n ++ "_end".toList) := by
  simp [toString, Nat.repr_eq_ofList_toDigits]

theorem trueLabel_inj {n k : Nat} (h : trueLabel n = trueLabel k) : n = k := by
  have hs := congrArg String.toList (Text.ofString_injective h)
  rw [toList_trueLabel, toList_trueLabel] at hs
  exact toDigits_inj (List.append_cancel_right (List.append_cancel_left hs))

theorem endLabel_inj {n k : Nat} (h : endLabel n = endLabel k) : n = k := by
  have hs := congrArg String.toList (Text.ofString_injective h)
  rw [toList_endLabel, toList_endLabel] at hs
  exact toDigits_inj (List.append_cancel_right (List.append_cancel_left hs))

theorem trueLabel_ne_endLabel (n k : Nat) : trueLabel n ≠ endLabel k := by
  intro h
  have hs := congrArg String.toList (Text.ofString_injective h)
  rw [toList_trueLabel, toList_endLabel] at hs
  have hlast := congrArg List.getLast? (List.append_cancel_left hs)
  simp at hlast

/-- The private label of a number is taken by that number only. -/
theorem private_inj {n k : Nat} (h : name = trueLabel n ∨ name = endLabel n)
    (h' : name = trueLabel k ∨ name = endLabel k) : n = k := by
  rcases h with rfl | rfl
  · rcases h' with h' | h'
    · exact trueLabel_inj h'
    · exact absurd h' (trueLabel_ne_endLabel n k)
  · rcases h' with h' | h'
    · exact absurd h'.symm (trueLabel_ne_endLabel k n)
    · exact endLabel_inj h'

/-- A private label begins with the letter `c`. -/
theorem head?_of_isPrivate (h : IsPrivate name) : name.signs.head? = some (.char 'c') := by
  obtain ⟨n, rfl | rfl⟩ := h
  · rw [trueLabel, Text.signs_ofString, toList_trueLabel]
    rfl
  · rw [endLabel, Text.signs_ofString, toList_endLabel]
    rfl

/-! ## Lines without labels -/

/-- Instructions that neither jump nor return. -/
def Plain (is : List Instr) : Prop := ∀ i ∈ is, i.target? = none ∧ i.fallsThrough = true

theorem Plain.append {is js : List Instr} (h : Plain is) (h' : Plain js) : Plain (is ++ js) :=
  List.forall_mem_append.2 ⟨h, h'⟩

theorem plain_singleton {i : Instr} (h : i.target? = none) (h' : i.fallsThrough = true) :
    Plain [i] :=
  List.forall_mem_singleton.2 ⟨h, h'⟩

section
variable {c : ClassDef} {m : Method}
variable {s s' : Option Text} {is : List Instr}

theorem Loads.plain {x : Operand} (h : Loads m s x is s') : Plain is := by
  induction h with
  | literal _ _ => exact plain_singleton rfl rfl
  | top => simp [Plain]
  | var _ _ => exact plain_singleton rfl rfl
  | elem _ _ ih => exact (plain_singleton rfl rfl).append (ih.append (plain_singleton rfl rfl))

theorem LoadsAll.plain {xs : List Operand} (h : LoadsAll m s xs is s') : Plain is := by
  induction h with
  | nil => simp [Plain]
  | cons hx _ ih => exact hx.plain.append ih

theorem arrayInstr?_plain {ty : Ty} {i : Instr} (h : arrayInstr? c ty = some i) : Plain [i] := by
  rw [arrayInstr?] at h
  generalize ty.elem = elem at h
  cases elem with
  | int | bool | string | object _ _ =>
    cases h
    exact plain_singleton rfl rfl
  | absent | void | array _ | receiver _ => cases h

theorem Calls.plain {x : Call} (h : Calls c m x s is s') : Plain is := by
  cases h with
  | newObject _ => exact plain_singleton rfl rfl
  | newArray _ _ h hi => exact h.plain.append (arrayInstr?_plain hi)
  | arrayLength _ h => exact h.plain.append (plain_singleton rfl rfl)
  | static _ h => exact h.plain.append (plain_singleton rfl rfl)
  | onObject _ _ hr ha _ => exact hr.plain.append (ha.plain.append (plain_singleton rfl rfl))

theorem Compares.plain {op : Op} {cond : Cond} {l r : Operand} {test : Text → Instr}
    (h : Compares m op cond l r s is test s') : Plain is := by
  cases h with
  | rightZero _ h => exact h.plain
  | leftZero _ _ h => exact h.plain
  | both _ _ h h' => exact h.plain.append h'.plain

theorem Evaluates.plain {x : IR.Instr} (h : Evaluates c m s x is s') : Plain is := by
  cases h with
  | single h => exact h.plain
  | arith _ hl hr => exact hl.plain.append (hr.plain.append (plain_singleton rfl rfl))
  | not h =>
    exact h.plain.append ((plain_singleton rfl rfl).append (plain_singleton rfl rfl))
  | neg h => exact h.plain.append (plain_singleton rfl rfl)
  | call _ h => exact h.plain
  | getStatic => exact plain_singleton rfl rfl
  | getField h => exact h.plain.append (plain_singleton rfl rfl)

end

/-! ## Labels of an instruction -/

/-- The labels that lines place or jump to. -/
def mentioned (ls : List Line) (name : Text) : Prop :=
  ∃ l ∈ ls, l = .label name ∨ ∃ i, l = .instr i ∧ i.target? = some name

theorem mentioned_append {ls ls' : List Line} :
    mentioned (ls ++ ls') name ↔ mentioned ls name ∨ mentioned ls' name := by
  simp only [mentioned, List.mem_append, or_and_right, exists_or]

theorem mentioned_instr {i : Instr} : mentioned [.instr i] name ↔ i.target? = some name := by
  simp [mentioned]

theorem Plain.not_mentioned {is : List Instr} (h : Plain is) (name : Text) :
    ¬ mentioned (is.map .instr) name := by
  rintro ⟨l, hl, hname⟩
  obtain ⟨i, hi, rfl⟩ := List.mem_map.1 hl
  rcases hname with hname | ⟨j, hj, hname⟩
  · cases hname
  · cases hj
    rw [(h i hi).1] at hname
    cases hname

section
variable {c : ClassDef} {m : Method}
variable {s s' : Option Text} {n n' : Nat} {x : IR.Instr} {ls : List Line}

theorem Compares.mentioned_cases {op : Op} {cond : Cond} {l r : Operand} {is : List Instr}
    {test : Text → Instr} (h : Compares m op cond l r s is test s')
    (hm : mentioned (answerLines test n) name) : name = trueLabel n ∨ name = endLabel n := by
  have ht := (h.test_target? (trueLabel n)).1
  obtain ⟨l, hl, hname⟩ := hm
  simp only [answerLines, List.mem_cons, List.not_mem_nil, or_false] at hl
  rcases hl with rfl | rfl | rfl | rfl | rfl | rfl
  · simp only [reduceCtorEq, Line.instr.injEq, exists_eq_left', ht, Option.some.injEq,
      false_or] at hname
    exact .inl hname.symm
  · simp [Instr.target?] at hname
  · simp only [reduceCtorEq, Line.instr.injEq, exists_eq_left', Instr.target?, Option.some.injEq,
      false_or] at hname
    exact .inr hname.symm
  · simp at hname
    exact .inl hname.symm
  · simp [Instr.target?] at hname
  · simp at hname
    exact .inr hname.symm

theorem Computes.mentioned_cases (h : Computes c m s n x ls s' n') (hm : mentioned ls name) :
    n < n' ∧ (name = trueLabel n ∨ name = endLabel n) := by
  cases h with
  | plain h => exact absurd hm (h.plain.not_mentioned name)
  | compare _ h =>
    rcases mentioned_append.1 hm with hm | hm
    · exact absurd hm (h.plain.not_mentioned name)
    · exact ⟨Nat.lt_succ_self n, h.mentioned_cases hm⟩

/-- Plain lines before an instruction mention only the label it jumps to. -/
theorem target?_of_mentioned {is : List Instr} {i : Instr} (h : Plain is)
    (hm : mentioned (is.map .instr ++ [.instr i]) name) : i.target? = some name := by
  rcases mentioned_append.1 hm with hm | hm
  · exact absurd hm (h.not_mentioned name)
  · exact mentioned_instr.1 hm

theorem Computes.mentioned_snoc {i : Instr} (h : Computes c m s n x ls s' n') (hi : i.target? = none)
    (hm : mentioned (ls ++ [.instr i]) name) : n < n' ∧ (name = trueLabel n ∨ name = endLabel n) := by
  rcases mentioned_append.1 hm with hm | hm
  · exact h.mentioned_cases hm
  · rw [mentioned_instr, hi] at hm
    cases hm

/-- The lines of an instruction mention its own label and the private ones of its number. -/
theorem Emits.mentioned_cases {keep : Option Text} (h : Emits c m keep s n x ls s' n')
    (hm : mentioned ls name) :
    x.target? = some name ∨ n < n' ∧ (name = trueLabel n ∨ name = endLabel n) := by
  cases h with
  | leave _ h => exact .inr (h.mentioned_cases hm)
  | store _ h _ => exact .inr (h.mentioned_snoc rfl hm)
  | @storeElem _ _ _ _ _ _ _ _ _ is _ kind slot _ hi h =>
    have hplain : Plain (.load kind slot :: is) := (plain_singleton rfl rfl).append hi.plain
    rcases mentioned_append.1 (show mentioned ((.load kind slot :: is).map .instr ++ _) name from hm)
      with hm | hm
    · exact absurd hm (hplain.not_mentioned name)
    · exact .inr (h.mentioned_snoc rfl hm)
  | callVoid _ h => exact absurd hm (h.plain.not_mentioned name)
  | callValue _ h => cases target?_of_mentioned h.plain hm
  | retVoid => cases mentioned_instr.1 hm
  | ret h => cases target?_of_mentioned h.plain hm
  | goto => exact .inl (mentioned_instr.1 hm)
  | branchCompare _ h =>
    have ht := target?_of_mentioned h.plain hm
    rw [(h.test_target? _).1] at ht
    exact .inl ht
  | branchNot h => exact .inl (target?_of_mentioned h.plain hm)
  | branch h => exact .inl (target?_of_mentioned h.plain hm)
  | putStatic h => cases target?_of_mentioned h.plain hm
  | putField h h' => cases target?_of_mentioned (h.plain.append h'.plain) hm
  | discard _ h => exact .inr (h.mentioned_snoc rfl hm)

theorem Computes.next_le (h : Computes c m s n x ls s' n') : n ≤ n' ∧ n' ≤ n + 1 := by
  cases h with
  | plain _ => omega
  | compare _ _ => omega

theorem Emits.next_le {keep : Option Text} (h : Emits c m keep s n x ls s' n') :
    n ≤ n' ∧ n' ≤ n + 1 := by
  cases h with
  | leave _ h => exact h.next_le
  | store _ h _ => exact h.next_le
  | storeElem _ _ h => exact h.next_le
  | discard _ h => exact h.next_le
  | _ => omega

end

end Jvm

end MiniJava
