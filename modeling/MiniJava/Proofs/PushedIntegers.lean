import Mathlib.Tactic.IntervalCases
import MiniJava.Proofs.Emission
import MiniJava.Proofs.Literals

/-!
# Integers on the stack

A literal becomes one instruction, and there are several forms of it: a mnemonic for each of the integers
from -1 to 5, an operand of one byte, one of two, and the constant pool for the rest.  `PushForm.read?`
reads such a line as the machine does, and `read?_pushText` says that the line for an integer is read as
that integer, in the first form that can hold it.

`integer_literals_survive` follows a literal from its text to the line: it is emitted exactly if it
denotes an integer of 32 bits, and the line pushes that integer.
-/

set_option autoImplicit false

namespace MiniJava.Jvm

open IR

/-- A form of the instruction that pushes an integer. -/
inductive PushForm where
  /-- An integer with a mnemonic of its own. -/
  | constant (value : Int)
  /-- An operand of one byte. -/
  | byte
  /-- An operand of two bytes. -/
  | short
  /-- An entry of the constant pool. -/
  | pool
deriving DecidableEq, Repr

namespace PushForm

/-- The forms, from the first choice on. -/
def all : List PushForm :=
  [constant (-1), constant 0, constant 1, constant 2, constant 3, constant 4, constant 5, byte, short,
    pool]

/-- The form can push an integer. -/
def Holds : PushForm → Int → Prop
  | constant k, v => v = k
  | byte, v => -0x80 ≤ v ∧ v < 0x80
  | short, v => -0x8000 ≤ v ∧ v < 0x8000
  | pool, v => Literal.Fits v

/-- The mnemonics that stand for an integer. -/
def constants : List (Text × Int) :=
  [("iconst_m1", -1), ("iconst_0", 0), ("iconst_1", 1), ("iconst_2", 2), ("iconst_3", 3),
    ("iconst_4", 4), ("iconst_5", 5)]

/-- The mnemonics that have the integer as their operand. -/
def withOperand : List (Text × PushForm) := [("bipush", byte), ("sipush", short), ("ldc", pool)]

/-- The form of a line, and the integer that it pushes. -/
def read? (line : Text) : Option (PushForm × Int) :=
  let mnemonic : Text := ⟨line.signs.takeWhile (· ≠ .char ' ')⟩
  let operand : Text := ⟨(line.signs.dropWhile (· ≠ .char ' ')).drop 1⟩
  match constants.lookup mnemonic with
  | some v => if operand = "" then some (constant v, v) else none
  | none => do
    let form ← withOperand.lookup mnemonic
    let v ← (Literal.value operand).toOption
    return (form, v)

/-! ## Reading a line -/

theorem read?_withOperand (name : String) {form : PushForm} (hname : ' ' ∉ name.toList)
    (hc : constants.lookup (name : Text) = none) (hm : withOperand.lookup (name : Text) = some form)
    {v : Int} (hv : Literal.Fits v) :
    read? (name ++ " " ++ toString v : String) = some (form, v) := by
  have hpass : ∀ s ∈ name.toList.map Sign.char, decide (s ≠ .char ' ') = true := by
    intro s hs
    obtain ⟨c, hc, rfl⟩ := List.mem_map.1 hs
    rw [decide_eq_true_eq, ne_eq, Sign.char.injEq]
    rintro rfl
    exact hname hc
  have hsigns : (Text.ofString (name ++ " " ++ toString v)).signs =
      name.toList.map .char ++ .char ' ' :: (toString v).toList.map .char := by
    simp [Text.ofString]
  have hmnemonic : (Text.mk ((Text.ofString (name ++ " " ++ toString v)).signs.takeWhile
      (· ≠ .char ' '))) = name := by
    rw [hsigns, List.takeWhile_append_of_pos hpass, List.takeWhile_cons_of_neg (by simp),
      List.append_nil]
    rfl
  have hoperand : (Text.mk (((Text.ofString (name ++ " " ++ toString v)).signs.dropWhile
      (· ≠ .char ' ')).drop 1)) = (toString v : String) := by
    rw [hsigns, List.dropWhile_append_of_pos hpass, List.dropWhile_cons_of_neg (by simp),
      List.drop_one, List.tail_cons]
    rfl
  have hvalue : Literal.value (toString v) = .ok v :=
    Literal.value_eq_ok_iff.2 ⟨Literal.denotes_toString v, hv⟩
  rw [read?]
  simp only [hmnemonic, hoperand, hc, hm, hvalue]
  rfl

/-- **The line for an integer pushes it**, in the first form that can. -/
theorem read?_pushText {v : Int} (hv : Literal.Fits v) :
    ∃ form before after, all = before ++ form :: after ∧ read? (pushText v) = some (form, v) ∧
      form.Holds v ∧ ∀ f ∈ before, ¬ f.Holds v := by
  rw [pushText]
  split
  · rename_i h
    subst h
    exact ⟨constant (-1), [], _, rfl, by decide +kernel, rfl, by simp⟩
  · rename_i hm
    split
    · rename_i h
      refine ⟨constant v, all.take (v + 1).toNat, all.drop (v + 2).toNat, ?_⟩
      obtain ⟨hlow, hhigh⟩ := h
      interval_cases v <;> exact ⟨rfl, by decide +kernel, rfl, by simp [all, Holds]⟩
    · rename_i hc
      have hconst : ∀ f ∈ all.take 7, ¬ f.Holds v := by
        simp only [all, List.take, List.forall_mem_cons, Holds]
        refine ⟨by omega, by omega, by omega, by omega, by omega, by omega, by omega, by simp⟩
      split
      · rename_i h
        refine ⟨byte, all.take 7, _, rfl, ?_, ⟨h.1, by omega⟩, hconst⟩
        exact read?_withOperand "bipush" (by decide) rfl rfl hv
      · rename_i hb
        have hbyte : ∀ f ∈ all.take 7 ++ [byte], ¬ f.Holds v := by
          rw [List.forall_mem_append, List.forall_mem_singleton]
          refine ⟨hconst, ?_⟩
          rintro ⟨hlow, hhigh⟩
          exact hb ⟨hlow, by omega⟩
        split
        · rename_i h
          refine ⟨short, all.take 7 ++ [byte], _, rfl, ?_, ⟨h.1, by omega⟩, hbyte⟩
          exact read?_withOperand "sipush" (by decide) rfl rfl hv
        · rename_i hs
          refine ⟨pool, all.take 7 ++ [byte] ++ [short], _, rfl, ?_, hv, ?_⟩
          · exact read?_withOperand "ldc" (by decide) rfl rfl hv
          · rw [List.forall_mem_append, List.forall_mem_singleton]
            refine ⟨hbyte, ?_⟩
            rintro ⟨hlow, hhigh⟩
            exact hs ⟨hlow, by omega⟩

end PushForm

/-! ## Literals -/

/-- A literal of an integer or a boolean is one instruction, or it denotes no integer of 32 bits. -/
theorem run_load_literal (m : Method) (e : Emitter) (text : Text) {ty : Ty}
    (ht : ty = .int ∨ ty = .bool) :
    (load m (.literal text ty)).run e = match Literal.value text with
      | .ok v => .ok ((), e.put (.push v))
      | .error fault => .error { cause := .literal text fault } := by
  have ht' : (decide (ty = .int) || decide (ty = .bool)) = true := by simpa using ht
  rw [load, loadLiteral, if_pos ht', Literal.parse]
  cases Literal.value text with
  | error fault => rfl
  | ok v =>
    have hdepth : ¬ (e.depth + Instr.effect (.push v) < 0) := by
      rw [Instr.effect]
      omega
    exact (emit_run m (.push v) e).trans (if_neg hdepth)

/-- A literal is taken for zero exactly if it denotes zero. -/
theorem isZero_literal {text : Text} {ty : Ty} :
    isZero (.literal text ty) = true ↔ Literal.Denotes text 0 := by
  rw [isZero]
  constructor
  · intro h
    split at h
    · rename_i v hv
      rw [beq_iff_eq] at h
      subst h
      exact (Literal.value_eq_ok_iff.1 hv).1
    · cases h
  · intro h
    rw [Literal.value_eq_ok_iff.2 ⟨h, by decide⟩]
    rfl

/-- **Integer literals survive emission.**  A literal whose text denotes an integer of 32 bits becomes one
instruction, whose line is read as that integer, in the first form that can hold it.  Any other literal
is refused for its text. -/
theorem integer_literals_survive (m : Method) (e : Emitter) (text : Text) {ty : Ty}
    (ht : ty = .int ∨ ty = .bool) :
    ((∃ v, Literal.Denotes text v ∧ Literal.Fits v ∧ ∃ e' i,
        (load m (.literal text ty)).run e = .ok ((), e') ∧ e'.lines = e.lines ++ [.instr i] ∧
        ∃ form before after, PushForm.all = before ++ form :: after ∧
          PushForm.read? i.text = some (form, v) ∧ form.Holds v ∧ ∀ f ∈ before, ¬ f.Holds v) ∨
      (¬ ∃ v, Literal.Denotes text v ∧ Literal.Fits v) ∧ ∃ fault,
        (load m (.literal text ty)).run e = .error { cause := .literal text fault }) ∧
    ∀ ty', isZero (.literal text ty') = true ↔ Literal.Denotes text 0 := by
  refine ⟨?_, fun ty' ↦ isZero_literal⟩
  rw [run_load_literal m e text ht]
  cases hv : Literal.value text with
  | ok v =>
    obtain ⟨hd, hf⟩ := Literal.value_eq_ok_iff.1 hv
    exact .inl ⟨v, hd, hf, e.put (.push v), .push v, rfl, rfl, PushForm.read?_pushText hf⟩
  | error fault =>
    refine .inr ⟨?_, fault, rfl⟩
    rintro ⟨v, hd, hf⟩
    rw [Literal.value_eq_ok_iff.2 ⟨hd, hf⟩] at hv
    cases hv

/-- The first integer below a byte. -/
theorem minus129_survives : ∃ e' i form,
    (load default (.literal "-129" .int)).run {} = .ok ((), e') ∧ e'.lines = [.instr i] ∧
      PushForm.read? i.text = some (form, -129) := by
  have hvalue : Literal.value "-129" = .ok (-129) := by decide
  rcases (integer_literals_survive default {} "-129" (.inl rfl)).1 with
    ⟨v, hd, hf, e', i, hrun, hlines, form, -, -, -, hread, -⟩ | ⟨hno, -⟩
  · cases hvalue.symm.trans (Literal.value_eq_ok_iff.2 ⟨hd, hf⟩)
    exact ⟨e', i, form, hrun, hlines, hread⟩
  · exact absurd ⟨-129, Literal.value_eq_ok_iff.1 hvalue⟩ hno

end MiniJava.Jvm
