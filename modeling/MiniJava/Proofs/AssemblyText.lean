import Mathlib.Tactic.IntervalCases
import MiniJava.Jvm.Assembly

/-!
# The text of assembly

An instruction is printed as its mnemonic and its operands, each after a blank (`Instr.text_eq`).  The
change of the depth is known for every mnemonic, so that the emitter finds it for each instruction
(`Instr.knownEffect?_eq`).

`Assembled c es text` says what a class is as text: its header and, for each method, the lines of what
is emitted for it, with the limits in front.
-/

set_option autoImplicit false

namespace MiniJava

namespace Text

theorem ofString_append (s t : String) : ofString (s ++ t) = ofString s ++ ofString t := by
  rw [ofString, String.toList_append, List.map_append]
  rfl

theorem append_assoc (s t u : Text) : s ++ t ++ u = s ++ (t ++ u) :=
  congrArg mk (List.append_assoc s.signs t.signs u.signs)

theorem append_join_nil (s : Text) : s ++ join [] = s := congrArg mk (List.append_nil s.signs)

theorem join_cons (t : Text) (ts : List Text) : join (t :: ts) = t ++ join ts := rfl

theorem join_append (ts us : List Text) : join (ts ++ us) = join ts ++ join us :=
  congrArg mk List.flatMap_append

/-- Lines, each with its end. -/
def unlines (ts : List Text) : Text := join (ts.map (· ++ "\n"))

theorem unlines_flatten (tss : List (List Text)) : unlines tss.flatten = join (tss.map unlines) := by
  induction tss with
  | nil => rfl
  | cons ts tss ih =>
    rw [List.map_cons, join_cons, ← ih]
    simp only [unlines, List.flatten_cons, List.map_append, join_append]

end Text

namespace Jvm

open IR

/-! ## Instructions -/

theorem beforeBlank_append {s : String} (h : ' ' ∉ s.toList) (t : String) :
    beforeBlank (s ++ " " ++ t) = s := by
  have hpass : ∀ c ∈ s.toList, (c != ' ') = true := by
    intro c hc
    rw [bne_iff_ne]
    rintro rfl
    exact h hc
  rw [beforeBlank, String.toList_append, String.toList_append, List.append_assoc,
    List.takeWhile_append_of_pos hpass]
  simp

/-- A mnemonic of a known effect, and its operands. -/
structure Opcode (op : String) (operands : List Text) (d : Int) : Prop where
  effect : effect? (beforeBlank op) = some d
  text : (op : Text) = beforeBlank op ++ Text.join (operands.map (" " ++ ·))

namespace Opcode

theorem short {op : String} {d : Int} (h : beforeBlank op = op ∧ effect? op = some d) :
    Opcode op [] d := by
  constructor
  · rw [h.1, h.2]
  · rw [h.1, List.map_nil, Text.append_join_nil]

theorem withOperand (name : String) {d : Int} (h : ' ' ∉ name.toList ∧ effect? name = some d)
    (operand : String) : Opcode (name ++ " " ++ operand) [operand] d := by
  constructor
  · rw [beforeBlank_append h.1, h.2]
  · rw [beforeBlank_append h.1, Text.ofString_append, Text.ofString_append, List.map_singleton,
      Text.join_cons, Text.append_join_nil, Text.append_assoc]

theorem push (v : Int) : Opcode (pushText v) (if -1 ≤ v ∧ v ≤ 5 then [] else [toString v]) 1 := by
  split
  · rename_i h
    obtain ⟨hlow, hhigh⟩ := h
    exact short (by interval_cases v <;> decide +kernel)
  · rw [pushText, if_neg (by omega), if_neg (by omega)]
    split
    · exact withOperand "bipush" (by decide) _
    split
    · exact withOperand "sipush" (by decide) _
    · exact withOperand "ldc" (by decide) _

theorem slot {name : String} {d : Int} (hname : name ∈ slotMnemonics) (h : effect? name = some d)
    (slot : Nat) : Opcode (slotText name slot) (if slot ≤ 3 then [] else [toString slot]) d := by
  rw [slotText]
  split
  · rename_i hslot
    have hall : ∀ name ∈ slotMnemonics, ∀ slot < 4, beforeBlank s!"{name}_{slot}" = s!"{name}_{slot}" ∧
        effect? s!"{name}_{slot}" = effect? name := by decide +kernel
    obtain ⟨hblank, heffect⟩ := hall name hname slot (by omega)
    exact short ⟨hblank, heffect.trans h⟩
  · exact withOperand name ⟨(by decide : ∀ name ∈ slotMnemonics, ' ' ∉ name.toList) name hname, h⟩ _

end Opcode

namespace Instr

/-- The operands, as they are printed. -/
def operands : Instr → List Text
  | push v => if -1 ≤ v ∧ v ≤ 5 then [] else [toString v]
  | load _ slot | store _ slot => if slot ≤ 3 then [] else [toString slot]
  | ifZero _ label | ifCompare _ label | goto label => [label]
  | new cls | newArray cls | newRefArray cls => [cls]
  | getField field desc | putField field desc | getStatic field desc | putStatic field desc =>
    [field, desc]
  | invoke how cls method params result =>
    (cls ++ "/" ++ method ++ "(" ++ Text.join params ++ ")" ++ result) ::
      if how = .interface then [toString (params.length + 1)] else []
  | _ => []

/-- **The change of the depth is known for every instruction.** -/
theorem knownEffect?_eq (i : Instr) : i.knownEffect? = some i.effect := by
  cases i with
  | push v => exact (Opcode.push v).effect
  | load kind slot => cases kind <;> exact (Opcode.slot (by decide) rfl slot).effect
  | store kind slot => cases kind <;> exact (Opcode.slot (by decide) rfl slot).effect
  | arrayLoad elem => cases elem <;> rfl
  | arrayStore elem => cases elem <;> rfl
  | arith op => cases op <;> rfl
  | ifZero cond _ => cases cond <;> rfl
  | ifCompare cond _ => cases cond <;> rfl
  | retValue kind => cases kind <;> rfl
  | _ => rfl

/-- **An instruction is printed as its mnemonic and its operands.** -/
theorem text_eq (i : Instr) : i.text = i.mnemonic ++ Text.join (i.operands.map (" " ++ ·)) := by
  cases i with
  | push v => exact (Opcode.push v).text
  | load kind slot => cases kind <;> exact (Opcode.slot (by decide) rfl slot).text
  | store kind slot => cases kind <;> exact (Opcode.slot (by decide) rfl slot).text
  | invoke how cls method params result =>
    cases how <;> simp [text, mnemonic, operands, joinDescriptor, Text.append_assoc, Text.join_cons,
      Text.append_join_nil]
  | goto | new | newArray | newRefArray | getField | putField | getStatic | putStatic =>
    simp only [text, mnemonic, operands, List.map_cons, List.map_nil, Text.append_assoc, Text.join_cons,
      Text.append_join_nil]
    rfl
  | _ =>
    simp [text, mnemonic, operands, Text.ofString_append, Text.append_assoc, Text.join_cons,
      Text.append_join_nil]

end Instr

/-! ## Methods and classes -/

/-- A line as it is printed. -/
def Line.printed : Line → Text
  | label name => name ++ ":"
  | instr i => "\t" ++ i.mnemonic ++ Text.join (i.operands.map (" " ++ ·))

theorem Line.text_eq (l : Line) : l.text = l.printed ++ "\n" := by
  cases l with
  | label name => exact (Text.append_assoc name ":" "\n").symm
  | instr i => simp only [text, printed, i.text_eq, Text.append_assoc]

/-- The line of a method in front of its limits. -/
def headLine (c : ClassDef) (m : Method) : Text :=
  ".method " ++ (if m.isPublic then "public " else "") ++ (if m.isStatic then "static " else "") ++
    m.name ++ methodDescriptor c (m.params.map Param.ty) m.ret

/-- The lines of a method, behind an empty one. -/
def methodLines (c : ClassDef) (m : Method) (e : Emitter) : List Text :=
  [("" : Text), headLine c m, "\t.limit stack " ++ toString e.maxDepth,
    "\t.limit locals " ++ toString (slotLimit m e)] ++ e.lines.map Line.printed ++
    [(".end method" : Text)]

theorem unlines_methodLines (c : ClassDef) (m : Method) (e : Emitter) :
    Text.unlines (methodLines c m e) = "\n" ++ methodText c m e := by
  have hlines : (e.lines.map Line.printed).map (· ++ Text.ofString "\n") = e.lines.map Line.text := by
    simp [Line.text_eq]
  simp only [Text.unlines, methodLines, methodText, headLine, List.map_append, List.map_cons,
    List.map_nil, hlines, Text.join_append, Text.join_cons, Text.append_join_nil, Text.append_assoc]
  rfl

/-- The assembly of a class, from the emitters of its methods: its header and their lines. -/
def assembly (c : ClassDef) (es : List Emitter) : Text :=
  headerText c ++ Text.unlines (List.zipWith (methodLines c) c.methods es).flatten

theorem assembly_eq (c : ClassDef) (es : List Emitter) : assembly c es = headerText c ++
    Text.join (List.zipWith (fun m e ↦ "\n" ++ methodText c m e) c.methods es) := by
  simp only [assembly, Text.unlines_flatten, List.map_zipWith, unlines_methodLines]

/-- A text is the assembly of a class, by the emitters of its methods. -/
structure Assembled (c : ClassDef) (es : List Emitter) (text : Text) : Prop where
  emitted : List.Forall₂ (fun m e ↦ emitMethod c m = .ok e) c.methods es
  printed : text = assembly c es

end Jvm

end MiniJava
