import MiniJava.Proofs.IRMachine
import MiniJava.Proofs.LineLabels

/-!
# Running the stack machine

The meaning of the lines of a method: a machine with a program counter, an operand stack and slots.
Loads, stores and returns look at the kind of what they move, as a verifier would; arithmetic is that
of 32 bits.  An instruction on objects or arrays takes its operands from the stack and asks the
environment to carry it out on them.

`does_execAll` and `does_last` run a list of instructions that stands somewhere in the lines: they say
that it does there what the instructions do one after another.
-/

set_option autoImplicit false

namespace MiniJava

/-- The kind of a value. -/
def Word.kind : Word → Jvm.Kind
  | .int _ => .int
  | .ref _ => .ref

namespace Jvm

/-- What a comparison says of two integers. -/
def Cond.holds : Cond → BitVec 32 → BitVec 32 → Bool
  | .eq, a, b => a == b
  | .ne, a, b => a != b
  | .lt, a, b => a.slt b
  | .ge, a, b => b.sle a
  | .gt, a, b => b.slt a
  | .le, a, b => a.sle b

/-- The result of an operation on two integers. -/
def Arith.apply {K : Type} (op : Arith) (a b : BitVec 32) : Act K (BitVec 32) :=
  match op with
  | .add => return a + b
  | .sub => return a - b
  | .mul => return a * b
  | .div => if b = 0 then throw .thrown else return a.sdiv b
  | .and => return a &&& b
  | .or => return a ||| b
  | .xor => return a ^^^ b

/-- The operand stack, its top first, and the slots. -/
structure Frame where
  stack : List Word
  slots : Nat → Word

namespace Instr

/-- The number of operands of an instruction that the environment carries out, and whether it leaves
a result. -/
def asks? : Instr → Option (Nat × Bool)
  | arrayLoad _ => some (2, true)
  | arrayStore _ => some (3, false)
  | new _ => some (0, true)
  | newArray _ | newRefArray _ | arrayLength | getField _ _ => some (1, true)
  | putField _ _ => some (2, false)
  | getStatic _ _ => some (0, true)
  | putStatic _ _ => some (1, false)
  | invoke how _ _ params result =>
    some (params.length + (if how.hasReceiver then 1 else 0), result != "V")
  | _ => none

variable (env : Env Instr)

/-- Takes operands from the stack and asks for an instruction to be carried out on them. -/
def ask (i : Instr) (count : Nat) (hasResult : Bool) (f : Frame) : Act Instr Frame :=
  if f.stack.length < count then throw .stuck
  else do
    let v ← perform env i (f.stack.take count).reverse
    return { f with stack := if hasResult then v :: f.stack.drop count else f.stack.drop count }

/-- What an instruction that does not jump does to the frame. -/
def work (i : Instr) (f : Frame) : Act Instr Frame :=
  match i, f.stack with
  | push v, stack => return { f with stack := .int (BitVec.ofInt 32 v) :: stack }
  | load kind slot, stack =>
    if (f.slots slot).kind = kind then return { f with stack := f.slots slot :: stack }
    else throw .stuck
  | store kind slot, v :: stack =>
    if v.kind = kind then return ⟨stack, Function.update f.slots slot v⟩ else throw .stuck
  | arith op, .int b :: .int a :: stack => do
    let v ← op.apply a b
    return { f with stack := .int v :: stack }
  | neg, .int a :: stack => return { f with stack := .int (-a) :: stack }
  | pop, _ :: stack => return { f with stack }
  | i, _ =>
    match i.asks? with
    | some (count, hasResult) => i.ask env count hasResult f
    | none => throw .stuck

/-- What an instruction does to the frame, and where control goes. -/
def exec (i : Instr) (f : Frame) : Act Instr (Frame × Control) :=
  match i with
  | ifZero cond label =>
    match f.stack with
    | .int a :: stack => return ({ f with stack }, if cond.holds a 0 then .jump label else .next)
    | _ => throw .stuck
  | ifCompare cond label =>
    match f.stack with
    | .int b :: .int a :: stack =>
      return ({ f with stack }, if cond.holds a b then .jump label else .next)
    | _ => throw .stuck
  | goto label => return (f, .jump label)
  | ret => throw (.returned none)
  | retValue kind =>
    match f.stack with
    | v :: _ => if v.kind = kind then throw (.returned (some v)) else throw .stuck
    | [] => throw .stuck
  | i => do
    let f' ← i.work env f
    return (f', .next)

end Instr

/-- Where a run of the stack machine stands. -/
structure State where
  pc : Nat
  frame : Frame

/-- Goes on after an instruction, with the next line or with the first line that is the label of a
jump. -/
def goOn (lines : List Line) (next : Nat) (r : Frame × Control) : Act Instr State :=
  match r.2 with
  | .next => return ⟨next, r.1⟩
  | .jump label =>
    match lines.idxOf? (.label label) with
    | some pc => return ⟨pc, r.1⟩
    | none => throw .stuck

/-- The machine of the lines of a method. -/
def machine (lines : List Line) (env : Env Instr) : Machine Instr State := fun s ↦
  match lines[s.pc]? with
  | none => throw .exhausted
  | some (.label _) => return ⟨s.pc + 1, s.frame⟩
  | some (.instr i) => i.exec env s.frame >>= goOn lines (s.pc + 1)

/-! ## Instructions in a row -/

/-- What instructions that do not jump do to the frame one after another. -/
def execAll (env : Env Instr) (is : List Instr) (f : Frame) : Act Instr Frame :=
  is.foldlM (fun f i ↦ i.work env f) f

section
variable {env : Env Instr} {f f' : Frame} {is js : List Instr} {i : Instr}

@[simp] theorem execAll_nil : execAll env [] f = pure f := rfl

@[simp] theorem execAll_cons :
    execAll env (i :: is) f = i.work env f >>= execAll env is := rfl

@[simp] theorem execAll_append : execAll env (is ++ js) f = execAll env is f >>= execAll env js := by
  rw [execAll, List.foldlM_append]
  rfl

theorem exec_of_plain (h : i.target? = none) (h' : i.fallsThrough = true) (f : Frame) :
    i.exec env f = i.work env f >>= fun f' ↦ pure (f', .next) := by
  cases i with
  | ifZero cond label | ifCompare cond label | goto label => cases h
  | ret | retValue kind => cases h'
  | _ => rfl

end

/-! ## Lines in their place -/

/-- Lines stand in others from a position on. -/
def StandsAt (ls lines : List Line) (p : Nat) : Prop :=
  ∀ k l, ls[k]? = some l → lines[p + k]? = some l

section
variable {ls ls' lines : List Line} {p : Nat} (env : Env Instr)

theorem standsAt_append (pre post : List Line) : StandsAt ls (pre ++ (ls ++ post)) pre.length := by
  intro k l hl
  have hk := (List.getElem?_eq_some_iff.1 hl).1
  rw [List.getElem?_append_right (Nat.le_add_right _ _), Nat.add_sub_cancel_left,
    List.getElem?_append_left hk]
  exact hl

theorem StandsAt.left (h : StandsAt (ls ++ ls') lines p) : StandsAt ls lines p := by
  intro k l hl
  apply h k l
  rw [List.getElem?_append_left (List.getElem?_eq_some_iff.1 hl).1]
  exact hl

theorem StandsAt.right (h : StandsAt (ls ++ ls') lines p) : StandsAt ls' lines (p + ls.length) := by
  intro k l hl
  rw [Nat.add_assoc]
  apply h (ls.length + k) l
  rw [List.getElem?_append_right (Nat.le_add_right _ _), Nat.add_sub_cancel_left]
  exact hl

theorem StandsAt.head {l : Line} (h : StandsAt (l :: ls) lines p) : lines[p]? = some l := h 0 l rfl

theorem StandsAt.tail {l : Line} (h : StandsAt (l :: ls) lines p) : StandsAt ls lines (p + 1) := by
  have h' : StandsAt ([l] ++ ls) lines p := h
  exact h'.right

theorem does_label {name : Text} (h : lines[p]? = some (.label name)) (f : Frame) :
    (machine lines env).Does ⟨p, f⟩ (pure ⟨p + 1, f⟩) := by
  have hstep := Machine.Does.step (machine lines env) ⟨p, f⟩
  rw [machine] at hstep
  simpa only [h] using hstep

/-- Labels are passed over. -/
theorem does_labels {names : List Text} (h : StandsAt (names.map .label) lines p) (f : Frame) :
    (machine lines env).Does ⟨p, f⟩ (pure ⟨p + names.length, f⟩) := by
  induction names generalizing p with
  | nil => exact .refl _ _
  | cons name names ih =>
    have hrest := ih h.tail
    rw [Nat.add_assoc, Nat.add_comm 1] at hrest
    exact (does_label env h.head f).after hrest

theorem does_exec {i : Instr} (h : lines[p]? = some (.instr i)) (f : Frame) :
    (machine lines env).Does ⟨p, f⟩ (i.exec env f >>= goOn lines (p + 1)) := by
  have hstep := Machine.Does.step (machine lines env) ⟨p, f⟩
  rw [machine] at hstep
  simpa only [h] using hstep

theorem does_work {i : Instr} (h : lines[p]? = some (.instr i)) (ht : i.target? = none)
    (hf : i.fallsThrough = true) (f : Frame) :
    (machine lines env).Does ⟨p, f⟩ ((fun f' ↦ ⟨p + 1, f'⟩) <$> i.work env f) := by
  have hstep : (machine lines env).Does ⟨p, f⟩ _ := does_exec env h f
  rw [exec_of_plain ht hf, bind_assoc] at hstep
  simpa only [pure_bind, map_eq_pure_bind, goOn] using hstep

/-- Plain instructions do in their place what they do one after another. -/
theorem does_execAll {is : List Instr} (h : StandsAt (is.map .instr) lines p) (hp : Plain is)
    (f : Frame) :
    (machine lines env).Does ⟨p, f⟩ ((fun f' ↦ ⟨p + is.length, f'⟩) <$> execAll env is f) := by
  induction is generalizing p f with
  | nil => simpa using Machine.Does.refl (machine lines env) ⟨p, f⟩
  | cons i is ih =>
    obtain ⟨ht, hf⟩ := hp i (by simp)
    rw [execAll_cons, map_bind]
    refine (does_work env h.head ht hf f).trans fun f' _ _ _ ↦ ?_
    have hrest := ih h.tail (fun j hj ↦ hp j (by simp [hj])) f'
    rwa [Nat.add_assoc, Nat.add_comm 1] at hrest

/-- Plain instructions and one that may jump. -/
theorem does_last {is : List Instr} {i : Instr} (h : StandsAt (is.map .instr ++ [.instr i]) lines p)
    (hp : Plain is) (f : Frame) :
    (machine lines env).Does ⟨p, f⟩
      ((execAll env is f >>= i.exec env) >>= goOn lines (p + is.length + 1)) := by
  rw [bind_assoc]
  refine (does_execAll env h.left hp f).trans fun f' _ _ _ ↦ ?_
  have hlast := h.right.head
  rw [List.length_map] at hlast
  exact does_exec env hlast f'

/-! ## Labels -/

/-- No label stands in the lines twice. -/
def UniqueLabels (lines : List Line) : Prop :=
  ∀ (p q : Nat) (name : Text), lines[p]? = some (.label name) → lines[q]? = some (.label name) → p = q

theorem idxOf?_label (hu : UniqueLabels lines) {q : Nat} {name : Text}
    (h : lines[q]? = some (.label name)) : lines.idxOf? (.label name) = some q := by
  obtain ⟨hq, hlabel⟩ := List.getElem?_eq_some_iff.1 h
  rw [List.idxOf?, List.findIdx?_eq_some_iff_getElem]
  refine ⟨hq, by simp [hlabel], fun j hj ↦ ?_⟩
  intro hbeq
  have hj' : lines[j]? = some (.label name) := by
    rw [List.getElem?_eq_getElem (Nat.lt_trans hj hq)]
    simpa using hbeq
  exact absurd (hu j q name hj' h) (Nat.ne_of_lt hj)

end

end Jvm

end MiniJava
