import MiniJava.Proofs.AssemblyText
import MiniJava.Proofs.Outcome

/-!
# What the emitter writes

The lines that the emitter writes, said without its state.  `Loads`, `Evaluates`, `Computes` and `Emits`
give the lines of an operand, of a value and of an instruction; they depend on the temporary that is
on the stack before, and on the number of the next private label.  One lemma for each step of the
emitter says that a step that succeeds has written such lines.

The emitter also keeps the depth of the stack.  What it does so is a function of the lines alone,
`Tracker.line`; `Appends` says that a step has followed it.

`emitWith_spec` puts the instructions of a method together: the states of the emitter between them,
each related to the next.
-/

set_option autoImplicit false

namespace MiniJava

open IR

/-! ## Names -/

namespace IR

/-- All variables that an operand names. -/
@[simp]
def Operand.names : Operand → List Text
  | missing | literal _ _ => []
  | var name _ => [name]
  | elem base index _ => base :: index.names

/-- The operand is a variable. -/
def Operand.isVar : Operand → Bool
  | var _ _ => true
  | _ => false

/-- All variables that an instruction names. -/
def Instr.names : Instr → List Text
  | assign dest _ value => dest.names ++ value.names
  | call c => c.caller.names ++ c.args.flatMap Operand.names
  | binary _ l r _ => l.names ++ r.names
  | unary _ x _ | single x | ret x _ => x.names
  | branch cond _ => cond.names
  | putField object _ value => object.names ++ value.names
  | getField object _ _ => object.names
  | missing | goto _ => []

/-- The operands that an instruction computes its value from. -/
@[simp]
def Instr.valueOperands : Instr → List Operand
  | call c => c.caller :: c.args
  | binary _ l r _ => [l, r]
  | unary _ x _ | single x => [x]
  | getField object _ _ => [object]
  | missing | assign _ _ _ | ret _ _ | branch _ _ | goto _ | putField _ _ _ => []

/-- The operands of an instruction. -/
def Instr.operands : Instr → List Operand
  | assign dest _ value => dest :: value.valueOperands
  | ret x _ => [x]
  | branch cond _ => cond.valueOperands
  | putField object _ value => [object, value]
  | x => x.valueOperands

end IR

namespace Jvm

/-- The slot that an instruction loads or stores. -/
def Instr.slot? : Instr → Option Nat
  | load _ slot | store _ slot => some slot
  | _ => none

/-- Control can go on with the next line. -/
def Instr.fallsThrough : Instr → Bool
  | goto _ | ret | retValue _ => false
  | _ => true

/-! ## Depth -/

/-- What the emitter knows about the depth of the stack. -/
structure Tracker where
  depth : Nat
  maxDepth : Nat
  unreachable : Bool
  labelDepths : List (Text × Nat)

namespace Tracker

/-- Records the depth at a label, unless it is known. -/
def record (t : Tracker) (label : Text) : Option Tracker :=
  match t.labelDepths.lookup label with
  | some depth => if depth = t.depth then some t else none
  | none => some { t with labelDepths := (label, t.depth) :: t.labelDepths }

/-- The depth after an instruction that does not take it below zero. -/
def after (t : Tracker) (i : Instr) : Tracker :=
  { t with
    depth := (t.depth + i.effect).toNat, maxDepth := max t.maxDepth (t.depth + i.effect).toNat,
    unreachable := t.unreachable || !i.fallsThrough }

/-- The depth after an instruction, which is also that at the label it may jump to. -/
def instr (t : Tracker) (i : Instr) : Option Tracker :=
  if t.depth + i.effect < 0 then none
  else match i.target? with
    | some label => (t.after i).record label
    | none => some (t.after i)

/-- The depth at a label. -/
def label (t : Tracker) (label : Text) : Option Tracker :=
  match t.labelDepths.lookup label with
  | some depth =>
    if t.unreachable then some { t with depth, unreachable := false }
    else if depth = t.depth then some t else none
  | none =>
    if t.unreachable then some { t with unreachable := false }
    else some { t with labelDepths := (label, t.depth) :: t.labelDepths }

/-- The depth after a line. -/
def line (t : Tracker) : Line → Option Tracker
  | .instr i => t.instr i
  | .label name => t.label name

end Tracker

/-- What the emitter knows about the depth of the stack. -/
def Emitter.tracker (e : Emitter) : Tracker := ⟨e.depth, e.maxDepth, e.unreachable, e.labelDepths⟩

/-- The emitter has written some lines. -/
structure Appends (e e' : Emitter) (ls : List Line) : Prop where
  lines : e'.lines = e.lines ++ ls
  track : ls.foldlM Tracker.line e.tracker = some e'.tracker
  slots_le : e.slots ≤ e'.slots
  slots_lt : ∀ i slot, Line.instr i ∈ ls → i.slot? = some slot → slot < e'.slots

/-- The emitter has written some lines and neither used a private label nor planned what to leave on
the stack. -/
structure Writes (e e' : Emitter) (ls : List Line) : Prop extends Appends e e' ls where
  keep : e'.keep = e.keep
  nextLabel : e'.nextLabel = e.nextLabel

theorem Appends.trans {e₁ e₂ e₃ : Emitter} {ls ls' : List Line} (h : Appends e₁ e₂ ls)
    (h' : Appends e₂ e₃ ls') : Appends e₁ e₃ (ls ++ ls') where
  lines := by rw [h'.lines, h.lines, List.append_assoc]
  track := by rw [List.foldlM_append, h.track]; exact h'.track
  slots_le := Nat.le_trans h.slots_le h'.slots_le
  slots_lt := by
    intro i slot hi hslot
    rcases List.mem_append.1 hi with hi | hi
    · exact Nat.lt_of_lt_of_le (h.slots_lt i slot hi hslot) h'.slots_le
    · exact h'.slots_lt i slot hi hslot

theorem Writes.trans {e₁ e₂ e₃ : Emitter} {ls ls' : List Line} (h : Writes e₁ e₂ ls)
    (h' : Writes e₂ e₃ ls') : Writes e₁ e₃ (ls ++ ls') :=
  ⟨h.toAppends.trans h'.toAppends, h'.keep.trans h.keep, h'.nextLabel.trans h.nextLabel⟩

theorem Writes.refl (e : Emitter) : Writes e e [] :=
  ⟨⟨by simp, rfl, Nat.le_refl _, by simp⟩, rfl, rfl⟩

/-! ## Single lines -/

theorem EmitM.bind_eq_ok {α β : Type} {x : EmitM α} {f : α → EmitM β} {e e'' : Emitter} {b : β} :
    (x >>= f).run e = .ok (b, e'') ↔
      ∃ a e', x.run e = .ok (a, e') ∧ (f a).run e' = .ok (b, e'') := by
  rw [StateT.run_bind, Except.bind_eq_ok]
  simp [Prod.exists]

theorem EmitM.run_get_bind {α : Type} {f : Emitter → EmitM α} {e : Emitter} :
    (get >>= f).run e = (f e).run e := rfl

open EmitM (bind_eq_ok run_get_bind)

variable {c : ClassDef} {m : Method} {e e' : Emitter}
variable {i : Instr} {u : Unit} {label name : Text} {ty : Ty} {x : Call} {keep : Option Text}

/-- The emitter after an instruction. -/
def Emitter.put (e : Emitter) (i : Instr) : Emitter :=
  { e with
    lines := e.lines ++ [Line.instr i], depth := (e.depth + i.effect).toNat,
    maxDepth := max e.maxDepth (e.depth + i.effect).toNat }

/-- What emitting an instruction does. -/
theorem emit_run (m : Method) (i : Instr) (e : Emitter) :
    (emit m i).run e = if (e.depth : Int) + i.effect < 0 then .error (.defect (.underflow m.name))
      else .ok ((), e.put i) := by
  rw [emit, run_get_bind, i.knownEffect?_eq]
  exact apply_ite (fun x : EmitM Unit ↦ x.run e) _ _ _

theorem emit_eq_ok (h : (emit m i).run e = .ok (u, e')) : 0 ≤ e.depth + i.effect ∧ e' = e.put i := by
  rw [emit_run] at h
  split at h
  · cases h
  · cases h
    exact ⟨by omega, rfl⟩

theorem emit_spec (h : (emit m i).run e = .ok (u, e')) (ht : i.target? = none)
    (hf : i.fallsThrough = true) (hs : ∀ slot, i.slot? = some slot → slot < e.slots) :
    Writes e e' [.instr i] ∧ e'.onStack = e.onStack := by
  obtain ⟨hd, rfl⟩ := emit_eq_ok h
  refine ⟨⟨⟨rfl, ?_, Nat.le_refl _, ?_⟩, rfl, rfl⟩, rfl⟩
  · simp [Tracker.line, Tracker.instr, Tracker.after, Emitter.tracker, Emitter.put, Int.not_lt.2 hd,
      ht, hf]
  · intro j slot hj hslot
    rw [List.mem_singleton, Line.instr.injEq] at hj
    exact hs slot (hj ▸ hslot)

/-- The emitter after an instruction that may jump to a label. -/
theorem jump_eq_ok (h : (jump m i label).run e = .ok (u, e')) : 0 ≤ e.depth + i.effect ∧
      (e.labelDepths.lookup label = some (e.put i).depth ∧ e' = e.put i ∨
        e.labelDepths.lookup label = none ∧
          e' = { e.put i with labelDepths := (label, (e.put i).depth) :: e.labelDepths }) := by
  obtain ⟨_, e₁, he, h⟩ := bind_eq_ok.1 h
  obtain ⟨hd, rfl⟩ := emit_eq_ok he
  refine ⟨hd, ?_⟩
  rw [run_get_bind] at h
  split at h
  · rename_i depth hl
    split at h
    · cases h
    · rename_i hne
      cases h
      exact .inl ⟨by rw [← not_not.1 hne]; exact hl, rfl⟩
  · rename_i hl
    cases h
    exact .inr ⟨hl, rfl⟩

theorem slots_lt_of_slot?_eq_none (h : i.slot? = none) (n : Nat) :
    ∀ j slot, Line.instr j ∈ [Line.instr i] → j.slot? = some slot → slot < n := by
  intro j slot hj hs
  rw [List.mem_singleton, Line.instr.injEq] at hj
  rw [hj, h] at hs
  cases hs

theorem jump_writes (h : (jump m i label).run e = .ok (u, e')) (ht : i.target? = some label) :
    Writes e { e' with unreachable := e'.unreachable || !i.fallsThrough } [.instr i] ∧
      e'.onStack = e.onStack := by
  have hslot : i.slot? = none := by cases i <;> simp [Instr.target?, Instr.slot?] at ht ⊢
  obtain ⟨hd, ⟨hl, rfl⟩ | ⟨hl, rfl⟩⟩ := jump_eq_ok h
  · refine ⟨⟨⟨rfl, ?_, Nat.le_refl _, slots_lt_of_slot?_eq_none hslot _⟩, rfl, rfl⟩, rfl⟩
    simp only [Emitter.put] at hl
    simp [Tracker.line, Tracker.instr, Tracker.after, Tracker.record, Emitter.tracker, Emitter.put,
      Int.not_lt.2 hd, ht, hl]
  · refine ⟨⟨⟨rfl, ?_, Nat.le_refl _, slots_lt_of_slot?_eq_none hslot _⟩, rfl, rfl⟩, rfl⟩
    simp [Tracker.line, Tracker.instr, Tracker.after, Tracker.record, Emitter.tracker, Emitter.put,
      Int.not_lt.2 hd, ht, hl]

theorem jump_spec (h : (jump m i label).run e = .ok (u, e')) (ht : i.target? = some label)
    (hf : i.fallsThrough = true) : Writes e e' [.instr i] ∧ e'.onStack = e.onStack := by
  have hw := jump_writes h ht
  rwa [hf, Bool.not_true, Bool.or_false] at hw

theorem goto_spec (h : (goto m label).run e = .ok (u, e')) :
    Writes e e' [.instr (.goto label)] ∧ e'.onStack = e.onStack := by
  obtain ⟨_, e₁, he, h⟩ := bind_eq_ok.1 h
  cases h
  have hw := jump_writes he rfl
  rwa [Instr.fallsThrough, Bool.not_false, Bool.or_true] at hw

theorem placeLabel_spec (h : (placeLabel m label).run e = .ok (u, e')) :
    Writes e e' [.label label] ∧ e'.onStack = e.onStack := by
  rw [placeLabel, run_get_bind] at h
  split at h
  · rename_i depth hl
    split at h
    · rename_i hu
      cases h
      refine ⟨⟨⟨rfl, ?_, Nat.le_refl _, by simp⟩, rfl, rfl⟩, rfl⟩
      simp [Tracker.line, Tracker.label, Emitter.tracker, hl, hu]
    · rename_i hu
      split at h
      · cases h
      · rename_i hne
        cases h
        refine ⟨⟨⟨rfl, ?_, Nat.le_refl _, by simp⟩, rfl, rfl⟩, rfl⟩
        simp [Tracker.line, Tracker.label, Emitter.tracker, hl, hu, not_not.1 hne]
  · rename_i hl
    split at h
    · rename_i hu
      cases h
      refine ⟨⟨⟨rfl, ?_, Nat.le_refl _, by simp⟩, rfl, rfl⟩, rfl⟩
      simp [Tracker.line, Tracker.label, Emitter.tracker, hl, hu]
    · rename_i hu
      cases h
      refine ⟨⟨⟨rfl, ?_, Nat.le_refl _, by simp⟩, rfl, rfl⟩, rfl⟩
      simp [Tracker.line, Tracker.label, Emitter.tracker, hl, hu]

/-! ## Operands -/

/-- A variable lives in a slot. -/
def HasSlot (m : Method) (name : Text) (kind : Kind) (slot : Nat) : Prop :=
  ∃ v, m.vars.get? name = some v ∧ v.reg = slot ∧ Kind.ofTy v.ty = kind

/-- The instructions that load an operand, with the temporary that is on the stack before and after
them. -/
inductive Loads (m : Method) : Option Text → Operand → List Instr → Option Text → Prop
  | literal {s : Option Text} {text : Text} {ty : Ty} {v : Int} (ht : ty = .int ∨ ty = .bool)
      (hv : Literal.value text = .ok v) : Loads m s (.literal text ty) [.push v] s
  /-- A temporary on the stack is not loaded. -/
  | top {name : Text} {ty : Ty} : Loads m (some name) (.var name ty) [] none
  | var {s : Option Text} {name : Text} {ty : Ty} {kind : Kind} {slot : Nat} (hs : s ≠ some name)
      (hslot : HasSlot m name kind slot) : Loads m s (.var name ty) [.load kind slot] s
  | elem {s s' : Option Text} {base : Text} {index : Operand} {ty : Ty} {kind : Kind} {slot : Nat}
      {is : List Instr} (hslot : HasSlot m base kind slot) (hi : Loads m s index is s') :
      Loads m s (.elem base index ty) (.load kind slot :: (is ++ [.arrayLoad (.ofTy ty)])) s'

/-- The instructions that load operands in order. -/
inductive LoadsAll (m : Method) : Option Text → List Operand → List Instr → Option Text → Prop
  | nil {s : Option Text} : LoadsAll m s [] [] s
  | cons {s₁ s₂ s₃ : Option Text} {x : Operand} {xs : List Operand} {is js : List Instr}
      (hx : Loads m s₁ x is s₂) (hxs : LoadsAll m s₂ xs js s₃) :
      LoadsAll m s₁ (x :: xs) (is ++ js) s₃

variable {s s' : Option Text} {cond : Cond} {l r : Operand} {keepAt : Nat → Option Text}

theorem Loads.ne_missing {x : Operand} {is : List Instr} (h : Loads m s x is s') : x ≠ .missing := by
  rintro rfl
  cases h

theorem slotOf_spec {kind : Kind} {slot : Nat} (h : (slotOf m name).run e = .ok ((kind, slot), e')) :
    HasSlot m name kind slot ∧ e' = { e with slots := max e.slots (slot + 1) } := by
  rw [slotOf] at h
  split at h
  · cases h
  · rename_i v hv
    split at h
    · cases h
    · rename_i hr
      cases h
      exact ⟨⟨v, hv, by omega, rfl⟩, rfl⟩

/-- Access to the slot of a variable, to load or to store it. -/
theorem access_spec {name : Text} {access : Kind → Nat → Instr} {u : Unit}
    (h : (do
      let (kind, slot) ← slotOf m name
      emit m (access kind slot) : EmitM Unit).run e = .ok (u, e'))
    (ht : ∀ kind slot, (access kind slot).target? = none)
    (hf : ∀ kind slot, (access kind slot).fallsThrough = true)
    (hs : ∀ kind slot, (access kind slot).slot? = some slot) :
    ∃ kind slot, HasSlot m name kind slot ∧ Writes e e' [.instr (access kind slot)] ∧
      e'.onStack = e.onStack := by
  obtain ⟨⟨kind, slot⟩, e₁, hof, h⟩ := bind_eq_ok.1 h
  obtain ⟨hslot, rfl⟩ := slotOf_spec hof
  have hlt : ∀ s, (access kind slot).slot? = some s →
      s < { e with slots := max e.slots (slot + 1) }.slots := by
    intro s hs'
    rw [hs, Option.some.injEq] at hs'
    simp only
    omega
  obtain ⟨hw, ho⟩ := emit_spec h (ht _ _) (hf _ _) hlt
  refine ⟨kind, slot, hslot, ⟨⟨hw.lines, hw.track, ?_, hw.slots_lt⟩, hw.keep, hw.nextLabel⟩, ho⟩
  exact Nat.le_trans (Nat.le_max_left _ _) hw.slots_le

theorem loadVar_spec (h : (loadVar m name).run e = .ok (u, e')) :
    ∃ kind slot, HasSlot m name kind slot ∧ Writes e e' [.instr (.load kind slot)] ∧
      e'.onStack = e.onStack :=
  access_spec h (fun _ _ ↦ rfl) (fun _ _ ↦ rfl) (fun _ _ ↦ rfl)

theorem storeVar_spec (h : (storeVar m name).run e = .ok (u, e')) :
    ∃ kind slot, HasSlot m name kind slot ∧ Writes e e' [.instr (.store kind slot)] ∧
      e'.onStack = e.onStack :=
  access_spec h (fun _ _ ↦ rfl) (fun _ _ ↦ rfl) (fun _ _ ↦ rfl)

/-- The depth after an instruction that puts a value on the stack. -/
theorem Instr.depth_push {h : Nat} (hi : i.effect = 1) : (h : Int) + i.effect = (h + 1 : Nat) := by
  omega

/-- The depth after an instruction that takes `k` values more than it puts on the stack. -/
theorem Instr.depth_pops (k : Nat) {h : Nat} (hi : i.effect = -k) :
    ((h + k : Nat) : Int) + i.effect = h := by
  omega

/-- An instruction that names no slot and does not jump. -/
theorem emit_plain (h : (emit m i).run e = .ok (u, e')) (ht : i.target? = none := by rfl)
    (hf : i.fallsThrough = true := by rfl) (hs : i.slot? = none := by rfl) :
    Writes e e' [.instr i] ∧ e'.onStack = e.onStack :=
  emit_spec h ht hf (by simp [hs])

theorem loadLiteral_spec {text : Text} (h : (loadLiteral m text ty).run e = .ok (u, e')) :
    ∃ v, (ty = .int ∨ ty = .bool) ∧ Literal.value text = .ok v ∧ Writes e e' [.instr (.push v)] ∧
      e'.onStack = e.onStack := by
  rw [loadLiteral] at h
  split at h
  · rename_i ht
    obtain ⟨v, e₁, hv, hemit⟩ := bind_eq_ok.1 h
    have hlit : Literal.value text = .ok v ∧ e₁ = e := by
      rw [Literal.parse] at hv
      cases hl : Literal.value text with
      | error fault =>
        rw [hl] at hv
        cases hv
      | ok v' =>
        rw [hl] at hv
        cases hv
        exact ⟨rfl, rfl⟩
    obtain ⟨hlit, rfl⟩ := hlit
    exact ⟨v, by simpa using ht, hlit, emit_plain hemit⟩
  · cases h

theorem load_spec {x : Operand} (hn : ∀ name ∈ x.names, name ≠ "") (h : (load m x).run e = .ok (u, e')) :
    ∃ is, Loads m e.onStack x is e'.onStack ∧ Writes e e' (is.map .instr) := by
  induction x generalizing e e' u with
  | missing => cases h
  | literal text ty =>
    obtain ⟨v, ht, hv, hw, ho⟩ := loadLiteral_spec h
    exact ⟨[.push v], ho ▸ .literal ht hv, hw⟩
  | var name ty =>
    rw [load, run_get_bind] at h
    have hname : name ≠ "" := hn name (by simp)
    split at h
    · rename_i htop
      cases h
      have hs : e.onStack = some name := by
        cases hs : e.onStack with
        | none =>
          rw [hs] at htop
          exact absurd htop.symm hname
        | some t =>
          rw [hs] at htop
          rw [← htop, Option.getD_some]
      refine ⟨[], ?_, ⟨⟨by simp, rfl, Nat.le_refl _, by simp⟩, rfl, rfl⟩⟩
      rw [hs]
      exact .top
    · rename_i htop
      obtain ⟨kind, slot, hslot, hw, ho⟩ := loadVar_spec h
      refine ⟨[.load kind slot], ?_, hw⟩
      rw [ho]
      refine .var ?_ hslot
      intro hs
      rw [hs, Option.getD_some] at htop
      exact htop rfl
  | elem base index ty ih =>
    rw [load] at h
    obtain ⟨_, e₁, hbase, h⟩ := bind_eq_ok.1 h
    obtain ⟨_, e₂, hindex, h⟩ := bind_eq_ok.1 h
    obtain ⟨kind, slot, hslot, hw₁, ho₁⟩ := loadVar_spec hbase
    obtain ⟨is, hl, hw₂⟩ := ih (fun name hname ↦ hn name (by simp [hname])) hindex
    obtain ⟨hw₃, ho₃⟩ := emit_plain h
    refine ⟨.load kind slot :: (is ++ [.arrayLoad (.ofTy ty)]), ?_, ?_⟩
    · rw [ho₃, ← ho₁]
      exact .elem hslot hl
    · simpa using hw₁.trans (hw₂.trans hw₃)

theorem loadAll_spec {xs : List Operand} (hn : ∀ name ∈ xs.flatMap Operand.names, name ≠ "")
    (h : (loadAll m xs).run e = .ok (u, e')) :
    ∃ is, LoadsAll m e.onStack xs is e'.onStack ∧ Writes e e' (is.map .instr) := by
  induction xs generalizing e e' u with
  | nil =>
    cases h
    exact ⟨[], .nil, .refl e⟩
  | cons x xs ih =>
    obtain ⟨_, e₁, hx, h⟩ := bind_eq_ok.1 h
    obtain ⟨is, hl, hw⟩ := load_spec (fun name hname ↦ hn name (by simp [hname])) hx
    obtain ⟨js, hl', hw'⟩ := ih (fun name hname ↦ hn name
      (by rw [List.flatMap_cons]; exact List.mem_append_right _ hname)) h
    exact ⟨is ++ js, .cons hl hl', by simpa using hw.trans hw'⟩

/-! ## Comparisons -/

/-- The instructions that load what a comparison needs, and the jump that is taken when it holds. -/
inductive Compares (m : Method) (op : Op) (cond : Cond) (l r : Operand) :
    Option Text → List Instr → (Text → Instr) → Option Text → Prop
  | rightZero {s s' : Option Text} {is : List Instr} (hr : isZero r = true)
      (hl : Loads m s l is s') : Compares m op cond l r s is (.ifZero cond) s'
  | leftZero {s s' : Option Text} {is : List Instr} (hr : isZero r = false) (hl : isZero l = true)
      (h : Loads m s r is s') :
      Compares m op cond l r s is (.ifZero ((Cond.ofOp? op.swap).getD cond)) s'
  | both {s₁ s₂ s₃ : Option Text} {is js : List Instr} (hr : isZero r = false)
      (hl : isZero l = false) (h : Loads m s₁ l is s₂) (h' : Loads m s₂ r js s₃) :
      Compares m op cond l r s₁ (is ++ js) (.ifCompare cond) s₃

/-- The private label for the answer that a comparison holds. -/
def trueLabel (n : Nat) : Text := (s!"cmp_{n}_true" : String)

/-- The private label after a comparison. -/
def endLabel (n : Nat) : Text := (s!"cmp_{n}_end" : String)

/-- The lines that push the answer of a comparison after its operands. -/
def answerLines (test : Text → Instr) (n : Nat) : List Line :=
  [.instr (test (trueLabel n)), .instr (.push 0), .instr (.goto (endLabel n)),
    .label (trueLabel n), .instr (.push 1), .label (endLabel n)]

theorem Compares.test_target? {op : Op} {is : List Instr} {test : Text → Instr}
    (h : Compares m op cond l r s is test s') (label : Text) :
    (test label).target? = some label ∧ (test label).fallsThrough = true := by
  cases h <;> exact ⟨rfl, rfl⟩

theorem branchCompare_spec {op : Op} (hl : ∀ name ∈ l.names, name ≠ "")
    (hr : ∀ name ∈ r.names, name ≠ "") (h : (branchCompare m op cond l r label).run e = .ok (u, e')) :
    ∃ is test, Compares m op cond l r e.onStack is test e'.onStack ∧
      Writes e e' (is.map .instr ++ [.instr (test label)]) := by
  rw [branchCompare] at h
  split at h
  · rename_i hz
    obtain ⟨_, e₁, hload, hjump⟩ := bind_eq_ok.1 h
    obtain ⟨is, his, hw⟩ := load_spec hl hload
    obtain ⟨hw', ho⟩ := jump_spec hjump rfl rfl
    exact ⟨is, _, ho ▸ .rightZero hz his, hw.trans hw'⟩
  · rename_i hz
    split at h
    · rename_i hz'
      obtain ⟨_, e₁, hload, hjump⟩ := bind_eq_ok.1 h
      obtain ⟨is, his, hw⟩ := load_spec hr hload
      obtain ⟨hw', ho⟩ := jump_spec hjump rfl rfl
      exact ⟨is, _, ho ▸ .leftZero (Bool.eq_false_iff.2 hz) hz' his, hw.trans hw'⟩
    · rename_i hz'
      obtain ⟨_, e₁, hload, h⟩ := bind_eq_ok.1 h
      obtain ⟨_, e₂, hload', hjump⟩ := bind_eq_ok.1 h
      obtain ⟨is, his, hw⟩ := load_spec hl hload
      obtain ⟨js, hjs, hw'⟩ := load_spec hr hload'
      obtain ⟨hw'', ho⟩ := jump_spec hjump rfl rfl
      refine ⟨is ++ js, .ifCompare cond, ?_, by simpa using hw.trans (hw'.trans hw'')⟩
      rw [ho]
      exact .both (Bool.eq_false_iff.2 hz) (Bool.eq_false_iff.2 hz') his hjs

theorem compare_spec {op : Op} (hl : ∀ name ∈ l.names, name ≠ "") (hr : ∀ name ∈ r.names, name ≠ "")
    (h : (compare m op cond l r).run e = .ok (u, e')) :
    ∃ is test, Compares m op cond l r e.onStack is test e'.onStack ∧
      Appends e e' (is.map .instr ++ answerLines test e.nextLabel) ∧ e'.keep = e.keep ∧
      e'.nextLabel = e.nextLabel + 1 := by
  obtain ⟨⟨onTrue, done⟩, e₁, hfresh, h⟩ := bind_eq_ok.1 h
  cases hfresh
  obtain ⟨_, e₂, hbranch, h⟩ := bind_eq_ok.1 h
  obtain ⟨_, e₃, hzero, h⟩ := bind_eq_ok.1 h
  obtain ⟨_, e₄, hgoto, h⟩ := bind_eq_ok.1 h
  obtain ⟨_, e₅, htrue, h⟩ := bind_eq_ok.1 h
  obtain ⟨_, e₆, hone, hend⟩ := bind_eq_ok.1 h
  obtain ⟨is, test, hc, hw₁⟩ := branchCompare_spec hl hr hbranch
  obtain ⟨hw₂, ho₂⟩ := emit_plain hzero
  obtain ⟨hw₃, ho₃⟩ := goto_spec hgoto
  obtain ⟨hw₄, ho₄⟩ := placeLabel_spec htrue
  obtain ⟨hw₅, ho₅⟩ := emit_plain hone
  obtain ⟨hw₆, ho₆⟩ := placeLabel_spec hend
  have hw := hw₁.trans (hw₂.trans (hw₃.trans (hw₄.trans (hw₅.trans hw₆))))
  rw [List.append_assoc] at hw
  refine ⟨is, test, ?_, ⟨hw.lines, hw.track, hw.slots_le, hw.slots_lt⟩, hw.keep, hw.nextLabel⟩
  rw [ho₆, ho₅, ho₄, ho₃, ho₂]
  exact hc

/-! ## Calls and fields -/

/-- The class that a call with a receiver is emitted against. -/
def owner? (c : ClassDef) (kind : CallKind) (caller : Ty) (method : Text) : Option Text :=
  match caller with
  | .receiver name =>
    if kind = .special ∧ method = "<init>" then some c.superName else some (c.resolve name)
  | ty => ty.className?.map c.resolve

/-- The instruction that makes an array of a type. -/
def arrayInstr? (c : ClassDef) (ty : Ty) : Option Instr :=
  match ty.elem with
  | .int => some (.newArray "int")
  | .bool => some (.newArray "boolean")
  | .string => some (.newRefArray "java/lang/String")
  | .object cls _ => some (.newRefArray (c.resolve cls))
  | _ => none

/-- All invocations but the static ones have a receiver. -/
theorem hasReceiver_of_invocation? {kind : CallKind} {how : Invocation}
    (hhow : invocation? kind = some how) : how.hasReceiver = !decide (kind = .static) := by
  cases kind with
  | static | special | virtual | interface =>
    cases hhow
    rfl
  | newObject | newArray | arrayLength | unknown _ => cases hhow

/-- The instruction that invokes the method of a call. -/
def invokeInstr (c : ClassDef) (x : Call) (how : Invocation) (cls : Text) : Instr :=
  .invoke how cls x.method (x.args.map fun a ↦ descriptor c a.ty) (descriptor c x.ret)

/-- What a call emits behind its operands. -/
def invocation (c : ClassDef) (m : Method) (x : Call) : EmitM Unit := do
  let cls ← callClass c x
  match invocation? x.kind with
  | some how => emit m (invokeInstr c x how cls)
  | none => EmitM.unsupported (.callKind x.kind.text)

theorem invoke_static (hk : x.kind = .static) :
    invoke c m x = loadAll m x.args >>= fun _ ↦ invocation c m x := by
  rw [invoke, if_neg (not_not.2 hk)]
  rfl

theorem invoke_missing (hk : x.kind ≠ .static) (hm : x.caller = .missing) :
    invoke c m x = EmitM.defect (.noReceiver m.name x.kind.text x.method) := by
  rw [invoke, if_pos hk, if_pos hm]
  rfl

theorem invoke_onObject (hk : x.kind ≠ .static) (hm : x.caller ≠ .missing) : invoke c m x =
      load m x.caller >>= fun _ ↦ loadAll m x.args >>= fun _ ↦ invocation c m x := by
  rw [invoke, if_pos hk, if_neg hm]
  rfl

/-- The instructions of a call. -/
inductive Calls (c : ClassDef) (m : Method) (x : Call) :
    Option Text → List Instr → Option Text → Prop
  | newObject {s : Option Text} (hk : x.kind = .newObject) :
      Calls c m x s [.new (c.resolve x.cls)] s
  | newArray {s s' : Option Text} {size : Operand} {is : List Instr} {i : Instr}
      (hk : x.kind = .newArray) (ha : x.args = [size]) (h : Loads m s size is s')
      (hi : arrayInstr? c x.ret = some i) : Calls c m x s (is ++ [i]) s'
  | arrayLength {s s' : Option Text} {is : List Instr} (hk : x.kind = .arrayLength)
      (h : Loads m s x.caller is s') : Calls c m x s (is ++ [.arrayLength]) s'
  | static {s s' : Option Text} {is : List Instr} (hk : x.kind = .static)
      (h : LoadsAll m s x.args is s') :
      Calls c m x s (is ++ [invokeInstr c x .static (c.resolve x.cls)]) s'
  | onObject {s₁ s₂ s₃ : Option Text} {is js : List Instr} {how : Invocation} {cls : Text}
      (hk : invocation? x.kind = some how) (hs : x.kind ≠ .static) (hr : Loads m s₁ x.caller is s₂)
      (ha : LoadsAll m s₂ x.args js s₃) (ho : owner? c x.kind x.caller.ty x.method = some cls) :
      Calls c m x s₁ (is ++ (js ++ [invokeInstr c x how cls])) s₃

theorem callClass_spec {cls : Text} (h : (callClass c x).run e = .ok (cls, e')) :
    e' = e ∧ (if x.kind = .static then cls = c.resolve x.cls
      else owner? c x.kind x.caller.ty x.method = some cls) := by
  rw [callClass] at h
  split at h
  · rename_i hk
    cases h
    simp [hk]
  · rename_i hk
    rw [if_neg hk]
    unfold owner?
    cases hty : x.caller.ty with
    | receiver name =>
      rw [hty] at h
      by_cases hi : x.kind = .special ∧ x.method = "<init>"
      · simp only [hi, decide_true, Bool.and_self, if_true] at h
        cases h
        simp [hi]
      · have hi' : (decide (x.kind = .special) && decide (x.method = "<init>")) = false := by
          simpa using hi
        simp only [hi', Bool.false_eq_true, if_false] at h
        cases h
        simp [hi]
    | object name own =>
      rw [hty] at h
      cases h
      exact ⟨rfl, rfl⟩
    | string =>
      rw [hty] at h
      cases h
      exact ⟨rfl, rfl⟩
    | absent | int | bool | void | array _ =>
      rw [hty] at h
      cases h

theorem newArray_spec (h : (newArray c m ty).run e = .ok (u, e')) :
    ∃ i, arrayInstr? c ty = some i ∧ Writes e e' [.instr i] ∧ e'.onStack = e.onStack := by
  rw [newArray] at h
  rw [arrayInstr?]
  generalize ty.elem = elem at h ⊢
  cases elem with
  | int | bool | string | object _ _ => exact ⟨_, rfl, emit_plain h⟩
  | absent | void | array _ | receiver _ => cases h

theorem invoke_spec (hc : ∀ name ∈ x.caller.names, name ≠ "")
    (ha : ∀ name ∈ x.args.flatMap Operand.names, name ≠ "") (h : (invoke c m x).run e = .ok (u, e')) :
    ∃ is, Calls c m x e.onStack is e'.onStack ∧ Writes e e' (is.map .instr) := by
  rw [invoke] at h
  by_cases hs : x.kind = .static
  · simp only [hs, ne_eq, not_true, if_false] at h
    obtain ⟨_, e₁, hargs, h₁⟩ := bind_eq_ok.1 h
    obtain ⟨cls, e₂, hfind, hemit⟩ := bind_eq_ok.1 h₁
    obtain ⟨is, his, hw⟩ := loadAll_spec ha hargs
    obtain ⟨rfl, hcls⟩ := callClass_spec hfind
    rw [if_pos hs] at hcls
    subst hcls
    obtain ⟨hw', ho⟩ := emit_plain hemit
    refine ⟨is ++ [invokeInstr c x .static (c.resolve x.cls)], ?_, ?_⟩
    · rw [ho]
      exact .static hs his
    · simpa [invokeInstr] using hw.trans hw'
  · simp only [hs, ne_eq, not_false_eq_true, if_true] at h
    by_cases hm : x.caller = .missing
    · simp only [hm, if_true] at h
      cases h
    · simp only [hm, if_false] at h
      obtain ⟨_, e₁, hcaller, h₁⟩ := bind_eq_ok.1 h
      obtain ⟨_, e₂, hargs, h₂⟩ := bind_eq_ok.1 h₁
      obtain ⟨cls, e₃, hfind, hemit⟩ := bind_eq_ok.1 h₂
      obtain ⟨is, his, hw⟩ := load_spec hc hcaller
      obtain ⟨js, hjs, hw'⟩ := loadAll_spec ha hargs
      obtain ⟨rfl, hcls⟩ := callClass_spec hfind
      rw [if_neg hs] at hcls
      split at hemit
      · rename_i how hk
        obtain ⟨hw'', ho⟩ := emit_plain hemit
        refine ⟨is ++ (js ++ [invokeInstr c x how cls]), ?_, ?_⟩
        · rw [ho]
          exact .onObject hk hs his hjs hcls
        · simpa [invokeInstr] using hw.trans (hw'.trans hw'')
      · cases hemit

theorem call_spec (hc : ∀ name ∈ x.caller.names, name ≠ "")
    (ha : ∀ name ∈ x.args.flatMap Operand.names, name ≠ "") (h : (call c m x).run e = .ok (u, e')) :
    ∃ is, Calls c m x e.onStack is e'.onStack ∧ Writes e e' (is.map .instr) := by
  rw [call] at h
  split at h
  · rename_i hk
    obtain ⟨hw, ho⟩ := emit_plain h
    exact ⟨[.new (c.resolve x.cls)], ho ▸ .newObject hk, hw⟩
  · rename_i hk
    split at h
    · rename_i size hargs
      obtain ⟨_, e₁, hload, h⟩ := bind_eq_ok.1 h
      obtain ⟨is, his, hw⟩ := load_spec (fun name hname ↦ ha name (by simp [hargs, hname])) hload
      obtain ⟨i, hi, hw', ho⟩ := newArray_spec h
      refine ⟨is ++ [i], ?_, by simpa using hw.trans hw'⟩
      rw [ho]
      exact .newArray hk hargs his hi
    · cases h
  · rename_i hk
    obtain ⟨_, e₁, hload, h⟩ := bind_eq_ok.1 h
    obtain ⟨is, his, hw⟩ := load_spec hc hload
    obtain ⟨hw', ho⟩ := emit_plain h
    refine ⟨is ++ [.arrayLength], ?_, by simpa using hw.trans hw'⟩
    rw [ho]
    exact .arrayLength hk his
  · exact invoke_spec hc ha h

/-! ## Values -/

/-- The instructions of a value that is no comparison. -/
inductive Evaluates (c : ClassDef) (m : Method) :
    Option Text → IR.Instr → List Instr → Option Text → Prop
  | single {s s' : Option Text} {x : Operand} {is : List Instr} (h : Loads m s x is s') :
      Evaluates c m s (.single x) is s'
  | arith {s₁ s₂ s₃ : Option Text} {op : Op} {l r : Operand} {ty : Ty} {a : Arith}
      {is js : List Instr} (ho : Arith.ofOp? op = some a) (hl : Loads m s₁ l is s₂)
      (hr : Loads m s₂ r js s₃) :
      Evaluates c m s₁ (.binary op l r ty) (is ++ (js ++ [.arith a])) s₃
  | not {s s' : Option Text} {x : Operand} {ty : Ty} {is : List Instr} (h : Loads m s x is s') :
      Evaluates c m s (.unary .not x ty) (is ++ [.push 1, .arith .xor]) s'
  | neg {s s' : Option Text} {x : Operand} {ty : Ty} {is : List Instr} (h : Loads m s x is s') :
      Evaluates c m s (.unary .neg x ty) (is ++ [.neg]) s'
  | call {s s' : Option Text} {x : Call} {is : List Instr} (hv : x.ret.isVoid = false)
      (h : Calls c m x s is s') : Evaluates c m s (.call x) is s'
  | getStatic {s : Option Text} {field : FieldRef} {ty : Ty} :
      Evaluates c m s (.getField .missing field ty)
        [.getStatic (fieldName c .missing field.name) (descriptor c ty)] s
  | getField {s s' : Option Text} {object : Operand} {field : FieldRef} {ty : Ty} {is : List Instr}
      (h : Loads m s object is s') :
      Evaluates c m s (.getField object field ty)
        (is ++ [.getField (fieldName c object field.name) (descriptor c ty)]) s'

/-- The lines of a value, with the number of the next private label before and after them. -/
inductive Computes (c : ClassDef) (m : Method) :
    Option Text → Nat → IR.Instr → List Line → Option Text → Nat → Prop
  | plain {s s' : Option Text} {n : Nat} {x : IR.Instr} {is : List Instr}
      (h : Evaluates c m s x is s') : Computes c m s n x (is.map .instr) s' n
  | compare {s s' : Option Text} {n : Nat} {op : Op} {cond : Cond} {l r : Operand} {ty : Ty}
      {is : List Instr} {test : Text → Instr} (ho : Cond.ofOp? op = some cond)
      (h : Compares m op cond l r s is test s') :
      Computes c m s n (.binary op l r ty) (is.map .instr ++ answerLines test n) s' (n + 1)

/-- An instruction that a value is computed by writes no variable and has no other operands. -/
theorem Computes.defs?_eq_none_and {n n' : Nat} {x : IR.Instr} {ls : List Line}
    (h : Computes c m s n x ls s' n') : x.defs? = none ∧ x.operands = x.valueOperands := by
  cases h with
  | plain h => cases h <;> exact ⟨rfl, rfl⟩
  | compare _ _ => exact ⟨rfl, rfl⟩

theorem getField_spec {object : Operand} {field : FieldRef} (hn : ∀ name ∈ object.names, name ≠ "")
    (h : (getField c m object field ty).run e = .ok (u, e')) :
    ∃ is, Evaluates c m e.onStack (.getField object field ty) is e'.onStack ∧
      Writes e e' (is.map .instr) := by
  rw [getField] at h
  split at h
  · rename_i ho
    subst ho
    obtain ⟨hw, ho⟩ := emit_plain h
    refine ⟨[.getStatic (fieldName c .missing field.name) (descriptor c ty)], ?_, hw⟩
    rw [ho]
    exact .getStatic
  · obtain ⟨_, e₁, hload, hemit⟩ := bind_eq_ok.1 h
    obtain ⟨is, his, hw⟩ := load_spec hn hload
    obtain ⟨hw', ho⟩ := emit_plain hemit
    refine ⟨is ++ [.getField (fieldName c object field.name) (descriptor c ty)], ?_, ?_⟩
    · rw [ho]
      exact .getField his
    · simpa using hw.trans hw'

/-- A value that is no comparison takes no private label. -/
theorem value_spec_of_not_compare {x : IR.Instr} (hn : ∀ name ∈ x.names, name ≠ "")
    (hx : ∀ op l r ty, x = .binary op l r ty → Cond.ofOp? op = none)
    (h : (value c m x).run e = .ok (u, e')) :
    ∃ is, Evaluates c m e.onStack x is e'.onStack ∧ Writes e e' (is.map .instr) := by
  cases x with
  | single x =>
    obtain ⟨is, his, hw⟩ := load_spec hn h
    exact ⟨is, .single his, hw⟩
  | binary op l r ty =>
    rw [value, hx op l r ty rfl] at h
    simp only at h
    split at h
    · rename_i a ha
      obtain ⟨_, e₁, hl, h₁⟩ := bind_eq_ok.1 h
      obtain ⟨_, e₂, hr, hemit⟩ := bind_eq_ok.1 h₁
      obtain ⟨is, his, hw⟩ := load_spec (fun name hname ↦ hn name (by simp [IR.Instr.names, hname])) hl
      obtain ⟨js, hjs, hw'⟩ := load_spec
        (fun name hname ↦ hn name (by simp [IR.Instr.names, hname])) hr
      obtain ⟨hw'', ho⟩ := emit_plain hemit
      refine ⟨is ++ (js ++ [.arith a]), ?_, by simpa using hw.trans (hw'.trans hw'')⟩
      rw [ho]
      exact .arith ha his hjs
    · cases h
  | unary op x ty =>
    obtain ⟨_, e₁, hload, h₁⟩ := bind_eq_ok.1 h
    obtain ⟨is, his, hw⟩ := load_spec hn hload
    cases op with
    | not =>
      obtain ⟨_, e₂, hpush, hemit⟩ := bind_eq_ok.1 h₁
      obtain ⟨hw', ho⟩ := emit_plain hpush
      obtain ⟨hw'', ho'⟩ := emit_plain hemit
      refine ⟨is ++ [.push 1, .arith .xor], ?_, by simpa using hw.trans (hw'.trans hw'')⟩
      rw [ho', ho]
      exact .not his
    | neg =>
      obtain ⟨hw', ho⟩ := emit_plain h₁
      refine ⟨is ++ [.neg], ?_, by simpa using hw.trans hw'⟩
      rw [ho]
      exact .neg his
    | _ => cases h₁
  | call x =>
    rw [value] at h
    split at h
    · cases h
    · rename_i hv
      obtain ⟨is, his, hw⟩ := call_spec (List.forall_mem_append.1 hn).1
        (List.forall_mem_append.1 hn).2 h
      exact ⟨is, .call (Bool.eq_false_iff.2 hv) his, hw⟩
  | getField object field ty => exact getField_spec hn h
  | missing | assign _ _ _ | ret _ _ | branch _ _ | goto _ | putField _ _ _ => cases h

theorem value_spec {x : IR.Instr} (hn : ∀ name ∈ x.names, name ≠ "")
    (h : (value c m x).run e = .ok (u, e')) :
    ∃ ls, Computes c m e.onStack e.nextLabel x ls e'.onStack e'.nextLabel ∧ Appends e e' ls ∧
      e'.keep = e.keep := by
  by_cases hx : ∃ op l r ty cond, x = .binary op l r ty ∧ Cond.ofOp? op = some cond
  · obtain ⟨op, l, r, ty, cond, rfl, ho⟩ := hx
    rw [value, ho] at h
    obtain ⟨is, test, hc, ha, hk, hl⟩ := compare_spec
      (fun name hname ↦ hn name (by simp [IR.Instr.names, hname]))
      (fun name hname ↦ hn name (by simp [IR.Instr.names, hname])) h
    exact ⟨_, hl ▸ .compare ho hc, ha, hk⟩
  · have hx' : ∀ op l r ty, x = .binary op l r ty → Cond.ofOp? op = none := by
      intro op l r ty he
      cases ho : Cond.ofOp? op with
      | none => rfl
      | some cond => exact absurd ⟨op, l, r, ty, cond, he, ho⟩ hx
    obtain ⟨is, his, hw⟩ := value_spec_of_not_compare hn hx' h
    exact ⟨_, hw.nextLabel ▸ .plain his, hw.toAppends, hw.keep⟩

/-! ## Instructions -/

/-- The lines of an instruction that is to leave a temporary on the stack or not. -/
inductive Emits (c : ClassDef) (m : Method) (keep : Option Text) :
    Option Text → Nat → IR.Instr → List Line → Option Text → Nat → Prop
  | leave {s s' : Option Text} {n n' : Nat} {name : Text} {ty ty' : Ty} {rhs : IR.Instr}
      {ls : List Line} (hk : keep = some name) (h : Computes c m s n rhs ls s' n') :
      Emits c m keep s n (.assign (.var name ty) ty' rhs) ls (some name) n'
  | store {s s' : Option Text} {n n' : Nat} {name : Text} {ty ty' : Ty} {rhs : IR.Instr}
      {ls : List Line} {kind : Kind} {slot : Nat} (hk : keep ≠ some name)
      (h : Computes c m s n rhs ls s' n') (hs : HasSlot m name kind slot) :
      Emits c m keep s n (.assign (.var name ty) ty' rhs) (ls ++ [.instr (.store kind slot)]) s' n'
  | storeElem {s₁ s₂ s₃ : Option Text} {n n' : Nat} {base : Text} {index : Operand} {ty ty' : Ty}
      {rhs : IR.Instr} {is : List Instr} {ls : List Line} {kind : Kind} {slot : Nat}
      (hs : HasSlot m base kind slot) (hi : Loads m s₁ index is s₂)
      (h : Computes c m s₂ n rhs ls s₃ n') :
      Emits c m keep s₁ n (.assign (.elem base index ty) ty' rhs)
        (.instr (.load kind slot) :: (is.map .instr ++ (ls ++ [.instr (.arrayStore (.ofTy ty))])))
        s₃ n'
  | callVoid {s s' : Option Text} {n : Nat} {x : Call} {is : List Instr}
      (hv : x.ret.isVoid = true) (h : Calls c m x s is s') :
      Emits c m keep s n (.call x) (is.map .instr) s' n
  | callValue {s s' : Option Text} {n : Nat} {x : Call} {is : List Instr}
      (hv : x.ret.isVoid = false) (h : Calls c m x s is s') :
      Emits c m keep s n (.call x) (is.map .instr ++ [.instr .pop]) s' n
  | retVoid {s : Option Text} {n : Nat} {ty : Ty} :
      Emits c m keep s n (.ret .missing ty) [.instr .ret] s n
  | ret {s s' : Option Text} {n : Nat} {x : Operand} {ty : Ty} {is : List Instr}
      (h : Loads m s x is s') :
      Emits c m keep s n (.ret x ty) (is.map .instr ++ [.instr (.retValue (.ofTy ty))]) s' n
  | goto {s : Option Text} {n : Nat} {label : Text} :
      Emits c m keep s n (.goto label) [.instr (.goto label)] s n
  | branchCompare {s s' : Option Text} {n : Nat} {op : Op} {cond : Cond} {l r : Operand} {ty : Ty}
      {label : Text} {is : List Instr} {test : Text → Instr} (ho : Cond.ofOp? op = some cond)
      (h : Compares m op cond l r s is test s') :
      Emits c m keep s n (.branch (.binary op l r ty) label)
        (is.map .instr ++ [.instr (test label)]) s' n
  | branchNot {s s' : Option Text} {n : Nat} {x : Operand} {ty : Ty} {label : Text}
      {is : List Instr} (h : Loads m s x is s') :
      Emits c m keep s n (.branch (.unary .not x ty) label)
        (is.map .instr ++ [.instr (.ifZero .eq label)]) s' n
  | branch {s s' : Option Text} {n : Nat} {cond : IR.Instr} {label : Text} {is : List Instr}
      (h : Evaluates c m s cond is s') :
      Emits c m keep s n (.branch cond label) (is.map .instr ++ [.instr (.ifZero .ne label)]) s' n
  | putStatic {s s' : Option Text} {n : Nat} {field : FieldRef} {value : Operand} {is : List Instr}
      (h : Loads m s value is s') :
      Emits c m keep s n (.putField .missing field value) (is.map .instr ++
        [.instr (.putStatic (fieldName c .missing field.name) (descriptor c field.ty))]) s' n
  | putField {s₁ s₂ s₃ : Option Text} {n : Nat} {object : Operand} {field : FieldRef}
      {value : Operand} {is js : List Instr} (h : Loads m s₁ object is s₂)
      (h' : Loads m s₂ value js s₃) :
      Emits c m keep s₁ n (.putField object field value) ((is ++ js).map .instr ++
        [.instr (.putField (fieldName c object field.name) (descriptor c field.ty))]) s₃ n
  | discard {s s' : Option Text} {n n' : Nat} {x : IR.Instr} {ls : List Line}
      (hx : ∀ y, x ≠ .call y) (h : Computes c m s n x ls s' n') :
      Emits c m keep s n x (ls ++ [.instr .pop]) s' n'

theorem branch_spec {cond : IR.Instr} (hn : ∀ name ∈ cond.names, name ≠ "")
    (h : (branch c m cond label).run e = .ok (u, e')) :
    ∃ ls, Emits c m keep e.onStack e.nextLabel (.branch cond label) ls e'.onStack e'.nextLabel ∧
      Writes e e' ls := by
  have hother (hx : ∀ op l r ty, cond = .binary op l r ty → Cond.ofOp? op = none)
      (h : (do
        value c m cond
        jump m (.ifZero .ne label) label : EmitM Unit).run e = .ok (u, e')) :
      ∃ ls, Emits c m keep e.onStack e.nextLabel (.branch cond label) ls e'.onStack e'.nextLabel ∧
        Writes e e' ls := by
    obtain ⟨_, e₁, hvalue, hjump⟩ := bind_eq_ok.1 h
    obtain ⟨is, his, hw⟩ := value_spec_of_not_compare hn hx hvalue
    obtain ⟨hw', ho⟩ := jump_spec hjump rfl rfl
    refine ⟨_, ?_, hw.trans hw'⟩
    rw [ho, (hw.trans hw').nextLabel]
    exact .branch his
  unfold branch at h
  split at h
  · rename_i op l r ty
    split at h
    · rename_i test hc
      obtain ⟨is, test, hcmp, hw⟩ := branchCompare_spec
        (fun name hname ↦ hn name (by simp [IR.Instr.names, hname]))
        (fun name hname ↦ hn name (by simp [IR.Instr.names, hname])) h
      exact ⟨_, hw.nextLabel ▸ .branchCompare hc hcmp, hw⟩
    · rename_i hc
      refine hother ?_ h
      rintro op' l' r' ty' ⟨⟩
      exact hc
  · obtain ⟨_, e₁, hload, hjump⟩ := bind_eq_ok.1 h
    obtain ⟨is, his, hw⟩ := load_spec hn hload
    obtain ⟨hw', ho⟩ := jump_spec hjump rfl rfl
    refine ⟨_, ?_, hw.trans hw'⟩
    rw [ho, (hw.trans hw').nextLabel]
    exact .branchNot his
  · rename_i hb hu
    exact hother (fun op l r ty he ↦ absurd he (hb op l r ty)) h

theorem putField_spec {object : Operand} {field : FieldRef} {value : Operand}
    (ho : ∀ name ∈ object.names, name ≠ "") (hv : ∀ name ∈ value.names, name ≠ "")
    (h : (putField c m object field value).run e = .ok (u, e')) :
    ∃ ls, Emits c m keep e.onStack e.nextLabel (.putField object field value) ls e'.onStack
      e'.nextLabel ∧ Writes e e' ls := by
  rw [putField] at h
  split at h
  · rename_i hm
    subst hm
    obtain ⟨_, e₁, hload, hemit⟩ := bind_eq_ok.1 h
    obtain ⟨is, his, hw⟩ := load_spec hv hload
    obtain ⟨hw', ho⟩ := emit_plain hemit
    refine ⟨_, ?_, hw.trans hw'⟩
    rw [ho, (hw.trans hw').nextLabel]
    exact .putStatic his
  · obtain ⟨_, e₁, hload, h₁⟩ := bind_eq_ok.1 h
    obtain ⟨_, e₂, hload', hemit⟩ := bind_eq_ok.1 h₁
    obtain ⟨is, his, hw⟩ := load_spec ho hload
    obtain ⟨js, hjs, hw'⟩ := load_spec hv hload'
    obtain ⟨hw'', ho⟩ := emit_plain hemit
    have hw := hw.trans (hw'.trans hw'')
    rw [← List.append_assoc, ← List.map_append] at hw
    refine ⟨_, ?_, hw⟩
    rw [ho, hw.nextLabel]
    exact .putField his hjs

theorem assign_spec {dest : Operand} {rhs : IR.Instr} (hd : ∀ name ∈ dest.names, name ≠ "")
    (hr : ∀ name ∈ rhs.names, name ≠ "") (h : (assign c m dest rhs).run e = .ok (u, e')) :
    ∃ ls, Emits c m e.keep e.onStack e.nextLabel (.assign dest ty rhs) ls e'.onStack e'.nextLabel ∧
      Appends e e' ls ∧ (e'.keep = none ∨
        e'.keep = e.keep ∧ ∀ name ty, dest = .var name ty → e.keep ≠ some name) := by
  unfold assign at h
  split at h
  · rename_i name ty'
    have hname : name ≠ "" := hd name (by simp)
    obtain ⟨_, e₁, hvalue, h₁⟩ := bind_eq_ok.1 h
    obtain ⟨ls, hls, ha, hkeep⟩ := value_spec hr hvalue
    rw [run_get_bind] at h₁
    split at h₁
    · rename_i htop
      cases h₁
      have hk' : e.keep = some name := by
        rw [← hkeep]
        cases hs : e₁.keep with
        | none =>
          rw [hs] at htop
          exact absurd htop.symm hname
        | some t =>
          rw [hs] at htop
          rw [← htop, Option.getD_some]
      refine ⟨ls, ?_, ⟨ha.lines, ha.track, ha.slots_le, ha.slots_lt⟩, .inl rfl⟩
      simp only [named, if_neg hname]
      exact .leave hk' hls
    · rename_i htop
      obtain ⟨kind, slot, hslot, hw, ho⟩ := storeVar_spec h₁
      have hk' : e.keep ≠ some name := by
        intro hs
        rw [hkeep, hs, Option.getD_some] at htop
        exact htop rfl
      refine ⟨_, ?_, ha.trans hw.toAppends, .inr ⟨hw.keep.trans hkeep, ?_⟩⟩
      · rw [ho, hw.nextLabel]
        exact .store hk' hls hslot
      · rintro _ _ ⟨⟩
        exact hk'
  · rename_i base index ty'
    obtain ⟨_, e₁, hbase, h₁⟩ := bind_eq_ok.1 h
    obtain ⟨_, e₂, hindex, h₂⟩ := bind_eq_ok.1 h₁
    obtain ⟨_, e₃, hvalue, hemit⟩ := bind_eq_ok.1 h₂
    obtain ⟨kind, slot, hslot, hw₁, ho₁⟩ := loadVar_spec hbase
    obtain ⟨is, his, hw₂⟩ := load_spec
      (fun name hname ↦ hd name (by simp [hname])) hindex
    obtain ⟨ls, hls, ha, hkeep⟩ := value_spec hr hvalue
    obtain ⟨hw₄, ho₄⟩ := emit_plain hemit
    refine ⟨_, ?_, (hw₁.trans hw₂).toAppends.trans (ha.trans hw₄.toAppends), .inr ⟨?_, by simp⟩⟩
    · rw [ho₄, hw₄.nextLabel, List.singleton_append]
      rw [ho₁] at his
      rw [hw₂.nextLabel, hw₁.nextLabel] at hls
      exact .storeElem hslot his hls
    · rw [hw₄.keep, hkeep, hw₂.keep, hw₁.keep]
  · cases h

/-- An instruction after which nothing falls through. -/
theorem emit_last (h : (emit m i).run e = .ok (u, e')) (ht : i.target? = none)
    (hf : i.fallsThrough = false) (hs : i.slot? = none) :
    Writes e { e' with unreachable := true } [.instr i] ∧ e'.onStack = e.onStack := by
  obtain ⟨hd, rfl⟩ := emit_eq_ok h
  refine ⟨⟨⟨rfl, ?_, Nat.le_refl _, slots_lt_of_slot?_eq_none hs _⟩, rfl, rfl⟩, rfl⟩
  simp [Tracker.line, Tracker.instr, Tracker.after, Emitter.tracker, Emitter.put, Int.not_lt.2 hd,
    ht, hf]

theorem ret_spec {x : Operand} (hn : ∀ name ∈ x.names, name ≠ "")
    (h : (instr c m (.ret x ty)).run e = .ok (u, e')) :
    ∃ ls, Emits c m keep e.onStack e.nextLabel (.ret x ty) ls e'.onStack e'.nextLabel ∧
      Writes e e' ls := by
  rw [instr] at h
  by_cases hx : x = .missing
  · rw [if_pos hx] at h
    obtain ⟨_, e₁, hemit, h₁⟩ := bind_eq_ok.1 h
    cases h₁
    obtain ⟨hw, ho⟩ := emit_last hemit rfl rfl rfl
    refine ⟨[.instr .ret], ?_, hw⟩
    subst hx
    rw [ho, hw.nextLabel]
    exact .retVoid
  · rw [if_neg hx] at h
    obtain ⟨_, e₁, hload, h₁⟩ := bind_eq_ok.1 h
    obtain ⟨_, e₂, hemit, h₂⟩ := bind_eq_ok.1 h₁
    cases h₂
    obtain ⟨is, his, hw⟩ := load_spec hn hload
    obtain ⟨hw', ho⟩ := emit_last hemit rfl rfl rfl
    refine ⟨_, ?_, hw.trans hw'⟩
    rw [ho, (hw.trans hw').nextLabel]
    exact .ret his

/-- A value that is computed and thrown away. -/
theorem discard_spec {keep : Option Text} {x : IR.Instr} {u : Unit}
    (hn : ∀ name ∈ x.names, name ≠ "") (hx : ∀ y, x ≠ .call y)
    (h : (do
      value c m x
      emit m .pop : EmitM Unit).run e = .ok (u, e')) :
    ∃ ls, Emits c m keep e.onStack e.nextLabel x ls e'.onStack e'.nextLabel ∧ Appends e e' ls ∧
      e'.keep = e.keep := by
  obtain ⟨_, e₁, hvalue, hemit⟩ := bind_eq_ok.1 h
  obtain ⟨ls, hls, ha, hkeep⟩ := value_spec hn hvalue
  obtain ⟨hw, ho⟩ := emit_plain hemit
  refine ⟨_, ?_, ha.trans hw.toAppends, hw.keep.trans hkeep⟩
  rw [ho, hw.nextLabel]
  exact .discard hx hls

/-- What an instruction writes, and whether the plan to leave a temporary on the stack is over: it is
when the instruction assigns that temporary. -/
theorem instr_spec {x : IR.Instr} (hn : ∀ name ∈ x.names, name ≠ "")
    (h : (instr c m x).run e = .ok (u, e')) :
    ∃ ls, Emits c m e.keep e.onStack e.nextLabel x ls e'.onStack e'.nextLabel ∧
      Appends e e' ls ∧ (e'.keep = none ∨ e'.keep = e.keep ∧
        ∀ name ty ty' rhs, x = .assign (.var name ty) ty' rhs → e.keep ≠ some name) := by
  have hdiscard (hx : ∀ y, x ≠ .call y) (hx' : ∀ name ty ty' rhs, x ≠ .assign (.var name ty) ty' rhs)
      (h : (do
        value c m x
        emit m .pop : EmitM Unit).run e = .ok (u, e')) :
      ∃ ls, Emits c m e.keep e.onStack e.nextLabel x ls e'.onStack e'.nextLabel ∧
        Appends e e' ls ∧ (e'.keep = none ∨ e'.keep = e.keep ∧
          ∀ name ty ty' rhs, x = .assign (.var name ty) ty' rhs → e.keep ≠ some name) := by
    obtain ⟨ls, hls, ha, hkeep⟩ := discard_spec hn hx h
    exact ⟨ls, hls, ha, .inr ⟨hkeep, fun name ty ty' rhs he ↦ absurd he (hx' name ty ty' rhs)⟩⟩
  cases x with
  | assign dest ty rhs =>
    obtain ⟨ls, hls, ha, hkeep⟩ := assign_spec (List.forall_mem_append.1 hn).1
      (List.forall_mem_append.1 hn).2 h
    refine ⟨ls, hls, ha, hkeep.imp_right fun hk ↦ ⟨hk.1, ?_⟩⟩
    rintro name ty' _ _ ⟨⟩
    exact hk.2 name ty' rfl
  | call x =>
    obtain ⟨_, e₁, hcall, h₁⟩ := bind_eq_ok.1 h
    obtain ⟨is, his, hw⟩ := call_spec (List.forall_mem_append.1 hn).1
      (List.forall_mem_append.1 hn).2 hcall
    split at h₁
    · rename_i hv
      cases h₁
      exact ⟨_, hw.nextLabel ▸ .callVoid hv his, hw.toAppends, .inr ⟨hw.keep, by simp⟩⟩
    · rename_i hv
      obtain ⟨hw', ho⟩ := emit_plain h₁
      have hw'' := hw.trans hw'
      refine ⟨_, ?_, hw''.toAppends, .inr ⟨hw''.keep, by simp⟩⟩
      rw [ho, hw''.nextLabel]
      exact .callValue (Bool.eq_false_iff.2 hv) his
  | ret x ty =>
    obtain ⟨ls, hls, hw⟩ := ret_spec hn h
    exact ⟨ls, hls, hw.toAppends, .inr ⟨hw.keep, by simp⟩⟩
  | goto label =>
    obtain ⟨hw, ho⟩ := goto_spec h
    refine ⟨[.instr (.goto label)], ?_, hw.toAppends, .inr ⟨hw.keep, by simp⟩⟩
    rw [ho, hw.nextLabel]
    exact .goto
  | branch cond label =>
    have hcond : ∀ name ∈ cond.names, name ≠ "" := hn
    obtain ⟨ls, hls, hw⟩ := branch_spec hcond h
    exact ⟨ls, hls, hw.toAppends, .inr ⟨hw.keep, by simp⟩⟩
  | putField object field value =>
    obtain ⟨ls, hls, hw⟩ := putField_spec (List.forall_mem_append.1 hn).1
      (List.forall_mem_append.1 hn).2 h
    exact ⟨ls, hls, hw.toAppends, .inr ⟨hw.keep, by simp⟩⟩
  | missing => cases h
  | binary op l r ty => exact hdiscard (by simp) (by simp) h
  | unary op x ty => exact hdiscard (by simp) (by simp) h
  | single x => exact hdiscard (by simp) (by simp) h
  | getField object field ty => exact hdiscard (by simp) (by simp) h

/-! ## Methods -/

/-- The number of values that the emitter has left on the stack. -/
def left (s : Option Text) : Nat := if s.isSome then 1 else 0

/-- What the emitter does at the instruction of an index: it places the labels there, writes the
lines of the instruction, and finds nothing on the stack that should not be there. -/
structure EmitsAt (c : ClassDef) (m : Method) (keepAt : Nat → Option Text) (i : Nat)
    (x : IR.Instr) (e e' : Emitter) : Prop where
  emits : ∃ ls, Emits c m (keepAt i) e.onStack e.nextLabel x ls e'.onStack e'.nextLabel ∧
    Appends e e' ((m.labels.namesAt i).map .label ++ ls)
  consumed : ∀ name, e.onStack = some name → e'.onStack ≠ some name
  clean : e'.unreachable = true ∨ e'.depth = left e'.onStack

theorem forM_placeLabel_spec {labels : List Text} (h : (labels.forM (placeLabel m)).run e = .ok (u, e')) :
    Writes e e' (labels.map .label) ∧ e'.onStack = e.onStack := by
  induction labels generalizing e with
  | nil =>
    cases h
    exact ⟨.refl _, rfl⟩
  | cons label labels ih =>
    obtain ⟨_, e₁, hlabel, h₁⟩ := bind_eq_ok.1 h
    obtain ⟨hw, ho⟩ := placeLabel_spec hlabel
    obtain ⟨hw', ho'⟩ := ih h₁
    exact ⟨hw.trans hw', ho'.trans ho⟩

theorem within_eq_ok {α : Type} {place : String} {step : EmitM α} {a : α}
    (h : (EmitM.within place step).run e = .ok (a, e')) : step.run e = .ok (a, e') :=
  withinPlace_eq_ok.1 h

/-- The checks after the instruction at `i`; before it the temporary `before` was on the stack. -/
def checkStack (m : Method) (i : Nat) (before : Option Text) : EmitM Unit := do
  let e ← get
  match before with
  | some name => if e.onStack = some name then EmitM.defect (.leftOnStack m.name i name)
  | none => pure ()
  let expected := if e.onStack.isSome then 1 else 0
  if e.depth ≠ expected && !e.unreachable then
    EmitM.defect (.stackNotEmpty m.name i e.depth)

/-- An instruction with the checks that follow it. -/
theorem checked_spec {i : Nat} {x : IR.Instr} {place : String} {kept : Option Text} {u : Unit}
    (h : (do EmitM.within place (instr c m x); checkStack m i kept).run e = .ok (u, e')) :
    (instr c m x).run e = .ok ((), e') ∧ (∀ name, kept = some name → e'.onStack ≠ some name) ∧
      (e'.unreachable = true ∨ e'.depth = left e'.onStack) := by
  obtain ⟨_, e₁, hinstr, h₁⟩ := bind_eq_ok.1 h
  rw [checkStack, run_get_bind] at h₁
  let last : EmitM Unit :=
    if (decide (e₁.depth ≠ left e₁.onStack) && !e₁.unreachable) = true then
      EmitM.defect (.stackNotEmpty m.name i e₁.depth)
    else pure ()
  have hlast (h₂ : last.run e₁ = .ok (u, e')) :
      e' = e₁ ∧ (e₁.unreachable = true ∨ e₁.depth = left e₁.onStack) := by
    simp only [last] at h₂
    split at h₂
    · cases h₂
    · rename_i hd
      cases h₂
      refine ⟨rfl, ?_⟩
      simp only [Bool.and_eq_true, decide_eq_true_eq, Bool.not_eq_true', not_and,
        Bool.not_eq_false, ne_eq] at hd
      exact (Classical.em _).elim .inr fun hne ↦ .inl (hd hne)
  cases kept with
  | some name =>
    have h₂ : (if e₁.onStack = some name then
        EmitM.defect (.leftOnStack m.name i name) >>= fun _ ↦ last
      else last).run e₁ = .ok (u, e') := h₁
    split at h₂
    · cases h₂
    · rename_i hne
      obtain ⟨rfl, hclean⟩ := hlast h₂
      refine ⟨within_eq_ok hinstr, ?_, hclean⟩
      rintro _ ⟨⟩
      exact hne
  | none =>
    obtain ⟨rfl, hclean⟩ := hlast h₁
    exact ⟨within_eq_ok hinstr, by simp, hclean⟩

theorem emitAt_spec {i : Nat} {x : IR.Instr} (hn : ∀ name ∈ x.names, name ≠ "")
    (hk : ∀ name, keepAt i = some name → ∃ ty ty' rhs, x = .assign (.var name ty) ty' rhs)
    (hkeep : e.keep = none) (h : (emitAt c m keepAt i x).run e = .ok (u, e')) :
    EmitsAt c m keepAt i x e e' ∧ e'.keep = none := by
  rw [emitAt] at h
  obtain ⟨_, e₁, hlabels, h₁⟩ := bind_eq_ok.1 h
  obtain ⟨hw, ho⟩ := forM_placeLabel_spec (within_eq_ok hlabels)
  rw [run_get_bind] at h₁
  -- the instruction starts with the labels placed and its own result planned
  have hstart : (instr c m x).run { e₁ with keep := keepAt i } = .ok ((), e') ∧
      (∀ name, e₁.onStack = some name → e'.onStack ≠ some name) ∧
      (e'.unreachable = true ∨ e'.depth = left e'.onStack) := by
    cases hat : keepAt i with
    | none =>
      rw [hat] at h₁
      have hrun := checked_spec h₁
      rw [show e₁ = { e₁ with keep := none } by rw [← hkeep, ← hw.keep]] at hrun
      exact hrun
    | some name =>
      have hname : name ≠ "" := by
        obtain ⟨ty, ty', rhs, rfl⟩ := hk name hat
        exact hn name (by simp [IR.Instr.names])
      rw [hat] at h₁
      obtain ⟨_, e₂, hset, h₂⟩ := bind_eq_ok.1 h₁
      cases hset
      have hrun := checked_spec h₂
      simp only [named, if_neg hname] at hrun
      exact hrun
  obtain ⟨hinstr, hconsumed, hclean⟩ := hstart
  obtain ⟨ls, hls, ha, hplan⟩ := instr_spec hn hinstr
  have hk' : e'.keep = none := by
    rcases hplan with hnone | ⟨hsame, hother⟩
    · exact hnone
    · rw [hsame]
      refine Option.eq_none_iff_forall_ne_some.2 fun name hname ↦ ?_
      obtain ⟨ty, ty', rhs, rfl⟩ := hk name hname
      exact hother name ty ty' rhs rfl hname
  refine ⟨⟨⟨ls, ?_, ?_⟩, ?_, hclean⟩, hk'⟩
  · rw [← ho, ← hw.nextLabel]
    exact hls
  · exact hw.toAppends.trans ⟨ha.lines, ha.track, ha.slots_le, ha.slots_lt⟩
  · rwa [ho] at hconsumed

/-- The states of the emitter between the instructions of a list, which starts at index `k`. -/
theorem forM_emitAt_spec {xs : List IR.Instr} {k : Nat} (hn : ∀ x ∈ xs, ∀ name ∈ x.names, name ≠ "")
    (hk : ∀ i x, xs[i]? = some x → ∀ name, keepAt (k + i) = some name →
      ∃ ty ty' rhs, x = .assign (.var name ty) ty' rhs) (hkeep : e.keep = none)
    (h : ((xs.zipIdx k).forM fun (x, i) ↦ emitAt c m keepAt i x).run e = .ok (u, e')) :
    ∃ es : Nat → Emitter, es 0 = e ∧ es xs.length = e' ∧
      ∀ i x, xs[i]? = some x → EmitsAt c m keepAt (k + i) x (es i) (es (i + 1)) := by
  induction xs generalizing e k with
  | nil =>
    cases h
    exact ⟨fun _ ↦ e', rfl, rfl, by simp⟩
  | cons x xs ih =>
    obtain ⟨_, e₁, hx, h₁⟩ := bind_eq_ok.1 h
    obtain ⟨hat, hkeep₁⟩ := emitAt_spec (hn x (by simp)) (hk 0 x rfl) hkeep hx
    obtain ⟨es, h0, hlast, hes⟩ := ih (fun y hy ↦ hn y (by simp [hy]))
      (fun i y hy name hname ↦ hk (i + 1) y (by simpa using hy) name (by
        rwa [Nat.add_right_comm, Nat.add_assoc] at hname)) hkeep₁ h₁
    refine ⟨fun | 0 => e | i + 1 => es i, rfl, hlast, ?_⟩
    intro i y hy
    cases i with
    | zero =>
      cases hy
      simpa only [h0] using hat
    | succ i =>
      have := hes i y (by simpa using hy)
      rwa [Nat.add_right_comm, Nat.add_assoc] at this

/-- The states of the emitter between the instructions of a method. -/
theorem emitWith_spec (hn : ∀ x ∈ m.code, ∀ name ∈ x.names, name ≠ "")
    (hk : ∀ i name, keepAt i = some name →
      ∃ ty ty' rhs, m.code[i]? = some (.assign (.var name ty) ty' rhs)) (h : emitWith c m keepAt = .ok e) :
    targetPastEnd? m = none ∧ ∃ es : Nat → Emitter, es 0 = {} ∧ es m.code.length = e ∧
      ∀ i x, m.code[i]? = some x → EmitsAt c m keepAt i x (es i) (es (i + 1)) := by
  obtain ⟨⟨_, e₁⟩, hcode, h₁⟩ := Except.bind_eq_ok.1 h
  cases hend : targetPastEnd? m with
  | some label =>
    rw [hend] at h₁
    cases h₁
  | none =>
    rw [hend] at h₁
    cases h₁
    obtain ⟨es, h0, hlast, hes⟩ := forM_emitAt_spec hn
      (fun i x hx name hname ↦ by
        obtain ⟨ty, ty', rhs, he⟩ := hk i name (by rwa [Nat.zero_add] at hname)
        exact ⟨ty, ty', rhs, Option.some.inj (hx.symm.trans he)⟩) rfl hcode
    exact ⟨rfl, es, h0, hlast, fun i x hx ↦ by simpa using hes i x hx⟩

/-- What is known of a temporary that is left on the stack. -/
structure StaysOnStack (m : Method) (i : Nat) (name : Text) : Prop where
  assigned : ∃ ty ty' rhs, m.code[i]? = some (.assign (.var name ty) ty' rhs)
  read : ∃ next ty, m.code[i + 1]? = some next ∧ firstOperand next = .var name ty
  unlabelled : m.labels.namesAt (i + 1 : Nat) = []
  temp : isTemp m name = true
  useCount : useCount m name = 1
  defCount : defCount m name = 1

theorem stackTemp?_eq_some {i : Nat} (h : stackTemp? m i = some name) : StaysOnStack m i name := by
  rw [stackTemp?] at h
  split at h
  · rename_i name' ty ty' rhs next hx hnext
    split at h
    · rename_i first ty'' hfirst
      split at h
      · rename_i hcond
        cases h
        simp only [Bool.and_eq_true, List.isEmpty_iff, beq_iff_eq] at hcond
        obtain ⟨⟨⟨⟨hl, ht⟩, hu⟩, hd⟩, rfl⟩ := hcond
        exact ⟨⟨ty, ty', rhs, hx⟩, ⟨next, ty'', hnext, hfirst⟩, hl, ht, hu, hd⟩
      · cases h
    · cases h
  · cases h

/-! ## Classes -/

theorem assemble_spec {text : Text} (h : assemble c = .ok text) :
    ∃ es : List Emitter, Assembled c es text := by
  obtain ⟨texts, hmap, htext⟩ := Except.bind_eq_ok.1 h
  cases htext
  rw [Except.mapM_eq_ok] at hmap
  suffices hes : ∃ es : List Emitter, List.Forall₂ (fun m e ↦ emitMethod c m = .ok e) c.methods es ∧
      texts = List.zipWith (fun m e ↦ "\n" ++ methodText c m e) c.methods es by
    obtain ⟨es, hall, rfl⟩ := hes
    exact ⟨es, hall, (assembly_eq c es).symm⟩
  clear h
  generalize c.methods = ms at hmap
  induction hmap with
  | nil => exact ⟨[], .nil, rfl⟩
  | cons hm _ ih =>
    obtain ⟨e, he, htext⟩ := Except.bind_eq_ok.1 hm
    cases htext
    obtain ⟨es, hall, rfl⟩ := ih
    exact ⟨e :: es, .cons (withinPlace_eq_ok.1 he) hall, rfl⟩

end Jvm

end MiniJava
