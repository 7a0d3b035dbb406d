import MiniJava.Proofs.Tables
import MiniJava.Proofs.TwoRuns

/-!
# Emission in parallel

A method is emitted twice here, with different slots for its variables.  The two runs of the emitter go
side by side (`Parallel`): they stop with the same error, or they write lines that differ in slots only.
`NamedLine` is a line with the name of a variable in place of its slot, and `Stands` says which line it
stands for in a method; two runs that go side by side have written lines that the same named lines stand
for.

All that is asked of the slots is that a variable which the code touches has one in both methods or in
none.
-/

set_option autoImplicit false

namespace MiniJava

open IR

/-- The method with other registers. -/
abbrev IR.Method.withRegs (m : Method) (reg : Variable → Int) : Method :=
  { m with vars := m.vars.mapReg reg }

namespace Jvm

/-- A line with the name of a variable in place of its slot. -/
inductive NamedLine where
  | label (name : Text)
  | instr (i : Instr)
  | load (kind : Kind) (name : Text)
  | store (kind : Kind) (name : Text)
deriving DecidableEq, Repr

/-- The line that a named line stands for in a method. -/
inductive Stands (m : Method) : NamedLine → Line → Prop
  | label (name : Text) : Stands m (.label name) (.label name)
  | instr {i : Instr} (h : i.slot? = none) : Stands m (.instr i) (.instr i)
  | load {name : Text} {kind : Kind} {slot : Nat} (h : HasSlot m name kind slot) :
      Stands m (.load kind name) (.instr (.load kind slot))
  | store {name : Text} {kind : Kind} {slot : Nat} (h : HasSlot m name kind slot) :
      Stands m (.store kind name) (.instr (.store kind slot))

/-- Two states of the emitter that differ in slots only. -/
inductive Alike (m₁ m₂ : Method) : Emitter → Emitter → Prop
  | intro {e : Emitter} {lines : List Line} {slots : Nat} {ns : List NamedLine}
      (h₁ : List.Forall₂ (Stands m₁) ns e.lines) (h₂ : List.Forall₂ (Stands m₂) ns lines) :
      Alike m₁ m₂ e { e with lines, slots }

/-- One error, which is no jump past the end. -/
def SameFault (err err' : Error) : Prop := err' = err ∧ err.cause.isPastEnd = false

theorem SameFault.within {err err' : Error} (h : SameFault err err') (place : String) :
    SameFault (err.within place) (err'.within place) := ⟨congrArg _ h.1, h.2⟩

/-- Two steps of the emitter go side by side. -/
abbrev Parallel {α : Type} (m₁ m₂ : Method) (x y : EmitM α) : Prop :=
  Together SameFault (Alike m₁ m₂) (Alike m₁ m₂) x y

theorem throw_parallel {α : Type} {m₁ m₂ : Method} {err : Error} (h : err.cause.isPastEnd = false) :
    Parallel m₁ m₂ (throw err : EmitM α) (throw err) := .throw ⟨rfl, h⟩

/-- A check. -/
theorem check_parallel {m₁ m₂ : Method} (p : Prop) [Decidable p] {d : Defect}
    (h : (Cause.defect d).isPastEnd = false) :
    Parallel m₁ m₂ (if p then EmitM.defect d else pure ()) (if p then EmitM.defect d else pure ()) := by
  split
  · exact throw_parallel h
  · exact .pure ()

/-! ## Lines -/

section
variable {m : Method} {r₁ r₂ : Variable → Int} {c₁ c₂ : ClassDef}

/-- Two instructions that a named line stands for, and that take the depth along alike. -/
theorem emit_parallel_of_stands {n : NamedLine} {i₁ i₂ : Instr}
    (h₁ : Stands (m.withRegs r₁) n (.instr i₁)) (h₂ : Stands (m.withRegs r₂) n (.instr i₂))
    (heffect : i₁.effect = i₂.effect) :
    Parallel (m.withRegs r₁) (m.withRegs r₂) (emit (m.withRegs r₁) i₁) (emit (m.withRegs r₂) i₂) := by
  rintro e _ ⟨hl₁, hl₂⟩
  rw [emit_run, emit_run, ← heffect]
  by_cases hd : (e.depth : Int) + i₁.effect < 0
  · rw [if_pos hd, if_pos hd]
    exact .error ⟨rfl, rfl⟩
  · rw [if_neg hd, if_neg hd]
    refine .ok ⟨rfl, ?_⟩
    simp only [Emitter.put, ← heffect]
    exact .intro (List.rel_append hl₁ (.cons h₁ .nil)) (List.rel_append hl₂ (.cons h₂ .nil))

theorem emit_parallel {i : Instr} (h : i.slot? = none) :
    Parallel (m.withRegs r₁) (m.withRegs r₂) (emit (m.withRegs r₁) i) (emit (m.withRegs r₂) i) :=
  emit_parallel_of_stands (.instr h) (.instr h) rfl

theorem jump_parallel {i : Instr} {label : Text} (h : i.slot? = none) :
    Parallel (m.withRegs r₁) (m.withRegs r₂) (jump (m.withRegs r₁) i label)
      (jump (m.withRegs r₂) i label) := by
  refine (emit_parallel h).bind fun _ ↦ .get ?_
  rintro e _ ⟨hl₁, hl₂⟩
  cases e.labelDepths.lookup label with
  | some depth =>
    dsimp only
    exact check_parallel _ rfl
  | none =>
    dsimp only
    exact fun _ _ _ ↦ .ok ⟨rfl, .intro hl₁ hl₂⟩

theorem goto_parallel (label : Text) :
    Parallel (m.withRegs r₁) (m.withRegs r₂) (goto (m.withRegs r₁) label)
      (goto (m.withRegs r₂) label) := by
  refine .bind (jump_parallel rfl) fun _ ↦ .modify ?_
  rintro e _ ⟨hl₁, hl₂⟩
  exact .intro hl₁ hl₂

theorem placeLabel_parallel (label : Text) :
    Parallel (m.withRegs r₁) (m.withRegs r₂) (placeLabel (m.withRegs r₁) label)
      (placeLabel (m.withRegs r₂) label) := by
  refine .get ?_
  rintro e _ ⟨hl₁, hl₂⟩
  have h₁ := List.rel_append hl₁ (.cons (Stands.label label) .nil)
  have h₂ := List.rel_append hl₂ (.cons (Stands.label label) .nil)
  cases e.labelDepths.lookup label with
  | some depth =>
    dsimp only
    split
    · exact fun _ _ _ ↦ .ok ⟨rfl, .intro h₁ h₂⟩
    · split
      · exact throw_parallel rfl
      · exact fun _ _ _ ↦ .ok ⟨rfl, .intro h₁ h₂⟩
  | none =>
    dsimp only
    split
    · exact fun _ _ _ ↦ .ok ⟨rfl, .intro h₁ h₂⟩
    · exact fun _ _ _ ↦ .ok ⟨rfl, .intro h₁ h₂⟩

/-! ## Operands -/

/-- A variable has a slot in both methods or in none. -/
def Matches (m : Method) (r₁ r₂ : Variable → Int) (name : Text) : Prop :=
  ∀ x, m.vars.get? name = some x → (r₁ x < 0 ↔ r₂ x < 0)

theorem slotOf_run (m : Method) (name : Text) (e : Emitter) :
    (slotOf m name).run e = match m.vars.get? name with
      | none => .error (.defect (.undeclared m.name name))
      | some v =>
        if v.reg < 0 then .error (.defect (.noRegister m.name name))
        else .ok ((Kind.ofTy v.ty, v.reg.toNat), { e with slots := max e.slots (v.reg.toNat + 1) }) := by
  rw [slotOf]
  cases m.vars.get? name with
  | none => rfl
  | some v =>
    dsimp only
    split
    · rfl
    · rfl

variable {name : Text}

/-- Access to the slot of a variable, to load or to store it. -/
theorem access_parallel (h : Matches m r₁ r₂ name) {access : Kind → Nat → Instr}
    {line : Kind → Text → NamedLine} (hline : ∀ m kind slot, HasSlot m name kind slot →
      Stands m (line kind name) (.instr (access kind slot)))
    (heffect : ∀ kind slot slot', (access kind slot).effect = (access kind slot').effect) :
    Parallel (m.withRegs r₁) (m.withRegs r₂)
      (do
        let (kind, slot) ← slotOf (m.withRegs r₁) name
        emit (m.withRegs r₁) (access kind slot))
      (do
        let (kind, slot) ← slotOf (m.withRegs r₂) name
        emit (m.withRegs r₂) (access kind slot)) := by
  rintro e _ ⟨hl₁, hl₂⟩
  rw [StateT.run_bind, StateT.run_bind, slotOf_run, slotOf_run, VarTable.get?_mapReg,
    VarTable.get?_mapReg]
  cases hx : m.vars.get? name with
  | none => exact .error ⟨rfl, rfl⟩
  | some x =>
    dsimp only [Option.map_some]
    by_cases hr : r₁ x < 0
    · rw [if_pos hr, if_pos ((h x hx).1 hr)]
      exact .error ⟨rfl, rfl⟩
    · have hr' : ¬ r₂ x < 0 := fun hneg ↦ hr ((h x hx).2 hneg)
      rw [if_neg hr, if_neg hr']
      have hslot (reg : Variable → Int) (hreg : ¬ reg x < 0) :
          HasSlot (m.withRegs reg) name (Kind.ofTy x.ty) (reg x).toNat := by
        refine ⟨{ x with reg := reg x }, ?_, ?_, rfl⟩
        · rw [VarTable.get?_mapReg, hx, Option.map_some]
        · exact (Int.toNat_of_nonneg (Int.not_lt.1 hreg)).symm
      exact emit_parallel_of_stands (hline _ _ _ (hslot r₁ hr)) (hline _ _ _ (hslot r₂ hr'))
        (heffect _ _ _) _ _ (.intro hl₁ hl₂)

theorem loadVar_parallel (h : Matches m r₁ r₂ name) :
    Parallel (m.withRegs r₁) (m.withRegs r₂) (loadVar (m.withRegs r₁) name)
      (loadVar (m.withRegs r₂) name) :=
  access_parallel h (fun _ _ _ ↦ .load) fun _ _ _ ↦ rfl

theorem storeVar_parallel (h : Matches m r₁ r₂ name) :
    Parallel (m.withRegs r₁) (m.withRegs r₂) (storeVar (m.withRegs r₁) name)
      (storeVar (m.withRegs r₂) name) :=
  access_parallel h (fun _ _ _ ↦ .store) fun _ _ _ ↦ rfl

theorem load_var_parallel (h : Matches m r₁ r₂ name) (ty : Ty) :
    Parallel (m.withRegs r₁) (m.withRegs r₂) (load (m.withRegs r₁) (.var name ty))
      (load (m.withRegs r₂) (.var name ty)) := by
  refine .get ?_
  rintro e _ ⟨hl₁, hl₂⟩
  dsimp only
  split
  · exact fun _ _ _ ↦ .ok ⟨rfl, .intro hl₁ hl₂⟩
  · exact loadVar_parallel h

/-- The operands of a list touch variables that match only. -/
def AllMatch (m : Method) (r₁ r₂ : Variable → Int) (xs : List Operand) : Prop :=
  ∀ x ∈ xs, ∀ name ∈ x.names, Matches m r₁ r₂ name

theorem operands_parallel : OperandsPaired SameFault (m.withRegs r₁) (m.withRegs r₂) (Equiv.refl Text)
    (Equiv.refl Text) (Matches m r₁ r₂) fun _ _ ↦ Alike (m.withRegs r₁) (m.withRegs r₂) where
  name := rfl
  fails _ _ he := ⟨rfl, he⟩
  emit {i} _ _ hs _ := by
    rw [Instr.rename_refl]
    exact emit_parallel hs
  loadVar := loadVar_parallel
  var hn _ := load_var_parallel hn _

/-! ## Instructions -/

theorem freshLabels_parallel {m₁ m₂ : Method} : Parallel m₁ m₂ freshLabels freshLabels := by
  refine .get ?_
  rintro e _ ⟨hl₁, hl₂⟩
  exact fun _ _ _ ↦ .ok ⟨rfl, .intro hl₁ hl₂⟩

/-- Nothing falls through after a return. -/
theorem unreachable_parallel {m₁ m₂ : Method} :
    Parallel m₁ m₂ (modify fun e ↦ { e with unreachable := true })
      (modify fun e ↦ { e with unreachable := true }) := by
  refine .modify ?_
  rintro e _ ⟨hl₁, hl₂⟩
  exact .intro hl₁ hl₂

theorem code_parallel (hc : SameNames c₁ c₂) : CodePaired SameFault c₁ c₂ (m.withRegs r₁) (m.withRegs r₂)
    (Equiv.refl Text) (Equiv.refl Text) (Matches m r₁ r₂) (fun _ ↦ True)
    fun _ _ ↦ Alike (m.withRegs r₁) (m.withRegs r₂) where
  toOperandsPaired := operands_parallel
  names := hc
  jump {i} _ _ _ hs _ := by
    rw [Instr.rename_refl]
    exact jump_parallel hs
  stop := unreachable_parallel
  compare {op cond l r top h} hl hr ht := by
    refine freshLabels_parallel.bind fun labels ↦ ?_
    refine (operands_parallel.branchCompare (h := h) hl hr ht fun {_ i} hs _ ↦ ?_).bind fun _ ↦
      .bind (emit_parallel rfl) fun _ ↦ (goto_parallel labels.2).bind fun _ ↦
        (placeLabel_parallel labels.1).bind fun _ ↦ .bind (emit_parallel rfl) fun _ ↦
          placeLabel_parallel labels.2
    rw [Instr.rename_refl]
    exact jump_parallel hs

theorem assign_parallel (hc : SameNames c₁ c₂) {ty : Ty} {rhs : IR.Instr} (hname : Matches m r₁ r₂ name)
    (hrhs : AllMatch m r₁ r₂ rhs.valueOperands) :
    Parallel (m.withRegs r₁) (m.withRegs r₂) (assign c₁ (m.withRegs r₁) (.var name ty) rhs)
      (assign c₂ (m.withRegs r₂) (.var name ty) (rhs.rename (Equiv.refl Text) (Equiv.refl Text))) := by
  refine ((code_parallel hc).value (h := 0) hrhs (takesTop_none _)).bind fun _ ↦ .get ?_
  rintro e _ ⟨hl₁, hl₂⟩
  dsimp only
  split
  · exact fun _ _ _ ↦ .ok ⟨rfl, .intro hl₁ hl₂⟩
  · exact storeVar_parallel hname

theorem instr_parallel (hc : SameNames c₁ c₂) {x : IR.Instr} (h : AllMatch m r₁ r₂ x.operands) :
    Parallel (m.withRegs r₁) (m.withRegs r₂) (instr c₁ (m.withRegs r₁) x)
      (instr c₂ (m.withRegs r₂) x) := by
  have hinstr := (code_parallel hc).instr h (fun _ _ ↦ trivial) (takesTop_none _)
    (fun name ty ty' rhs hx ↦ ?_) (fun _ _ _ _ _ he ↦ he) fun _ _ _ he ↦ he
  · rwa [IR.Instr.rename_refl] at hinstr
  · subst hx
    obtain ⟨hdest, hrhs⟩ := List.forall_mem_cons.1 h
    exact assign_parallel hc (hdest name (by simp)) hrhs

/-! ## Methods -/

theorem checkStack_parallel (i : Nat) (before : Option Text) :
    Parallel (m.withRegs r₁) (m.withRegs r₂) (checkStack (m.withRegs r₁) i before)
      (checkStack (m.withRegs r₂) i before) := by
  refine .get ?_
  rintro e _ ⟨hl₁, hl₂⟩
  cases before with
  | none => exact check_parallel _ rfl
  | some name =>
    dsimp only
    split
    · exact throw_parallel rfl
    · exact check_parallel _ rfl

theorem emitAt_parallel (hc : SameNames c₁ c₂) {keepAt : Nat → Option Text} {i : Nat} {x : IR.Instr}
    (h : AllMatch m r₁ r₂ x.operands) :
    Parallel (m.withRegs r₁) (m.withRegs r₂) (emitAt c₁ (m.withRegs r₁) keepAt i x)
      (emitAt c₂ (m.withRegs r₂) keepAt i x) := by
  refine emitAt_together (fun _ _ _ h ↦ h.within _) (.forM fun label _ ↦ placeLabel_parallel label) ?_
    (instr_parallel hc h) ?_
  · cases keepAt i with
    | none => exact .pure ()
    | some name =>
      refine .modify ?_
      rintro e _ ⟨hl₁, hl₂⟩
      exact .intro hl₁ hl₂
  · rintro e _ ⟨-, -⟩
    exact checkStack_parallel i e.onStack

/-- Which temporaries stay on the stack does not depend on slots. -/
theorem stackTemp?_withRegs (m : Method) (reg : Variable → Int) :
    stackTemp? (m.withRegs reg) = stackTemp? m := by
  have htemp (name : Text) : isTemp (m.withRegs reg) name = isTemp m name := by
    rw [isTemp, isTemp, VarTable.get?_mapReg]
    cases m.vars.get? name with
    | none => rfl
    | some v => rfl
  funext i
  unfold stackTemp?
  simp only [htemp]
  rfl

theorem emitAll_parallel (hc : SameNames c₁ c₂) (h : ∀ x ∈ m.code, AllMatch m r₁ r₂ x.operands)
    (keepAt : Nat → Option Text) : Parallel (m.withRegs r₁) (m.withRegs r₂)
      (m.code.zipIdx.forM fun p ↦ emitAt c₁ (m.withRegs r₁) keepAt p.2 p.1)
      (m.code.zipIdx.forM fun p ↦ emitAt c₂ (m.withRegs r₂) keepAt p.2 p.1) :=
  .forM fun p hp ↦ emitAt_parallel hc (h p.1 (List.fst_mem_of_mem_zipIdx hp))

/-- **The lines of a method differ in slots only.** -/
theorem emitMethod_parallel (hc : SameNames c₁ c₂)
    (h : ∀ x ∈ m.code, AllMatch m r₁ r₂ x.operands) :
    SameOutcome (Alike (m.withRegs r₁) (m.withRegs r₂)) (emitMethod c₁ (m.withRegs r₁))
      (emitMethod c₂ (m.withRegs r₂)) := by
  rw [emitMethod, emitMethod, stackTemp?_withRegs, stackTemp?_withRegs, emitWith, emitWith]
  have hcode := emitAll_parallel hc h (stackTemp? m) {} {} (.intro .nil .nil)
  refine (hcode.sameOutcome fun _ _ hq ↦ hq.1).bind ?_
  rintro ⟨_, e₁⟩ ⟨_, e₂⟩ ⟨-, he⟩
  have hpast (reg : Variable → Int) : targetPastEnd? (m.withRegs reg) = targetPastEnd? m := rfl
  simp only [hpast]
  cases targetPastEnd? m with
  | some label => exact .error _
  | none => exact .ok he

/-- The emitter stops for a jump past the end only if a label there is jumped to. -/
theorem emitMethod_pastEnd {c : ClassDef} {err : Error} (h : emitMethod c m = .error err)
    {name label : Text} (hcause : err.cause = .defect (.branchPastEnd name label)) :
    name = m.name ∧ targetPastEnd? m = some label := by
  -- the method goes side by side with itself
  have hself : m.withRegs Variable.reg = m := by
    rw [IR.Method.withRegs, VarTable.mapReg_reg]
  have hnames : SameNames c c := ⟨rfl, rfl, rfl, rfl⟩
  have hmatch : ∀ x ∈ m.code, AllMatch m Variable.reg Variable.reg x.operands :=
    fun _ _ _ _ _ _ _ _ ↦ Iff.rfl
  have hcode := emitAll_parallel hnames hmatch (stackTemp? m) {} {} (.intro .nil .nil)
  rw [hself] at hcode
  rw [emitMethod, emitWith] at h
  rcases Except.bind_eq_error.1 h with hrun | ⟨⟨_, e⟩, -, hend⟩
  · obtain ⟨_, -, -, hpast⟩ := hcode.of_error hrun
    rw [hcause] at hpast
    cases hpast
  · cases hpast : targetPastEnd? m with
    | none =>
      rw [hpast] at hend
      cases hend
    | some label' =>
      rw [hpast] at hend
      cases hend
      cases hcause
      exact ⟨rfl, rfl⟩

end

end Jvm

end MiniJava
