import MiniJava.Proofs.EmissionSafety
import MiniJava.Proofs.ParallelEmission
import MiniJava.Proofs.StackDepth

/-!
# Emission with and without temporaries on the stack

A method is emitted twice here: once as the emitter does it, and once plainly, with every temporary
stored to its slot.  The two runs go together (`Together`): both stop, or both go on.

Between two steps they are either level or not.  In level states (`Level`) the lines of the plain run are
those of the other one with pairs of a store and a load put in, and nothing else differs.  Where the one
run has left a temporary on the stack, the plain run has stored it (`Ahead`); its stack is one lower until
the temporary is loaded, which only the plain run has a line for.  This happens at once, since each
instruction loads its first operand before it does anything else.

One lemma for each step of the emitter says that it goes from such states to level ones.  `firstOperand`
is used in all of them: it has to name the operand that the step really loads first.
-/

set_option autoImplicit false

namespace MiniJava

open IR

namespace Jvm

/-! ## Lines -/

/-- **Plain lines and the lines with pairs deleted**: the second list is the first one without some
adjacent pairs of a store to and a load from the slot of a temporary.  The temporaries are those of the
list, one after another. -/
inductive Peephole (m : Method) : List Text → List Line → List Line → Prop
  | nil : Peephole m [] [] []
  | line {ts : List Text} {ls ls' : List Line} (h : Peephole m ts ls ls') (l : Line) :
      Peephole m ts (ls ++ [l]) (ls' ++ [l])
  | pair {ts : List Text} {ls ls' : List Line} {name : Text} {kind : Kind} {slot : Nat}
      (h : Peephole m ts ls ls') (htemp : isTemp m name = true) (hslot : HasSlot m name kind slot) :
      Peephole m (ts ++ [name]) (ls ++ [.instr (.store kind slot), .instr (.load kind slot)]) ls'

/-! ## Two runs -/

/-- The error says that a temporary was left on the stack. -/
def IsLeftover (err : Error) : Prop :=
  ∃ method i name, err.cause = .defect (.leftOnStack method i name)

theorem not_isLeftover {err : Error} (h : err.cause.isLeftover = false) : ¬ IsLeftover err := by
  rintro ⟨method, i, name, hcause⟩
  rw [hcause] at h
  cases h

/-- Both runs stop, the first one not because a temporary was left on the stack. -/
def StopsToo (err _ : Error) : Prop := ¬ IsLeftover err

theorem Agree.not_isLeftover {α β : Type} {R : α → β → Prop} {x : Except Error α} {y : Except Error β}
    (h : Agree StopsToo R x y) {err : Error} (hx : x = .error err) : ¬ IsLeftover err := by
  obtain ⟨_, -, herr⟩ := h.of_error hx
  exact herr

/-! ## Level states and others -/

/-- The two runs have the same on the stack.  The first one may be told what to leave there. -/
inductive Level (m : Method) (ts : List Text) (keep : Option Text) : Emitter → Emitter → Prop
  | intro {e : Emitter} {lines : List Line} {slots : Nat} (hl : Peephole m ts lines e.lines)
      (hk : e.keep = keep) (ho : e.onStack = none) :
      Level m ts keep e { e with lines, slots, keep := none }

/-- The first run has the last temporary of the list on its stack, and the plain one has stored it. -/
inductive Ahead (m : Method) (ts : List Text) (keep : Option Text) (name : Text) :
    Emitter → Emitter → Prop
  | intro {e : Emitter} {lines : List Line} {slots depth : Nat} {before : List Text} {kind : Kind}
      {slot : Nat} (hts : ts = before ++ [name]) (hl : Peephole m before lines e.lines)
      (hk : e.keep = keep) (ho : e.onStack = some name) (hd : e.depth = depth + 1)
      (hm : e.depth ≤ e.maxDepth) (hname : name ≠ "") (htemp : isTemp m name = true)
      (hslot : HasSlot m name kind slot) :
      Ahead m ts keep name e
        { e with
          lines := lines ++ [.instr (.store kind slot)], slots, depth, keep := none, onStack := none }

/-- The two runs, by the temporary that is on the stack of the first one. -/
def SideBySide (m : Method) (ts : List Text) (keep : Option Text) : Option Text → Emitter → Emitter → Prop
  | none => Level m ts keep
  | some name => Ahead m ts keep name

section
variable {c : ClassDef} {m : Method} {ts : List Text} {k s : Option Text}

theorem SideBySide.onStack {e p : Emitter} (h : SideBySide m ts k s e p) :
    e.onStack = s ∧ p.onStack = none := by
  cases s with
  | none =>
    obtain ⟨-, -, ho⟩ := h
    exact ⟨ho, ho⟩
  | some name =>
    obtain ⟨-, -, -, ho, -, -, -, -, -⟩ := h
    exact ⟨ho, rfl⟩

/-- The first run can be told at any time what to leave on the stack. -/
theorem SideBySide.keeping {e p : Emitter} (h : SideBySide m ts k s e p) (keep : Option Text) :
    SideBySide m ts keep s { e with keep } p := by
  cases s with
  | none =>
    obtain ⟨hl, -, ho⟩ := h
    exact .intro (e := { e with keep }) hl rfl ho
  | some name =>
    obtain ⟨hts, hl, -, ho, hd, hm, hname, htemp, hslot⟩ := h
    exact .intro (e := { e with keep }) hts hl rfl ho hd hm hname htemp hslot

theorem emit_level (i : Instr) :
    Together StopsToo (Level m ts k) (Level m ts k) (emit m i) (emit m i) := by
  rintro e _ ⟨hl, hk, ho⟩
  rw [emit_run, emit_run]
  by_cases hd : (e.depth : Int) + i.effect < 0
  · rw [if_pos hd, if_pos hd]
    exact .error (not_isLeftover rfl)
  · rw [if_neg hd, if_neg hd]
    exact .ok ⟨rfl, .intro (hl.line _) hk ho⟩

theorem jump_level (i : Instr) (label : Text) :
    Together StopsToo (Level m ts k) (Level m ts k) (jump m i label) (jump m i label) := by
  refine (emit_level i).bind fun _ ↦ ?_
  rintro e _ ⟨hl, hk, ho⟩
  rw [EmitM.run_get_bind, EmitM.run_get_bind]
  cases e.labelDepths.lookup label with
  | some depth =>
    dsimp only
    split
    · exact .error (not_isLeftover rfl)
    · exact .ok ⟨rfl, .intro hl hk ho⟩
  | none => exact .ok ⟨rfl, .intro hl hk ho⟩

theorem goto_level (label : Text) :
    Together StopsToo (Level m ts k) (Level m ts k) (goto m label) (goto m label) := by
  refine (jump_level _ label).bind fun _ ↦ ?_
  rintro e _ ⟨hl, hk, ho⟩
  exact .ok ⟨rfl, .intro hl hk ho⟩

theorem placeLabel_level (label : Text) :
    Together StopsToo (Level m ts k) (Level m ts k) (placeLabel m label) (placeLabel m label) := by
  rintro e _ ⟨hl, hk, ho⟩
  rw [placeLabel, EmitM.run_get_bind, EmitM.run_get_bind]
  cases e.labelDepths.lookup label with
  | some depth =>
    dsimp only
    split
    · exact .ok ⟨rfl, .intro (hl.line _) hk ho⟩
    · split
      · exact .error (not_isLeftover rfl)
      · exact .ok ⟨rfl, .intro (hl.line _) hk ho⟩
  | none =>
    dsimp only
    split
    · exact .ok ⟨rfl, .intro (hl.line _) hk ho⟩
    · exact .ok ⟨rfl, .intro (hl.line _) hk ho⟩

/-! ## Operands -/

theorem slotOf_level (name : Text) :
    Together StopsToo (Level m ts k) (Level m ts k) (slotOf m name) (slotOf m name) := by
  rintro e _ ⟨hl, hk, ho⟩
  rw [slotOf_run, slotOf_run]
  cases m.vars.get? name with
  | none => exact .error (not_isLeftover rfl)
  | some v =>
    dsimp only
    split
    · exact .error (not_isLeftover rfl)
    · exact .ok ⟨rfl, .intro hl hk ho⟩

theorem loadVar_level (name : Text) :
    Together StopsToo (Level m ts k) (Level m ts k) (loadVar m name) (loadVar m name) :=
  (slotOf_level name).bind fun _ ↦ emit_level _

theorem storeVar_level (name : Text) :
    Together StopsToo (Level m ts k) (Level m ts k) (storeVar m name) (storeVar m name) :=
  (slotOf_level name).bind fun _ ↦ emit_level _

theorem load_var_level (name : Text) (ty : Ty) :
    Together StopsToo (Level m ts k) (Level m ts k) (load m (.var name ty)) (load m (.var name ty)) := by
  intro e p h
  obtain ⟨hl, hk, ho⟩ := h
  rw [load, EmitM.run_get_bind, EmitM.run_get_bind]
  dsimp only
  split
  · exact .ok ⟨rfl, .intro hl hk rfl⟩
  · exact loadVar_level name _ _ (.intro hl hk ho)

/-- The slot of a variable is found. -/
theorem slotOf_of_hasSlot {name : Text} {kind : Kind} {slot : Nat} (h : HasSlot m name kind slot)
    (e : Emitter) :
    (slotOf m name).run e = .ok ((kind, slot), { e with slots := max e.slots (slot + 1) }) := by
  obtain ⟨v, hv, hreg, rfl⟩ := h
  rw [slotOf_run, hv]
  dsimp only
  rw [if_neg (by omega), hreg, Int.toNat_natCast]

/-- **The temporary on the stack is loaded**: only the plain run has a line for it, and with it the pair
is complete. -/
theorem load_ahead {name : Text} (ty : Ty) :
    Together StopsToo (Ahead m ts k name) (Level m ts k) (load m (.var name ty)) (load m (.var name ty)) := by
  rintro e _ ⟨rfl, hl, hk, ho, hd, hm, hname, htemp, hslot⟩
  rename_i lines slots depth before kind slot
  rw [load, EmitM.run_get_bind, EmitM.run_get_bind, ho]
  dsimp only
  rw [if_pos (by simp), if_neg (by simpa using hname.symm), loadVar, StateT.run_bind,
    slotOf_of_hasSlot hslot]
  show Agree _ _ _ ((emit m (.load kind slot)).run _)
  rw [emit_run, if_neg (by simp only [Instr.effect]; omega)]
  have hpair : lines ++ [.instr (.store kind slot)] ++ [.instr (.load kind slot)] =
      lines ++ [.instr (.store kind slot), .instr (.load kind slot)] := by simp
  have hdepth : ((depth : Int) + (Instr.load kind slot).effect).toNat = e.depth := by
    simp only [Instr.effect]
    omega
  refine .ok ⟨rfl, ?_⟩
  simp only [Emitter.put, hpair, hdepth, Nat.max_eq_left hm]
  exact .intro (e := { e with onStack := none }) (hl.pair htemp hslot) hk rfl

theorem operands_beside : OperandsPaired StopsToo m m (Equiv.refl Text) (Equiv.refl Text) (fun _ ↦ True)
    fun s _ ↦ SideBySide m ts k s where
  name := rfl
  fails _ hl _ := not_isLeftover hl
  emit {i} _ _ _ _ := by
    rw [Instr.rename_refl]
    exact emit_level i
  loadVar _ := loadVar_level _
  var {name ty s} _ _ hx := by
    cases s with
    | none => exact load_var_level name ty
    | some name' =>
      obtain ⟨_, heq⟩ := hx name' rfl
      cases heq
      exact load_ahead ty

/-! ## Instructions -/

/-- Private labels are taken in both runs alike. -/
theorem freshLabels_beside :
    Together StopsToo (SideBySide m ts k s) (SideBySide m ts k s) freshLabels freshLabels := by
  intro e p h
  cases s with
  | none =>
    obtain ⟨hl, hk, ho⟩ := h
    exact .ok ⟨rfl, .intro hl hk ho⟩
  | some name =>
    obtain ⟨hts, hl, hk, ho, hd, hm, hname, htemp, hslot⟩ := h
    exact .ok ⟨rfl, .intro hts hl hk ho hd hm hname htemp hslot⟩

theorem stop_level : Together StopsToo (Level m ts k) (Level m ts k)
    (modify fun e ↦ { e with unreachable := true } : EmitM Unit)
    (modify fun e ↦ { e with unreachable := true }) := by
  rintro e _ ⟨hl, hk, ho⟩
  exact .ok ⟨rfl, .intro hl hk ho⟩

theorem code_beside (c : ClassDef) (m : Method) (ts : List Text) (k : Option Text) :
    CodePaired StopsToo c c m m (Equiv.refl Text) (Equiv.refl Text) (fun _ ↦ True) (fun _ ↦ True)
      fun s _ ↦ SideBySide m ts k s where
  toOperandsPaired := operands_beside
  names := ⟨rfl, rfl, rfl, rfl⟩
  jump {i} _ _ _ _ _ := by
    rw [Instr.rename_refl]
    exact jump_level i _
  stop := stop_level
  compare {op cond l r s h} hl hr hx := by
    refine freshLabels_beside.bind fun labels ↦ ?_
    refine (operands_beside.branchCompare (h := h) hl hr hx fun {_ i} _ _ ↦ ?_).bind fun _ ↦
      (emit_level _).bind fun _ ↦ (goto_level labels.2).bind fun _ ↦
        (placeLabel_level labels.1).bind fun _ ↦ (emit_level _).bind fun _ ↦ placeLabel_level labels.2
    rw [Instr.rename_refl]
    exact jump_level i _

end

end Jvm

end MiniJava
