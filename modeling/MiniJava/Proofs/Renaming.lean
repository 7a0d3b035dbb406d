import Mathlib.Algebra.Group.End
import Mathlib.Logic.Equiv.Fintype
import Mathlib.Logic.Relator
import MiniJava.Jvm.Fusion
import MiniJava.Proofs.Emission
import MiniJava.Proofs.Tables

/-!
# Renaming variables and labels

A method with other names is a method again.  `Method.rename f g` replaces the names of variables by `f`
and those of labels by `g`; both are permutations of all names, so that no two names become one.  The
parameters keep their names, as do the fields, methods and classes that instructions mention.

What can be read off a method is renamed along with it: the variables that an instruction reads and writes,
the place of a label, and which temporaries can stay on the stack (`stackTemp?_rename`).  Only the order
of the labels at one index changes, since it is that of their names (`namesAt_rename`).

`exists_perm` finds a permutation between names that belong together one to one.
-/

set_option autoImplicit false

namespace MiniJava

/-- **Finitely many elements with partners of their own** are taken to them by a permutation, which moves
nothing that is outside of `P`. -/
theorem exists_perm {α : Type} {P : α → Prop} {R : α → α → Prop} (hR : Relator.BiUnique R)
    (hP : ∀ a b, R a b → P a ∧ P b) {xs : Set α} (hx : xs.Finite) (h : ∀ a ∈ xs, ∃ b, R a b) :
    ∃ σ : Equiv.Perm α, (∀ a ∈ xs, R a (σ a)) ∧ ∀ a, ¬ P a → σ a = a := by
  classical
  have : Finite xs := hx.to_subtype
  choose partner hpartner using fun a : xs ↦ h a a.2
  have hinj {a b : xs} (hab : partner a = partner b) : a = b :=
    Subtype.ext (hR.1 (hpartner a) (hab ▸ hpartner b))
  obtain ⟨σ, hσ⟩ := Equiv.Perm.exists_extending_pair
    (fun a : xs ↦ (⟨a, (hP _ _ (hpartner a)).1⟩ : { a // P a }))
    (fun a ↦ ⟨partner a, (hP _ _ (hpartner a)).2⟩)
    (fun _ _ hab ↦ Subtype.ext (Subtype.mk.inj hab)) fun _ _ hab ↦ hinj (Subtype.mk.inj hab)
  refine ⟨Equiv.Perm.ofSubtype σ, fun a ha ↦ ?_, fun a ha ↦ ?_⟩
  · rw [Equiv.Perm.ofSubtype_apply_of_mem σ (hP _ _ (hpartner ⟨a, ha⟩)).1, hσ ⟨a, ha⟩]
    exact hpartner ⟨a, ha⟩
  · exact Equiv.Perm.ofSubtype_apply_of_not_mem σ ha

theorem beq_perm (f : Equiv.Perm Text) (a b : Text) : (f a == f b) = (a == b) := by
  rw [Bool.eq_iff_iff, beq_iff_eq, beq_iff_eq, f.injective.eq_iff]

theorem lookup_map_perm {β : Type} (f : Equiv.Perm Text) (xs : List (Text × β)) (name : Text) :
    (xs.map fun x ↦ (f x.1, x.2)).lookup (f name) = xs.lookup name := by
  induction xs with
  | nil => rfl
  | cons x xs ih =>
    rw [List.map_cons, List.lookup_cons, List.lookup_cons, beq_perm, ih]

theorem idxOf?_map_perm (f : Equiv.Perm Text) (xs : List Text) (name : Text) :
    (xs.map f).idxOf? (f name) = xs.idxOf? name := by
  induction xs with
  | nil => rfl
  | cons x xs ih =>
    rw [List.map_cons, List.idxOf?_cons, List.idxOf?_cons, beq_perm, ih]

namespace IR

/-! ## Code -/

/-- The operand with other names. -/
def Operand.rename (f : Equiv.Perm Text) : Operand → Operand
  | missing => missing
  | literal text ty => literal text ty
  | var name ty => var (f name) ty
  | elem base index ty => elem (f base) (index.rename f) ty

/-- The call with other names for its operands. -/
def Call.rename (f : Equiv.Perm Text) (c : Call) : Call :=
  { c with caller := c.caller.rename f, args := c.args.map (Operand.rename f) }

/-- The instruction with other names for variables, by `f`, and for labels, by `g`. -/
def Instr.rename (f g : Equiv.Perm Text) : Instr → Instr
  | missing => missing
  | assign dest ty value => assign (dest.rename f) ty (value.rename f g)
  | call c => call (c.rename f)
  | binary op l r ty => binary op (l.rename f) (r.rename f) ty
  | unary op x ty => unary op (x.rename f) ty
  | single x => single (x.rename f)
  | ret x ty => ret (x.rename f) ty
  | branch cond label => branch (cond.rename f g) (g label)
  | goto label => goto (g label)
  | putField object field value => putField (object.rename f) field (value.rename f)
  | getField object field ty => getField (object.rename f) field ty

section
variable (f g : Equiv.Perm Text)

@[simp] theorem Operand.ty_rename (x : Operand) : (x.rename f).ty = x.ty := by
  cases x <;> rfl

@[simp] theorem Operand.rename_eq_missing {x : Operand} : x.rename f = .missing ↔ x = .missing := by
  cases x <;> simp [rename]

@[simp] theorem Operand.rename_refl (x : Operand) : x.rename (Equiv.refl Text) = x := by
  induction x with
  | elem base index ty ih => rw [rename, ih, Equiv.refl_apply]
  | missing | literal _ _ | var _ _ => rfl

@[simp] theorem Instr.rename_refl (x : Instr) : x.rename (Equiv.refl Text) (Equiv.refl Text) = x := by
  induction x with
  | assign dest ty value ih => rw [rename, ih, Operand.rename_refl]
  | branch cond label ih => rw [rename, ih, Equiv.refl_apply]
  | call c =>
    have hargs : c.args.map (Operand.rename (Equiv.refl Text)) = c.args :=
      List.map_id'' Operand.rename_refl c.args
    rw [rename, Call.rename, hargs, Operand.rename_refl]
  | missing | binary _ _ _ _ | unary _ _ _ | single _ | ret _ _ | goto _ | putField _ _ _
  | getField _ _ _ => simp [rename]

theorem Operand.uses_rename (x : Operand) : (x.rename f).uses = x.uses.map f := by
  cases x with
  | elem base index ty => cases index <;> rfl
  | missing | literal _ _ | var _ _ => rfl

theorem Instr.uses_rename (x : Instr) : (x.rename f g).uses = x.uses.map f := by
  induction x with
  | missing | goto _ => rfl
  | assign dest ty value ih =>
    cases dest with
    | elem base index ty' =>
      have hdest := Operand.uses_rename f (.elem base index ty')
      rw [Operand.rename] at hdest
      simp only [rename, Operand.rename, uses, hdest, ih, List.map_append]
    | missing | literal _ _ | var _ _ => exact ih
  | call c =>
    simp [rename, Call.rename, uses, Operand.uses_rename, List.flatMap_map, List.map_flatMap]
  | binary op l r ty => simp [rename, uses, Operand.uses_rename]
  | unary op x ty | single x | ret x ty => exact Operand.uses_rename f x
  | branch cond label ih => exact ih
  | putField object field value => simp [rename, uses, Operand.uses_rename]
  | getField object field ty => exact Operand.uses_rename f object

theorem Instr.defs?_rename (x : Instr) : (x.rename f g).defs? = x.defs?.map f := by
  cases x with
  | assign dest ty value => cases dest <;> rfl
  | _ => rfl

theorem Instr.target?_rename (x : Instr) : (x.rename f g).target? = x.target?.map g := by
  cases x <;> rfl

end

/-! ## Tables -/

/-- The variable with another name. -/
def Variable.rename (f : Equiv.Perm Text) (v : Variable) : Variable := { v with name := f v.name }

/-- The table with other names, in the same order. -/
def VarTable.rename (f : Equiv.Perm Text) (t : VarTable) : VarTable :=
  ⟨t.vars.map (Variable.rename f), by
    have hnames : (t.vars.map (Variable.rename f)).map Variable.name =
        (t.vars.map Variable.name).map f := by
      rw [List.map_map, List.map_map]
      rfl
    rw [hnames]
    exact t.nodup.map f.injective⟩

/-- The labels with other names, each at its index. -/
def Labels.rename (g : Equiv.Perm Text) (ls : Labels) : Labels :=
  ⟨ls.entries.map fun e ↦ (g e.1, e.2), by
    have hnames : (ls.entries.map fun e ↦ (g e.1, e.2)).map Prod.fst =
        (ls.entries.map Prod.fst).map g := by
      rw [List.map_map, List.map_map]
      rfl
    rw [hnames]
    exact ls.nodup.map g.injective⟩

theorem VarTable.eq_of_vars {t t' : VarTable} (h : t.vars = t'.vars) : t = t' := by
  cases t
  cases t'
  cases h
  rfl

theorem Labels.eq_of_entries {ls ls' : Labels} (h : ls.entries = ls'.entries) : ls = ls' := by
  cases ls
  cases ls'
  cases h
  rfl

section
variable (f g : Equiv.Perm Text)

theorem VarTable.names_rename (t : VarTable) :
    (t.rename f).vars.map Variable.name = (t.vars.map Variable.name).map f := by
  rw [VarTable.rename, List.map_map, List.map_map]
  rfl

theorem VarTable.get?_rename (t : VarTable) (name : Text) :
    (t.rename f).get? (f name) = (t.get? name).map (Variable.rename f) := by
  rw [get?, get?, VarTable.rename, List.find?_map]
  congr 2
  funext v
  exact beq_perm f v.name name

theorem VarTable.mapReg_rename (t : VarTable) {reg reg' : Variable → Int}
    (h : ∀ v ∈ t.vars, reg' (v.rename f) = reg v) :
    (t.rename f).mapReg reg' = (t.mapReg reg).rename f := by
  simp only [mapReg, VarTable.rename, List.map_map, VarTable.mk.injEq]
  exact List.map_congr_left fun v hv ↦ by simp [Variable.rename, ← h v hv]

theorem VarTable.setReg_rename (t : VarTable) (name : Text) (reg : Int) :
    (t.rename f).setReg (f name) reg = (t.setReg name reg).rename f := by
  refine mapReg_rename f t fun v _ ↦ ?_
  simp [Variable.rename, f.injective.eq_iff]

theorem Labels.get?_rename (ls : Labels) (label : Text) :
    (ls.rename g).get? (g label) = ls.get? label :=
  lookup_map_perm g ls.entries label

/-- The labels at an index are the same but for their order. -/
theorem Labels.namesAt_rename (ls : Labels) (index : Int) :
    ((ls.rename g).namesAt index).Perm ((ls.namesAt index).map g) := by
  have hnames : ((ls.rename g).entries.filter fun e ↦ e.2 == index).map Prod.fst =
      ((ls.entries.filter fun e ↦ e.2 == index).map Prod.fst).map g := by
    rw [Labels.rename, List.filter_map, List.map_map, List.map_map]
    rfl
  rw [namesAt, namesAt, hnames]
  exact (List.mergeSort_perm _ _).trans ((List.mergeSort_perm _ _).map g).symm

end

/-! ## Methods -/

/-- **The method with other names** for variables, by `f`, and for labels, by `g`. -/
def Method.rename (f g : Equiv.Perm Text) (m : Method) : Method :=
  { m with
    code := m.code.map (Instr.rename f g)
    labels := m.labels.rename g
    vars := m.vars.rename f }

theorem Method.target?_rename (f g : Equiv.Perm Text) (m : Method) (label : Text) :
    (m.rename f g).target? (g label) = m.target? label :=
  Labels.get?_rename g m.labels label

theorem Method.zipIdx_rename (f g : Equiv.Perm Text) (m : Method) :
    (m.rename f g).code.zipIdx = m.code.zipIdx.map fun p ↦ (p.1.rename f g, p.2) := by
  rw [Method.rename, List.zipIdx_map]
  rfl

end IR

open IR

namespace Jvm

/-- The instruction with another name for the label it may jump to. -/
def Instr.rename (g : Equiv.Perm Text) : Instr → Instr
  | ifZero cond label => ifZero cond (g label)
  | ifCompare cond label => ifCompare cond (g label)
  | goto label => goto (g label)
  | i => i

theorem Instr.rename_refl (i : Instr) : i.rename (Equiv.refl Text) = i := by
  cases i <;> rfl

theorem Instr.effect_rename (g : Equiv.Perm Text) (i : Instr) : (i.rename g).effect = i.effect := by
  cases i <;> rfl

/-! ## Temporaries on the stack -/

section
variable (f g : Equiv.Perm Text)

theorem isZero_rename (x : Operand) : isZero (x.rename f) = isZero x := by
  cases x <;> rfl

theorem firstOperand_rename (x : IR.Instr) :
    firstOperand (x.rename f g) = (firstOperand x).rename f := by
  induction x with
  | missing | goto _ => rfl
  | assign dest ty value ih =>
    cases dest with
    | var name ty' => exact ih
    | missing | literal _ _ | elem _ _ _ => rfl
  | call c =>
    simp only [IR.Instr.rename, firstOperand, Call.rename]
    split
    · rfl
    · cases c.args <;> rfl
    · cases c.args <;> rfl
    · rfl
  | binary op l r ty =>
    simp only [IR.Instr.rename, firstOperand, isZero_rename]
    split <;> rfl
  | unary op x ty | ret x ty => rfl
  | single x => cases x <;> rfl
  | branch cond label ih => exact ih
  | putField object field value => cases object <;> rfl
  | getField object field ty => rfl

theorem isTemp_rename (m : Method) (name : Text) :
    isTemp (m.rename f g) (f name) = isTemp m name := by
  have hget : (m.rename f g).vars.get? (f name) = _ := VarTable.get?_rename f m.vars name
  rw [isTemp, isTemp, hget]
  cases m.vars.get? name <;> rfl

theorem useCount_rename (m : Method) (name : Text) :
    useCount (m.rename f g) (f name) = useCount m name := by
  have huses : (m.rename f g).code.flatMap IR.Instr.uses = (m.code.flatMap IR.Instr.uses).map f := by
    simp [Method.rename, List.flatMap_map, List.map_flatMap, IR.Instr.uses_rename]
  rw [useCount, huses, List.count_map_of_injective _ f f.injective]
  rfl

theorem defCount_rename (m : Method) (name : Text) :
    defCount (m.rename f g) (f name) = defCount m name := by
  have hdefs : (m.rename f g).code.filterMap IR.Instr.defs? = (m.code.filterMap IR.Instr.defs?).map f := by
    simp [Method.rename, List.filterMap_map, List.map_filterMap, IR.Instr.defs?_rename]
  rw [defCount, hdefs, List.count_map_of_injective _ f f.injective]
  rfl

theorem namesAt_isEmpty_rename (m : Method) (i : Int) :
    ((m.rename f g).labels.namesAt i).isEmpty = (m.labels.namesAt i).isEmpty := by
  have hlen : ((m.rename f g).labels.namesAt i).length = _ :=
    (Labels.namesAt_rename g m.labels i).length_eq
  rw [List.length_map] at hlen
  rw [Bool.eq_iff_iff, List.isEmpty_iff_length_eq_zero, List.isEmpty_iff_length_eq_zero, hlen]

/-- **The same temporaries stay on the stack**, by their new names. -/
theorem stackTemp?_rename (m : Method) (i : Nat) :
    stackTemp? (m.rename f g) i = (stackTemp? m i).map f := by
  have hcode (k : Nat) : (m.rename f g).code[k]? = m.code[k]?.map (IR.Instr.rename f g) :=
    List.getElem?_map
  rw [stackTemp?, stackTemp?, hcode, hcode]
  cases m.code[i]? with
  | none => rfl
  | some x =>
    cases x with
    | assign dest ty value =>
      cases dest with
      | var name ty' =>
        cases m.code[i + 1]? with
        | none => rfl
        | some next =>
          simp only [Option.map_some, IR.Instr.rename, Operand.rename, firstOperand_rename]
          cases firstOperand next with
          | var first ty'' =>
            simp only [Operand.rename, isTemp_rename, useCount_rename, defCount_rename, beq_perm,
              namesAt_isEmpty_rename]
            split <;> rfl
          | missing | literal _ _ | elem _ _ _ => rfl
      | missing | literal _ _ | elem _ _ _ => rfl
    | _ => rfl

end

end Jvm

end MiniJava
