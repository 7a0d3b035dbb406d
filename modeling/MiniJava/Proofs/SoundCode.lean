import MiniJava.Lowering.Expr
import MiniJava.Proofs.ClosedFragments
import MiniJava.Proofs.Tables

/-!
# Sound code

What lowering makes of a program has a narrow form.  `SoundInstr` says which instructions there are, with
their operands: simple ones, which are literals or variables of the table, and elements of arrays of the
table at simple indices.

Variables are only ever added to the table (`AddsTemps`), so what is known of them stays known while more
is lowered.

A local may have the name of the receiver.  The table has the receiver under this name and not the local,
so the types of operands are those of the table only if there is no such local.
-/

set_option autoImplicit false

namespace MiniJava

open IR

/-! ## Variables -/

/-- A local of an instance method has the name of the receiver. -/
def Scope.ShadowsReceiver (t : Scope) : Prop :=
  t.sig.isStatic = false ∧ ∃ l ∈ t.sig.locals, l.name = Method.receiver

/-- A variable of the table, with its type unless a local has the name of the receiver. -/
def Knows (t : Scope) (vars : VarTable) (name : Text) (ty : Ty) : Prop :=
  ∃ v, vars.get? name = some v ∧ (v.ty = ty ∨ t.ShadowsReceiver)

/-- A temporary as a variable. -/
def tempVar (n : Nat) (ty : Ty) : Variable := { name := Fresh.tempName n, ty, kind := .temp }

/-- Nothing but temporaries is added to the table. -/
def AddsTemps (vars vars' : VarTable) : Prop :=
  ∃ temps, vars'.vars = vars.vars ++ temps ∧ ∀ v ∈ temps, ∃ n ty, v = tempVar n ty

section
variable {vars vars' vars'' : VarTable}

theorem AddsTemps.refl (vars : VarTable) : AddsTemps vars vars := ⟨[], by simp, by simp⟩

theorem AddsTemps.trans (h : AddsTemps vars vars') (h' : AddsTemps vars' vars'') :
    AddsTemps vars vars'' := by
  obtain ⟨temps, hvars, htemps⟩ := h
  obtain ⟨temps', hvars', htemps'⟩ := h'
  refine ⟨temps ++ temps', by rw [hvars', hvars, List.append_assoc], fun v hv ↦ ?_⟩
  exact (List.mem_append.1 hv).elim (htemps v) (htemps' v)

theorem AddsTemps.get? (ha : AddsTemps vars vars') {name : Text} {v : Variable}
    (hv : vars.get? name = some v) : vars'.get? name = some v := by
  obtain ⟨temps, hvars, -⟩ := ha
  obtain ⟨hmem, hname⟩ := VarTable.get?_eq_some_iff.1 hv
  refine VarTable.get?_eq_some_iff.2 ⟨?_, hname⟩
  rw [hvars]
  exact List.mem_append_left _ hmem

theorem Knows.mono {t : Scope} {name : Text} {ty : Ty} (h : Knows t vars name ty)
    (ha : AddsTemps vars vars') : Knows t vars' name ty := by
  obtain ⟨v, hv, hty⟩ := h
  exact ⟨v, ha.get? hv, hty⟩

end

/-- The variables that a method body can name are known. -/
structure Equipped (t : Scope) (vars : VarTable) : Prop where
  self : t.sig.isStatic = false → Knows t vars Method.receiver (.receiver t.table.cls)
  var : ∀ name v, t.lookup name = some (.var v) → Knows t vars name v.ty

/-! ## Instructions -/

section
variable (t : Scope) (vars : VarTable)

/-- A literal, or a variable of the table. -/
inductive SimpleOperand : Operand → Prop
  | literal (text : Text) (ty : Ty) : SimpleOperand (.literal text ty)
  | var {name : Text} {ty : Ty} (h : Knows t vars name ty) : SimpleOperand (.var name ty)

/-- A simple operand, or an element at a simple index. -/
inductive SoundOperand : Operand → Prop
  | simple {x : Operand} (h : SimpleOperand t vars x) : SoundOperand x
  | elem {base : Text} {index : Operand} {ty : Ty} (hb : Knows t vars base (.array ty))
      (hi : SimpleOperand t vars index) : SoundOperand (.elem base index ty)

/-- What a field is reached through: nothing for a static one, or an object. -/
inductive SoundObject : Operand → Prop
  | missing : SoundObject .missing
  | simple {x : Operand} (h : SimpleOperand t vars x) : SoundObject x

/-- A call with the operands that its kind takes.  Only a method may have no result. -/
inductive SoundCall : Call → Prop
  | newObject (cls : Text) {ret : Ty} (hret : ret.isVoid = false) :
      SoundCall { kind := .newObject, cls, ret }
  | newArray {size : Operand} (h : SimpleOperand t vars size) {ret : Ty} (hret : ret.isVoid = false) :
      SoundCall { kind := .newArray, args := [size], ret }
  | arrayLength {x : Operand} (h : SimpleOperand t vars x) {ret : Ty} (hret : ret.isVoid = false) :
      SoundCall { kind := .arrayLength, caller := x, ret }
  | static (cls method : Text) {args : List Operand} (h : ∀ x ∈ args, SimpleOperand t vars x)
      (ret : Ty) : SoundCall { kind := .static, cls, method, args, ret }
  | method {kind : CallKind} {caller : Operand} (hk : kind ∈ [.special, .virtual, .interface])
      (hc : SimpleOperand t vars caller) (cls method : Text) {args : List Operand}
      (h : ∀ x ∈ args, SimpleOperand t vars x) (ret : Ty) :
      SoundCall { kind, caller, cls, method, args, ret }

/-- An instruction that computes a value. -/
inductive SoundValue : Instr → Prop
  | single {x : Operand} (h : SoundOperand t vars x) : SoundValue (.single x)
  | binary (op : Op) {l r : Operand} (hl : SimpleOperand t vars l) (hr : SimpleOperand t vars r)
      (ty : Ty) : SoundValue (.binary op l r ty)
  | unary (op : Op) {x : Operand} (h : SimpleOperand t vars x) (ty : Ty) :
      SoundValue (.unary op x ty)
  | getField {object : Operand} (h : SoundObject t vars object) (field : FieldRef) (ty : Ty) :
      SoundValue (.getField object field ty)
  | call {c : Call} (h : SoundCall t vars c) (hret : c.ret.isVoid = false) : SoundValue (.call c)

/-- An instruction of a body. -/
inductive SoundInstr : Instr → Prop
  | assignVar {name : Text} {ty ty' : Ty} {value : Instr} (h : Knows t vars name ty)
      (hv : SoundValue t vars value) : SoundInstr (.assign (.var name ty) ty' value)
  | assignElem {base : Text} {index : Operand} {ty ty' : Ty} {value : Instr}
      (hb : Knows t vars base (.array ty)) (hi : SimpleOperand t vars index)
      (hv : SoundValue t vars value) : SoundInstr (.assign (.elem base index ty) ty' value)
  | call {c : Call} (h : SoundCall t vars c) : SoundInstr (.call c)
  | retVoid (ty : Ty) : SoundInstr (.ret .missing ty)
  | ret {x : Operand} (h : SimpleOperand t vars x) (ty : Ty) : SoundInstr (.ret x ty)
  | branch {cond : Instr} (h : SoundValue t vars cond) (label : Text) : SoundInstr (.branch cond label)
  | goto (label : Text) : SoundInstr (.goto label)
  | putField {object value : Operand} (h : SoundObject t vars object) (field : FieldRef)
      (hv : SimpleOperand t vars value) : SoundInstr (.putField object field value)

end

end MiniJava
