import MiniJava.Proofs.KindMachine
import MiniJava.Proofs.StrategyChoice

/-!
# Emitted code is kind-safe

Code that uses its variables by their kinds becomes lines that do so too: on every path every instruction
finds integers where it needs integers, and references where it needs references, although integers and
references share slots (`emitted_code_is_kind_safe`).

A variable that is live is in its slot with its kind, or it is the temporary on the stack.  That is what
an instruction finds and what it leaves behind, whichever way control goes (`Layout.safeFor`).
-/

set_option autoImplicit false

namespace MiniJava

open IR

/-! ## Code that fits the kinds of its variables -/

namespace IR

open Jvm (Kind)

variable {t : VarTable} {ty : Ty} {kind : Kind}

/-- The kind of a variable. -/
def VarTable.kind? (t : VarTable) (name : Text) : Option Kind := (t.get? name).map fun x ↦ .ofTy x.ty

section
variable (t : VarTable)

/-- The kind of an operand, if its variables have the kinds that the table gives them, and its elements
are those of a reference at an integer. -/
def Operand.kind? : Operand → Option Kind
  | .missing => none
  | .literal _ ty => some (.ofTy ty)
  | .var name ty => if t.kind? name = some (.ofTy ty) then some (.ofTy ty) else none
  | .elem base index ty =>
    if t.kind? base = some .ref ∧ index.kind? = some .int ∧ ty.isVoid = false then some (.ofTy ty)
    else none

/-- A call on operands of the kinds that it needs: a receiver and an array are references, and a size is an
integer. -/
def Call.fitsKinds (x : Call) : Bool :=
  match x.kind with
  | .newObject => true
  | .newArray => x.args.all fun y ↦ y.kind? t = some .int
  | .arrayLength => x.caller.kind? t = some .ref
  | .static => x.args.all fun y ↦ (y.kind? t).isSome
  | .special | .virtual | .interface | .unknown _ =>
    x.caller.kind? t = some .ref && x.args.all fun y ↦ (y.kind? t).isSome

/-- The kind of the result of a call. -/
def Call.resultKind? (x : Call) : Option Kind :=
  match x.kind with
  | .newObject | .newArray => some .ref
  | .arrayLength => some .int
  | .static | .special | .virtual | .interface | .unknown _ =>
    if x.ret.isVoid then none else some (.ofTy x.ret)

/-- The kind of the value that an instruction computes, if its operands have the kinds that it needs:
integers for an operator, and a reference for the object of a field. -/
def Instr.kind? : Instr → Option Kind
  | .single x => x.kind? t
  | .binary _ l r _ =>
    if l.kind? t = some .int ∧ r.kind? t = some .int then some .int else none
  | .unary _ x _ => if x.kind? t = some .int then some .int else none
  | .call x => if x.fitsKinds t then x.resultKind? else none
  | .getField object _ ty =>
    if object = .missing ∨ object.kind? t = some .ref then some (.ofTy ty) else none
  | _ => none

/-- An instruction that fits the kinds of its operands: both sides of an assignment have one kind, a
returned value has the kind of the type that is returned, and a condition is an integer. -/
def Instr.fitsKinds : Instr → Bool
  | .assign dest _ rhs => (rhs.kind? t).isSome && dest.kind? t = rhs.kind? t
  | .call x => x.fitsKinds t
  | .ret .missing _ | .goto _ => true
  | .ret x ty => x.kind? t = some (.ofTy ty)
  | .branch cond _ => cond.kind? t = some .int
  | .putField object field value =>
    (object = .missing || object.kind? t = some .ref) && value.kind? t = some (.ofTy field.ty)
  | x => (x.kind? t).isSome

end

theorem VarTable.kind?_mapReg (t : VarTable) (reg : Variable → Int) :
    (t.mapReg reg).kind? = t.kind? := by
  funext name
  rw [kind?, kind?, VarTable.get?_mapReg]
  cases t.get? name <;> rfl

section
variable (t : VarTable) (reg : Variable → Int)

theorem Operand.kind?_mapReg (x : Operand) : x.kind? (t.mapReg reg) = x.kind? t := by
  induction x with
  | missing | literal _ _ => rfl
  | var name ty => rw [kind?, kind?, VarTable.kind?_mapReg]
  | elem base index ty ih => rw [kind?, kind?, VarTable.kind?_mapReg, ih]

theorem Call.fitsKinds_mapReg (x : Call) : x.fitsKinds (t.mapReg reg) = x.fitsKinds t := by
  simp only [fitsKinds, Operand.kind?_mapReg]

theorem Instr.kind?_mapReg (x : Instr) : x.kind? (t.mapReg reg) = x.kind? t := by
  cases x <;> simp only [kind?, Operand.kind?_mapReg, Call.fitsKinds_mapReg]

/-- Kinds do not depend on registers. -/
theorem Instr.fitsKinds_mapReg (x : Instr) : x.fitsKinds (t.mapReg reg) = x.fitsKinds t := by
  cases x with
  | ret y ty => cases y <;> simp only [fitsKinds, Operand.kind?_mapReg]
  | _ => simp only [fitsKinds, Instr.kind?_mapReg, Operand.kind?_mapReg, Call.fitsKinds_mapReg]

end

theorem Operand.kind?_var {name : Text} (h : (Operand.var name ty).kind? t = some kind) :
    t.kind? name = some kind := by
  rw [kind?, Option.ite_none_right_eq_some] at h
  rw [h.1, h.2]

theorem Operand.kind_eq {x : Operand} (h : x.kind? t = some kind) : kind = .ofTy x.ty := by
  cases x with
  | missing => cases h
  | literal text ty => exact (Option.some.inj h).symm
  | var name ty | elem base index ty =>
    rw [kind?, Option.ite_none_right_eq_some, Option.some.injEq] at h
    exact h.2.symm

theorem Instr.kind?_binary {op : Op} {l r : Operand} (h : (Instr.binary op l r ty).kind? t = some kind) :
    (l.kind? t = some .int ∧ r.kind? t = some .int) ∧ kind = .int := by
  rw [kind?, Option.ite_none_right_eq_some, Option.some.injEq] at h
  exact ⟨h.1, h.2.symm⟩

theorem Instr.kind?_unary {op : Op} {x : Operand} (h : (Instr.unary op x ty).kind? t = some kind) :
    x.kind? t = some .int ∧ kind = .int := by
  rw [kind?, Option.ite_none_right_eq_some, Option.some.injEq] at h
  exact ⟨h.1, h.2.symm⟩

theorem Instr.kind?_call {x : Call} (h : (Instr.call x).kind? t = some kind) :
    x.fitsKinds t = true ∧ x.resultKind? = some kind := by
  rwa [kind?, Option.ite_none_right_eq_some] at h

theorem Instr.kind?_getField {object : Operand} {field : FieldRef}
    (h : (Instr.getField object field ty).kind? t = some kind) :
    (object = .missing ∨ object.kind? t = some .ref) ∧ kind = .ofTy ty := by
  rw [kind?, Option.ite_none_right_eq_some, Option.some.injEq] at h
  exact ⟨h.1, h.2.symm⟩

theorem Operand.kind?_elem {base : Text} {index : Operand}
    (h : (Operand.elem base index ty).kind? t = some kind) :
    t.kind? base = some .ref ∧ index.kind? t = some .int ∧ (Jvm.Elem.ofTy ty).kind = kind := by
  rw [kind?, Option.ite_none_right_eq_some, Option.some.injEq] at h
  obtain ⟨⟨hbase, hindex, hv⟩, hk⟩ := h
  exact ⟨hbase, hindex, (Jvm.Elem.kind_ofTy hv).trans hk⟩

end IR

namespace Jvm

/-! ## Loading -/

section
variable {c : ClassDef} {m : Method} {slots : Nat → Option Kind}
variable {name : Text} {kind : Kind} {slot number number' : Nat} {is : List Instr} {s s' : Option Text}
  {x : IR.Instr} {ls : List Line}

theorem HasSlot.kind? (h : HasSlot m name kind slot) : m.vars.kind? name = some kind := by
  obtain ⟨x, hx, -, hkind⟩ := h
  rw [VarTable.kind?, hx, ← hkind]
  rfl

variable (m slots) in
/-- The slot of a variable holds a value of its kind. -/
def InKind (name : Text) : Prop := ∀ slot, m.slot? name = some slot → slots slot = m.vars.kind? name

theorem InKind.of_hasSlot (h : InKind m slots name) (hs : HasSlot m name kind slot) :
    slots slot = some kind := (h slot hs.slot?).trans hs.kind?

variable (m) in
/-- The kind of a variable that is in the table. -/
def kindOf (name : Text) : Kind := (m.vars.kind? name).getD .int

theorem kindOf_of_kind? (h : m.vars.kind? name = some kind) : kindOf m name = kind := by
  rw [kindOf, h]
  rfl

theorem Loads.afterAll_of_none {x : Operand} (h : Loads m none x is s')
    (hx : x.kind? m.vars = some kind) (hr : ∀ name ∈ x.names, InKind m slots name) (stack : List Kind) :
    s' = none ∧ afterAll is ⟨stack, slots⟩ = some ⟨kind :: stack, slots⟩ := by
  generalize hs : (none : Option Text) = s at h
  induction h generalizing kind stack with
  | literal ht hv =>
    subst hs
    obtain rfl : Kind.int = kind := by rcases ht with rfl | rfl <;> exact Option.some.inj hx
    exact ⟨rfl, rfl⟩
  | top => cases hs
  | var hne hslot =>
    subst hs
    refine ⟨rfl, ?_⟩
    obtain rfl := Option.some.inj (hslot.kind?.symm.trans (Operand.kind?_var hx))
    rw [afterAll_cons, Instr.after_load ((hr _ (by simp)).of_hasSlot hslot)]
    rfl
  | @elem s s₁ base index ty kind' slot is hslot hi ih =>
    subst hs
    obtain ⟨hbase, hindex, rfl⟩ := Operand.kind?_elem hx
    obtain rfl := Option.some.inj (hslot.kind?.symm.trans hbase)
    obtain ⟨rfl, hload⟩ := ih hindex (fun name hn ↦ hr name (by simp [hn]))
      (.ref :: stack) rfl
    refine ⟨rfl, ?_⟩
    have hbase := Instr.after_load ((hr base (by simp)).of_hasSlot hslot) stack
    have helem : (Instr.arrayLoad (.ofTy ty)).after ⟨.int :: .ref :: stack, slots⟩ =
        some ⟨(Elem.ofTy ty).kind :: stack, slots⟩ := Instr.after_of_takes rfl (by simp) rfl stack slots
    simp only [afterAll_cons, afterAll_append, afterAll_nil, hbase, hload, helem,
      Option.bind_eq_bind, Option.bind_some]

variable {xs : List Operand} {stack : List Kind}

/-- Operands are loaded in order, each on top of those before it. -/
theorem LoadsAll.afterAll_eq (h : LoadsAll m s xs is s') {kinds : List Kind}
    (hx : List.Forall₂ (fun x kind ↦ x.kind? m.vars = some kind) xs kinds)
    (hp : ∀ x ∈ xs, x.isPlain = true) (hr : ReadyBy (InKind m slots) s xs) (stack : List Kind) :
    s' = none ∧ afterAll is ⟨onTop (kindOf m) s stack, slots⟩ =
      some ⟨kinds.reverse ++ stack, slots⟩ := by
  induction h generalizing kinds stack with
  | @nil s =>
    cases hx
    obtain rfl := eq_none_of_ready_nil hr
    exact ⟨rfl, rfl⟩
  | @cons s₁ s₂ s₃ x xs is js hload hrest ih =>
    cases hx with
    | @cons _ kind _ kinds hx hxs =>
      -- Only the first operand can be on the stack, so nothing is when the others are loaded.
      obtain ⟨rfl, hfirst, hothers⟩ : s₂ = none ∧
          afterAll is ⟨onTop (kindOf m) s₁ stack, slots⟩ = some ⟨kind :: stack, slots⟩ ∧
          ReadyBy (InKind m slots) none xs := by
        cases s₁ with
        | none =>
          have hnames : ∀ name ∈ x.names, InKind m slots name := by
            rw [Operand.names_eq_uses (hp x (by simp))]
            exact hr x (by simp)
          obtain ⟨rfl, heq⟩ := hload.afterAll_of_none hx hnames stack
          exact ⟨rfl, heq, fun y hy ↦ hr y (by simp [hy])⟩
        | some t =>
          obtain ⟨ty, rest, hcons, hin⟩ := hr
          obtain ⟨rfl, rfl⟩ := List.cons.inj hcons
          cases hload with
          | top => exact ⟨rfl, by simp [onTop, kindOf_of_kind? (Operand.kind?_var hx)], hin⟩
          | var hne _ => exact absurd rfl hne
      obtain ⟨rfl, heq⟩ := ih hxs (fun y hy ↦ hp y (by simp [hy])) hothers (kind :: stack)
      refine ⟨rfl, ?_⟩
      rw [afterAll_append, hfirst]
      simpa [onTop] using heq

theorem Loads.afterAll_eq {x : Operand} (h : Loads m s x is s') (hx : x.kind? m.vars = some kind)
    (hp : x.isPlain = true) (hr : ReadyBy (InKind m slots) s [x]) (stack : List Kind) :
    s' = none ∧ afterAll is ⟨onTop (kindOf m) s stack, slots⟩ = some ⟨kind :: stack, slots⟩ := by
  have hall := LoadsAll.cons h .nil
  rw [List.append_nil] at hall
  exact hall.afterAll_eq (.cons hx .nil) (by simpa using hp) hr stack

/-- Operands are loaded for an instruction that takes them and leaves its result. -/
theorem LoadsAll.afterAll_instr (h : LoadsAll m s xs is s') {i : Instr} (hs : i.slot? = none)
    (hpop : i ≠ .pop) (hx : List.Forall₂ (fun x kind ↦ x.kind? m.vars = some kind) xs i.takes)
    (hp : ∀ x ∈ xs, x.isPlain = true) (hr : ReadyBy (InKind m slots) s xs) (stack : List Kind) :
    s' = none ∧ afterAll (is ++ [i]) ⟨onTop (kindOf m) s stack, slots⟩ =
      some ⟨i.leaves?.toList ++ stack, slots⟩ := by
  obtain ⟨rfl, heq⟩ := h.afterAll_eq hx hp hr stack
  refine ⟨rfl, ?_⟩
  simp [heq, Instr.after_of_takes hs hpop rfl stack slots]

theorem Loads.afterAll_instr {x : Operand} (h : Loads m s x is s') {i : Instr} (hs : i.slot? = none)
    (hpop : i ≠ .pop) (ht : i.takes = [kind]) (hx : x.kind? m.vars = some kind) (hp : x.isPlain = true)
    (hr : ReadyBy (InKind m slots) s [x]) (stack : List Kind) :
    s' = none ∧ afterAll (is ++ [i]) ⟨onTop (kindOf m) s stack, slots⟩ =
      some ⟨i.leaves?.toList ++ stack, slots⟩ := by
  have hall := LoadsAll.cons h .nil
  rw [List.append_nil] at hall
  exact hall.afterAll_instr hs hpop (ht ▸ .cons hx .nil) (by simpa using hp) hr stack

/-! ## Calls and values -/

/-- The arguments of a call have the kinds that its descriptor says. -/
theorem forall₂_args (c : ClassDef) (h : ∀ x ∈ xs, (x.kind? m.vars).isSome = true) :
    List.Forall₂ (fun x kind ↦ x.kind? m.vars = some kind) xs
      ((xs.map fun x ↦ descriptor c x.ty).map Kind.ofDescriptor) := by
  rw [List.map_map, List.forall₂_map_right_iff, List.forall₂_same]
  intro x hx
  obtain ⟨kind, hkind⟩ := Option.isSome_iff_exists.1 (h x hx)
  rw [hkind, Operand.kind_eq hkind, Function.comp, Kind.ofDescriptor_descriptor]

theorem leaves?_invokeInstr (c : ClassDef) (x : Call) (how : Invocation) (cls : Text) :
    (invokeInstr c x how cls).leaves? = if x.ret.isVoid then none else some (.ofTy x.ret) := by
  have hv := descriptor_ne_V c x.ret
  rw [invokeInstr, Instr.leaves?, Kind.ofDescriptor_descriptor]
  cases h : x.ret.isVoid with
  | true => simpa [h] using hv
  | false => simpa [h] using hv

theorem kinds_of_arrayInstr? {ty : Ty} {i : Instr} (h : arrayInstr? c ty = some i) :
    i.takes = [.int] ∧ i.leaves? = some .ref ∧ i.slot? = none ∧ i ≠ .pop := by
  rw [arrayInstr?] at h
  split at h
  all_goals cases h
  all_goals exact ⟨rfl, rfl, rfl, by simp⟩

/-- All invocations but the static ones have a receiver. -/
theorem receiver_of_invocation? {kind : CallKind} {how : Invocation} (h : invocation? kind = some how)
    (hs : kind ≠ .static) :
    how.hasReceiver = true ∧ (kind = .special ∨ kind = .virtual ∨ kind = .interface) := by
  cases kind with
  | static => exact absurd rfl hs
  | special | virtual | interface =>
    cases h
    exact ⟨rfl, by simp⟩
  | newObject | newArray | arrayLength | unknown _ => cases h

/-- The instructions of a call push its result. -/
theorem Calls.afterAll_eq {x : Call} (h : Calls c m x s is s') (hx : x.fitsKinds m.vars = true)
    (hp : ∀ y ∈ loadsOf (.call x), y.isPlain = true)
    (hr : ReadyBy (InKind m slots) s (loadsOf (.call x))) (stack : List Kind) :
    s' = none ∧ afterAll is ⟨onTop (kindOf m) s stack, slots⟩ =
      some ⟨x.resultKind?.toList ++ stack, slots⟩ := by
  rw [loadsOf] at hp hr
  cases h with
  | newObject hk =>
    simp only [Call.operands?, hk, Option.getD_some] at hp hr
    rw [Call.resultKind?, hk]
    exact LoadsAll.nil.afterAll_instr (i := .new _) rfl (by simp) .nil hp hr stack
  | @newArray _ size is i hk ha hload hi =>
    simp only [Call.operands?, hk, ha, List.length_singleton, if_true, Option.getD_some] at hp hr
    simp only [Call.fitsKinds, hk, ha, List.all_cons, List.all_nil, Bool.and_true,
      decide_eq_true_eq] at hx
    obtain ⟨ht, hl, hs, hpop⟩ := kinds_of_arrayInstr? hi
    rw [Call.resultKind?, hk, ← hl]
    exact hload.afterAll_instr hs hpop ht hx (hp size (by simp)) hr stack
  | arrayLength hk hload =>
    simp only [Call.operands?, hk, Option.getD_some] at hp hr
    simp only [Call.fitsKinds, hk, decide_eq_true_eq] at hx
    rw [Call.resultKind?, hk]
    exact hload.afterAll_instr (i := .arrayLength) rfl (by simp) rfl hx (hp x.caller (by simp)) hr stack
  | static hk hload =>
    simp only [Call.operands?, hk, Option.getD_some] at hp hr
    simp only [Call.fitsKinds, hk, List.all_eq_true] at hx
    rw [Call.resultKind?, hk]
    have := hload.afterAll_instr (i := invokeInstr c x .static (c.resolve x.cls)) rfl
      (by simp [invokeInstr]) (forall₂_args c hx) hp hr stack
    rwa [leaves?_invokeInstr] at this
  | @onObject _ _ is js how cls hk hs hload hloads ho =>
    obtain ⟨hrecv, hkind⟩ := receiver_of_invocation? hk hs
    have hcall : x.operands? = some (x.caller :: x.args) ∧
        x.fitsKinds m.vars = (decide (x.caller.kind? m.vars = some .ref) &&
          x.args.all fun y ↦ (y.kind? m.vars).isSome) ∧
        x.resultKind? = (invokeInstr c x how cls).leaves? := by
      rw [leaves?_invokeInstr, Call.operands?, Call.fitsKinds, Call.resultKind?]
      rcases hkind with hkind | hkind | hkind <;> simp [hkind]
    obtain ⟨hops, hfits, hres⟩ := hcall
    rw [hops, Option.getD_some] at hp hr
    simp only [hfits, Bool.and_eq_true, decide_eq_true_eq, List.all_eq_true] at hx
    rw [hres, ← List.append_assoc]
    refine (LoadsAll.cons hload hloads).afterAll_instr rfl (by simp [invokeInstr]) ?_ hp hr stack
    rw [invokeInstr, Instr.takes, if_pos hrecv]
    exact .cons hx.1 (forall₂_args c hx.2)

/-- The instructions of a value that is no comparison push it. -/
theorem Evaluates.afterAll_eq (h : Evaluates c m s x is s') (hx : x.kind? m.vars = some kind)
    (hp : ∀ y ∈ loadsOf x, y.isPlain = true) (hr : ReadyBy (InKind m slots) s (loadsOf x))
    (stack : List Kind) :
    s' = none ∧ afterAll is ⟨onTop (kindOf m) s stack, slots⟩ = some ⟨kind :: stack, slots⟩ := by
  cases h with
  | @single _ y is hload => exact hload.afterAll_eq hx (hp y (by simp [loadsOf])) hr stack
  | @arith _ _ op l r ty a is js ho hl hr' =>
    obtain ⟨⟨hkl, hkr⟩, rfl⟩ := IR.Instr.kind?_binary hx
    rw [loadsOf_arith ho] at hp hr
    have hall := LoadsAll.cons hl (.cons hr' .nil)
    rw [List.append_nil] at hall
    rw [← List.append_assoc]
    exact hall.afterAll_instr (i := .arith a) rfl (by simp) (.cons hkl (.cons hkr .nil)) hp hr stack
  | @not _ y ty is hload =>
    obtain ⟨hy, rfl⟩ := IR.Instr.kind?_unary hx
    obtain ⟨rfl, heq⟩ := hload.afterAll_eq hy (hp y (by simp [loadsOf])) hr stack
    refine ⟨rfl, ?_⟩
    rw [afterAll_append, heq]
    rfl
  | @neg _ y ty is hload =>
    obtain ⟨hy, rfl⟩ := IR.Instr.kind?_unary hx
    exact hload.afterAll_instr (i := .neg) rfl (by simp) rfl hy (hp y (by simp [loadsOf])) hr stack
  | call hv hcall =>
    obtain ⟨hfits, hres⟩ := IR.Instr.kind?_call hx
    have heq := hcall.afterAll_eq hfits hp hr stack
    rwa [hres] at heq
  | @getStatic field ty =>
    obtain ⟨-, rfl⟩ := IR.Instr.kind?_getField hx
    have heq := LoadsAll.nil.afterAll_instr
      (i := .getStatic (fieldName c .missing field.name) (descriptor c ty)) rfl (by simp) .nil hp hr stack
    rwa [Instr.leaves?, Kind.ofDescriptor_descriptor] at heq
  | @getField _ object field ty is hload =>
    obtain ⟨hobject, rfl⟩ := IR.Instr.kind?_getField hx
    have hm := hload.ne_missing
    rw [loadsOf_getField hm] at hp hr
    have heq := hload.afterAll_instr
      (i := .getField (fieldName c object field.name) (descriptor c ty)) rfl (by simp) rfl
      (hobject.resolve_left hm) (hp object (by simp)) hr stack
    rwa [Instr.leaves?, Kind.ofDescriptor_descriptor] at heq

/-- The instructions of a comparison take both of its operands. -/
theorem Compares.afterAll_eq {op : Op} {cond : Cond} {l r : Operand} {test : Text → Instr}
    (h : Compares m op cond l r s is test s') (ho : Cond.ofOp? op = some cond)
    (hl : l.kind? m.vars = some .int) (hr : r.kind? m.vars = some .int) (ty : Ty)
    (hp : ∀ y ∈ loadsOf (.binary op l r ty), y.isPlain = true)
    (hready : ReadyBy (InKind m slots) s (loadsOf (.binary op l r ty))) (label : Text)
    (stack : List Kind) : s' = none ∧ afterAll (is ++ [test label]) ⟨onTop (kindOf m) s stack, slots⟩ =
      some ⟨stack, slots⟩ := by
  rw [loadsOf, Cond.isCompare_of_ofOp? ho] at hp hready
  cases h with
  | rightZero hz hload =>
    simp only [hz, Bool.and_self, if_true] at hp hready
    exact hload.afterAll_instr (i := .ifZero cond label) rfl (by simp) rfl hl (hp l (by simp)) hready
      stack
  | leftZero hz hz' hload =>
    simp only [hz, hz', Bool.and_false, Bool.and_self, Bool.false_eq_true, if_true, if_false]
      at hp hready
    exact hload.afterAll_instr (i := .ifZero _ label) rfl (by simp) rfl hr (hp r (by simp)) hready stack
  | both hz hz' hload hload' =>
    simp only [hz, hz', Bool.and_false, Bool.false_eq_true, if_false] at hp hready
    have hall := LoadsAll.cons hload (.cons hload' .nil)
    rw [List.append_nil] at hall
    exact hall.afterAll_instr (i := .ifCompare cond label) rfl (by simp) (.cons hl (.cons hr .nil)) hp
      hready stack

/-! ## Lines -/

variable {lines : List Line} {n p : Nat}

/-- The lines after the test of a comparison push the answer, whichever way the test goes. -/
theorem safeFor_answer (hu : UniqueLabels lines) {test : Text → Instr}
    (h : StandsAt (answerLines test number) lines p)
    (hs : SafeFor lines n (p + 6) ⟨.int :: stack, slots⟩) :
    SafeFor lines n (p + 1) ⟨stack, slots⟩ ∧ SafeFor lines n (p + 3) ⟨stack, slots⟩ := by
  have hend : SafeFor lines n (p + 5) ⟨.int :: stack, slots⟩ :=
    ((safeFor_of_label (h 5 _ rfl)).2 hs).pred
  constructor
  · refine ((safeFor_of_instr (h 1 _ rfl)).2 ⟨_, rfl, fun _ ↦ ?_, by rintro _ _ ⟨⟩⟩).pred
    refine ((safeFor_of_instr (h 2 _ rfl)).2 ⟨_, rfl, by rintro ⟨⟩, fun name q hname hq ↦ ?_⟩).pred
    obtain rfl := Option.some.inj hname
    rwa [hu _ _ _ hq (h 5 _ rfl)]
  · refine ((safeFor_of_label (h 3 _ rfl)).2 ?_).pred
    exact ((safeFor_of_instr (h 4 _ rfl)).2 ⟨_, rfl, fun _ ↦ hend, by rintro _ _ ⟨⟩⟩).pred

/-- The lines of a value push it. -/
theorem Computes.safeFor (hu : UniqueLabels lines) (h : Computes c m s number x ls s' number')
    (hx : x.kind? m.vars = some kind) (hp : ∀ y ∈ loadsOf x, y.isPlain = true)
    (hr : ReadyBy (InKind m slots) s (loadsOf x)) (hstands : StandsAt ls lines p) (stack : List Kind) :
    s' = none ∧ (SafeFor lines n (p + ls.length) ⟨kind :: stack, slots⟩ →
      SafeFor lines n p ⟨onTop (kindOf m) s stack, slots⟩) := by
  cases h with
  | plain hval =>
    obtain ⟨hs', heq⟩ := hval.afterAll_eq hx hp hr stack
    refine ⟨hs', fun hsafe ↦ ?_⟩
    rw [List.length_map] at hsafe
    exact safeFor_plain hstands hval.plain heq hsafe
  | @compare _ _ op cond l r ty is test ho hcmp =>
    obtain ⟨⟨hl, hr'⟩, rfl⟩ := IR.Instr.kind?_binary hx
    obtain ⟨hs', heq⟩ := hcmp.afterAll_eq ho hl hr' ty hp hr (trueLabel number) stack
    refine ⟨hs', fun hsafe ↦ ?_⟩
    have hanswer := hstands.right
    rw [List.length_map] at hanswer
    have hstart : StandsAt (is.map .instr ++ [.instr (test (trueLabel number))]) lines p := by
      rw [answerLines, ← List.singleton_append, ← List.append_assoc] at hstands
      exact hstands.left
    have hend : SafeFor lines n (p + is.length + 6) ⟨.int :: stack, slots⟩ := by
      simpa [answerLines, Nat.add_assoc] using hsafe
    obtain ⟨hfall, hjump⟩ := safeFor_answer hu hanswer hend
    cases n with
    | zero => trivial
    | succ n =>
      refine safeFor_last hstart hcmp.plain heq (fun _ ↦ hfall) fun name q hname hq ↦ ?_
      rw [(hcmp.test_target? _).1, Option.some.injEq] at hname
      subst hname
      rw [hu _ _ _ hq (hanswer 3 _ rfl)]
      exact hjump.pred

/-! ## Instructions -/

theorem Calls.isSome_operands? {x : Call} (h : Calls c m x s is s') : x.operands?.isSome = true := by
  rw [Call.operands?]
  cases h with
  | newObject hk | arrayLength hk _ | static hk _ => simp [hk]
  | newArray hk ha _ _ => simp [hk, ha]
  | onObject hk hs _ _ _ =>
    obtain ⟨-, hkind | hkind | hkind⟩ := receiver_of_invocation? hk hs <;> simp [hkind]

theorem Evaluates.isValue (h : Evaluates c m s x is s') : isValue x = true := by
  cases h with
  | call _ hcall => exact hcall.isSome_operands?
  | single _ | arith _ _ _ | not _ | neg _ | getStatic | getField _ => rfl

theorem Computes.isValue (h : Computes c m s number x ls s' number') : isValue x = true := by
  cases h with
  | plain h => exact h.isValue
  | compare _ _ => rfl

theorem Computes.fallsThrough (h : Computes c m s number x ls s' number') : x.fallsThrough = true := by
  cases h with
  | plain h => cases h <;> rfl
  | compare _ _ => rfl

/-- Only instructions with values for parts become lines. -/
theorem Emits.isShaped {keep : Option Text} (h : Emits c m keep s number x ls s' number') :
    isShaped x = true := by
  cases h with
  | leave _ h | store _ h _ | storeElem _ _ h => exact h.isValue
  | callVoid _ h | callValue _ h => exact h.isSome_operands?
  | branch h => exact h.isValue
  | discard _ h => exact isShaped_of_isValue h.isValue
  | retVoid | ret _ | goto | branchCompare _ _ | branchNot _ | putStatic _ | putField _ _ => rfl

theorem mem_valueOperands_of_loadsOf (hx : isValue x = true) {y : Operand} (hy : y ∈ loadsOf x) :
    y ∈ x.valueOperands := by
  cases x with
  | single z | unary op z ty => exact hy
  | binary op l r ty =>
    rw [loadsOf] at hy
    rw [IR.Instr.valueOperands]
    split at hy
    · simp_all
    · split at hy <;> simp_all
  | call z => exact z.operands?_sublist.subset hy
  | getField object field ty =>
    cases object with
    | missing => cases hy
    | literal _ _ | var _ _ | elem _ _ _ => exact hy
  | missing | assign _ _ _ | ret _ _ | branch _ _ | goto _ | putField _ _ _ => cases hx

/-- What an instruction loads is among its operands. -/
theorem mem_operands_of_loadsOf (hx : isShaped x = true) {y : Operand} (hy : y ∈ loadsOf x) :
    y ∈ x.operands := by
  cases x with
  | single z | binary op l r ty | unary op z ty | getField object field ty =>
    exact mem_valueOperands_of_loadsOf rfl hy
  | call z => exact mem_valueOperands_of_loadsOf (x := .call z) hx hy
  | branch cond label => exact mem_valueOperands_of_loadsOf hx hy
  | assign dest ty rhs =>
    rw [IR.Instr.operands, List.mem_cons]
    cases dest with
    | elem base index ty' =>
      rcases List.mem_cons.1 hy with rfl | hy
      · exact .inl rfl
      · exact .inr (mem_valueOperands_of_loadsOf hx hy)
    | missing | literal _ _ | var _ _ => exact .inr (mem_valueOperands_of_loadsOf hx hy)
  | ret z ty =>
    cases z with
    | missing => cases hy
    | literal _ _ | var _ _ | elem _ _ _ => exact hy
  | putField object field value =>
    cases object with
    | missing => exact List.mem_cons_of_mem _ hy
    | literal _ _ | var _ _ | elem _ _ _ => exact hy
  | missing | goto label => cases hy

/-- A value that is stored to a variable. -/
theorem safeFor_store (ty ty' : Ty) (rhs : IR.Instr) (hslot : HasSlot m name kind slot)
    (hp : lines[p]? = some (.instr (.store kind slot)))
    (hs : SafeFor lines n (p + 1) ⟨stack, written m (.assign (.var name ty) ty' rhs) none slots
      m.vars.kind?⟩) : SafeFor lines n p ⟨kind :: stack, slots⟩ := by
  have hw : written m (.assign (.var name ty) ty' rhs) none slots m.vars.kind? =
      Function.update slots slot (some kind) := by
    simp [written, IR.Instr.defs?, hslot.slot?, hslot.kind?]
  rw [hw] at hs
  exact ((safeFor_of_instr hp).2 ⟨_, Instr.after_store _ _ _ _, fun _ ↦ hs, by rintro _ _ ⟨⟩⟩).pred

/-- A value that is assigned to an element: the array and the index are loaded first, and stay below
it. -/
theorem safeFor_storeElem (hu : UniqueLabels lines) {s₁ s₂ : Option Text} {base : Text} {index : Operand}
    {ty ty' : Ty} {rhs : IR.Instr} (hslot : HasSlot m base kind slot) (hi : Loads m s index is s₁)
    (h : Computes c m s₁ number rhs ls s₂ number')
    (hx : (IR.Instr.assign (.elem base index ty) ty' rhs).fitsKinds m.vars = true)
    (hp : ∀ y ∈ loadsOf (.assign (.elem base index ty) ty' rhs), y.isPlain = true)
    (hr : ReadyBy (InKind m slots) s (loadsOf (.assign (.elem base index ty) ty' rhs)))
    (hstands : StandsAt (.instr (.load kind slot) ::
      (is.map .instr ++ (ls ++ [.instr (.arrayStore (.ofTy ty))]))) lines p)
    (hs : s₂ = none → SafeFor lines n (p + 1 + is.length + ls.length + 1) ⟨stack, slots⟩) :
    SafeFor lines n p ⟨onTop (kindOf m) s stack, slots⟩ := by
  rw [loadsOf] at hp hr
  cases s with
  | some t =>
    obtain ⟨ty'', rest, hcons, -⟩ := hr
    cases hcons
  | none =>
    simp only [IR.Instr.fitsKinds, Bool.and_eq_true, decide_eq_true_eq,
      Option.isSome_iff_exists] at hx
    obtain ⟨⟨kind', hrhs⟩, hdest⟩ := hx
    obtain ⟨hbase, hindex, hkind⟩ := Operand.kind?_elem (hdest.trans hrhs)
    obtain rfl := Option.some.inj (hslot.kind?.symm.trans hbase)
    have hnames : ∀ name ∈ (Operand.elem base index ty).names, InKind m slots name := by
      rw [Operand.names_eq_uses (hp _ (by simp))]
      exact hr _ (by simp)
    obtain ⟨rfl, hload⟩ := hi.afterAll_of_none hindex
      (fun name hn ↦ hnames name (by simp [hn])) (.ref :: stack)
    have hload₀ := Instr.after_load ((hnames base (by simp)).of_hasSlot hslot) stack
    have hval := hstands.tail.right
    rw [List.length_map] at hval
    obtain ⟨hs₂, hcomp⟩ := h.safeFor (n := n) hu hrhs (fun y hy ↦ hp y (by simp [hy]))
      (fun y hy ↦ hr y (by simp [hy])) hval.left (.int :: .ref :: stack)
    have htakes : (Instr.arrayStore (.ofTy ty)).takes = [.ref, .int, kind'] := by
      rw [Instr.takes, hkind]
    have hstore : (Instr.arrayStore (.ofTy ty)).after ⟨kind' :: .int :: .ref :: stack, slots⟩ =
        some ⟨stack, slots⟩ := Instr.after_of_takes rfl (by simp) htakes stack slots
    have hlast := ((safeFor_of_instr (n := n) hval.right.head).2
      ⟨_, hstore, fun _ ↦ hs hs₂, by rintro _ _ ⟨⟩⟩).pred
    refine ((safeFor_of_instr hstands.head).2 ⟨_, hload₀, fun _ ↦ ?_, by rintro _ _ ⟨⟩⟩).pred
    exact safeFor_plain hstands.tail.left hi.plain hload (hcomp hlast)

/-- A value that is dropped has a kind. -/
theorem Computes.exists_kind (h : Computes c m s number x ls s' number') (hcall : ∀ y, x ≠ .call y)
    (hx : x.fitsKinds m.vars = true) : ∃ kind, x.kind? m.vars = some kind := by
  have hv := h.isValue
  cases x with
  | call y => exact absurd rfl (hcall y)
  | single _ | binary _ _ _ _ | unary _ _ _ | getField _ _ _ => exact Option.isSome_iff_exists.1 hx
  | missing | assign _ _ _ | ret _ _ | branch _ _ | goto _ | putField _ _ _ => cases hv

/-- **The lines of an instruction find operands of the kinds that they need**, and leave variables of
their kinds. -/
theorem Emits.safeFor (hu : UniqueLabels lines) {keep : Option Text}
    (h : Emits c m keep s number x ls s' number') (hx : x.fitsKinds m.vars = true)
    (hp : ∀ y ∈ loadsOf x, y.isPlain = true) (hr : ReadyBy (InKind m slots) s (loadsOf x))
    (hstands : StandsAt ls lines p) (stack : List Kind)
    (hnext : x.fallsThrough = true → ∀ stack', SafeFor lines (n + 1) (p + ls.length)
      ⟨onTop (kindOf m) s' stack', written m x s' slots m.vars.kind?⟩)
    (hjump : ∀ label q, x.target? = some label → lines[q]? = some (.label label) →
      SafeFor lines n q ⟨stack, slots⟩) :
    SafeFor lines (n + 1) p ⟨onTop (kindOf m) s stack, slots⟩ := by
  -- an instruction that writes no variable and leaves nothing on the stack goes on with what it found
  have hsame (hf : x.fallsThrough = true) (hd : x.defs? = none) (hs' : s' = none) :
      SafeFor lines (n + 1) (p + ls.length) ⟨stack, slots⟩ := by
    have hthere := hnext hf stack
    rwa [hs', written_of_defs? hd] at hthere
  cases h with
  | @leave _ _ _ name ty ty' rhs ls hk hval =>
    simp only [IR.Instr.fitsKinds, Bool.and_eq_true, decide_eq_true_eq,
      Option.isSome_iff_exists] at hx
    obtain ⟨⟨kind, hrhs⟩, hdest⟩ := hx
    refine (hval.safeFor hu hrhs hp hr hstands stack).2 ?_
    have hthere := hnext rfl stack
    simpa [onTop, kindOf_of_kind? (Operand.kind?_var (hdest.trans hrhs)), written, IR.Instr.defs?]
      using hthere
  | @store _ _ _ name ty ty' rhs ls kind slot hk hval hslot =>
    simp only [IR.Instr.fitsKinds, Bool.and_eq_true, decide_eq_true_eq,
      Option.isSome_iff_exists] at hx
    obtain ⟨⟨kind', hrhs⟩, hdest⟩ := hx
    obtain rfl := Option.some.inj (hslot.kind?.symm.trans (Operand.kind?_var (hdest.trans hrhs)))
    obtain ⟨rfl, hsafe⟩ := hval.safeFor (n := n + 1) hu hrhs hp hr hstands.left stack
    refine hsafe (safeFor_store ty ty' rhs hslot hstands.right.head ?_)
    simpa [onTop, Nat.add_assoc] using hnext rfl stack
  | storeElem hslot hi hval =>
    refine safeFor_storeElem hu hslot hi hval hx hp hr hstands fun hs' ↦ ?_
    simpa [Nat.add_assoc, Nat.add_comm, Nat.add_left_comm] using hsame rfl rfl hs'
  | @callVoid _ _ y is hv hcall =>
    obtain ⟨rfl, heq⟩ := hcall.afterAll_eq hx hp hr stack
    refine safeFor_plain hstands hcall.plain heq ?_
    simpa [onTop, written_of_defs? (x := .call y) rfl] using hnext rfl (y.resultKind?.toList ++ stack)
  | @callValue _ _ y is hv hcall =>
    obtain ⟨rfl, heq⟩ := hcall.afterAll_eq hx hp hr stack
    obtain ⟨kind, hkind⟩ : ∃ kind, y.resultKind? = some kind := by
      rw [Call.resultKind?]
      split <;> simp [hv]
    have hpop : afterAll (is ++ [.pop]) ⟨onTop (kindOf m) s stack, slots⟩ = some ⟨stack, slots⟩ := by
      rw [afterAll_append, heq, hkind]
      exact Instr.after_pop kind stack slots
    refine safeFor_last hstands hcall.plain hpop (fun _ ↦ ?_) (by rintro _ _ ⟨⟩)
    simpa [Nat.add_assoc] using hsame rfl rfl rfl
  | retVoid =>
    have hret : Instr.ret.after ⟨onTop (kindOf m) s stack, slots⟩ = _ :=
      Instr.after_of_takes rfl (by simp) rfl (onTop (kindOf m) s stack) slots
    exact (safeFor_of_instr hstands.head).2 ⟨_, hret, by rintro ⟨⟩, by rintro _ _ ⟨⟩⟩
  | @ret _ _ y ty is hload =>
    have hm := hload.ne_missing
    have hy : y.kind? m.vars = some (.ofTy ty) := by
      cases y with
      | missing => exact absurd rfl hm
      | literal _ _ | var _ _ | elem _ _ _ => exact of_decide_eq_true hx
    rw [loadsOf_ret hm] at hp hr
    obtain ⟨-, heq⟩ := hload.afterAll_instr (i := .retValue (.ofTy ty)) rfl (by simp) rfl hy
      (hp y (by simp)) hr stack
    exact safeFor_last hstands hload.plain heq (by rintro ⟨⟩) (by rintro _ _ ⟨⟩)
  | @goto _ label =>
    obtain rfl := eq_none_of_ready_nil hr
    have hgoto : (Instr.goto label).after ⟨stack, slots⟩ = some ⟨stack, slots⟩ :=
      Instr.after_of_takes rfl (by simp) rfl stack slots
    exact (safeFor_of_instr hstands.head).2 ⟨_, hgoto, by rintro ⟨⟩, hjump⟩
  | @branchCompare _ _ op cond l r ty label is test ho hcmp =>
    obtain ⟨⟨hl, hr'⟩, -⟩ := IR.Instr.kind?_binary (of_decide_eq_true hx)
    obtain ⟨rfl, heq⟩ := hcmp.afterAll_eq ho hl hr' ty hp hr label stack
    refine safeFor_last hstands hcmp.plain heq (fun _ ↦ ?_) fun name q hname hq ↦ ?_
    · simpa [Nat.add_assoc] using hsame rfl rfl rfl
    · rw [(hcmp.test_target? label).1] at hname
      exact hjump name q hname hq
  | @branchNot _ _ y ty label is hload =>
    obtain ⟨hy, -⟩ := IR.Instr.kind?_unary (of_decide_eq_true hx)
    obtain ⟨rfl, heq⟩ := hload.afterAll_instr (i := .ifZero .eq label) rfl (by simp) rfl hy
      (hp y (by simp [loadsOf])) hr stack
    refine safeFor_last hstands hload.plain heq (fun _ ↦ ?_) hjump
    simpa [Instr.leaves?, Nat.add_assoc] using hsame rfl rfl rfl
  | @branch _ _ cond label is hval =>
    obtain ⟨rfl, heq⟩ := hval.afterAll_eq (of_decide_eq_true hx) hp hr stack
    have htest : (Instr.ifZero .ne label).after ⟨.int :: stack, slots⟩ = some ⟨stack, slots⟩ :=
      Instr.after_of_takes rfl (by simp) rfl stack slots
    refine safeFor_last hstands hval.plain (by simp [heq, htest]) (fun _ ↦ ?_) hjump
    simpa [Nat.add_assoc] using hsame rfl rfl rfl
  | @putStatic _ _ field value is hload =>
    simp only [IR.Instr.fitsKinds, Bool.and_eq_true, decide_eq_true_eq] at hx
    obtain ⟨rfl, heq⟩ := hload.afterAll_instr
      (i := .putStatic (fieldName c .missing field.name) (descriptor c field.ty)) rfl (by simp)
      (by rw [Instr.takes, Kind.ofDescriptor_descriptor]) hx.2 (hp value (by simp [loadsOf])) hr stack
    refine safeFor_last hstands hload.plain heq (fun _ ↦ ?_) (by rintro _ _ ⟨⟩)
    simpa [Instr.leaves?, Nat.add_assoc] using hsame rfl rfl rfl
  | @putField _ _ _ object field value is js hload hload' =>
    have hm := hload.ne_missing
    simp only [IR.Instr.fitsKinds, Bool.and_eq_true, Bool.or_eq_true, decide_eq_true_eq, hm,
      false_or] at hx
    rw [loadsOf_putField hm] at hp hr
    have hall := LoadsAll.cons hload (.cons hload' .nil)
    rw [List.append_nil] at hall
    obtain ⟨rfl, heq⟩ := hall.afterAll_instr
      (i := .putField (fieldName c object field.name) (descriptor c field.ty)) rfl (by simp)
      (by
        rw [Instr.takes, Kind.ofDescriptor_descriptor]
        exact .cons hx.1 (.cons hx.2 .nil)) hp hr stack
    refine safeFor_last hstands hall.plain heq (fun _ ↦ ?_) (by rintro _ _ ⟨⟩)
    simpa [Instr.leaves?, Nat.add_assoc] using hsame rfl rfl rfl
  | @discard _ _ _ x ls hcall hval =>
    obtain ⟨kind, hkind⟩ := hval.exists_kind hcall hx
    obtain ⟨rfl, hsafe⟩ := hval.safeFor (n := n + 1) hu hkind hp hr hstands.left stack
    refine hsafe ((safeFor_of_instr hstands.right.head).2
      ⟨_, Instr.after_pop kind stack slots, fun _ ↦ ?_, by rintro _ _ ⟨⟩⟩).pred
    simpa [Nat.add_assoc] using hsame hval.fallsThrough hval.defs?_eq_none_and.1 rfl

end

/-! ## Methods -/

/-- What is wanted at an instruction is of its kind: the temporary on the stack, and the variables in
their slots. -/
structure KindsAt (m : Method) (es : Nat → Emitter) (i : Nat) (k : Kinds) : Prop where
  le : i ≤ m.code.length
  stack : ∃ rest, k.stack = onTop (kindOf m) (es i).onStack rest
  inKind : ∀ v, m.Live v i → (es i).onStack ≠ some v → InKind m k.slots v

section
variable {c : ClassDef} {m : Method} {lines : List Line} {es : Nat → Emitter}

theorem Layout.safeFor_place (h : Layout c m lines es) {i j n : Nat} {k : Kinds}
    (hj : j ≤ if i < m.code.length then (m.labels.namesAt i).length else 0)
    (hs : SafeFor lines n (place m es i) k) : SafeFor lines n ((es i).lines.length + j) k := by
  obtain ⟨names, hstands, hplace⟩ := h.labels_before_place hj
  rw [← hplace] at hs
  exact safeFor_labels hstands hs

variable {x : IR.Instr}

/-- An instruction that writes no variable leaves nothing on the stack. -/
theorem Layout.onStack_eq_none (h : Layout c m lines es) {i : Nat} (hx : m.code[i]? = some x)
    (hd : x.defs? = none) : (es (i + 1)).onStack = none := by
  cases hs : (es (i + 1)).onStack with
  | none => rfl
  | some name =>
    obtain ⟨j, hij, hstays⟩ := h.staysOnStack (List.getElem?_eq_some_iff.1 hx).1 hs
    obtain rfl := Nat.succ.inj hij
    obtain ⟨ty, ty', rhs, hassign⟩ := hstays.assigned
    obtain rfl := Option.some.inj (hx.symm.trans hassign)
    cases hd

/-- Live variables keep their kinds over an instruction. -/
theorem inKind_after (hspares : Spares m) {i j : Nat} {slots : Nat → Option Kind} {left : Option Text}
    (hx : m.code[i]? = some x) (hn : m.Next i j) (hin : ∀ v, m.Live v i → m.Live v j → InKind m slots v)
    {v : Text} (hv : m.Live v j) (hleft : left ≠ some v) :
    InKind m (written m x left slots m.vars.kind?) v := by
  intro slot hslot
  by_cases hd : x.defs? = some v
  · exact written_self hd hleft hslot slots m.vars.kind?
  · have hlive : m.Live v i := .later (by rw [Method.defAt, hx]; exact hd) hn hv
    rw [written_of_live hspares hx hn hv hd hslot]
    exact hin v hlive hv slot hslot

/-- Whichever way control goes from an instruction, what is wanted there is of its kind. -/
theorem Layout.kindsAt_after (h : Layout c m lines es) (hf : ∀ x ∈ m.code, LoadsFirst x)
    (hspares : Spares m) {i j : Nat} {k : Kinds} (hi : KindsAt m es i k) (hx : m.code[i]? = some x)
    (hn : m.Next i j) (hs : (es j).onStack = (es (i + 1)).onStack) (hj : j ≤ m.code.length)
    (rest : List Kind) :
    KindsAt m es j ⟨onTop (kindOf m) (es (i + 1)).onStack rest,
      written m x (es (i + 1)).onStack k.slots m.vars.kind?⟩ := by
  refine ⟨hj, ⟨rest, by rw [hs]⟩, fun v hv hne ↦ inKind_after hspares hx hn ?_ hv (hs ▸ hne)⟩
  exact fun v hlive hv ↦ hi.inKind v hlive (onStack_ne_of_live h hf hi.le hn hv)

/-- **From every instruction on the lines are safe**, by induction on the number of steps; an instruction
that does not jump leads to the next one, and there are so many of them. -/
theorem Layout.safeFor (h : Layout c m lines es) (hcheck : m.check = .ok ())
    (hk : ∀ x ∈ m.code, x.fitsKinds m.vars = true) (hp : m.PlainIndices) (hspares : Spares m)
    (n i : Nat) (k : Kinds) (hi : KindsAt m es i k) : SafeFor lines n (place m es i) k := by
  have hshaped : ∀ x ∈ m.code, isShaped x = true := by
    intro x hx
    obtain ⟨j, hj⟩ := List.mem_iff_getElem?.1 hx
    obtain ⟨ls, hls, -⟩ := (h.emitsAt j x hj).emits
    exact hls.isShaped
  have hfirst : ∀ x ∈ m.code, LoadsFirst x := fun x hx ↦ loadsFirst_of_isShaped (hshaped x hx)
  induction n generalizing i k with
  | zero => trivial
  | succ n ih =>
    obtain ⟨d, hd⟩ : ∃ d, m.code.length - i = d := ⟨_, rfl⟩
    induction d generalizing i k with
    | zero =>
      have hle := hi.le
      obtain rfl : i = m.code.length := by omega
      exact safeFor_of_end h.getElem?_place_length _ _
    | succ d ihd =>
      have hlt : i < m.code.length := by omega
      obtain ⟨x, hx⟩ : ∃ x, m.code[i]? = some x := ⟨_, List.getElem?_eq_getElem hlt⟩
      have hmem := List.mem_of_getElem? hx
      obtain ⟨rest, hrest⟩ := hi.stack
      obtain ⟨ls, hls, happ⟩ := (h.emitsAt i x hx).emits
      obtain ⟨hstands, hend⟩ := h.standsAt_place hx happ
      have hready : ReadyBy (InKind m k.slots) (es i).onStack (loadsOf x) :=
        readyBy_loadsOf hx (hfirst x hmem) (fun name hs ↦ h.staysOnStack hi.le hs)
          fun name hn hs ↦ hi.inKind name (.use hx hn) hs
      have hplain : ∀ y ∈ loadsOf x, y.isPlain = true :=
        fun y hy ↦ hp x hmem y (mem_operands_of_loadsOf (hshaped x hmem) hy)
      have hafter {j : Nat} (hn : m.Next i j) := h.kindsAt_after hfirst hspares hi hx hn
      have hsafe : SafeFor lines (n + 1) (place m es i)
          ⟨onTop (kindOf m) (es i).onStack rest, k.slots⟩ := by
        refine hls.safeFor h.uniqueLabels (hk x hmem) hplain hready hstands rest (fun hf rest' ↦ ?_)
          fun label q ht hq ↦ ?_
        · rw [hend]
          refine h.safeFor_place (j := 0) (Nat.zero_le _) (ihd (i + 1) _ ?_ (by omega))
          exact hafter (.fall hx hf) rfl hlt rest'
        · obtain ⟨j, hj, htarget⟩ := h.target hcheck hx ht
          obtain ⟨q', hq', hlabel⟩ := h.label_at htarget hj
          rw [h.uniqueLabels q _ label hq hlabel]
          refine h.safeFor_place (by rwa [if_pos hj]) (ih j _ ?_)
          have hdefs := (hls.instrs_of_target ht).1
          have hnone := h.onStack_eq_none hx hdefs
          have hthere := hafter (.jump hx ht htarget)
            ((onStack_eq_none_of_label h (Nat.le_of_lt hj) htarget).trans hnone.symm)
            (Nat.le_of_lt hj) rest
          rwa [hnone, written_of_defs? hdefs] at hthere
      rwa [← hrest] at hsafe

/-! ## Classes -/

/-- What the slots hold at the start of a method: the receiver and the arguments. -/
def argKinds (m : Method) (slot : Nat) : Option Kind :=
  if slot < m.firstParam then some .ref
  else m.params[slot - m.firstParam]?.map fun p ↦ .ofTy p.ty

/-- A method that uses its variables by their kinds: it passes its check, its variables have names and
are in the table as lowering puts them there, with the types of the receiver and the parameters, nothing
but the arguments is wanted at the start, its labels are not private ones, and all operands have the kinds
that they need. -/
structure KindCorrect (m : Method) : Prop where
  check : m.check = .ok ()
  names : ∀ x ∈ m.code, ∀ name ∈ x.names, name ≠ ""
  table : m.StandardTable
  receiver : m.isStatic = false → m.vars.kind? Method.receiver = some .ref
  params : ∀ p ∈ m.params, ∀ x, m.vars.get? p.name = some x → x.ty = p.ty
  entry : ∀ v, Allocation.IsFree m v → ¬ m.Live v 0
  labels : ∀ entry ∈ m.labels.entries, ¬ IsPrivate entry.1
  kinds : ∀ x ∈ m.code, x.fitsKinds m.vars = true

/-- **The lines of an allocated method are kind-safe.** -/
theorem KindCorrect.kindSafe {m' : Method} {s : Strategy} (hm : KindCorrect m) (hp : m.PlainIndices)
    (ha : Allocation.method s m = .ok m') {e : Emitter} (he : emitMethod c m' = .ok e) :
    KindSafe e.lines ⟨[], argKinds m⟩ := by
  obtain ⟨reg, rfl, hsafe, hspares⟩ := exists_spares (Allocation.known_of_method ha) hm.check hm.table ha
  obtain ⟨es, hlayout⟩ := exists_layout (by exact hm.names) (by exact hm.labels) he
  refine kindSafe_of_safeFor fun n ↦ ?_
  have hfirst : (es 0).lines.length + 0 = 0 := by rw [hlayout.first]; rfl
  rw [← hfirst]
  refine hlayout.safeFor_place (Nat.zero_le _) ?_
  refine hlayout.safeFor (Allocation.check_mapReg hm.check reg)
    (fun x hx ↦ (IR.Instr.fitsKinds_mapReg _ _ x).trans (hm.kinds x hx)) hp hspares n 0 _ ?_
  refine ⟨Nat.zero_le _, ⟨[], by rw [hlayout.first]; rfl⟩, fun v hv _ slot hslot ↦ ?_⟩
  -- what is live at the start is an argument
  have hv' : m.Live v 0 := hv.congr (by rfl) (by rfl)
  rw [VarTable.kind?_mapReg]
  rcases Allocation.cases_of_contains hm.table (hv'.names.contains hm.check) with
    ⟨rfl, hstatic⟩ | ⟨i, p, hparam, rfl⟩ | hfree
  · obtain rfl := Option.some.inj (hslot.symm.trans (hsafe.receiver hstatic))
    simp [argKinds, Method.firstParam, hstatic, hm.receiver hstatic]
  · obtain rfl := Option.some.inj (hslot.symm.trans (hsafe.param i p hparam))
    obtain ⟨x, hx, -⟩ := hm.table.param p (List.mem_of_getElem? hparam)
    have hty := hm.params p (List.mem_of_getElem? hparam) x hx
    simp [argKinds, VarTable.kind?, hx, hparam, hty]
  · exact absurd hv' (hm.entry v hfree)

end

end Jvm

open Jvm in
/-- **Emitted code is kind-safe, slots that are shared included**: for every method that uses its variables
by their kinds, and whose indices are literals or variables, on every path through its lines every
instruction finds operands of the kinds that it needs. -/
theorem emitted_code_is_kind_safe {s : Strategy} {c c' : ClassDef} {text : Text}
    (halloc : Allocation.cls s c = .ok c') (htext : assemble c' = .ok text) :
    ∃ es : List Emitter, Assembled c' es text ∧
      List.Forall₂ (fun m e ↦ KindCorrect m → m.PlainIndices → KindSafe e.lines ⟨[], argKinds m⟩)
        c.methods es := by
  obtain ⟨es, hes⟩ := assemble_spec htext
  refine ⟨es, hes, (forall₂_comp (cls_spec halloc).1 hes.emitted).imp ?_⟩
  rintro m e ⟨m', ha, he⟩ hm hp
  exact hm.kindSafe hp ha he

/-- A method in which a reference and an integer share a slot. -/
def squareMethod : Method where
  name := "square"
  isStatic := true
  params := [⟨"n", .int⟩]
  ret := .int
  code := [
    .assign (.var "a" (.array .int)) (.array .int)
      (.call { kind := .newArray, args := [.var "n" .int], ret := .array .int }),
    .assign (.var "n" .int) .int
      (.call { kind := .arrayLength, caller := .var "a" (.array .int), ret := .int }),
    .assign (.var "k" .int) .int (.binary .add (.var "n" .int) (.literal "1" .int) .int),
    .assign (.var "n" .int) .int (.binary .mul (.var "n" .int) (.var "k" .int) .int),
    .ret (.var "n" .int) .int]
  vars := ⟨[⟨"n", .int, .param, -1⟩, ⟨"a", .array .int, .declared, -1⟩, ⟨"k", .int, .declared, -1⟩],
    by decide⟩

/-- A class with this method. -/
def square : ClassDef where
  name := "Square"
  methods := [squareMethod]

theorem squareMethod_kindCorrect : Jvm.KindCorrect squareMethod where
  check := by decide
  names := by decide
  table :=
    { receiver := by rintro ⟨⟩
      ofThis := by decide
      nodup := by decide
      param := List.forall_mem_singleton.2 ⟨_, rfl, rfl⟩
      ofParam := by decide
      known := by decide }
  receiver := by rintro ⟨⟩
  params := by
    refine List.forall_mem_singleton.2 fun x hx ↦ ?_
    cases hx
    rfl
  entry := by
    intro v hv hlive
    obtain rfl | rfl : v = "a" ∨ v = "k" := by
      have hmem := Allocation.mem_free_iff.2 hv
      simpa [squareMethod, Allocation.free, Allocation.isFree] using hmem
    · exact (hlive.after rfl (by decide) rfl).1 rfl
    · have hnext := (hlive.after rfl (by decide) rfl).2.after rfl (by decide) rfl
      exact (hnext.2.after rfl (by decide) rfl).1 rfl
  labels := by rintro _ ⟨⟩
  kinds := by decide

open Allocation in
theorem square_is_kind_safe : Jvm.KindCorrect squareMethod ∧ squareMethod.PlainIndices ∧
    ∃ c' text e, Allocation.cls .ranges square = .ok c' ∧ Jvm.assemble c' = .ok text ∧
      Jvm.Assembled c' [e] text ∧
      (∀ m ∈ c'.methods, m.slot? "a" = some 1 ∧ m.slot? "k" = some 1) ∧
      Jvm.KindSafe e.lines ⟨[], Jvm.argKinds squareMethod⟩ := by
  have hplain : squareMethod.PlainIndices := by
    rw [Method.PlainIndices]
    decide
  refine ⟨squareMethod_kindCorrect, hplain, ?_⟩
  obtain ⟨c', text, halloc, htext, hslots⟩ := Except.exists_of_test (x := Allocation.cls .ranges square)
    (f := Jvm.assemble) (P := fun c' _ ↦ c'.methods.all fun m ↦
      decide (m.slot? "a" = some 1 ∧ m.slot? "k" = some 1)) (by
      simp only [cls, Allocation.method, Allocation.run, allocate, placeFree, numbering, Graph.colors,
        Graph.colorList, Graph.order_eq_insertionSort]
      decide +kernel)
  simp only [List.all_eq_true, decide_eq_true_eq] at hslots
  obtain ⟨es, hes, hall⟩ := emitted_code_is_kind_safe halloc htext
  cases hall with
  | cons hm hrest =>
    cases hrest
    exact ⟨c', text, _, halloc, htext, hes, hslots, hm squareMethod_kindCorrect hplain⟩

/-- A method that reads an element at an index which is an element itself. -/
def nestedMethod : Method where
  name := "f"
  isPublic := true
  isStatic := true
  params := [⟨"a", .array .int⟩]
  ret := .int
  code := [
    .assign (.var "b" (.array .int)) (.array .int)
      (.call { kind := .newArray, args := [.literal "1" .int], ret := .array .int }),
    .assign (.var "k" .int) .int (.single (.literal "1" .int)),
    .assign (.var "k" .int) .int (.binary .add (.var "k" .int)
      (.elem "a" (.elem "b" (.literal "0" .int) .int) .int) .int),
    .ret (.var "k" .int) .int]
  vars := ⟨[⟨"a", .array .int, .param, -1⟩, ⟨"b", .array .int, .declared, -1⟩,
    ⟨"k", .int, .declared, -1⟩], by decide⟩

/-- A class with this method. -/
def nested : ClassDef where
  name := "K"
  super := "java/lang/Object"
  methods := [nestedMethod]

/-- The lines before the array of the inner element is loaded. -/
def nestedFront : List Jvm.Instr :=
  [.push 1, .newArray "int", .store .ref 1, .push 1, .store .int 1, .load .int 1, .load .ref 0]

/-- The lines from there on. -/
def nestedBack : List Jvm.Instr :=
  [.load .ref 1, .push 0, .arrayLoad .int, .arrayLoad .int, .arith .add, .store .int 1, .load .int 1,
    .retValue .int]

theorem nestedMethod_kindCorrect : Jvm.KindCorrect nestedMethod where
  check := by decide
  names := by decide
  table :=
    { receiver := by rintro ⟨⟩
      ofThis := by decide
      nodup := by decide
      param := List.forall_mem_singleton.2 ⟨_, rfl, rfl⟩
      ofParam := by decide
      known := by decide }
  receiver := by rintro ⟨⟩
  params := by
    refine List.forall_mem_singleton.2 fun x hx ↦ ?_
    cases hx
    rfl
  entry := by
    intro v hv hlive
    obtain rfl | rfl : v = "b" ∨ v = "k" := by
      have hmem := Allocation.mem_free_iff.2 hv
      simpa [nestedMethod, Allocation.free, Allocation.isFree] using hmem
    · exact (hlive.after rfl (by decide) rfl).1 rfl
    · exact ((hlive.after rfl (by decide) rfl).2.after rfl (by decide) rfl).1 rfl
  labels := by rintro _ ⟨⟩
  kinds := by decide

theorem nested_not_kindSafe : ¬ Jvm.KindSafe ((nestedFront ++ nestedBack).map .instr)
    ⟨[], Jvm.argKinds nestedMethod⟩ := by
  intro h
  have hstands : Jvm.StandsAt (nestedFront.map .instr) ((nestedFront ++ nestedBack).map .instr) 0 := by
    rw [List.map_append]
    exact Jvm.standsAt_append [] (nestedBack.map .instr)
  have hplain : Jvm.Plain nestedFront := by
    rw [Jvm.Plain]
    decide
  have hkinds : Jvm.afterAll nestedFront ⟨[], Jvm.argKinds nestedMethod⟩ = some ⟨[.ref, .int],
      Function.update (Function.update (Jvm.argKinds nestedMethod) 1 (some .ref)) 1 (some .int)⟩ := rfl
  have hload := h _ _ (.load .ref 1) (Jvm.KindPath.start.plain hstands hplain hkinds) rfl
  cases hload

open Allocation in
/-- **The array of an index that is an element is not seen to be wanted**, so an integer takes its slot
and is loaded as a reference. -/
theorem nested_index_is_not_kind_safe : Jvm.KindCorrect nestedMethod ∧ ¬ nestedMethod.PlainIndices ∧
    ∃ c' text e, Allocation.cls .ranges nested = .ok c' ∧ Jvm.assemble c' = .ok text ∧
      Jvm.Assembled c' [e] text ∧
      ¬ Jvm.KindSafe e.lines ⟨[], Jvm.argKinds nestedMethod⟩ := by
  refine ⟨nestedMethod_kindCorrect, by rw [Method.PlainIndices]; decide, ?_⟩
  obtain ⟨c', text, halloc, htext, hlines⟩ := Except.exists_of_test
    (x := Allocation.cls .ranges nested) (f := Jvm.assemble)
    (P := fun c' _ ↦ c'.methods.all fun m ↦ decide ((Jvm.emitMethod c' m).toOption.map
      Jvm.Emitter.lines = some ((nestedFront ++ nestedBack).map .instr))) (by
      simp only [cls, Allocation.method, Allocation.run, allocate, placeFree, numbering, Graph.colors,
        Graph.colorList, Graph.order_eq_insertionSort]
      decide +kernel)
  simp only [List.all_eq_true, decide_eq_true_eq] at hlines
  obtain ⟨es, hes⟩ := Jvm.assemble_spec htext
  cases forall₂_comp (Jvm.cls_spec halloc).1 hes.emitted with
  | @cons _ e _ _ _ hrest =>
    cases hrest
    refine ⟨c', text, e, halloc, htext, hes, ?_⟩
    obtain ⟨m', hm', he⟩ := exists_of_mem_right hes.emitted (List.mem_singleton_self e)
    have hthere := hlines m' hm'
    rw [he] at hthere
    rw [show e.lines = _ from Option.some.inj hthere]
    exact nested_not_kindSafe

end MiniJava
