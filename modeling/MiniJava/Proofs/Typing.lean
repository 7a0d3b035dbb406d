import MiniJava.Proofs.ControlFlow
import MiniJava.Proofs.JvmMachine
import MiniJava.Proofs.Tables

/-!
# Well-typed code

Which instructions fit the types they are written with, as a test that can be run, and what that
means: `Ty.Holds` says which values a type has, and a well-typed instruction whose variables hold values
of their types is never stuck and computes a value of its type.

Types are told apart as far as the stack machine does: all references are alike, and a boolean may
stand where an integer is wanted.
-/

set_option autoImplicit false

namespace MiniJava

namespace Ty

/-- A value of the type. -/
def Holds : Ty → Word → Prop
  | .int, v => v.kind = .int
  | .bool, v => v.bool?.isSome = true
  | .void, _ | .absent, _ => False
  | .string, v | .array _, v | .object _ _, v | .receiver _, v => v.kind = .ref

/-- Values of the first type can stand where one of the second is wanted. -/
def fits (s t : Ty) : Bool :=
  s.isRef && t.isRef || !s.isVoid && (s == t || (s == .bool && t == .int))

variable {v : Word}

theorem holds_of_isRef {t : Ty} (h : t.isRef = true) : t.Holds v ↔ v.kind = .ref := by
  cases t with
  | string | array _ | object _ _ | receiver _ => rfl
  | absent | int | bool | void => cases h

theorem kind_of_holds {t : Ty} (h : t.Holds v) : v.kind = Jvm.Kind.ofTy t := by
  cases t with
  | bool =>
    cases v with
    | int v => rfl
    | ref id => cases h
  | void | absent => cases h
  | int | string | array _ | object _ _ | receiver _ => exact h

theorem Holds.of_fits {s t : Ty} (h : s.fits t = true) (hv : s.Holds v) : t.Holds v := by
  simp only [fits, Bool.or_eq_true, Bool.and_eq_true, beq_iff_eq] at h
  rcases h with ⟨hs, ht⟩ | ⟨-, rfl | ⟨rfl, rfl⟩⟩
  · exact (holds_of_isRef ht).2 ((holds_of_isRef hs).1 hv)
  · exact hv
  · exact kind_of_holds hv

theorem isVoid_of_fits {s t : Ty} (h : s.fits t = true) : s.isVoid = false ∧ t.isVoid = false := by
  simp only [fits, Bool.or_eq_true, Bool.and_eq_true, Bool.not_eq_true', beq_iff_eq] at h
  rcases h with ⟨hs, ht⟩ | ⟨hs, rfl | ⟨rfl, rfl⟩⟩
  · exact ⟨isVoid_eq_false_of_isRef hs, isVoid_eq_false_of_isRef ht⟩
  · exact ⟨hs, hs⟩
  · exact ⟨rfl, rfl⟩

theorem exists_int (h : Ty.int.Holds v) : ∃ x, v = .int x := by
  cases v with
  | int x => exact ⟨x, rfl⟩
  | ref id => cases h

theorem exists_bool (h : Ty.bool.Holds v) : ∃ b, v = .ofBool b := by
  obtain ⟨b, hb⟩ := Option.isSome_iff_exists.1 h
  exact ⟨b, Word.eq_ofBool hb⟩

theorem holds_ofBool (b : Bool) : Ty.bool.Holds (.ofBool b) := by
  rw [Holds, Word.bool?_ofBool]
  rfl

end Ty

namespace IR

/-! ## The test -/

/-- The types that an array can be made of. -/
def isElement : Ty → Bool
  | .int | .bool | .string | .object _ _ => true
  | _ => false

namespace Operation

/-- What an operation answers, `void` if nothing. -/
def result : Operation → Ty
  | newObject cls => .object cls false
  | newArray ty => ty
  | arrayLength => .int
  | invoke _ _ _ _ _ ret => ret
  | arrayLoad elem => elem
  | getStatic _ ty | getField _ _ ty => ty
  | arrayStore _ | putStatic _ | putField _ _ => .void

/-- There is an instruction of the stack machine for the operation. -/
def isSupported : Operation → Bool
  | newArray ty => isElement ty.elem
  | invoke kind caller _ _ _ _ =>
    match kind with
    | .static => true
    | .special | .virtual | .interface => caller.className?.isSome
    | _ => false
  | _ => true

end Operation

/-- The type of the operands of an operator. -/
def Op.operand (op : Op) : Ty := if op.isLogic then .bool else .int

/-- The operator takes two operands. -/
def Op.isBinary : Op → Bool
  | .not | .neg | .other _ => false
  | _ => true

/-- A literal or a variable. -/
def Operand.isSimple : Operand → Bool
  | .literal _ _ | .var _ _ => true
  | _ => false

section
variable (t : VarTable)

/-- An operand that fits the table of the variables.  The index of an element is a literal or a
variable. -/
def Operand.wellTyped : Operand → Bool
  | .missing => false
  | .literal text ty =>
    match Literal.value text with
    | .ok v => ty == .int || (ty == .bool && (v == 0 || v == 1))
    | .error _ => false
  | .var name ty =>
    match t.get? name with
    | some x => x.ty.fits ty
    | none => false
  | .elem _ index ty => index.isSimple && index.wellTyped && !ty.isVoid

/-- A call whose operands fit, and whose result is of the type that is stated. -/
def Call.wellTyped (x : Call) : Bool :=
  x.operation.isSupported && (x.operation.result == x.ret || x.operation.result.fits x.ret) &&
    match x.operands? with
    | some operands => operands.all (Operand.wellTyped t)
    | none => false

/-- An instruction that computes a value of its type. -/
def Instr.hasValue : Instr → Bool
  | .single x => x.wellTyped t
  | .binary op l r ty =>
    op.isBinary && l.wellTyped t && r.wellTyped t && l.ty.fits op.operand && r.ty.fits op.operand &&
      op.result.fits ty
  | .unary op x ty =>
    (op == .not || op == .neg) && x.wellTyped t && x.ty.fits op.operand && op.result.fits ty
  | .call x => x.wellTyped t && !x.ret.isVoid
  | .getField object _ ty => (object == .missing || object.wellTyped t) && !ty.isVoid
  | _ => false

/-- An instruction that fits the types it is written with. -/
def Instr.wellTyped : Instr → Bool
  | .assign (.var name _) _ rhs =>
    rhs.hasValue t &&
      match t.get? name with
      | some x => rhs.ty.fits x.ty
      | none => false
  | .assign (.elem base index ty) _ rhs =>
    (Operand.elem base index ty).wellTyped t && rhs.hasValue t && rhs.ty.fits ty
  | .call x => x.wellTyped t
  | .ret .missing _ => true
  | .ret x ty => x.wellTyped t && x.ty.fits ty
  | .goto _ => true
  | .branch cond _ => cond.hasValue t && cond.ty.fits .bool
  | .putField object field value =>
    (object == .missing || object.wellTyped t) && value.wellTyped t && value.ty.fits field.ty
  | x => x.hasValue t

end

theorem Instr.wellTyped_ret {t : VarTable} {x : Operand} (h : x ≠ .missing) (ty : Ty) :
    (Instr.ret x ty).wellTyped t = (x.wellTyped t && x.ty.fits ty) := by
  cases x with
  | missing => exact absurd rfl h
  | literal _ _ | var _ _ | elem _ _ _ => rfl

/-! ## What it means -/

/-- Answers of the type that an operation promises. -/
def Answers {K : Type} (ask : Operation → List Word → Act K Word) : Prop :=
  ∀ a vs, a.isSupported = true →
    (ask a vs).Gives fun v ↦ a.result.isVoid = false → a.result.Holds v

/-- A variable holds a value of its type. -/
def HoldsAt (t : VarTable) (store : Text → Word) (name : Text) : Prop :=
  ∃ x, t.get? name = some x ∧ x.ty.Holds (store name)

section
variable {K : Type} {ask : Operation → List Word → Act K Word} {t : VarTable} {store : Text → Word}

theorem Op.gives_apply {op : Op} (h : op.isBinary = true) {a b : Word} (ha : op.operand.Holds a)
    (hb : op.operand.Holds b) : (op.apply a b : Act K Word).Gives op.result.Holds := by
  cases op with
  | not | neg | other text => cases h
  | and | or =>
    obtain ⟨p, rfl⟩ := Ty.exists_bool ha
    obtain ⟨q, rfl⟩ := Ty.exists_bool hb
    simp only [apply, Word.bool?_ofBool]
    exact .pure (Ty.holds_ofBool _)
  | add | sub | mul =>
    obtain ⟨x, rfl⟩ := Ty.exists_int ha
    obtain ⟨y, rfl⟩ := Ty.exists_int hb
    exact .pure rfl
  | div =>
    obtain ⟨x, rfl⟩ := Ty.exists_int ha
    obtain ⟨y, rfl⟩ := Ty.exists_int hb
    rw [apply]
    split
    · exact .throw (by simp)
    · exact .pure rfl
  | lt | le | gt | ge | eq | ne =>
    obtain ⟨x, rfl⟩ := Ty.exists_int ha
    obtain ⟨y, rfl⟩ := Ty.exists_int hb
    rw [apply_compare rfl]
    exact .pure (Ty.holds_ofBool _)

theorem Op.gives_applyUnary {op : Op} (h : op = .not ∨ op = .neg) {a : Word}
    (ha : op.operand.Holds a) : (op.applyUnary a : Act K Word).Gives op.result.Holds := by
  rcases h with rfl | rfl
  · obtain ⟨p, rfl⟩ := Ty.exists_bool ha
    simp only [applyUnary, Word.bool?_ofBool]
    exact .pure (Ty.holds_ofBool _)
  · obtain ⟨x, rfl⟩ := Ty.exists_int ha
    exact .pure rfl

theorem Operand.uses_elem {index : Operand} (h : index.isSimple = true) (base : Text) (ty : Ty) :
    (Operand.elem base index ty).uses = base :: index.uses := by
  cases index with
  | missing | elem _ _ _ => cases h
  | literal _ _ | var _ _ => rfl

theorem Operand.gives_eval (hask : Answers ask) {x : Operand} (hx : x.wellTyped t = true)
    (hs : ∀ name ∈ x.uses, HoldsAt t store name) : (x.eval ask store).Gives x.ty.Holds := by
  induction x with
  | missing => cases hx
  | literal text ty =>
    rw [wellTyped] at hx
    rw [eval]
    cases hv : Literal.value text with
    | error e =>
      rw [hv] at hx
      cases hx
    | ok v =>
      simp only [hv, Bool.or_eq_true, Bool.and_eq_true, beq_iff_eq] at hx
      rcases hx with rfl | ⟨rfl, rfl | rfl⟩
      · exact .pure rfl
      · exact .pure rfl
      · exact .pure rfl
  | var name ty =>
    obtain ⟨y, hy, hv⟩ := hs name (by simp [uses])
    rw [wellTyped, hy] at hx
    exact .pure (hv.of_fits hx)
  | elem base index ty ih =>
    simp only [wellTyped, Bool.and_eq_true, Bool.not_eq_true'] at hx
    obtain ⟨⟨hsimple, hindex⟩, hvoid⟩ := hx
    rw [uses_elem hsimple] at hs
    refine (ih hindex fun name hn ↦ hs name (by simp [hn])).bind fun i _ ↦ ?_
    exact (hask _ _ rfl).mono fun v hv ↦ hv hvoid

theorem Call.uses_of_operands? {x : Call} {operands : List Operand} (h : x.operands? = some operands)
    {y : Operand} (hy : y ∈ operands) {name : Text} (hn : name ∈ y.uses) :
    name ∈ (Instr.call x).uses := by
  rw [Instr.uses, List.mem_append, List.mem_flatMap]
  rw [operands?] at h
  split at h
  · cases h
    cases hy
  · split at h
    · cases h
      exact .inr ⟨y, hy, hn⟩
    · cases h
  · cases h
    rw [List.mem_singleton] at hy
    subst hy
    exact .inl hn
  · cases h
    exact .inr ⟨y, hy, hn⟩
  case h_5 | h_6 | h_7 =>
    cases h
    rcases List.mem_cons.1 hy with rfl | hy
    · exact .inl hn
    · exact .inr ⟨y, hy, hn⟩
  · cases h

/-- The operands of a well-typed call can be evaluated. -/
theorem Call.gives_operands (hask : Answers ask) {x : Call} (hx : x.wellTyped t = true)
    (hs : ∀ name ∈ (Instr.call x).uses, HoldsAt t store name) {operands : List Operand}
    (ho : x.operands? = some operands) :
    (operands.mapM (Operand.eval ask store)).Gives fun vs ↦ vs.length = operands.length := by
  simp only [wellTyped, Bool.and_eq_true, ho, List.all_eq_true] at hx
  refine Act.Gives.mapM (P := fun _ ↦ True) fun y hy ↦ ?_
  exact (Operand.gives_eval hask (hx.2 y hy) fun name hn ↦
    hs name (uses_of_operands? ho hy hn)).mono fun _ _ ↦ trivial

theorem Call.gives_eval (hask : Answers ask) {x : Call} (hx : x.wellTyped t = true)
    (hs : ∀ name ∈ (Instr.call x).uses, HoldsAt t store name) :
    (x.eval ask store).Gives fun v ↦ x.ret.isVoid = false → x.ret.Holds v := by
  rw [eval]
  cases ho : x.operands? with
  | none =>
    simp only [wellTyped, ho, Bool.and_false] at hx
    cases hx
  | some operands =>
    refine (gives_operands hask hx hs ho).bind fun vs _ ↦ ?_
    simp only [wellTyped, Bool.and_eq_true, Bool.or_eq_true, beq_iff_eq] at hx
    obtain ⟨⟨hsupp, hret⟩, -⟩ := hx
    refine (hask _ _ hsupp).mono fun v hv hvoid ↦ ?_
    rcases hret with hret | hret
    · rw [hret] at hv
      exact hv hvoid
    · exact (hv (Ty.isVoid_of_fits hret).1).of_fits hret

/-- A binary operation computes a value of the type that its operator gives. -/
theorem Instr.gives_binary (hask : Answers ask) {op : Op} {l r : Operand} {ty : Ty}
    (hx : (Instr.binary op l r ty).hasValue t = true)
    (hs : ∀ name ∈ (Instr.binary op l r ty).uses, HoldsAt t store name) :
    ((Instr.binary op l r ty).eval ask store).Gives op.result.Holds := by
  simp only [hasValue, Bool.and_eq_true] at hx
  obtain ⟨⟨⟨⟨⟨hop, hl⟩, hr⟩, hlt⟩, hrt⟩, -⟩ := hx
  rw [uses] at hs
  refine (Operand.gives_eval hask hl fun n hn ↦ hs n (by simp [hn])).bind fun a ha ↦ ?_
  refine (Operand.gives_eval hask hr fun n hn ↦ hs n (by simp [hn])).bind fun b hb ↦ ?_
  exact Op.gives_apply hop (ha.of_fits hlt) (hb.of_fits hrt)

variable {x : Instr}

/-- An instruction that has a value computes one of its type. -/
theorem Instr.gives_eval (hask : Answers ask) (hx : x.hasValue t = true)
    (hs : ∀ name ∈ x.uses, HoldsAt t store name) : (x.eval ask store).Gives x.ty.Holds := by
  cases x with
  | single y => exact Operand.gives_eval hask hx hs
  | binary op l r ty =>
    refine (gives_binary hask hx hs).mono fun v hv ↦ hv.of_fits ?_
    simp only [hasValue, Bool.and_eq_true] at hx
    exact hx.2
  | unary op y ty =>
    simp only [hasValue, Bool.and_eq_true, Bool.or_eq_true, beq_iff_eq] at hx
    obtain ⟨⟨⟨hop, hy⟩, hyt⟩, hty⟩ := hx
    refine (Operand.gives_eval hask hy hs).bind fun a ha ↦ ?_
    exact (Op.gives_applyUnary hop (ha.of_fits hyt)).mono fun v hv ↦ hv.of_fits hty
  | call y =>
    simp only [hasValue, Bool.and_eq_true, Bool.not_eq_true'] at hx
    exact (Call.gives_eval hask hx.1 hs).mono fun v hv ↦ hv hx.2
  | getField object field ty =>
    simp only [hasValue, Bool.and_eq_true, Bool.or_eq_true, beq_iff_eq, Bool.not_eq_true'] at hx
    obtain ⟨hobject, hvoid⟩ := hx
    by_cases hm : object = .missing
    · subst hm
      exact (hask _ _ rfl).mono fun v hv ↦ hv hvoid
    · rw [eval_getField hm]
      refine (Operand.gives_eval hask (hobject.resolve_left hm) hs).bind fun a _ ↦ ?_
      exact (hask _ _ rfl).mono fun v hv ↦ hv hvoid
  | missing | assign _ _ _ | ret _ _ | branch _ _ | goto _ | putField _ _ _ => cases hx

/-- What a well-typed instruction does: it changes no other variable than the one it writes, which
holds a value of its type afterwards, and control goes where the instruction says. -/
structure Instr.Respects (x : Instr) (t : VarTable) (store : Text → Word)
    (r : (Text → Word) × Control) : Prop where
  frame : ∀ name, x.defs? ≠ some name → r.1 name = store name
  written : ∀ name, x.defs? = some name → HoldsAt t r.1 name
  next : r.2 = .next → x.fallsThrough = true
  jump : ∀ label, r.2 = .jump label → x.target? = some label

/-- An instruction that writes no variable and goes on with the next one. -/
theorem Instr.respects_next (hd : x.defs? = none) (hf : x.fallsThrough = true) :
    x.Respects t store (store, .next) where
  frame _ _ := rfl
  written name h := by rw [hd] at h; cases h
  next _ := hf
  jump label h := by cases h

theorem Instr.respects_jump {label : Text} (hd : x.defs? = none) (ht : x.target? = some label) :
    x.Respects t store (store, .jump label) where
  frame _ _ := rfl
  written name h := by rw [hd] at h; cases h
  next h := by cases h
  jump label' h := by cases h; exact ht

theorem Instr.gives_exec (hask : Answers ask) (hx : x.wellTyped t = true)
    (hs : ∀ name ∈ x.uses, HoldsAt t store name) : (x.exec ask store).Gives (x.Respects t store) := by
  cases x with
  | missing => cases hx
  | assign dest ty rhs =>
    cases dest with
    | missing | literal _ _ => cases hx
    | var name ty' =>
      simp only [wellTyped, Bool.and_eq_true] at hx
      obtain ⟨hrhs, hname⟩ := hx
      refine (gives_eval hask hrhs hs).bind fun v hv ↦ .pure ⟨?_, ?_, fun _ ↦ rfl, by simp⟩
      · intro name' hne
        exact Function.update_of_ne (fun h ↦ hne (by rw [h]; rfl)) _ _
      · rintro name' ⟨⟩
        split at hname
        · rename_i y hy
          refine ⟨y, hy, ?_⟩
          show y.ty.Holds (Function.update store name v name)
          rw [Function.update_self]
          exact hv.of_fits hname
        · cases hname
    | elem base index ty' =>
      simp only [wellTyped, Operand.wellTyped, Bool.and_eq_true] at hx
      obtain ⟨⟨⟨⟨hsimple, hindex⟩, -⟩, hrhs⟩, -⟩ := hx
      rw [uses, Operand.uses_elem hsimple] at hs
      refine (Operand.gives_eval hask hindex fun n hn ↦ hs n (by simp [hn])).bind fun i _ ↦ ?_
      refine (gives_eval hask hrhs fun n hn ↦ hs n (by simp [hn])).bind fun v _ ↦ ?_
      exact (hask _ _ rfl).bind fun _ _ ↦ .pure (respects_next rfl rfl)
  | call y => exact (Call.gives_eval hask hx hs).bind fun v _ ↦ .pure (respects_next rfl rfl)
  | ret y ty =>
    by_cases hm : y = .missing
    · subst hm
      exact .throw (by simp)
    · rw [wellTyped_ret hm, Bool.and_eq_true] at hx
      rw [exec_ret hm]
      exact (Operand.gives_eval hask hx.1 hs).bind fun v _ ↦ .throw (by simp)
  | branch cond label =>
    simp only [wellTyped, Bool.and_eq_true] at hx
    refine (gives_eval hask hx.1 hs).bind fun v hv ↦ ?_
    obtain ⟨b, rfl⟩ := Ty.exists_bool (hv.of_fits hx.2)
    rw [Word.bool?_ofBool]
    cases b with
    | true => exact .pure (respects_jump rfl rfl)
    | false => exact .pure (respects_next rfl rfl)
  | goto label => exact .pure (respects_jump rfl rfl)
  | putField object field value =>
    simp only [wellTyped, Bool.and_eq_true, Bool.or_eq_true, beq_iff_eq] at hx
    obtain ⟨⟨hobject, hvalue⟩, -⟩ := hx
    rw [uses] at hs
    have hv := Operand.gives_eval hask hvalue fun n hn ↦ hs n (by simp [hn])
    by_cases hm : object = .missing
    · subst hm
      exact hv.bind fun v _ ↦ (hask _ _ rfl).bind fun _ _ ↦ .pure (respects_next rfl rfl)
    · rw [exec_putField hm]
      refine (Operand.gives_eval hask (hobject.resolve_left hm) fun n hn ↦
        hs n (by simp [hn])).bind fun o _ ↦ hv.bind fun v _ ↦ ?_
      exact (hask _ _ rfl).bind fun _ _ ↦ .pure (respects_next rfl rfl)
  | single y | binary op l r ty | unary op y ty | getField object field ty =>
    rw [wellTyped] at hx
    · exact (gives_eval hask hx hs).bind fun v _ ↦ .pure (respects_next rfl rfl)
    all_goals simp

end

end IR

end MiniJava
