import MiniJava.Proofs.SlotSafety
import MiniJava.Proofs.StackUse
import MiniJava.Proofs.Typing

/-!
# What emitted code does

The lines of an instruction do on the stack machine what the instruction does in the intermediate
code.  The operations that both leave to the environment are the same: `link` names the instruction of
the stack machine for each operation, and `linked` runs the intermediate code against the environment of
the stack machine.

A list of instructions is compared with what it computes as an equation between computations
(`Loads.execAll_eq` and what builds on it); where lines jump, by what the machine does from the first of
them on (`Computes.does`, `Emits.does`).
-/

set_option autoImplicit false

namespace MiniJava.Jvm

open IR

variable {x : IR.Instr}

/-! ## Linking -/

/-- The full name of a class.  The class itself comes first, then its imports, and then the classes that are
always there. -/
def fullName (c : ClassDef) (name : Text) : Text :=
  if name = c.name then c.name
  else match c.imports.filter fun i ↦ i.name = name with
    | i :: _ => i.path
    | [] =>
      if name = "String" then "java/lang/String"
      else if name = "Object" then "java/lang/Object" else name

/-- A type as an instruction states it. -/
def typeText (c : ClassDef) : Ty → Text
  | .absent | .void => "V"
  | .int => "I"
  | .bool => "Z"
  | .array elem => "[" ++ typeText c elem
  | .string => "Ljava/lang/String;"
  | .receiver name | .object name _ => "L" ++ fullName c name ++ ";"

/-- The class that has the methods and fields of the values of a type. -/
def ownerName? (c : ClassDef) : Ty → Option Text
  | .receiver name | .object name _ => some (fullName c name)
  | .string => some (fullName c "String")
  | _ => none

/-- How a call finds its method, and the class that has it.  A constructor that is called on the receiver is
that of the superclass. -/
def callee? (c : ClassDef) (caller : Ty) (cls method : Text) : CallKind → Option (Invocation × Text)
  | .static => some (.static, fullName c cls)
  | .special =>
    match caller with
    | .receiver name =>
      some (.special, if method ≠ "<init>" then fullName c name
        else if c.super = "" then "java/lang/Object" else fullName c c.super)
    | ty => (ownerName? c ty).map fun owner ↦ (.special, owner)
  | .virtual => (ownerName? c caller).map fun owner ↦ (.virtual, owner)
  | .interface => (ownerName? c caller).map fun owner ↦ (.interface, owner)
  | _ => none

/-- The name of a field of the values of a type. -/
def memberName (c : ClassDef) (object : Ty) (field : Text) : Text :=
  (ownerName? c object).getD c.name ++ "/" ++ field

/-- What an array of elements of a type holds. -/
def held : Ty → Elem
  | .int => .int
  | .bool => .bool
  | _ => .ref

/-- The instruction of the stack machine for an operation. -/
def link (c : ClassDef) : Operation → Option Instr
  | .newObject cls => some (.new (fullName c cls))
  | .newArray (.array .int) => some (.newArray "int")
  | .newArray (.array .bool) => some (.newArray "boolean")
  | .newArray (.array .string) => some (.newRefArray "java/lang/String")
  | .newArray (.array (.object cls _)) => some (.newRefArray (fullName c cls))
  | .newArray _ => none
  | .arrayLength => some .arrayLength
  | .invoke kind caller cls method params ret =>
    (callee? c caller cls method kind).map fun callee ↦
      .invoke callee.1 callee.2 method (params.map (typeText c)) (typeText c ret)
  | .arrayLoad elem => some (.arrayLoad (held elem))
  | .arrayStore elem => some (.arrayStore (held elem))
  | .getStatic field ty => some (.getStatic (c.name ++ "/" ++ field) (typeText c ty))
  | .getField object field ty => some (.getField (memberName c object field) (typeText c ty))
  | .putStatic field => some (.putStatic (c.name ++ "/" ++ field.name) (typeText c field.ty))
  | .putField object field =>
    some (.putField (memberName c object field.name) (typeText c field.ty))

theorem builtin?_getD (name : Text) : (ClassDef.builtin? name).getD name =
    if name = "String" then ("java/lang/String" : Text)
    else if name = "Object" then ("java/lang/Object" : Text) else name := by
  rw [ClassDef.builtin?]
  split
  · rename_i h
    rw [Text.eq_ofString_of_string? h]
    rfl
  · rename_i h
    rw [Text.eq_ofString_of_string? h]
    rfl
  · rename_i hstring hobject
    rw [if_neg, if_neg]
    · rfl
    · rintro rfl
      exact hobject rfl
    · rintro rfl
      exact hstring rfl

theorem fullName_eq (c : ClassDef) (name : Text) : fullName c name = c.resolve name := by
  have himport : c.import? name = (c.imports.filter fun i ↦ i.name = name).head? :=
    List.head?_filter.symm
  rw [fullName, ClassDef.resolve, builtin?_getD, himport]
  split
  · exact Eq.symm ‹_›
  · cases c.imports.filter fun i ↦ i.name = name <;> rfl

theorem typeText_eq (c : ClassDef) : typeText c = descriptor c := by
  funext ty
  induction ty with
  | array elem ih => rw [typeText, descriptor, ih]
  | receiver name | object name _ => rw [typeText, descriptor, fullName_eq]
  | _ => rfl

theorem ownerName?_eq (c : ClassDef) (ty : Ty) : ownerName? c ty = ty.className?.map c.resolve := by
  cases ty with
  | receiver name | object name _ | string =>
    rw [ownerName?, fullName_eq]
    rfl
  | _ => rfl

/-- Fields are emitted by the names that they have. -/
theorem memberName_eq (c : ClassDef) (object : Operand) (field : Text) :
    memberName c object.ty field = fieldName c object field := by
  rw [memberName, fieldName, ownerName?_eq]
  cases object.ty.className? <;> rfl

theorem held_eq (elem : Ty) : held elem = .ofTy elem := by cases elem <;> rfl

/-- Arrays are emitted as they are linked. -/
theorem link_newArray (c : ClassDef) (ty : Ty) : link c (.newArray ty) = arrayInstr? c ty := by
  cases ty with
  | array elem =>
    cases elem with
    | object cls _ =>
      rw [link, fullName_eq]
      rfl
    | _ => rfl
  | _ => rfl

/-- Calls are emitted as they are linked. -/
theorem link_invoke (c : ClassDef) (kind : CallKind) (caller : Ty) (cls method : Text)
    (params : List Ty) (ret : Ty) : link c (.invoke kind caller cls method params ret) =
      (invocation? kind).bind fun how ↦
        (if kind = .static then some (c.resolve cls) else owner? c kind caller method).map fun owner ↦
          .invoke how owner method (params.map (descriptor c)) (descriptor c ret) := by
  rw [link, typeText_eq]
  cases kind with
  | static =>
    rw [callee?, fullName_eq]
    rfl
  | special | virtual | interface =>
    cases caller with
    | receiver name =>
      by_cases hm : method = "<init>" <;>
        simp [callee?, ownerName?, fullName_eq, owner?, ClassDef.superName, ClassDef.root, invocation?, hm]
    | _ => simp [callee?, ownerName?_eq, owner?, Ty.className?, invocation?]
  | _ => rfl

/-- Asks the environment of the stack machine for an operation. -/
def linked (c : ClassDef) (env : Env Instr) (a : Operation) (vs : List Word) : Act Instr Word :=
  match link c a with
  | some i => perform env i vs
  | none => throw .stuck

/-- A value of the type that a descriptor stands for. -/
def DescribedBy (desc : Text) (v : Word) : Prop :=
  match desc.signs.head? with
  | some (.char 'I') => Ty.int.Holds v
  | some (.char 'Z') => Ty.bool.Holds v
  | some (.char 'V') => True
  | _ => v.kind = .ref

/-- What an instruction may leave on the stack. -/
def Instr.Yields : Instr → Word → Prop
  | arrayLoad .int, v | arrayLength, v => Ty.int.Holds v
  | arrayLoad .bool, v => Ty.bool.Holds v
  | arrayLoad .ref, v | new _, v | newArray _, v | newRefArray _, v => v.kind = .ref
  | getField _ desc, v | getStatic _ desc, v | invoke _ _ _ _ desc, v => DescribedBy desc v
  | _, _ => True

/-- **The environment keeps to types**: it answers with values of the type that an instruction
states. -/
def TypedEnv (env : Env Instr) : Prop :=
  ∀ past i vs v, env past ⟨i, vs⟩ = some v → i.Yields v

variable {c : ClassDef} {t : VarTable}

theorem describedBy_descriptor {ty : Ty} {v : Word} (h : DescribedBy (descriptor c ty) v)
    (hv : ty.isVoid = false) : ty.Holds v := by
  cases ty with
  | void | absent => cases hv
  | int | bool | string => exact h
  | array _ | object _ _ | receiver _ =>
    show v.kind = .ref
    simpa [DescribedBy, descriptor] using h

/-- The instruction that makes an array takes its size and yields a reference. -/
theorem arrayInstr?_cases {ty : Ty} {i : Instr} (h : arrayInstr? c ty = some i) :
    ty.isRef = true ∧ i.asks? = some (1, true) ∧ ∀ v, i.Yields v → v.kind = .ref := by
  rw [arrayInstr?] at h
  have hty : ty.isRef = true := by
    cases ty with
    | array elem => rfl
    | absent | int | bool | void | string | object _ _ | receiver _ => cases h
  refine ⟨hty, ?_⟩
  split at h
  case h_5 => cases h
  all_goals
    cases h
    exact ⟨rfl, fun v hv ↦ hv⟩

/-- What the instruction of an operation yields is a value of the type the operation states. -/
theorem holds_of_link {a : Operation} {i : Instr} (h : link c a = some i) {v : Word} (hv : i.Yields v)
    (hr : a.result.isVoid = false) : a.result.Holds v := by
  cases a with
  | newObject cls =>
    cases h
    exact hv
  | newArray ty =>
    rw [link_newArray] at h
    obtain ⟨hty, -, href⟩ := arrayInstr?_cases h
    exact (Ty.holds_of_isRef hty).2 (href v hv)
  | arrayLength =>
    cases h
    exact hv
  | invoke kind caller cls method params ret =>
    rw [link, typeText_eq] at h
    obtain ⟨callee, -, rfl⟩ := Option.map_eq_some_iff.1 h
    exact describedBy_descriptor hv hr
  | arrayLoad elem =>
    cases h
    cases elem with
    | void | absent => cases hr
    | int | bool | string | array _ | object _ _ | receiver _ => exact hv
  | getStatic field ty | getField object field ty =>
    rw [link, typeText_eq] at h
    cases h
    exact describedBy_descriptor hv hr
  | arrayStore _ | putStatic _ | putField _ _ => cases hr

theorem isSome_link {a : Operation} (h : a.isSupported = true) : ∃ i, link c a = some i := by
  cases a with
  | newArray ty =>
    simp only [Operation.isSupported] at h
    simp only [link_newArray, arrayInstr?]
    generalize ty.elem = elem at h ⊢
    cases elem with
    | int | bool | string | object _ _ => exact ⟨_, rfl⟩
    | absent | void | array _ | receiver _ => cases h
  | invoke kind caller cls method params ret =>
    have howner : ∀ how, invocation? kind = some how → kind ≠ .static → caller.className?.isSome →
        ∃ i, link c (.invoke kind caller cls method params ret) = some i := by
      intro how hhow hk hclass
      obtain ⟨name, hname⟩ := Option.isSome_iff_exists.1 hclass
      have ho : ∃ owner, owner? c kind caller method = some owner := by
        unfold owner?
        split
        · split
          · exact ⟨_, rfl⟩
          · exact ⟨_, rfl⟩
        · exact ⟨_, by rw [hname]; rfl⟩
      obtain ⟨owner, ho⟩ := ho
      exact ⟨_, by simp only [link_invoke, hhow, if_neg hk, ho]; rfl⟩
    cases kind with
    | static => exact ⟨_, rfl⟩
    | special => exact howner .special rfl (by simp) h
    | virtual => exact howner .virtual rfl (by simp) h
    | interface => exact howner .interface rfl (by simp) h
    | newObject | newArray | arrayLength | unknown _ => cases h
  | newObject _ | arrayLength | arrayLoad _ | arrayStore _ | getStatic _ _ | getField _ _ _
  | putStatic _ | putField _ _ => exact ⟨_, rfl⟩

/-- An environment that keeps to types answers operations with values of theirs. -/
theorem answers_linked {env : Env Instr} (h : TypedEnv env) (c : ClassDef) :
    Answers (linked c env) := by
  intro a vs ha
  obtain ⟨i, hi⟩ := @isSome_link c a ha
  rw [linked, hi]
  exact Act.gives_perform fun past v hv ↦ holds_of_link hi (h past i vs v hv)

/-! ## Operands -/

/-- The operands that an instruction loads, in that order.  A comparison with zero loads the other
operand only. -/
def loadsOf : IR.Instr → List Operand
  | .single x | .unary _ x _ => [x]
  | .binary op l r _ =>
    if op.isCompare && isZero r then [l] else if op.isCompare && isZero l then [r] else [l, r]
  | .call x => x.operands?.getD []
  | .getField .missing _ _ => []
  | .getField object _ _ => [object]
  | .assign (.elem base index ty) _ rhs => .elem base index ty :: loadsOf rhs
  | .assign _ _ rhs => loadsOf rhs
  | .ret .missing _ => []
  | .ret x _ => [x]
  | .branch cond _ => loadsOf cond
  | .putField .missing _ value => [value]
  | .putField object _ value => [object, value]
  | .missing | .goto _ => []

theorem loadsOf_arith {op : Op} {a : Arith} (h : Arith.ofOp? op = some a) (l r : Operand) (ty : Ty) :
    loadsOf (.binary op l r ty) = [l, r] := by
  cases op <;> cases h <;> rfl

section
variable {y : Operand} (h : y ≠ .missing)
include h

theorem loadsOf_ret (ty : Ty) : loadsOf (.ret y ty) = [y] := by
  cases y with
  | missing => exact absurd rfl h
  | literal _ _ | var _ _ | elem _ _ _ => rfl

theorem loadsOf_getField (field : FieldRef) (ty : Ty) : loadsOf (.getField y field ty) = [y] := by
  cases y with
  | missing => exact absurd rfl h
  | literal _ _ | var _ _ | elem _ _ _ => rfl

theorem loadsOf_putField (field : FieldRef) (value : Operand) :
    loadsOf (.putField y field value) = [y, value] := by
  cases y with
  | missing => exact absurd rfl h
  | literal _ _ | var _ _ | elem _ _ _ => rfl

end

theorem loadsOf_sublist (x : IR.Instr) : ((loadsOf x).flatMap Operand.uses).Sublist x.uses := by
  induction x with
  | single y | unary op y ty => simp [loadsOf, IR.Instr.uses]
  | binary op l r ty =>
    rw [loadsOf]
    split
    · simp [IR.Instr.uses]
    · split
      · simp [IR.Instr.uses]
      · simp [IR.Instr.uses]
  | call y => exact y.operands?_sublist.flatMap _
  | getField object field ty =>
    cases object <;> simp [loadsOf, IR.Instr.uses]
  | assign dest ty rhs ih =>
    cases dest with
    | elem base index ty' => simpa [loadsOf, IR.Instr.uses] using ih
    | missing | literal _ _ | var _ _ => simpa [loadsOf, IR.Instr.uses] using ih
  | ret y ty => cases y <;> simp [loadsOf, IR.Instr.uses]
  | branch cond label ih => exact ih
  | putField object field value =>
    cases object <;> simp [loadsOf, IR.Instr.uses]
  | missing | goto _ => exact .slnil

/-- The variable that an instruction reads first is the first one that it loads. -/
def LoadsFirst (x : IR.Instr) : Prop :=
  ∀ name ty, firstOperand x = .var name ty → ∃ rest, loadsOf x = .var name ty :: rest

theorem LoadsFirst.mem_uses (hx : LoadsFirst x) {name : Text} {ty : Ty}
    (h : firstOperand x = .var name ty) : name ∈ x.uses := by
  obtain ⟨rest, hrest⟩ := hx name ty h
  apply (loadsOf_sublist x).subset
  rw [hrest]
  simp

/-- An instruction with the form of a value, which loads operands that are known. -/
def isValue : IR.Instr → Bool
  | .single _ | .binary _ _ _ _ | .unary _ _ _ | .getField _ _ _ => true
  | .call x => x.operands?.isSome
  | .missing | .assign _ _ _ | .ret _ _ | .branch _ _ | .goto _ | .putField _ _ _ => false

/-- An instruction whose parts are values. -/
def isShaped : IR.Instr → Bool
  | .assign _ _ rhs => isValue rhs
  | .branch cond _ => isValue cond
  | .call x => x.operands?.isSome
  | .missing | .single _ | .binary _ _ _ _ | .unary _ _ _ | .getField _ _ _ | .ret _ _ | .goto _
  | .putField _ _ _ => true

theorem isShaped_of_isValue (h : isValue x = true) : isShaped x = true := by
  cases x with
  | call y => exact h
  | single _ | binary _ _ _ _ | unary _ _ _ | getField _ _ _ => rfl
  | missing | assign _ _ _ | ret _ _ | branch _ _ | goto _ | putField _ _ _ => cases h

/-- The first operand of a call is loaded first. -/
theorem loadsFirst_call {x : Call} (hx : x.operands?.isSome = true) : LoadsFirst (.call x) := by
  intro name ty h
  have hargs : x.args.headD .missing = .var name ty → ∃ rest, x.args = .var name ty :: rest := by
    intro hhead
    cases ha : x.args with
    | nil =>
      rw [ha] at hhead
      cases hhead
    | cons a rest =>
      rw [ha] at hhead
      exact ⟨rest, by rw [← show a = _ from hhead]⟩
  rw [firstOperand] at h
  rw [loadsOf]
  cases hk : x.kind with
  | newObject =>
    rw [hk] at h
    cases h
  | newArray =>
    rw [hk] at h
    obtain ⟨rest, hrest⟩ := hargs h
    simp only [Call.operands?, hk] at hx
    by_cases hl : x.args.length = 1
    · exact ⟨rest, by simp only [Call.operands?, hk, if_pos hl]; exact hrest⟩
    · rw [if_neg hl] at hx
      cases hx
  | static =>
    rw [hk] at h
    obtain ⟨rest, hrest⟩ := hargs h
    exact ⟨rest, by simp only [Call.operands?, hk]; exact hrest⟩
  | arrayLength =>
    rw [hk] at h
    exact ⟨[], by simp only [Call.operands?, hk]; exact congrArg ([·]) h⟩
  | special | virtual | interface =>
    rw [hk] at h
    exact ⟨x.args, by simp only [Call.operands?, hk]; exact congrArg (· :: x.args) h⟩
  | unknown number =>
    simp [Call.operands?, hk] at hx

/-- The first operand of a value is loaded first. -/
theorem loadsFirst_of_isValue (hx : isValue x = true) : LoadsFirst x := by
  intro name ty h
  cases x with
  | single y =>
    cases y with
    | elem _ _ _ => cases h
    | missing | literal _ _ | var _ _ => exact ⟨[], congrArg ([·]) h⟩
  | unary op y ty' => exact ⟨[], congrArg ([·]) h⟩
  | binary op l r ty' =>
    rw [firstOperand] at h
    rw [loadsOf]
    by_cases hr : (op.isCompare && isZero r) = true
    · rw [if_pos hr]
      have hz : isZero r = true := (Bool.and_eq_true_iff.1 hr).2
      simp only [hz, Bool.not_true, Bool.and_false, Bool.false_and, Bool.false_eq_true, if_false] at h
      exact ⟨[], by rw [h]⟩
    · rw [if_neg hr]
      by_cases hl : (op.isCompare && isZero l) = true
      · rw [if_pos hl]
        obtain ⟨hc, hz⟩ := Bool.and_eq_true_iff.1 hl
        simp only [hc, Bool.true_and, Bool.not_eq_true] at hr
        simp only [hc, hr, hz, Bool.not_false, Bool.and_self, if_true] at h
        exact ⟨[], by rw [h]⟩
      · rw [if_neg hl]
        rw [if_neg (by intro hc; simp_all)] at h
        exact ⟨[r], by rw [h]⟩
  | call y => exact loadsFirst_call hx name ty h
  | getField object field ty' =>
    cases object with
    | missing => cases h
    | literal _ _ | var _ _ | elem _ _ _ => exact ⟨[], congrArg ([·]) h⟩
  | missing | assign _ _ _ | ret _ _ | branch _ _ | goto _ | putField _ _ _ => cases hx

/-- The first operand of an instruction is loaded first. -/
theorem loadsFirst_of_isShaped (hx : isShaped x = true) : LoadsFirst x := by
  cases x with
  | single y | binary op l r ty' | unary op y ty' | getField object field ty' =>
    exact loadsFirst_of_isValue rfl
  | call y => exact loadsFirst_call hx
  | assign dest ty' rhs =>
    intro name ty h
    cases dest with
    | var name' ty'' =>
      obtain ⟨rest, hrest⟩ := loadsFirst_of_isValue hx name ty h
      exact ⟨rest, hrest⟩
    | missing | literal _ _ | elem _ _ _ => cases h
  | ret y ty' =>
    intro name ty h
    cases y with
    | missing => cases h
    | literal _ _ | var _ _ | elem _ _ _ => exact ⟨[], congrArg ([·]) h⟩
  | branch cond label =>
    intro name ty h
    obtain ⟨rest, hrest⟩ := loadsFirst_of_isValue hx name ty h
    exact ⟨rest, hrest⟩
  | putField object field value =>
    intro name ty h
    cases object with
    | missing => exact ⟨[], congrArg ([·]) h⟩
    | literal _ _ | var _ _ | elem _ _ _ => exact ⟨[value], congrArg (· :: [value]) h⟩
  | missing | goto label =>
    intro name ty h
    cases h

theorem operands?_of_wellTyped {x : Call} (h : x.wellTyped t = true) : x.operands?.isSome = true := by
  simp only [Call.wellTyped, Bool.and_eq_true] at h
  cases ho : x.operands? with
  | none => simp [ho] at h
  | some ops => rfl

theorem isValue_of_hasValue (h : x.hasValue t = true) : isValue x = true := by
  cases x with
  | call y =>
    simp only [IR.Instr.hasValue, Bool.and_eq_true] at h
    exact operands?_of_wellTyped h.1
  | single _ | binary _ _ _ _ | unary _ _ _ | getField _ _ _ => rfl
  | missing | assign _ _ _ | ret _ _ | branch _ _ | goto _ | putField _ _ _ => cases h

/-- The first operand of a well-typed instruction is loaded first. -/
theorem loadsFirst_of_wellTyped (h : x.wellTyped t = true) : LoadsFirst x := by
  refine loadsFirst_of_isShaped ?_
  cases x with
  | assign dest ty rhs =>
    have hrhs : rhs.hasValue t = true := by
      cases dest with
      | var name ty' =>
        simp only [IR.Instr.wellTyped, Bool.and_eq_true] at h
        exact h.1
      | elem base index ty' =>
        simp only [IR.Instr.wellTyped, Bool.and_eq_true] at h
        exact h.1.2
      | missing | literal _ _ => cases h
    exact isValue_of_hasValue hrhs
  | branch cond label =>
    simp only [IR.Instr.wellTyped, Bool.and_eq_true] at h
    exact isValue_of_hasValue h.1
  | call y => exact operands?_of_wellTyped h
  | missing | single _ | binary _ _ _ _ | unary _ _ _ | getField _ _ _ | ret _ _ | goto _
  | putField _ _ _ => rfl

/-! ## Loading -/

/-- Operands can be loaded: what is on the stack is the first of them, and the variables of the
others are where they should be. -/
def ReadyBy (P : Text → Prop) : Option Text → List Operand → Prop
  | none, xs => ∀ x ∈ xs, ∀ name ∈ x.uses, P name
  | some t, xs => ∃ ty rest, xs = .var t ty :: rest ∧ ∀ x ∈ rest, ∀ name ∈ x.uses, P name

/-- The stack with the temporary that is on it. -/
def onTop {α : Type} (store : Text → α) (s : Option Text) (stack : List α) : List α :=
  match s with
  | some t => store t :: stack
  | none => stack

section
variable (m : Method) (store : Text → Word) (slots : Nat → Word)

/-- The slot of a variable holds its value. -/
def InSlot (name : Text) : Prop :=
  ∀ kind slot, HasSlot m name kind slot → slots slot = store name ∧ (store name).kind = kind

/-- Operands can be loaded, all but what is on the stack from the slots. -/
abbrev Ready : Option Text → List Operand → Prop := ReadyBy (InSlot m store slots)

end

section
variable {c : ClassDef} {m : Method} {env : Env Instr} {store : Text → Word} {slots : Nat → Word}
variable {i : Instr} {x : Operand} {is : List Instr} {s s' : Option Text} {op : Op}

variable {hasResult : Bool} {cond : Cond}

theorem work_of_asks? {count : Nat} (h : i.asks? = some (count, hasResult)) (f : Frame) :
    i.work env f = i.ask env count hasResult f := by
  cases i with
  | push _ | load _ _ | store _ _ | arith _ | neg | ifZero _ _ | ifCompare _ _ | goto _ | pop | ret
  | retValue _ => cases h
  | arrayLoad _ | arrayStore _ | new _ | newArray _ | newRefArray _ | arrayLength | getField _ _
  | putField _ _ | getStatic _ _ | putStatic _ _ | invoke _ _ _ _ _ =>
    cases h
    rfl

/-- An instruction on operands that are on the stack. -/
theorem work_of_operands {vs : List Word} (h : i.asks? = some (vs.length, hasResult)) (stack : List Word) :
    i.work env ⟨vs.reverse ++ stack, slots⟩ =
      (fun v ↦ ⟨if hasResult then v :: stack else stack, slots⟩) <$> perform env i vs := by
  have htake : (vs.reverse ++ stack).take vs.length = vs.reverse :=
    List.take_left' (by simp)
  have hdrop : (vs.reverse ++ stack).drop vs.length = stack := List.drop_left' (by simp)
  rw [work_of_asks? h, Instr.ask, if_neg (by simp), htake, hdrop, List.reverse_reverse,
    map_eq_pure_bind]

variable (c env)

theorem Loads.execAll_of_none (h : Loads m none x is s') (hx : x.wellTyped m.vars = true)
    (hr : ∀ name ∈ x.uses, InSlot m store slots name) (stack : List Word) :
    s' = none ∧ execAll env is ⟨stack, slots⟩ =
      (fun v ↦ ⟨v :: stack, slots⟩) <$> x.eval (linked c env) store := by
  generalize hs : (none : Option Text) = s at h
  induction h generalizing stack with
  | literal ht hv =>
    subst hs
    refine ⟨rfl, ?_⟩
    simp [Instr.work, Operand.eval, hv]
  | top => cases hs
  | var hne hslot =>
    subst hs
    refine ⟨rfl, ?_⟩
    obtain ⟨hv, hk⟩ := hr _ (by simp) _ _ hslot
    simp [Instr.work, Operand.eval, hv, hk]
  | @elem s s₁ base index ty kind slot is hslot hi ih =>
    subst hs
    simp only [Operand.wellTyped, Bool.and_eq_true] at hx
    obtain ⟨⟨hsimple, hindex⟩, -⟩ := hx
    rw [Operand.uses_elem hsimple] at hr
    obtain ⟨hv, hk⟩ := hr base (by simp) _ _ hslot
    obtain ⟨hs₁, hload⟩ := ih hindex (fun name hn ↦ hr name (by simp [hn])) (store base :: stack) rfl
    refine ⟨hs₁, ?_⟩
    have hbase : (Instr.load kind slot).work env ⟨stack, slots⟩ =
        pure ⟨store base :: stack, slots⟩ := by
      simp [Instr.work, hv, hk]
    have helem : ∀ i, (Instr.arrayLoad (.ofTy ty)).work env ⟨i :: store base :: stack, slots⟩ =
        (fun v ↦ ⟨v :: stack, slots⟩) <$> linked c env (.arrayLoad ty) [store base, i] := by
      intro i
      have hasks : (Instr.arrayLoad (.ofTy ty)).asks? = some ([store base, i].length, true) := rfl
      rw [linked, link, held_eq]
      exact work_of_operands hasks stack
    rw [execAll_cons, hbase, pure_bind, execAll_append, hload, Operand.eval]
    simp [helem]

/-- Operands are loaded in order, each on top of those before it. -/
theorem LoadsAll.execAll_eq {xs : List Operand} (h : LoadsAll m s xs is s')
    (hx : ∀ x ∈ xs, x.wellTyped m.vars = true) (hr : Ready m store slots s xs) (stack : List Word) :
    s' = none ∧ execAll env is ⟨onTop store s stack, slots⟩ =
      (fun vs ↦ ⟨vs.reverse ++ stack, slots⟩) <$> xs.mapM (Operand.eval (linked c env) store) := by
  induction h generalizing stack with
  | @nil s =>
    cases s with
    | some t =>
      obtain ⟨ty, rest, hxs, -⟩ := hr
      cases hxs
    | none => simp [onTop]
  | @cons s₁ s₂ s₃ x xs is js hload hrest ih =>
    -- Only the first operand can be on the stack, so nothing is when the others are loaded.
    obtain ⟨rfl, hfirst, hothers⟩ : s₂ = none ∧ execAll env is ⟨onTop store s₁ stack, slots⟩ =
        (fun v ↦ ⟨v :: stack, slots⟩) <$> x.eval (linked c env) store ∧
        Ready m store slots none xs := by
      cases s₁ with
      | none =>
        obtain ⟨rfl, heq⟩ := hload.execAll_of_none c env (hx x (by simp)) (hr x (by simp)) stack
        exact ⟨rfl, heq, fun y hy ↦ hr y (by simp [hy])⟩
      | some t =>
        obtain ⟨ty, rest, hxs, hin⟩ := hr
        obtain ⟨rfl, rfl⟩ := List.cons.inj hxs
        cases hload with
        | top => exact ⟨rfl, by simp [onTop, Operand.eval], hin⟩
        | var hne _ => exact absurd rfl hne
    have hrest := ih (fun y hy ↦ hx y (by simp [hy])) hothers
    refine ⟨(hrest []).1, ?_⟩
    rw [execAll_append, hfirst, List.mapM_cons]
    have hjs : ∀ v, execAll env js ⟨v :: stack, slots⟩ = _ := fun v ↦ (hrest (v :: stack)).2
    simp [hjs]

theorem Loads.execAll_eq (h : Loads m s x is s') (hx : x.wellTyped m.vars = true)
    (hr : Ready m store slots s [x]) (stack : List Word) :
    s' = none ∧ execAll env is ⟨onTop store s stack, slots⟩ =
      (fun v ↦ ⟨v :: stack, slots⟩) <$> x.eval (linked c env) store := by
  have hall := LoadsAll.cons h .nil
  rw [List.append_nil] at hall
  obtain ⟨hs', heq⟩ := hall.execAll_eq c env (by simpa using hx) hr stack
  refine ⟨hs', ?_⟩
  rw [heq]
  simp

theorem Loads.execAll_pair {s₁ s₂ s₃ : Option Text} {y : Operand} {js : List Instr}
    (h : Loads m s₁ x is s₂) (h' : Loads m s₂ y js s₃) (hx : x.wellTyped m.vars = true)
    (hy : y.wellTyped m.vars = true) (hr : Ready m store slots s₁ [x, y]) (stack : List Word) :
    s₃ = none ∧ execAll env (is ++ js) ⟨onTop store s₁ stack, slots⟩ = (do
      let a ← x.eval (linked c env) store
      let b ← y.eval (linked c env) store
      return ⟨b :: a :: stack, slots⟩) := by
  have hall := LoadsAll.cons h (LoadsAll.cons h' .nil)
  rw [List.append_nil] at hall
  obtain ⟨hs', heq⟩ := hall.execAll_eq c env (by simp [hx, hy]) hr stack
  refine ⟨hs', ?_⟩
  rw [heq]
  simp

/-! ## Values -/

variable {c env}

theorem linked_eq {a : Operation} (h : link c a = some i) (vs : List Word) :
    linked c env a vs = perform env i vs := by
  rw [linked, h]

/-- Operands are loaded and an operation is carried out on them. -/
theorem LoadsAll.execAll_operation (henv : TypedEnv env) {xs : List Operand} {a : Operation}
    (h : LoadsAll m s xs is s') (hx : ∀ x ∈ xs, x.wellTyped m.vars = true)
    (hs : ∀ x ∈ xs, ∀ name ∈ x.uses, HoldsAt m.vars store name) (hr : Ready m store slots s xs)
    (hlink : link c a = some i) (hasks : i.asks? = some (xs.length, hasResult)) (stack : List Word) :
    s' = none ∧ execAll env (is ++ [i]) ⟨onTop store s stack, slots⟩ =
      (fun v ↦ ⟨if hasResult then v :: stack else stack, slots⟩) <$> (do
        let vs ← xs.mapM (Operand.eval (linked c env) store)
        linked c env a vs) := by
  obtain ⟨hs', heq⟩ := h.execAll_eq c env hx hr stack
  refine ⟨hs', ?_⟩
  have hgives : (xs.mapM (Operand.eval (linked c env) store)).Gives fun vs ↦
      vs.length = xs.length :=
    Act.Gives.mapM (P := fun _ ↦ True) fun y hy ↦
      (Operand.gives_eval (answers_linked henv c) (hx y hy) (hs y hy)).mono fun _ _ ↦ trivial
  rw [execAll_append, heq, map_bind]
  refine hgives.map_bind_congr fun vs hvs ↦ ?_
  rw [← hvs] at hasks
  rw [linked_eq hlink, execAll_cons, work_of_operands hasks]
  simp

/-- Every call loads its operands and then carries out the instruction of its operation. -/
theorem Calls.inv {x : Call} (h : Calls c m x s is s') (hx : x.wellTyped m.vars = true) :
    ∃ operands js i, x.operands? = some operands ∧
      LoadsAll m s operands js s' ∧ is = js ++ [i] ∧ link c x.operation = some i ∧
      i.asks? = some (operands.length, !x.ret.isVoid) := by
  have hret : x.operation.result.isVoid = false → x.ret.isVoid = false := by
    intro hv
    simp only [Call.wellTyped, Bool.and_eq_true, Bool.or_eq_true, beq_iff_eq] at hx
    rcases hx.1.2 with he | hf
    · rwa [he] at hv
    · exact (Ty.isVoid_of_fits hf).2
  cases h with
  | newObject hk =>
    refine ⟨[], [], _, by simp only [Call.operands?, hk], .nil, rfl,
      by simp only [Call.operation, hk, link, fullName_eq], ?_⟩
    rw [hret (by simp only [Call.operation, hk]; rfl)]
    rfl
  | newArray hk ha hload hi =>
    obtain ⟨href, hasks, -⟩ := arrayInstr?_cases hi
    refine ⟨_, _, _, by simp only [Call.operands?, hk, ha]; rfl, ?_, rfl,
      by simp only [Call.operation, hk, link_newArray]; exact hi, ?_⟩
    · simpa using LoadsAll.cons hload .nil
    · rw [Ty.isVoid_eq_false_of_isRef href]
      exact hasks
  | arrayLength hk hload =>
    refine ⟨[x.caller], _, _, by simp only [Call.operands?, hk], ?_, rfl,
      by simp only [Call.operation, hk]; rfl, ?_⟩
    · simpa using LoadsAll.cons hload .nil
    · rw [hret (by simp only [Call.operation, hk]; rfl)]
      rfl
  | static hk hload =>
    refine ⟨x.args, _, _, by simp only [Call.operands?, hk], hload, rfl, ?_, ?_⟩
    · simp only [Call.operation, hk, link_invoke, invocation?, invokeInstr]
      simp [Function.comp_def]
    · simp [Instr.asks?, invokeInstr, Invocation.hasReceiver, descriptor_ne_V]
  | @onObject _ _ _ _ how _ hk hne hcaller hargs ho =>
    have hkind : x.operands? = some (x.caller :: x.args) ∧ x.operation =
        .invoke x.kind x.caller.ty x.cls x.method (x.args.map Operand.ty) x.ret ∧
        how.hasReceiver = true := by
      rw [Call.operands?, Call.operation]
      cases hkind : x.kind with
      | static => exact absurd hkind hne
      | special | virtual | interface =>
        rw [hkind] at hk
        cases hk
        exact ⟨rfl, rfl, rfl⟩
      | newObject | newArray | arrayLength | unknown _ =>
        rw [hkind] at hk
        cases hk
    obtain ⟨hoperands, hop, hrecv⟩ := hkind
    refine ⟨x.caller :: x.args, _, _, hoperands, .cons hcaller hargs, (List.append_assoc _ _ _).symm,
      ?_, ?_⟩
    · rw [hop, link_invoke, hk, if_neg hne, ho]
      simp [invokeInstr, Function.comp_def]
    · simp [Instr.asks?, invokeInstr, hrecv, descriptor_ne_V]

/-- A call takes its operands from the stack and leaves its result, if it has one. -/
theorem Calls.execAll_eq (henv : TypedEnv env) {x : Call} (h : Calls c m x s is s')
    (hx : x.wellTyped m.vars = true) (hs : ∀ name ∈ (IR.Instr.call x).uses, HoldsAt m.vars store name)
    (hr : Ready m store slots s (loadsOf (.call x))) (stack : List Word) :
    s' = none ∧ execAll env is ⟨onTop store s stack, slots⟩ =
      (fun v ↦ ⟨if x.ret.isVoid then stack else v :: stack, slots⟩) <$>
        x.eval (linked c env) store := by
  obtain ⟨operands, js, i, ho, hload, rfl, hlink, hasks⟩ := h.inv hx
  have htyped : ∀ y ∈ operands, y.wellTyped m.vars = true := by
    simp only [Call.wellTyped, ho, Bool.and_eq_true, List.all_eq_true] at hx
    exact hx.2
  rw [loadsOf, ho] at hr
  obtain ⟨hs', heq⟩ := hload.execAll_operation henv htyped
    (fun y hy name hn ↦ hs name (Call.uses_of_operands? ho hy hn)) hr hlink hasks stack
  refine ⟨hs', ?_⟩
  rw [heq, Call.eval, ho]
  cases x.ret.isVoid <;> rfl

/-- An operation on two integers computes what the operator does, on values of its operands. -/
theorem work_arith {a : Arith} (h : Arith.ofOp? op = some a) {v w : Word} (hv : op.operand.Holds v)
    (hw : op.operand.Holds w) (stack : List Word) : (Instr.arith a).work env ⟨w :: v :: stack, slots⟩ =
      (fun u ↦ ⟨u :: stack, slots⟩) <$> op.apply v w := by
  cases op with
  | lt | le | gt | ge | eq | ne | not | neg | other _ => cases h
  | add | sub | mul =>
    obtain ⟨x, rfl⟩ := Ty.exists_int hv
    obtain ⟨y, rfl⟩ := Ty.exists_int hw
    cases h
    rfl
  | div =>
    obtain ⟨x, rfl⟩ := Ty.exists_int hv
    obtain ⟨y, rfl⟩ := Ty.exists_int hw
    cases h
    by_cases hy : y = 0
    · subst hy
      rfl
    · simp only [Instr.work, Arith.apply, Op.apply, if_neg hy]
      rfl
  | and | or =>
    obtain ⟨p, rfl⟩ := Ty.exists_bool hv
    obtain ⟨q, rfl⟩ := Ty.exists_bool hw
    cases h
    cases p <;> cases q <;> rfl

/-- The opposite of a boolean, as it is computed. -/
theorem work_not {v : Word} (hv : Ty.bool.Holds v) (stack : List Word) :
    execAll env [.push 1, .arith .xor] ⟨v :: stack, slots⟩ =
      (fun u ↦ ⟨u :: stack, slots⟩) <$> Op.applyUnary .not v := by
  obtain ⟨p, rfl⟩ := Ty.exists_bool hv
  cases p <;> rfl

theorem work_neg {v : Word} (hv : Ty.int.Holds v) (stack : List Word) :
    execAll env [.neg] ⟨v :: stack, slots⟩ =
      (fun u ↦ ⟨u :: stack, slots⟩) <$> Op.applyUnary .neg v := by
  obtain ⟨x, rfl⟩ := Ty.exists_int hv
  rfl

/-- The instructions of a value that is no comparison push it. -/
theorem Evaluates.execAll_eq (henv : TypedEnv env) {x : IR.Instr} (h : Evaluates c m s x is s')
    (hx : x.hasValue m.vars = true) (hs : ∀ name ∈ x.uses, HoldsAt m.vars store name)
    (hr : Ready m store slots s (loadsOf x)) (stack : List Word) :
    s' = none ∧ execAll env is ⟨onTop store s stack, slots⟩ =
      (fun v ↦ ⟨v :: stack, slots⟩) <$> x.eval (linked c env) store := by
  have hask := answers_linked henv c
  cases h with
  | single hload => exact hload.execAll_eq c env hx hr stack
  | @arith s₂ _ op l r ty a is js ho hl hr' =>
    simp only [IR.Instr.hasValue, Bool.and_eq_true] at hx
    obtain ⟨⟨⟨⟨⟨hop, hlt⟩, hrt⟩, hlf⟩, hrf⟩, -⟩ := hx
    rw [IR.Instr.uses] at hs
    rw [loadsOf_arith ho] at hr
    obtain ⟨hs', heq⟩ := hl.execAll_pair c env hr' hlt hrt hr stack
    refine ⟨hs', ?_⟩
    rw [← List.append_assoc, execAll_append, heq, IR.Instr.eval, bind_assoc, map_bind]
    refine (Operand.gives_eval hask hlt fun n hn ↦ hs n (by simp [hn])).bind_congr fun v hv ↦ ?_
    rw [bind_assoc, map_bind]
    refine (Operand.gives_eval hask hrt fun n hn ↦ hs n (by simp [hn])).bind_congr fun w hw ↦ ?_
    rw [pure_bind, execAll_cons, work_arith ho (hv.of_fits hlf) (hw.of_fits hrf)]
    simp
  | @not _ y ty is hload =>
    simp only [IR.Instr.hasValue, Bool.and_eq_true] at hx
    obtain ⟨⟨⟨-, hy⟩, hyf⟩, -⟩ := hx
    obtain ⟨hs', heq⟩ := hload.execAll_eq c env hy hr stack
    refine ⟨hs', ?_⟩
    rw [execAll_append, heq, IR.Instr.eval, map_bind]
    exact (Operand.gives_eval hask hy hs).map_bind_congr fun v hv ↦ work_not (hv.of_fits hyf) stack
  | @neg _ y ty is hload =>
    simp only [IR.Instr.hasValue, Bool.and_eq_true] at hx
    obtain ⟨⟨⟨-, hy⟩, hyf⟩, -⟩ := hx
    obtain ⟨hs', heq⟩ := hload.execAll_eq c env hy hr stack
    refine ⟨hs', ?_⟩
    rw [execAll_append, heq, IR.Instr.eval, map_bind]
    exact (Operand.gives_eval hask hy hs).map_bind_congr fun v hv ↦ work_neg (hv.of_fits hyf) stack
  | call hv hcall =>
    simp only [IR.Instr.hasValue, Bool.and_eq_true] at hx
    obtain ⟨hs', heq⟩ := hcall.execAll_eq henv hx.1 hs hr stack
    refine ⟨hs', ?_⟩
    rw [heq, hv]
    rfl
  | @getStatic field ty =>
    have hlink : link c (.getStatic field.name ty) =
        some (.getStatic (fieldName c .missing field.name) (descriptor c ty)) := by
      rw [link, typeText_eq]
      rfl
    obtain ⟨hs', heq⟩ := LoadsAll.nil.execAll_operation henv (by simp) (by simp) hr hlink rfl stack
    refine ⟨hs', heq.trans ?_⟩
    simp [IR.Instr.eval]
  | @getField _ object field ty is hload =>
    simp only [IR.Instr.hasValue, Bool.and_eq_true, Bool.or_eq_true, beq_iff_eq] at hx
    have hm := hload.ne_missing
    rw [loadsOf_getField hm] at hr
    have hlink : link c (.getField object.ty field.name ty) =
        some (.getField (fieldName c object field.name) (descriptor c ty)) := by
      rw [link, typeText_eq, memberName_eq]
    have hall := LoadsAll.cons hload .nil
    rw [List.append_nil] at hall
    obtain ⟨hs', heq⟩ := hall.execAll_operation henv
      (by simpa using hx.1.resolve_left hm)
      (by simpa [IR.Instr.uses] using hs) hr hlink rfl stack
    refine ⟨hs', heq.trans ?_⟩
    rw [IR.Instr.eval_getField hm]
    simp

/-! ## Comparisons -/

/-- Where control goes on the answer to a condition. -/
def branchTo (label : Text) (v : Word) : Control := if v.bool? = some true then .jump label else .next

theorem branchTo_ofBool (label : Text) (b : Bool) :
    branchTo label (.ofBool b) = if b then .jump label else .next := by
  cases b <;> rfl

theorem relation?_of_ofOp? (h : Cond.ofOp? op = some cond) : op.relation? = some cond.holds := by
  cases op <;> cases h <;> rfl

/-- Zero compared with something is that compared the other way with zero. -/
theorem holds_swap (h : Cond.ofOp? op = some cond) (a b : BitVec 32) :
    ((Cond.ofOp? op.swap).getD cond).holds a b = cond.holds b a := by
  cases op with
  | lt | le | gt | ge =>
    cases h
    rfl
  | eq =>
    cases h
    exact BEq.comm
  | ne =>
    cases h
    exact congrArg (!·) BEq.comm
  | add | sub | mul | div | and | or | not | neg | other _ => cases h

theorem eval_of_isZero (h : isZero x = true) : x.eval (linked c env) store = pure (.int 0) := by
  cases x with
  | literal text ty =>
    rw [isZero] at h
    rw [Operand.eval]
    cases hv : Literal.value text with
    | ok v =>
      simp only [hv, beq_iff_eq] at h
      subst h
      rfl
    | error e =>
      rw [hv] at h
      cases h
  | missing | var _ _ | elem _ _ _ => cases h

variable (c) in
/-- A comparison loads what it compares and jumps exactly if it holds. -/
theorem Compares.exec_eq (henv : TypedEnv env) {l r : Operand} {ty : Ty} {test : Text → Instr}
    (h : Compares m op cond l r s is test s') (ho : Cond.ofOp? op = some cond)
    (hx : (IR.Instr.binary op l r ty).hasValue m.vars = true)
    (hs : ∀ name ∈ (IR.Instr.binary op l r ty).uses, HoldsAt m.vars store name)
    (hr : Ready m store slots s (loadsOf (.binary op l r ty))) (label : Text) (stack : List Word) :
    s' = none ∧ (execAll env is ⟨onTop store s stack, slots⟩ >>= (test label).exec env) =
      (fun v ↦ (⟨stack, slots⟩, branchTo label v)) <$>
        (IR.Instr.binary op l r ty).eval (linked c env) store := by
  have hcmp := Cond.isCompare_of_ofOp? ho
  have hoperand : op.operand = .int := by cases op <;> cases ho <;> rfl
  simp only [IR.Instr.hasValue, Bool.and_eq_true, hoperand] at hx
  obtain ⟨⟨⟨⟨⟨-, hlt⟩, hrt⟩, hlf⟩, hrf⟩, -⟩ := hx
  rw [IR.Instr.uses] at hs
  have hask := answers_linked henv c
  have hl : (l.eval (linked c env) store).Gives Ty.int.Holds :=
    (Operand.gives_eval hask hlt fun n hn ↦ hs n (by simp [hn])).mono fun v hv ↦ hv.of_fits hlf
  have hr' : (r.eval (linked c env) store).Gives Ty.int.Holds :=
    (Operand.gives_eval hask hrt fun n hn ↦ hs n (by simp [hn])).mono fun v hv ↦ hv.of_fits hrf
  have happly : ∀ a b : BitVec 32, op.apply (.int a) (.int b) =
      (return .ofBool (cond.holds a b) : Act Instr Word) :=
    Op.apply_compare (relation?_of_ofOp? ho)
  cases h with
  | rightZero hz hload =>
    simp only [loadsOf, hcmp, hz, Bool.and_self, if_true] at hr
    obtain ⟨hs', heq⟩ := hload.execAll_eq c env hlt hr stack
    refine ⟨hs', ?_⟩
    rw [heq, IR.Instr.eval, eval_of_isZero hz, map_bind]
    refine hl.map_bind_congr fun v hv ↦ ?_
    obtain ⟨a, rfl⟩ := Ty.exists_int hv
    simp [happly, Instr.exec, branchTo_ofBool]
  | leftZero hz hz' hload =>
    simp only [loadsOf, hcmp, hz, hz', Bool.and_self, Bool.and_false, Bool.false_eq_true, if_false,
      if_true] at hr
    obtain ⟨hs', heq⟩ := hload.execAll_eq c env hrt hr stack
    refine ⟨hs', ?_⟩
    rw [heq, IR.Instr.eval, eval_of_isZero hz', pure_bind, map_bind]
    refine hr'.map_bind_congr fun v hv ↦ ?_
    obtain ⟨b, rfl⟩ := Ty.exists_int hv
    simp [happly, Instr.exec, branchTo_ofBool, holds_swap ho]
  | both hz hz' hload hload' =>
    simp only [loadsOf, hcmp, hz, hz', Bool.and_false, Bool.false_eq_true, if_false] at hr
    obtain ⟨hs', heq⟩ := hload.execAll_pair c env hload' hlt hrt hr stack
    refine ⟨hs', ?_⟩
    rw [heq, IR.Instr.eval, map_bind, bind_assoc]
    refine hl.bind_congr fun v hv ↦ ?_
    rw [map_bind, bind_assoc]
    refine hr'.bind_congr fun w hw ↦ ?_
    obtain ⟨a, rfl⟩ := Ty.exists_int hv
    obtain ⟨b, rfl⟩ := Ty.exists_int hw
    simp [happly, Instr.exec, branchTo_ofBool]

end

end MiniJava.Jvm
