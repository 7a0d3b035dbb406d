import MiniJava.Proofs.Renaming
import MiniJava.Proofs.StackUse

/-!
# Two runs of the emitter

The emitter is often run twice: on a method with other slots, with other names, or without temporaries on
the stack.  That the two runs go together (`Together`) is proved here once.  They both stop, with errors
that belong together, or both go on, with states that do.

What the states have in common is for each pair of methods to say.  `OperandsPaired` and `CodePaired` ask
for little: that the steps go together which write a line, jump, or look at the stack.  All others are made
of these.  The states are counted along: there are `h` values on the stack, and on top of them the temporary
`top` if there is one, which is then the operand that is loaded next.
-/

set_option autoImplicit false

namespace MiniJava

open IR

/-- The cause is a temporary that was left on the stack. -/
def Cause.isLeftover : Cause → Bool
  | defect (.leftOnStack _ _ _) => true
  | _ => false

/-- The cause is a jump past the end of a method. -/
def Cause.isPastEnd : Cause → Bool
  | defect (.branchPastEnd _ _) => true
  | _ => false

namespace Jvm

/-! ## Steps -/

/-- Two computations succeed with related results, or both fail with related errors. -/
inductive Agree {α β : Type} (Q : Error → Error → Prop) (R : α → β → Prop) :
    Except Error α → Except Error β → Prop
  | ok {a : α} {b : β} (h : R a b) : Agree Q R (.ok a) (.ok b)
  | error {err err' : Error} (h : Q err err') : Agree Q R (.error err) (.error err')

namespace Agree

variable {α β γ δ : Type} {Q : Error → Error → Prop} {R : α → β → Prop} {S : γ → δ → Prop}
variable {x : Except Error α} {y : Except Error β}

theorem mono {R' : α → β → Prop} (h : Agree Q R x y) (hr : ∀ a b, R a b → R' a b) : Agree Q R' x y := by
  cases h with
  | ok hab => exact .ok (hr _ _ hab)
  | error h => exact .error h

theorem bind {f : α → Except Error γ} {g : β → Except Error δ} (h : Agree Q R x y)
    (hf : ∀ a b, x = .ok a → y = .ok b → R a b → Agree Q S (f a) (g b)) :
    Agree Q S (x >>= f) (y >>= g) := by
  cases h with
  | ok hab => exact hf _ _ rfl rfl hab
  | error h => exact .error h

theorem withinPlace (h : Agree Q R x y) (place : String)
    (hq : ∀ err err', Q err err' → Q (err.within place) (err'.within place)) :
    Agree Q R (MiniJava.withinPlace place x) (MiniJava.withinPlace place y) := by
  cases h with
  | ok hab => exact .ok hab
  | error h => exact .error (hq _ _ h)

theorem sameOutcome (h : Agree Q R x y) (hq : ∀ err err', Q err err' → err' = err) :
    SameOutcome R x y := by
  cases h with
  | ok hab => exact .ok hab
  | error h =>
    obtain rfl := hq _ _ h
    exact .error _

theorem sameSuccess (h : Agree Q R x y) : SameSuccess R x y := by
  cases h with
  | ok hab => exact .ok hab
  | error h => exact .error _ _

theorem of_error (h : Agree Q R x y) {err : Error} (hx : x = .error err) :
    ∃ err', y = .error err' ∧ Q err err' := by
  subst hx
  cases h with
  | error h => exact ⟨_, rfl, h⟩

end Agree

/-- **Two steps go together** from related states to related states. -/
def Together {α : Type} (Q : Error → Error → Prop) (R S : Emitter → Emitter → Prop) (x y : EmitM α) : Prop :=
  ∀ e p, R e p → Agree Q (fun a b ↦ a.1 = b.1 ∧ S a.2 b.2) (x.run e) (y.run p)

namespace Together

variable {α β : Type} {Q : Error → Error → Prop} {R S T : Emitter → Emitter → Prop} {x y : EmitM α}

theorem pure (a : α) : Together Q R R (Pure.pure a) (Pure.pure a) := fun _ _ h ↦ .ok ⟨rfl, h⟩

theorem throw {err err' : Error} (h : Q err err') :
    Together Q R S (MonadExcept.throw err : EmitM α) (MonadExcept.throw err') := fun _ _ _ ↦ .error h

theorem mono (h : Together Q R S x y) (hs : ∀ e p, S e p → T e p) : Together Q R T x y :=
  fun e p he ↦ (h e p he).mono fun _ _ hab ↦ ⟨hab.1, hs _ _ hab.2⟩

theorem bind {f g : α → EmitM β} (h : Together Q R S x y) (hf : ∀ a, Together Q S T (f a) (g a)) :
    Together Q R T (x >>= f) (y >>= g) := by
  intro e p he
  rw [StateT.run_bind, StateT.run_bind]
  refine (h e p he).bind ?_
  rintro ⟨a, e'⟩ ⟨_, p'⟩ - - ⟨rfl, he'⟩
  exact hf a e' p' he'

/-- Steps that look at the state. -/
theorem get {f g : Emitter → EmitM α} (h : ∀ e p, R e p → Together Q R S (f e) (g p)) :
    Together Q R S (MonadState.get >>= f) (MonadState.get >>= g) := fun e p he ↦ h e p he e p he

theorem modify {f g : Emitter → Emitter} (h : ∀ e p, R e p → S (f e) (g p)) :
    Together Q R S (modify f : EmitM PUnit) (modify g) := fun e p he ↦ .ok ⟨rfl, h e p he⟩

theorem within (h : Together Q R S x y) (place : String)
    (hq : ∀ err err', Q err err' → Q (err.within place) (err'.within place)) :
    Together Q R S (EmitM.within place x) (EmitM.within place y) :=
  fun e p he ↦ (h e p he).withinPlace place hq

theorem lift (a : Except Error α) (h : ∀ err, a = .error err → Q err err) :
    Together Q R R (liftM a : EmitM α) (liftM a) := by
  cases a with
  | ok a => exact pure a
  | error err => exact throw (h err rfl)

theorem forM {γ : Type} {xs : List γ} {f g : γ → EmitM Unit} (h : ∀ a ∈ xs, Together Q R R (f a) (g a)) :
    Together Q R R (xs.forM f) (xs.forM g) := by
  induction xs with
  | nil => exact pure ()
  | cons a xs ih => exact (h a (by simp)).bind fun _ ↦ ih fun b hb ↦ h b (by simp [hb])

end Together

/-! ## The operand that is loaded first -/

/-- The temporary on the stack is the operand. -/
def TakesTop (s : Option Text) (x : Operand) : Prop := ∀ name, s = some name → ∃ ty, x = .var name ty

theorem takesTop_none (x : Operand) : TakesTop none x := by
  rintro _ ⟨⟩

theorem TakesTop.eq_none {s : Option Text} {x : Operand} (h : TakesTop s x) (hx : x.isVar = false) :
    s = none := by
  cases s with
  | none => rfl
  | some name =>
    obtain ⟨ty, rfl⟩ := h name rfl
    cases hx

/-- The operand that a comparison loads first. -/
def firstCompared (l r : Operand) : Operand := if !isZero r && isZero l then r else l

theorem firstOperand_compare {op : Op} {cond : Cond} (h : Cond.ofOp? op = some cond) (l r : Operand)
    (ty : Ty) : firstOperand (.binary op l r ty) = firstCompared l r := by
  rw [firstOperand, firstCompared, Cond.isCompare_of_ofOp? h, Bool.true_and]

theorem firstOperand_arith {op : Op} (h : Cond.ofOp? op = none) (l r : Operand) (ty : Ty) :
    firstOperand (.binary op l r ty) = l := by
  have hop : op.isCompare = false := by rw [← Cond.isSome_ofOp?, h, Option.isSome_none]
  rw [firstOperand, hop, Bool.false_and, Bool.false_and, if_neg Bool.false_ne_true]

theorem firstOperand_putField {object : Operand} (h : object ≠ .missing) (field : FieldRef)
    (value : Operand) : firstOperand (.putField object field value) = object := by
  cases object with
  | missing => exact absurd rfl h
  | literal _ _ | var _ _ | elem _ _ _ => rfl

/-! ## Operands -/

/-- The names that operands touch have a property. -/
def Touch (N : Text → Prop) (xs : List Operand) : Prop := ∀ x ∈ xs, ∀ name ∈ x.names, N name

/-- **What loading takes.**  The second method has other names, by `f` and `g`, and the variables that are
touched have the property `N`. -/
structure OperandsPaired (Q : Error → Error → Prop) (m m' : Method) (f g : Equiv.Perm Text)
    (N : Text → Prop) (R : Option Text → Nat → Emitter → Emitter → Prop) : Prop where
  name : m.name = m'.name
  fails : ∀ err, err.cause.isLeftover = false → err.cause.isPastEnd = false → Q err err
  emit : ∀ {i : Instr} {h n : Nat}, i.slot? = none → (h : Int) + i.effect = n →
    Together Q (R none h) (R none n) (emit m i) (emit m' (i.rename g))
  loadVar : ∀ {name : Text} {h : Nat}, N name →
    Together Q (R none h) (R none (h + 1)) (loadVar m name) (loadVar m' (f name))
  var : ∀ {name : Text} {ty : Ty} {top : Option Text} {h : Nat}, N name → TakesTop top (.var name ty) →
    Together Q (R top h) (R none (h + 1)) (load m (.var name ty)) (load m' (.var (f name) ty))

section
variable {Q : Error → Error → Prop} {m m' : Method} {f g : Equiv.Perm Text} {N : Text → Prop}
  {R : Option Text → Nat → Emitter → Emitter → Prop} {top : Option Text} {h : Nat}

namespace OperandsPaired

theorem throw {α : Type} {S T : Emitter → Emitter → Prop} (hp : OperandsPaired Q m m' f g N R) {err : Error}
    (hl : err.cause.isLeftover = false) (he : err.cause.isPastEnd = false) :
    Together Q S T (MonadExcept.throw err : EmitM α) (MonadExcept.throw err) := .throw (hp.fails err hl he)

/-- A rule is found broken in both runs. -/
theorem defect {α : Type} {S T : Emitter → Emitter → Prop} (hp : OperandsPaired Q m m' f g N R)
    (what : Text → Defect) (hl : (Cause.defect (what m'.name)).isLeftover = false)
    (he : (Cause.defect (what m'.name)).isPastEnd = false) :
    Together Q S T (EmitM.defect (what m.name) : EmitM α) (EmitM.defect (what m'.name)) := by
  rw [hp.name]
  exact hp.throw hl he

theorem loadLiteral (hp : OperandsPaired Q m m' f g N R) (text : Text) (ty : Ty) :
    Together Q (R none h) (R none (h + 1)) (loadLiteral m text ty) (loadLiteral m' text ty) := by
  rw [Jvm.loadLiteral, Jvm.loadLiteral]
  split
  · refine (Together.lift _ fun err herr ↦ ?_).bind fun v ↦ hp.emit rfl (Instr.depth_push rfl)
    rw [Literal.parse] at herr
    cases hv : Literal.value text with
    | ok v =>
      rw [hv] at herr
      cases herr
    | error fault =>
      rw [hv] at herr
      cases herr
      exact hp.fails _ rfl rfl
  · exact hp.throw rfl rfl

/-- **An operand is loaded**, unless it is on the stack already. -/
theorem load (hp : OperandsPaired Q m m' f g N R) {x : Operand} (hx : ∀ name ∈ x.names, N name)
    (ht : TakesTop top x) :
    Together Q (R top h) (R none (h + 1)) (load m x) (load m' (x.rename f)) := by
  induction x generalizing top h with
  | missing => exact hp.defect .missingOperand rfl rfl
  | literal text ty =>
    obtain rfl := ht.eq_none rfl
    exact hp.loadLiteral text ty
  | var name ty => exact hp.var (hx name (by simp)) ht
  | elem base index ty ih =>
    obtain rfl := ht.eq_none rfl
    refine (hp.loadVar (hx base (by simp))).bind fun _ ↦ ?_
    refine (ih (fun name hn ↦ hx name (by simp [hn])) (takesTop_none _)).bind fun _ ↦ ?_
    exact hp.emit rfl (Instr.depth_pops 1 rfl)

theorem loadAll (hp : OperandsPaired Q m m' f g N R) {xs : List Operand} (hx : Touch N xs)
    (ht : TakesTop top (xs.headD .missing)) :
    Together Q (R top h) (R none (h + xs.length)) (loadAll m xs)
      (loadAll m' (xs.map (Operand.rename f))) := by
  induction xs generalizing top h with
  | nil =>
    obtain rfl := ht.eq_none rfl
    exact .pure ()
  | cons x xs ih =>
    refine (hp.load (hx x (by simp)) ht).bind fun _ ↦ ?_
    rw [List.length_cons, Nat.add_comm xs.length, ← Nat.add_assoc]
    exact ih (fun y hy ↦ hx y (by simp [hy])) (takesTop_none _)

/-- A comparison jumps as jumps do that leave `h` values on the stack. -/
theorem branchCompare (hp : OperandsPaired Q m m' f g N R) {op : Op} {cond : Cond} {l r : Operand}
    {label : Text} {post : Emitter → Emitter → Prop} (hl : ∀ name ∈ l.names, N name)
    (hr : ∀ name ∈ r.names, N name) (ht : TakesTop top (firstCompared l r))
    (hjump : ∀ {k : Nat} {i : Instr}, i.slot? = none → (k : Int) + i.effect = h →
      Together Q (R none k) post (jump m i label) (jump m' (i.rename g) (g label))) :
    Together Q (R top h) post (branchCompare m op cond l r label)
      (branchCompare m' op cond (l.rename f) (r.rename f) (g label)) := by
  rw [Jvm.branchCompare, Jvm.branchCompare, isZero_rename, isZero_rename]
  rw [firstCompared] at ht
  split
  · rename_i hzero
    rw [hzero] at ht
    exact (hp.load hl ht).bind fun _ ↦ hjump (i := .ifZero _ label) rfl (Instr.depth_pops 1 rfl)
  · rename_i hright
    rw [Bool.eq_false_iff.2 hright] at ht
    split
    · rename_i hzero
      rw [hzero] at ht
      exact (hp.load hr ht).bind fun _ ↦ hjump (i := .ifZero _ label) rfl (Instr.depth_pops 1 rfl)
    · rename_i hleft
      rw [Bool.eq_false_iff.2 hleft] at ht
      refine (hp.load hl ht).bind fun _ ↦ (hp.load hr (takesTop_none r)).bind fun _ ↦ ?_
      exact hjump (i := .ifCompare cond label) rfl (Instr.depth_pops 2 rfl)

end OperandsPaired

end

/-! ## Calls and fields -/

/-- Two classes in which names stand for the same. -/
structure SameNames (c₁ c₂ : ClassDef) : Prop where
  name : c₁.name = c₂.name
  resolve : c₁.resolve = c₂.resolve
  superName : c₁.superName = c₂.superName
  descriptor : descriptor c₁ = descriptor c₂

/-- The class that a call is emitted against. -/
def callTarget? (c : ClassDef) (x : Call) : Option Text :=
  if x.kind = .static then some (c.resolve x.cls) else owner? c x.kind x.caller.ty x.method

/-- The class of a call is found without the emitter. -/
theorem callClass_run (c : ClassDef) (x : Call) (e : Emitter) :
    (callClass c x).run e = match callTarget? c x with
      | some cls => .ok (cls, e)
      | none => .error (.unsupported (.methodOn x.method x.caller.ty)) := by
  rw [callClass, callTarget?]
  split
  · rename_i hk
    rw [if_pos hk]
    rfl
  · rename_i hk
    rw [if_neg hk]
    generalize x.caller.ty = ty
    cases ty with
    | receiver name =>
      rw [owner?]
      by_cases hi : x.kind = .special ∧ x.method = "<init>"
      · simp only [hi.1, hi.2, decide_true, Bool.and_self, if_true, and_self]
        rfl
      · have hi' : (decide (x.kind = .special) && decide (x.method = "<init>")) = false := by
          simpa using hi
        simp only [hi', hi, Bool.false_eq_true, if_false]
        rfl
    | object _ _ | string | absent | int | bool | void | array _ => rfl

section
variable {c d : ClassDef}

theorem callTarget?_rename (hc : SameNames c d) (f : Equiv.Perm Text) (x : Call) :
    callTarget? d (x.rename f) = callTarget? c x := by
  unfold callTarget? owner?
  rw [hc.resolve, hc.superName, Call.rename, Operand.ty_rename]

theorem invokeInstr_rename (hc : SameNames c d) (f g : Equiv.Perm Text) (x : Call) (how : Invocation)
    (cls : Text) : invokeInstr d (x.rename f) how cls = (invokeInstr c x how cls).rename g := by
  have hargs : (x.rename f).args.map (fun a ↦ descriptor d a.ty) =
      x.args.map fun a ↦ descriptor c a.ty := by
    rw [Call.rename, List.map_map, hc.descriptor]
    exact List.map_congr_left fun a _ ↦ congrArg (descriptor d) (a.ty_rename f)
  rw [invokeInstr, invokeInstr, hargs, hc.descriptor]
  rfl

theorem fieldName_rename (hc : SameNames c d) (f : Equiv.Perm Text) (object : Operand) (field : Text) :
    fieldName d (object.rename f) field = fieldName c object field := by
  rw [fieldName, fieldName, Operand.ty_rename, hc.resolve, hc.name]

end

/-- How many values a call leaves on the stack.  Only what is invoked can leave none. -/
def results (x : Call) : Nat := if x.ret.isVoid && (invocation? x.kind).isSome then 0 else 1

theorem results_of_not_void {x : Call} (h : x.ret.isVoid ≠ true) : results x = 1 :=
  if_neg (by simp [h])

theorem results_of_not_invoked {x : Call} (h : invocation? x.kind = none) : results x = 1 :=
  if_neg (by simp [h])

/-- **What emission takes**, from classes in which names stand for the same.  Jumps go to the labels of the
property `L`, and leave the stack empty there. -/
structure CodePaired (Q : Error → Error → Prop) (c d : ClassDef) (m m' : Method) (f g : Equiv.Perm Text)
    (N L : Text → Prop) (R : Option Text → Nat → Emitter → Emitter → Prop) : Prop
    extends OperandsPaired Q m m' f g N R where
  names : SameNames c d
  compare : ∀ {op : Op} {cond : Cond} {l r : Operand} {top : Option Text} {h : Nat},
    (∀ name ∈ l.names, N name) → (∀ name ∈ r.names, N name) → TakesTop top (firstCompared l r) →
    Together Q (R top h) (R none (h + 1)) (compare m op cond l r)
      (compare m' op cond (l.rename f) (r.rename f))
  jump : ∀ {i : Instr} {label : Text} {h : Nat}, L label → i.slot? = none → (h : Int) + i.effect = 0 →
    Together Q (R none h) (R none 0) (jump m i label) (jump m' (i.rename g) (g label))
  stop : Together Q (R none 0) (R none 0) (modify fun e ↦ { e with unreachable := true })
    (modify fun e ↦ { e with unreachable := true })

namespace CodePaired

variable {Q : Error → Error → Prop} {c d : ClassDef} {m m' : Method} {f g : Equiv.Perm Text}
  {N L : Text → Prop} {R : Option Text → Nat → Emitter → Emitter → Prop} {top : Option Text} {h : Nat}

theorem callClass {S : Emitter → Emitter → Prop} (hp : CodePaired Q c d m m' f g N L R) (x : Call) :
    Together Q S S (callClass c x) (callClass d (x.rename f)) := by
  intro e p he
  rw [callClass_run, callClass_run, callTarget?_rename hp.names]
  cases callTarget? c x with
  | some cls => exact .ok ⟨rfl, he⟩
  | none =>
    rw [Call.rename, Operand.ty_rename]
    exact .error (hp.fails _ rfl rfl)

theorem newArray (hp : CodePaired Q c d m m' f g N L R) (ty : Ty) :
    Together Q (R none (h + 1)) (R none (h + 1)) (newArray c m ty) (newArray d m' ty) := by
  rw [Jvm.newArray, Jvm.newArray, hp.names.resolve]
  split
  · exact hp.emit rfl (Instr.depth_pops 0 rfl)
  · exact hp.emit rfl (Instr.depth_pops 0 rfl)
  · exact hp.emit rfl (Instr.depth_pops 0 rfl)
  · exact hp.emit rfl (Instr.depth_pops 0 rfl)
  · exact hp.throw rfl rfl

/-- The arguments of a call are loaded, and it is invoked. -/
theorem invocation (hp : CodePaired Q c d m m' f g N L R) {x : Call} (hargs : Touch N x.args)
    (ht : TakesTop top (x.args.headD .missing)) :
    Together Q (R top (h + if x.kind = .static then 0 else 1)) (R none (h + results x))
      (loadAll m x.args >>= fun _ ↦ invocation c m x)
      (loadAll m' (x.rename f).args >>= fun _ ↦ Jvm.invocation d m' (x.rename f)) := by
  refine (hp.loadAll hargs ht).bind fun _ ↦ (hp.callClass x).bind fun cls ↦ ?_
  have hkind : (x.rename f).kind = x.kind := rfl
  rw [hkind]
  cases hhow : invocation? x.kind with
  | none => exact hp.throw rfl rfl
  | some how =>
    dsimp only
    rw [invokeInstr_rename hp.names f g]
    refine hp.emit rfl ?_
    rw [results, hhow, invokeInstr, Instr.effect, invokeEffect, descriptor_ne_V, List.length_map,
      hasReceiver_of_invocation? hhow]
    by_cases hs : x.kind = .static <;> cases x.ret.isVoid <;> grind

/-- **A call is invoked**: its receiver and its arguments are gone then, and its result is there. -/
theorem invoke (hp : CodePaired Q c d m m' f g N L R) {x : Call} (hx : Touch N (x.caller :: x.args))
    (ht : TakesTop top (if x.kind = .static then x.args.headD .missing else x.caller)) :
    Together Q (R top h) (R none (h + results x)) (invoke c m x) (invoke d m' (x.rename f)) := by
  obtain ⟨hcaller, hargs⟩ := List.forall_mem_cons.1 hx
  by_cases hs : x.kind = .static
  · rw [if_pos hs] at ht
    rw [invoke_static hs, invoke_static (x := x.rename f) hs]
    have hcall := hp.invocation (h := h) hargs ht
    rwa [if_pos hs] at hcall
  · rw [if_neg hs] at ht
    by_cases hm : x.caller = .missing
    · rw [invoke_missing hs hm, invoke_missing (x := x.rename f) hs ((Operand.rename_eq_missing f).2 hm)]
      exact hp.defect (.noReceiver · _ _) rfl rfl
    · rw [invoke_onObject hs hm,
        invoke_onObject (x := x.rename f) hs ((Operand.rename_eq_missing f).not.2 hm)]
      have hcall := hp.invocation (h := h) hargs (takesTop_none _)
      rw [if_neg hs] at hcall
      exact (hp.load hcaller ht).bind fun _ ↦ hcall

theorem call (hp : CodePaired Q c d m m' f g N L R) {x : Call} (hx : Touch N (x.caller :: x.args))
    (ht : TakesTop top (firstOperand (.call x))) :
    Together Q (R top h) (R none (h + results x)) (call c m x) (call d m' (x.rename f)) := by
  obtain ⟨hcaller, hargs⟩ := List.forall_mem_cons.1 hx
  obtain ⟨kind, caller, cls, method, args, ret⟩ := x
  cases kind with
  | newObject =>
    obtain rfl := ht.eq_none rfl
    rw [results_of_not_invoked rfl]
    show Together Q _ _ (Jvm.emit m (.new (c.resolve cls))) (Jvm.emit m' (.new (d.resolve cls)))
    rw [hp.names.resolve]
    exact hp.emit rfl (Instr.depth_push rfl)
  | newArray =>
    rw [results_of_not_invoked rfl]
    cases args with
    | nil => exact hp.defect (.arraySizes · 0) rfl rfl
    | cons size rest =>
      cases rest with
      | nil => exact (hp.load (hargs size (by simp)) ht).bind fun _ ↦ hp.newArray ret
      | cons size' rest =>
        have hlength : (rest.map (Operand.rename f)).length = rest.length := List.length_map _
        have hsizes := hp.defect (α := Unit) (S := R top h) (T := R none (h + 1))
          (.arraySizes · (rest.length + 2)) rfl rfl
        nth_rewrite 2 [← hlength] at hsizes
        exact hsizes
  | arrayLength =>
    rw [results_of_not_invoked rfl]
    exact (hp.load hcaller ht).bind fun _ ↦ hp.emit rfl (Instr.depth_pops 0 rfl)
  | static => exact hp.invoke hx ht
  | special | virtual | interface | unknown _ => exact hp.invoke hx ht

theorem getField (hp : CodePaired Q c d m m' f g N L R) {object : Operand} {field : FieldRef} {ty : Ty}
    (hx : ∀ name ∈ object.names, N name) (ht : TakesTop top object) :
    Together Q (R top h) (R none (h + 1)) (getField c m object field ty)
      (getField d m' (object.rename f) field ty) := by
  rw [Jvm.getField, Jvm.getField, fieldName_rename hp.names, hp.names.descriptor]
  by_cases hm : object = .missing
  · obtain rfl := ht.eq_none (by rw [hm]; rfl)
    rw [if_pos hm, if_pos ((Operand.rename_eq_missing f).2 hm)]
    exact hp.emit rfl (Instr.depth_push rfl)
  · rw [if_neg hm, if_neg ((Operand.rename_eq_missing f).not.2 hm)]
    exact (hp.load hx ht).bind fun _ ↦ hp.emit rfl (Instr.depth_pops 0 rfl)

theorem putField (hp : CodePaired Q c d m m' f g N L R) {object value : Operand} {field : FieldRef}
    (hx : Touch N [object, value]) (ht : TakesTop top (firstOperand (.putField object field value))) :
    Together Q (R top h) (R none h) (putField c m object field value)
      (putField d m' (object.rename f) field (value.rename f)) := by
  rw [Jvm.putField, Jvm.putField, fieldName_rename hp.names, hp.names.descriptor]
  have hvalue := hx value (by simp)
  by_cases hm : object = .missing
  · subst hm
    rw [if_pos rfl, if_pos ((Operand.rename_eq_missing f).2 rfl)]
    exact (hp.load hvalue ht).bind fun _ ↦ hp.emit rfl (Instr.depth_pops 1 rfl)
  · rw [firstOperand_putField hm] at ht
    rw [if_neg hm, if_neg ((Operand.rename_eq_missing f).not.2 hm)]
    refine (hp.load (hx object (by simp)) ht).bind fun _ ↦ ?_
    exact (hp.load hvalue (takesTop_none _)).bind fun _ ↦ hp.emit rfl (Instr.depth_pops 2 rfl)

/-! ## Instructions -/

variable {x : IR.Instr}

/-- **A value is pushed**, and nothing else is left on the stack. -/
theorem value (hp : CodePaired Q c d m m' f g N L R) (hx : Touch N x.valueOperands)
    (ht : TakesTop top (firstOperand x)) :
    Together Q (R top h) (R none (h + 1)) (value c m x) (value d m' (x.rename f g)) := by
  cases x with
  | single x =>
    refine hp.load (hx x (by simp)) ?_
    cases x with
    | elem base index ty =>
      obtain rfl := ht.eq_none rfl
      exact takesTop_none _
    | missing | literal _ _ | var _ _ => exact ht
  | binary op l r ty =>
    have hl := hx l (by simp)
    have hr := hx r (by simp)
    rw [IR.Instr.rename, Jvm.value, Jvm.value]
    cases hcond : Cond.ofOp? op with
    | some cond => exact hp.compare hl hr (firstOperand_compare hcond l r ty ▸ ht)
    | none =>
      rw [firstOperand_arith hcond] at ht
      dsimp only
      cases Arith.ofOp? op with
      | some arith =>
        refine (hp.load hl ht).bind fun _ ↦ (hp.load hr (takesTop_none _)).bind fun _ ↦ ?_
        exact hp.emit rfl (Instr.depth_pops 1 rfl)
      | none => exact hp.throw rfl rfl
  | unary op x ty =>
    refine (hp.load (hx x (by simp)) ht).bind fun _ ↦ ?_
    cases op with
    | not =>
      exact (hp.emit (n := h + 2) rfl (Instr.depth_push rfl)).bind fun _ ↦
        hp.emit rfl (Instr.depth_pops 1 rfl)
    | neg => exact hp.emit rfl (Instr.depth_pops 0 rfl)
    | _ => exact hp.throw rfl rfl
  | call x =>
    rw [IR.Instr.rename, Jvm.value, Jvm.value]
    show Together Q _ _ _ (if x.ret.isVoid then _ else _)
    split
    · exact hp.defect (.voidValue · _) rfl rfl
    · rename_i hret
      rw [← results_of_not_void hret]
      exact hp.call hx ht
  | getField object field ty => exact hp.getField (hx object (by simp)) ht
  | missing | assign _ _ _ | ret _ _ | branch _ _ | goto _ | putField _ _ _ => exact hp.throw rfl rfl

/-- A branch leaves the stack empty. -/
theorem branch (hp : CodePaired Q c d m m' f g N L R) {label : Text} (hx : Touch N x.valueOperands)
    (hl : L label) (ht : TakesTop top (firstOperand x)) :
    Together Q (R top 0) (R none 0) (branch c m x label) (branch d m' (x.rename f g) (g label)) := by
  -- the value is pushed and compared with zero
  have hvalue : Together Q (R top 0) (R none 0)
      (do
        Jvm.value c m x
        Jvm.jump m (.ifZero .ne label) label)
      (do
        Jvm.value d m' (x.rename f g)
        Jvm.jump m' (.ifZero .ne (g label)) (g label)) :=
    (hp.value hx ht).bind fun _ ↦ hp.jump (i := .ifZero .ne label) hl rfl (Instr.depth_pops 1 rfl)
  cases x with
  | binary op l r ty =>
    rw [IR.Instr.rename, Jvm.branch, Jvm.branch]
    cases hcond : Cond.ofOp? op with
    | none => exact hvalue
    | some cond =>
      exact hp.branchCompare (hx l (by simp))
        (hx r (by simp)) (firstOperand_compare hcond l r ty ▸ ht) (hp.jump hl)
  | unary op x ty =>
    cases op with
    | not =>
      refine (hp.load (hx x (by simp)) ht).bind fun _ ↦ ?_
      exact hp.jump (i := .ifZero .eq label) hl rfl (Instr.depth_pops 1 rfl)
    | _ => exact hvalue
  | missing | assign _ _ _ | call _ | single _ | ret _ _ | branch _ _ | goto _ | putField _ _ _
  | getField _ _ _ => exact hvalue

/-- **An instruction is emitted.**  What an assignment to a variable does is known from elsewhere. -/
theorem instr (hp : CodePaired Q c d m m' f g N L R) {E : Emitter → Emitter → Prop}
    (hx : Touch N x.operands) (hl : ∀ label, x.target? = some label → L label)
    (ht : TakesTop top (firstOperand x))
    (hassign : ∀ name ty ty' rhs, x = .assign (.var name ty) ty' rhs →
      Together Q (R top 0) E (assign c m (.var name ty) rhs)
        (assign d m' (.var (f name) ty) (rhs.rename f g)))
    (hcall : ∀ y, x = .call y → y.ret.isVoid = true → ∀ e p, R none (results y) e p → E e p)
    (hdone : x.defs? = none → ∀ e p, R none 0 e p → E e p) :
    Together Q (R top 0) E (instr c m x) (instr d m' (x.rename f g)) := by
  have hdiscard (hdefs : x.defs? = none) (hx : Touch N x.valueOperands) : Together Q (R top 0) E
      (do
        Jvm.value c m x
        Jvm.emit m .pop)
      (do
        Jvm.value d m' (x.rename f g)
        Jvm.emit m' .pop) :=
    ((hp.value hx ht).bind fun _ ↦ hp.emit rfl (Instr.depth_pops 1 rfl)).mono (hdone hdefs)
  cases x with
  | assign dest ty rhs =>
    cases dest with
    | var name ty' => exact hassign name ty' ty rhs rfl
    | elem base index ty' =>
      obtain ⟨hdest, hrhs⟩ := List.forall_mem_cons.1 hx
      obtain rfl := ht.eq_none rfl
      refine Together.mono (S := R none 0) ?_ (hdone rfl)
      refine (hp.loadVar (hdest base (by simp))).bind fun _ ↦ ?_
      refine (hp.load (fun name hn ↦ hdest name (by simp [hn]))
        (takesTop_none _)).bind fun _ ↦ ?_
      exact (hp.value hrhs (takesTop_none _)).bind fun _ ↦ hp.emit rfl (Instr.depth_pops 3 rfl)
    | missing | literal _ _ => exact hp.defect (.badDestination · _) rfl rfl
  | call x =>
    refine (hp.call hx ht).bind fun _ ↦ ?_
    show Together Q _ _ (if x.ret.isVoid then _ else _) (if x.ret.isVoid then _ else _)
    rw [Nat.zero_add]
    split
    · rename_i hret
      exact (Together.pure ()).mono (hcall x rfl hret)
    · rename_i hret
      rw [results_of_not_void hret]
      exact (hp.emit rfl (Instr.depth_pops 1 rfl)).mono (hdone rfl)
  | ret x ty =>
    rw [IR.Instr.rename, Jvm.instr, Jvm.instr]
    refine Together.mono (S := R none 0) ?_ (hdone rfl)
    by_cases hm : x = .missing
    · obtain rfl := ht.eq_none (by rw [firstOperand, hm]; rfl)
      rw [if_pos hm, if_pos ((Operand.rename_eq_missing f).2 hm)]
      exact (hp.emit (n := 0) rfl (Instr.depth_pops 0 rfl)).bind fun _ ↦ hp.stop
    · rw [if_neg hm, if_neg ((Operand.rename_eq_missing f).not.2 hm)]
      refine (hp.load (hx x (by simp [IR.Instr.operands])) ht).bind fun _ ↦ ?_
      exact (hp.emit (n := 0) rfl (Instr.depth_pops 1 rfl)).bind fun _ ↦ hp.stop
  | goto label =>
    obtain rfl := ht.eq_none rfl
    refine Together.mono (S := R none 0) ?_ (hdone rfl)
    exact (hp.jump (i := .goto label) (hl label rfl) rfl (Instr.depth_pops 0 rfl)).bind fun _ ↦ hp.stop
  | branch cond label => exact (hp.branch hx (hl label rfl) ht).mono (hdone rfl)
  | putField object field value => exact (hp.putField hx ht).mono (hdone rfl)
  | missing => exact hp.throw rfl rfl
  | binary _ _ _ _ => exact hdiscard rfl hx
  | unary _ _ _ => exact hdiscard rfl hx
  | single _ => exact hdiscard rfl hx
  | getField _ _ _ => exact hdiscard rfl hx

end CodePaired

/-- The first step at an instruction after its labels: the emitter is told what to leave on the stack. -/
def tell : Option Text → EmitM Unit
  | some name => modify fun e ↦ { e with keep := named name }
  | none => pure ()

/-- **The emitter at one instruction**, step by step. -/
theorem emitAt_together {Q : Error → Error → Prop} {R R₁ R₂ R₃ S : Emitter → Emitter → Prop}
    {c d : ClassDef} {m m' : Method} {keepAt keepAt' : Nat → Option Text} {i : Nat} {x y : IR.Instr}
    (hq : ∀ place err err', Q err err' → Q (err.within place) (err'.within place))
    (hlabels : Together Q R R₁ ((m.labels.namesAt i).forM (placeLabel m))
      ((m'.labels.namesAt i).forM (placeLabel m')))
    (htell : Together Q R₁ R₂ (tell (keepAt i)) (tell (keepAt' i)))
    (hinstr : Together Q R₂ R₃ (instr c m x) (instr d m' y))
    (hcheck : ∀ e p, R₁ e p → Together Q R₃ S (checkStack m i e.onStack) (checkStack m' i p.onStack)) :
    Together Q R S (emitAt c m keepAt i x) (emitAt d m' keepAt' i y) := by
  refine (hlabels.within _ (hq _)).bind fun _ ↦ .get fun e p he ↦ ?_
  have hrest := htell.bind fun _ ↦ (hinstr.within s!"instr {i}" (hq _)).bind fun _ ↦ hcheck e p he
  cases hkeep : keepAt i <;> cases hkeep' : keepAt' i <;> rw [hkeep, hkeep'] at hrest <;> exact hrest

/-- **What a run over code keeps**, from what one instruction keeps. -/
theorem forM_zipIdx_together {Q : Error → Error → Prop} {I : Nat → Emitter → Emitter → Prop}
    {F G : IR.Instr → Nat → EmitM Unit} {φ : IR.Instr → IR.Instr} (xs : List IR.Instr) {k : Nat}
    (h : ∀ i x, xs[i]? = some x → Together Q (I (k + i)) (I (k + i + 1)) (F x (k + i)) (G (φ x) (k + i))) :
    Together Q (I k) (I (k + xs.length)) ((xs.zipIdx k).forM fun p ↦ F p.1 p.2)
      (((xs.map φ).zipIdx k).forM fun p ↦ G p.1 p.2) := by
  induction xs generalizing k with
  | nil => exact .pure ()
  | cons x xs ih =>
    refine (h 0 x rfl).bind fun _ ↦ ?_
    rw [List.length_cons, Nat.add_comm xs.length, ← Nat.add_assoc]
    refine ih fun i y hy ↦ ?_
    rw [Nat.add_assoc, Nat.add_comm 1]
    exact h (i + 1) y hy

end Jvm

end MiniJava
