import MiniJava.Proofs.LineLabels
import MiniJava.Proofs.ParallelEmission
import MiniJava.Proofs.SoundCode
import MiniJava.Proofs.StackUse
import MiniJava.Proofs.Typing

/-!
# Safe emission

The emitter watches over the code it is given, and sound code never gives it a reason to complain.  A
step is `Safe` if it succeeds and leaves a state with a property, or refuses the program: it meets a
construct that there is no code for, or a literal that is no integer.  No rule of the intermediate code
is found broken on the way.

The property is about the operand stack.  Before an operand is loaded there are some values on it, and
perhaps the temporary that the operand names (`Waits`); after that the temporary is gone and there is one
value more (`Stacked`).  A comparison has labels of its own, and both ways through it end with one value
more (`Leaves`).  All other labels belong to the method and stand where the stack is empty; `Consistent`
says that of the depths which the emitter has recorded.
-/

set_option autoImplicit false

namespace MiniJava

open IR

/-- The program asks for something that there is no code for, or has a literal that is no integer. -/
def Cause.isRefusal : Cause → Bool
  | unsupported _ _ | literal _ _ => true
  | _ => false

theorem Cause.isRefusal_iff {c : Cause} : c.isRefusal = true ↔
    (∃ what pos, c = .unsupported what pos) ∨ ∃ text fault, c = .literal text fault := by
  cases c <;> simp [isRefusal]

namespace Jvm

/-- **A safe step**: it succeeds with a property of the result and the state, or refuses the program. -/
def Safe {α : Type} (e : Emitter) (step : EmitM α) (post : α → Emitter → Prop) : Prop :=
  match step.run e with
  | .ok (a, e') => post a e'
  | .error err => err.cause.isRefusal = true

namespace Safe

variable {α β : Type} {e : Emitter} {P : α → Emitter → Prop} {Q : β → Emitter → Prop}

theorem pure {a : α} (h : P a e) : Safe e (Pure.pure a) P := h

theorem unsupported {what : Unsupported} : Safe e (EmitM.unsupported what) P := rfl

variable {step : EmitM α}

theorem mono {P' : α → Emitter → Prop} (h : Safe e step P) (hp : ∀ a e', P a e' → P' a e') :
    Safe e step P' := by
  rw [Safe] at h ⊢
  split at h
  · exact hp _ _ h
  · exact h

theorem bind {next : α → EmitM β} (h : Safe e step P) (hn : ∀ a e', P a e' → Safe e' (next a) Q) :
    Safe e (step >>= next) Q := by
  rw [Safe] at h
  rw [Safe, StateT.run_bind]
  split at h
  · rename_i a e' hr
    rw [hr]
    exact hn a e' h
  · rename_i err hr
    rw [hr]
    exact h

theorem get {next : Emitter → EmitM α} (h : Safe e (next e) P) :
    Safe e (MonadState.get >>= next) P := h

theorem set {e' : Emitter} {P : PUnit → Emitter → Prop} (h : P ⟨⟩ e') :
    Safe e (MonadStateOf.set e' : EmitM PUnit) P := h

theorem modify {f : Emitter → Emitter} {P : PUnit → Emitter → Prop} (h : P ⟨⟩ (f e)) :
    Safe e (modify f : EmitM PUnit) P := h

theorem within (h : Safe e step P) (place : String) : Safe e (EmitM.within place step) P := by
  have hw : (EmitM.within place step).run e = withinPlace place (step.run e) := rfl
  rw [Safe] at h
  rw [Safe, hw]
  split at h
  · rename_i hr
    rw [hr]
    exact h
  · rename_i hr
    rw [hr]
    exact h

/-- Steps that each keep a property of the state. -/
theorem forM {I : Emitter → Prop} {xs : List α} {f : α → EmitM PUnit}
    (h : ∀ x ∈ xs, ∀ e, I e → Safe e (f x) fun _ ↦ I) (he : I e) :
    Safe e (xs.forM f) fun _ ↦ I := by
  induction xs generalizing e with
  | nil => exact .pure he
  | cons x xs ih =>
    exact (h x (by simp) e he).bind fun _ e₁ he₁ ↦ ih (fun y hy ↦ h y (by simp [hy])) he₁

end Safe

/-! ## States -/

/-- Labels are as they were, and so is the temporary that the next assignment leaves on the stack. -/
structure Steady (e e' : Emitter) : Prop where
  keep : e'.keep = e.keep
  labelDepths : e'.labelDepths = e.labelDepths
  nextLabel : e'.nextLabel = e.nextLabel

/-- Only an assignment leaves a temporary on the stack. -/
theorem kept_eq_none {kept : Option Text} {x : IR.Instr}
    (hkept : ∀ name, kept = some name → x.defs? = some name) (hdefs : x.defs? = none) : kept = none := by
  cases kept with
  | none => rfl
  | some name =>
    have hname := hkept name rfl
    rw [hdefs] at hname
    cases hname

/-- There are `h` values on the stack, and also the temporary if the operand that is loaded next is
that. -/
structure Waits (e : Emitter) (h : Nat) (x : Operand) (e' : Emitter) : Prop extends Steady e e' where
  depth : e'.depth = h + left e'.onStack
  first : ∀ name, e'.onStack = some name → ∃ ty, x = .var name ty

/-- There are `h` values on the stack, none of them a temporary. -/
structure Stacked (e : Emitter) (h : Nat) (e' : Emitter) : Prop extends Steady e e' where
  depth : e'.depth = h
  onStack : e'.onStack = none

/-- A jump to a label was emitted that leaves `h` values on the stack. -/
structure Jumps (e : Emitter) (label : Text) (h : Nat) (e' : Emitter) : Prop where
  keep : e'.keep = e.keep
  nextLabel : e'.nextLabel = e.nextLabel
  lookup : ∀ l, e'.labelDepths.lookup l = if l = label then some h else e.labelDepths.lookup l
  depth : e'.depth = h
  onStack : e'.onStack = none

/-- The stack is empty at the labels of the method.  Other labels are private ones of numbers that were
given. -/
def Consistent (e : Emitter) : Prop :=
  ∀ l d, e.labelDepths.lookup l = some d →
    ¬ IsPrivate l ∧ d = 0 ∨ ∃ n < e.nextLabel, l = trueLabel n ∨ l = endLabel n

/-- There are `h` values on the stack, and the depths at labels are consistent. -/
structure Leaves (e : Emitter) (h : Nat) (e' : Emitter) : Prop where
  keep : e'.keep = e.keep
  depth : e'.depth = h
  onStack : e'.onStack = none
  consistent : Consistent e'

section
variable {e e₁ e₂ : Emitter} {h : Nat}

theorem Steady.refl (e : Emitter) : Steady e e := ⟨rfl, rfl, rfl⟩

theorem Steady.trans (h₁ : Steady e e₁) (h₂ : Steady e₁ e₂) : Steady e e₂ :=
  ⟨h₂.keep.trans h₁.keep, h₂.labelDepths.trans h₁.labelDepths, h₂.nextLabel.trans h₁.nextLabel⟩

theorem Stacked.waits (hr : Stacked e h e₁) (x : Operand) : Waits e h x e₁ where
  toSteady := hr.toSteady
  depth := by rw [hr.onStack, hr.depth]; rfl
  first := by
    intro name hname
    rw [hr.onStack] at hname
    cases hname

/-- Nothing but the operand that is loaded next can be a temporary on the stack. -/
theorem Waits.stacked {x : Operand} (hw : Waits e h x e₁) (hx : x.isVar = false) :
    Stacked e h e₁ := by
  have hnone : e₁.onStack = none := TakesTop.eq_none hw.first hx
  refine ⟨hw.toSteady, ?_, hnone⟩
  rw [hw.depth, hnone]
  rfl

theorem Consistent.congr (hc : Consistent e) (hk : Steady e e₁) : Consistent e₁ := by
  rw [Consistent, hk.labelDepths, hk.nextLabel]
  exact hc

theorem Stacked.leaves (hr : Stacked e h e₁) (hc : Consistent e) : Leaves e h e₁ :=
  ⟨hr.keep, hr.depth, hr.onStack, hc.congr hr.toSteady⟩

theorem Leaves.refl (hl : Leaves e h e₁) : Stacked e₁ h e₁ := ⟨.refl e₁, hl.depth, hl.onStack⟩

theorem Leaves.trans {h' : Nat} (h₁ : Leaves e h e₁) (h₂ : Leaves e₁ h' e₂) : Leaves e h' e₂ :=
  ⟨h₂.keep.trans h₁.keep, h₂.depth, h₂.onStack, h₂.consistent⟩

theorem Leaves.then {h' : Nat} (hl : Leaves e h e₁) (hr : Stacked e₁ h' e₂) : Leaves e h' e₂ :=
  hl.trans (hr.leaves hl.consistent)

/-- The depth at a label of the method is not recorded yet, or it is zero. -/
theorem Consistent.lookup (hc : Consistent e) {l : Text} (hl : ¬ IsPrivate l) :
    e.labelDepths.lookup l = none ∨ e.labelDepths.lookup l = some 0 := by
  cases hlookup : e.labelDepths.lookup l with
  | none => exact .inl rfl
  | some d =>
    rcases hc l d hlookup with ⟨-, rfl⟩ | ⟨n, -, hn⟩
    · exact .inr rfl
    · exact absurd ⟨n, hn⟩ hl

/-- A private label of the next number is not recorded yet. -/
theorem Consistent.lookup_fresh (hc : Consistent e) {l : Text}
    (hl : l = trueLabel e.nextLabel ∨ l = endLabel e.nextLabel) : e.labelDepths.lookup l = none := by
  cases hlookup : e.labelDepths.lookup l with
  | none => rfl
  | some d =>
    rcases hc l d hlookup with ⟨hpublic, -⟩ | ⟨n, hlt, hn⟩
    · exact absurd ⟨_, hl⟩ hpublic
    · exact absurd (private_inj hl hn) (Nat.ne_of_gt hlt)

theorem Jumps.leaves {label : Text} (hj : Jumps e label 0 e₁) (hc : Consistent e)
    (hl : ¬ IsPrivate label) : Leaves e 0 e₁ := by
  refine ⟨hj.keep, hj.depth, hj.onStack, fun l d hd ↦ ?_⟩
  rw [hj.lookup] at hd
  split at hd
  · rename_i heq
    cases hd
    exact .inl ⟨heq ▸ hl, rfl⟩
  · rw [hj.nextLabel]
    exact hc l d hd

end

/-! ## Lines -/

section
variable {c : ClassDef} {m : Method} {e e₁ : Emitter} {h : Nat}

variable {n : Nat} {label : Text} {name : Text} {x : IR.Instr}

theorem Stacked.emit (hr : Stacked e h e₁) {i : Instr} (hd : (h : Int) + i.effect = n) :
    Safe e₁ (emit m i) fun _ ↦ Stacked e n := by
  rw [Safe, emit_run, hr.depth, if_neg (by omega)]
  refine ⟨hr.toSteady.trans ⟨rfl, rfl, rfl⟩, ?_, hr.onStack⟩
  rw [Emitter.put, hr.depth, hd]
  rfl

theorem Leaves.emit (hl : Leaves e h e₁) {i : Instr} (hd : (h : Int) + i.effect = n) :
    Safe e₁ (emit m i) fun _ ↦ Leaves e n :=
  (hl.refl.emit hd).mono fun _ _ ↦ hl.then

theorem lookup_cons_eq_ite (l label : Text) (d : Nat) (depths : List (Text × Nat)) :
    List.lookup l ((label, d) :: depths) = if l = label then some d else depths.lookup l := by
  rw [List.lookup_cons]
  by_cases heq : l = label
  · simp [heq]
  · rw [beq_false_of_ne heq, if_neg heq]

/-- A jump is safe if the depth at its label agrees. -/
theorem Stacked.jump (hr : Stacked e h e₁) {i : Instr}
    (hl : e.labelDepths.lookup label = none ∨ e.labelDepths.lookup label = some n)
    (hd : (h : Int) + i.effect = n) : Safe e₁ (jump m i label) fun _ ↦ Jumps e label n := by
  refine (hr.emit hd).bind fun _ e₂ hr₂ ↦ .get ?_
  rcases hl with hl | hl
  · rw [hr₂.labelDepths, hl]
    refine .set ⟨hr₂.keep, hr₂.nextLabel, fun l ↦ ?_, hr₂.depth, hr₂.onStack⟩
    rw [lookup_cons_eq_ite, hr₂.depth]
  · rw [hr₂.labelDepths, hl]
    dsimp only
    rw [if_neg (by rw [hr₂.depth]; simp)]
    refine .pure ⟨hr₂.keep, hr₂.nextLabel, fun l ↦ ?_, hr₂.depth, hr₂.onStack⟩
    rw [hr₂.labelDepths]
    split
    · rename_i heq
      rw [heq, hl]
    · rfl

theorem Stacked.goto (hr : Stacked e h e₁)
    (hl : e.labelDepths.lookup label = none ∨ e.labelDepths.lookup label = some h) :
    Safe e₁ (goto m label) fun _ e₂ ↦ Jumps e label h e₂ ∧ e₂.unreachable = true := by
  refine (hr.jump hl (Instr.depth_pops 0 rfl)).bind fun _ e₂ hj ↦ ?_
  exact .modify ⟨⟨hj.keep, hj.nextLabel, hj.lookup, hj.depth, hj.onStack⟩, rfl⟩

/-- A label is safe where the depth agrees, and also where nothing falls through to it. -/
theorem placeLabel_safe {d : Nat} (hl : e₁.labelDepths.lookup label = some d)
    (hd : e₁.unreachable = true ∨ e₁.depth = d) (hk : Steady e e₁) (ho : e₁.onStack = none) :
    Safe e₁ (placeLabel m label) fun _ ↦ Stacked e d := by
  refine .get ?_
  rw [hl]
  dsimp only
  split
  · exact .set ⟨hk.trans ⟨rfl, rfl, rfl⟩, rfl, ho⟩
  · rename_i hu
    have heq : e₁.depth = d := hd.resolve_left hu
    rw [if_neg (by simp [heq])]
    exact .set ⟨hk.trans ⟨rfl, rfl, rfl⟩, heq, ho⟩

/-- A label of the method is safe where the stack is empty. -/
theorem placeLabel_public (hp : ¬ IsPrivate label) (hl : Leaves e 0 e₁) :
    Safe e₁ (placeLabel m label) fun _ ↦ Leaves e 0 := by
  rcases hl.consistent.lookup hp with hlookup | hlookup
  · refine .get ?_
    rw [hlookup]
    dsimp only
    split
    · exact .set ⟨hl.keep, hl.depth, hl.onStack, hl.consistent⟩
    · have hj : Jumps e₁ label 0 { e₁ with
          lines := e₁.lines ++ [Line.label label]
          labelDepths := (label, e₁.depth) :: e₁.labelDepths } := by
        refine ⟨rfl, rfl, fun l ↦ ?_, hl.depth, hl.onStack⟩
        rw [lookup_cons_eq_ite, hl.depth]
      exact .set (hl.trans (hj.leaves hl.consistent hp))
  · exact (placeLabel_safe hlookup (.inr hl.depth) (.refl e₁) hl.onStack).mono fun _ _ ↦ hl.then

/-! ## Operands -/

/-- A variable with a name and a slot. -/
def Slotted (m : Method) (name : Text) : Prop := name ≠ "" ∧ ∃ kind slot, HasSlot m name kind slot

/-- An operand of which all variables have slots. -/
inductive Loadable (m : Method) : Operand → Prop
  | literal (text : Text) (ty : Ty) : Loadable m (.literal text ty)
  | var {name : Text} {ty : Ty} (h : Slotted m name) : Loadable m (.var name ty)
  | elem {base : Text} {index : Operand} {ty : Ty} (hb : Slotted m base) (hi : Loadable m index) :
      Loadable m (.elem base index ty)

/-- Access to the slot of a variable, to load or to store it. -/
theorem Stacked.access (hr : Stacked e h e₁) (hs : Slotted m name) (access : Kind → Nat → Instr)
    (hd : ∀ kind slot, (h : Int) + (access kind slot).effect = n) :
    Safe e₁ (do
      let (kind, slot) ← slotOf m name
      Jvm.emit m (access kind slot)) fun _ ↦ Stacked e n := by
  obtain ⟨-, kind, slot, v, hv, hreg, -⟩ := hs
  refine Safe.bind (P := fun _ ↦ Stacked e h) ?_ fun _ e₂ hr₂ ↦ hr₂.emit (hd _ _)
  rw [Safe, slotOf_run, hv]
  dsimp only
  rw [if_neg (by omega)]
  exact ⟨hr.toSteady.trans ⟨rfl, rfl, rfl⟩, hr.depth, hr.onStack⟩

theorem Stacked.loadVar (hr : Stacked e h e₁) (hs : Slotted m name) :
    Safe e₁ (loadVar m name) fun _ ↦ Stacked e (h + 1) :=
  hr.access hs .load fun _ _ ↦ rfl

theorem Leaves.storeVar (hl : Leaves e (h + 1) e₁) (hs : Slotted m name) :
    Safe e₁ (storeVar m name) fun _ ↦ Leaves e h := by
  refine (hl.refl.access hs .store fun kind slot ↦ ?_).mono fun _ _ ↦ hl.then
  simp only [Instr.effect]
  omega

theorem Stacked.loadLiteral (hr : Stacked e h e₁) (text : Text) (ty : Ty) :
    Safe e₁ (loadLiteral m text ty) fun _ ↦ Stacked e (h + 1) := by
  rw [Jvm.loadLiteral]
  split
  · refine Safe.bind (P := fun _ ↦ Stacked e h) ?_ fun _ e₂ hr₂ ↦ hr₂.emit (Instr.depth_push rfl)
    rw [Literal.parse]
    cases Literal.value text with
    | ok v => exact hr
    | error fault => exact rfl
  · exact .unsupported

theorem load_safe {x : Operand} (hx : Loadable m x) (hw : Waits e h x e₁) :
    Safe e₁ (load m x) fun _ ↦ Stacked e (h + 1) := by
  induction hx generalizing h e₁ with
  | literal text ty => exact (hw.stacked rfl).loadLiteral text ty
  | @var name ty hs =>
    refine .get ?_
    cases htop : e₁.onStack with
    | none =>
      rw [if_neg (by simpa using hs.1.symm)]
      refine Stacked.loadVar ⟨hw.toSteady, ?_, htop⟩ hs
      rw [hw.depth, htop]
      rfl
    | some top =>
      obtain ⟨_, heq⟩ := hw.first top htop
      cases heq
      rw [if_pos (by simp)]
      refine .set ⟨hw.toSteady.trans ⟨rfl, rfl, rfl⟩, ?_, rfl⟩
      rw [hw.depth, htop]
      rfl
  | elem hb hi ih =>
    refine ((hw.stacked rfl).loadVar hb).bind fun _ e₂ hr₂ ↦ ?_
    exact (ih (hr₂.waits _)).bind fun _ e₃ hr₃ ↦ hr₃.emit (Instr.depth_pops 1 rfl)

theorem loadAll_safe {xs : List Operand} (hxs : ∀ x ∈ xs, Loadable m x)
    (hw : Waits e h (xs.headD .missing) e₁) :
    Safe e₁ (loadAll m xs) fun _ ↦ Stacked e (h + xs.length) := by
  induction xs generalizing h e₁ with
  | nil => exact .pure (hw.stacked rfl)
  | cons x xs ih =>
    refine (load_safe (hxs x (by simp)) hw).bind fun _ e₂ hr ↦ ?_
    refine (ih (fun y hy ↦ hxs y (by simp [hy])) (hr.waits _)).mono fun _ e₃ hr₃ ↦ ?_
    rw [List.length_cons, Nat.add_comm xs.length, ← Nat.add_assoc]
    exact hr₃

/-! ## Conditions -/

theorem branchCompare_safe {op : Op} {cond : Cond} {l r : Operand} (hl : Loadable m l)
    (hr : Loadable m r) (hw : Waits e h (firstCompared l r) e₁)
    (hlabel : e.labelDepths.lookup label = none ∨ e.labelDepths.lookup label = some h) :
    Safe e₁ (branchCompare m op cond l r label) fun _ ↦ Jumps e label h := by
  rw [branchCompare]
  rw [firstCompared] at hw
  split
  · rename_i hzero
    rw [hzero] at hw
    exact (load_safe hl hw).bind fun _ e₂ hr₂ ↦ hr₂.jump hlabel (Instr.depth_pops 1 rfl)
  · rename_i hright
    rw [Bool.eq_false_iff.2 hright] at hw
    split
    · rename_i hzero
      rw [hzero] at hw
      exact (load_safe hr hw).bind fun _ e₂ hr₂ ↦ hr₂.jump hlabel (Instr.depth_pops 1 rfl)
    · rename_i hleft
      rw [Bool.eq_false_iff.2 hleft] at hw
      refine (load_safe hl hw).bind fun _ e₂ hr₂ ↦ ?_
      exact (load_safe hr (hr₂.waits r)).bind fun _ e₃ hr₃ ↦ hr₃.jump hlabel (Instr.depth_pops 2 rfl)

/-- **A comparison ends with its answer on the stack**, whichever way control goes. -/
theorem compare_safe {op : Op} {cond : Cond} {l r : Operand} (hc : Consistent e) (hl : Loadable m l)
    (hr : Loadable m r) (hw : Waits e h (firstCompared l r) e₁) :
    Safe e₁ (compare m op cond l r) fun _ ↦ Leaves e (h + 1) := by
  have hc₁ : Consistent e₁ := hc.congr hw.toSteady
  let e₂ : Emitter := { e₁ with nextLabel := e₁.nextLabel + 1 }
  let onTrue := trueLabel e₁.nextLabel
  let done := endLabel e₁.nextLabel
  have hne : onTrue ≠ done := trueLabel_ne_endLabel _ _
  have hfresh : ∀ label, label = onTrue ∨ label = done → e₂.labelDepths.lookup label = none :=
    fun _ ↦ hc₁.lookup_fresh
  refine Safe.bind (P := fun labels e' ↦ labels = (onTrue, done) ∧ e' = e₂) ⟨rfl, rfl⟩ ?_
  rintro _ _ ⟨rfl, rfl⟩
  have hw₂ : Waits e₂ h (firstCompared l r) e₂ := ⟨.refl e₂, hw.depth, hw.first⟩
  refine (branchCompare_safe hl hr hw₂ (.inl (hfresh _ (.inl rfl)))).bind fun _ e₃ h₃ ↦ ?_
  have hr₃ : Stacked e₃ h e₃ := ⟨.refl e₃, h₃.depth, h₃.onStack⟩
  refine (hr₃.emit (n := h + 1) (Instr.depth_push rfl)).bind fun _ e₄ h₄ ↦ ?_
  have hdone : e₃.labelDepths.lookup done = none := by
    rw [h₃.lookup, if_neg hne.symm]
    exact hfresh _ (.inr rfl)
  refine (h₄.goto (.inl hdone)).bind ?_
  rintro _ e₅ ⟨h₅, hu⟩
  -- nothing falls through to the first label, and both ways come to the second one
  have htrue : e₅.labelDepths.lookup onTrue = some h := by
    rw [h₅.lookup, if_neg hne, h₃.lookup, if_pos rfl]
  refine (placeLabel_safe htrue (.inl hu) (.refl e₅) h₅.onStack).bind fun _ e₆ h₆ ↦ ?_
  refine (h₆.emit (n := h + 1) (Instr.depth_push rfl)).bind fun _ e₇ h₇ ↦ ?_
  have hend : e₇.labelDepths.lookup done = some (h + 1) := by
    rw [h₇.labelDepths, h₅.lookup, if_pos rfl]
  refine (placeLabel_safe hend (.inr h₇.depth) h₇.toSteady h₇.onStack).mono fun _ e₈ h₈ ↦ ?_
  have hnext : e₈.nextLabel = e₁.nextLabel + 1 := by
    rw [h₈.nextLabel, h₅.nextLabel, h₃.nextLabel]
  refine ⟨?_, h₈.depth, h₈.onStack, fun l d hd ↦ ?_⟩
  · rw [h₈.keep, h₅.keep, h₃.keep]
    exact hw.keep
  · rw [h₈.labelDepths, h₅.lookup, h₃.lookup] at hd
    split at hd
    · exact .inr ⟨_, by rw [hnext]; exact Nat.lt_succ_self _, .inr ‹_›⟩
    · split at hd
      · exact .inr ⟨_, by rw [hnext]; exact Nat.lt_succ_self _, .inl ‹_›⟩
      · refine (hc₁ l d hd).imp_right fun ⟨n, hlt, hn⟩ ↦ ⟨n, ?_, hn⟩
        rw [hnext]
        exact Nat.lt_succ_of_lt hlt

/-! ## Calls and fields -/

/-- All variables that are read have slots. -/
def ReadsSlots (m : Method) (x : IR.Instr) : Prop := ∀ name ∈ x.uses, Slotted m name

variable {t : Scope} {vars : VarTable}

theorem simple_loadable {x : Operand} (hx : SimpleOperand t vars x)
    (hs : ∀ name ∈ x.uses, Slotted m name) : Loadable m x := by
  cases hx with
  | literal text ty => exact .literal text ty
  | var _ => exact .var (hs _ (by simp))

theorem sound_loadable {x : Operand} (hx : SoundOperand t vars x)
    (hs : ∀ name ∈ x.uses, Slotted m name) : Loadable m x := by
  cases hx with
  | simple hx => exact simple_loadable hx hs
  | elem _ hi =>
    rw [Operand.uses_elem (by cases hi <;> rfl)] at hs
    exact .elem (hs _ (by simp)) (simple_loadable hi fun name hn ↦ hs name (by simp [hn]))

theorem newArray_safe (hr : Stacked e (h + 1) e₁) (ty : Ty) :
    Safe e₁ (newArray c m ty) fun _ ↦ Stacked e (h + 1) := by
  rw [newArray]
  split
  · exact hr.emit (Instr.depth_pops 0 rfl)
  · exact hr.emit (Instr.depth_pops 0 rfl)
  · exact hr.emit (Instr.depth_pops 0 rfl)
  · exact hr.emit (Instr.depth_pops 0 rfl)
  · exact .unsupported

/-- The arguments of a call are loaded, and it is invoked. -/
theorem invocation_safe {x : Call} {how : Invocation} (hhow : invocation? x.kind = some how)
    (hargs : ∀ y ∈ x.args, Loadable m y)
    (hw : Waits e (h + if how.hasReceiver then 1 else 0) (x.args.headD .missing) e₁) :
    Safe e₁ (loadAll m x.args >>= fun _ ↦ invocation c m x)
      fun _ ↦ Stacked e (h + if x.ret.isVoid then 0 else 1) := by
  refine (loadAll_safe hargs hw).bind fun _ e₂ h₂ ↦ ?_
  refine Safe.bind (P := fun _ e' ↦ e' = e₂) ?_ ?_
  · rw [Safe, callClass_run]
    cases callTarget? c x with
    | some cls => rfl
    | none => rfl
  · rintro cls _ rfl
    rw [hhow]
    refine h₂.emit ?_
    rw [invokeInstr, Instr.effect, invokeEffect, descriptor_ne_V, List.length_map]
    cases how.hasReceiver <;> cases x.ret.isVoid <;> grind

theorem invoke_safe {x : Call} {how : Invocation} (hhow : invocation? x.kind = some how)
    (hrec : how.hasReceiver = true) (hkind : x.kind ≠ .static) (hne : x.caller ≠ .missing)
    (hcaller : Loadable m x.caller) (hargs : ∀ y ∈ x.args, Loadable m y)
    (hw : Waits e h x.caller e₁) :
    Safe e₁ (invoke c m x) fun _ ↦ Stacked e (h + if x.ret.isVoid then 0 else 1) := by
  rw [invoke_onObject hkind hne]
  refine (load_safe hcaller hw).bind fun _ e₂ h₂ ↦ invocation_safe hhow hargs ?_
  rw [hrec]
  exact h₂.waits _

theorem call_safe {x : Call} (hx : SoundCall t vars x) (hs : ReadsSlots m (.call x))
    (hw : Waits e h (firstOperand (.call x)) e₁) :
    Safe e₁ (call c m x) fun _ ↦ Stacked e (h + if x.ret.isVoid then 0 else 1) := by
  have hcaller : SimpleOperand t vars x.caller → Loadable m x.caller := fun hc ↦
    simple_loadable hc (List.forall_mem_append.1 hs).1
  have hargs : (∀ y ∈ x.args, SimpleOperand t vars y) → ∀ y ∈ x.args, Loadable m y := fun ha y hy ↦
    simple_loadable (ha y hy) fun name hn ↦
      hs name (List.mem_append_right _ (List.mem_flatMap.2 ⟨y, hy, hn⟩))
  cases hx with
  | newObject cls hret =>
    rw [if_neg (Bool.eq_false_iff.1 hret)]
    exact (hw.stacked rfl).emit (i := .new (c.resolve cls)) (Instr.depth_push rfl)
  | @newArray size hsize ret hret =>
    rw [if_neg (Bool.eq_false_iff.1 hret)]
    have hload : Loadable m size := hargs (by simpa using hsize) size (by simp)
    exact (load_safe hload hw).bind fun _ e₂ h₂ ↦ newArray_safe h₂ _
  | arrayLength hx hret =>
    rw [if_neg (Bool.eq_false_iff.1 hret)]
    exact (load_safe (hcaller hx) hw).bind fun _ e₂ h₂ ↦ h₂.emit (Instr.depth_pops 0 rfl)
  | static cls method ha ret => exact invocation_safe rfl (hargs ha) hw
  | @method kind caller hk hc cls method args ha ret =>
    have hne : caller ≠ .missing := by
      rintro rfl
      cases hc
    simp only [List.mem_cons, List.not_mem_nil, or_false] at hk
    rcases hk with rfl | rfl | rfl
    · exact invoke_safe rfl rfl (by simp) hne (hcaller hc) (hargs ha) hw
    · exact invoke_safe rfl rfl (by simp) hne (hcaller hc) (hargs ha) hw
    · exact invoke_safe rfl rfl (by simp) hne (hcaller hc) (hargs ha) hw

theorem getField_safe {object : Operand} (hx : SoundObject t vars object)
    (hs : ∀ name ∈ object.uses, Slotted m name) {field : FieldRef} {ty : Ty}
    (hw : Waits e h object e₁) :
    Safe e₁ (getField c m object field ty) fun _ ↦ Stacked e (h + 1) := by
  rw [getField]
  cases hx with
  | missing =>
    rw [if_pos rfl]
    exact (hw.stacked rfl).emit (Instr.depth_push rfl)
  | simple hx =>
    rw [if_neg (by rintro rfl; cases hx)]
    exact (load_safe (simple_loadable hx hs) hw).bind fun _ e₂ h₂ ↦ h₂.emit (Instr.depth_pops 0 rfl)

/-! ## Instructions -/

/-- **A value is pushed**, and nothing else is left on the stack. -/
theorem value_safe (hc : Consistent e) (hx : SoundValue t vars x) (hs : ReadsSlots m x)
    (hw : Waits e h (firstOperand x) e₁) : Safe e₁ (value c m x) fun _ ↦ Leaves e (h + 1) := by
  have hplain {step : EmitM Unit} (hstep : Safe e₁ step fun _ ↦ Stacked e (h + 1)) :
      Safe e₁ step fun _ ↦ Leaves e (h + 1) := hstep.mono fun _ _ hr ↦ hr.leaves hc
  cases hx with
  | @single x hx =>
    have hload : Loadable m x := sound_loadable hx hs
    refine hplain (load_safe hload ?_)
    cases x with
    | elem base index ty => exact (hw.stacked rfl).waits _
    | missing | literal _ _ | var _ _ => exact hw
  | @binary op l r hl hr ty =>
    have hl' : Loadable m l := simple_loadable hl (List.forall_mem_append.1 hs).1
    have hr' : Loadable m r := simple_loadable hr (List.forall_mem_append.1 hs).2
    have hcompare := Cond.isSome_ofOp? op
    rw [value]
    cases hcond : Cond.ofOp? op with
    | some cond =>
      rw [hcond, Option.isSome_some] at hcompare
      rw [firstOperand, ← hcompare, Bool.true_and] at hw
      exact compare_safe hc hl' hr' hw
    | none =>
      rw [hcond, Option.isSome_none] at hcompare
      rw [firstOperand, ← hcompare, Bool.false_and, Bool.false_and] at hw
      dsimp only
      cases Arith.ofOp? op with
      | some arith =>
        refine hplain ((load_safe hl' hw).bind fun _ e₂ h₂ ↦ ?_)
        exact (load_safe hr' (h₂.waits r)).bind fun _ e₃ h₃ ↦ h₃.emit (Instr.depth_pops 1 rfl)
      | none => exact .unsupported
  | unary op hx ty =>
    refine hplain ((load_safe (simple_loadable hx hs) hw).bind fun _ e₂ h₂ ↦ ?_)
    split
    · exact (h₂.emit (n := h + 2) (Instr.depth_push rfl)).bind fun _ e₃ h₃ ↦
        h₃.emit (Instr.depth_pops 1 rfl)
    · exact h₂.emit (Instr.depth_pops 0 rfl)
    · exact .unsupported
  | getField hx field ty => exact hplain (getField_safe hx hs hw)
  | @call x hx hret =>
    have hcall := call_safe (c := c) hx hs hw
    rw [if_neg (Bool.eq_false_iff.1 hret)] at hcall
    rw [value, if_neg (Bool.eq_false_iff.1 hret)]
    exact hplain hcall

/-- A branch to a label of the method is safe on an empty stack. -/
theorem branch_safe (hc : Consistent e) (hx : SoundValue t vars x) (hs : ReadsSlots m x)
    (hl : ¬ IsPrivate label) (hw : Waits e 0 (firstOperand x) e₁) :
    Safe e₁ (branch c m x label) fun _ ↦ Leaves e 0 := by
  have hjump {step : EmitM Unit} (hstep : Safe e₁ step fun _ ↦ Jumps e label 0) :
      Safe e₁ step fun _ ↦ Leaves e 0 := hstep.mono fun _ _ hj ↦ hj.leaves hc hl
  -- the value is pushed and compared with zero
  have hvalue : Safe e₁ (do
      value c m x
      jump m (.ifZero .ne label) label) fun _ ↦ Leaves e 0 := by
    refine (value_safe hc hx hs hw).bind fun _ e₂ h₂ ↦ ?_
    refine (h₂.refl.jump (h₂.consistent.lookup hl) (Instr.depth_pops 1 rfl)).mono fun _ e₃ h₃ ↦ ?_
    exact h₂.trans (h₃.leaves h₂.consistent hl)
  cases hx with
  | single _ | getField _ _ _ | call _ _ => exact hvalue
  | @binary op l r hx hy ty =>
    have hcompare := Cond.isSome_ofOp? op
    rw [branch]
    cases hcond : Cond.ofOp? op with
    | none => exact hvalue
    | some cond =>
      rw [hcond, Option.isSome_some] at hcompare
      rw [firstOperand, ← hcompare, Bool.true_and] at hw
      refine hjump (branchCompare_safe ?_ ?_ hw (hc.lookup hl))
      · exact simple_loadable hx (List.forall_mem_append.1 hs).1
      · exact simple_loadable hy (List.forall_mem_append.1 hs).2
  | unary op hx ty =>
    cases op with
    | not =>
      refine hjump ((load_safe (simple_loadable hx hs) hw).bind fun _ e₂ h₂ ↦ ?_)
      exact h₂.jump (hc.lookup hl) (Instr.depth_pops 1 rfl)
    | _ => exact hvalue

/-- Nothing is on the stack but a temporary that the last instruction may have left there. -/
structure Settled (kept : Option Text) (e : Emitter) : Prop where
  keep : e.keep = none
  depth : e.depth = left kept
  onStack : e.onStack = kept
  consistent : Consistent e

theorem Leaves.settled (hl : Leaves e 0 e₁) (hk : e.keep = none) : Settled e.keep e₁ := by
  rw [hk]
  exact ⟨hl.keep.trans hk, hl.depth, hl.onStack, hl.consistent⟩

/-- Nothing falls through afterwards. -/
theorem Settled.stop {kept : Option Text} (hs : Settled kept e) :
    Settled kept { e with unreachable := true } :=
  ⟨hs.keep, hs.depth, hs.onStack, hs.consistent⟩

/-- An assignment stores the value, or leaves it on the stack if it was told so. -/
theorem assign_safe (ty : Ty) (hc : Consistent e) (hname : Slotted m name) (hx : SoundValue t vars x)
    (hs : ReadsSlots m x) (hk : ∀ kept, e.keep = some kept → kept = name)
    (hw : Waits e 0 (firstOperand x) e) :
    Safe e (assign c m (.var name ty) x) fun _ ↦ Settled e.keep := by
  refine (value_safe hc hx hs hw).bind fun _ e₂ h₂ ↦ .get ?_
  rw [h₂.keep]
  cases hkeep : e.keep with
  | none =>
    rw [if_neg (by simpa using hname.1.symm)]
    exact (h₂.storeVar hname).mono fun _ _ h₃ ↦ hkeep ▸ h₃.settled hkeep
  | some kept =>
    obtain rfl := hk kept hkeep
    rw [if_pos (by simp), named, if_neg hname.1]
    exact .set ⟨rfl, h₂.depth, rfl, h₂.consistent⟩

theorem putField_safe {object value : Operand} {field : FieldRef} (hx : SoundObject t vars object)
    (hv : SimpleOperand t vars value) (hs : ReadsSlots m (.putField object field value))
    (hw : Waits e 0 (firstOperand (.putField object field value)) e) :
    Safe e (putField c m object field value) fun _ ↦ Stacked e 0 := by
  have hvalue : Loadable m value := simple_loadable hv (List.forall_mem_append.1 hs).2
  rw [putField]
  cases hx with
  | missing =>
    rw [if_pos rfl]
    exact (load_safe hvalue hw).bind fun _ e₂ h₂ ↦ h₂.emit (Instr.depth_pops 1 rfl)
  | simple hx =>
    have hobject : Loadable m object := simple_loadable hx (List.forall_mem_append.1 hs).1
    rw [if_neg (by rintro rfl; cases hx)]
    have hfirst : firstOperand (.putField object field value) = object := by
      cases hx <;> rfl
    rw [hfirst] at hw
    refine (load_safe hobject hw).bind fun _ e₂ h₂ ↦ ?_
    exact (load_safe hvalue (h₂.waits value)).bind fun _ e₃ h₃ ↦ h₃.emit (Instr.depth_pops 2 rfl)

/-- **A sound instruction is emitted safely**: what it leaves on the stack is the temporary that it was
told to leave there. -/
theorem instr_safe (hc : Consistent e) (hx : SoundInstr t vars x) (hs : ReadsSlots m x)
    (hd : ∀ name, x.defs? = some name → Slotted m name)
    (hl : ∀ label, x.target? = some label → ¬ IsPrivate label)
    (hk : ∀ kept, e.keep = some kept → x.defs? = some kept) (hw : Waits e 0 (firstOperand x) e) :
    Safe e (instr c m x) fun _ ↦ Settled e.keep := by
  have hkeep (hdefs : x.defs? = none) : e.keep = none := kept_eq_none hk hdefs
  cases hx with
  | @assignVar name ty ty' value hknows hv =>
    exact assign_safe ty hc (hd _ rfl) hv hs (fun kept h ↦ (Option.some.inj (hk kept h)).symm) hw
  | @assignElem base index ty ty' value hb hi hv =>
    have hindex : index.isSimple = true := by cases hi <;> rfl
    rw [ReadsSlots, IR.Instr.uses, Operand.uses_elem hindex] at hs
    refine Safe.mono (P := fun _ ↦ Leaves e 0) ?_ fun _ _ h₁ ↦ h₁.settled (hkeep rfl)
    refine ((hw.stacked rfl).loadVar (hs base (by simp))).bind fun _ e₁ h₁ ↦ ?_
    refine (load_safe (simple_loadable hi fun name hn ↦ hs name (by simp [hn]))
      (h₁.waits index)).bind fun _ e₂ h₂ ↦ ?_
    refine (value_safe hc hv (fun name hn ↦ hs name (by simp [hn])) (h₂.waits _)).bind fun _ e₃ h₃ ↦ ?_
    exact h₃.emit (Instr.depth_pops 3 rfl)
  | @call x hx =>
    refine Safe.mono (P := fun _ ↦ Stacked e 0) ?_ fun _ _ h₁ ↦ (h₁.leaves hc).settled (hkeep rfl)
    refine (call_safe hx hs hw).bind fun _ e₁ h₁ ↦ ?_
    cases hret : x.ret.isVoid with
    | true =>
      rw [hret, if_pos rfl] at h₁
      exact .pure h₁
    | false =>
      rw [hret, if_neg Bool.false_ne_true] at h₁
      exact h₁.emit (i := .pop) (Instr.depth_pops 1 rfl)
  | retVoid ty =>
    refine ((hw.stacked rfl).emit (n := 0) (Instr.depth_pops 0 rfl)).bind
      fun _ e₁ h₁ ↦ ?_
    exact .modify ((h₁.leaves hc).settled (hkeep rfl)).stop
  | ret hx ty =>
    rw [instr, if_neg (by rintro rfl; cases hx)]
    refine (load_safe (simple_loadable hx hs) hw).bind fun _ e₁ h₁ ↦ ?_
    refine (h₁.emit (n := 0) (Instr.depth_pops 1 rfl)).bind fun _ e₂ h₂ ↦ ?_
    exact .modify ((h₂.leaves hc).settled (hkeep rfl)).stop
  | branch hx label =>
    exact (branch_safe hc hx hs (hl label rfl) hw).mono fun _ _ h₁ ↦ h₁.settled (hkeep rfl)
  | goto label =>
    have hstack := hw.stacked rfl
    refine (hstack.goto (hc.lookup (hl label rfl))).mono fun _ _ h₁ ↦ ?_
    exact (h₁.1.leaves hc (hl label rfl)).settled (hkeep rfl)
  | putField hx field hv =>
    exact (putField_safe hx hv hs hw).mono fun _ _ h₁ ↦ (h₁.leaves hc).settled (hkeep rfl)

end

end Jvm

end MiniJava
