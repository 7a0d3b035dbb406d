import Mathlib.Data.List.Forall2
import Mathlib.Logic.Relator
import MiniJava.Lowering.Stmt
import MiniJava.Proofs.SoundCode

/-!
# Code of two runs

A program is lowered twice, from different numbers of temporaries and labels.  The two runs go side by
side (`Both`): they stop with the same error, or they give code that differs in the names of temporaries
and in the numbers of labels only.

`InstrMirror` says this of two instructions.  Their variables stand at one place of the two tables, with
the type that the code says (`PairedAs`), and their labels have one stem and numbers that are equally far
from where the two runs began (`LabelPair`).  Only instructions that lowering makes are related, so a
mirrored instruction is sound (`InstrMirror.sound`), and a call of a method of the class itself agrees with
its declaration in everything but the types of its arguments (`Symbols.Agrees`).

Objects of a void type are made by some programs only.  A proposition `N` stands for what has to be asked
of a program so that there are none: the code is sound if it holds, and mirrored in any case.
-/

set_option autoImplicit false

namespace MiniJava

open IR

/-! ## Names at one place -/

/-- Names that stand at one place of two lists. -/
def Paired (xs ys : List Text) (a b : Text) : Prop := ∃ i : Nat, xs[i]? = some a ∧ ys[i]? = some b

namespace Paired

variable {xs xs' ys ys' : List Text} {a b : Text}

theorem append (h : Paired xs ys a b) : Paired (xs ++ xs') (ys ++ ys') a b := by
  obtain ⟨i, ha, hb⟩ := h
  refine ⟨i, ?_, ?_⟩
  · rw [List.getElem?_append_left (List.getElem?_eq_some_iff.1 ha).1, ha]
  · rw [List.getElem?_append_left (List.getElem?_eq_some_iff.1 hb).1, hb]

theorem index_eq {i j : Nat} (hx : xs.Nodup) (hi : xs[i]? = some a) (hj : xs[j]? = some a) : i = j := by
  obtain ⟨hi', rfl⟩ := List.getElem?_eq_some_iff.1 hi
  obtain ⟨hj', hj⟩ := List.getElem?_eq_some_iff.1 hj
  exact ((hx.getElem_inj_iff).1 hj).symm

/-- In lists without repetition a name has one partner. -/
theorem biUnique (hx : xs.Nodup) (hy : ys.Nodup) : Relator.BiUnique (Paired xs ys) := by
  constructor
  · rintro a b c ⟨i, ha, hc⟩ ⟨j, hb, hc'⟩
    obtain rfl := index_eq hy hc hc'
    exact Option.some.inj (ha.symm.trans hb)
  · rintro a b c ⟨i, ha, hb⟩ ⟨j, ha', hc⟩
    obtain rfl := index_eq hx ha ha'
    exact Option.some.inj (hb.symm.trans hc)

end Paired

/-- Names of variables that stand at one place of two tables. -/
def PairedIn (vars vars' : VarTable) : Text → Text → Prop :=
  Paired (vars.vars.map Variable.name) (vars'.vars.map Variable.name)

theorem PairedIn.mono {v v₁ w w₁ : VarTable} {a b : Text} (h : PairedIn v w a b)
    (hv : AddsTemps v v₁) (hw : AddsTemps w w₁) : PairedIn v₁ w₁ a b := by
  obtain ⟨_, hv, -⟩ := hv
  obtain ⟨_, hw, -⟩ := hw
  rw [PairedIn, hv, hw, List.map_append, List.map_append]
  exact Paired.append h

/-- Such names, the first of which is known with a type. -/
def PairedAs (t : Scope) (vars vars' : VarTable) (ty : Ty) (a b : Text) : Prop :=
  PairedIn vars vars' a b ∧ Knows t vars a ty

theorem PairedAs.mono {t : Scope} {v v₁ w w₁ : VarTable} {ty : Ty} {a b : Text}
    (h : PairedAs t v w ty a b) (hv : AddsTemps v v₁) (hw : AddsTemps w w₁) :
    PairedAs t v₁ w₁ ty a b :=
  ⟨h.1.mono hv hw, h.2.mono hv⟩

theorem PairedIn.biUnique (v w : VarTable) : Relator.BiUnique (PairedIn v w) :=
  Paired.biUnique v.nodup w.nodup

/-- Labels of one stem, whose numbers are equally far from `lo` and from `lo'`. -/
def LabelPair (lo lo' : Nat) (a b : Text) : Prop :=
  ∃ stem k, a = Fresh.labelName stem (lo + k) ∧ b = Fresh.labelName stem (lo' + k)

theorem LabelPair.biUnique (lo lo' : Nat) : Relator.BiUnique (LabelPair lo lo') := by
  constructor
  · rintro _ _ _ ⟨stem, k, rfl, rfl⟩ ⟨stem', k', rfl, h⟩
    obtain ⟨rfl, hk⟩ := Fresh.labelName_inj h
    rw [Nat.add_left_cancel hk]
  · rintro _ _ _ ⟨stem, k, rfl, rfl⟩ ⟨stem', k', h, rfl⟩
    obtain ⟨rfl, hk⟩ := Fresh.labelName_inj h
    rw [Nat.add_left_cancel hk]

/-! ## Calls of the class itself -/

namespace Symbols

/-- The method of the class itself that a call is made on: a static one by the name of the class, and
another one on a value of the class. -/
def ownMethod? (t : Symbols) (c : Call) : Option Signature :=
  match c.kind, c.caller.ty with
  | .static, _ => if c.cls = t.cls then (t.method? c.method).filter (·.isStatic) else none
  | .virtual, .receiver _ | .virtual, .object _ true => (t.method? c.method).filter (!·.isStatic)
  | _, _ => none

/-- A call of a method of the class itself has its result and as many arguments as it has parameters;
the array that goes to a variadic parameter has its type. -/
def Agrees (t : Symbols) (c : Call) : Prop :=
  ∀ sig, t.ownMethod? c = some sig → c.ret = sig.ret ∧ c.args.length = sig.params.length ∧
    (sig.varargs = true → (c.args.getLast?).map Operand.ty = (sig.params.getLast?).map Symbol.ty)

end Symbols

/-! ## Instructions -/

section
variable (t : Symbols) (N : Prop) (R : Ty → Text → Text → Prop) (L : Text → Text → Prop)

/-- Two literals, or two variables. -/
inductive SimpleMirror : Operand → Operand → Prop
  | literal (text : Text) (ty : Ty) : SimpleMirror (.literal text ty) (.literal text ty)
  | var {a b : Text} {ty : Ty} (h : R ty a b) : SimpleMirror (.var a ty) (.var b ty)

/-- Two simple operands, or two elements at simple indices. -/
inductive OperandMirror : Operand → Operand → Prop
  | simple {x y : Operand} (h : SimpleMirror R x y) : OperandMirror x y
  | elem {a b : Text} {i j : Operand} {ty : Ty} (hb : R (.array ty) a b) (hi : SimpleMirror R i j) :
      OperandMirror (.elem a i ty) (.elem b j ty)

/-- What a field is reached through: nothing, or an object. -/
inductive ObjectMirror : Operand → Operand → Prop
  | missing : ObjectMirror .missing .missing
  | simple {x y : Operand} (h : SimpleMirror R x y) : ObjectMirror x y

/-- Two calls of methods. -/
inductive InvokeMirror : Call → Call → Prop
  | static (cls method : Text) {xs ys : List Operand} (h : List.Forall₂ (SimpleMirror R) xs ys)
      (ret : Ty) (ha : t.Agrees { kind := .static, cls, method, args := xs, ret }) :
      InvokeMirror { kind := .static, cls, method, args := xs, ret }
        { kind := .static, cls, method, args := ys, ret }
  | method {kind : CallKind} {x y : Operand} (hk : kind ∈ [.special, .virtual, .interface])
      (hc : SimpleMirror R x y) (cls method : Text) {xs ys : List Operand}
      (h : List.Forall₂ (SimpleMirror R) xs ys) (ret : Ty)
      (ha : t.Agrees { kind, caller := x, cls, method, args := xs, ret }) :
      InvokeMirror { kind, caller := x, cls, method, args := xs, ret }
        { kind, caller := y, cls, method, args := ys, ret }

/-- Two calls that compute values. -/
inductive CallMirror : Call → Call → Prop
  | newArray {x y : Operand} (h : SimpleMirror R x y) (ret : Ty) :
      CallMirror { kind := .newArray, args := [x], ret } { kind := .newArray, args := [y], ret }
  | arrayLength {x y : Operand} (h : SimpleMirror R x y) (ret : Ty) :
      CallMirror { kind := .arrayLength, caller := x, ret } { kind := .arrayLength, caller := y, ret }
  | invoke {c d : Call} (h : InvokeMirror t R c d) : CallMirror c d

/-- Two instructions that compute values. -/
inductive ValueMirror : Instr → Instr → Prop
  | single {x y : Operand} (h : OperandMirror R x y) : ValueMirror (.single x) (.single y)
  | binary (op : Op) {l l' r r' : Operand} (hl : SimpleMirror R l l') (hr : SimpleMirror R r r')
      (ty : Ty) : ValueMirror (.binary op l r ty) (.binary op l' r' ty)
  | unary (op : Op) {x y : Operand} (h : SimpleMirror R x y) (ty : Ty) :
      ValueMirror (.unary op x ty) (.unary op y ty)
  | getField {x y : Operand} (h : ObjectMirror R x y) (field : FieldRef) (ty : Ty) :
      ValueMirror (.getField x field ty) (.getField y field ty)
  | call {c d : Call} (h : CallMirror t R c d) (hret : c.ret.isVoid = false) :
      ValueMirror (.call c) (.call d)

/-- **Two instructions of the same form**, with names that belong together. -/
inductive InstrMirror : Instr → Instr → Prop
  | assignVar {a b : Text} {ty : Ty} (h : R ty a b) (ty' : Ty) {v w : Instr}
      (hv : ValueMirror t R v w) : InstrMirror (.assign (.var a ty) ty' v) (.assign (.var b ty) ty' w)
  | create {a b : Text} {ty : Ty} (h : R ty a b) (cls : Text) (hty : N → ty.isVoid = false) :
      InstrMirror (.assign (.var a ty) ty (.call { kind := .newObject, cls, ret := ty }))
        (.assign (.var b ty) ty (.call { kind := .newObject, cls, ret := ty }))
  | assignElem {a b : Text} {i j : Operand} {ty : Ty} (hb : R (.array ty) a b) (hi : SimpleMirror R i j)
      (ty' : Ty) {v w : Instr} (hv : ValueMirror t R v w) :
      InstrMirror (.assign (.elem a i ty) ty' v) (.assign (.elem b j ty) ty' w)
  | call {c d : Call} (h : InvokeMirror t R c d) : InstrMirror (.call c) (.call d)
  | retVoid (ty : Ty) : InstrMirror (.ret .missing ty) (.ret .missing ty)
  | ret {x y : Operand} (h : SimpleMirror R x y) (ty : Ty) : InstrMirror (.ret x ty) (.ret y ty)
  | branch {v w : Instr} (h : ValueMirror t R v w) {l k : Text} (hl : L l k) :
      InstrMirror (.branch v l) (.branch w k)
  | goto {l k : Text} (hl : L l k) : InstrMirror (.goto l) (.goto k)
  | putField {x y v w : Operand} (h : ObjectMirror R x y) (field : FieldRef)
      (hv : SimpleMirror R v w) : InstrMirror (.putField x field v) (.putField y field w)

end

section
variable {t : Symbols} {N N' : Prop} {R R' : Ty → Text → Text → Prop} {L : Text → Text → Prop}

theorem SimpleMirror.ty_eq {x y : Operand} (h : SimpleMirror R x y) : x.ty = y.ty := by
  cases h <;> rfl

theorem OperandMirror.ty_eq {x y : Operand} (h : OperandMirror R x y) : x.ty = y.ty := by
  cases h with
  | simple h => exact h.ty_eq
  | elem _ _ => rfl

theorem CallMirror.ret_eq {c d : Call} (h : CallMirror t R c d) : c.ret = d.ret := by
  cases h with
  | invoke h => cases h <;> rfl
  | _ => rfl

theorem ValueMirror.ty_eq {x y : Instr} (h : ValueMirror t R x y) : x.ty = y.ty := by
  cases h with
  | single h => exact h.ty_eq
  | call h _ => exact h.ret_eq
  | _ => rfl

theorem InstrMirror.isReturn_eq {x y : Instr} (h : InstrMirror t N R L x y) :
    x.isReturn = y.isReturn := by
  cases h <;> rfl

/-! ### Other names -/

section
variable (hr : ∀ ty a b, R ty a b → R' ty a b)
include hr

variable {x y : Operand}

theorem SimpleMirror.mono (h : SimpleMirror R x y) : SimpleMirror R' x y := by
  cases h with
  | literal text ty => exact .literal text ty
  | var h => exact .var (hr _ _ _ h)

theorem OperandMirror.mono (h : OperandMirror R x y) : OperandMirror R' x y := by
  cases h with
  | simple h => exact .simple (h.mono hr)
  | elem hb hi => exact .elem (hr _ _ _ hb) (hi.mono hr)

theorem ObjectMirror.mono (h : ObjectMirror R x y) : ObjectMirror R' x y := by
  cases h with
  | missing => exact .missing
  | simple h => exact .simple (h.mono hr)

theorem InvokeMirror.mono {c d : Call} (h : InvokeMirror t R c d) : InvokeMirror t R' c d := by
  cases h with
  | static cls method h ret ha => exact .static cls method (h.imp fun _ _ hx ↦ hx.mono hr) ret ha
  | method hk hc cls method h ret ha =>
    exact .method hk (hc.mono hr) cls method (h.imp fun _ _ hx ↦ hx.mono hr) ret ha

theorem CallMirror.mono {c d : Call} (h : CallMirror t R c d) : CallMirror t R' c d := by
  cases h with
  | newArray h ret => exact .newArray (h.mono hr) ret
  | arrayLength h ret => exact .arrayLength (h.mono hr) ret
  | invoke h => exact .invoke (h.mono hr)

theorem ValueMirror.mono {x y : Instr} (h : ValueMirror t R x y) : ValueMirror t R' x y := by
  cases h with
  | single h => exact .single (h.mono hr)
  | binary op hl hr' ty => exact .binary op (hl.mono hr) (hr'.mono hr) ty
  | unary op h ty => exact .unary op (h.mono hr) ty
  | getField h field ty => exact .getField (h.mono hr) field ty
  | call h hret => exact .call (h.mono hr) hret

theorem InstrMirror.mono {x y : Instr} (h : InstrMirror t N R L x y) : InstrMirror t N R' L x y := by
  cases h with
  | assignVar h ty' hv => exact .assignVar (hr _ _ _ h) ty' (hv.mono hr)
  | create h cls hty => exact .create (hr _ _ _ h) cls hty
  | assignElem hb hi ty' hv => exact .assignElem (hr _ _ _ hb) (hi.mono hr) ty' (hv.mono hr)
  | call h => exact .call (h.mono hr)
  | retVoid ty => exact .retVoid ty
  | ret h ty => exact .ret (h.mono hr) ty
  | branch h hl => exact .branch (h.mono hr) hl
  | goto hl => exact .goto hl
  | putField h field hv => exact .putField (h.mono hr) field (hv.mono hr)

end

/-! ### Soundness -/

section
variable {s : Scope} {vars : VarTable} (hr : ∀ ty a b, R ty a b → Knows s vars a ty)
include hr

theorem SimpleMirror.sound {x y : Operand} (h : SimpleMirror R x y) : SimpleOperand s vars x := by
  cases h with
  | literal text ty => exact .literal text ty
  | var h => exact .var (hr _ _ _ h)

theorem ObjectMirror.sound {x y : Operand} (h : ObjectMirror R x y) : SoundObject s vars x := by
  cases h with
  | missing => exact .missing
  | simple h => exact .simple (h.sound hr)

theorem InvokeMirror.sound {c d : Call} (h : InvokeMirror t R c d) : SoundCall s vars c := by
  have hargs {xs ys : List Operand} (h : List.Forall₂ (SimpleMirror R) xs ys) :
      ∀ x ∈ xs, SimpleOperand s vars x := by
    intro x hx
    obtain ⟨y, -, hxy⟩ := exists_of_mem_left h hx
    exact hxy.sound hr
  cases h with
  | static cls method h ret ha => exact .static cls method (hargs h) ret
  | method hk hc cls method h ret ha => exact .method hk (hc.sound hr) cls method (hargs h) ret

theorem ValueMirror.sound {x y : Instr} (h : ValueMirror t R x y) : SoundValue s vars x := by
  cases h with
  | single h =>
    cases h with
    | simple h => exact .single (.simple (h.sound hr))
    | elem hb hi => exact .single (.elem (hr _ _ _ hb) (hi.sound hr))
  | binary op hl hr' ty => exact .binary op (hl.sound hr) (hr'.sound hr) ty
  | unary op h ty => exact .unary op (h.sound hr) ty
  | getField h field ty => exact .getField (h.sound hr) field ty
  | call h hret =>
    refine .call ?_ hret
    cases h with
    | newArray h ret => exact .newArray (h.sound hr) hret
    | arrayLength h ret => exact .arrayLength (h.sound hr) hret
    | invoke h => exact h.sound hr

/-- **Mirrored code is sound**, if the names of the first run are known with their types. -/
theorem InstrMirror.sound (hn : N) {x y : Instr} (h : InstrMirror t N R L x y) :
    SoundInstr s vars x := by
  cases h with
  | assignVar h ty' hv => exact .assignVar (hr _ _ _ h) (hv.sound hr)
  | create h cls hty =>
    exact .assignVar (hr _ _ _ h) (.call (.newObject cls (hty hn)) (hty hn))
  | assignElem hb hi ty' hv => exact .assignElem (hr _ _ _ hb) (hi.sound hr) (hv.sound hr)
  | call h => exact .call (h.sound hr)
  | retVoid ty => exact .retVoid ty
  | ret h ty => exact .ret (h.sound hr) ty
  | branch h _ => exact .branch (h.sound hr) _
  | goto _ => exact .goto _
  | putField h field hv => exact .putField (h.sound hr) field (hv.sound hr)

end

end

/-! ## Fragments -/

namespace Fragment

/-- Two fragments of the same form. -/
structure Mirror (t : Symbols) (N : Prop) (R : Ty → Text → Text → Prop) (L : Text → Text → Prop)
    (f g : Fragment) : Prop where
  code : List.Forall₂ (InstrMirror t N R L) f.code g.code
  labels : List.Forall₂ (fun a b ↦ L a.1 b.1 ∧ a.2 = b.2) f.labels g.labels

namespace Mirror

variable {t : Symbols} {N : Prop} {R R' : Ty → Text → Text → Prop} {L : Text → Text → Prop}
  {f f' g g' : Fragment}

theorem mono (hr : ∀ ty a b, R ty a b → R' ty a b) (h : Mirror t N R L f g) : Mirror t N R' L f g :=
  ⟨h.code.imp fun _ _ hx ↦ hx.mono hr, h.labels⟩

theorem empty : Mirror t N R L .empty .empty := ⟨.nil, .nil⟩

theorem instrs {xs ys : List Instr} (h : List.Forall₂ (InstrMirror t N R L) xs ys) :
    Mirror t N R L (.instrs xs) (.instrs ys) := ⟨h, .nil⟩

theorem instr {x y : Instr} (h : InstrMirror t N R L x y) : Mirror t N R L (.instr x) (.instr y) :=
  instrs (.cons h .nil)

theorem label {a b : Text} (h : L a b) : Mirror t N R L (.label a) (.label b) :=
  ⟨.nil, .cons ⟨h, rfl⟩ .nil⟩

theorem append (h : Mirror t N R L f g) (h' : Mirror t N R L f' g') :
    Mirror t N R L (f ++ f') (g ++ g') where
  code := List.rel_append h.code h'.code
  labels := by
    refine List.rel_append h.labels (List.rel_map ?_ h'.labels)
    rintro ⟨a, i⟩ ⟨b, _⟩ ⟨hab, rfl⟩
    exact ⟨hab, by rw [h.code.length_eq]⟩

theorem ite {p : Prop} [Decidable p] (h : Mirror t N R L f g) (h' : Mirror t N R L f' g') :
    Mirror t N R L (if p then f else f') (if p then g else g') := by
  split
  · exact h
  · exact h'

/-- Both fragments end in a return, or none does. -/
theorem endsWithReturn_eq (h : Mirror t N R L f g) : f.endsWithReturn = g.endsWithReturn := by
  have hlabels {ls ks : List (Text × Nat)} (n : Nat)
      (hl : List.Forall₂ (fun a b ↦ L a.1 b.1 ∧ a.2 = b.2) ls ks) :
      ls.all (fun l ↦ l.2 != n) = ks.all fun l ↦ l.2 != n := by
    induction hl with
    | nil => rfl
    | cons hab _ ih => rw [List.all_cons, List.all_cons, hab.2, ih]
  have hlast {xs ys : List Instr} (hx : List.Forall₂ (InstrMirror t N R L) xs ys) :
      xs.head?.any Instr.isReturn = ys.head?.any Instr.isReturn := by
    cases hx with
    | nil => rfl
    | cons hx _ => exact hx.isReturn_eq
  rw [endsWithReturn_def, endsWithReturn_def, h.code.length_eq, hlabels _ h.labels,
    ← List.head?_reverse, ← List.head?_reverse, hlast (List.forall₂_reverse_iff.2 h.code)]

end Mirror

end Fragment

/-! ## Two runs -/

/-- Variables at one place of two tables: only the names of temporaries differ. -/
structure SameVar (v w : Variable) : Prop where
  ty : v.ty = w.ty
  kind : v.kind = w.kind
  reg : v.reg = w.reg
  name : v.kind ≠ .temp → v.name = w.name

/-- **Two states side by side**: as many labels were given in both runs since they began, the tables
differ in the names of temporaries only, and what a method body can name has one place in both. -/
structure Beside (t : Scope) (lo lo' : Nat) (σ τ : LowerState) : Prop where
  labels : ∃ k, σ.fresh.labels = lo + k ∧ τ.fresh.labels = lo' + k
  vars : List.Forall₂ SameVar σ.vars.vars τ.vars.vars
  self : t.sig.isStatic = false →
    PairedAs t σ.vars τ.vars (.receiver t.table.cls) Method.receiver Method.receiver
  var : ∀ name v, t.lookup name = some (.var v) → PairedAs t σ.vars τ.vars v.ty name name

/-- The error is not about a label that is placed twice. -/
def Error.KeepsLabels (e : Error) : Prop := ∀ label, e.cause ≠ .defect (.labelRedefined label)

/-- **Two steps side by side**: they stop with the same error, which is not about a label placed twice,
or give results that are related. -/
def Both {α : Type} (σ τ : LowerState) (x y : LowerM α)
    (post : α → α → LowerState → LowerState → Prop) : Prop :=
  match x.run σ, y.run τ with
  | (.ok a, σ'), (.ok b, τ') => post a b σ' τ'
  | (.error e, _), (.error e', _) => e = e' ∧ e.KeepsLabels
  | _, _ => False

namespace Both

variable {α β : Type} {σ τ : LowerState} {x y : LowerM α}
  {P P' : α → α → LowerState → LowerState → Prop} {Q : β → β → LowerState → LowerState → Prop}

theorem pure {a b : α} (h : P a b σ τ) : Both σ τ (Pure.pure a) (Pure.pure b) P := h

theorem throw {e : Error} (he : e.KeepsLabels) :
    Both σ τ (MonadExcept.throw e : LowerM α) (MonadExcept.throw e) P := ⟨rfl, he⟩

theorem unsupported {pos : Position} {what : Unsupported} :
    Both σ τ (LowerM.unsupported pos what : LowerM α) (LowerM.unsupported pos what) P :=
  throw fun _ h ↦ by cases h

theorem error_or_ok (h : Both σ τ x y P) :
    (∃ e σ' τ', x.run σ = (.error e, σ') ∧ y.run τ = (.error e, τ') ∧ e.KeepsLabels) ∨
      ∃ a b σ' τ', x.run σ = (.ok a, σ') ∧ y.run τ = (.ok b, τ') ∧ P a b σ' τ' := by
  rw [Both] at h
  split at h
  · exact .inr ⟨_, _, _, _, ‹_›, ‹_›, h⟩
  · rename_i hx hy
    exact .inl ⟨_, _, _, hx, h.1 ▸ hy, h.2⟩
  · exact h.elim

/-- A step side by side with itself. -/
theorem of_run {a : α} {σ' : LowerState} (h : Both σ σ x x P) (hx : x.run σ = (.ok a, σ')) :
    P a a σ' σ' := by
  rw [Both, hx] at h
  exact h

theorem keepsLabels {e : Error} {σ' : LowerState} (h : Both σ σ x x P)
    (hx : x.run σ = (.error e, σ')) : e.KeepsLabels := by
  rw [Both, hx] at h
  exact h.2

theorem of_ok {a b : α} {σ' τ' : LowerState} (hx : x.run σ = (.ok a, σ')) (hy : y.run τ = (.ok b, τ'))
    (h : P a b σ' τ') : Both σ τ x y P := by
  rw [Both, hx, hy]
  exact h

theorem of_error {e : Error} {σ' τ' : LowerState} (hx : x.run σ = (.error e, σ'))
    (hy : y.run τ = (.error e, τ')) (he : e.KeepsLabels) : Both σ τ x y P := by
  rw [Both, hx, hy]
  exact ⟨rfl, he⟩

theorem mono (h : Both σ τ x y P) (hp : ∀ a b σ' τ', P a b σ' τ' → P' a b σ' τ') :
    Both σ τ x y P' := by
  rcases h.error_or_ok with ⟨e, σ', τ', hx, hy, he⟩ | ⟨a, b, σ', τ', hx, hy, hab⟩
  · exact of_error hx hy he
  · exact of_ok hx hy (hp a b σ' τ' hab)

theorem bind {f g : α → LowerM β} (h : Both σ τ x y P)
    (hf : ∀ a b σ' τ', P a b σ' τ' → Both σ' τ' (f a) (g b) Q) :
    Both σ τ (x >>= f) (y >>= g) Q := by
  have hrun (z : LowerM α) (k : α → LowerM β) (ρ : LowerState) : (z >>= k).run ρ =
      (ExceptT.bindCont k (z.run ρ).1 : StateM LowerState _) (z.run ρ).2 := rfl
  rcases h.error_or_ok with ⟨e, σ', τ', hx, hy, he⟩ | ⟨a, b, σ', τ', hx, hy, hab⟩
  · have hx' : (x >>= f).run σ = (.error e, σ') := by
      rw [hrun, hx]
      rfl
    have hy' : (y >>= g).run τ = (.error e, τ') := by
      rw [hrun, hy]
      rfl
    exact of_error hx' hy' he
  · have hnext := hf a b σ' τ' hab
    rw [Both] at hnext ⊢
    rw [hrun, hrun, hx, hy]
    exact hnext

theorem within (h : Both σ τ x y P) (place : String) :
    Both σ τ (LowerM.within place x) (LowerM.within place y) P := by
  have hrun (z : LowerM α) (ρ : LowerState) : (LowerM.within place z).run ρ =
      (withinPlace place (z.run ρ).1, (z.run ρ).2) := rfl
  rcases h.error_or_ok with ⟨e, σ', τ', hx, hy, he⟩ | ⟨a, b, σ', τ', hx, hy, hab⟩
  · rw [Both, hrun, hrun, hx, hy]
    exact ⟨rfl, he⟩
  · exact of_ok (by rw [hrun, hx]; rfl) (by rw [hrun, hy]; rfl) hab

end Both

end MiniJava
