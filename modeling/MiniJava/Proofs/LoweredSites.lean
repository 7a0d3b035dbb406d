import MiniJava.Proofs.ClosedFragments
import MiniJava.Proofs.Declarations
import MiniJava.Proofs.LoweredStmt
import MiniJava.Proofs.StackDepth

/-!
# Objects made and equalities tested

The type of a variable decides more than its slot: an object is made in a variable, and the type of that
variable later names its constructor; an equality compares two operands, of whatever types they are.  A
`Site` is such a place with the types that meet there.

* `Stmt.sites` collects the sites of a statement from the source, in the order of its code: the operands
  of an equality come before it, and in a conditional the other case comes first.  An object is made in a
  temporary of its own type, but for one that is assigned to a variable directly: it is made in the
  variable itself, which may be of another type.
* `Instr.sites` collects those of an instruction.

Lowered code has the sites of its source (`Stmt.lower_shows`), and the instruction that makes an object is
followed by the call of its constructor, with no label between them (`Fragment.Shows`).
-/

set_option autoImplicit false

namespace MiniJava

open IR Source

/-- A place where an object is made or two values are tested for equality. -/
inductive Site where
  /-- An object of a class is made in a variable of a type. -/
  | creation (cls : Text) (place : Ty)
  /-- Values of two types are compared; `zero` tells that one of them is a literal zero. -/
  | equality (op : Op) (left right : Ty) (zero : Bool)
deriving DecidableEq, Repr, Inhabited

/-- The sites of an operator on two operands: only equalities have one. -/
def IR.Op.sites (op : Op) (left right : Ty) (zero : Bool) : List Site :=
  if op = .eq ∨ op = .ne then [.equality op left right zero] else []

/-! ## Sites of the source -/

/-- A literal zero, in parentheses or not. -/
def Expr.isZero : Expr → Bool
  | .int _ text =>
    match Literal.value text with
    | .ok v => v == 0
    | .error _ => false
  | .bool _ b => !b
  | .paren _ e => e.isZero
  | _ => false

/-- The site of a binary expression, apart from those of its operands. -/
def Source.Context.equality (c : Context) (op : Text) (left right : Expr) : List Site :=
  match binaryOperators.lookup op with
  | some o => o.sites (left.type c) (right.type c) (left.isZero || right.isZero)
  | none => []

mutual

/-- The sites of an expression. -/
def Expr.sites (c : Context) : Expr → List Site
  | .int _ _ | .bool _ _ | .ident _ _ | .this _ => []
  | .paren _ e | .unary _ _ e | .newArray _ _ e | .length _ e => e.sites c
  | .binary _ op l r => l.sites c ++ r.sites c ++ c.equality op l r
  | .index _ x y => x.sites c ++ y.sites c
  | .call _ recv _ args => sitesOf? c recv ++ sitesOfAll c args
  | .new _ cls => [.creation cls (c.typeOf { name := cls })]
  | .array _ elems => sitesOfAll c elems
termination_by structural e => e

/-- The sites of an expression, if there is one. -/
def sitesOf? (c : Context) : Option Expr → List Site
  | none => []
  | some e => e.sites c
termination_by structural e => e

/-- The sites of expressions. -/
def sitesOfAll (c : Context) : List Expr → List Site
  | [] => []
  | e :: es => e.sites c ++ sitesOfAll c es
termination_by structural es => es

end

/-- The sites of an assignment: an object for a variable is made in the variable. -/
def Source.Context.assignment (c : Context) (name : Text) (value : Expr) : List Site :=
  match c.resolve name, value.unparen with
  | some (.var d), .new _ cls => [.creation cls (c.typeOf d.type)]
  | _, _ => value.sites c

mutual

/-- The sites of a statement. -/
def Stmt.sites (c : Context) : Stmt → List Site
  | .block _ ss => sitesInAll c ss
  | .cond _ e yes no => e.sites c ++ (sitesIn? c no ++ sitesIn? c yes)
  | .loop _ e body => e.sites c ++ sitesIn? c body
  | .expr _ e => e.sites c
  | .assign _ name e => c.assignment name e
  | .indexAssign _ _ i e => i.sites c ++ e.sites c
  | .ret _ e => sitesOf? c e
termination_by structural s => s

/-- The sites of a statement, if there is one. -/
def sitesIn? (c : Context) : Option Stmt → List Site
  | none => []
  | some s => s.sites c
termination_by structural s => s

/-- The sites of statements. -/
def sitesInAll (c : Context) : List Stmt → List Site
  | [] => []
  | s :: ss => s.sites c ++ sitesInAll c ss
termination_by structural ss => ss

end

/-- The sites of the body of a method. -/
def Source.Context.sites (c : Context) : List Site := sitesInAll c c.method.body

theorem sitesOfAll_eq_flatMap (c : Context) (es : List Expr) :
    sitesOfAll c es = es.flatMap (Expr.sites c) := by
  induction es with
  | nil => rfl
  | cons e es ih => rw [sitesOfAll, ih, List.flatMap_cons]

theorem Expr.sites_unparen (c : Context) (e : Expr) : e.unparen.sites c = e.sites c := by
  fun_induction Expr.unparen e with
  | case1 pos e ih => exact ih
  | case2 e => rfl

/-- No type name stands for the receiver. -/
theorem Symbols.typeOf_ne_receiver (cls : Text) (n : TypeName) (own : Text) :
    Symbols.typeOf cls n ≠ .receiver own := by
  rw [Symbols.typeOf]
  split
  · rintro ⟨⟩
  · rw [Symbols.scalarType]
    split <;> rintro ⟨⟩

/-! ## Sites of the intermediate code -/

/-- The sites of an instruction that computes a value. -/
def IR.Instr.valueSites : Instr → List Site
  | .binary op l r _ => op.sites l.ty r.ty (Jvm.isZero l || Jvm.isZero r)
  | _ => []

/-- The sites of an instruction. -/
def IR.Instr.sites : Instr → List Site
  | .assign (.var _ ty) _ (.call x) => if x.kind = .newObject then [.creation x.cls ty] else []
  | .assign _ _ value | .branch value _ => value.valueSites
  | x => x.valueSites

/-- An instruction makes an object. -/
def IR.Instr.MakesObject (x : Instr) : Prop := ∃ y ∈ x.calls, y.kind = .newObject

/-- The instruction that makes an object in a variable. -/
def IR.Instr.create (name : Text) (ty : Ty) (cls : Text) : Instr :=
  .assign (.var name ty) ty (.call { kind := .newObject, cls, ret := ty })

/-- The call of the constructor on the object in a variable. -/
def IR.Instr.initialise (name : Text) (ty : Ty) : Instr :=
  .call { kind := .special, caller := .var name ty, method := "<init>", ret := .void }

theorem IR.Instr.not_makesObject {x : Instr} (h : x.calls = []) : ¬ x.MakesObject := by
  rintro ⟨y, hy, -⟩
  rw [h] at hy
  cases hy

theorem IR.Instr.makesObject_call {x : Call} : (Instr.call x).MakesObject ↔ x.kind = .newObject := by
  simp [MakesObject, calls]

theorem IR.Instr.sites_assign {dest : Operand} {ty : Ty} {x : Instr} (h : ¬ x.MakesObject) :
    (Instr.assign dest ty x).sites = x.valueSites := by
  unfold Instr.sites
  split
  · rename_i heq
    cases heq
    rw [if_neg (Instr.makesObject_call.not.1 h)]
    rfl
  · rename_i heq
    cases heq
    rfl
  · rename_i heq
    cases heq
  · rename_i hne _
    exact absurd rfl (hne dest ty x)

namespace Fragment

/-- The code of a fragment has some sites, and it calls the constructor of each object that it makes at
once.  A constructor called on the receiver would be that of the superclass. -/
structure Shows (sites : List Site) (f : Fragment) : Prop where
  sites : f.code.flatMap Instr.sites = sites
  bounded : f.Bounded
  initialised : ∀ i x, f.code[i]? = some x → x.MakesObject →
    ∃ name ty cls, x = .create name ty cls ∧ (∀ own, ty ≠ .receiver own) ∧
      f.code[i + 1]? = some (.initialise name ty) ∧ ∀ l ∈ f.labels, l.2 ≠ i + 1

namespace Shows

variable {ss ss' : List Site} {f g : Fragment} {x : Instr}

theorem append (hf : f.Shows ss) (hg : g.Shows ss') : (f ++ g).Shows (ss ++ ss') where
  sites := by rw [code_append, List.flatMap_append, hf.sites, hg.sites]
  bounded := hf.bounded.append hg.bounded
  initialised := by
    intro i x hx hmakes
    rw [code_append] at hx ⊢
    by_cases hi : i < f.code.length
    · rw [List.getElem?_append_left hi] at hx
      obtain ⟨name, ty, cls, rfl, hty, hnext, hlabels⟩ := hf.initialised i x hx hmakes
      have hi' : i + 1 < f.code.length := (List.getElem?_eq_some_iff.1 hnext).1
      refine ⟨name, ty, cls, rfl, hty, by rwa [List.getElem?_append_left hi'], fun l hl ↦ ?_⟩
      rcases List.mem_append.1 hl with hl | hl
      · exact hlabels l hl
      · obtain ⟨l', -, rfl⟩ := List.mem_map.1 hl
        show f.code.length + l'.2 ≠ i + 1
        omega
    · have hi' : f.code.length ≤ i := by omega
      rw [List.getElem?_append_right hi'] at hx
      obtain ⟨name, ty, cls, rfl, hty, hnext, hlabels⟩ := hg.initialised _ x hx hmakes
      refine ⟨name, ty, cls, rfl, hty, ?_, fun l hl ↦ ?_⟩
      · rwa [List.getElem?_append_right (by omega), Nat.sub_add_comm hi']
      · rcases List.mem_append.1 hl with hl | hl
        · have := hf.bounded l hl
          omega
        · obtain ⟨l', hl', rfl⟩ := List.mem_map.1 hl
          have := hlabels l' hl'
          show f.code.length + l'.2 ≠ i + 1
          omega

/-- Code that makes no object. -/
theorem instrs {xs : List Instr} (h : ∀ x ∈ xs, ¬ x.MakesObject) :
    (Fragment.instrs xs).Shows (xs.flatMap Instr.sites) where
  sites := rfl
  bounded := bounded_instrs xs
  initialised := fun _ x hx hmakes ↦ absurd hmakes (h x (List.mem_of_getElem? hx))

theorem instr (h : ¬ x.MakesObject) : (Fragment.instr x).Shows x.sites := by
  have hx := instrs (List.forall_mem_singleton.2 h)
  rwa [List.flatMap_singleton] at hx

theorem empty : Fragment.empty.Shows [] := instrs (List.forall_mem_nil _)

theorem label (name : Text) : (Fragment.label name).Shows [] where
  sites := rfl
  bounded := bounded_label name
  initialised := fun _ _ hx ↦ nomatch hx

/-- Instructions without sites. -/
theorem plains {xs : List Instr} (h : ∀ x ∈ xs, ¬ x.MakesObject ∧ x.sites = []) :
    (Fragment.instrs xs).Shows [] := by
  have hxs := instrs fun x hx ↦ (h x hx).1
  rwa [List.flatMap_eq_nil_iff.2 fun x hx ↦ (h x hx).2] at hxs

theorem plain (h : ¬ x.MakesObject) (hs : x.sites = []) : (Fragment.instr x).Shows [] :=
  plains (List.forall_mem_singleton.2 ⟨h, hs⟩)

theorem goto (name : Text) : (Fragment.instr (.goto name)).Shows [] :=
  plain (Instr.not_makesObject rfl) rfl

/-- The result of an instruction goes to a variable or an element. -/
theorem assign (h : ¬ x.MakesObject) (dest : Operand) (ty : Ty) :
    (Fragment.instr (.assign dest ty x)).Shows x.valueSites := by
  rw [← Instr.sites_assign h]
  exact instr h

theorem assignSingle (dest : Operand) (ty : Ty) (y : Operand) :
    (Fragment.instr (.assign dest ty (.single y))).Shows [] :=
  assign (x := .single y) (Instr.not_makesObject rfl) dest ty

/-- An instruction decides a jump. -/
theorem branch (h : ¬ x.MakesObject) (name : Text) :
    (Fragment.instr (.branch x name)).Shows x.valueSites := instr (x := .branch x name) h

/-- An object is made in a variable, and initialised. -/
theorem construct {ty : Ty} (h : ∀ own, ty ≠ .receiver own) (name cls : Text) :
    (Lowering.construct (.var name ty) cls).Shows [.creation cls ty] where
  sites := rfl
  bounded := bounded_instrs _
  initialised := by
    intro i x hx hmakes
    match i with
    | 0 =>
      cases hx
      exact ⟨name, ty, cls, rfl, h, rfl, fun _ hl ↦ nomatch hl⟩
    | 1 =>
      cases hx
      cases Instr.makesObject_call.1 hmakes
    | i + 2 => cases hx

end Shows

end Fragment

/-! ## Steps of lowering -/

/-- Whatever a step of lowering gives has a property. -/
def LowerM.Ensures {α : Type} (step : LowerM α) (P : α → Prop) : Prop :=
  ∀ σ a σ', step.run σ = (.ok a, σ') → P a

namespace LowerM.Ensures

variable {α β : Type} {P : α → Prop} {Q : β → Prop}

theorem pure {a : α} (h : P a) : Ensures (Pure.pure a) P := by
  rintro σ b σ' hr
  obtain ⟨rfl, -⟩ := run_pure_eq_ok.1 hr
  exact h

theorem throw {e : Error} : Ensures (MonadExcept.throw e : LowerM α) P :=
  fun _ _ _ hr ↦ absurd hr run_throw

theorem unsupported {pos : Position} {what : Unsupported} :
    Ensures (LowerM.unsupported pos what : LowerM α) P :=
  fun _ _ _ hr ↦ absurd hr run_unsupported

theorem bind {step : LowerM α} {next : α → LowerM β} (h : Ensures step P)
    (hnext : ∀ a, P a → Ensures (next a) Q) : Ensures (step >>= next) Q := by
  rintro σ b σ' hr
  obtain ⟨a, σ₁, ha, hb⟩ := run_bind_eq_ok.1 hr
  exact hnext a (h σ a σ₁ ha) σ₁ b σ' hb

/-- What comes after a step that may give anything. -/
theorem after {step : LowerM α} {next : α → LowerM β} (h : ∀ a, Ensures (next a) Q) :
    Ensures (step >>= next) Q :=
  bind (P := fun _ ↦ True) (fun _ _ _ _ ↦ trivial) fun a _ ↦ h a

theorem temp (ty : Ty) : Ensures (LowerM.temp ty) fun x ↦ ∃ name, x = .var name ty := by
  rintro σ x σ' hr
  obtain ⟨name, rfl, -⟩ := run_temp_eq_ok hr
  exact ⟨name, rfl⟩

end LowerM.Ensures

/-! ## Values -/

/-- Code and the value that it leaves have some sites; those of an instruction that computes the value
come last. -/
def Value.Shows (sites : List Site) (f : Fragment) : Value → Prop
  | .operand _ => f.Shows sites
  | .instr x => ¬ x.MakesObject ∧ ∃ before, f.Shows before ∧ before ++ x.valueSites = sites

/-- The type of a value. -/
def Value.type : Value → Ty
  | .operand x => x.ty
  | .instr x => x.ty

/-- A value is a literal zero. -/
def Value.isZero : Value → Bool
  | .operand x => Jvm.isZero x
  | .instr _ => false

/-- What a lowering of an expression gives has the sites of the expression, and its type if no other one
than an integer is expected. -/
def Presents (sites : List Site) (ty : Ty) (zero : Bool) (lower : Lowering) : Prop :=
  ∀ want, (lower want).Ensures fun r ↦ r.1.Shows sites r.2 ∧
    (want = .absent ∨ want = .int → r.1.type = ty) ∧ r.1.isZero = zero

namespace Lowering

open LowerM (Ensures)

section
variable {t : Scope} {ss ls rs : List Site} {ty tyl tyr : Ty} {zero zl zr : Bool}
  {lower left right : Lowering}

theorem operand_ensures (h : Presents ss ty zero lower) (want : Ty) :
    Ensures (operand lower want) fun r ↦ r.2.Shows ss ∧
      (want = .absent ∨ want = .int → r.1.ty = ty) ∧ Jvm.isZero r.1 = zero := by
  refine (h want).bind ?_
  rintro ⟨v, s⟩ ⟨hs, hty, hzero⟩
  cases v with
  | operand x => exact .pure ⟨hs, hty, hzero⟩
  | instr x =>
    obtain ⟨hx, before, hbefore, rfl⟩ := hs
    refine (Ensures.temp x.ty).bind ?_
    rintro _ ⟨name, rfl⟩
    exact .pure ⟨hbefore.append (.assign hx _ _), hty, hzero⟩

theorem instr_ensures (h : Presents ss ty zero lower) (want : Ty) :
    Ensures (instr lower want) fun r ↦ ¬ r.1.MakesObject ∧
      ∃ before, r.2.Shows before ∧ before ++ r.1.valueSites = ss := by
  refine (h want).bind ?_
  rintro ⟨v, s⟩ ⟨hs, -⟩
  cases v with
  | operand x => exact .pure ⟨Instr.not_makesObject rfl, ss, hs, List.append_nil ss⟩
  | instr x => exact .pure hs

/-- An array is a variable of the type of the expression. -/
theorem array_ensures (h : Presents ss ty zero lower) (pos : Position) :
    Ensures (array pos lower) fun r ↦ r.2.Shows ss ∧ r.1.ty = ty := by
  refine (operand_ensures h .absent).bind ?_
  rintro ⟨x, s⟩ ⟨hs, hty, -⟩
  cases x with
  | var name ty' =>
    dsimp only
    split
    · exact .unsupported
    · exact .pure ⟨hs, hty (.inl rfl)⟩
  | missing | literal _ _ | elem _ _ _ => exact .unsupported

/-- Packing makes no object and compares nothing. -/
theorem pack_ensures (ty : Ty) (items : List Operand) : Ensures (pack ty items) fun r ↦
    r.2.Shows [] ∧ r.1.ty = ty ∧ Jvm.isZero r.1 = false := by
  refine .after fun name ↦ .pure ⟨?_, rfl, rfl⟩
  have hnew : ¬ (Instr.call { kind := .newArray, args := [intLiteral items.length],
                              ret := ty }).MakesObject :=
    Instr.makesObject_call.not.2 (by simp)
  refine (Fragment.Shows.assign hnew _ ty).append (.plains fun x hx ↦ ?_)
  obtain ⟨_, -, rfl⟩ := List.mem_map.1 hx
  exact ⟨Instr.not_makesObject rfl, rfl⟩

/-! ## Names and operators -/

theorem literal_presents (x : Operand) :
    Presents [] x.ty (Jvm.isZero x) fun _ ↦ return (.operand x, .empty) :=
  fun _ ↦ .pure ⟨.empty, fun _ ↦ rfl, rfl⟩

theorem this_presents (pos : Position) :
    Presents [] (.receiver t.table.cls) false fun _ ↦ do return (.operand (← t.this pos), .empty) := by
  intro want
  refine LowerM.Ensures.bind (P := fun x ↦ x = .var Method.receiver (.receiver t.table.cls)) ?_ ?_
  · intro σ x σ' hr
    exact (this_eq_ok hr).2.2
  · rintro _ rfl
    exact .pure ⟨.empty, fun _ ↦ rfl, rfl⟩

variable {c : Context}

theorem ident_presents (hc : Describes t c) (pos : Position) (name : Text) :
    Presents [] (c.typeOfName name) false fun _ ↦ ident t pos name := by
  intro want
  rw [ident, hc.lookup, Context.typeOfName]
  cases c.resolve name with
  | none => exact .unsupported
  | some b =>
    cases b with
    | var d => exact .pure ⟨.empty, fun _ ↦ rfl, rfl⟩
    | field d =>
      exact .after fun object ↦
        .pure ⟨⟨Instr.not_makesObject rfl, [], .empty, rfl⟩, fun _ ↦ rfl, rfl⟩

theorem logic_presents (hl : Presents ls tyl zl left) (hr : Presents rs tyr zr right) (isAnd : Bool) :
    Presents (ls ++ rs) .bool false fun _ ↦ logic isAnd left right := by
  intro want
  rw [logic_eq]
  refine (operand_ensures hl .bool).bind ?_
  rintro ⟨l, s⟩ ⟨hls, -⟩
  refine (Ensures.temp .bool).bind ?_
  rintro _ ⟨name, rfl⟩
  refine .after fun (onTrue, done) ↦ (operand_ensures hr .bool).bind ?_
  rintro ⟨r, s'⟩ ⟨hrs, -⟩
  have hset (x : Operand) := Fragment.Shows.assignSingle (.var name .bool) .bool x
  have htest : (s ++ .instr (.branch (.single l) onTrue)).Shows ls := by
    have hjump : ¬ (Instr.single l).MakesObject := Instr.not_makesObject rfl
    simpa [Instr.valueSites] using hls.append (.branch hjump onTrue)
  refine .pure ⟨?_, fun _ ↦ rfl, rfl⟩
  cases isAnd with
  | true =>
    have hall := (((((htest.append (hset (boolLiteral false))).append (.goto done)).append
      (.label onTrue)).append hrs).append (hset r)).append (.label done)
    simpa [Value.Shows, shortCircuit] using hall
  | false =>
    have hall := (((((htest.append hrs).append (hset r)).append (.goto done)).append
      (.label onTrue)).append (hset (boolLiteral true))).append (.label done)
    simpa [Value.Shows, shortCircuit] using hall

/-- An operator that computes both of its operands. -/
theorem strict_ensures {l r : Expr} (hl : Presents (l.sites c) (l.type c) l.isZero left)
    (hr : Presents (r.sites c) (r.type c) r.isZero right) (o : Op) (want : Ty) : Ensures (do
      let (x, s) ← operand left .int
      let (y, s') ← operand right .int
      return (Value.instr (.binary o x y o.result), s ++ s')) fun r' ↦
      r'.1.Shows (l.sites c ++ r.sites c ++ o.sites (l.type c) (r.type c) (l.isZero || r.isZero)) r'.2 ∧
        (want = .absent ∨ want = .int → r'.1.type = o.result) ∧ r'.1.isZero = false := by
  refine (operand_ensures hl .int).bind ?_
  rintro ⟨x, s⟩ ⟨hs, hx, hxz⟩
  refine (operand_ensures hr .int).bind ?_
  rintro ⟨y, s'⟩ ⟨hs', hy, hyz⟩
  refine .pure ⟨⟨Instr.not_makesObject rfl, _, hs.append hs', ?_⟩, fun _ ↦ rfl, rfl⟩
  rw [Instr.valueSites, hx (.inr rfl), hy (.inr rfl), hxz, hyz]

theorem binary_presents {l r : Expr} (hl : Presents (l.sites c) (l.type c) l.isZero left)
    (hr : Presents (r.sites c) (r.type c) r.isZero right) (pos : Position) (op : Text) :
    Presents (l.sites c ++ r.sites c ++ c.equality op l r) (operatorType binaryOperators op) false
      fun _ ↦ binary pos op left right := by
  intro want
  rw [binary, binaryOp?_eq, operatorType, Context.equality]
  cases binaryOperators.lookup op with
  | none => exact .unsupported
  | some o =>
    -- a short-circuit operator is no equality
    by_cases hand : o = .and
    · subst hand
      simpa [Op.sites, Op.result] using logic_presents hl hr true want
    by_cases hor : o = .or
    · subst hor
      simpa [Op.sites, Op.result] using logic_presents hl hr false want
    have hcode := strict_ensures hl hr o want
    cases o with
    | and => exact absurd rfl hand
    | or => exact absurd rfl hor
    | _ => exact hcode

theorem unary_presents (h : Presents ss ty zero lower) (pos : Position) (op : Text) :
    Presents ss (operatorType unaryOperators op) false fun _ ↦ unary pos op lower := by
  intro want
  rw [unary, unaryOp?_eq, operatorType]
  cases unaryOperators.lookup op with
  | none => exact .unsupported
  | some o =>
    refine (operand_ensures h _).bind ?_
    rintro ⟨x, s⟩ ⟨hs, -⟩
    exact .pure ⟨⟨Instr.not_makesObject rfl, ss, hs, List.append_nil ss⟩, fun _ ↦ rfl, rfl⟩

/-! ## Objects and arrays -/

theorem newObject_presents (cls : Text) : Presents [.creation cls (t.typeNamed cls)] (t.typeNamed cls)
    false fun _ ↦ newObject t cls := by
  intro want
  refine (Ensures.temp (t.typeNamed cls)).bind ?_
  rintro _ ⟨name, rfl⟩
  have hty : ∀ own, t.typeNamed cls ≠ .receiver own :=
    Symbols.typeOf_ne_receiver t.table.cls { name := cls }
  exact .pure ⟨.construct hty name cls, fun _ ↦ rfl, rfl⟩

/-- A call that makes no object, of which the result is used. -/
theorem call_shows {x : Call} {f : Fragment} (hk : x.kind ≠ .newObject) (hf : f.Shows ss) :
    (Value.instr (.call x)).Shows ss f :=
  ⟨Instr.makesObject_call.not.2 hk, ss, hf, List.append_nil ss⟩

theorem newArray_presents (h : Presents ss ty zero lower) (elem : TypeName) :
    Presents ss (.array (t.typeNamed elem.name)) false fun _ ↦ newArray t elem lower := by
  intro want
  refine (operand_ensures h .int).bind ?_
  rintro ⟨n, s⟩ ⟨hs, -⟩
  exact .pure ⟨call_shows (by simp) hs, fun _ ↦ rfl, rfl⟩

theorem element_presents (hb : Presents ls tyl zl left) (hi : Presents rs tyr zr right)
    (pos : Position) : Presents (ls ++ rs) tyl.elem false fun _ ↦ element pos left right := by
  intro want
  refine (array_ensures hb pos).bind ?_
  rintro ⟨a, s⟩ ⟨hs, rfl⟩
  refine (operand_ensures hi .int).bind ?_
  rintro ⟨i, s'⟩ ⟨hs', -⟩
  exact .pure ⟨⟨Instr.not_makesObject rfl, _, hs.append hs', List.append_nil _⟩, fun _ ↦ rfl, rfl⟩

theorem length_presents (h : Presents ss ty zero lower) (pos : Position) :
    Presents ss .int false fun _ ↦ length pos lower := by
  intro want
  refine (array_ensures h pos).bind ?_
  rintro ⟨a, s⟩ ⟨hs, -⟩
  exact .pure ⟨call_shows (by simp) hs, fun _ ↦ rfl, rfl⟩

end

/-! ## Calls -/

section
variable {t : Scope} {c : Context} {es : List Expr}
  (h : ∀ e ∈ es, Presents (e.sites c) (e.type c) e.isZero (e.lower t))
include h

/-- As many arguments as parameters are all lowered. -/
theorem fixedArgs_ensures {params : List Symbol} (hlen : es.length = params.length) :
    Ensures (fixedArgs (es.map (Expr.lower t)) params) fun r ↦
      r.2.Shows (es.flatMap (Expr.sites c)) := by
  induction es generalizing params with
  | nil => exact .pure .empty
  | cons e es ih =>
    cases params with
    | nil => cases hlen
    | cons p params =>
      refine (operand_ensures (h e (by simp)) p.ty).bind ?_
      rintro ⟨x, s⟩ ⟨hs, -⟩
      refine (ih (fun e he ↦ h e (by simp [he])) (Nat.succ.inj hlen)).bind ?_
      rintro ⟨xs, s'⟩ hs'
      exact .pure (hs.append hs')

theorem operands_ensures (want : Ty) : Ensures (operands want (es.map (Expr.lower t))) fun r ↦
    r.2.Shows (es.flatMap (Expr.sites c)) := by
  rw [operands_eq_fixedArgs]
  exact fixedArgs_ensures h (by simp)

theorem arrayLiteral_presents : Presents (es.flatMap (Expr.sites c)) (.array .int) false
    (arrayLiteral (es.map (Expr.lower t))) := by
  intro want
  refine (operands_ensures h _).bind ?_
  rintro ⟨xs, s⟩ hs
  refine (pack_ensures _ xs).bind ?_
  rintro ⟨y, s'⟩ ⟨hs', hty, hzero⟩
  refine .pure ⟨by simpa [Value.Shows] using hs.append hs', fun hwant ↦ hty.trans ?_, hzero⟩
  rcases hwant with rfl | rfl <;> rfl

/-- Arguments are packed into an array. -/
theorem packed_ensures (ty : Ty) : Ensures (do
    let (xs, s) ← operands ty.elem ((es.map fun e ↦ (e, e.lower t)).map Prod.snd)
    let (y, p) ← pack ty xs
    return (y, s ++ p)) fun r ↦ r.2.Shows (es.flatMap (Expr.sites c)) := by
  rw [List.map_map]
  refine (operands_ensures h _).bind ?_
  rintro ⟨xs, s⟩ hs
  refine (pack_ensures ty xs).bind ?_
  rintro ⟨y, p⟩ ⟨hp, -⟩
  exact .pure (by simpa using hs.append hp)

theorem variadicArgs_ensures (ty : Ty) :
    Ensures (variadicArgs ty (es.map fun e ↦ (e, e.lower t))) fun r ↦
      r.2.Shows (es.flatMap (Expr.sites c)) := by
  rcases es with _ | ⟨e, _ | ⟨e', es⟩⟩
  · exact packed_ensures h ty
  · refine (operand_ensures (h e (by simp)) _).bind ?_
    rintro ⟨x, s⟩ ⟨hs, -⟩
    dsimp only
    split
    · exact .pure (by simpa using hs)
    · refine (pack_ensures ty [x]).bind ?_
      rintro ⟨y, p⟩ ⟨hp, -⟩
      exact .pure (by simpa using hs.append hp)
  · exact packed_ensures h ty

theorem argsFor_ensures (pos : Position) (sig : Signature) :
    Ensures (argsFor pos sig (es.map fun e ↦ (e, e.lower t))) fun r ↦
      r.2.Shows (es.flatMap (Expr.sites c)) := by
  rw [argsFor]
  dsimp only
  split
  · split
    · exact .unsupported
    · rename_i hlen
      rw [List.map_map]
      exact fixedArgs_ensures h (by simpa using hlen)
  · split
    · exact .throw
    · rename_i last _
      split
      · exact .unsupported
      · rename_i hlen
        rw [List.length_map, Nat.not_lt] at hlen
        rw [← List.map_take, List.map_map, ← List.map_drop]
        refine (fixedArgs_ensures (fun e he ↦ h e (List.mem_of_mem_take he)) (by simpa using hlen)).bind ?_
        rintro ⟨xs, s⟩ hs
        dsimp only
        split
        · refine (variadicArgs_ensures (fun e he ↦ h e (List.mem_of_mem_drop he)) _).bind ?_
          rintro ⟨y, p⟩ hp
          have hall := hs.append hp
          rw [← List.flatMap_append, List.take_append_drop] at hall
          exact .pure hall
        · exact .throw

end

section
variable {t : Scope} {c : Context} (hc : Describes t c)
include hc

omit hc in
/-- A class before a call is a name, which has no sites. -/
theorem sites_eq_nil_of_className? {e : Expr} {r : Position × Text}
    (h : className? t e.unparen = some r) : e.sites c = [] := by
  rw [← Expr.sites_unparen]
  unfold className? at h
  split at h
  · rename_i hident
    rw [hident]
    rfl
  · cases h

/-- A method of the class that needs no object is reached by its name. -/
theorem targets_ownStatic {name : Text} {s : Signature}
    (h : (t.table.method? name).filter (·.isStatic) = some s) :
    Targets c (c.ownCallee name) (.ownStatic t s) := by
  obtain ⟨d, hcallee, rfl⟩ := exists_ownCallee hc h
  rw [hcallee]
  exact ⟨rfl, .inl ⟨rfl, congrArg some hc.cls.symm⟩⟩

variable {recv : Option Expr}

/-- The target of a call is what the call reaches, and its code has the sites of the receiver. -/
theorem target_ensures (h : ∀ e ∈ recv, Presents (e.sites c) (e.type c) e.isZero (e.lower t))
    (pos : Position) (name : Text) :
    Ensures (target t pos (lowerReceiver t recv) name) fun r ↦
      r.2.Shows (sitesOf? c recv) ∧ Targets c (calleeOf c name recv) r.1 := by
  have hvalue (x : Operand) : Ensures (valueTarget t pos x name) (Targets c (c.calleeOn x.ty name)) :=
    fun σ r σ' hr ↦ (valueTarget_spec hc hr).2.1
  cases recv with
  | none =>
    rw [lowerReceiver, target, sitesOf?, calleeOf]
    cases hs : (t.table.method? name).filter (·.isStatic) with
    | some s => exact .pure ⟨.empty, targets_ownStatic hc hs⟩
    | none =>
      refine LowerM.Ensures.bind (P := fun x ↦ x = .var Method.receiver (.receiver t.table.cls))
        (fun σ x σ' hr ↦ (this_eq_ok hr).2.2) ?_
      rintro _ rfl
      exact (hvalue _).bind fun r hr ↦ .pure ⟨.empty, hr⟩
  | some e =>
    rw [lowerReceiver, target, sitesOf?, calleeOf, ← className?_eq hc]
    cases hcls : className? t e.unparen with
    | some r =>
      obtain ⟨idPos, cls⟩ := r
      have hsites : e.sites c = [] := sites_eq_nil_of_className? hcls
      dsimp only
      split
      · exact .unsupported
      · refine LowerM.Ensures.bind (P := Targets c (c.calleeIn cls name))
          (fun σ r σ' hr ↦ (classTarget_spec hc hr).2.1) fun r hr ↦ .pure ⟨?_, hr⟩
        rw [hsites]
        exact .empty
    | none =>
      refine (operand_ensures (h e rfl) .absent).bind ?_
      rintro ⟨x, s⟩ ⟨hs, hty, -⟩
      refine (hvalue x).bind fun r hr ↦ .pure ⟨hs, ?_⟩
      rw [← hty (.inl rfl)]
      exact hr

theorem call_ensures {es : List Expr}
    (hrecv : ∀ e ∈ recv, Presents (e.sites c) (e.type c) e.isZero (e.lower t))
    (hes : ∀ e ∈ es, Presents (e.sites c) (e.type c) e.isZero (e.lower t)) (pos : Position) (name : Text)
    (want : Ty) : Ensures (call t pos (lowerReceiver t recv) name (lowerArgs t es) want) fun r ↦
      r.2.Shows (sitesOf? c recv ++ sitesOfAll c es) ∧ r.1.kind ≠ .newObject ∧
        (want = .int → r.1.ret = c.resultType (calleeOf c name recv)) := by
  rw [lowerArgs_eq_map, sitesOfAll_eq_flatMap]
  refine (target_ensures hc hrecv pos name).bind ?_
  rintro ⟨target, s⟩ ⟨hs, ht⟩
  have hkind : target.kind ≠ .newObject := by
    dsimp only at ht
    rcases ht.kind with ⟨hk, -⟩ | ⟨hk | hk, -⟩ <;> simp [hk]
  dsimp only
  rw [Context.resultType, ht.sig]
  cases (calleeOf c name recv).decl? with
  | some d =>
    refine (argsFor_ensures hes pos _).bind ?_
    rintro ⟨xs, s'⟩ hs'
    exact .pure ⟨hs.append hs', hkind, fun _ ↦ rfl⟩
  | none =>
    refine LowerM.Ensures.bind (P := fun r ↦ r.2.Shows (es.flatMap (Expr.sites c))) ?_ ?_
    · rw [List.map_map]
      exact operands_ensures hes .absent
    · rintro ⟨xs, s'⟩ hs'
      refine .pure ⟨hs.append hs', hkind, ?_⟩
      rintro rfl
      rfl

theorem callValue_presents {es : List Expr}
    (hrecv : ∀ e ∈ recv, Presents (e.sites c) (e.type c) e.isZero (e.lower t))
    (hes : ∀ e ∈ es, Presents (e.sites c) (e.type c) e.isZero (e.lower t)) (pos : Position) (name : Text) :
    Presents (sitesOf? c recv ++ sitesOfAll c es)
      (c.resultType (calleeOf c name recv)) false
      (callValue t pos (lowerReceiver t recv) name (lowerArgs t es)) := by
  intro want
  refine (call_ensures hc hrecv hes pos name _).bind ?_
  rintro ⟨x, s⟩ ⟨hs, hk, hret⟩
  dsimp only
  split
  · exact .unsupported
  · refine .pure ⟨call_shows hk hs, fun hwant ↦ hret ?_, rfl⟩
    rcases hwant with rfl | rfl <;> rfl

end

end Lowering

open Lowering in
/-- **Lowered expressions have the sites of their source**, and the type as well if no other one than an
integer is expected. -/
theorem Expr.lower_presents {t : Scope} {c : Context} (hc : Describes t c) (e : Expr) :
    Presents (e.sites c) (e.type c) e.isZero (e.lower t) := by
  have htype (cls : Text) : t.typeNamed cls = c.typeOf { name := cls } := by
    rw [Scope.typeNamed, Symbols.type, hc.cls, Context.typeOf]
  induction e using Expr.induction with
  | h e ih =>
    cases e with
    | int pos text => exact literal_presents (.literal text .int)
    | bool pos b =>
      have hzero : Jvm.isZero (boolLiteral b) = !b := by cases b <;> decide
      have hb := literal_presents (boolLiteral b)
      rwa [hzero] at hb
    | ident pos name => exact ident_presents hc pos name
    | this pos =>
      have hthis := this_presents (t := t) pos
      rwa [hc.cls] at hthis
    | paren pos e => exact ih e (by simp)
    | binary pos op left right =>
      exact binary_presents (ih left (by simp)) (ih right (by simp)) pos op
    | unary pos op arg => exact unary_presents (ih arg (by simp)) pos op
    | call pos recv name args =>
      exact callValue_presents hc (fun e he ↦ ih e (mem_parts_receiver he))
        (fun e he ↦ ih e (mem_parts_arg he)) pos name
    | new pos cls =>
      have hnew := newObject_presents (t := t) cls
      rwa [htype] at hnew
    | newArray pos elem size =>
      have hnew := newArray_presents (t := t) (ih size (by simp)) elem
      rwa [htype] at hnew
    | array pos elems =>
      rw [Expr.lower, lowerArgs_eq_map, List.map_map, Expr.sites, sitesOfAll_eq_flatMap]
      exact arrayLiteral_presents ih
    | index pos base index =>
      exact element_presents (ih base (by simp)) (ih index (by simp)) _
    | length pos arg => exact length_presents (ih arg (by simp)) _

/-! ## Statements -/

section
variable {t : Scope} {c : Context} (hc : Describes t c)
include hc

theorem Expr.lowerTest_ensures (e : Expr) : (e.lowerTest t).Ensures fun r ↦
    ¬ r.1.MakesObject ∧ ∃ before, r.2.Shows before ∧ before ++ r.1.valueSites = e.sites c := by
  rw [Expr.lowerTest]
  split
  · exact Lowering.instr_ensures (e.lower_presents hc) .bool
  · refine (Lowering.operand_ensures (e.lower_presents hc) .bool).bind ?_
    rintro ⟨x, s⟩ ⟨hs, -⟩
    exact .pure ⟨Instr.not_makesObject rfl, _, hs, List.append_nil _⟩

namespace Lowering

theorem effects_shows (e : Expr) : (effects t e).Ensures (Fragment.Shows (e.sites c)) := by
  rw [effects]
  split
  · rename_i pos recv name args hcall
    rw [← Expr.sites_unparen, hcall]
    refine (call_ensures hc (fun e _ ↦ e.lower_presents hc) (fun e _ ↦ e.lower_presents hc) pos name
      .void).bind ?_
    rintro ⟨x, s⟩ ⟨hs, hk, -⟩
    have hx := Fragment.Shows.instr (Instr.makesObject_call.not.2 hk)
    exact .pure (by simpa [Instr.sites, Instr.valueSites, Expr.sites] using hs.append hx)
  · refine (operand_ensures (e.lower_presents hc) .absent).bind ?_
    rintro ⟨x, s⟩ ⟨hs, -⟩
    exact .pure hs

/-- What is assigned to a variable, unless it is an object that is made for it. -/
theorem assignValue_shows (name : Text) (ty : Ty) (e : Expr) : LowerM.Ensures (do
    let (x, s) ← instr (e.lower t) ty
    return s ++ .instr (.assign (.var name ty) ty x)) (Fragment.Shows (e.sites c)) := by
  refine (instr_ensures (e.lower_presents hc) _).bind ?_
  rintro ⟨x, s⟩ ⟨hx, before, hs, hbefore⟩
  exact .pure (hbefore ▸ hs.append (.assign hx _ _))

theorem assign_shows (pos : Position) (name : Text) (e : Expr) :
    (assign t pos name e).Ensures (Fragment.Shows (c.assignment name e)) := by
  rw [assign, hc.lookup, Context.assignment]
  cases c.resolve name with
  | none => exact .unsupported
  | some b =>
    cases b with
    | field d =>
      refine .after fun object ↦ (operand_ensures (e.lower_presents hc) _).bind ?_
      rintro ⟨x, s⟩ ⟨hs, -⟩
      have hput : ¬ (Instr.putField object { name, ty := (Symbols.symbolOf c.cls.name d).ty }
          x).MakesObject := Instr.not_makesObject rfl
      exact .pure (by simpa [Instr.sites, Instr.valueSites] using hs.append (.instr hput))
    | var d =>
      have hother := assignValue_shows hc name (Symbols.symbolOf c.cls.name d).ty e
      dsimp only [Option.map_some, Context.referent]
      cases e.unparen with
      | new _ cls => exact .pure (.construct (Symbols.typeOf_ne_receiver _ _) name cls)
      | _ => exact hother

theorem indexAssign_shows (pos : Position) (name : Text) (i e : Expr) :
    (indexAssign t pos name i e).Ensures (Fragment.Shows (i.sites c ++ e.sites c)) := by
  refine (array_ensures (ident_presents hc pos name) pos).bind ?_
  rintro ⟨a, s⟩ ⟨hs, -⟩
  refine (operand_ensures (i.lower_presents hc) .int).bind ?_
  rintro ⟨x, s'⟩ ⟨hs', -⟩
  refine (instr_ensures (e.lower_presents hc) _).bind ?_
  rintro ⟨y, s''⟩ ⟨hy, before, hs'', hbefore⟩
  have hall := ((hs.append hs').append hs'').append (.assign hy (a.get x) a.ty.elem)
  exact .pure (by simpa [← hbefore] using hall)

theorem ret_shows (pos : Position) (e : Option Expr) :
    (ret t pos e).Ensures (Fragment.Shows (sitesOf? c e)) := by
  have hret (x : Operand) (ty : Ty) : (Fragment.instr (.ret x ty)).Shows [] :=
    .plain (Instr.not_makesObject rfl) rfl
  cases e with
  | none =>
    rw [ret]
    split
    · exact .pure (hret _ _)
    · exact .unsupported
  | some e =>
    rw [ret]
    split
    · exact .unsupported
    · refine (operand_ensures (e.lower_presents hc) _).bind ?_
      rintro ⟨x, s⟩ ⟨hs, -⟩
      exact .pure (by simpa [sitesOf?] using hs.append (hret x t.sig.ret))

omit hc in
/-- A conditional, from its test and the code of its two cases. -/
theorem conditional_shows {ss yesSites noSites : List Site} {test : LowerM (Instr × Fragment)}
    {onTrue onFalse : LowerM Fragment}
    (ht : test.Ensures fun r ↦ ¬ r.1.MakesObject ∧
      ∃ before, r.2.Shows before ∧ before ++ r.1.valueSites = ss)
    (hyes : onTrue.Ensures (Fragment.Shows yesSites)) (hno : onFalse.Ensures (Fragment.Shows noSites)) :
    (conditional test onTrue onFalse).Ensures (Fragment.Shows (ss ++ (noSites ++ yesSites))) := by
  refine ht.bind ?_
  rintro ⟨cond, s⟩ ⟨hcond, before, hs, rfl⟩
  refine .after fun (yes, done) ↦ hno.bind fun no hno ↦ hyes.bind fun body hbody ↦ ?_
  have hgoto : (if !no.endsWithReturn then Fragment.instr (.goto done) else .empty).Shows [] := by
    split
    · exact .goto done
    · exact .empty
  have hend : (if !no.endsWithReturn || !body.endsWithReturn then Fragment.label done
      else .empty).Shows [] := by
    split
    · exact .label done
    · exact .empty
  have hall := (((((hs.append (.branch hcond yes)).append hno).append hgoto).append
    (.label yes)).append hbody).append hend
  exact .pure (by simpa using hall)

omit hc in
/-- A loop, from its test and the code of its body. -/
theorem loop_shows {ss bodySites : List Site} {test : LowerM (Instr × Fragment)}
    {body : LowerM Fragment}
    (ht : test.Ensures fun r ↦ ¬ r.1.MakesObject ∧
      ∃ before, r.2.Shows before ∧ before ++ r.1.valueSites = ss)
    (hbody : body.Ensures (Fragment.Shows bodySites)) :
    (loop test body).Ensures (Fragment.Shows (ss ++ bodySites)) := by
  refine .after fun (again, enter, done) ↦ ht.bind ?_
  rintro ⟨cond, s⟩ ⟨hcond, before, hs, rfl⟩
  refine hbody.bind fun b hb ↦ ?_
  have hjumps : (Fragment.instrs [.branch cond enter, .goto done]).Shows cond.valueSites := by
    have hboth := (Fragment.Shows.branch hcond enter).append (.goto done)
    rwa [List.append_nil] at hboth
  have hall := ((((((Fragment.Shows.label again).append hs).append hjumps).append
    (.label enter)).append hb).append (.goto again)).append (.label done)
  exact .pure (by simpa using hall)

omit hc in
theorem stmts_show {ss : List Stmt} (h : ∀ s ∈ ss, (s.lower t).Ensures (Fragment.Shows (s.sites c))) :
    (lowerStmts t ss).Ensures (Fragment.Shows (sitesInAll c ss)) := by
  induction ss with
  | nil => exact .pure .empty
  | cons s ss ih =>
    refine (h s (by simp)).bind fun f hf ↦ ?_
    exact (ih fun x hx ↦ h x (by simp [hx])).bind fun g hg ↦ .pure (hf.append hg)

omit hc in
theorem stmt?_shows {s : Option Stmt} (h : ∀ x ∈ s, (x.lower t).Ensures (Fragment.Shows (x.sites c))) :
    (lowerStmt? t s).Ensures (Fragment.Shows (sitesIn? c s)) := by
  cases s with
  | none => exact .pure .empty
  | some x => exact h x rfl

end Lowering

open Lowering in
/-- **Lowered statements have the sites of their source.** -/
theorem Stmt.lower_shows (s : Stmt) : (s.lower t).Ensures (Fragment.Shows (s.sites c)) := by
  induction s using Stmt.induction with
  | h s ih =>
    cases s with
    | block pos ss => exact stmts_show ih
    | cond pos e yes no =>
      exact conditional_shows (e.lowerTest_ensures hc)
        (stmt?_shows fun x hx ↦ ih x (mem_parts_onTrue hx))
        (stmt?_shows fun x hx ↦ ih x (mem_parts_onFalse hx))
    | loop pos e body =>
      exact loop_shows (e.lowerTest_ensures hc)
        (stmt?_shows fun x hx ↦ ih x (mem_parts_loop hx))
    | expr pos e => exact effects_shows hc e
    | assign pos name e => exact assign_shows hc pos name e
    | indexAssign pos name i e => exact indexAssign_shows hc pos name i e
    | ret pos e => exact ret_shows hc pos e

/-! ## Methods -/

/-- A method calls the constructor of each object that it makes at once, and nothing jumps in between. -/
def IR.Method.Initialises (m : Method) : Prop :=
  ∀ i x, m.code[i]? = some x → x.MakesObject →
    ∃ name ty cls, x = .create name ty cls ∧ (∀ own, ty ≠ .receiver own) ∧
      m.code[i + 1]? = some (.initialise name ty) ∧ m.labels.namesAt (i + 1 : Nat) = []

omit hc in
theorem Lowering.close_shows {ss : List Site} {f : Fragment} (hf : f.Shows ss) (ret : Ty) :
    (close ret f).Shows ss := by
  rw [close]
  split
  · simpa using hf.append (.plain (x := .ret .missing .void) (Instr.not_makesObject rfl) rfl)
  · exact hf

/-- **A lowered method has the sites of its body.** -/
theorem Lowering.LoweredBy.shows {m : Method} {σ σ' : LowerState} {f : Fragment}
    (h : LoweredBy t c.method m σ σ' f) : m.code.flatMap Instr.sites = c.sites ∧ m.Initialises := by
  have hbody := stmts_show (fun s _ ↦ s.lower_shows hc) σ f σ' h.body
  have hshows := close_shows hbody t.sig.ret
  refine ⟨by rw [h.code, hshows.sites, Context.sites], fun i x hx hmakes ↦ ?_⟩
  rw [h.code] at hx
  obtain ⟨name, ty, cls, rfl, hty, hnext, hlabels⟩ := hshows.initialised i x hx hmakes
  refine ⟨name, ty, cls, rfl, hty, h.code ▸ hnext, List.eq_nil_iff_forall_not_mem.2 fun label hl ↦ ?_⟩
  have hentry := Labels.mem_namesAt.1 hl
  rw [h.labels] at hentry
  obtain ⟨l, hl, heq⟩ := List.mem_map.1 hentry
  exact hlabels l hl (Int.ofNat_inj.1 (congrArg Prod.snd heq))

end

end MiniJava
