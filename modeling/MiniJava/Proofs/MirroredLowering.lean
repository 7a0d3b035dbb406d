import MiniJava.Proofs.LoweredStmt
import MiniJava.Proofs.MirroredCode

/-!
# Lowering from two states

Every way to lower an expression or a statement gives mirrored code from two states that stand side by
side, if the lowerings of its parts do (`Expr.lower_mirror`, `Stmt.lower_mirror`).  A conditional, a loop
and a short-circuit operator take a number for their labels and jump between their parts; everything else
joins the code of the parts.  A fresh temporary may skip other names in one run than in the other, but
there always is a free one (`freeTemp_free`), so the tables grow together.

The code is closed besides, whatever the program is: each jump has its label, and no label is placed
twice.  So no run stops at a label that it has placed before.  No object of a void type is made if `N`
holds, which rules out void variables and objects of void or of a class without a name (`Stmt.made`).
-/

set_option autoImplicit false

namespace MiniJava

open IR

/-! ## Fresh names -/

theorem Fresh.signs_tempName (n : Nat) : (tempName n).signs =
    "tmp".toList.map .char ++ (Nat.toDigits 10 n).map .char := by
  simp [tempName]

theorem Fresh.tempName_inj {n k : Nat} (h : tempName n = tempName k) : n = k := by
  have hsigns := congrArg Text.signs h
  rw [signs_tempName, signs_tempName, List.append_cancel_left_eq] at hsigns
  exact toDigits_inj (List.map_injective_iff.2 (fun _ _ hc ↦ Sign.char.inj hc) hsigns)

/-- If the search for a free temporary ends at a variable, it has passed variables only. -/
theorem LowerM.contains_of_freeTemp {vars : VarTable} {fuel n : Nat}
    (h : vars.contains (Fresh.tempName (freeTemp vars fuel n)) = true) {k : Nat} (hk : k ≤ fuel) :
    vars.contains (Fresh.tempName (n + k)) = true := by
  induction fuel generalizing n k with
  | zero =>
    obtain rfl := Nat.le_zero.1 hk
    exact h
  | succ fuel ih =>
    rw [freeTemp] at h
    split at h
    · rename_i hn
      cases k with
      | zero => exact hn
      | succ k =>
        rw [Nat.add_comm k, ← Nat.add_assoc]
        exact ih h (by omega)
    · rename_i hn
      exact absurd h hn

/-- There are fewer variables than numbers that are tried. -/
theorem LowerM.freeTemp_free (vars : VarTable) (n : Nat) :
    vars.contains (Fresh.tempName (freeTemp vars vars.vars.length n)) = false := by
  by_contra h
  have hall : ∀ k ≤ vars.vars.length, vars.contains (Fresh.tempName (n + k)) = true :=
    fun k hk ↦ contains_of_freeTemp (by simpa using h) hk
  let names := (List.range (vars.vars.length + 1)).map fun k ↦ Fresh.tempName (n + k)
  have hnodup : names.Nodup := by
    refine List.nodup_range.map fun i j hij ↦ ?_
    exact Nat.add_left_cancel (Fresh.tempName_inj hij)
  have hsub : names ⊆ vars.vars.map Variable.name := by
    intro a ha
    obtain ⟨k, hk, rfl⟩ := List.mem_map.1 ha
    exact VarTable.contains_iff.1 (hall k (Nat.lt_succ_iff.1 (List.mem_range.1 hk)))
  have hle := (hnodup.subperm hsub).length_le
  simp only [names, List.length_map, List.length_range] at hle
  omega

/-! ## Objects that a program makes -/

mutual

/-- The classes that an expression makes objects of. -/
def Expr.made : Expr → List Text
  | .new _ cls => [cls]
  | .int _ _ | .bool _ _ | .ident _ _ | .this _ => []
  | .paren _ e | .unary _ _ e | .newArray _ _ e | .length _ e => e.made
  | .binary _ _ x y | .index _ x y => x.made ++ y.made
  | .call _ recv _ args => madeBy? recv ++ madeByAll args
  | .array _ elems => madeByAll elems
termination_by structural e => e

/-- The classes that an expression makes objects of, if there is one. -/
def madeBy? : Option Expr → List Text
  | none => []
  | some e => e.made
termination_by structural e => e

/-- The classes that expressions make objects of. -/
def madeByAll : List Expr → List Text
  | [] => []
  | e :: es => e.made ++ madeByAll es
termination_by structural es => es

end

mutual

/-- The classes that a statement makes objects of. -/
def Stmt.made : Stmt → List Text
  | .block _ ss => madeInAll ss
  | .cond _ e yes no => e.made ++ (madeIn? yes ++ madeIn? no)
  | .loop _ e body => e.made ++ madeIn? body
  | .expr _ e | .assign _ _ e => e.made
  | .indexAssign _ _ i e => i.made ++ e.made
  | .ret _ e => madeBy? e
termination_by structural s => s

/-- The classes that a statement makes objects of, if there is one. -/
def madeIn? : Option Stmt → List Text
  | none => []
  | some s => s.made
termination_by structural s => s

/-- The classes that statements make objects of. -/
def madeInAll : List Stmt → List Text
  | [] => []
  | s :: ss => s.made ++ madeInAll ss
termination_by structural ss => ss

end

theorem madeByAll_eq_flatMap (es : List Expr) : madeByAll es = es.flatMap Expr.made := by
  induction es with
  | nil => rfl
  | cons e es ih => rw [madeByAll, ih, List.flatMap_cons]

theorem madeInAll_eq_flatMap (ss : List Stmt) : madeInAll ss = ss.flatMap Stmt.made := by
  induction ss with
  | nil => rfl
  | cons s ss ih => rw [madeInAll, ih, List.flatMap_cons]

theorem Expr.made_subset_of_mem_parts {e x : Expr} (h : x ∈ e.parts) : x.made ⊆ e.made := by
  intro cls hcls
  cases e with
  | int _ _ | bool _ _ | ident _ _ | this _ | new _ _ => cases h
  | paren _ e | unary _ _ e | newArray _ _ e | length _ e =>
    rw [List.mem_singleton.1 h] at hcls
    exact hcls
  | binary _ _ l r | index _ l r =>
    simp only [parts, List.mem_cons, List.not_mem_nil, or_false] at h
    rcases h with rfl | rfl
    · exact List.mem_append_left _ hcls
    · exact List.mem_append_right _ hcls
  | call _ recv _ args =>
    rcases List.mem_append.1 h with h | h
    · obtain rfl := Option.mem_toList.1 h
      exact List.mem_append_left _ hcls
    · refine List.mem_append_right _ ?_
      rw [madeByAll_eq_flatMap]
      exact List.mem_flatMap.2 ⟨x, h, hcls⟩
  | array _ elems =>
    show cls ∈ madeByAll elems
    rw [madeByAll_eq_flatMap]
    exact List.mem_flatMap.2 ⟨x, h, hcls⟩

theorem Stmt.made_subset_of_mem_parts {s x : Stmt} (h : x ∈ s.parts) : x.made ⊆ s.made := by
  intro cls hcls
  cases s with
  | block _ ss =>
    show cls ∈ madeInAll ss
    rw [madeInAll_eq_flatMap]
    exact List.mem_flatMap.2 ⟨x, h, hcls⟩
  | cond _ e yes no =>
    refine List.mem_append_right _ ?_
    rcases List.mem_append.1 h with h | h
    · obtain rfl := Option.mem_toList.1 h
      exact List.mem_append_left _ hcls
    · obtain rfl := Option.mem_toList.1 h
      exact List.mem_append_right _ hcls
  | loop _ e body =>
    obtain rfl := Option.mem_toList.1 h
    exact List.mem_append_right _ hcls
  | expr _ _ | assign _ _ _ | indexAssign _ _ _ _ | ret _ _ => cases h

/-- Only two names stand for the type without values. -/
theorem Symbols.isVoid_scalarType {cls name : Text} (h : name ≠ "void" ∧ name ≠ "") :
    (Symbols.scalarType cls name).isVoid = false := by
  rw [Symbols.scalarType]
  split
  · rfl
  · rfl
  · rfl
  · rename_i hname
    exact absurd (Text.eq_ofString_of_string? hname) h.1
  · rename_i hname
    exact absurd (Text.eq_ofString_of_string? hname) h.2
  · rfl
  · rfl

theorem Expr.made_unparen (e : Expr) : e.unparen.made = e.made := by
  fun_induction Expr.unparen e with
  | case1 pos e ih => exact ih
  | case2 e => rfl

/-! ## Code of two runs -/

/-- **What is known of the code of two runs**: only temporaries were declared for it, the states stand
side by side again, the code is mirrored, and it is closed. -/
structure LowersBoth (t : Scope) (N : Prop) (lo lo' : Nat) (σ τ : LowerState) (f g : Fragment)
    (σ' τ' : LowerState) : Prop where
  left : AddsTemps σ.vars σ'.vars
  right : AddsTemps τ.vars τ'.vars
  beside : Beside t lo lo' σ' τ'
  mirror : Fragment.Mirror t.table N (PairedAs t σ'.vars τ'.vars) (LabelPair lo lo') f g
  closed : f.Closed σ.fresh.labels σ'.fresh.labels

section
variable {t : Scope} {N : Prop} {lo lo' : Nat} {σ τ σ₁ τ₁ σ₂ τ₂ : LowerState} {f g f' g' : Fragment}

theorem Beside.empty (hb : Beside t lo lo' σ τ) : LowersBoth t N lo lo' σ τ .empty .empty σ τ :=
  ⟨.refl _, .refl _, hb, .empty, .plain (Nat.le_refl _) rfl rfl⟩

/-- Instructions that do not jump. -/
theorem Beside.instrs (hb : Beside t lo lo' σ τ) {xs ys : List Instr}
    (h : List.Forall₂ (InstrMirror t.table N (PairedAs t σ.vars τ.vars) (LabelPair lo lo')) xs ys)
    (hj : ∀ x ∈ xs, x.target? = none) :
    LowersBoth t N lo lo' σ τ (.instrs xs) (.instrs ys) σ τ :=
  ⟨.refl _, .refl _, hb, .instrs h,
    .plain (Nat.le_refl _) rfl (List.filterMap_eq_nil_iff.2 hj)⟩

theorem Beside.instr (hb : Beside t lo lo' σ τ) {x y : Instr}
    (h : InstrMirror t.table N (PairedAs t σ.vars τ.vars) (LabelPair lo lo') x y) (hj : x.target? = none) :
    LowersBoth t N lo lo' σ τ (.instr x) (.instr y) σ τ :=
  hb.instrs (.cons h .nil) (by simpa using hj)

namespace LowersBoth

/-- Names that belong together still do when more was lowered. -/
theorem pairs (h : LowersBoth t N lo lo' σ τ f g σ₁ τ₁) (ty : Ty) (a b : Text) :
    PairedAs t σ.vars τ.vars ty a b → PairedAs t σ₁.vars τ₁.vars ty a b :=
  fun hab ↦ hab.mono h.left h.right

theorem append (hf : LowersBoth t N lo lo' σ τ f g σ₁ τ₁) (hg : LowersBoth t N lo lo' σ₁ τ₁ f' g' σ₂ τ₂) :
    LowersBoth t N lo lo' σ τ (f ++ f') (g ++ g') σ₂ τ₂ where
  left := hf.left.trans hg.left
  right := hf.right.trans hg.right
  beside := hg.beside
  mirror := (hf.mirror.mono hg.pairs).append hg.mirror
  closed := hf.closed.append hg.closed

/-- More may be declared afterwards. -/
theorem grow (hf : LowersBoth t N lo lo' σ τ f g σ₁ τ₁)
    (hg : LowersBoth t N lo lo' σ₁ τ₁ .empty .empty σ₂ τ₂) : LowersBoth t N lo lo' σ τ f g σ₂ τ₂ := by
  simpa using hf.append hg

/-- Code with labels of its own around two parts, of which the second one was lowered after the labels
were given. -/
theorem around {σ₃ τ₃ : LowerState} {whole whole' : Fragment} {labels : List Text}
    (placed wanted : List Text) (hf : LowersBoth t N lo lo' σ τ f g σ₁ τ₁) (hvars : σ₂.vars = σ₁.vars)
    (hvars' : τ₂.vars = τ₁.vars) (hle : σ₁.fresh.labels ≤ σ₂.fresh.labels)
    (hl : Numbered σ₁.fresh.labels σ₂.fresh.labels labels)
    (hg : LowersBoth t N lo lo' σ₂ τ₂ f' g' σ₃ τ₃)
    (hmirror : Fragment.Mirror t.table N (PairedAs t σ₃.vars τ₃.vars) (LabelPair lo lo') f g →
      Fragment.Mirror t.table N (PairedAs t σ₃.vars τ₃.vars) (LabelPair lo lo') f' g' →
      Fragment.Mirror t.table N (PairedAs t σ₃.vars τ₃.vars) (LabelPair lo lo') whole whole')
    (hbounded : f.Bounded → f'.Bounded → whole.Bounded)
    (hplaced : whole.placed = placed) (hwanted : whole.wanted = wanted)
    (hperm : placed.Perm (f.placed ++ labels ++ f'.placed))
    (hsub : f.wanted ⊆ f.placed → f'.wanted ⊆ f'.placed → wanted ⊆ placed) :
    LowersBoth t N lo lo' σ τ whole whole' σ₃ τ₃ := by
  have hleft : AddsTemps σ₁.vars σ₃.vars := hvars ▸ hg.left
  have hright : AddsTemps τ₁.vars τ₃.vars := hvars' ▸ hg.right
  refine ⟨hf.left.trans hleft, hf.right.trans hright, hg.beside, ?_, ?_⟩
  · exact hmirror (hf.mirror.mono fun _ _ _ hab ↦ hab.mono hleft hright) hg.mirror
  · refine hf.closed.around hl hle hg.closed (hplaced ▸ hperm) ?_
      (hbounded hf.closed.bounded hg.closed.bounded)
    rw [hplaced, hwanted]
    exact hsub hf.closed.wanted hg.closed.wanted

end LowersBoth

/-! ## Fresh names in two runs -/

theorem run_declare (σ : LowerState) (v : Variable) : (LowerM.declare v).run σ =
    match σ.vars.add v with
    | .ok vars => (.ok (), { σ with vars })
    | .error e => (.error e, σ) := by
  have hrun : (LowerM.declare v).run σ = (do
      let vars ← σ.vars.add v
      MonadStateOf.set { σ with vars } : LowerM Unit).run σ := rfl
  rw [hrun]
  cases σ.vars.add v with
  | ok vars => rfl
  | error e => rfl

/-- What a fresh temporary does to the state. -/
theorem run_tempName (σ : LowerState) (ty : Ty) : ∃ (n : Nat) (σ' : LowerState),
    (LowerM.tempName ty).run σ = (.ok (Fresh.tempName n), σ') ∧
      σ'.vars.vars = σ.vars.vars ++ [tempVar n ty] ∧ σ'.fresh.labels = σ.fresh.labels := by
  let n := LowerM.freeTemp σ.vars σ.vars.vars.length σ.fresh.temps
  have hfree : σ.vars.contains (tempVar n ty).name = false := LowerM.freeTemp_free _ _
  refine ⟨n, { fresh := { σ.fresh with temps := n + 1 }, vars := σ.vars.push (tempVar n ty) hfree }, ?_,
    rfl, rfl⟩
  have hadd : σ.vars.add (tempVar n ty) = .ok (σ.vars.push (tempVar n ty) hfree) := by
    rw [VarTable.add, dif_pos hfree]
  have hrun : (LowerM.tempName ty).run σ =
      (ExceptT.bindCont (fun _ ↦ pure (Fresh.tempName n))
        ((LowerM.declare (tempVar n ty)).run
          { σ with fresh := { σ.fresh with temps := n + 1 } }).1 : StateM LowerState _)
        ((LowerM.declare (tempVar n ty)).run
          { σ with fresh := { σ.fresh with temps := n + 1 } }).2 := rfl
  rw [hrun, run_declare, hadd]
  rfl

theorem addsTemps_of_tempVar {vars vars' : VarTable} {n : Nat} {ty : Ty}
    (h : vars'.vars = vars.vars ++ [tempVar n ty]) : AddsTemps vars vars' :=
  ⟨[tempVar n ty], h, by simp⟩

/-- **Both runs find a free temporary.** -/
theorem tempName_both (hb : Beside t lo lo' σ τ) (ty : Ty) :
    Both σ τ (LowerM.tempName ty) (LowerM.tempName ty) fun a b σ' τ' ↦
      LowersBoth t N lo lo' σ τ .empty .empty σ' τ' ∧ PairedAs t σ'.vars τ'.vars ty a b := by
  obtain ⟨n, σ', hσ, hvars, hlabels⟩ := run_tempName σ ty
  obtain ⟨n', τ', hτ, hvars', hlabels'⟩ := run_tempName τ ty
  have hleft := addsTemps_of_tempVar hvars
  have hright := addsTemps_of_tempVar hvars'
  refine .of_ok hσ hτ ⟨⟨hleft, hright, ⟨?_, ?_, ?_, ?_⟩, .empty, ?_⟩, ⟨σ.vars.vars.length, ?_, ?_⟩,
    tempVar n ty, ?_, .inl rfl⟩
  · rw [hlabels, hlabels']
    exact hb.labels
  · rw [hvars, hvars']
    exact List.rel_append hb.vars (.cons ⟨rfl, rfl, rfl, fun h ↦ absurd rfl h⟩ .nil)
  · exact fun hs ↦ (hb.self hs).mono hleft hright
  · exact fun name v hv ↦ (hb.var name v hv).mono hleft hright
  · exact .plain (Nat.le_of_eq hlabels.symm) rfl rfl
  · simp [hvars, tempVar]
  · simp [hvars', hb.vars.length_eq, tempVar]
  · rw [VarTable.get?_eq_some_iff, hvars]
    exact ⟨by simp, rfl⟩

theorem temp_both (hb : Beside t lo lo' σ τ) (ty : Ty) :
    Both σ τ (LowerM.temp ty) (LowerM.temp ty) fun x y σ' τ' ↦
      LowersBoth t N lo lo' σ τ .empty .empty σ' τ' ∧
        ∃ a b, x = .var a ty ∧ y = .var b ty ∧ PairedAs t σ'.vars τ'.vars ty a b := by
  refine (tempName_both (N := N) hb ty).bind ?_
  rintro a b σ' τ' ⟨hgrow, hab⟩
  exact .pure ⟨hgrow, a, b, rfl, rfl, hab⟩

/-- The state after labels of one number were given. -/
theorem Beside.label (hb : Beside t lo lo' σ τ) :
    Beside t lo lo' { σ with fresh := { σ.fresh with labels := σ.fresh.labels + 1 } }
      { τ with fresh := { τ.fresh with labels := τ.fresh.labels + 1 } } where
  labels := by
    obtain ⟨k, hσ, hτ⟩ := hb.labels
    exact ⟨k + 1, by simp only [hσ]; omega, by simp only [hτ]; omega⟩
  vars := hb.vars
  self := hb.self
  var := hb.var

theorem Beside.labelPair (hb : Beside t lo lo' σ τ) (stem : Text) : LabelPair lo lo'
    (Fresh.labelName stem σ.fresh.labels) (Fresh.labelName stem τ.fresh.labels) := by
  obtain ⟨k, hσ, hτ⟩ := hb.labels
  exact ⟨stem, k, by rw [hσ], by rw [hτ]⟩

/-- What two runs know of the labels that were given to them. -/
structure GivesLabels (t : Scope) (lo lo' : Nat) (σ τ : LowerState) (ls ks : List Text)
    (σ' τ' : LowerState) : Prop where
  beside : Beside t lo lo' σ' τ'
  left : σ'.vars = σ.vars
  right : τ'.vars = τ.vars
  le : σ.fresh.labels ≤ σ'.fresh.labels
  numbered : Numbered σ.fresh.labels σ'.fresh.labels ls
  pairs : List.Forall₂ (LabelPair lo lo') ls ks

theorem labelPair_both (hb : Beside t lo lo' σ τ) {a b : Text} (h : [a, b].Nodup) :
    Both σ τ (LowerM.labelPair a b) (LowerM.labelPair a b) fun l k σ' τ' ↦
      GivesLabels t lo lo' σ τ [l.1, l.2] [k.1, k.2] σ' τ' :=
  .of_ok rfl rfl ⟨hb.label, rfl, rfl, Nat.le_succ _, .family h σ.fresh.labels,
    .cons (hb.labelPair a) (.cons (hb.labelPair b) .nil)⟩

theorem labelTriple_both (hb : Beside t lo lo' σ τ) {a b c : Text} (h : [a, b, c].Nodup) :
    Both σ τ (LowerM.labelTriple a b c) (LowerM.labelTriple a b c) fun l k σ' τ' ↦
      GivesLabels t lo lo' σ τ [l.1, l.2.1, l.2.2] [k.1, k.2.1, k.2.2] σ' τ' :=
  .of_ok rfl rfl ⟨hb.label, rfl, rfl, Nat.le_succ _, .family h σ.fresh.labels,
    .cons (hb.labelPair a) (.cons (hb.labelPair b) (.cons (hb.labelPair c) .nil))⟩

end

/-! ## Consumers -/

/-- Values of one form. -/
def Value.Mirror (t : Symbols) (R : Ty → Text → Text → Prop) : Value → Value → Prop
  | .operand x, .operand y => SimpleMirror R x y
  | .instr x, .instr y => ValueMirror t R x y
  | _, _ => False

theorem Ty.eq_array_of_elem_ne {ty : Ty} (h : ty.elem ≠ .absent) : ty = .array ty.elem := by
  cases ty with
  | array elem => rfl
  | absent | int | bool | void | string | object _ _ | receiver _ => exact absurd rfl h

/-- A lowering of an expression gives mirrored code. -/
def MirrorLowering (t : Scope) (N : Prop) (lo lo' : Nat) (lower : Lowering) : Prop :=
  ∀ want σ τ, Beside t lo lo' σ τ → Both σ τ (lower want) (lower want) fun r s σ' τ' ↦
    LowersBoth t N lo lo' σ τ r.2 s.2 σ' τ' ∧ r.1.Mirror t.table (PairedAs t σ'.vars τ'.vars) s.1

namespace Lowering

section
variable {t : Scope} {N : Prop} {lo lo' : Nat} {σ τ : LowerState} {lower left right : Lowering}
  {lowers : List Lowering}

theorem operand_both (h : MirrorLowering t N lo lo' lower) (hb : Beside t lo lo' σ τ) (want : Ty) :
    Both σ τ (operand lower want) (operand lower want) fun r s σ' τ' ↦
      LowersBoth t N lo lo' σ τ r.2 s.2 σ' τ' ∧ SimpleMirror (PairedAs t σ'.vars τ'.vars) r.1 s.1 := by
  refine (h want σ τ hb).bind ?_
  rintro ⟨v, s⟩ ⟨w, s'⟩ σ₁ τ₁ ⟨hs, hv⟩
  match v, w, hv with
  | .operand x, .operand y, hx => exact .pure ⟨hs, hx⟩
  | .instr x, .instr y, hx =>
    dsimp only
    rw [ValueMirror.ty_eq hx]
    refine (temp_both (N := N) hs.beside y.ty).bind ?_
    rintro _ _ σ₂ τ₂ ⟨hgrow, a, b, rfl, rfl, hab⟩
    refine .pure ⟨(hs.grow hgrow).append (hgrow.beside.instr ?_ rfl), .var hab⟩
    exact .assignVar hab _ (ValueMirror.mono hgrow.pairs hx)

theorem instr_both (h : MirrorLowering t N lo lo' lower) (hb : Beside t lo lo' σ τ) (want : Ty) :
    Both σ τ (instr lower want) (instr lower want) fun r s σ' τ' ↦
      LowersBoth t N lo lo' σ τ r.2 s.2 σ' τ' ∧
        ValueMirror t.table (PairedAs t σ'.vars τ'.vars) r.1 s.1 := by
  refine (h want σ τ hb).bind ?_
  rintro ⟨v, s⟩ ⟨w, s'⟩ σ₁ τ₁ ⟨hs, hv⟩
  match v, w, hv with
  | .operand x, .operand y, hx => exact .pure ⟨hs, .single (.simple hx)⟩
  | .instr x, .instr y, hx => exact .pure ⟨hs, hx⟩

theorem fixedArgs_both (h : ∀ lower ∈ lowers, MirrorLowering t N lo lo' lower)
    (hb : Beside t lo lo' σ τ) {params : List Symbol} (hlen : lowers.length = params.length) :
    Both σ τ (fixedArgs lowers params) (fixedArgs lowers params) fun r s σ' τ' ↦
      LowersBoth t N lo lo' σ τ r.2 s.2 σ' τ' ∧
        List.Forall₂ (SimpleMirror (PairedAs t σ'.vars τ'.vars)) r.1 s.1 ∧
          r.1.length = params.length := by
  induction lowers generalizing σ τ params with
  | nil => exact .pure ⟨hb.empty, .nil, hlen⟩
  | cons lower lowers ih =>
    cases params with
    | nil => cases hlen
    | cons p params =>
      refine (operand_both (h lower (by simp)) hb p.ty).bind ?_
      rintro ⟨x, s⟩ ⟨y, s'⟩ σ₁ τ₁ ⟨hs, hx⟩
      refine (ih (fun l hl ↦ h l (by simp [hl])) hs.beside (Nat.succ.inj hlen)).bind ?_
      rintro ⟨xs, r⟩ ⟨ys, r'⟩ σ₂ τ₂ ⟨hr, hxs, hlen⟩
      exact .pure ⟨hs.append hr, .cons (hx.mono hr.pairs) hxs, congrArg (· + 1) hlen⟩

theorem operands_both (h : ∀ lower ∈ lowers, MirrorLowering t N lo lo' lower) (hb : Beside t lo lo' σ τ)
    (want : Ty) : Both σ τ (operands want lowers) (operands want lowers) fun r s σ' τ' ↦
      LowersBoth t N lo lo' σ τ r.2 s.2 σ' τ' ∧
        List.Forall₂ (SimpleMirror (PairedAs t σ'.vars τ'.vars)) r.1 s.1 := by
  rw [operands_eq_fixedArgs]
  exact (fixedArgs_both h hb (by simp)).mono fun _ _ _ _ h ↦ ⟨h.1, h.2.1⟩

/-- An array is in variables at one place, of an array type. -/
theorem array_both (h : MirrorLowering t N lo lo' lower) (hb : Beside t lo lo' σ τ) (pos : Position) :
    Both σ τ (array pos lower) (array pos lower) fun r s σ' τ' ↦
      LowersBoth t N lo lo' σ τ r.2 s.2 σ' τ' ∧ r.1.ty = s.1.ty ∧ r.1.ty = .array r.1.ty.elem ∧
        PairedAs t σ'.vars τ'.vars r.1.ty r.1.name s.1.name := by
  refine (operand_both h hb .absent).bind ?_
  rintro ⟨x, s⟩ ⟨y, s'⟩ σ₁ τ₁ ⟨hs, hx⟩
  cases hx with
  | literal text ty => exact .unsupported
  | var hab =>
    dsimp only
    split
    · exact .unsupported
    · rename_i hne
      exact .pure ⟨hs, rfl, Ty.eq_array_of_elem_ne hne, hab⟩

/-- Operands are packed into fresh arrays. -/
theorem pack_both {xs ys : List Operand} (hb : Beside t lo lo' σ τ)
    (h : List.Forall₂ (SimpleMirror (PairedAs t σ.vars τ.vars)) xs ys) (elem : Ty) :
    Both σ τ (pack (.array elem) xs) (pack (.array elem) ys) fun r s σ' τ' ↦
      LowersBoth t N lo lo' σ τ r.2 s.2 σ' τ' ∧
        SimpleMirror (PairedAs t σ'.vars τ'.vars) r.1 s.1 ∧ r.1.ty = .array elem := by
  refine (tempName_both (N := N) hb (.array elem)).bind ?_
  rintro a b σ₁ τ₁ ⟨hgrow, hab⟩
  refine .pure ⟨?_, .var hab, rfl⟩
  rw [← h.length_eq]
  refine (hb.empty.grow hgrow).append ((hgrow.beside.instr ?_ rfl).append
    (hgrow.beside.instrs ?_ ?_))
  · exact .assignVar hab _ (.call (.newArray (.literal _ _) _) rfl)
  · -- the items go to their places one after another
    suffices hitems : ∀ k, List.Forall₂ (InstrMirror t.table N (PairedAs t σ₁.vars τ₁.vars)
        (LabelPair lo lo'))
        ((xs.zipIdx k).map fun x ↦ .assign (.elem a (intLiteral x.2) elem) elem (.single x.1))
        ((ys.zipIdx k).map fun y ↦ .assign (.elem b (intLiteral y.2) elem) elem (.single y.1))
      from hitems 0
    induction h with
    | nil => exact fun _ ↦ .nil
    | cons hx _ ih =>
      intro k
      refine .cons (.assignElem hab (.literal _ _) _ (.single (.simple ?_))) (ih _)
      exact hx.mono hgrow.pairs
  · intro x hx
    obtain ⟨_, -, rfl⟩ := List.mem_map.1 hx
    rfl

/-! ## Names and operators -/

theorem this_both (hb : Beside t lo lo' σ τ) (pos : Position) :
    Both σ τ (t.this pos) (t.this pos) fun x y σ' τ' ↦ σ' = σ ∧ τ' = τ ∧
      x.ty = .receiver t.table.cls ∧ SimpleMirror (PairedAs t σ.vars τ.vars) x y := by
  rw [Scope.this]
  split
  · exact .unsupported
  · rename_i hs
    exact .pure ⟨rfl, rfl, rfl, .var (hb.self (Bool.eq_false_iff.2 hs))⟩

theorem fieldObject_both (hb : Beside t lo lo' σ τ) (pos : Position) (field : Symbol) :
    Both σ τ (t.fieldObject pos field) (t.fieldObject pos field) fun x y σ' τ' ↦ σ' = σ ∧ τ' = τ ∧
      ObjectMirror (PairedAs t σ.vars τ.vars) x y := by
  rw [Scope.fieldObject]
  split
  · exact .pure ⟨rfl, rfl, .missing⟩
  · refine (this_both hb pos).mono ?_
    rintro _ _ _ _ ⟨hσ, hτ, -, hx⟩
    exact ⟨hσ, hτ, .simple hx⟩

theorem ident_mirror (pos : Position) (name : Text) :
    MirrorLowering t N lo lo' fun _ ↦ ident t pos name := by
  intro want σ τ hb
  rw [ident]
  split
  · exact .unsupported
  · rename_i v hv
    exact .pure ⟨hb.empty, .var (hb.var name v hv)⟩
  · rename_i f hf
    refine (fieldObject_both hb pos f).bind ?_
    rintro x y _ _ ⟨rfl, rfl, hx⟩
    exact .pure ⟨hb.empty, .getField hx _ _⟩

theorem this_mirror (pos : Position) :
    MirrorLowering t N lo lo' fun _ ↦ do return (.operand (← t.this pos), .empty) := by
  intro want σ τ hb
  refine (this_both hb pos).bind ?_
  rintro x y _ _ ⟨rfl, rfl, -, hx⟩
  exact .pure ⟨hb.empty, hx⟩

theorem literal_mirror (text : Text) (ty : Ty) :
    MirrorLowering t N lo lo' fun _ ↦ return (.operand (.literal text ty), .empty) :=
  fun _ _ _ hb ↦ .pure ⟨hb.empty, .literal text ty⟩

/-- A short-circuit operator, from the code of its sides. -/
theorem logic_mirror (hl : MirrorLowering t N lo lo' left) (hr : MirrorLowering t N lo lo' right)
    (isAnd : Bool) : MirrorLowering t N lo lo' fun _ ↦ logic isAnd left right := by
  intro want σ τ hb
  rw [logic_eq]
  refine (operand_both hl hb .bool).bind ?_
  rintro ⟨l, ls⟩ ⟨l', ls'⟩ σ₁ τ₁ ⟨hls, hl⟩
  refine (temp_both (N := N) hls.beside .bool).bind ?_
  rintro _ _ σ₂ τ₂ ⟨hgrow, a, b, rfl, rfl, hab⟩
  refine (labelPair_both hgrow.beside (by decide)).bind ?_
  rintro ⟨onTrue, done⟩ ⟨onTrue', done'⟩ σ₃ τ₃ hgives
  obtain _ | ⟨htrue, _ | ⟨hdone, -⟩⟩ := hgives.pairs
  refine (operand_both hr hgives.beside .bool).bind ?_
  rintro ⟨r, rs⟩ ⟨r', rs'⟩ σ₄ τ₄ ⟨hrs, hr⟩
  have hpairs : ∀ ty a b, PairedAs t σ₂.vars τ₂.vars ty a b → PairedAs t σ₄.vars τ₄.vars ty a b := by
    rw [← hgives.left, ← hgives.right]
    exact hrs.pairs
  have hset {x y : Operand} (hx : SimpleMirror (PairedAs t σ₄.vars τ₄.vars) x y) :=
    InstrMirror.assignVar (t := t.table) (N := N) (L := LabelPair lo lo') (hpairs _ _ _ hab) .bool
      (.single (.simple hx))
  have htest := hl.mono fun ty a b hab ↦ hpairs ty a b (hgrow.pairs ty a b hab)
  refine .pure ⟨?_, .var (hpairs _ _ _ hab)⟩
  -- both forms place the two labels, and differ in where the code of the right side stands
  cases isAnd with
  | true =>
    refine .around (ls.placed ++ [onTrue] ++ rs.placed ++ [done])
      (ls.wanted ++ [onTrue, done] ++ rs.wanted) (hls.grow hgrow) hgives.left hgives.right hgives.le
      hgives.numbered hrs (fun hf hg ↦ ?_) (fun hf hg ↦ ?_) (by simp [shortCircuit])
      (by simp [shortCircuit, Instr.target?]) ?_ (by grind)
    · exact ((((((hf.append (.instr (.branch (.single (.simple htest)) htrue))).append
        (.instr (hset (.literal _ _)))).append (.instr (.goto hdone))).append (.label htrue)).append
          hg).append (.instr (hset hr))).append (.label hdone)
    · apply_rules [Fragment.Bounded.append, Fragment.bounded_instr, Fragment.bounded_label]
    · refine List.perm_iff_count.2 fun a ↦ ?_
      simp only [List.count_append, List.count_cons, List.count_nil]
      omega
  | false =>
    refine .around (ls.placed ++ rs.placed ++ [onTrue, done])
      (ls.wanted ++ [onTrue] ++ rs.wanted ++ [done]) (hls.grow hgrow) hgives.left hgives.right hgives.le
      hgives.numbered hrs (fun hf hg ↦ ?_) (fun hf hg ↦ ?_) (by simp [shortCircuit])
      (by simp [shortCircuit, Instr.target?]) ?_ (by grind)
    · exact ((((((hf.append (.instr (.branch (.single (.simple htest)) htrue))).append hg).append
        (.instr (hset hr))).append (.instr (.goto hdone))).append (.label htrue)).append
          (.instr (hset (.literal _ _)))).append (.label hdone)
    · apply_rules [Fragment.Bounded.append, Fragment.bounded_instr, Fragment.bounded_label]
    · refine List.perm_iff_count.2 fun a ↦ ?_
      simp only [List.count_append, List.count_cons, List.count_nil]
      omega

theorem binary_mirror (hl : MirrorLowering t N lo lo' left) (hr : MirrorLowering t N lo lo' right)
    (pos : Position) (op : Text) : MirrorLowering t N lo lo' fun _ ↦ binary pos op left right := by
  intro want σ τ hb
  rw [binary]
  split
  · exact .unsupported
  · exact logic_mirror hl hr true want σ τ hb
  · exact logic_mirror hl hr false want σ τ hb
  · refine (operand_both hl hb .int).bind ?_
    rintro ⟨l, ls⟩ ⟨l', ls'⟩ σ₁ τ₁ ⟨hls, hl⟩
    refine (operand_both hr hls.beside .int).bind ?_
    rintro ⟨r, rs⟩ ⟨r', rs'⟩ σ₂ τ₂ ⟨hrs, hr⟩
    exact .pure ⟨hls.append hrs, .binary _ (hl.mono hrs.pairs) hr _⟩

theorem unary_mirror (h : MirrorLowering t N lo lo' lower) (pos : Position) (op : Text) :
    MirrorLowering t N lo lo' fun _ ↦ unary pos op lower := by
  intro want σ τ hb
  rw [unary]
  split
  · exact .unsupported
  · refine (operand_both h hb _).bind ?_
    rintro ⟨x, s⟩ ⟨y, s'⟩ σ₁ τ₁ ⟨hs, hx⟩
    exact .pure ⟨hs, .unary _ hx _⟩

/-! ## Objects and arrays -/

/-- A call with a receiver that is no call of the class itself. -/
theorem agrees_init (t : Symbols) (x : Operand) :
    t.Agrees { kind := .special, caller := x, method := "<init>", ret := .void } := by
  intro sig h
  cases h

theorem construct_both (hb : Beside t lo lo' σ τ) {a b : Text} {ty : Ty}
    (h : PairedAs t σ.vars τ.vars ty a b) (hty : N → ty.isVoid = false) (cls : Text) :
    LowersBoth t N lo lo' σ τ (construct (.var a ty) cls) (construct (.var b ty) cls) σ τ := by
  refine hb.instrs (.cons (.create h cls hty) (.cons ?_ .nil)) ?_
  · exact .call (.method (by simp) (.var h) "" "<init>" .nil .void (agrees_init _ _))
  · rintro x (_ | ⟨_, _ | ⟨_, ⟨⟩⟩⟩) <;> rfl

theorem newObject_mirror {cls : Text} (hcls : N → (t.typeNamed cls).isVoid = false) :
    MirrorLowering t N lo lo' fun _ ↦ newObject t cls := by
  intro want σ τ hb
  refine (temp_both (N := N) hb (t.typeNamed cls)).bind ?_
  rintro _ _ σ₁ τ₁ ⟨hgrow, a, b, rfl, rfl, hab⟩
  exact .pure ⟨by simpa using hgrow.append (construct_both hgrow.beside hab hcls cls), .var hab⟩

theorem newArray_mirror (h : MirrorLowering t N lo lo' lower) (elem : TypeName) :
    MirrorLowering t N lo lo' fun _ ↦ newArray t elem lower := by
  intro want σ τ hb
  refine (operand_both h hb .int).bind ?_
  rintro ⟨x, s⟩ ⟨y, s'⟩ σ₁ τ₁ ⟨hs, hx⟩
  exact .pure ⟨hs, .call (.newArray hx _) rfl⟩

theorem arrayLiteral_mirror (h : ∀ lower ∈ lowers, MirrorLowering t N lo lo' lower) :
    MirrorLowering t N lo lo' (arrayLiteral lowers) := by
  intro want σ τ hb
  refine (operands_both h hb _).bind ?_
  rintro ⟨xs, s⟩ ⟨ys, s'⟩ σ₁ τ₁ ⟨hs, hxs⟩
  refine (pack_both (N := N) hs.beside hxs _).bind ?_
  rintro ⟨x, r⟩ ⟨y, r'⟩ σ₂ τ₂ ⟨hr, hx, -⟩
  exact .pure ⟨hs.append hr, hx⟩

theorem element_mirror {base index : Lowering} (ha : MirrorLowering t N lo lo' base)
    (hi : MirrorLowering t N lo lo' index) (pos : Position) :
    MirrorLowering t N lo lo' fun _ ↦ element pos base index := by
  intro want σ τ hb
  refine (array_both ha hb pos).bind ?_
  rintro ⟨⟨a, ty⟩, s⟩ ⟨⟨b, _⟩, s'⟩ σ₁ τ₁ ⟨hs, ⟨⟩, hty, hab⟩
  refine (operand_both hi hs.beside .int).bind ?_
  rintro ⟨x, r⟩ ⟨y, r'⟩ σ₂ τ₂ ⟨hr, hx⟩
  exact .pure ⟨hs.append hr, .single (.elem (hr.pairs _ _ _ (hty ▸ hab)) hx)⟩

theorem length_mirror (h : MirrorLowering t N lo lo' lower) (pos : Position) :
    MirrorLowering t N lo lo' fun _ ↦ length pos lower := by
  intro want σ τ hb
  refine (array_both h hb pos).bind ?_
  rintro ⟨⟨a, ty⟩, s⟩ ⟨⟨b, _⟩, s'⟩ σ₁ τ₁ ⟨hs, ⟨⟩, hty, hab⟩
  exact .pure ⟨hs, .call (.arrayLength (.var hab) _) rfl⟩

/-! ## Calls -/

/-- Two targets of calls of a method: on a class, or on values that belong together.  The signature is
that of the method of the class itself that the call is made on. -/
structure TargetMirror (t : Symbols) (R : Ty → Text → Text → Prop) (name : Text) (x y : Target) : Prop where
  kind : x.kind = y.kind
  cls : x.cls = y.cls
  sig : x.sig = y.sig
  caller : x.kind = .static ∧ x.caller = .missing ∧ y.caller = .missing ∨
    x.kind ∈ [.special, .virtual, .interface] ∧ SimpleMirror R x.caller y.caller
  own : ∀ args ret, t.ownMethod?
    { kind := x.kind, caller := x.caller, cls := x.cls, method := name, args, ret } = x.sig

theorem ownStatic_mirror {R : Ty → Text → Text → Prop} {name : Text} {s : Signature}
    (hs : t.table.method? name = some s) (h : s.isStatic = true) :
    TargetMirror t.table R name (.ownStatic t s) (.ownStatic t s) where
  kind := rfl
  cls := rfl
  sig := rfl
  caller := .inl ⟨rfl, rfl, rfl⟩
  own := by
    intro args ret
    simp [Symbols.ownMethod?, Target.ownStatic, hs, h]

/-- A call on a value of the class itself. -/
theorem ownValue_mirror {R : Ty → Text → Text → Prop} {x y : Operand} (hx : SimpleMirror R x y)
    (hty : (∃ cls, x.ty = .receiver cls) ∨ ∃ cls, x.ty = .object cls true) (name : Text) :
    TargetMirror t.table R name (.onOwn t x name) (.onOwn t y name) := by
  have hfind (args : List Operand) (ret : Ty) :
      t.table.ownMethod? { kind := .virtual, caller := x, method := name, args, ret } =
        (t.table.method? name).filter (!·.isStatic) := by
    rcases hty with ⟨cls, hty⟩ | ⟨cls, hty⟩
    · simp [Symbols.ownMethod?, hty]
    · simp [Symbols.ownMethod?, hty]
  rw [Target.onOwn, Target.onOwn]
  cases hs : t.table.method? name with
  | none => exact ⟨rfl, rfl, rfl, .inr ⟨by simp, hx⟩, fun args ret ↦ by rw [hfind, hs]; rfl⟩
  | some s =>
    dsimp only
    split
    · rename_i hstatic
      exact ownStatic_mirror hs hstatic
    · rename_i hstatic
      refine ⟨rfl, rfl, rfl, .inr ⟨by simp, hx⟩, fun args ret ↦ ?_⟩
      rw [hfind, hs]
      simp [hstatic]

theorem valueTarget_both {x y : Operand} (hx : SimpleMirror (PairedAs t σ.vars τ.vars) x y)
    (pos : Position) (name : Text) :
    Both σ τ (valueTarget t pos x name) (valueTarget t pos y name) fun r s σ' τ' ↦ σ' = σ ∧ τ' = τ ∧
      TargetMirror t.table (PairedAs t σ.vars τ.vars) name r s := by
  -- a value of another class
  have hother {kind : CallKind} (hk : kind = .virtual ∨ kind = .interface)
      (hty : x.ty = .string ∨ ∃ cls, x.ty = .object cls false) :
      TargetMirror t.table (PairedAs t σ.vars τ.vars) name { kind, caller := x } { kind, caller := y } := by
    refine ⟨rfl, rfl, rfl, .inr ⟨by rcases hk with rfl | rfl <;> simp, hx⟩, fun args ret ↦ ?_⟩
    rcases hk with rfl | rfl <;> rcases hty with hty | ⟨cls, hty⟩ <;> simp [Symbols.ownMethod?, hty]
  rw [valueTarget, valueTarget, ← hx.ty_eq]
  dsimp only
  split
  · rename_i cls hty
    exact .pure ⟨rfl, rfl, ownValue_mirror hx (.inl ⟨_, hty⟩) name⟩
  · rename_i cls hty
    exact .pure ⟨rfl, rfl, ownValue_mirror hx (.inr ⟨_, hty⟩) name⟩
  · rename_i cls hty
    refine .pure ⟨rfl, rfl, hother ?_ (.inr ⟨cls, hty⟩)⟩
    split
    · split <;> simp
    · simp
  · rename_i hty
    exact .pure ⟨rfl, rfl, hother (.inl rfl) (.inl hty)⟩
  · exact .unsupported

theorem classTarget_both (pos : Position) (cls name : Text) :
    Both σ τ (classTarget t pos cls name) (classTarget t pos cls name) fun r s σ' τ' ↦
      σ' = σ ∧ τ' = τ ∧ TargetMirror t.table (PairedAs t σ.vars τ.vars) name r s := by
  rw [classTarget]
  by_cases hcls : cls = t.table.cls
  · rw [if_pos hcls]
    cases hs : t.table.method? name with
    | none =>
      refine .pure ⟨rfl, rfl, rfl, rfl, rfl, .inl ⟨rfl, rfl, rfl⟩, fun args ret ↦ ?_⟩
      simp [Symbols.ownMethod?, hs]
    | some s =>
      dsimp only
      split
      · rename_i hstatic
        exact .pure ⟨rfl, rfl, ownStatic_mirror hs hstatic⟩
      · exact .unsupported
  · rw [if_neg hcls]
    refine .pure ⟨rfl, rfl, rfl, rfl, rfl, .inl ⟨rfl, rfl, rfl⟩, fun args ret ↦ ?_⟩
    simp [Symbols.ownMethod?, hcls]

theorem target_both {recv : Option (Expr × Lowering)} (h : ∀ r ∈ recv, MirrorLowering t N lo lo' r.2)
    (hb : Beside t lo lo' σ τ) (pos : Position) (name : Text) :
    Both σ τ (target t pos recv name) (target t pos recv name) fun r s σ' τ' ↦
      LowersBoth t N lo lo' σ τ r.2 s.2 σ' τ' ∧
        TargetMirror t.table (PairedAs t σ'.vars τ'.vars) name r.1 s.1 := by
  rw [target.eq_def]
  split
  · split
    · rename_i s hs
      obtain ⟨hs, hstatic⟩ := Option.filter_eq_some_iff.1 hs
      exact .pure ⟨hb.empty, ownStatic_mirror hs hstatic⟩
    · refine (this_both hb pos).bind ?_
      rintro x y _ _ ⟨rfl, rfl, -, hx⟩
      refine (valueTarget_both hx pos name).bind ?_
      rintro r s _ _ ⟨rfl, rfl, hr⟩
      exact .pure ⟨hb.empty, hr⟩
  · rename_i e lower
    split
    · split
      · exact .unsupported
      · refine (classTarget_both pos _ name).bind ?_
        rintro r s _ _ ⟨rfl, rfl, hr⟩
        exact .pure ⟨hb.empty, hr⟩
    · refine (operand_both (h (e, lower) rfl) hb .absent).bind ?_
      rintro ⟨x, s⟩ ⟨y, s'⟩ σ₁ τ₁ ⟨hs, hx⟩
      refine (valueTarget_both hx pos name).bind ?_
      rintro r r' _ _ ⟨rfl, rfl, hr⟩
      exact .pure ⟨hs, hr⟩

section
variable {args : List (Expr × Lowering)} (h : ∀ a ∈ args, MirrorLowering t N lo lo' a.2)
include h

/-- What goes to a variadic parameter has its type. -/
theorem variadicArgs_both (hb : Beside t lo lo' σ τ) (elem : Ty) :
    Both σ τ (variadicArgs (.array elem) args) (variadicArgs (.array elem) args) fun r s σ' τ' ↦
      LowersBoth t N lo lo' σ τ r.2 s.2 σ' τ' ∧ SimpleMirror (PairedAs t σ'.vars τ'.vars) r.1 s.1 ∧
        r.1.ty = .array elem := by
  rw [variadicArgs.eq_def]
  split
  · rename_i e lower
    refine (operand_both (h (e, lower) (by simp)) hb _).bind ?_
    rintro ⟨x, s⟩ ⟨y, s'⟩ σ₁ τ₁ ⟨hs, hx⟩
    dsimp only
    rw [← hx.ty_eq]
    split
    · rename_i hty
      exact .pure ⟨hs, hx, hty⟩
    · refine (pack_both (N := N) hs.beside (.cons hx .nil) elem).bind ?_
      rintro ⟨x, r⟩ ⟨y, r'⟩ σ₂ τ₂ ⟨hr, hx, hty⟩
      exact .pure ⟨hs.append hr, hx, hty⟩
  · refine (operands_both (List.forall_mem_map.2 h) hb _).bind ?_
    rintro ⟨xs, s⟩ ⟨ys, s'⟩ σ₁ τ₁ ⟨hs, hxs⟩
    refine (pack_both (N := N) hs.beside hxs elem).bind ?_
    rintro ⟨x, r⟩ ⟨y, r'⟩ σ₂ τ₂ ⟨hr, hx, hty⟩
    exact .pure ⟨hs.append hr, hx, hty⟩

theorem argsFor_both (hb : Beside t lo lo' σ τ) (pos : Position) (sig : Signature) :
    Both σ τ (argsFor pos sig args) (argsFor pos sig args) fun r s σ' τ' ↦
      LowersBoth t N lo lo' σ τ r.2 s.2 σ' τ' ∧
        List.Forall₂ (SimpleMirror (PairedAs t σ'.vars τ'.vars)) r.1 s.1 ∧
          r.1.length = sig.params.length ∧ (sig.varargs = true →
            (r.1.getLast?).map Operand.ty = (sig.params.getLast?).map Symbol.ty) := by
  have hpart {as : List (Expr × Lowering)} (has : as ⊆ args) :
      ∀ lower ∈ as.map Prod.snd, MirrorLowering t N lo lo' lower :=
    List.forall_mem_map.2 fun a ha ↦ h a (has ha)
  rw [argsFor]
  dsimp only
  split
  · rename_i hvar
    split
    · exact .unsupported
    · rename_i hlen
      have hall : (args.map Prod.snd).length = sig.params.length := by
        rw [List.length_map]
        exact not_not.1 hlen
      refine (fixedArgs_both (hpart fun _ ha ↦ ha) hb hall).mono ?_
      rintro r s σ' τ' ⟨hs, hxs, hlen⟩
      refine ⟨hs, hxs, hlen, fun hv ↦ ?_⟩
      simp [hv] at hvar
  · split
    · exact .throw fun _ h ↦ by cases h
    · rename_i last hlast
      have hparams : sig.params.dropLast ++ [last] = sig.params :=
        List.dropLast_append_getLast? last hlast
      split
      · exact .unsupported
      · rename_i hcount
        have hfixed : ((args.take sig.params.dropLast.length).map Prod.snd).length =
            sig.params.dropLast.length := by
          rw [List.length_map, List.length_take]
          omega
        refine (fixedArgs_both (hpart (List.take_subset _ _)) hb hfixed).bind ?_
        rintro ⟨xs, s⟩ ⟨ys, s'⟩ σ₁ τ₁ ⟨hs, hxs, hlen⟩
        dsimp only
        split
        · rename_i elem hty
          rw [hty]
          refine (variadicArgs_both (fun a ha ↦ h a (List.drop_subset _ _ ha)) hs.beside elem).bind ?_
          rintro ⟨x, r⟩ ⟨y, r'⟩ σ₂ τ₂ ⟨hr, hx, hxty⟩
          refine .pure ⟨hs.append hr, ?_, ?_, fun _ ↦ ?_⟩
          · exact List.rel_append (hxs.imp fun _ _ hx ↦ hx.mono hr.pairs) (.cons hx .nil)
          · rw [← hparams, List.length_append, List.length_append, hlen]
            rfl
          · rw [hlast]
            simpa [hty] using hxty
        · exact .throw fun _ h ↦ by cases h

theorem call_both {recv : Option (Expr × Lowering)} (hr : ∀ r ∈ recv, MirrorLowering t N lo lo' r.2)
    (hb : Beside t lo lo' σ τ) (pos : Position) (name : Text) (want : Ty) :
    Both σ τ (call t pos recv name args want) (call t pos recv name args want) fun r s σ' τ' ↦
      LowersBoth t N lo lo' σ τ r.2 s.2 σ' τ' ∧
        InvokeMirror t.table (PairedAs t σ'.vars τ'.vars) r.1 s.1 := by
  refine (target_both hr hb pos name).bind ?_
  rintro ⟨⟨kind, x, cls, sig⟩, s⟩ ⟨⟨_, y, _, _⟩, s'⟩ σ₁ τ₁ ⟨hs, ⟨⟨⟩, ⟨⟩, ⟨⟩, hcaller, hown⟩⟩
  have hcall {xs ys : List Operand} {f g : Fragment} {σ₂ τ₂ : LowerState} {ret : Ty}
      (has : LowersBoth t N lo lo' σ₁ τ₁ f g σ₂ τ₂)
      (hxs : List.Forall₂ (SimpleMirror (PairedAs t σ₂.vars τ₂.vars)) xs ys)
      (hagrees : t.table.Agrees { kind, caller := x, cls, method := name, args := xs, ret }) :
      InvokeMirror t.table (PairedAs t σ₂.vars τ₂.vars)
        { kind, caller := x, cls, method := name, args := xs, ret }
        { kind, caller := y, cls, method := name, args := ys, ret } := by
    rcases hcaller with ⟨hk, hx, hy⟩ | ⟨hk, hx⟩
    · dsimp only at hk hx hy
      subst hk hx hy
      exact .static cls name hxs ret hagrees
    · exact .method hk (hx.mono has.pairs) cls name hxs ret hagrees
  cases sig with
  | some sig =>
    refine (argsFor_both h hs.beside pos sig).bind ?_
    rintro ⟨xs, f⟩ ⟨ys, g⟩ σ₂ τ₂ ⟨has, hxs, hlen, hlast⟩
    refine .pure ⟨hs.append has, hcall has hxs fun sig' hsig ↦ ?_⟩
    obtain rfl := Option.some.inj ((hown _ _).symm.trans hsig)
    exact ⟨rfl, hlen, hlast⟩
  | none =>
    refine (operands_both (List.forall_mem_map.2 h) hs.beside .absent).bind ?_
    rintro ⟨xs, f⟩ ⟨ys, g⟩ σ₂ τ₂ ⟨has, hxs⟩
    refine .pure ⟨hs.append has, hcall has hxs fun sig' hsig ↦ ?_⟩
    cases (hown _ _).symm.trans hsig

theorem callValue_mirror {recv : Option (Expr × Lowering)}
    (hr : ∀ r ∈ recv, MirrorLowering t N lo lo' r.2) (pos : Position) (name : Text) :
    MirrorLowering t N lo lo' (callValue t pos recv name args) := by
  intro want σ τ hb
  refine (call_both h hr hb pos name _).bind ?_
  rintro ⟨c, s⟩ ⟨d, s'⟩ σ₁ τ₁ ⟨hs, hc⟩
  dsimp only
  rw [← (CallMirror.invoke hc).ret_eq]
  split
  · exact .unsupported
  · rename_i hret
    exact .pure ⟨hs, .call (.invoke hc) (Bool.eq_false_iff.2 hret)⟩

end

end

end Lowering

/-! ## Expressions -/

open Lowering in
/-- **Lowered expressions are mirrored.** -/
theorem Expr.lower_mirror (t : Scope) {N : Prop} (lo lo' : Nat) (e : Expr)
    (h : N → ∀ cls ∈ e.made, cls ≠ "void" ∧ cls ≠ "") : MirrorLowering t N lo lo' (e.lower t) := by
  induction e using Expr.induction with
  | h e ih =>
    have ih' : ∀ x ∈ e.parts, MirrorLowering t N lo lo' (x.lower t) := fun x hx ↦
      ih x hx fun hn cls hcls ↦ h hn cls (Expr.made_subset_of_mem_parts hx hcls)
    cases e with
    | int pos text => exact literal_mirror text .int
    | bool pos b => exact literal_mirror _ .bool
    | ident pos name => exact ident_mirror pos name
    | this pos => exact this_mirror pos
    | paren pos e => exact ih' e (by simp)
    | binary pos op left right =>
      exact binary_mirror (ih' left (by simp)) (ih' right (by simp)) pos op
    | unary pos op arg => exact unary_mirror (ih' arg (by simp)) pos op
    | call pos recv name args =>
      exact callValue_mirror (forall_args ih') (forall_receiver ih') pos name
    | new pos cls =>
      exact newObject_mirror fun hn ↦ Symbols.isVoid_scalarType (h hn cls (by simp [Expr.made]))
    | newArray pos elem size => exact newArray_mirror (ih' size (by simp)) elem
    | array pos elems =>
      refine arrayLiteral_mirror ?_
      rw [lowerArgs_eq_map, List.map_map]
      exact List.forall_mem_map.2 ih'
    | index pos base index =>
      exact element_mirror (ih' base (by simp)) (ih' index (by simp)) _
    | length pos arg => exact length_mirror (ih' arg (by simp)) _

/-! ## Statements -/

/-- A step of lowering gives mirrored code. -/
def MirrorStep (t : Scope) (N : Prop) (lo lo' : Nat) (step : LowerM Fragment) : Prop :=
  ∀ σ τ, Beside t lo lo' σ τ →
    Both σ τ step step fun f g σ' τ' ↦ LowersBoth t N lo lo' σ τ f g σ' τ'

/-- The condition of a branch. -/
def MirrorTest (t : Scope) (N : Prop) (lo lo' : Nat) (test : LowerM (Instr × Fragment)) : Prop :=
  ∀ σ τ, Beside t lo lo' σ τ → Both σ τ test test fun r s σ' τ' ↦
    LowersBoth t N lo lo' σ τ r.2 s.2 σ' τ' ∧ ValueMirror t.table (PairedAs t σ'.vars τ'.vars) r.1 s.1

section
variable {t : Scope} {N : Prop} {lo lo' : Nat}

theorem Expr.lowerTest_mirror {e : Expr} (h : N → ∀ cls ∈ e.made, cls ≠ "void" ∧ cls ≠ "") :
    MirrorTest t N lo lo' (e.lowerTest t) := by
  intro σ τ hb
  rw [Expr.lowerTest]
  split
  · exact Lowering.instr_both (e.lower_mirror t lo lo' h) hb .bool
  · refine (Lowering.operand_both (e.lower_mirror t lo lo' h) hb .bool).bind ?_
    rintro ⟨x, s⟩ ⟨y, s'⟩ σ₁ τ₁ ⟨hs, hx⟩
    exact .pure ⟨hs, .single (.simple hx)⟩

namespace Lowering

theorem effects_mirror {e : Expr} (h : N → ∀ cls ∈ e.made, cls ≠ "void" ∧ cls ≠ "") :
    MirrorStep t N lo lo' (effects t e) := by
  intro σ τ hb
  rw [effects]
  split
  · rename_i pos recv name args hcall
    have hmade : N → ∀ cls ∈ (Expr.call pos recv name args).made, cls ≠ "void" ∧ cls ≠ "" := by
      rw [← hcall, Expr.made_unparen]
      exact h
    have hparts : ∀ x ∈ (Expr.call pos recv name args).parts, MirrorLowering t N lo lo' (x.lower t) :=
      fun x hx ↦ x.lower_mirror t lo lo' fun hn cls hcls ↦
        hmade hn cls (Expr.made_subset_of_mem_parts hx hcls)
    refine (call_both (forall_args hparts) (forall_receiver hparts) hb pos name .void).bind ?_
    rintro ⟨c, s⟩ ⟨d, s'⟩ σ₁ τ₁ ⟨hs, hc⟩
    exact .pure (hs.append (hs.beside.instr (.call hc) rfl))
  · refine (operand_both (e.lower_mirror t lo lo' h) hb .absent).bind ?_
    rintro ⟨x, s⟩ ⟨y, s'⟩ σ₁ τ₁ ⟨hs, -⟩
    exact .pure hs

theorem assign_mirror
    (hvoid : N → ∀ name v, t.lookup name = some (.var v) → v.ty.isVoid = false) {e : Expr}
    (h : N → ∀ cls ∈ e.made, cls ≠ "void" ∧ cls ≠ "") (pos : Position) (name : Text) :
    MirrorStep t N lo lo' (assign t pos name e) := by
  intro σ τ hb
  rw [assign]
  split
  · exact .unsupported
  · rename_i f _
    refine (fieldObject_both hb pos f).bind ?_
    rintro x y _ _ ⟨rfl, rfl, hx⟩
    refine (operand_both (e.lower_mirror t lo lo' h) hb f.ty).bind ?_
    rintro ⟨v, s⟩ ⟨w, s'⟩ σ₁ τ₁ ⟨hs, hv⟩
    exact .pure (hs.append (hs.beside.instr (.putField (hx.mono hs.pairs) _ hv) rfl))
  · rename_i v hv
    split
    · exact .pure (construct_both hb (hb.var name v hv) (fun hn ↦ hvoid hn name v hv) _)
    · refine (instr_both (e.lower_mirror t lo lo' h) hb v.ty).bind ?_
      rintro ⟨x, s⟩ ⟨y, s'⟩ σ₁ τ₁ ⟨hs, hx⟩
      have hname := hs.pairs _ _ _ (hb.var name v hv)
      exact .pure (hs.append (hs.beside.instr (.assignVar hname _ hx) rfl))

theorem indexAssign_mirror {index e : Expr}
    (hi : N → ∀ cls ∈ index.made, cls ≠ "void" ∧ cls ≠ "")
    (h : N → ∀ cls ∈ e.made, cls ≠ "void" ∧ cls ≠ "") (pos : Position) (name : Text) :
    MirrorStep t N lo lo' (indexAssign t pos name index e) := by
  intro σ τ hb
  refine (array_both (N := N) (ident_mirror pos name) hb pos).bind ?_
  rintro ⟨⟨a, ty⟩, s⟩ ⟨⟨b, _⟩, s'⟩ σ₁ τ₁ ⟨hs, ⟨⟩, hty, hab⟩
  refine (operand_both (index.lower_mirror t lo lo' hi) hs.beside .int).bind ?_
  rintro ⟨i, is⟩ ⟨j, js⟩ σ₂ τ₂ ⟨his, hi⟩
  refine (instr_both (e.lower_mirror t lo lo' h) his.beside ty.elem).bind ?_
  rintro ⟨x, xs⟩ ⟨y, ys⟩ σ₃ τ₃ ⟨hxs, hx⟩
  have hbase := (his.append hxs).pairs _ _ _ (hty ▸ hab)
  refine .pure (((hs.append his).append hxs).append (hxs.beside.instr ?_ rfl))
  exact .assignElem hbase (hi.mono hxs.pairs) _ hx

theorem ret_mirror {e : Option Expr} (h : N → ∀ cls ∈ madeBy? e, cls ≠ "void" ∧ cls ≠ "")
    (pos : Position) : MirrorStep t N lo lo' (ret t pos e) := by
  intro σ τ hb
  cases e with
  | none =>
    rw [ret]
    split
    · exact .pure (hb.instr (.retVoid .void) rfl)
    · exact .unsupported
  | some e =>
    rw [ret]
    split
    · exact .unsupported
    · refine (operand_both (e.lower_mirror t lo lo' h) hb t.sig.ret).bind ?_
      rintro ⟨x, s⟩ ⟨y, s'⟩ σ₁ τ₁ ⟨hs, hx⟩
      exact .pure (hs.append (hs.beside.instr (.ret hx _) rfl))

/-- A conditional, from its test and the code of its two cases. -/
theorem conditional_mirror {test : LowerM (Instr × Fragment)} {onTrue onFalse : LowerM Fragment}
    (ht : MirrorTest t N lo lo' test) (hyes : MirrorStep t N lo lo' onTrue)
    (hno : MirrorStep t N lo lo' onFalse) : MirrorStep t N lo lo' (conditional test onTrue onFalse) := by
  intro σ τ hb
  refine (ht σ τ hb).bind ?_
  rintro ⟨cond, s⟩ ⟨cond', s'⟩ σ₁ τ₁ ⟨hs, hcond⟩
  refine (labelPair_both hs.beside (by decide)).bind ?_
  rintro ⟨yes, done⟩ ⟨yes', done'⟩ σ₂ τ₂ hgives
  obtain _ | ⟨hyes', _ | ⟨hdone, -⟩⟩ := hgives.pairs
  refine (hno σ₂ τ₂ hgives.beside).bind ?_
  intro no no' σ₃ τ₃ hno
  refine (hyes σ₃ τ₃ hno.beside).bind ?_
  intro body body' σ₄ τ₄ hbody
  have hparts := hno.append hbody
  have hpairs : ∀ ty a b, PairedAs t σ₁.vars τ₁.vars ty a b → PairedAs t σ₄.vars τ₄.vars ty a b := by
    rw [← hgives.left, ← hgives.right]
    exact hparts.pairs
  -- the code of both runs has the same parts, whichever of the cases end in a return
  have hmirror (hf : Fragment.Mirror t.table N (PairedAs t σ₄.vars τ₄.vars) (LabelPair lo lo') s s')
      {p q : Prop} [Decidable p] [Decidable q] :
      Fragment.Mirror t.table N (PairedAs t σ₄.vars τ₄.vars) (LabelPair lo lo')
        (s ++ .instr (.branch cond yes) ++ no ++ (if p then .instr (.goto done) else .empty) ++
          .label yes ++ body ++ (if q then .label done else .empty))
        (s' ++ .instr (.branch cond' yes') ++ no' ++ (if p then .instr (.goto done') else .empty) ++
          .label yes' ++ body' ++ (if q then .label done' else .empty)) :=
    (((((hf.append (.instr (.branch (hcond.mono hpairs) hyes'))).append
      (hno.mirror.mono hbody.pairs)).append (.ite (.instr (.goto hdone)) .empty)).append
        (.label hyes')).append hbody.mirror).append (.ite (.label hdone) .empty)
  refine .pure ?_
  rw [← hno.mirror.endsWithReturn_eq, ← hbody.mirror.endsWithReturn_eq]
  by_cases hlast : (!no.endsWithReturn || !body.endsWithReturn) = true
  · refine .around (s.placed ++ no.placed ++ [yes] ++ body.placed ++ [done])
      (s.wanted ++ [yes] ++ no.wanted ++ (if !no.endsWithReturn then [done] else []) ++ body.wanted)
      hs hgives.left hgives.right hgives.le hgives.numbered hparts (fun hf _ ↦ hmirror hf)
      ?_ ?_ ?_ ?_ ?_
    · intro hf _
      have hgoto : (if !no.endsWithReturn then Fragment.instr (.goto done) else .empty).Bounded := by
        split
        · exact Fragment.bounded_instr _
        · exact Fragment.bounded_empty
      rw [if_pos hlast]
      apply_rules [Fragment.Bounded.append, Fragment.bounded_instr, Fragment.bounded_label,
        hno.closed.bounded, hbody.closed.bounded]
    · rw [if_pos hlast]
      split <;> simp
    · rw [if_pos hlast]
      split <;> simp [Instr.target?]
    · refine List.perm_iff_count.2 fun a ↦ ?_
      simp only [Fragment.placed_append, List.count_append, List.count_cons, List.count_nil]
      omega
    · have := hno.closed.wanted
      have := hbody.closed.wanted
      grind
  · -- neither case gets to the end, where no label is placed then
    have hends : no.endsWithReturn = true := by
      by_contra h
      simp [h] at hlast
    refine .around (s.placed ++ no.placed ++ [yes] ++ body.placed)
      (s.wanted ++ [yes] ++ no.wanted ++ body.wanted) hs hgives.left hgives.right hgives.le
      (hgives.numbered.sublist (by simp : [yes].Sublist _)) hparts (fun hf _ ↦ hmirror hf) ?_ ?_ ?_ ?_ ?_
    · intro hf _
      rw [if_neg hlast, hends]
      apply_rules [Fragment.Bounded.append, Fragment.bounded_instr, Fragment.bounded_label,
        hno.closed.bounded, hbody.closed.bounded, Fragment.bounded_empty]
    · rw [if_neg hlast, hends]
      simp
    · rw [if_neg hlast, hends]
      simp [Instr.target?]
    · refine List.perm_iff_count.2 fun a ↦ ?_
      simp only [Fragment.placed_append, List.count_append, List.count_cons, List.count_nil]
      omega
    · have := hno.closed.wanted
      have := hbody.closed.wanted
      grind

/-- A loop, from its test and the code of its body. -/
theorem loop_mirror {test : LowerM (Instr × Fragment)} {body : LowerM Fragment}
    (ht : MirrorTest t N lo lo' test) (hbody : MirrorStep t N lo lo' body) :
    MirrorStep t N lo lo' (loop test body) := by
  intro σ τ hb
  refine (labelTriple_both hb (by decide)).bind ?_
  rintro ⟨again, enter, done⟩ ⟨again', enter', done'⟩ σ₁ τ₁ hgives
  obtain _ | ⟨hagain, _ | ⟨henter, _ | ⟨hdone, -⟩⟩⟩ := hgives.pairs
  refine (ht σ₁ τ₁ hgives.beside).bind ?_
  rintro ⟨cond, s⟩ ⟨cond', s'⟩ σ₂ τ₂ ⟨hs, hcond⟩
  refine (hbody σ₂ τ₂ hs.beside).bind ?_
  intro b b' σ₃ τ₃ hbody
  refine .pure (.around ([again] ++ s.placed ++ [enter] ++ b.placed ++ [done])
    (s.wanted ++ [enter, done] ++ b.wanted ++ [again]) hb.empty hgives.left hgives.right hgives.le
    hgives.numbered (hs.append hbody) ?_ ?_ ?_ ?_ ?_ ?_)
  · intro _ _
    have htest := InstrMirror.branch (N := N) (hcond.mono hbody.pairs) henter
    exact ((((((Fragment.Mirror.label hagain).append (hs.mirror.mono hbody.pairs)).append
      (.instrs (.cons htest (.cons (.goto hdone) .nil)))).append (.label henter)).append
        hbody.mirror).append (.instr (.goto hagain))).append (.label hdone)
  · intro _ _
    apply_rules [Fragment.Bounded.append, Fragment.bounded_instr, Fragment.bounded_instrs,
      Fragment.bounded_label, hs.closed.bounded, hbody.closed.bounded]
  · simp
  · simp [Instr.target?]
  · refine List.perm_iff_count.2 fun a ↦ ?_
    simp only [Fragment.placed_append, Fragment.placed_empty, List.count_append, List.count_cons,
      List.count_nil]
    omega
  · have := hs.closed.wanted
    have := hbody.closed.wanted
    grind

theorem stmts_mirror {ss : List Stmt} (h : ∀ s ∈ ss, MirrorStep t N lo lo' (s.lower t)) :
    MirrorStep t N lo lo' (lowerStmts t ss) := by
  intro σ τ hb
  induction ss generalizing σ τ with
  | nil => exact .pure hb.empty
  | cons s ss ih =>
    refine (h s (by simp) σ τ hb).bind ?_
    intro f g σ₁ τ₁ hf
    refine (ih (fun x hx ↦ h x (by simp [hx])) σ₁ τ₁ hf.beside).bind ?_
    intro f' g' σ₂ τ₂ hg
    exact .pure (hf.append hg)

theorem stmt?_mirror {s : Option Stmt} (h : ∀ x ∈ s, MirrorStep t N lo lo' (x.lower t)) :
    MirrorStep t N lo lo' (lowerStmt? t s) := by
  cases s with
  | none => exact fun σ τ hb ↦ .pure hb.empty
  | some x => exact h x rfl

end Lowering

open Lowering in
/-- **Lowered statements are mirrored.** -/
theorem Stmt.lower_mirror (hvoid : N → ∀ name v, t.lookup name = some (.var v) → v.ty.isVoid = false)
    (s : Stmt) (h : N → ∀ cls ∈ s.made, cls ≠ "void" ∧ cls ≠ "") : MirrorStep t N lo lo' (s.lower t) := by
  induction s using Stmt.induction with
  | h s ih =>
    have ih' : ∀ x ∈ s.parts, MirrorStep t N lo lo' (x.lower t) := fun x hx ↦
      ih x hx fun hn cls hcls ↦ h hn cls (Stmt.made_subset_of_mem_parts hx hcls)
    cases s with
    | block pos ss => exact stmts_mirror ih'
    | cond pos e yes no =>
      exact conditional_mirror
        (e.lowerTest_mirror fun hn cls hcls ↦ h hn cls (List.mem_append_left _ hcls))
        (stmt?_mirror fun x hx ↦ ih' x (mem_parts_onTrue hx))
        (stmt?_mirror fun x hx ↦ ih' x (mem_parts_onFalse hx))
    | loop pos e body =>
      exact loop_mirror (e.lowerTest_mirror fun hn cls hcls ↦ h hn cls (List.mem_append_left _ hcls))
        (stmt?_mirror fun x hx ↦ ih' x (mem_parts_loop hx))
    | expr pos e => exact effects_mirror h
    | assign pos name value => exact assign_mirror hvoid h pos name
    | indexAssign pos name index value =>
      exact indexAssign_mirror (fun hn cls hcls ↦ h hn cls (List.mem_append_left _ hcls))
        (fun hn cls hcls ↦ h hn cls (List.mem_append_right _ hcls)) pos name
    | ret pos value => exact ret_mirror h pos

end

end MiniJava
