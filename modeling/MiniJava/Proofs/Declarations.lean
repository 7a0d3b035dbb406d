import MiniJava.Lowering.Class
import MiniJava.Proofs.LoweredExpr

/-!
# Declarations

The symbol table of a program says what the program declares (`describes_of_build`), and the variables
of a method are declared from it before its body is lowered (`Declares`): the receiver of an instance
method, then the parameters, then each local whose name is not taken.

`lowerProgram_spec` takes a class apart into its methods, each with the steps that it was lowered by.
-/

set_option autoImplicit false

namespace MiniJava

open IR Source

/-! ## Symbol tables -/

namespace Symbols

/-- No parameter but the last is variadic. -/
theorem any_varargs_of_misplacedVarargs? {ps : List VarDecl} (h : misplacedVarargs? ps = none) :
    ps.any (·.type.varargs) = (ps.getLast?.filter (·.type.varargs)).isSome := by
  fun_induction misplacedVarargs? ps with
  | case1 => rfl
  | case2 p => cases hp : p.type.varargs <;> simp [Option.filter, hp]
  | case3 p rest hne hp => cases h
  | case4 p rest hne hp ih =>
    have hrest : rest ≠ [] := hne
    rw [List.any_cons, Bool.eq_false_iff.2 hp, Bool.false_or, ih h, List.getLast?_cons,
      List.getLast?_eq_some_getLast hrest, Option.getD_some]

variable {c : Context}

theorem signatureOf_eq_ok {d : MethodDecl} {s : Signature} (h : signatureOf c.cls.name d = .ok s) :
    s = c.signature d ∧ misplacedVarargs? d.params = none := by
  rw [signatureOf] at h
  split at h
  · cases h
  · rename_i hp
    cases h
    exact ⟨rfl, hp⟩

theorem addMethod_eq_ok {t t' : Symbols} {d : MethodDecl} (hcls : t.cls = c.cls.name)
    (h : t.addMethod d = .ok t') :
    t.method? d.name = none ∧ misplacedVarargs? d.params = none ∧
      t' = { t with methods := t.methods ++ [c.signature d] } := by
  rw [addMethod] at h
  cases hm : t.method? d.name with
  | some s =>
    rw [hm] at h
    cases h
  | none =>
    simp only [hm, Option.isSome_none, Bool.false_eq_true, if_false] at h
    obtain ⟨s, hs, h⟩ := Except.bind_eq_ok.1 h
    cases h
    obtain ⟨rfl, hp⟩ := signatureOf_eq_ok (hcls ▸ hs)
    exact ⟨rfl, hp, rfl⟩

theorem foldlM_addMethod_eq_ok {ds : List MethodDecl} {t t' : Symbols} (hcls : t.cls = c.cls.name)
    (hn : (t.methods.map Signature.name).Nodup) (h : ds.foldlM addMethod t = .ok t') :
    (t'.methods.map Signature.name).Nodup ∧ (∀ d ∈ ds, misplacedVarargs? d.params = none) ∧
      t' = { t with methods := t.methods ++ ds.map c.signature } := by
  induction ds generalizing t with
  | nil =>
    cases h
    exact ⟨hn, by simp, by simp⟩
  | cons d ds ih =>
    obtain ⟨t₁, hadd, h⟩ := Except.bind_eq_ok.1 h
    obtain ⟨hnew, hp, rfl⟩ := addMethod_eq_ok hcls hadd
    -- the name of the new method is none of those before it
    have hn₁ : ((t.methods ++ [c.signature d]).map Signature.name).Nodup := by
      rw [method?, List.find?_eq_none] at hnew
      rw [List.map_append, List.map_singleton, List.nodup_append]
      refine ⟨hn, by simp, fun a ha b hb hab ↦ ?_⟩
      obtain ⟨s, hs, rfl⟩ := List.mem_map.1 ha
      exact hnew s hs (beq_iff_eq.2 (hab.trans (List.mem_singleton.1 hb)))
    obtain ⟨hn', hps, ht'⟩ := ih (t := { t with methods := t.methods ++ [c.signature d] }) hcls hn₁ h
    refine ⟨hn', List.forall_mem_cons.2 ⟨hp, hps⟩, ?_⟩
    rw [ht', List.map_cons, List.append_assoc, List.singleton_append]

/-- What the symbol table of a program holds. -/
theorem build_spec {t : Symbols} (h : build c.program = .ok t) :
    t.cls = c.cls.name ∧ t.fields = c.cls.fields.map (symbolOf c.cls.name) ∧
      t.methods = c.cls.methods.map c.signature ∧ (c.cls.methods.map MethodDecl.name).Nodup ∧
      ∀ d ∈ c.cls.methods, misplacedVarargs? d.params = none := by
  obtain ⟨hn, hps, ht⟩ := foldlM_addMethod_eq_ok (c := c) (by rfl) (by exact List.nodup_nil) h
  have hmethods : t.methods = c.cls.methods.map c.signature := by
    rw [ht]
    rfl
  refine ⟨by rw [ht]; rfl, by rw [ht]; rfl, hmethods, ?_, hps⟩
  rw [hmethods, List.map_map] at hn
  exact hn

theorem find?_map_symbolOf (cls name : Text) (ds : List VarDecl) :
    (ds.map (symbolOf cls)).find? (·.name == name) =
      (ds.find? (·.name == name)).map (symbolOf cls) := by
  rw [List.find?_map]
  rfl

end Symbols

variable {t : Symbols}

/-- **The symbol table of a program describes each of its methods.** -/
theorem describes_of_build {c : Context} (h : Symbols.build c.program = .ok t)
    (hm : c.method ∈ c.cls.methods) :
    t.method? c.method.name = some (c.signature c.method) ∧
      Describes { table := t, sig := c.signature c.method } c := by
  obtain ⟨hcls, hfields, hmethods, hn, hps⟩ := Symbols.build_spec h
  have hmethod : ∀ name, t.method? name = (c.method? name).map c.signature := by
    intro name
    rw [Symbols.method?, hmethods, List.find?_map]
    rfl
  refine ⟨?_, hcls, rfl, fun name ↦ ?_, hmethod, ?_⟩
  · -- no other method has the name of this one
    have hfind : c.method? c.method.name = some c.method := by
      rw [Context.method?]
      cases hf : c.cls.methods.find? (·.name == c.method.name) with
      | none => exact absurd (List.find?_eq_none.1 hf c.method hm) (by simp)
      | some d =>
        have hname : d.name = c.method.name := by simpa using List.find?_some hf
        rw [List.inj_on_of_nodup_map hn (List.mem_of_find?_eq_some hf) hm hname]
    rw [hmethod, hfind, Option.map_some]
  · rw [Scope.lookup, Symbols.field?, hfields, Symbols.find?_map_symbolOf, Context.resolve,
      Option.filter_map]
    simp only [Signature.param?, Signature.local?, Context.signature, Symbols.find?_map_symbolOf]
    have hfilter : (c.cls.fields.find? (·.name == name)).filter ((fun f ↦ f.isStatic ||
        !c.method.isStatic) ∘ Symbols.symbolOf c.cls.name) =
        (c.cls.fields.find? (·.name == name)).filter fun f ↦ f.isStatic || !c.method.isStatic := rfl
    rw [hfilter]
    cases (c.cls.fields.find? (·.name == name)).filter fun f ↦ f.isStatic || !c.method.isStatic with
    | some f => rfl
    | none =>
      simp only [Option.map_none]
      cases c.method.params.find? (·.name == name) with
      | some p => rfl
      | none =>
        cases c.method.locals.find? (·.name == name) with
        | some l => rfl
        | none => rfl
  · rintro d ⟨name, hd⟩
    exact Symbols.any_varargs_of_misplacedVarargs? (hps d (List.mem_of_find?_eq_some hd))

/-! ## Variables -/

/-- A name that stands for a variable is the name of a parameter or of a local. -/
theorem Scope.lookup_eq_var {t : Scope} {name : Text} {v : Symbol}
    (hv : t.lookup name = some (.var v)) :
    v.name = name ∧ (v ∈ t.sig.params ∨ v ∈ t.sig.locals) := by
  rw [Scope.lookup] at hv
  split at hv
  · cases hv
  · obtain ⟨w, hw, ⟨⟩⟩ := Option.map_eq_some_iff.1 hv
    rcases Option.or_eq_some_iff.1 hw with hp | ⟨-, hl⟩
    · exact ⟨by simpa using List.find?_some hp, .inl (List.mem_of_find?_eq_some hp)⟩
    · exact ⟨by simpa using List.find?_some hl, .inr (List.mem_of_find?_eq_some hl)⟩

namespace Lowering

/-- A parameter as a variable. -/
def paramVar (p : Symbol) : Variable := { name := p.name, ty := p.ty, kind := .param }

/-- A local as a variable. -/
def localVar (l : Symbol) : Variable := { name := l.name, ty := l.ty, kind := .declared }

/-- The receiver and the parameters of a method as variables. -/
def frontVars (t : Scope) : List Variable :=
  (if t.sig.isStatic then [] else [receiverVar t.table]) ++ t.sig.params.map paramVar

/-- The table holds the variables that a method declares: the receiver and the parameters, and the
first local of each name that is not taken. -/
structure Declares (t : Scope) (vars : VarTable) : Prop where
  front : ∃ rest, vars.vars = frontVars t ++ rest ∧
    ∀ x ∈ rest, ∃ l, t.sig.local? x.name = some l ∧ x = localVar l
  locals : ∀ l ∈ t.sig.locals, vars.contains l.name = true

variable {σ σ' : LowerState}

theorem run_within_eq_ok {α : Type} {place : String} {step : LowerM α} {a : α} :
    (LowerM.within place step).run σ = (.ok a, σ') ↔ step.run σ = (.ok a, σ') := by
  have hw : (LowerM.within place step).run σ =
      (withinPlace place (step.run σ).1, (step.run σ).2) := rfl
  rw [hw, Prod.ext_iff, Prod.ext_iff]
  exact and_congr_left fun _ ↦ withinPlace_eq_ok

theorem contains_push {vars : VarTable} {v : Variable} {h : vars.contains v.name = false}
    {name : Text} : (vars.push v h).contains name = true ↔
      vars.contains name = true ∨ v.name = name := by
  rw [VarTable.contains_iff, VarTable.contains_iff, VarTable.push, List.map_append, List.mem_append]
  simp [eq_comm]

theorem declareParams_spec {ps : List Symbol} {u : Unit}
    (h : (ps.forM fun p ↦ LowerM.within "param" (LowerM.declare
      { name := p.name, ty := p.ty, kind := .param })).run σ = (.ok u, σ')) :
    σ'.vars.vars = σ.vars.vars ++ ps.map paramVar := by
  induction ps generalizing σ with
  | nil =>
    cases h
    simp
  | cons p ps ih =>
    obtain ⟨_, σ₁, hp, h⟩ := LowerM.run_bind_eq_ok.1 h
    obtain ⟨hv, rfl⟩ := LowerM.run_declare_eq_ok (run_within_eq_ok.1 hp)
    rw [ih h, List.map_cons, VarTable.push, List.append_assoc]
    rfl

/-- A local is declared if its name is not taken, and the table has its name in any case. -/
theorem declareLocals_spec {ls : List Symbol} {u : Unit} (h : (declareLocals ls).run σ = (.ok u, σ')) :
    (∃ rest, σ'.vars.vars = σ.vars.vars ++ rest ∧
      ∀ x ∈ rest, σ.vars.contains x.name = false ∧
        ∃ l, ls.find? (·.name == x.name) = some l ∧ x = localVar l) ∧
      ∀ l ∈ ls, σ'.vars.contains l.name = true := by
  induction ls generalizing σ with
  | nil =>
    cases h
    exact ⟨⟨[], by simp, by simp⟩, by simp⟩
  | cons l ls ih =>
    have hget : (declareLocals (l :: ls)).run σ = (if σ.vars.contains l.name then declareLocals ls
        else do
          LowerM.declare (localVar l)
          declareLocals ls).run σ := rfl
    rw [hget] at h
    cases hl : σ.vars.contains l.name with
    | true =>
      rw [hl, if_pos rfl] at h
      obtain ⟨⟨rest, hrest, hx⟩, hall⟩ := ih h
      have hhas : σ'.vars.contains l.name = true := by
        rw [VarTable.contains_iff] at hl ⊢
        rw [hrest, List.map_append]
        exact List.mem_append_left _ hl
      refine ⟨⟨rest, hrest, fun x hmem ↦ ?_⟩, List.forall_mem_cons.2 ⟨hhas, hall⟩⟩
      obtain ⟨hnew, l', hfind, hx⟩ := hx x hmem
      refine ⟨hnew, l', ?_, hx⟩
      rw [List.find?_cons_of_neg, hfind]
      intro hname
      rw [beq_iff_eq.1 hname, hnew] at hl
      cases hl
    | false =>
      rw [hl, if_neg Bool.false_ne_true] at h
      obtain ⟨_, σ₁, hdeclare, h⟩ := LowerM.run_bind_eq_ok.1 h
      obtain ⟨hv, rfl⟩ := LowerM.run_declare_eq_ok hdeclare
      obtain ⟨⟨rest, hrest, hx⟩, hall⟩ := ih h
      have hrest' : σ'.vars.vars = σ.vars.vars ++ localVar l :: rest := by
        rw [hrest, VarTable.push, List.append_assoc]
        rfl
      have hhas : σ'.vars.contains l.name = true := by
        rw [VarTable.contains_iff, hrest']
        simp [localVar]
      refine ⟨⟨localVar l :: rest, hrest', List.forall_mem_cons.2 ⟨⟨hl, l, ?_, rfl⟩, ?_⟩⟩,
        List.forall_mem_cons.2 ⟨hhas, hall⟩⟩
      · exact List.find?_cons_of_pos (beq_iff_eq.2 rfl)
      · intro x hmem
        obtain ⟨hnew, l', hfind, hx⟩ := hx x hmem
        rw [Bool.eq_false_iff, Ne, contains_push, not_or] at hnew
        refine ⟨Bool.eq_false_iff.2 hnew.1, l', ?_, hx⟩
        rw [List.find?_cons_of_neg, hfind]
        rw [beq_iff_eq]
        exact hnew.2

/-- What a method declares before its body. -/
theorem declareVars_spec {t : Scope} {u : Unit} (h : (declareVars t).run σ = (.ok u, σ')) :
    Declares t σ'.vars := by
  obtain ⟨_, σ₁, hempty, h⟩ := LowerM.run_bind_eq_ok.1 h
  cases hempty
  -- the receiver comes first, if there is one
  obtain ⟨σ₂, hthis, h⟩ : ∃ σ₂, σ₂.vars.vars =
      (if t.sig.isStatic then [] else [receiverVar t.table]) ∧ (do
        t.sig.params.forM fun p ↦
          LowerM.within "param" (LowerM.declare { name := p.name, ty := p.ty, kind := .param })
        declareLocals t.sig.locals).run σ₂ = (.ok u, σ') := by
    cases hs : t.sig.isStatic with
    | true =>
      rw [hs] at h
      exact ⟨_, rfl, h⟩
    | false =>
      rw [hs] at h
      obtain ⟨_, σ₂, hdeclare, h⟩ := LowerM.run_bind_eq_ok.1 h
      obtain ⟨hv, rfl⟩ := LowerM.run_declare_eq_ok hdeclare
      exact ⟨_, rfl, h⟩
  obtain ⟨_, σ₃, hparams, h⟩ := LowerM.run_bind_eq_ok.1 h
  have hfront : σ₃.vars.vars = frontVars t := by rw [declareParams_spec hparams, hthis, frontVars]
  obtain ⟨⟨rest, hrest, hx⟩, hall⟩ := declareLocals_spec h
  refine ⟨⟨rest, by rw [hrest, hfront], fun x hmem ↦ (hx x hmem).2⟩, hall⟩

section
variable {t : Scope} {vars : VarTable} (h : Declares t vars)
include h

theorem Declares.mem_front {x : Variable} (hx : x ∈ frontVars t) : x ∈ vars.vars := by
  obtain ⟨rest, hvars, -⟩ := h.front
  rw [hvars]
  exact List.mem_append_left _ hx

/-- There is nothing else in the table. -/
theorem Declares.cases {x : Variable} (hx : x ∈ vars.vars) :
    t.sig.isStatic = false ∧ x = receiverVar t.table ∨ (∃ p ∈ t.sig.params, x = paramVar p) ∨
      ∃ l ∈ t.sig.locals, x = localVar l := by
  obtain ⟨rest, hvars, hlocals⟩ := h.front
  rw [hvars, frontVars, List.mem_append, List.mem_append] at hx
  rcases hx with (hx | hx) | hx
  · split at hx
    · cases hx
    · rename_i hs
      exact .inl ⟨Bool.eq_false_iff.2 hs, List.mem_singleton.1 hx⟩
  · obtain ⟨p, hp, rfl⟩ := List.mem_map.1 hx
    exact .inr (.inl ⟨p, hp, rfl⟩)
  · obtain ⟨l, hl, rfl⟩ := hlocals x hx
    exact .inr (.inr ⟨l, List.mem_of_find?_eq_some hl, rfl⟩)

theorem Declares.receiver (hs : t.sig.isStatic = false) :
    vars.get? Method.receiver = some (receiverVar t.table) :=
  VarTable.get?_eq_some_iff.2 ⟨h.mem_front (by simp [frontVars, hs]), rfl⟩

theorem Declares.param {p : Symbol} (hp : p ∈ t.sig.params) :
    vars.get? p.name = some (paramVar p) :=
  VarTable.get?_eq_some_iff.2
    ⟨h.mem_front (List.mem_append_right _ (List.mem_map.2 ⟨p, hp, rfl⟩)), rfl⟩

/-- No parameter of an instance method has the name of the receiver. -/
theorem Declares.param_ne_receiver (hs : t.sig.isStatic = false) {p : Symbol} (hp : p ∈ t.sig.params) :
    p.name ≠ Method.receiver := by
  intro hname
  have hkind := h.param hp
  rw [hname, h.receiver hs] at hkind
  cases congrArg Variable.kind (Option.some.inj hkind)

/-- A variable that the source can name is in the table. -/
theorem Declares.contains_of_lookup {name : Text} {v : Symbol} (hv : t.lookup name = some (.var v)) :
    vars.contains name = true := by
  obtain ⟨rfl, hp | hl⟩ := Scope.lookup_eq_var hv
  · exact VarTable.contains_iff_get?.2 ⟨_, h.param hp⟩
  · exact h.locals v hl

end

/-! ## Methods -/

/-- The steps that a method is lowered by: its variables are declared, its body is lowered, and a
return is added where it is missing. -/
structure LoweredBy (t : Scope) (d : MethodDecl) (m : Method) (σ σ' : LowerState) (f : Fragment) :
    Prop where
  declares : Declares t σ.vars
  body : (lowerStmts t d.body).run σ = (.ok f, σ')
  name : m.name = d.name
  isStatic : m.isStatic = t.sig.isStatic
  params : m.params = t.sig.params.map fun p ↦ { name := p.name, ty := p.ty }
  varargs : m.varargs = t.sig.varargs
  ret : m.ret = t.sig.ret
  code : m.code = (close t.sig.ret f).code
  labels : m.labels.entries = (close t.sig.ret f).labels.map fun (name, i) ↦ (name, (i : Int))
  vars : m.vars = σ'.vars

theorem method_spec {t : Symbols} {d : MethodDecl} {m : Method} (h : (method t d).run σ = (.ok m, σ')) :
    ∃ sig σ₁ f, t.method? d.name = some sig ∧ LoweredBy { table := t, sig } d m σ₁ σ' f := by
  rw [method] at h
  cases hsig : t.method? d.name with
  | none =>
    rw [hsig] at h
    cases h
  | some sig =>
    simp only [hsig] at h
    obtain ⟨_, σ₁, hdeclare, h⟩ := LowerM.run_bind_eq_ok.1 h
    obtain ⟨f, σ₂, hbody, h⟩ := LowerM.run_bind_eq_ok.1 h
    obtain ⟨labels, σ₃, hlabels, h⟩ := LowerM.run_bind_eq_ok.1 h
    obtain ⟨rfl, htable⟩ := LowerM.run_lift_eq_ok.1 hlabels
    cases h
    exact ⟨sig, σ₁, f, rfl, declareVars_spec hdeclare, hbody, rfl, rfl, rfl, rfl, rfl, rfl,
      Labels.ofList_eq_ok.1 htable, rfl⟩

/-- The methods of a program are lowered one after another. -/
theorem mapM_eq_ok {α β : Type} {step : α → LowerM β} {xs : List α} {ys : List β}
    (h : (xs.mapM step).run σ = (.ok ys, σ')) :
    List.Forall₂ (fun x y ↦ ∃ σ₁ σ₂, (step x).run σ₁ = (.ok y, σ₂)) xs ys := by
  induction xs generalizing σ ys with
  | nil =>
    cases h
    exact .nil
  | cons x xs ih =>
    rw [List.mapM_cons] at h
    obtain ⟨y, σ₁, hy, h⟩ := LowerM.run_bind_eq_ok.1 h
    obtain ⟨ys', σ₂, hys, h⟩ := LowerM.run_bind_eq_ok.1 h
    obtain ⟨rfl, rfl⟩ := LowerM.run_pure_eq_ok.1 h
    exact .cons ⟨σ, σ₁, hy⟩ (ih hys)

end Lowering

theorem run_of_lowerProgram {p : Program} {fresh fresh' : Fresh} {r : Except Error ClassDef}
    (h : lowerProgram t (some p) fresh = (r, fresh')) :
    ∃ σ', (Lowering.cls t p).run { fresh } = (r, σ') := by
  have hfst : ((Lowering.cls t p).run { fresh }).1 = r := congrArg Prod.fst h
  exact ⟨_, Prod.ext hfst rfl⟩

/-- **The class of a program in intermediate code**: a constructor, and each method as it is
lowered. -/
theorem lowerProgram_spec {p : Program} {fresh fresh' : Fresh} {cls : ClassDef}
    (h : lowerProgram t (some p) fresh = (.ok cls, fresh')) :
    ∃ ms, cls = { Lowering.header t with methods := Lowering.constructor t :: ms } ∧
      List.Forall₂ (fun d m ↦ ∃ σ σ', (Lowering.method t d).run σ = (.ok m, σ')) p.cls.methods ms := by
  obtain ⟨σ', hrun⟩ := run_of_lowerProgram h
  obtain ⟨ms, σ₁, hms, hrun⟩ := LowerM.run_bind_eq_ok.1 hrun
  obtain ⟨rfl, rfl⟩ := LowerM.run_pure_eq_ok.1 hrun
  refine ⟨ms, rfl, (Lowering.mapM_eq_ok hms).imp ?_⟩
  rintro d m ⟨σ₁, σ₂, hm⟩
  exact ⟨σ₁, σ₂, Lowering.run_within_eq_ok.1 hm⟩

end MiniJava
