import MiniJava.Proofs.Declarations
import MiniJava.Proofs.MirroredLowering

/-!
# Classes from two contexts

A program is lowered from two contexts, that is, from any numbers of temporaries and labels.  Both runs
stop with the same error, or they give the same class but for the names of temporaries and labels
(`lowerProgram_mirror`).

`MethodMirror` is what is known of two methods then, and of each by itself: its labels are closed, and its
table holds what the method declares and temporaries (`Framed`).  Nothing is asked of the program or of its
symbol table.
-/

set_option autoImplicit false

namespace MiniJava

open IR

/-- A method that is what a closed fragment is made into, over the variables that are declared for it
and temporaries. -/
structure Framed (t : Scope) (m : Method) : Prop where
  closed : ∃ (f : Fragment) (lo hi : Nat), f.Closed lo hi ∧ m.code = f.code ∧
    m.labels.entries = f.labels.map fun (name, i) ↦ (name, (i : Int))
  vars : ∃ vars, Lowering.Declares t vars ∧ AddsTemps vars m.vars
  isStatic : m.isStatic = t.sig.isStatic
  params : m.params = t.sig.params.map fun p ↦ { name := p.name, ty := p.ty }

theorem SameVar.refl (v : Variable) : SameVar v v := ⟨rfl, rfl, rfl, fun _ ↦ rfl⟩

/-- **Two methods of one declaration**, which differ in names only. -/
structure MethodMirror (t : Scope) (lo lo' : Nat) (m n : Method) : Prop where
  same : n = { m with code := n.code, labels := n.labels, vars := n.vars }
  vars : List.Forall₂ SameVar m.vars.vars n.vars.vars
  code : List.Forall₂ (InstrMirror t.table False (PairedAs t m.vars n.vars) (LabelPair lo lo')) m.code
    n.code
  labels : List.Forall₂ (fun a b ↦ LabelPair lo lo' a.1 b.1 ∧ a.2 = b.2) m.labels.entries
    n.labels.entries
  framed : Framed t m
  temps : ∃ vars, Lowering.Declares t vars ∧ AddsTemps vars n.vars

/-- The signature is in the table, or it is that of a method which declares nothing. -/
def Symbols.Lists (t : Symbols) (sig : Signature) : Prop :=
  sig ∈ t.methods ∨ sig.params = [] ∧ sig.locals = []

/-- Two classes of one program. -/
structure ClassMirror (t : Symbols) (lo lo' : Nat) (c d : ClassDef) : Prop where
  same : d = { c with methods := d.methods }
  methods : List.Forall₂ (fun m n ↦ ∃ sig, t.Lists sig ∧ MethodMirror { table := t, sig } lo lo' m n)
    c.methods d.methods

namespace Both

variable {α β : Type}

theorem forM {I : LowerState → LowerState → Prop} {f : α → LowerM Unit} {xs : List α}
    (h : ∀ x ∈ xs, ∀ σ τ, I σ τ → Both σ τ (f x) (f x) fun _ _ ↦ I) {σ τ : LowerState} (hi : I σ τ) :
    Both σ τ (xs.forM f) (xs.forM f) fun _ _ ↦ I := by
  induction xs generalizing σ τ with
  | nil => exact .pure hi
  | cons x xs ih =>
    exact (h x (by simp) σ τ hi).bind fun _ _ _ _ hi' ↦ ih (fun y hy ↦ h y (by simp [hy])) hi'

theorem mapM {I : LowerState → LowerState → Prop} {R : β → β → Prop} {f : α → LowerM β} {xs : List α}
    (h : ∀ x ∈ xs, ∀ σ τ, I σ τ → Both σ τ (f x) (f x) fun a b σ' τ' ↦ R a b ∧ I σ' τ')
    {σ τ : LowerState} (hi : I σ τ) :
    Both σ τ (xs.mapM f) (xs.mapM f) fun as bs _ _ ↦ List.Forall₂ R as bs := by
  induction xs generalizing σ τ with
  | nil => exact .pure .nil
  | cons x xs ih =>
    rw [List.mapM_cons]
    refine (h x (by simp) σ τ hi).bind ?_
    rintro a b σ₁ τ₁ ⟨hab, hi₁⟩
    refine (ih (fun y hy ↦ h y (by simp [hy])) hi₁).bind ?_
    exact fun as bs _ _ habs ↦ .pure (.cons hab habs)

end Both

namespace Lowering

/-! ## Declarations -/

/-- The tables of two states are the same, and the numbers are those of two other states. -/
structure Restarts (σ τ σ' τ' : LowerState) : Prop where
  vars : σ'.vars = τ'.vars
  left : σ'.fresh = σ.fresh
  right : τ'.fresh = τ.fresh

section
variable {σ τ σ₁ τ₁ : LowerState}

theorem declare_both (h : Restarts σ τ σ₁ τ₁) (v : Variable) :
    Both σ₁ τ₁ (LowerM.declare v) (LowerM.declare v) fun _ _ ↦ Restarts σ τ := by
  rw [Both, run_declare, run_declare, ← h.vars]
  by_cases hv : σ₁.vars.contains v.name = false
  · rw [VarTable.add, dif_pos hv]
    exact ⟨rfl, h.left, h.right⟩
  · rw [VarTable.add, dif_neg hv]
    exact ⟨rfl, fun _ h ↦ by cases h⟩

theorem declareLocals_both (ls : List Symbol) (h : Restarts σ τ σ₁ τ₁) :
    Both σ₁ τ₁ (declareLocals ls) (declareLocals ls) fun _ _ ↦ Restarts σ τ := by
  induction ls generalizing σ₁ τ₁ with
  | nil => exact .pure h
  | cons l ls ih =>
    have hget (ρ : LowerState) : (declareLocals (l :: ls)).run ρ =
        (if ρ.vars.contains l.name then declareLocals ls
        else do
          LowerM.declare (localVar l)
          declareLocals ls).run ρ := rfl
    rw [Both, hget, hget, ← h.vars, ← Both]
    split
    · exact ih h
    · exact (declare_both h _).bind fun _ _ _ _ h₂ ↦ ih h₂

/-- What a method declares does not depend on the state. -/
theorem declareVars_both (t : Scope) : Both σ τ (declareVars t) (declareVars t) fun _ _ σ' τ' ↦
    Restarts σ τ σ' τ' ∧ Declares t σ'.vars := by
  have hparams {σ₁ τ₁ : LowerState} (h : Restarts σ τ σ₁ τ₁) : Both σ₁ τ₁
      (do
        t.sig.params.forM fun p ↦
          LowerM.within "param" (LowerM.declare { name := p.name, ty := p.ty, kind := .param })
        declareLocals t.sig.locals)
      (do
        t.sig.params.forM fun p ↦
          LowerM.within "param" (LowerM.declare { name := p.name, ty := p.ty, kind := .param })
        declareLocals t.sig.locals) fun _ _ ↦ Restarts σ τ := by
    refine (Both.forM (fun p _ _ _ h ↦ ?_) h).bind fun _ _ _ _ h₂ ↦ declareLocals_both _ h₂
    exact (declare_both h _).within _
  have hall : Both σ τ (declareVars t) (declareVars t) fun _ _ ↦ Restarts σ τ := by
    refine Both.bind (P := fun _ _ ↦ Restarts σ τ) ⟨rfl, rfl, rfl⟩ fun _ _ σ₁ τ₁ h ↦ ?_
    cases t.sig.isStatic with
    | true => exact hparams h
    | false => exact (declare_both h _).bind fun _ _ _ _ h₂ ↦ hparams h₂
  rcases hall.error_or_ok with ⟨e, σ', τ', hσ, hτ, he⟩ | ⟨_, _, σ', τ', hσ, hτ, h⟩
  · exact .of_error hσ hτ he
  · exact .of_ok hσ hτ ⟨h, declareVars_spec hσ⟩

end

theorem pairedIn_self {vars : VarTable} {name : Text} (h : vars.contains name = true) :
    PairedIn vars vars name name := by
  obtain ⟨i, hi⟩ := List.mem_iff_getElem?.1 (VarTable.contains_iff.1 h)
  exact ⟨i, hi, hi⟩

/-- The variables that a method declares are known with the types that the source gives them. -/
theorem Declares.equipped {t : Scope} {vars : VarTable} (h : Declares t vars) : Equipped t vars where
  self hs := ⟨_, h.receiver hs, .inl rfl⟩
  var := by
    intro name v hv
    rw [Scope.lookup] at hv
    split at hv
    · cases hv
    · obtain ⟨w, hw, ⟨⟩⟩ := Option.map_eq_some_iff.1 hv
      rcases Option.or_eq_some_iff.1 hw with hp | ⟨hp, hl⟩
      · obtain rfl : v.name = name := by simpa using List.find?_some hp
        exact ⟨_, h.param (List.mem_of_find?_eq_some hp), .inl rfl⟩
      · obtain hname : v.name = name := by simpa using List.find?_some hl
        have hmem : v ∈ t.sig.locals := List.mem_of_find?_eq_some hl
        obtain ⟨x, hx⟩ := VarTable.contains_iff_get?.1 (hname ▸ h.locals v hmem)
        refine ⟨x, hx, ?_⟩
        obtain ⟨hxmem, hxname⟩ := VarTable.get?_eq_some_iff.1 hx
        obtain ⟨rest, hrest, hlocals⟩ := h.front
        rw [hrest, frontVars, List.mem_append, List.mem_append] at hxmem
        rcases hxmem with (hself | hparam) | hlocal
        · -- the local has the name of the receiver
          split at hself
          · cases hself
          · rename_i hs
            rw [List.mem_singleton.1 hself] at hxname
            exact .inr ⟨Bool.eq_false_iff.2 hs, v, hmem, hname.trans hxname.symm⟩
        · obtain ⟨p, hpmem, rfl⟩ := List.mem_map.1 hparam
          exact absurd (beq_iff_eq.2 hxname) (List.find?_eq_none.1 hp p hpmem)
        · obtain ⟨l, hlfind, rfl⟩ := hlocals x hlocal
          rw [hxname, hl] at hlfind
          cases hlfind
          exact .inl rfl

variable {lo lo' : Nat} {σ τ : LowerState}

/-- The states stand side by side when the variables of a method are declared. -/
theorem beside_of_declares {t : Scope} (hd : Declares t σ.vars) (hvars : σ.vars = τ.vars)
    (hl : ∃ k, σ.fresh.labels = lo + k ∧ τ.fresh.labels = lo' + k) :
    Beside t lo lo' σ τ where
  labels := hl
  vars := by
    rw [hvars]
    exact List.forall₂_same.2 fun v _ ↦ .refl v
  self hs := by
    rw [← hvars]
    exact ⟨pairedIn_self (VarTable.contains_iff_get?.2 ⟨_, hd.receiver hs⟩), hd.equipped.self hs⟩
  var name v hv := by
    rw [← hvars]
    exact ⟨pairedIn_self (hd.contains_of_lookup hv), hd.equipped.var name v hv⟩

theorem beside_self {t : Scope} (hd : Declares t σ.vars) :
    Beside t σ.fresh.labels σ.fresh.labels σ σ :=
  beside_of_declares hd rfl ⟨0, rfl, rfl⟩

/-! ## Methods -/

theorem close_both {t : Scope} {N : Prop} {σ τ σ' τ' : LowerState} {f g : Fragment}
    (h : LowersBoth t N lo lo' σ τ f g σ' τ') (ret : Ty) :
    LowersBoth t N lo lo' σ τ (close ret f) (close ret g) σ' τ' := by
  rw [close, close, ← h.mirror.endsWithReturn_eq]
  split
  · exact h.append (h.beside.instr (.retVoid .void) rfl)
  · exact h

/-- Labels with their indices as integers. -/
theorem mirror_entries {L : Text → Text → Prop} {ls ks : List (Text × Nat)}
    (h : List.Forall₂ (fun a b ↦ L a.1 b.1 ∧ a.2 = b.2) ls ks) :
    List.Forall₂ (fun a b ↦ L a.1 b.1 ∧ a.2 = b.2) (ls.map fun (name, i) ↦ (name, (i : Int)))
      (ks.map fun (name, i) ↦ (name, (i : Int))) := by
  refine List.rel_map ?_ h
  rintro ⟨a, i⟩ ⟨b, _⟩ ⟨hab, rfl⟩
  exact ⟨hab, rfl⟩

/-- The mirror of labels without repetition has none either. -/
theorem nodup_of_mirror {L : Text → Text → Prop} (hL : Relator.BiUnique L) {ls ks : List (Text × Nat)}
    (h : List.Forall₂ (fun a b ↦ L a.1 b.1 ∧ a.2 = b.2) ls ks) (hn : (ls.map Prod.fst).Nodup) :
    (ks.map Prod.fst).Nodup := by
  induction h with
  | nil => exact List.nodup_nil
  | @cons a b ls ks hab hrest ih =>
    rw [List.map_cons, List.nodup_cons] at hn ⊢
    refine ⟨fun hmem ↦ hn.1 ?_, ih hn.2⟩
    obtain ⟨k, hk, hname⟩ := List.mem_map.1 hmem
    obtain ⟨l, hl, hlk, -⟩ := exists_of_mem_right hrest hk
    rw [hname] at hlk
    rw [hL.1 hab.1 hlk]
    exact List.mem_map_of_mem hl

/-- **A method is lowered alike from any two states.** -/
theorem method_both (t : Symbols) (d : MethodDecl)
    (hl : ∃ k, σ.fresh.labels = lo + k ∧ τ.fresh.labels = lo' + k) :
    Both σ τ (method t d) (method t d) fun m n σ' τ' ↦
      (∃ sig, t.Lists sig ∧ MethodMirror { table := t, sig } lo lo' m n) ∧
        ∃ k, σ'.fresh.labels = lo + k ∧ τ'.fresh.labels = lo' + k := by
  rw [method]
  cases hsig : t.method? d.name with
  | none => exact .throw fun _ h ↦ by cases h
  | some sig =>
    dsimp only
    refine (declareVars_both { table := t, sig }).bind ?_
    rintro _ _ σ₁ τ₁ ⟨hrestart, hdecl⟩
    have hb : Beside { table := t, sig } lo lo' σ₁ τ₁ :=
      beside_of_declares hdecl hrestart.vars (by rwa [hrestart.left, hrestart.right])
    refine (stmts_mirror (fun s _ ↦ s.lower_mirror False.elim False.elim) σ₁ τ₁ hb).bind ?_
    intro f g σ₂ τ₂ hbody
    have hclose := close_both hbody sig.ret
    -- no label is placed twice, in either run
    have hn := hclose.closed.numbered.nodup
    have hn' := nodup_of_mirror (LabelPair.biUnique lo lo') hclose.mirror.labels hn
    have hentries (ls : List (Text × Nat)) (h : (ls.map Prod.fst).Nodup) :
        ((ls.map fun (name, i) ↦ (name, (i : Int))).map Prod.fst).Nodup := by
      rw [List.map_map]
      exact h
    have hlabels (ls : List (Text × Nat)) (h : (ls.map Prod.fst).Nodup) :
        Labels.ofList (ls.map fun (name, i) ↦ (name, (i : Int))) = .ok ⟨_, hentries ls h⟩ :=
      Labels.ofList_eq_ok.2 rfl
    rw [hlabels _ hn, hlabels _ hn']
    have hlists : t.Lists sig := .inl (List.mem_of_find?_eq_some hsig)
    refine .of_ok rfl rfl ⟨⟨sig, hlists, rfl, hbody.beside.vars, hclose.mirror.code,
      mirror_entries hclose.mirror.labels, ?_, τ₁.vars, hrestart.vars ▸ hdecl, hbody.right⟩,
      hbody.beside.labels⟩
    exact ⟨⟨_, _, _, hclose.closed, rfl, rfl⟩, ⟨_, hdecl, hbody.left⟩, rfl, rfl⟩

/-! ## Classes -/

/-- The constructor is a method without parameters and locals. -/
theorem framed_constructor (t : Symbols) :
    Framed { table := t, sig := { name := "<init>", ret := .void } } (Lowering.constructor t) :=
  ⟨⟨.instrs _, 0, 0, .plain (Nat.le_refl 0) rfl rfl, rfl, rfl⟩,
    ⟨_, ⟨⟨[], rfl, by simp⟩, by simp⟩, .refl _⟩, rfl, rfl⟩

/-- The constructor is the same in both runs. -/
theorem constructor_mirror (t : Symbols) (lo lo' : Nat) : MethodMirror
    { table := t, sig := { name := "<init>", ret := .void } } lo lo' (constructor t) (constructor t) := by
  have hself : PairedAs { table := t, sig := { name := "<init>", ret := .void } } (constructor t).vars
      (constructor t).vars (.receiver t.cls) Method.receiver Method.receiver :=
    ⟨⟨0, rfl, rfl⟩, _, rfl, .inl rfl⟩
  refine ⟨rfl, List.forall₂_same.2 fun v _ ↦ .refl v, ?_, .nil, framed_constructor t,
    (framed_constructor t).vars⟩
  refine .cons (.call (.method (by simp) (.var hself) "" "<init>" .nil .void ?_))
    (.cons (.retVoid .void) .nil)
  exact agrees_init _ _

theorem cls_both (t : Symbols) (p : Program)
    (hl : ∃ k, σ.fresh.labels = lo + k ∧ τ.fresh.labels = lo' + k) :
    Both σ τ (cls t p) (cls t p) fun c d _ _ ↦ ClassMirror t lo lo' c d := by
  refine (Both.mapM (fun d _ _ _ h ↦ (method_both t d h).within _) hl).bind ?_
  intro ms ns _ _ h
  exact .pure ⟨rfl, .cons ⟨_, .inr ⟨rfl, rfl⟩, constructor_mirror t lo lo'⟩ h⟩

end Lowering

/-- **Lowering does not depend on the numbers it starts from**: it fails with the same error, or gives
the same class but for the names of temporaries and labels. -/
theorem lowerProgram_mirror (t : Symbols) (p : Option Program) (fresh fresh' : Fresh) :
    SameOutcome (ClassMirror t fresh.labels fresh'.labels) (lowerProgram t p fresh).1
      (lowerProgram t p fresh').1 := by
  cases p with
  | none => exact .error _
  | some p =>
    have hboth : Both { fresh } { fresh := fresh' } (Lowering.cls t p) (Lowering.cls t p)
        fun c d _ _ ↦ ClassMirror t fresh.labels fresh'.labels c d :=
      Lowering.cls_both t p ⟨0, rfl, rfl⟩
    have hrun (f : Fresh) : (lowerProgram t (some p) f).1 = ((Lowering.cls t p).run { fresh := f }).1 :=
      rfl
    rw [hrun, hrun]
    rcases hboth.error_or_ok with ⟨e, σ', τ', hσ, hτ, -⟩ | ⟨c, d, σ', τ', hσ, hτ, h⟩
    · rw [hσ, hτ]
      exact .error e
    · rw [hσ, hτ]
      exact .ok h

end MiniJava
