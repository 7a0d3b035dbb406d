import MiniJava.Lowering.Expr
import MiniJava.Proofs.SourceMeaning
import MiniJava.Proofs.Tables

/-!
# Running fragments

A fragment of intermediate code does what it does wherever it is placed in a method.  `Delivers` says
what the code of an expression does: from variables that hold what they hold in the source, it carries
out a computation and arrives at its own end, it has changed none of the variables that were there
before it was lowered, and the result is where it is expected.

Code is lowered in steps (`LowerM`) that declare temporaries.  A temporary is new when it is declared,
so what is lowered later does not write what is still wanted: that is all that keeps the operands of an
expression apart from the code of the next one.
-/

set_option autoImplicit false

namespace MiniJava

open IR Source

variable {σ : LowerState}

/-! ## Steps of lowering -/

namespace LowerM

variable {α β : Type}
variable {a : α} {σ' : LowerState}

theorem run_bind_eq_ok {x : LowerM α} {f : α → LowerM β} {σ'' : LowerState} {b : β} :
    (x >>= f).run σ = (.ok b, σ'') ↔
      ∃ a σ', x.run σ = (.ok a, σ') ∧ (f a).run σ' = (.ok b, σ'') := by
  have hb : (x >>= f).run σ = (ExceptT.bindCont f (x.run σ).1 : StateM LowerState _) (x.run σ).2 := rfl
  rw [hb]
  cases hx : x.run σ with
  | mk r σ' =>
    cases r with
    | ok a =>
      constructor
      · exact fun h ↦ ⟨a, σ', rfl, h⟩
      · rintro ⟨a, σ', ⟨⟩, h⟩
        exact h
    | error e =>
      constructor
      · intro h
        cases h
      · rintro ⟨a, σ', ⟨⟩, h⟩

@[simp] theorem run_pure_eq_ok {b : α} : (pure a : LowerM α).run σ = (.ok b, σ') ↔ a = b ∧ σ = σ' := by
  constructor
  · rintro ⟨⟩
    exact ⟨rfl, rfl⟩
  · rintro ⟨rfl, rfl⟩
    rfl

@[simp] theorem run_unsupported {pos : Position} {what : Unsupported} :
    ¬ (unsupported pos what : LowerM α).run σ = (.ok a, σ') := by
  rintro ⟨⟩

@[simp] theorem run_throw {e : Error} : ¬ (throw e : LowerM α).run σ = (.ok a, σ') := by
  rintro ⟨⟩

theorem run_lift_eq_ok {x : Except Error α} :
    (liftM x : LowerM α).run σ = (.ok a, σ') ↔ σ = σ' ∧ x = .ok a := by
  cases x with
  | error e => exact ⟨fun h ↦ (nomatch h), fun h ↦ (nomatch h.2)⟩
  | ok b =>
    constructor
    · rintro ⟨⟩
      exact ⟨rfl, rfl⟩
    · rintro ⟨rfl, ⟨⟩⟩
      rfl

theorem run_declare_eq_ok {v : Variable} {u : Unit} (h : (declare v).run σ = (.ok u, σ')) :
    ∃ hv : σ.vars.contains v.name = false, σ' = { σ with vars := σ.vars.push v hv } := by
  have hd : (declare v).run σ = (do
      let vars ← σ.vars.add v
      set { σ with vars } : LowerM Unit).run σ := rfl
  rw [hd, VarTable.add] at h
  split at h
  · rename_i hv
    cases h
    exact ⟨hv, rfl⟩
  · cases h

end LowerM

/-- A variable has been declared. -/
def LowerState.Has (σ : LowerState) (name : Text) : Prop := σ.vars.contains name = true

/-- Variables are declared and stay. -/
def Grows (σ σ' : LowerState) : Prop := ∀ name, σ.Has name → σ'.Has name

/-- The variables that were declared at some time have kept their values. -/
def Keeps (σ : LowerState) (store store' : Text → Word) : Prop :=
  ∀ name, σ.Has name → store' name = store name

section
variable {σ σ' σ'' : LowerState} {store store' store'' : Text → Word}

theorem Grows.refl (σ : LowerState) : Grows σ σ := fun _ h ↦ h

theorem Grows.trans (h : Grows σ σ') (h' : Grows σ' σ'') : Grows σ σ'' :=
  fun name hn ↦ h' name (h name hn)

theorem Keeps.refl (σ : LowerState) (store : Text → Word) : Keeps σ store store := fun _ _ ↦ rfl

theorem Keeps.trans (h : Keeps σ store store') (h' : Keeps σ store' store'') : Keeps σ store store'' :=
  fun name hn ↦ (h' name hn).trans (h name hn)

theorem Keeps.of_grows (h : Keeps σ' store store') (hg : Grows σ σ') : Keeps σ store store' :=
  fun name hn ↦ h name (hg name hn)

/-- A write to a variable that was not declared. -/
theorem keeps_update {name : Text} (hn : ¬ σ.Has name) (store : Text → Word) (v : Word) :
    Keeps σ store (Function.update store name v) := by
  intro a ha
  refine Function.update_of_ne ?_ _ _
  rintro rfl
  exact hn ha

end

namespace LowerM

variable {σ' : LowerState}

/-- A temporary is new, and declared afterwards. -/
theorem run_tempName_eq_ok {ty : Ty} {name : Text} (h : (tempName ty).run σ = (.ok name, σ')) :
    ¬ σ.Has name ∧ σ'.Has name ∧ Grows σ σ' := by
  obtain ⟨σ₁, σ₂, hget, h⟩ := run_bind_eq_ok.1 h
  cases hget
  obtain ⟨u, σ₃, hset, h⟩ := run_bind_eq_ok.1 h
  cases hset
  obtain ⟨u', σ₄, hd, h⟩ := run_bind_eq_ok.1 h
  obtain ⟨rfl, rfl⟩ := run_pure_eq_ok.1 h
  obtain ⟨hv, rfl⟩ := run_declare_eq_ok hd
  refine ⟨?_, ?_, ?_⟩
  · rw [LowerState.Has, hv]
    exact Bool.false_ne_true
  · simp [LowerState.Has, VarTable.contains, VarTable.push]
  · intro a ha
    rw [LowerState.Has, VarTable.contains_iff] at ha ⊢
    exact List.map_subset _ (List.subset_append_left _ _) ha

theorem run_temp_eq_ok {ty : Ty} {x : Operand} (h : (temp ty).run σ = (.ok x, σ')) :
    ∃ name, x = .var name ty ∧ ¬ σ.Has name ∧ σ'.Has name ∧ Grows σ σ' := by
  obtain ⟨name, σ₁, hname, h⟩ := run_bind_eq_ok.1 h
  obtain ⟨rfl, rfl⟩ := run_pure_eq_ok.1 h
  exact ⟨name, rfl, run_tempName_eq_ok hname⟩

/-- Labels are not variables. -/
theorem run_labelPair_eq_ok {a b : Text} {r : Text × Text} (h : (labelPair a b).run σ = (.ok r, σ')) :
    σ'.vars = σ.vars := by
  cases h
  rfl

theorem run_labelTriple_eq_ok {a b c : Text} {r : Text × Text × Text}
    (h : (labelTriple a b c).run σ = (.ok r, σ')) : σ'.vars = σ.vars := by
  cases h
  rfl

end LowerM

/-! ## Placed fragments -/

/-- A fragment stands in a method, from an index on. -/
structure Placed (m : Method) (base : Nat) (f : Fragment) : Prop where
  code : ∀ i x, f.code[i]? = some x → m.code[base + i]? = some x
  labels : ∀ name i, (name, i) ∈ f.labels → m.target? name = some ((base + i : Nat) : Int)

section
variable {m : Method} {base : Nat}

@[simp] theorem placed_append {s t : Fragment} :
    Placed m base (s ++ t) ↔ Placed m base s ∧ Placed m (base + s.code.length) t := by
  constructor
  · rintro ⟨hcode, hlabels⟩
    refine ⟨⟨fun i x hx ↦ hcode i x ?_, fun name i h ↦ hlabels name i ?_⟩,
      ⟨fun i x hx ↦ ?_, fun name i h ↦ ?_⟩⟩
    · rw [Fragment.code_append, List.getElem?_append_left (List.getElem?_eq_some_iff.1 hx).1, hx]
    · exact List.mem_append_left _ h
    · rw [Nat.add_assoc]
      refine hcode _ x ?_
      rw [Fragment.code_append, List.getElem?_append_right (by omega), Nat.add_sub_cancel_left, hx]
    · rw [Nat.add_assoc]
      exact hlabels name _ (List.mem_append_right _ (List.mem_map.2 ⟨(name, i), h, rfl⟩))
  · rintro ⟨hs, ht⟩
    refine ⟨fun i x hx ↦ ?_, fun name i h ↦ ?_⟩
    · rw [Fragment.code_append, List.getElem?_append] at hx
      split at hx
      · exact hs.code i x hx
      · rename_i hi
        have := ht.code _ x hx
        rwa [Nat.add_assoc, Nat.add_sub_cancel' (Nat.le_of_not_lt hi)] at this
    · rw [Fragment.labels_append, List.mem_append] at h
      rcases h with h | h
      · exact hs.labels name i h
      · obtain ⟨⟨name', i'⟩, hmem, heq⟩ := List.mem_map.1 h
        cases heq
        rw [← Nat.add_assoc]
        exact ht.labels _ _ hmem

@[simp] theorem placed_empty : Placed m base .empty := ⟨by simp [Fragment.empty], by simp [Fragment.empty]⟩

@[simp] theorem placed_instr {x : Instr} : Placed m base (.instr x) ↔ m.code[base]? = some x := by
  constructor
  · exact fun h ↦ h.code 0 x rfl
  · intro h
    refine ⟨fun i y hy ↦ ?_, by simp [Fragment.instr, Fragment.instrs]⟩
    cases i with
    | zero =>
      cases hy
      exact h
    | succ i => cases hy

@[simp] theorem placed_label {name : Text} :
    Placed m base (.label name) ↔ m.target? name = some (base : Int) := by
  constructor
  · exact fun h ↦ h.labels name 0 (by simp [Fragment.label])
  · intro h
    refine ⟨by simp [Fragment.label], fun name' i hmem ↦ ?_⟩
    simp only [Fragment.label, List.mem_singleton, Prod.mk.injEq] at hmem
    obtain ⟨rfl, rfl⟩ := hmem
    exact h

/-- The fragment that a method is made of stands at its start. -/
theorem placed_of_method {f : Fragment} (hcode : m.code = f.code)
    (hlabels : m.labels.entries = f.labels.map fun (name, i) ↦ (name, (i : Int))) : Placed m 0 f := by
  refine ⟨fun i x hx ↦ by rwa [Nat.zero_add, hcode], fun name i hmem ↦ ?_⟩
  rw [Nat.zero_add]
  refine lookup_eq_some_of_mem m.labels.nodup ?_
  rw [hlabels]
  exact List.mem_map.2 ⟨(name, i), hmem, rfl⟩

theorem instrs_cons (x : Instr) (xs : List Instr) :
    Fragment.instrs (x :: xs) = .instr x ++ .instrs xs := rfl

@[simp] theorem length_code_instrs (xs : List Instr) : (Fragment.instrs xs).code.length = xs.length :=
  rfl

@[simp] theorem length_code_instr (x : Instr) : (Fragment.instr x).code.length = 1 := rfl

@[simp] theorem length_code_label (name : Text) : (Fragment.label name).code.length = 0 := rfl

@[simp] theorem length_code_empty : Fragment.empty.code.length = 0 := rfl

end

/-! ## Instructions -/

/-- What an operation of the intermediate code asks of the environment of the source: which class a
method or a field is found in is left to the object. -/
def IR.Operation.effect : Operation → Effect
  | .newObject cls => .newObject cls
  | .newArray ty => .newArray ty
  | .arrayLength => .arrayLength
  | .invoke .static _ cls method _ _ => .callStatic cls method
  | .invoke _ _ _ method _ _ => .callMethod method
  | .arrayLoad _ => .arrayLoad
  | .arrayStore _ => .arrayStore
  | .getStatic field _ => .getStatic field
  | .getField _ field _ => .getField field
  | .putStatic field => .putStatic field.name
  | .putField _ field => .putField field.name

/-- Asks the environment of the source for an operation. -/
def asked (env : Env Effect) (a : Operation) (vs : List Word) : Act Effect Word :=
  perform env a.effect vs

section
variable {K : Type} {m : Method} (ask : Operation → List Word → Act K Word) {pc : Nat} {x : Instr}
  (store : Text → Word)

/-- An instruction that goes on with the next one. -/
theorem runs_exec {α : Type} {y : Act K α} {f : α → Text → Word} (hx : m.code[pc]? = some x)
    (h : x.exec ask store = (fun a ↦ (f a, Control.next)) <$> y) :
    (m.machine ask).Runs ⟨pc, store⟩ y fun a s ↦ s = ⟨pc + 1, f a⟩ := by
  refine .step (f := fun a ↦ ⟨pc + 1, f a⟩) ?_ fun a ↦ rfl
  rw [Method.machine_of_code hx, h, map_eq_pure_bind, map_eq_pure_bind, bind_assoc]
  rfl

theorem runs_assign {name : Text} {ty ty' : Ty} {rhs : Instr}
    (hx : m.code[pc]? = some (.assign (.var name ty) ty' rhs)) :
    (m.machine ask).Runs ⟨pc, store⟩ (rhs.eval ask store) fun v s ↦
      s = ⟨pc + 1, Function.update store name v⟩ :=
  runs_exec ask store hx (by rw [Instr.exec, map_eq_pure_bind])

theorem runs_goto {label : Text} {j : Nat} (hx : m.code[pc]? = some (.goto label))
    (hl : m.target? label = some (j : Int)) :
    (m.machine ask).Runs ⟨pc, store⟩ (pure ()) fun _ s ↦ s = ⟨j, store⟩ := by
  refine .step (f := fun _ ↦ ⟨j, store⟩) ?_ fun a ↦ rfl
  rw [Method.machine_of_code hx, Instr.exec, pure_bind]
  simp only [Method.goOn, hl]
  rfl

end

/-- A branch asks whether its condition holds. -/
theorem runs_branch {m : Method} (ask : Operation → List Word → Act Effect Word) {pc j : Nat}
    {cond : Instr} {label : Text} (store : Text → Word) (hx : m.code[pc]? = some (.branch cond label))
    (hl : m.target? label = some (j : Int)) :
    (m.machine ask).Runs ⟨pc, store⟩ (cond.eval ask store >>= truth) fun b s ↦
      s = ⟨if b then j else pc + 1, store⟩ := by
  refine .step (f := fun b ↦ ⟨if b then j else pc + 1, store⟩) ?_ fun a ↦ rfl
  rw [Method.machine_of_code hx, Instr.exec, map_bind, bind_assoc]
  refine bind_congr fun v ↦ ?_
  rw [truth]
  cases v.bool? with
  | none => rfl
  | some b =>
    cases b with
    | false => rfl
    | true =>
      simp only [pure_bind, Method.goOn, hl]
      rfl

/-! ## Code that carries out a computation -/

/-- The variables of a method hold in the intermediate code what they hold in the source. -/
structure Agrees (t : Scope) (l : Locals) (store : Text → Word) : Prop where
  self : t.sig.isStatic = false → store Method.receiver = l.self
  var : ∀ name v, t.lookup name = some (.var v) → store name = l.vars name

/-- The variables of a method are declared. -/
structure Declared (t : Scope) (σ : LowerState) : Prop where
  self : t.sig.isStatic = false → σ.Has Method.receiver
  var : ∀ name v, t.lookup name = some (.var v) → σ.Has name

theorem Declared.grows {t : Scope} {σ' : LowerState} (h : Declared t σ) (hg : Grows σ σ') :
    Declared t σ' :=
  ⟨fun hs ↦ hg _ (h.self hs), fun name v hv ↦ hg _ (h.var name v hv)⟩

theorem Agrees.keeps {t : Scope} {l : Locals} {store store' : Text → Word} (h : Agrees t l store)
    (hd : Declared t σ) (hk : Keeps σ store store') : Agrees t l store' :=
  ⟨fun hs ↦ (hk _ (hd.self hs)).trans (h.self hs),
    fun name v hv ↦ (hk _ (hd.var name v hv)).trans (h.var name v hv)⟩

/-- An operand that later code leaves as it is: a literal, or a variable that is declared. -/
inductive Held (σ : LowerState) : Operand → Prop
  | literal (text : Text) (ty : Ty) : Held σ (.literal text ty)
  | var {name : Text} (h : σ.Has name) (ty : Ty) : Held σ (.var name ty)

theorem Held.grows {σ' : LowerState} {x : Operand} (h : Held σ x) (hg : Grows σ σ') : Held σ' x := by
  cases h with
  | literal text ty => exact .literal text ty
  | var hn ty => exact .var (hg _ hn) ty

theorem Held.eval_eq {K : Type} {ask : Operation → List Word → Act K Word} {x : Operand} (h : Held σ x)
    {store store' : Text → Word} (hk : Keeps σ store store') :
    x.eval ask store' = x.eval ask store := by
  cases h with
  | literal text ty => rfl
  | var hn ty => simp only [Operand.eval, hk _ hn]

theorem eval_var_eq_pure {K : Type} {ask : Operation → List Word → Act K Word} {store : Text → Word}
    {name : Text} {ty : Ty} {v : Word} :
    (Operand.var name ty).eval ask store = pure v ↔ store name = v := by
  constructor
  · intro h
    exact Except.ok.inj (Prod.mk.inj (congrFun h [])).1
  · rintro rfl
    rfl

namespace Value

/-- The type of a value. -/
def ty : Value → Ty
  | operand x => x.ty
  | instr x => x.ty

/-- The computation that is left to do for a value. -/
def eval {K : Type} (ask : Operation → List Word → Act K Word) (store : Text → Word) :
    Value → Act K Word
  | operand x => x.eval ask store
  | instr x => x.eval ask store

end Value

section
variable (env : Env Effect) (t : Scope) (l : Locals)

/-- **A fragment carries out a computation**: from variables that hold what they hold in the source, it
gets to its own end, it changes no variable that was declared before, and the result has a property
there. -/
def Delivers {α : Type} (σ : LowerState) (f : Fragment) (x : Act Effect α)
    (post : α → (Text → Word) → Prop) : Prop :=
  ∀ m base store, Placed m base f → Agrees t l store →
    (m.machine (asked env)).Runs ⟨base, store⟩ x fun a s ↦
      s.pc = base + f.code.length ∧ Keeps σ store s.store ∧ post a s.store

/-- A fragment computes an operand. -/
structure Operates (σ σ' : LowerState) (x : Operand) (f : Fragment) (e : Act Effect Word) : Prop where
  grows : Grows σ σ'
  held : Held σ' x
  delivers : Delivers env t l σ f e fun v store ↦ x.eval (asked env) store = pure v

/-- A fragment computes operands. -/
structure OperatesAll (σ σ' : LowerState) (xs : List Operand) (f : Fragment)
    (e : Act Effect (List Word)) : Prop where
  grows : Grows σ σ'
  held : ∀ x ∈ xs, Held σ' x
  delivers : Delivers env t l σ f e fun vs store ↦
    List.Forall₂ (fun x v ↦ x.eval (asked env) store = pure v) xs vs

/-- A fragment computes a value up to a last part, which is left to do. -/
structure Produces (σ σ' : LowerState) (v : Value) (f : Fragment) (e : Act Effect Word) : Prop where
  grows : Grows σ σ'
  held : ∀ x, v = .operand x → Held σ' x
  delivers : ∃ first : Act Effect (Act Effect Word), e = first >>= id ∧
    Delivers env t l σ f first fun last store ↦ v.eval (asked env) store = last

/-- **An expression is lowered right**: what it is lowered to computes its value, and has its type if
no other type is expected. -/
def Correct (lower : Lowering) (eval : Evaluation) (ty : Ty) : Prop :=
  ∀ want σ v f σ', Declared t σ → (lower want).run σ = (.ok (v, f), σ') →
    Produces env t l σ σ' v f (eval want) ∧ (want = .absent → v.ty = ty)

end

section
variable {env : Env Effect} {t : Scope} {l : Locals} {α β : Type} {σ σ₁ σ₂ : LowerState}
  {f g : Fragment}
variable {P : α → (Text → Word) → Prop} {x : Operand} {e : Act Effect Word}

theorem Delivers.empty {a : α} (h : ∀ store, Agrees t l store → P a store) :
    Delivers env t l σ .empty (pure a) P :=
  fun _ _ store _ ha ↦ .pure ⟨rfl, .refl σ store, h store ha⟩

theorem Delivers.map {x : Act Effect α} {Q : β → (Text → Word) → Prop} (h : Delivers env t l σ f x P)
    (k : α → β) (hpq : ∀ a store, P a store → Q (k a) store) : Delivers env t l σ f (k <$> x) Q := by
  intro m base store hp ha
  rw [map_eq_pure_bind]
  exact (h m base store hp ha).bind fun a s ⟨hpc, hk, hpost⟩ ↦ .pure ⟨hpc, hk, hpq a _ hpost⟩

/-- One fragment after another.  What the first one has computed is still there at the end. -/
theorem Delivers.append {x : Act Effect α} {y : Act Effect β} {Q : β → (Text → Word) → Prop}
    (hd : Declared t σ) (hg : Grows σ σ₁) (hx : Delivers env t l σ f x P)
    (hy : Delivers env t l σ₁ g y Q)
    (hP : ∀ a store store', Keeps σ₁ store store' → P a store → P a store') :
    Delivers env t l σ (f ++ g) (do return (← x, ← y)) fun r store ↦ P r.1 store ∧ Q r.2 store := by
  intro m base store hp ha
  rw [placed_append] at hp
  refine (hx m base store hp.1 ha).bind ?_
  rintro a ⟨pc, store₁⟩ ⟨rfl, hk, hpost⟩
  refine (hy m _ store₁ hp.2 (ha.keeps hd hk)).bind ?_
  rintro b ⟨pc, store₂⟩ ⟨rfl, hk', hpost'⟩
  refine .pure ⟨?_, hk.trans (hk'.of_grows hg), hP a _ _ hk' hpost, hpost'⟩
  simp [Nat.add_assoc]

theorem Operates.append {y : Operand} {e' : Act Effect Word} (hd : Declared t σ)
    (hx : Operates env t l σ σ₁ x f e) (hy : Operates env t l σ₁ σ₂ y g e') :
    Delivers env t l σ (f ++ g) (do return (← e, ← e')) fun r store ↦
      x.eval (asked env) store = pure r.1 ∧ y.eval (asked env) store = pure r.2 :=
  hx.delivers.append hd hx.grows hy.delivers fun _ _ _ hk h ↦ (hx.held.eval_eq hk).trans h

theorem OperatesAll.eval_eq {xs : List Operand} {vs : List Word} {store store' : Text → Word}
    (hh : ∀ x ∈ xs, Held σ x) (hk : Keeps σ store store')
    (h : List.Forall₂ (fun x v ↦ x.eval (asked env) store = pure v) xs vs) :
    List.Forall₂ (fun x v ↦ x.eval (asked env) store' = pure v) xs vs := by
  induction h with
  | nil => exact .nil
  | cons hv _ ih =>
    exact .cons (((hh _ (by simp)).eval_eq hk).trans hv) (ih fun x hx ↦ hh x (by simp [hx]))

theorem OperatesAll.empty : OperatesAll env t l σ σ [] .empty (pure []) :=
  ⟨.refl σ, by simp, .empty fun _ _ ↦ .nil⟩

theorem OperatesAll.append {xs ys : List Operand} {e e' : Act Effect (List Word)} (hd : Declared t σ)
    (hx : OperatesAll env t l σ σ₁ xs f e) (hy : OperatesAll env t l σ₁ σ₂ ys g e') :
    OperatesAll env t l σ σ₂ (xs ++ ys) (f ++ g) (do return (← e) ++ (← e')) where
  grows := hx.grows.trans hy.grows
  held := by
    intro x hmem
    rcases List.mem_append.1 hmem with h | h
    · exact (hx.held x h).grows hy.grows
    · exact hy.held x h
  delivers := by
    have h := (hx.delivers.append hd hx.grows hy.delivers fun _ _ _ hk h ↦
      OperatesAll.eval_eq hx.held hk h).map (fun r ↦ r.1 ++ r.2)
      (Q := fun vs store ↦ List.Forall₂ (fun x v ↦ x.eval (asked env) store = pure v) (xs ++ ys) vs)
      fun r store h ↦ List.rel_append h.1 h.2
    simpa using h

theorem Operates.toAll (h : Operates env t l σ σ₁ x f e) :
    OperatesAll env t l σ σ₁ [x] f ((fun v ↦ [v]) <$> e) where
  grows := h.grows
  held := by simpa using h.held
  delivers := h.delivers.map _ fun _ _ hv ↦ .cons hv .nil

/-- A value that is an operand. -/
theorem Operates.produces (h : Operates env t l σ σ₁ x f e) :
    Produces env t l σ σ₁ (.operand x) f e where
  grows := h.grows
  held := by
    rintro y ⟨rfl⟩
    exact h.held
  delivers := ⟨pure <$> e, by simp, h.delivers.map _ fun _ _ hv ↦ hv⟩

/-- A value that is an instruction. -/
theorem Delivers.produces {x : Instr} {first : Act Effect α} (h : Delivers env t l σ f first P)
    (hg : Grows σ σ₁) (last : α → Act Effect Word) (he : e = first >>= last)
    (hx : ∀ a store, P a store → x.eval (asked env) store = last a) :
    Produces env t l σ σ₁ (.instr x) f e where
  grows := hg
  held := by
    rintro y ⟨⟩
  delivers := ⟨last <$> first, by simp [he], h.map _ hx⟩

/-- The value of an operand that is held. -/
theorem runs_held {K : Type} {ask : Operation → List Word → Act K Word} (h : Held σ x) (m : Method)
    (s : IR.State) :
    (m.machine ask).Runs s (x.eval ask s.store) fun v s' ↦ s' = s ∧ x.eval ask s.store = pure v := by
  cases h with
  | literal text ty =>
    rw [Operand.eval]
    cases Literal.value text with
    | ok v => exact .pure ⟨rfl, rfl⟩
    | error e => exact .stuck
  | var hn ty => exact .pure ⟨rfl, rfl⟩

/-- An operand that is there without code. -/
theorem Operates.of_eval (hheld : Held σ x)
    (h : ∀ store, Agrees t l store → x.eval (asked env) store = e) :
    Operates env t l σ σ x .empty e where
  grows := .refl σ
  held := hheld
  delivers := by
    intro m base store _ ha
    rw [← h store ha]
    refine (runs_held hheld m ⟨base, store⟩).mono ?_
    rintro v s ⟨rfl, hv⟩
    exact ⟨rfl, .refl σ store, hv⟩

/-- An instruction that needs no code before it. -/
theorem Produces.of_eval {x : Instr} (h : ∀ store, Agrees t l store → x.eval (asked env) store = e) :
    Produces env t l σ σ (.instr x) .empty e :=
  have hdel : Delivers env t l σ .empty (pure ()) fun _ store ↦ x.eval (asked env) store = e :=
    .empty h
  hdel.produces (.refl σ) (fun _ ↦ e) (pure_bind () fun _ ↦ e).symm fun _ _ hx ↦ hx

end

end MiniJava
