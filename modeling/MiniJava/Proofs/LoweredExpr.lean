import MiniJava.Proofs.Fragments
import MiniJava.Proofs.Literals

/-!
# Lowered expressions

What an expression is lowered to computes its value (`Expr.lower_correct`).  There is one lemma for
each way to build a lowering, and each is about any lowerings of the parts that are right themselves.
-/

set_option autoImplicit false

namespace MiniJava

open IR Source
open LowerM (run_bind_eq_ok run_pure_eq_ok run_unsupported)

/-! ## Scopes -/

/-- The signature of a declared method. -/
def Source.Context.signature (c : Context) (d : MethodDecl) : Signature :=
  { name := d.name, isPublic := d.isPublic, isStatic := d.isStatic, ret := c.typeOf d.ret,
    params := d.params.map (Symbols.symbolOf c.cls.name), varargs := d.params.any (·.type.varargs),
    locals := d.locals.map (Symbols.symbolOf c.cls.name) }

/-- What a name refers to in a symbol table. -/
def Source.Context.referent (c : Context) : Binding → Referent
  | .field d => .field (Symbols.symbolOf c.cls.name d)
  | .var d => .var (Symbols.symbolOf c.cls.name d)

/-- The symbol table says what the program declares. -/
structure Describes (t : Scope) (c : Context) : Prop where
  cls : t.table.cls = c.cls.name
  sig : t.sig = c.signature c.method
  lookup : ∀ name, t.lookup name = (c.resolve name).map c.referent
  method : ∀ name, t.table.method? name = (c.method? name).map c.signature
  /-- Only the last parameter is variadic. -/
  variadic : ∀ d, (∃ name, c.method? name = some d) →
    d.params.any (·.type.varargs) = (variadic? d).isSome

namespace Lowering

/-! ## Consumers -/

section
variable {env : Env Effect} {t : Scope} {l : Locals} {lower : Lowering} {eval : Evaluation} {ty : Ty}
  {σ σ' : LowerState} {f : Fragment} {want : Ty}

theorem operand_operates (h : Correct env t l lower eval ty) (hd : Declared t σ) {x : Operand}
    (hr : (operand lower want).run σ = (.ok (x, f), σ')) :
    Operates env t l σ σ' x f (eval want) ∧ (want = .absent → x.ty = ty) := by
  obtain ⟨⟨v, s⟩, σ₁, hlower, hr⟩ := run_bind_eq_ok.1 hr
  obtain ⟨⟨hg, hheld, first, he, hdel⟩, hty⟩ := h want σ v s σ₁ hd hlower
  cases v with
  | operand x =>
    obtain ⟨⟨⟩, rfl⟩ := run_pure_eq_ok.1 hr
    refine ⟨⟨hg, hheld x rfl, fun m base store hp ha ↦ ?_⟩, hty⟩
    rw [he]
    refine (hdel m base store hp ha).bind ?_
    rintro last s ⟨hpc, hk, rfl⟩
    refine (runs_held (hheld x rfl) m s).mono ?_
    rintro v s' ⟨rfl, hv⟩
    exact ⟨hpc, hk, hv⟩
  | instr y =>
    obtain ⟨tmp, σ₂, htmp, hr⟩ := run_bind_eq_ok.1 hr
    obtain ⟨⟨⟩, rfl⟩ := run_pure_eq_ok.1 hr
    obtain ⟨name, rfl, hnew, hhas, hg'⟩ := LowerM.run_temp_eq_ok htmp
    refine ⟨⟨hg.trans hg', .var hhas _, fun m base store hp ha ↦ ?_⟩, hty⟩
    rw [placed_append, placed_instr] at hp
    rw [he]
    refine (hdel m base store hp.1 ha).bind ?_
    rintro last ⟨pc, store₁⟩ ⟨rfl, hk, rfl⟩
    refine (runs_assign _ _ hp.2).mono ?_
    rintro v s' rfl
    refine ⟨by simp [Nat.add_assoc], hk.trans ((keeps_update hnew _ _).of_grows hg), ?_⟩
    simp [Operand.eval]

theorem instr_produces (h : Correct env t l lower eval ty) (hd : Declared t σ) {x : Instr}
    (hr : (instr lower want).run σ = (.ok (x, f), σ')) :
    Produces env t l σ σ' (.instr x) f (eval want) := by
  obtain ⟨⟨v, s⟩, σ₁, hlower, hr⟩ := run_bind_eq_ok.1 hr
  obtain ⟨⟨hg, -, hdel⟩, -⟩ := h want σ v s σ₁ hd hlower
  cases v with
  | operand x =>
    obtain ⟨⟨⟩, rfl⟩ := run_pure_eq_ok.1 hr
    exact ⟨hg, by rintro y ⟨⟩, hdel⟩
  | instr y =>
    obtain ⟨⟨⟩, rfl⟩ := run_pure_eq_ok.1 hr
    exact ⟨hg, by rintro y ⟨⟩, hdel⟩

/-- An array is in a variable. -/
theorem array_operates (h : Correct env t l lower eval ty) (hd : Declared t σ) {pos : Position}
    {a : ArrayVar} (hr : (array pos lower).run σ = (.ok (a, f), σ')) :
    Operates env t l σ σ' a.whole f (eval .absent) ∧ a.ty = ty := by
  obtain ⟨⟨x, s⟩, σ₁, hx, hr⟩ := run_bind_eq_ok.1 hr
  obtain ⟨hop, hty⟩ := operand_operates h hd hx
  cases x with
  | var name ty' =>
    simp only at hr
    split at hr
    · exact absurd hr run_unsupported
    · obtain ⟨⟨⟩, rfl⟩ := run_pure_eq_ok.1 hr
      exact ⟨hop, hty rfl⟩
  | missing | literal _ _ | elem _ _ _ => exact absurd hr run_unsupported

/-- Expressions for one type. -/
theorem operands_operates {lowers : List Lowering} {evals : List Evaluation}
    (h : List.Forall₂ (fun lower eval ↦ ∃ ty, Correct env t l lower eval ty) lowers evals)
    (hd : Declared t σ) {xs : List Operand} (hr : (operands want lowers).run σ = (.ok (xs, f), σ')) :
    OperatesAll env t l σ σ' xs f (evals.mapM fun eval ↦ eval want) := by
  induction h generalizing σ xs f with
  | nil =>
    obtain ⟨⟨⟩, rfl⟩ := run_pure_eq_ok.1 hr
    exact .empty
  | cons hc _ ih =>
    obtain ⟨ty, hc⟩ := hc
    obtain ⟨⟨x, s⟩, σ₁, hx, hr⟩ := run_bind_eq_ok.1 hr
    obtain ⟨⟨xs', s'⟩, σ₂, hxs, hr⟩ := run_bind_eq_ok.1 hr
    obtain ⟨⟨⟩, rfl⟩ := run_pure_eq_ok.1 hr
    have hop := (operand_operates hc hd hx).1
    have hall := hop.toAll.append hd (ih (hd.grows hop.grows) hxs)
    simpa using hall

end

/-! ## Literals -/

theorem eval_intLiteral {K : Type} {ask : Operation → List Word → Act K Word} {store : Text → Word}
    {n : Nat} (hn : n < 2 ^ 31) :
    (intLiteral n).eval ask store = pure (.int (BitVec.ofNat 32 n)) := by
  rw [intLiteral, Operand.eval, Literal.value_toString (by omega)]
  simp only [BitVec.ofInt_natCast]

theorem eval_boolLiteral {K : Type} {ask : Operation → List Word → Act K Word} {store : Text → Word}
    (b : Bool) : (boolLiteral b).eval ask store = pure (.ofBool b) := by
  cases b <;> rfl

/-! ## Arrays -/

section
variable {env : Env Effect} {t : Scope} {l : Locals} {σ σ' : LowerState} {f : Fragment}

theorem mapM_eval_eq {K : Type} {ask : Operation → List Word → Act K Word} {store : Text → Word}
    {xs : List Operand} {vs : List Word}
    (h : List.Forall₂ (fun x v ↦ x.eval ask store = pure v) xs vs) :
    xs.mapM (Operand.eval ask store) = pure vs := by
  induction h with
  | nil => rfl
  | cons hv _ ih => simp [List.mapM_cons, hv, ih]

/-- The elements of an array are stored one after another. -/
theorem runs_fill {m : Method} {a : ArrayVar} {elem : Ty} {store : Text → Word} {items : List Operand}
    {vs : List Word} (h : List.Forall₂ (fun x v ↦ x.eval (asked env) store = pure v) items vs)
    {i pc : Nat} (hi : i + items.length < 2 ^ 31)
    (hp : Placed m pc (.instrs ((items.zipIdx i).map fun (x, i) ↦
      .assign (a.get (intLiteral i)) elem (.single x)))) :
    (m.machine (asked env)).Runs ⟨pc, store⟩ (fill env (store a.name) i vs) fun _ s ↦
      s = ⟨pc + items.length, store⟩ := by
  induction h generalizing i pc with
  | nil => exact .pure rfl
  | @cons x v items vs hv _ ih =>
    rw [List.zipIdx_cons, List.map_cons, instrs_cons, placed_append, placed_instr] at hp
    rw [List.length_cons] at hi
    have hlit : (intLiteral i).eval (asked env) store = pure (.int (BitVec.ofNat 32 i)) :=
      eval_intLiteral (by omega)
    have hexec : (Instr.assign (a.get (intLiteral i)) elem (.single x)).exec (asked env) store =
        (fun _ ↦ (store, Control.next)) <$>
          perform env .arrayStore [store a.name, .int (BitVec.ofNat 32 i), v] := by
      rw [ArrayVar.get, Instr.exec, hlit, pure_bind, Instr.eval, hv, pure_bind, map_eq_pure_bind]
      rfl
    refine (runs_exec _ _ hp.1 hexec).bind ?_
    rintro w s rfl
    refine (ih (by omega) hp.2).mono ?_
    rintro u s rfl
    simp [Nat.add_assoc, Nat.add_comm 1]

/-- Values are packed into a fresh array. -/
theorem pack_runs (env : Env Effect) {ty : Ty} {items : List Operand} {x : Operand}
    (hr : (pack ty items).run σ = (.ok (x, f), σ')) :
    Grows σ σ' ∧ Held σ' x ∧ x.ty = ty ∧ ∀ (m : Method) base store vs, (∀ y ∈ items, Held σ y) →
      Placed m base f →
      List.Forall₂ (fun x v ↦ x.eval (asked env) store = pure v) items vs →
      (m.machine (asked env)).Runs ⟨base, store⟩ (Source.pack env ty vs) fun v s ↦
        s.pc = base + f.code.length ∧ Keeps σ store s.store ∧ x.eval (asked env) s.store = pure v := by
  obtain ⟨name, σ₁, hname, hr⟩ := run_bind_eq_ok.1 hr
  obtain ⟨⟨⟩, rfl⟩ := run_pure_eq_ok.1 hr
  obtain ⟨hnew, hhas, hg⟩ := LowerM.run_tempName_eq_ok hname
  refine ⟨hg, .var hhas ty, rfl, fun m base store vs hheld hp hvs ↦ ?_⟩
  rw [placed_append, placed_instr] at hp
  rw [Source.pack]
  split
  · rename_i hlen
    rw [← hvs.length_eq] at hlen ⊢
    have hstep := runs_assign (asked env) store hp.1
    have heval : (Instr.call { kind := .newArray, args := [intLiteral items.length], ret := ty }).eval
        (asked env) store = perform env (.newArray ty) [.int (BitVec.ofNat 32 items.length)] := by
      simp [Instr.eval, Call.eval, Call.operands?, eval_intLiteral hlen, Call.operation, asked,
        Operation.effect]
    rw [heval] at hstep
    refine hstep.bind ?_
    rintro v s rfl
    have hkeep := keeps_update hnew store v
    have hfill := runs_fill (a := ⟨name, ty⟩) (i := 0) (OperatesAll.eval_eq hheld hkeep hvs) (by omega)
      hp.2
    simp only [Function.update_self] at hfill
    refine hfill.bind ?_
    rintro u s rfl
    refine .pure ⟨?_, hkeep, ?_⟩
    · simp [Nat.add_assoc]
    · simp [ArrayVar.whole, Operand.eval]
  · exact .stuck

/-- Operands are packed into a fresh array. -/
theorem pack_operates {σ₁ : LowerState} {s p : Fragment} {ty : Ty} {xs : List Operand} {x : Operand}
    {e : Act Effect (List Word)} (hall : OperatesAll env t l σ σ₁ xs s e)
    (hr : (pack ty xs).run σ₁ = (.ok (x, p), σ')) :
    Operates env t l σ σ' x (s ++ p) (e >>= Source.pack env ty) ∧ x.ty = ty := by
  obtain ⟨hg, hheld, hty, hruns⟩ := pack_runs env hr
  refine ⟨⟨hall.grows.trans hg, hheld, fun m base store hp ha ↦ ?_⟩, hty⟩
  rw [placed_append] at hp
  refine (hall.delivers m base store hp.1 ha).bind ?_
  rintro vs ⟨pc, store₁⟩ ⟨rfl, hk, hvs⟩
  refine (hruns m _ store₁ vs hall.held hp.2 hvs).mono ?_
  rintro v s ⟨hpc, hk', hv⟩
  exact ⟨by rw [hpc]; simp [Nat.add_assoc], hk.trans (hk'.of_grows hall.grows), hv⟩

end

/-! ## Names and operators -/

section
variable {env : Env Effect} {t : Scope} {c : Context} {l : Locals} {σ σ' : LowerState} {f : Fragment}
  {pos : Position}
variable {x : Operand} {name : Text} {ty : Ty} {target : Target} {recv : Option Expr}

theorem this_eq_ok (hr : (t.this pos).run σ = (.ok x, σ')) :
    σ = σ' ∧ t.sig.isStatic = false ∧ x = .var Method.receiver (.receiver t.table.cls) := by
  rw [Scope.this] at hr
  split at hr
  · exact absurd hr run_unsupported
  · rename_i hs
    obtain ⟨rfl, rfl⟩ := run_pure_eq_ok.1 hr
    exact ⟨rfl, Bool.eq_false_iff.2 hs, rfl⟩

/-- The object that a field is reached through. -/
theorem fieldObject_eq_ok {field : Symbol} (hr : (t.fieldObject pos field).run σ = (.ok x, σ')) :
    σ = σ' ∧ (field.isStatic = true ∧ x = .missing ∨
      field.isStatic = false ∧ t.sig.isStatic = false ∧
        x = .var Method.receiver (.receiver t.table.cls)) := by
  rw [Scope.fieldObject] at hr
  split at hr
  · rename_i hs
    obtain ⟨rfl, rfl⟩ := run_pure_eq_ok.1 hr
    exact ⟨rfl, .inl ⟨hs, rfl⟩⟩
  · rename_i hs
    obtain ⟨hσ, hx⟩ := this_eq_ok hr
    exact ⟨hσ, .inr ⟨Bool.eq_false_iff.2 hs, hx⟩⟩

theorem ident_correct (hc : Describes t c) (name : Text) :
    Correct env t l (fun _ ↦ ident t pos name) (fun _ ↦ load c env l name) (c.typeOfName name) := by
  intro want σ v f σ' hd hr
  have hlookup := hc.lookup name
  rw [ident] at hr
  rw [load, Context.typeOfName]
  cases hres : c.resolve name with
  | none =>
    simp only [hlookup, hres, Option.map_none] at hr
    exact absurd hr run_unsupported
  | some b =>
    simp only [hres, Option.map_some] at hlookup
    simp only [hlookup] at hr
    cases b with
    | var d =>
      obtain ⟨⟨⟩, rfl⟩ := run_pure_eq_ok.1 hr
      refine ⟨(Operates.of_eval (.var (hd.var name _ hlookup) _) fun store ha ↦ ?_).produces,
        fun _ ↦ rfl⟩
      rw [Operand.eval, ha.var name _ hlookup]
    | field d =>
      obtain ⟨object, σ₁, hobject, hr⟩ := run_bind_eq_ok.1 hr
      obtain ⟨⟨⟩, rfl⟩ := run_pure_eq_ok.1 hr
      refine ⟨?_, fun _ ↦ rfl⟩
      have hsym : (Symbols.symbolOf c.cls.name d).isStatic = d.isStatic := rfl
      obtain ⟨rfl, ⟨hs, rfl⟩ | ⟨hs, hstatic, rfl⟩⟩ := fieldObject_eq_ok hobject
      · refine .of_eval fun store _ ↦ ?_
        simp only [← hsym, hs]
        rfl
      · refine .of_eval fun store ha ↦ ?_
        simp only [← hsym, hs, ← ha.self hstatic]
        rfl

theorem this_correct (hc : Describes t c) :
    Correct env t l (fun _ ↦ do return (.operand (← t.this pos), .empty)) (fun _ ↦ pure l.self)
      (.receiver c.cls.name) := by
  intro want σ v f σ' hd hr
  obtain ⟨x, σ₁, hthis, hr⟩ := run_bind_eq_ok.1 hr
  obtain ⟨⟨⟩, rfl⟩ := run_pure_eq_ok.1 hr
  obtain ⟨rfl, hstatic, rfl⟩ := this_eq_ok hthis
  refine ⟨(Operates.of_eval (.var (hd.self hstatic) _) fun store ha ↦ ?_).produces,
    fun _ ↦ congrArg Ty.receiver hc.cls⟩
  rw [Operand.eval, ha.self hstatic]

theorem literal_correct (x : Operand) (hx : ∀ σ, Held σ x) (e : Act Effect Word)
    (he : ∀ store, x.eval (asked env) store = e) :
    Correct env t l (fun _ ↦ return (.operand x, .empty)) (fun _ ↦ e) x.ty := by
  intro want σ v f σ' hd hr
  obtain ⟨⟨⟩, rfl⟩ := run_pure_eq_ok.1 hr
  exact ⟨(Operates.of_eval (hx σ) fun store _ ↦ he store).produces, fun _ ↦ rfl⟩

theorem lookup_map_text (ops : List Op) (text : Text) :
    (ops.map fun o ↦ (o.text, o)).lookup text = ops.find? fun o ↦ o.text == text := by
  induction ops with
  | nil => rfl
  | cons o ops ih =>
    rw [List.map_cons, List.lookup_cons, List.find?_cons, ih, BEq.comm]

/-- The operators with two operands are those of the source. -/
theorem binaryOp?_eq (op : Text) : binaryOp? op = binaryOperators.lookup op := by
  have hall : Op.all = binaryOperators.map Prod.snd ++ [.not, .neg] := rfl
  have hops : binaryOperators = (binaryOperators.map Prod.snd).map fun o ↦ (o.text, o) := rfl
  rw [hops, lookup_map_text, binaryOp?, Op.ofText, hall, List.find?_append]
  cases hfind : (binaryOperators.map Prod.snd).find? fun o ↦ o.text == op with
  | some o =>
    have hmem := List.mem_of_find?_eq_some hfind
    rw [Option.some_or, Option.getD_some]
    clear hfind
    revert o
    decide
  | none =>
    have hrest : ∀ o, [Op.not, .neg].find? (fun o ↦ o.text == op) = some o → o = .not ∨ o = .neg := by
      intro o ho
      simpa using List.mem_of_find?_eq_some ho
    rw [Option.none_or]
    cases hlast : [Op.not, .neg].find? fun o ↦ o.text == op with
    | none => rfl
    | some o => rcases hrest o hlast with rfl | rfl <;> rfl

theorem unaryOp?_eq (op : Text) : unaryOp? op = unaryOperators.lookup op := by
  rw [unaryOp?, unaryOperators, List.lookup_cons, List.lookup_cons]
  by_cases h : op = "!"
  · simp [h]
  · rw [if_neg h, beq_false_of_ne h]
    by_cases h' : op = "-"
    · simp [h']
    · rw [if_neg h', beq_false_of_ne h']
      rfl

variable {m : Method} {eval : Evaluation}

/-- A write of an operand. -/
theorem runs_set {K : Type} (ask : Operation → List Word → Act K Word) {pc : Nat} (store : Text → Word)
    {ty' : Ty} {v : Word} (hx : m.code[pc]? = some (.assign (.var name ty) ty' (.single x)))
    (hv : x.eval ask store = pure v) :
    (m.machine ask).Runs ⟨pc, store⟩ (pure v) fun v s ↦
      s = ⟨pc + 1, Function.update store name v⟩ := by
  have h := runs_assign ask store hx
  rwa [Instr.eval, hv] at h

/-- A branch on an operand. -/
theorem runs_test (ask : Operation → List Word → Act Effect Word) {pc j : Nat} {label : Text}
    (store : Text → Word) {v : Word} (hx : m.code[pc]? = some (.branch (.single x) label))
    (hl : m.target? label = some (j : Int)) (hv : x.eval ask store = pure v) :
    (m.machine ask).Runs ⟨pc, store⟩ (truth v) fun b s ↦ s = ⟨if b then j else pc + 1, store⟩ := by
  have h := runs_branch ask store hx hl
  rwa [Instr.eval, hv, pure_bind] at h

/-- The code of a short-circuit operator behind a test that jumps if the left side is true.  The right side
stands where it decides the answer. -/
def shortCircuit (isAnd : Bool) (test : Fragment) (tmp : Operand) (onTrue done : Text) (r : Operand)
    (rs : Fragment) : Fragment :=
  let set (x : Operand) : Fragment := .instr (.assign tmp .bool (.single x))
  if isAnd then
    test ++ set (boolLiteral false) ++ .instr (.goto done) ++ .label onTrue ++ rs ++ set r ++ .label done
  else
    test ++ rs ++ set r ++ .instr (.goto done) ++ .label onTrue ++ set (boolLiteral true) ++ .label done

/-- Both operators lower their two sides in the same way. -/
theorem logic_eq (isAnd : Bool) (left right : Lowering) :
    logic isAnd left right = (do
      let (l, ls) ← operand left .bool
      let tmp ← LowerM.temp .bool
      let (onTrue, done) ← LowerM.labelPair "true" "end"
      let (r, rs) ← operand right .bool
      return (.operand tmp,
        shortCircuit isAnd (ls ++ .instr (.branch (.single l) onTrue)) tmp onTrue done r rs)) := by
  cases isAnd <;> rfl

/-- The right side of `&&` and `||` is reached only if it decides the answer. -/
theorem logic_operates {left right : Lowering} {evall evalr : Evaluation} {tyl tyr : Ty}
    (hl : Correct env t l left evall tyl) (hr : Correct env t l right evalr tyr) {isAnd : Bool}
    {v : Value} (hd : Declared t σ) (hrun : (logic isAnd left right).run σ = (.ok (v, f), σ')) :
    Produces env t l σ σ' v f (do
      if ← truth (← evall .bool) then if isAnd then evalr .bool else return .ofBool true
      else if isAnd then return .ofBool false else evalr .bool) ∧ v.ty = .bool := by
  rw [logic_eq] at hrun
  obtain ⟨⟨x, ls⟩, σ₁, hx, hrun⟩ := run_bind_eq_ok.1 hrun
  obtain ⟨tmp, σ₂, htmp, hrun⟩ := run_bind_eq_ok.1 hrun
  obtain ⟨⟨onTrue, done⟩, σ₃, hlabels, hrun⟩ := run_bind_eq_ok.1 hrun
  obtain ⟨⟨y, rs⟩, σ₄, hy, hrun⟩ := run_bind_eq_ok.1 hrun
  obtain ⟨⟨⟩, rfl⟩ := run_pure_eq_ok.1 hrun
  have hopl := (operand_operates hl hd hx).1
  obtain ⟨name, rfl, hnew, hhas, hg⟩ := LowerM.run_temp_eq_ok htmp
  have hvars := LowerM.run_labelPair_eq_ok hlabels
  have hg₃ : Grows σ₂ σ₃ := fun a ha ↦ by rwa [LowerState.Has, hvars]
  have hgr : Grows σ σ₃ := hopl.grows.trans (hg.trans hg₃)
  have hopr := (operand_operates hr (hd.grows hgr) hy).1
  have hnew' : ¬ σ.Has name := fun h ↦ hnew (hopl.grows _ h)
  refine ⟨Operates.produces ⟨hgr.trans hopr.grows, .var (hopr.grows _ (hg₃ _ hhas)) _, ?_⟩, rfl⟩
  intro m base store hp ha
  cases isAnd with
  | true =>
    simp only [shortCircuit, if_true, placed_append, placed_instr, placed_label, Fragment.code_append,
      List.length_append, length_code_instr, length_code_label, Nat.add_zero] at hp ⊢
    obtain ⟨⟨⟨⟨⟨⟨⟨hpl, hbranch⟩, hset⟩, hgoto⟩, htrue⟩, hpr⟩, hset'⟩, hdone⟩ := hp
    refine (hopl.delivers m base store hpl ha).bind ?_
    rintro v ⟨pc, store₁⟩ ⟨rfl, hk, hv⟩
    refine (runs_test _ store₁ hbranch htrue hv).bind ?_
    rintro b s rfl
    cases b with
    | false =>
      refine (runs_set _ _ (by exact hset) (eval_boolLiteral false)).after ?_
      rintro s rfl
      refine (runs_goto _ _ (by exact hgoto) hdone).after ?_
      rintro s rfl
      refine .pure ⟨rfl, hk.trans (keeps_update hnew' _ _), ?_⟩
      simp [Operand.eval]
    | true =>
      simp only [if_true]
      rw [← bind_pure (evalr .bool)]
      refine (hopr.delivers m _ store₁ hpr (ha.keeps hd hk)).bind ?_
      rintro w ⟨pc, store₂⟩ ⟨rfl, hk', hw⟩
      refine (runs_set _ _ (by simpa [Nat.add_assoc] using hset') hw).mono ?_
      rintro v s rfl
      refine ⟨by simp only; omega,
        (hk.trans (hk'.of_grows hgr)).trans (keeps_update hnew' _ _), ?_⟩
      simp [Operand.eval]
  | false =>
    simp only [shortCircuit, Bool.false_eq_true, if_false, placed_append, placed_instr, placed_label,
      Fragment.code_append, List.length_append, length_code_instr, length_code_label,
      Nat.add_zero] at hp ⊢
    obtain ⟨⟨⟨⟨⟨⟨⟨hpl, hbranch⟩, hpr⟩, hset⟩, hgoto⟩, htrue⟩, hset'⟩, hdone⟩ := hp
    refine (hopl.delivers m base store hpl ha).bind ?_
    rintro v ⟨pc, store₁⟩ ⟨rfl, hk, hv⟩
    refine (runs_test _ store₁ hbranch htrue hv).bind ?_
    rintro b s rfl
    cases b with
    | true =>
      refine (runs_set _ _ (by exact hset') (eval_boolLiteral true)).mono ?_
      rintro v s rfl
      refine ⟨rfl, hk.trans (keeps_update hnew' _ _), ?_⟩
      simp [Operand.eval]
    | false =>
      simp only [Bool.false_eq_true, if_false]
      rw [← bind_pure (evalr .bool)]
      refine (hopr.delivers m _ store₁ (by exact hpr) (ha.keeps hd hk)).bind ?_
      rintro w ⟨pc, store₂⟩ ⟨rfl, hk', hw⟩
      refine (runs_set _ _ (by simpa [Nat.add_assoc] using hset) hw).after ?_
      rintro s rfl
      refine (runs_goto _ _ (by simpa [Nat.add_assoc] using hgoto) hdone).after ?_
      rintro s rfl
      refine .pure ⟨rfl, (hk.trans (hk'.of_grows hgr)).trans (keeps_update hnew' _ _), ?_⟩
      simp [Operand.eval]

theorem binary_correct {left right : Lowering} {evall evalr : Evaluation} {tyl tyr : Ty}
    (hl : Correct env t l left evall tyl) (hr : Correct env t l right evalr tyr) (op : Text) :
    Correct env t l (fun _ ↦ binary pos op left right) (fun _ ↦ Source.binary op evall evalr)
      (operatorType binaryOperators op) := by
  intro want σ v f σ' hd hrun
  rw [binary, binaryOp?_eq] at hrun
  rw [operatorType, Source.binary]
  split at hrun
  · exact absurd hrun run_unsupported
  · rename_i ho
    obtain ⟨hprod, hty⟩ := logic_operates hl hr hd hrun
    rw [ho]
    exact ⟨hprod, fun _ ↦ hty⟩
  · rename_i ho
    obtain ⟨hprod, hty⟩ := logic_operates hl hr hd hrun
    rw [ho]
    exact ⟨hprod, fun _ ↦ hty⟩
  · rename_i o hand hor ho
    obtain ⟨⟨x, ls⟩, σ₁, hx, hrun⟩ := run_bind_eq_ok.1 hrun
    obtain ⟨⟨y, rs⟩, σ₂, hy, hrun⟩ := run_bind_eq_ok.1 hrun
    obtain ⟨⟨⟩, rfl⟩ := run_pure_eq_ok.1 hrun
    have hopl := (operand_operates hl hd hx).1
    have hopr := (operand_operates hr (hd.grows hopl.grows) hy).1
    have he : (do
        let a ← evall .int
        let b ← evalr .int
        o.apply a b) =
        (do return (← evall .int, ← evalr .int)) >>= fun r ↦ o.apply r.1 r.2 := by simp
    have hprod := (hopl.append hd hopr).produces (x := .binary o x y o.result)
      (hopl.grows.trans hopr.grows) _ he fun r store h ↦ by rw [Instr.eval, h.1, h.2]; simp
    rw [ho]
    refine ⟨?_, fun _ ↦ rfl⟩
    cases o with
    | and => exact absurd rfl hand
    | or => exact absurd rfl hor
    | _ => exact hprod

theorem unary_correct {arg : Lowering} (h : Correct env t l arg eval ty) (op : Text) :
    Correct env t l (fun _ ↦ unary pos op arg) (fun _ ↦ Source.unary op eval)
      (operatorType unaryOperators op) := by
  intro want σ v f σ' hd hr
  rw [unary, unaryOp?_eq] at hr
  rw [Source.unary, operatorType]
  cases ho : unaryOperators.lookup op with
  | none =>
    rw [ho] at hr
    exact absurd hr run_unsupported
  | some o =>
    rw [ho] at hr
    obtain ⟨⟨x, s⟩, σ₁, hx, hr⟩ := run_bind_eq_ok.1 hr
    obtain ⟨⟨⟩, rfl⟩ := run_pure_eq_ok.1 hr
    have hop := (operand_operates h hd hx).1
    refine ⟨hop.delivers.produces hop.grows _ rfl fun v store hv ↦ ?_, fun _ ↦ rfl⟩
    rw [Instr.eval, hv, pure_bind]

/-! ## Objects and arrays -/

theorem eval_call {K : Type} {ask : Operation → List Word → Act K Word} {store : Text → Word}
    {x : Call} {xs : List Operand} {vs : List Word} (hx : x.operands? = some xs)
    (h : List.Forall₂ (fun x v ↦ x.eval ask store = pure v) xs vs) :
    (Instr.call x).eval ask store = ask x.operation vs := by
  rw [Instr.eval, Call.eval, hx]
  simp only [mapM_eval_eq h, pure_bind]

/-- A fresh object is made in a variable. -/
theorem runs_construct {base : Nat} (store : Text → Word) {cls : Text}
    (hp : Placed m base (construct (.var name ty) cls)) :
    (m.machine (asked env)).Runs ⟨base, store⟩ (create env cls) fun o s ↦
      s = ⟨base + 2, Function.update store name o⟩ := by
  rw [construct, instrs_cons, instrs_cons, placed_append, placed_append, placed_instr,
    placed_instr] at hp
  have hnew : (Instr.call { kind := .newObject, cls := cls, ret := ty }).eval (asked env) store =
      perform env (.newObject cls) [] := eval_call rfl .nil
  have hassign := runs_assign (asked env) store hp.1
  rw [Operand.ty, hnew] at hassign
  refine hassign.bind ?_
  rintro o s rfl
  have hinit : (Instr.call { kind := .special, caller := .var name ty, method := "<init>",
                             ret := .void }).eval (asked env) (Function.update store name o) =
      perform env (.callMethod "<init>") [o] := by
    rw [eval_call rfl (.cons (by rw [Operand.eval, Function.update_self]) .nil)]
    rfl
  have hcall := runs_exec (asked env) (Function.update store name o)
    (y := perform env (.callMethod "<init>") [o]) (f := fun _ ↦ Function.update store name o) hp.2.1
    (by rw [← hinit, map_eq_pure_bind]; rfl)
  refine hcall.bind ?_
  rintro w s rfl
  exact .pure rfl

theorem newObject_correct (hc : Describes t c) (cls : Text) :
    Correct env t l (fun _ ↦ newObject t cls) (fun _ ↦ create env cls) (c.typeOf { name := cls }) := by
  intro want σ v f σ' hd hr
  obtain ⟨tmp, σ₁, htmp, hr⟩ := run_bind_eq_ok.1 hr
  obtain ⟨⟨⟩, rfl⟩ := run_pure_eq_ok.1 hr
  obtain ⟨name, rfl, hnew, hhas, hg⟩ := LowerM.run_temp_eq_ok htmp
  refine ⟨Operates.produces ⟨hg, .var hhas _, fun m base store hp ha ↦ ?_⟩, fun _ ↦ ?_⟩
  · refine (runs_construct store hp).mono ?_
    rintro o s rfl
    exact ⟨rfl, keeps_update hnew _ _, by simp [Operand.eval]⟩
  · show t.typeNamed cls = c.typeOf { name := cls }
    rw [Scope.typeNamed, Symbols.type, hc.cls, Context.typeOf]

theorem newArray_correct (hc : Describes t c) {size : Lowering} (h : Correct env t l size eval ty)
    (elem : TypeName) :
    Correct env t l (fun _ ↦ newArray t elem size) (fun _ ↦ do
      let n ← eval .int
      perform env (.newArray (.array (c.typeOf { name := elem.name }))) [n])
      (.array (c.typeOf { name := elem.name })) := by
  intro want σ v f σ' hd hr
  obtain ⟨⟨x, s⟩, σ₁, hx, hr⟩ := run_bind_eq_ok.1 hr
  obtain ⟨⟨⟩, rfl⟩ := run_pure_eq_ok.1 hr
  have hop := (operand_operates h hd hx).1
  have hty : t.typeNamed elem.name = c.typeOf { name := elem.name } := by
    rw [Scope.typeNamed, Symbols.type, hc.cls, Context.typeOf]
  rw [hty]
  refine ⟨hop.delivers.produces hop.grows _ rfl fun n store hn ↦ ?_, fun _ ↦ rfl⟩
  rw [eval_call rfl (.cons hn .nil)]
  rfl

theorem element_correct {base index : Lowering} {evalb evali : Evaluation} {tyb tyi : Ty}
    (hb : Correct env t l base evalb tyb) (hi : Correct env t l index evali tyi) :
    Correct env t l (fun _ ↦ element pos base index) (fun _ ↦ do
      let a ← evalb .absent
      let i ← evali .int
      perform env .arrayLoad [a, i]) tyb.elem := by
  intro want σ v f σ' hd hr
  obtain ⟨⟨a, s⟩, σ₁, ha, hr⟩ := run_bind_eq_ok.1 hr
  obtain ⟨⟨i, is⟩, σ₂, hx, hr⟩ := run_bind_eq_ok.1 hr
  obtain ⟨⟨⟩, rfl⟩ := run_pure_eq_ok.1 hr
  obtain ⟨hopa, hty⟩ := array_operates hb hd ha
  have hopi := (operand_operates hi (hd.grows hopa.grows) hx).1
  have he : (do
      let a ← evalb .absent
      let i ← evali .int
      perform env .arrayLoad [a, i]) =
      (do return (← evalb .absent, ← evali .int)) >>= fun r ↦ perform env .arrayLoad [r.1, r.2] := by
    simp
  refine ⟨(hopa.append hd hopi).produces (hopa.grows.trans hopi.grows) _ he fun r store h ↦ ?_,
    fun _ ↦ ?_⟩
  · rw [Instr.eval, ArrayVar.get, Operand.eval, h.2, pure_bind, eval_var_eq_pure.1 h.1]
    rfl
  · show a.ty.elem = _
    rw [hty]

theorem length_correct {arg : Lowering} (h : Correct env t l arg eval ty) :
    Correct env t l (fun _ ↦ length pos arg) (fun _ ↦ do
      let a ← eval .absent
      perform env .arrayLength [a]) .int := by
  intro want σ v f σ' hd hr
  obtain ⟨⟨a, s⟩, σ₁, ha, hr⟩ := run_bind_eq_ok.1 hr
  obtain ⟨⟨⟩, rfl⟩ := run_pure_eq_ok.1 hr
  obtain ⟨hop, -⟩ := array_operates h hd ha
  refine ⟨hop.delivers.produces hop.grows _ rfl fun v store hv ↦ ?_, fun _ ↦ rfl⟩
  rw [eval_call rfl (.cons hv .nil)]
  rfl

/-! ## Calls -/

/-- A target is what a call reaches. -/
structure Targets (c : Context) (callee : Callee) (target : Target) : Prop where
  sig : target.sig = callee.decl?.map c.signature
  kind : target.kind = .static ∧ callee.cls? = some target.cls ∨
    (target.kind = .virtual ∨ target.kind = .interface) ∧ callee.cls? = none

/-- The receiver that a target takes. -/
def Target.receiver (target : Target) : List Operand :=
  if target.kind = .static then [] else [target.caller]

/-- The target of a call on a value of the class itself. -/
def Target.onOwn (t : Scope) (x : Operand) (name : Text) : Target :=
  match t.table.method? name with
  | some s => if s.isStatic then .ownStatic t s else { kind := .virtual, caller := x, sig := some s }
  | none => { kind := .virtual, caller := x }

/-- The values that a callee takes of its receiver. -/
def takes (callee : Callee) (self? : Option Word) : List Word :=
  match callee.cls? with
  | some _ => []
  | none => self?.toList

theorem valueTarget_spec (hc : Describes t c) (hr : (valueTarget t pos x name).run σ = (.ok target, σ')) :
    σ = σ' ∧ Targets c (c.calleeOn x.ty name) target ∧ (target.kind ≠ .static → target.caller = x) := by
  have hown : Targets c (c.ownCallee name) (.onOwn t x name) ∧
      ((Target.onOwn t x name).kind ≠ .static → (Target.onOwn t x name).caller = x) := by
    rw [Target.onOwn, hc.method, Context.ownCallee]
    cases c.method? name with
    | none => exact ⟨⟨rfl, .inr ⟨.inl rfl, rfl⟩⟩, fun _ ↦ rfl⟩
    | some d =>
      have hs : (c.signature d).isStatic = d.isStatic := rfl
      simp only [Option.map_some, hs]
      cases d.isStatic with
      | true => exact ⟨⟨rfl, .inl ⟨rfl, congrArg some hc.cls.symm⟩⟩, fun h ↦ absurd rfl h⟩
      | false => exact ⟨⟨rfl, .inr ⟨.inl rfl, rfl⟩⟩, fun _ ↦ rfl⟩
  rw [valueTarget] at hr
  cases hty : x.ty with
  | receiver cls =>
    simp only [hty] at hr
    obtain ⟨rfl, rfl⟩ := run_pure_eq_ok.1 hr
    exact ⟨rfl, hown⟩
  | object cls own =>
    cases own with
    | true =>
      simp only [hty] at hr
      obtain ⟨rfl, rfl⟩ := run_pure_eq_ok.1 hr
      exact ⟨rfl, hown⟩
    | false =>
      simp only [hty] at hr
      obtain ⟨rfl, rfl⟩ := run_pure_eq_ok.1 hr
      refine ⟨rfl, ⟨rfl, .inr ⟨?_, rfl⟩⟩, fun _ ↦ rfl⟩
      cases t.table.import? cls with
      | none => exact .inl rfl
      | some i =>
        simp only
        split
        · exact .inr rfl
        · exact .inl rfl
  | string =>
    simp only [hty] at hr
    obtain ⟨rfl, rfl⟩ := run_pure_eq_ok.1 hr
    exact ⟨rfl, ⟨rfl, .inr ⟨.inl rfl, rfl⟩⟩, fun _ ↦ rfl⟩
  | absent | int | bool | void | array _ =>
    simp only [hty] at hr
    exact absurd hr run_unsupported

/-- The receiver of a call on a value. -/
theorem receiver_operates {callee : Callee} {e : Act Effect Word} (ht : Targets c callee target)
    (hx : target.kind ≠ .static → target.caller = x) (h : Operates env t l σ σ' x f e) :
    OperatesAll env t l σ σ' target.receiver f (do return takes callee (some (← e))) := by
  rw [← map_eq_pure_bind, Target.receiver]
  rcases ht.kind with ⟨hk, hcls⟩ | ⟨hk, hcls⟩
  · rw [if_pos hk]
    refine ⟨h.grows, by simp, h.delivers.map _ fun v store _ ↦ ?_⟩
    rw [takes, hcls]
    exact .nil
  · have hne : target.kind ≠ .static := by rcases hk with hk | hk <;> simp [hk]
    rw [if_neg hne, hx hne]
    refine ⟨h.grows, by simpa using h.held, h.delivers.map _ fun v store hv ↦ ?_⟩
    rw [takes, hcls]
    exact .cons hv .nil

theorem className?_eq (hc : Describes t c) (e : Expr) :
    (className? t e).map Prod.snd = c.className? e := by
  cases e with
  | ident pos name =>
    rw [className?, Context.className?, hc.lookup, Option.isSome_map]
    split <;> rfl
  | _ => rfl

theorem classTarget_spec (hc : Describes t c) {cls : Text}
    (hr : (classTarget t pos cls name).run σ = (.ok target, σ')) :
    σ = σ' ∧ Targets c (c.calleeIn cls name) target ∧ target.kind = .static := by
  rw [classTarget] at hr
  rw [Context.calleeIn, ← hc.cls]
  split at hr
  · rename_i s hs
    split at hr
    · obtain ⟨rfl, rfl⟩ := run_pure_eq_ok.1 hr
      split at hs
      · rename_i hown
        rw [if_pos hown, hown]
        exact ⟨rfl, ⟨hs.symm.trans (hc.method name), .inl ⟨rfl, rfl⟩⟩, rfl⟩
      · cases hs
    · exact absurd hr run_unsupported
  · rename_i hs
    obtain ⟨rfl, rfl⟩ := run_pure_eq_ok.1 hr
    refine ⟨rfl, ⟨?_, .inl ⟨rfl, rfl⟩⟩, rfl⟩
    split at hs
    · rename_i hown
      rw [if_pos hown, ← hc.method, hs]
    · rename_i hown
      rw [if_neg hown]
      rfl

/-- A static method of the class is reached by its name. -/
theorem exists_ownCallee (hc : Describes t c) {s : Signature}
    (h : (t.table.method? name).filter (·.isStatic) = some s) :
    ∃ d, c.ownCallee name = { cls? := some c.cls.name, decl? := some d } ∧ c.signature d = s := by
  obtain ⟨hs, hstatic⟩ := Option.filter_eq_some_iff.1 h
  rw [hc.method] at hs
  obtain ⟨d, hmethod, rfl⟩ := Option.map_eq_some_iff.1 hs
  refine ⟨d, ?_, rfl⟩
  rw [Context.ownCallee, hmethod]
  exact congrArg (Callee.mk · (some d)) (if_pos hstatic)

theorem target_spec (hc : Describes t c)
    (hrecv : ∀ e ∈ recv, Correct env t l (e.lower t) (e.eval c env l) (e.type c)) (hd : Declared t σ)
    (hr : (Lowering.target t pos (lowerReceiver t recv) name).run σ = (.ok (target, f), σ')) :
    Targets c (calleeOf c name recv) target ∧
      OperatesAll env t l σ σ' target.receiver f
        (do return takes (calleeOf c name recv) (← evalReceiver c env l recv)) := by
  cases recv with
  | none =>
    rw [lowerReceiver, Lowering.target] at hr
    rw [calleeOf, evalReceiver]
    cases hs : (t.table.method? name).filter (·.isStatic) with
    | some s =>
      simp only [hs] at hr
      obtain ⟨⟨⟩, rfl⟩ := run_pure_eq_ok.1 hr
      obtain ⟨d, hcallee, rfl⟩ := exists_ownCallee hc hs
      rw [hcallee]
      exact ⟨⟨rfl, .inl ⟨rfl, congrArg some hc.cls.symm⟩⟩, .empty⟩
    | none =>
      simp only [hs] at hr
      obtain ⟨x, σ₁, hthis, hr⟩ := run_bind_eq_ok.1 hr
      obtain ⟨target', σ₂, htarget, hr⟩ := run_bind_eq_ok.1 hr
      obtain ⟨⟨⟩, rfl⟩ := run_pure_eq_ok.1 hr
      obtain ⟨rfl, hstatic, rfl⟩ := this_eq_ok hthis
      obtain ⟨rfl, ht, hcaller⟩ := valueTarget_spec hc htarget
      refine ⟨ht, receiver_operates ht hcaller (e := pure l.self) ?_⟩
      refine .of_eval (.var (hd.self hstatic) _) fun store ha ↦ ?_
      rw [Operand.eval, ha.self hstatic]
  | some e =>
    rw [lowerReceiver, Lowering.target] at hr
    rw [calleeOf, evalReceiver, ← className?_eq hc]
    cases hcls : className? t e.unparen with
    | some r =>
      obtain ⟨idPos, cls⟩ := r
      simp only [hcls] at hr
      split at hr
      · exact absurd hr run_unsupported
      · obtain ⟨target', σ₁, htarget, hr⟩ := run_bind_eq_ok.1 hr
        obtain ⟨⟨⟩, rfl⟩ := run_pure_eq_ok.1 hr
        obtain ⟨rfl, ht, hkind⟩ := classTarget_spec hc htarget
        refine ⟨ht, ?_⟩
        rw [Target.receiver, if_pos hkind]
        exact .empty
    | none =>
      simp only [hcls] at hr
      obtain ⟨⟨x, s⟩, σ₁, hx, hr⟩ := run_bind_eq_ok.1 hr
      obtain ⟨target', σ₂, htarget, hr⟩ := run_bind_eq_ok.1 hr
      obtain ⟨⟨⟩, rfl⟩ := run_pure_eq_ok.1 hr
      obtain ⟨hop, hty⟩ := operand_operates (hrecv e rfl) hd hx
      obtain ⟨rfl, ht, hcaller⟩ := valueTarget_spec hc htarget
      rw [hty rfl] at ht
      refine ⟨ht, ?_⟩
      have hall := receiver_operates ht hcaller hop
      simpa using hall

theorem lowerArgs_eq_map (t : Scope) (es : List Expr) :
    lowerArgs t es = es.map fun e ↦ (e, e.lower t) := by
  induction es with
  | nil => rfl
  | cons e es ih => rw [lowerArgs, ih, List.map_cons]

theorem evalArgs_eq_map (c : Context) (env : Env Effect) (l : Locals) (es : List Expr) :
    evalArgs c env l es = es.map fun e ↦ (e, e.eval c env l) := by
  induction es with
  | nil => rfl
  | cons e es ih => rw [evalArgs, ih, List.map_cons]

theorem lower_unparen (t : Scope) (e : Expr) : e.unparen.lower t = e.lower t := by
  fun_induction Expr.unparen e with
  | case1 pos inner ih => rw [ih, Expr.lower]
  | case2 e h => rfl

/-- An array literal has the type that is expected of it. -/
theorem operand_ty_of_arrayLiteral {e : Expr} {elem : Ty} (helem : elem ≠ .absent)
    (he : Source.isArrayLiteral e = true)
    (hr : (operand (e.lower t) (.array elem)).run σ = (.ok (x, f), σ')) : x.ty = .array elem := by
  rw [← lower_unparen] at hr
  rw [Source.isArrayLiteral] at he
  split at he
  · rename_i pos elems harray
    rw [harray, Expr.lower] at hr
    obtain ⟨⟨v, s⟩, σ₁, hlower, hr⟩ := run_bind_eq_ok.1 hr
    obtain ⟨⟨xs, s'⟩, σ₂, -, hlower⟩ := run_bind_eq_ok.1 hlower
    obtain ⟨⟨y, p⟩, σ₃, hpack, hlower⟩ := run_bind_eq_ok.1 hlower
    obtain ⟨⟨⟩, rfl⟩ := run_pure_eq_ok.1 hlower
    obtain ⟨⟨⟩, rfl⟩ := run_pure_eq_ok.1 hr
    obtain ⟨name, σ₄, -, hpack⟩ := run_bind_eq_ok.1 hpack
    obtain ⟨⟨⟩, rfl⟩ := run_pure_eq_ok.1 hpack
    exact congrArg Ty.array (if_neg helem)
  · cases he

section
variable {es : List Expr}
  (hes : ∀ e ∈ es, Correct env t l (e.lower t) (e.eval c env l) (e.type c))
include hes

variable {xs : List Operand}

theorem exprs_operate (hd : Declared t σ) {want : Ty}
    (hr : (operands want ((lowerArgs t es).map Prod.snd)).run σ = (.ok (xs, f), σ')) :
    OperatesAll env t l σ σ' xs f ((evalArgs c env l es).mapM fun arg ↦ arg.2 want) := by
  have h : List.Forall₂ (fun lower eval ↦ ∃ ty, Correct env t l lower eval ty)
      ((lowerArgs t es).map Prod.snd) ((evalArgs c env l es).map Prod.snd) := by
    rw [lowerArgs_eq_map, evalArgs_eq_map, List.map_map, List.map_map, List.forall₂_map_left_iff,
      List.forall₂_map_right_iff, List.forall₂_same]
    exact fun e he ↦ ⟨_, hes e he⟩
  have hall := operands_operates h hd hr
  rwa [List.mapM_map] at hall

theorem arrayLiteral_correct :
    Correct env t l (arrayLiteral ((lowerArgs t es).map Prod.snd)) (fun want ↦ do
      let elem := if want.elem = .absent then .int else want.elem
      let vs ← (evalArgs c env l es).mapM fun arg ↦ arg.2 elem
      Source.pack env (.array elem) vs) (.array .int) := by
  intro want σ v f σ' hd hr
  obtain ⟨⟨xs, s⟩, σ₁, hxs, hr⟩ := run_bind_eq_ok.1 hr
  obtain ⟨⟨x, p⟩, σ₂, hx, hr⟩ := run_bind_eq_ok.1 hr
  obtain ⟨⟨⟩, rfl⟩ := run_pure_eq_ok.1 hr
  obtain ⟨hop, hty⟩ := pack_operates (exprs_operate hes hd hxs) hx
  refine ⟨hop.produces, ?_⟩
  rintro rfl
  exact hty

/-- Arguments for the parameters in front of them. -/
theorem fixedArgs_operates (hd : Declared t σ) {params : List VarDecl}
    (hr : (fixedArgs ((lowerArgs t es).map Prod.snd)
      (params.map (Symbols.symbolOf c.cls.name))).run σ = (.ok (xs, f), σ')) :
    OperatesAll env t l σ σ' xs f (Source.fixedArgs c params (evalArgs c env l es)) := by
  induction es generalizing σ params xs f with
  | nil =>
    obtain ⟨⟨⟩, rfl⟩ := run_pure_eq_ok.1 hr
    exact .empty
  | cons e es ih =>
    cases params with
    | nil =>
      obtain ⟨⟨⟩, rfl⟩ := run_pure_eq_ok.1 hr
      exact .empty
    | cons p params =>
      obtain ⟨⟨x, s⟩, σ₁, hx, hr⟩ := run_bind_eq_ok.1 hr
      obtain ⟨⟨xs', s'⟩, σ₂, hxs, hr⟩ := run_bind_eq_ok.1 hr
      obtain ⟨⟨⟩, rfl⟩ := run_pure_eq_ok.1 hr
      have hop : Operates env t l σ σ₁ x s (e.eval c env l (c.typeOf p.type)) :=
        (operand_operates (hes e (by simp)) hd hx).1
      have hrest := ih (fun e he ↦ hes e (by simp [he])) (hd.grows hop.grows) hxs
      have hall := hop.toAll.append hd hrest
      rw [Source.fixedArgs, evalArgs, List.zip_cons_cons, List.mapM_cons]
      simpa [Source.fixedArgs] using hall

/-- The arguments of a variadic parameter. -/
theorem variadicArgs_operates (hd : Declared t σ) {elem : Ty} (helem : elem ≠ .absent)
    (hr : (variadicArgs (.array elem) (lowerArgs t es)).run σ = (.ok (x, f), σ')) :
    Operates env t l σ σ' x f (variadicArg c env (.array elem) (evalArgs c env l es)) := by
  have hmany : ∀ {xs : List Operand} {s p : Fragment} {σ₁ : LowerState},
      (operands elem ((lowerArgs t es).map Prod.snd)).run σ = (.ok (xs, s), σ₁) →
      (pack (.array elem) xs).run σ₁ = (.ok (x, p), σ') →
      Operates env t l σ σ' x (s ++ p) (do
        let vs ← (evalArgs c env l es).mapM fun arg ↦ arg.2 elem
        Source.pack env (.array elem) vs) :=
    fun hxs hx ↦ (pack_operates (exprs_operate hes hd hxs) hx).1
  cases es with
  | nil =>
    obtain ⟨⟨xs, s⟩, σ₁, hxs, hr⟩ := run_bind_eq_ok.1 hr
    obtain ⟨⟨y, p⟩, σ₂, hy, hr⟩ := run_bind_eq_ok.1 hr
    obtain ⟨⟨⟩, rfl⟩ := run_pure_eq_ok.1 hr
    exact hmany hxs hy
  | cons e es =>
    cases es with
    | cons e' es =>
      obtain ⟨⟨xs, s⟩, σ₁, hxs, hr⟩ := run_bind_eq_ok.1 hr
      obtain ⟨⟨y, p⟩, σ₂, hy, hr⟩ := run_bind_eq_ok.1 hr
      obtain ⟨⟨⟩, rfl⟩ := run_pure_eq_ok.1 hr
      exact hmany hxs hy
    | nil =>
      obtain ⟨⟨y, s⟩, σ₁, hy, hr⟩ := run_bind_eq_ok.1 hr
      obtain ⟨hop, hty⟩ := operand_operates (hes e (by simp)) hd hy
      have hlit : isArrayLiteral e = Source.isArrayLiteral e := rfl
      rw [evalArgs, evalArgs, variadicArg]
      cases hl : Source.isArrayLiteral e with
      | true =>
        rw [hlit, hl, if_pos rfl] at hy hop
        have hty' := operand_ty_of_arrayLiteral helem hl hy
        simp only [hty', if_true] at hr
        obtain ⟨⟨⟩, rfl⟩ := run_pure_eq_ok.1 hr
        exact hop
      | false =>
        rw [hlit, hl, if_neg Bool.false_ne_true] at hop hty
        simp only [hty rfl, Bool.false_eq_true, if_false] at hr ⊢
        split at hr
        · rename_i hsame
          obtain ⟨⟨⟩, rfl⟩ := run_pure_eq_ok.1 hr
          simpa [hsame] using hop
        · rename_i hother
          obtain ⟨⟨z, p⟩, σ₂, hz, hr⟩ := run_bind_eq_ok.1 hr
          obtain ⟨⟨⟩, rfl⟩ := run_pure_eq_ok.1 hr
          have hpack := (pack_operates hop.toAll hz).1
          simpa [hother] using hpack

omit hes in
theorem fixedArgs_take (params : List VarDecl) (args : List (Expr × Evaluation)) :
    Source.fixedArgs c params (args.take params.length) = Source.fixedArgs c params args := by
  have hzip : (args.take params.length).zip params = args.zip params := by
    induction args generalizing params with
    | nil => rw [List.take_nil]
    | cons arg args ih =>
      cases params with
      | nil => simp
      | cons p params => simp [ih]
  rw [Source.fixedArgs, Source.fixedArgs, hzip]

omit hes in
/-- The elements of a declared array have a type. -/
theorem elem_ne_absent {n : TypeName} {elem : Ty} (h : c.typeOf n = .array elem) : elem ≠ .absent := by
  have hscalar : ∀ cls name, Symbols.scalarType cls name ≠ .absent := by
    intro cls name
    rw [Symbols.scalarType]
    split <;> simp
  rw [Context.typeOf, Symbols.typeOf] at h
  split at h
  · cases h
    exact hscalar _ _
  · exfalso
    rw [Symbols.scalarType] at h
    split at h <;> cases h

/-- The arguments of a declared method. -/
theorem argsFor_operates (hd : Declared t σ) {d : MethodDecl}
    (hvar : d.params.any (·.type.varargs) = (variadic? d).isSome)
    (hr : (argsFor pos (c.signature d) (lowerArgs t es)).run σ = (.ok (xs, f), σ')) :
    OperatesAll env t l σ σ' xs f (arguments c env (some d) (evalArgs c env l es)) := by
  have hsig : (c.signature d).varargs = (variadic? d).isSome := hvar
  have hparams : (c.signature d).params = d.params.map (Symbols.symbolOf c.cls.name) := rfl
  rw [argsFor, hsig] at hr
  rw [arguments]
  cases hv : variadic? d with
  | none =>
    simp only [hv, Option.isSome_none, Bool.not_false, if_true] at hr
    split at hr
    · exact absurd hr run_unsupported
    · exact fixedArgs_operates hes hd hr
  | some last =>
    obtain ⟨hlast, -⟩ := Option.filter_eq_some_iff.1 hv
    simp only [hv, Option.isSome_some, Bool.not_true, Bool.false_eq_true, if_false, hparams,
      List.getLast?_map, hlast, Option.map_some, ← List.map_dropLast, List.length_map] at hr
    split at hr
    · exact absurd hr run_unsupported
    · obtain ⟨⟨xs', s⟩, σ₁, hxs, hr⟩ := run_bind_eq_ok.1 hr
      have htake : (lowerArgs t es).take d.params.dropLast.length =
          lowerArgs t (es.take d.params.dropLast.length) := by
        rw [lowerArgs_eq_map, lowerArgs_eq_map, List.map_take]
      have hdrop : (lowerArgs t es).drop d.params.dropLast.length =
          lowerArgs t (es.drop d.params.dropLast.length) := by
        rw [lowerArgs_eq_map, lowerArgs_eq_map, List.map_drop]
      rw [htake] at hxs
      have hfixed := fixedArgs_operates (fun e he ↦ hes e (List.mem_of_mem_take he)) hd hxs
      split at hr
      · rename_i elem helem
        obtain ⟨⟨y, p⟩, σ₂, hy, hr⟩ := run_bind_eq_ok.1 hr
        obtain ⟨⟨⟩, rfl⟩ := run_pure_eq_ok.1 hr
        have helem' : c.typeOf last.type = .array elem := helem
        rw [helem, hdrop] at hy
        have hrest := variadicArgs_operates (fun e he ↦ hes e (List.mem_of_mem_drop he))
          (hd.grows hfixed.grows) (elem_ne_absent helem') hy
        have hall := hfixed.append hd hrest.toAll
        rw [evalArgs_eq_map, List.map_take, ← evalArgs_eq_map, fixedArgs_take, evalArgs_eq_map c env l
          (es.drop _), List.map_drop, ← evalArgs_eq_map, ← helem'] at hall
        simpa using hall
      · exact absurd hr LowerM.run_throw

end

/-- A call of a target, with operands for its receiver and its arguments. -/
theorem Targets.produces {callee : Callee} {target : Target} (ht : Targets c callee target)
    (hd : Declared t σ) {s : Fragment} {σ₁ : LowerState} {self : Act Effect (Option Word)}
    {args : Act Effect (List Word)} {xs : List Operand} {name : Text}
    (hop : OperatesAll env t l σ σ₁ target.receiver s (do return takes callee (← self)))
    (hargs : OperatesAll env t l σ₁ σ' xs f args) (ret : Ty) :
    Produces env t l σ σ'
      (.instr (.call { kind := target.kind, caller := target.caller, cls := target.cls, method := name,
                       args := xs, ret }))
      (s ++ f) (do
        let self? ← self
        let vs ← args
        invoke env callee name self? vs) := by
  have hall := hop.append hd hargs
  rcases ht.kind with ⟨hk, hcls⟩ | ⟨hk, hcls⟩
  · refine hall.delivers.produces hall.grows (perform env (.callStatic target.cls name)) ?_ ?_
    · simp [takes, hcls, invoke]
    · intro vs store hvs
      rw [eval_call _ hvs]
      · simp [Call.operation, hk, asked, Operation.effect]
      · simp [Call.operands?, hk, Target.receiver]
  · refine hall.delivers.produces hall.grows (perform env (.callMethod name)) ?_ ?_
    · simp [takes, hcls, invoke]
    · intro vs store hvs
      rw [eval_call _ hvs]
      · rcases hk with hk | hk <;> simp [Call.operation, hk, asked, Operation.effect]
      · rcases hk with hk | hk <;> simp [Call.operands?, hk, Target.receiver]

/-- A callee that is declared is a method of the program. -/
theorem decl_of_calleeOf {d : MethodDecl} (h : (calleeOf c name recv).decl? = some d) :
    ∃ name, c.method? name = some d := by
  have hown : (c.ownCallee name).decl? = some d → ∃ name, c.method? name = some d := by
    intro h
    rw [Context.ownCallee] at h
    cases hm : c.method? name with
    | none =>
      rw [hm] at h
      cases h
    | some d' =>
      rw [hm] at h
      exact ⟨name, hm.trans h⟩
  cases recv with
  | none => exact hown h
  | some e =>
    rw [calleeOf] at h
    split at h
    · rw [Context.calleeIn] at h
      simp only at h
      split at h
      · exact ⟨name, h⟩
      · cases h
    · unfold Context.calleeOn at h
      split at h
      · exact hown h
      · exact hown h
      · cases h

/-- A call, up to the request that it makes. -/
theorem call_produces (hc : Describes t c) {es : List Expr}
    (hrecv : ∀ e ∈ recv, Correct env t l (e.lower t) (e.eval c env l) (e.type c))
    (hes : ∀ e ∈ es, Correct env t l (e.lower t) (e.eval c env l) (e.type c)) (hd : Declared t σ)
    {want : Ty} {x : Call}
    (hr : (call t pos (lowerReceiver t recv) name (lowerArgs t es) want).run σ = (.ok (x, f), σ')) :
    Produces env t l σ σ' (.instr (.call x)) f (do
        let self? ← evalReceiver c env l recv
        let vs ← arguments c env (calleeOf c name recv).decl? (evalArgs c env l es)
        invoke env (calleeOf c name recv) name self? vs) ∧
      x.ret = match (calleeOf c name recv).decl? with
        | some d => c.typeOf d.ret
        | none => if want = .absent then .void else want := by
  obtain ⟨⟨target, s⟩, σ₁, htarget, hr⟩ := run_bind_eq_ok.1 hr
  obtain ⟨ht, hop⟩ := target_spec hc hrecv hd htarget
  cases hdecl : (calleeOf c name recv).decl? with
  | none =>
    simp only [ht.sig, hdecl, Option.map_none] at hr
    obtain ⟨⟨xs, as⟩, σ₂, hxs, hr⟩ := run_bind_eq_ok.1 hr
    obtain ⟨⟨⟩, rfl⟩ := run_pure_eq_ok.1 hr
    exact ⟨ht.produces hd hop (exprs_operate hes (hd.grows hop.grows) hxs) _, rfl⟩
  | some d =>
    simp only [ht.sig, hdecl, Option.map_some] at hr
    obtain ⟨⟨xs, as⟩, σ₂, hxs, hr⟩ := run_bind_eq_ok.1 hr
    obtain ⟨⟨⟩, rfl⟩ := run_pure_eq_ok.1 hr
    have hvar := hc.variadic d (decl_of_calleeOf hdecl)
    exact ⟨ht.produces hd hop (argsFor_operates hes (hd.grows hop.grows) hvar hxs) _, rfl⟩

/-- A call whose result is used. -/
theorem callValue_correct (hc : Describes t c) {es : List Expr}
    (hrecv : ∀ e ∈ recv, Correct env t l (e.lower t) (e.eval c env l) (e.type c))
    (hes : ∀ e ∈ es, Correct env t l (e.lower t) (e.eval c env l) (e.type c)) (name : Text) :
    Correct env t l (callValue t pos (lowerReceiver t recv) name (lowerArgs t es)) (fun _ ↦ do
        let self? ← evalReceiver c env l recv
        let vs ← arguments c env (calleeOf c name recv).decl? (evalArgs c env l es)
        invoke env (calleeOf c name recv) name self? vs)
      (c.resultType (calleeOf c name recv)) := by
  intro want σ v f σ' hd hr
  obtain ⟨⟨x, s⟩, σ₁, hcall, hr⟩ := run_bind_eq_ok.1 hr
  obtain ⟨hprod, hret⟩ := call_produces hc hrecv hes hd hcall
  simp only at hr
  split at hr
  · exact absurd hr run_unsupported
  · obtain ⟨⟨⟩, rfl⟩ := run_pure_eq_ok.1 hr
    refine ⟨hprod, ?_⟩
    rintro rfl
    show x.ret = _
    rw [hret, Context.resultType]
    rfl

end

end Lowering

/-! ## Expressions -/

/-- The expressions that an expression is made of. -/
@[simp]
def Expr.parts : Expr → List Expr
  | .int _ _ | .bool _ _ | .ident _ _ | .this _ | .new _ _ => []
  | .paren _ e | .unary _ _ e | .newArray _ _ e | .length _ e => [e]
  | .binary _ _ left right => [left, right]
  | .index _ base i => [base, i]
  | .call _ recv _ args => recv.toList ++ args
  | .array _ elems => elems

section
variable {pos : Position} {recv : Option Expr} {name : Text} {args : List Expr} {x : Expr}

theorem Expr.mem_parts_receiver (h : x ∈ recv) : x ∈ (Expr.call pos recv name args).parts :=
  List.mem_append_left _ (Option.mem_toList.2 h)

theorem Expr.mem_parts_arg (h : x ∈ args) : x ∈ (Expr.call pos recv name args).parts :=
  List.mem_append_right _ h

end

theorem Expr.sizeOf_lt_of_mem_parts {e x : Expr} (h : x ∈ e.parts) : sizeOf x < sizeOf e := by
  cases e with
  | int _ _ | bool _ _ | ident _ _ | this _ | new _ _ => cases h
  | paren _ e | unary _ _ e | newArray _ _ e | length _ e =>
    rw [List.mem_singleton.1 h]
    decreasing_tactic
  | binary _ _ x y | index _ x y =>
    simp only [parts, List.mem_cons, List.not_mem_nil, or_false] at h
    rcases h with rfl | rfl <;> decreasing_tactic
  | call _ recv _ args =>
    rcases List.mem_append.1 h with h | h
    · cases recv with
      | none => cases h
      | some e =>
        rw [List.mem_singleton.1 h]
        decreasing_tactic
    · have := List.sizeOf_lt_of_mem h
      simp only [call.sizeOf_spec]
      omega
  | array _ elems =>
    have : sizeOf x < sizeOf elems := List.sizeOf_lt_of_mem h
    simp only [array.sizeOf_spec]
    omega

theorem Expr.induction {P : Expr → Prop} (h : ∀ e : Expr, (∀ x ∈ e.parts, P x) → P e) (e : Expr) :
    P e :=
  h e fun x _ ↦ Expr.induction h x
termination_by sizeOf e
decreasing_by exact Expr.sizeOf_lt_of_mem_parts ‹_›

section
variable {t : Scope} {P : Lowering → Prop} {pos : Position} {recv : Option Expr} {name : Text}
  {args : List Expr} (h : ∀ x ∈ (Expr.call pos recv name args).parts, P (x.lower t))
include h

/-- What is known of the lowerings of the parts of a call, of its arguments. -/
theorem Lowering.forall_args : ∀ a ∈ lowerArgs t args, P a.2 := by
  rw [lowerArgs_eq_map]
  exact List.forall_mem_map.2 fun e he ↦ h e (List.mem_append_right _ he)

/-- The same of its receiver. -/
theorem Lowering.forall_receiver : ∀ r ∈ lowerReceiver t recv, P r.2 := by
  intro r hr
  cases recv with
  | none => cases hr
  | some e =>
    cases hr
    exact h e (by simp)

end

open Lowering in
/-- **Lowered expressions compute their values.** -/
theorem Expr.lower_correct {t : Scope} {c : Context} (hc : Describes t c) (env : Env Effect)
    (l : Locals) (e : Expr) :
    Correct env t l (e.lower t) (e.eval c env l) (e.type c) := by
  induction e using Expr.induction with
  | h e ih =>
    cases e with
    | int pos text => exact literal_correct (.literal text .int) (fun _ ↦ .literal _ _) _ fun _ ↦ rfl
    | bool pos b =>
      have hheld : ∀ σ, Held σ (boolLiteral b) := fun _ ↦ .literal _ _
      exact literal_correct (boolLiteral b) hheld _ fun _ ↦ eval_boolLiteral b
    | ident pos name => exact ident_correct hc name
    | this pos => exact this_correct hc
    | paren pos e => exact ih e (by simp)
    | binary pos op left right =>
      exact binary_correct (ih left (by simp)) (ih right (by simp)) op
    | unary pos op arg => exact unary_correct (ih arg (by simp)) op
    | call pos recv name args =>
      exact callValue_correct hc (fun e he ↦ ih e (mem_parts_receiver he))
        (fun e he ↦ ih e (mem_parts_arg he)) name
    | new pos cls => exact newObject_correct hc cls
    | newArray pos elem size => exact newArray_correct hc (ih size (by simp)) elem
    | array pos elems => exact arrayLiteral_correct ih
    | index pos base index =>
      exact element_correct (ih base (by simp)) (ih index (by simp))
    | length pos arg => exact length_correct (ih arg (by simp))

end MiniJava
