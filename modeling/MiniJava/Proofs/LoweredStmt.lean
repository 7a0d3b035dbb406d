import MiniJava.Lowering.Stmt
import MiniJava.Proofs.LoweredExpr

/-!
# Lowered statements

What a statement is lowered to does what the rules of `Exec` say (`Stmt.lower_correct`): if the
statement ends normally, control arrives at the end of its code, and the variables hold there what they
hold in the source; if it ends the run of the method, its code ends it in the same way.

A case of a conditional that ends in a return does not jump to the end, so it has to be seen that such
a case never ends normally.  Its code by itself is a method that cannot come to its end
(`not_steps_to_end`), and what is known of the code wherever it is placed says that it would.
-/

set_option autoImplicit false

namespace MiniJava

open IR Source
open LowerM (run_bind_eq_ok run_pure_eq_ok run_unsupported)

/-! ## Code that ends in a return -/

section
variable {K : Type} {m : Method} {ask : Operation → List Word → Act K Word}

theorem exec_isReturn {x : Instr} (hx : x.isReturn = true) {store : Text → Word}
    {past past' : List (Request K)} {r : (Text → Word) × Control} :
    (x.exec ask store).result past ≠ (.ok r, past') := by
  cases x with
  | ret y ty =>
    cases y with
    | missing => simp [Instr.exec]
    | _ =>
      rw [Instr.exec_ret (by simp), Act.result_bind]
      split <;> simp
  | _ => cases hx

/-- A method that ends in a return, without a label at its end, does not come to its end. -/
theorem not_steps_to_end {x : Instr} (hx : m.code.getLast? = some x) (hret : x.isReturn = true)
    (hlabel : ∀ label, m.target? label ≠ some (m.code.length : Int)) {n : Nat}
    {store store' : Text → Word} {past past' : List (Request K)} :
    ¬ (m.machine ask).Steps n ⟨0, store⟩ past ⟨m.code.length, store'⟩ past' := by
  intro h
  cases n with
  | zero =>
    have hpc : 0 = m.code.length := congrArg State.pc (Except.ok.inj (Prod.mk.inj h).1)
    rw [List.getLast?_eq_getElem?, ← hpc] at hx
    simp [List.eq_nil_of_length_eq_zero hpc.symm] at hx
  | succ n =>
    obtain ⟨⟨pc, store₁⟩, past₁, -, hstep⟩ := h.last
    rw [Method.machine] at hstep
    cases hy : m.code[pc]? with
    | none => simp [hy] at hstep
    | some y =>
      simp only [hy] at hstep
      rw [Act.result_bind] at hstep
      cases hexec : (y.exec ask store₁).result past₁ with
      | mk r past₂ =>
        cases r with
        | error e => simp [hexec] at hstep
        | ok r =>
          simp only [hexec] at hstep
          obtain ⟨store₂, control⟩ := r
          cases control with
          | next =>
            have hpc : pc + 1 = m.code.length := congrArg State.pc (Except.ok.inj (Prod.mk.inj hstep).1)
            rw [List.getLast?_eq_getElem?, ← hpc, Nat.add_sub_cancel, hy] at hx
            cases hx
            exact exec_isReturn hret hexec
          | jump label =>
            simp only [Method.goOn] at hstep
            split at hstep
            · rename_i j hj
              have hpc : j = m.code.length := congrArg State.pc (Except.ok.inj (Prod.mk.inj hstep).1)
              exact hlabel label (by rw [hj, hpc]; rfl)
            · simp at hstep

end

/-! ## Statements without statements in them -/

theorem eval_unparen (c : Context) (env : Env Effect) (l : Locals) (e : Expr) :
    e.unparen.eval c env l = e.eval c env l := by
  fun_induction Expr.unparen e with
  | case1 pos inner ih => rw [ih, Expr.eval]
  | case2 e h => rfl

section
variable (env : Env Effect) (t : Scope) (c : Context)

/-- **A fragment does what a statement does**, wherever it is placed. -/
def Implements (f : Fragment) (s : Stmt) : Prop :=
  ∀ m base, Placed m base f → ∀ l store past r past', Agrees t l store → Exec c env s l past r past' →
    (m.machine (asked env)).Arrives ⟨base, store⟩ past r past' fun l' s' ↦
      s'.pc = base + f.code.length ∧ Agrees t l' s'.store

/-- **A statement is lowered right**: to code that does what the statement does, if no label in it
stands twice. -/
def CorrectStmt (lower : LowerM Fragment) (s : Stmt) : Prop :=
  ∀ σ f σ', Declared t σ → lower.run σ = (.ok f, σ') →
    Grows σ σ' ∧ ((f.labels.map Prod.fst).Nodup → Implements env t c f s)

end

section
variable {env : Env Effect} {t : Scope} {c : Context} {l : Locals} {σ σ' : LowerState} {f : Fragment}
  {pos : Position}
variable {store : Text → Word} {name : Text} {e : Expr}

/-- A write to a variable of the source.  The receiver is none of them. -/
theorem Agrees.set (h : Agrees t l store)
    (hthis : t.sig.isStatic = false → ∀ v, t.lookup Method.receiver ≠ some (.var v)) {v : Symbol}
    (hv : t.lookup name = some (.var v)) (w : Word) :
    Agrees t (l.set name w) (Function.update store name w) where
  self := by
    intro hs
    rw [Function.update_of_ne]
    · exact h.self hs
    · rintro rfl
      exact hthis hs v hv
  var := by
    intro name' v' hv'
    by_cases hname : name' = name
    · rw [hname, Function.update_self]
      exact (Function.update_self name w l.vars).symm
    · rw [Function.update_of_ne hname, h.var name' v' hv']
      exact (Function.update_of_ne hname w l.vars).symm

variable {m : Method}

/-- A computation that a fragment carries out, and an instruction after it that does the last part. -/
theorem Produces.runs {x : Instr} {s : Fragment} {e : Act Effect Word}
    (h : Produces env t l σ σ' (.instr x) s e) {base : Nat} (hp : Placed m base s)
    (ha : Agrees t l store) {α : Type} {k : Word → Act Effect α} {P : α → IR.State → Prop}
    (hlast : ∀ store', Keeps σ store store' →
      (m.machine (asked env)).Runs ⟨base + s.code.length, store'⟩ (x.eval (asked env) store' >>= k) P) :
    (m.machine (asked env)).Runs ⟨base, store⟩ (e >>= k) P := by
  obtain ⟨-, -, first, rfl, hdel⟩ := h
  rw [bind_assoc]
  refine (hdel m base store hp ha).bind ?_
  rintro last ⟨pc, store'⟩ ⟨rfl, hk, rfl⟩
  exact hlast store' hk

theorem effects_runs (hc : Describes t c) (hd : Declared t σ)
    (hr : (Lowering.effects t e).run σ = (.ok f, σ')) :
    Grows σ σ' ∧ ∀ (m : Method) base l store, Placed m base f → Agrees t l store →
      (m.machine (asked env)).Runs ⟨base, store⟩ (evaluate c env l e) fun l' s' ↦
        s'.pc = base + f.code.length ∧ Agrees t l' s'.store := by
  rw [Lowering.effects] at hr
  have hcorrect := Expr.lower_correct hc env
  split at hr
  · rename_i pos recv name args hcall
    obtain ⟨⟨x, s⟩, σ₁, hx, hr⟩ := run_bind_eq_ok.1 hr
    obtain ⟨⟨⟩, rfl⟩ := run_pure_eq_ok.1 hr
    have hprod := fun l ↦ (Lowering.call_produces hc (fun e _ ↦ hcorrect l e)
      (fun e _ ↦ hcorrect l e) hd hx).1
    refine ⟨(hprod default).grows, fun m base l store hp ha ↦ ?_⟩
    rw [placed_append, placed_instr] at hp
    rw [evaluate, ← eval_unparen, hcall]
    refine (hprod l).runs hp.1 ha fun store' hk ↦ ?_
    have hexec := runs_exec (asked env) store' (y := (Instr.call x).eval (asked env) store')
      (f := fun _ ↦ store') hp.2 (by rw [map_eq_pure_bind]; rfl)
    refine hexec.bind ?_
    rintro v s' rfl
    exact .pure ⟨by simp [Nat.add_assoc], ha.keeps hd hk⟩
  · obtain ⟨⟨x, s⟩, σ₁, hx, hr⟩ := run_bind_eq_ok.1 hr
    obtain ⟨⟨⟩, rfl⟩ := run_pure_eq_ok.1 hr
    have hop := fun l ↦ (Lowering.operand_operates (hcorrect l e) hd hx).1
    refine ⟨(hop default).grows, fun m base l store hp ha ↦ ?_⟩
    refine ((hop l).delivers m base store hp ha).bind ?_
    rintro v s' ⟨hpc, hk, -⟩
    exact .pure ⟨hpc, ha.keeps hd hk⟩

/-- A write to a field. -/
theorem runs_putField {pc : Nat} {object x : Operand} {ty : Ty} {v : Word} {isStatic : Bool}
    (hobj : isStatic = true ∧ object = .missing ∨ isStatic = false ∧ t.sig.isStatic = false ∧
      object = .var Method.receiver (.receiver t.table.cls))
    (hx : m.code[pc]? = some (.putField object { name, ty } x)) (hv : x.eval (asked env) store = pure v)
    (ha : Agrees t l store) :
    (m.machine (asked env)).Runs ⟨pc, store⟩ (put env l isStatic name v) fun _ s ↦
      s = ⟨pc + 1, store⟩ := by
  refine runs_exec (asked env) store hx ?_
  rcases hobj with ⟨rfl, rfl⟩ | ⟨rfl, hs, rfl⟩
  · rw [Instr.exec, hv, pure_bind, map_eq_pure_bind]
    rfl
  · rw [Instr.exec_putField (by simp), Operand.eval, pure_bind, hv, pure_bind, ha.self hs,
      map_eq_pure_bind]
    rfl

theorem assign_runs (hc : Describes t c)
    (hthis : t.sig.isStatic = false → ∀ v, t.lookup Method.receiver ≠ some (.var v)) {value : Expr}
    (hd : Declared t σ) (hr : (Lowering.assign t pos name value).run σ = (.ok f, σ')) :
    Grows σ σ' ∧ ∀ (m : Method) base l store, Placed m base f → Agrees t l store →
      (m.machine (asked env)).Runs ⟨base, store⟩ (assign c env l name value) fun l' s' ↦
        s'.pc = base + f.code.length ∧ Agrees t l' s'.store := by
  have hcorrect := Expr.lower_correct hc env
  have hlookup := hc.lookup name
  rw [Lowering.assign] at hr
  cases hres : c.resolve name with
  | none =>
    simp only [hlookup, hres, Option.map_none] at hr
    exact absurd hr run_unsupported
  | some b =>
    simp only [hres, Option.map_some] at hlookup
    simp only [hlookup] at hr
    have hwant : ∀ d, b = .field d ∨ b = .var d → c.typeOfName name = c.typeOf d.type := by
      rintro d (rfl | rfl) <;> rw [Context.typeOfName, hres]
    cases b with
    | field d =>
      obtain ⟨object, σ₁, hobject, hr⟩ := run_bind_eq_ok.1 hr
      obtain ⟨⟨x, s⟩, σ₂, hx, hr⟩ := run_bind_eq_ok.1 hr
      obtain ⟨⟨⟩, rfl⟩ := run_pure_eq_ok.1 hr
      obtain ⟨rfl, hobj⟩ := Lowering.fieldObject_eq_ok hobject
      have hop := fun l ↦ (Lowering.operand_operates (hcorrect l value) hd hx).1
      refine ⟨(hop default).grows, fun m base l store hp ha ↦ ?_⟩
      rw [placed_append, placed_instr] at hp
      rw [assign, hwant d (.inl rfl)]
      refine ((hop l).delivers m base store hp.1 ha).bind ?_
      rintro v ⟨pc, store'⟩ ⟨rfl, hk, hv⟩
      rw [save, hres]
      refine (runs_putField hobj hp.2 hv (ha.keeps hd hk)).bind ?_
      rintro w s' rfl
      exact .pure ⟨by simp [Nat.add_assoc], ha.keeps hd hk⟩
    | var d =>
      simp only [Context.referent] at hr
      split at hr
      · rename_i pos' cls hnew
        obtain ⟨⟨⟩, rfl⟩ := run_pure_eq_ok.1 hr
        refine ⟨.refl σ, fun m base l store hp ha ↦ ?_⟩
        rw [assign, ← eval_unparen, hnew]
        refine (Lowering.runs_construct store hp).bind ?_
        rintro o s rfl
        rw [save, hres]
        exact .pure ⟨rfl, ha.set hthis hlookup o⟩
      · obtain ⟨⟨x, s⟩, σ₁, hx, hr⟩ := run_bind_eq_ok.1 hr
        obtain ⟨⟨⟩, rfl⟩ := run_pure_eq_ok.1 hr
        have hprod := fun l ↦ Lowering.instr_produces (hcorrect l value) hd hx
        refine ⟨(hprod default).grows, fun m base l store hp ha ↦ ?_⟩
        rw [placed_append, placed_instr] at hp
        rw [assign, hwant d (.inr rfl)]
        refine (hprod l).runs hp.1 ha fun store' hk ↦ ?_
        refine (runs_assign _ store' hp.2).bind ?_
        rintro v s' rfl
        rw [save, hres]
        exact .pure ⟨by simp [Nat.add_assoc], (ha.keeps hd hk).set hthis hlookup v⟩

theorem indexAssign_runs (hc : Describes t c) {index value : Expr} (hd : Declared t σ)
    (hr : (Lowering.indexAssign t pos name index value).run σ = (.ok f, σ')) :
    Grows σ σ' ∧ ∀ (m : Method) base l store, Placed m base f → Agrees t l store →
      (m.machine (asked env)).Runs ⟨base, store⟩ (assignElement c env l name index value) fun l' s' ↦
        s'.pc = base + f.code.length ∧ Agrees t l' s'.store := by
  have hcorrect := Expr.lower_correct hc env
  have hident : ∀ l : Locals, Correct env t l (fun _ ↦ Lowering.ident t pos name)
      (fun _ ↦ load c env l name) (c.typeOfName name) := fun _ ↦ Lowering.ident_correct hc name
  obtain ⟨⟨a, s⟩, σ₁, ha, hr⟩ := run_bind_eq_ok.1 hr
  obtain ⟨⟨i, is⟩, σ₂, hi, hr⟩ := run_bind_eq_ok.1 hr
  obtain ⟨⟨x, xs⟩, σ₃, hx, hr⟩ := run_bind_eq_ok.1 hr
  obtain ⟨⟨⟩, rfl⟩ := run_pure_eq_ok.1 hr
  have hopa := fun l ↦ Lowering.array_operates (hident l) hd ha
  have hd₁ := hd.grows (hopa default).1.grows
  have hopi := fun l ↦ (Lowering.operand_operates (hcorrect l index) hd₁ hi).1
  have hd₂ := hd₁.grows (hopi default).grows
  have hprod := fun l ↦ Lowering.instr_produces (hcorrect l value) hd₂ hx
  refine ⟨(hopa default).1.grows.trans ((hopi default).grows.trans (hprod default).grows), ?_⟩
  intro m base l store hp hagree
  obtain ⟨hopa, hty⟩ := hopa l
  simp only [placed_append, placed_instr, Fragment.code_append, List.length_append] at hp
  obtain ⟨⟨⟨hps, hpi⟩, hpx⟩, hassign⟩ := hp
  rw [assignElement]
  refine (hopa.delivers m base store hps hagree).bind ?_
  rintro v ⟨pc, store₁⟩ ⟨rfl, hk₁, hv⟩
  have hagree₁ := hagree.keeps hd hk₁
  refine ((hopi l).delivers m _ store₁ hpi hagree₁).bind ?_
  rintro w ⟨pc, store₂⟩ ⟨rfl, hk₂, hw⟩
  have hagree₂ := hagree₁.keeps hd₁ hk₂
  rw [← hty]
  refine (hprod l).runs (by simpa [Nat.add_assoc] using hpx) hagree₂ fun store₃ hk₃ ↦ ?_
  -- the array and the index are still where they were
  have hv₃ : a.whole.eval (asked env) store₃ = pure v := by
    rw [(hopa.held.grows (hopi l).grows).eval_eq hk₃, hopa.held.eval_eq hk₂, hv]
  have hw₃ : i.eval (asked env) store₃ = pure w := ((hopi l).held.eval_eq hk₃).trans hw
  have hexec : (Instr.assign (a.get i) a.ty.elem x).exec (asked env) store₃ =
      (fun _ ↦ (store₃, Control.next)) <$> (do
        let u ← x.eval (asked env) store₃
        perform env .arrayStore [v, w, u]) := by
    rw [Lowering.ArrayVar.get, Instr.exec, hw₃, pure_bind, eval_var_eq_pure.1 hv₃]
    simp [asked, Operation.effect]
  have hstep := runs_exec (asked env) store₃ (by simpa [Nat.add_assoc] using hassign) hexec
  have hdone := hstep.bind (f := fun _ ↦ pure l) (Q := fun l' s' ↦ s'.pc = base +
    (s ++ is ++ xs ++ Fragment.instr (.assign (a.get i) a.ty.elem x)).code.length ∧
      Agrees t l' s'.store) ?_
  · simpa [Nat.add_assoc] using hdone
  · rintro u s' rfl
    exact .pure ⟨by simp [Nat.add_assoc], hagree₂.keeps hd₂ hk₃⟩

theorem ret_runs (hc : Describes t c) {value : Option Expr} (hd : Declared t σ)
    (hr : (Lowering.ret t pos value).run σ = (.ok f, σ')) :
    Grows σ σ' ∧ ∀ (m : Method) base l store (P : Locals → IR.State → Prop), Placed m base f →
      Agrees t l store → (m.machine (asked env)).Runs ⟨base, store⟩ (giveBack c env l value) P := by
  have hret : t.sig.ret = c.typeOf c.method.ret := by rw [hc.sig, Context.signature]
  cases value with
  | none =>
    rw [Lowering.ret] at hr
    split at hr
    · obtain ⟨rfl, rfl⟩ := run_pure_eq_ok.1 hr
      refine ⟨.refl σ, fun m base l store P hp _ ↦ .throw ?_⟩
      rw [placed_instr] at hp
      rw [Method.machine_of_code hp]
      rfl
    · exact absurd hr run_unsupported
  | some e =>
    rw [Lowering.ret] at hr
    split at hr
    · exact absurd hr run_unsupported
    · obtain ⟨⟨x, s⟩, σ₁, hx, hr⟩ := run_bind_eq_ok.1 hr
      obtain ⟨⟨⟩, rfl⟩ := run_pure_eq_ok.1 hr
      have hop : ∀ l, Operates env t l σ σ₁ x s (e.eval c env l t.sig.ret) :=
        fun l ↦ (Lowering.operand_operates (Expr.lower_correct hc env l e) hd hx).1
      refine ⟨(hop default).grows, fun m base l store P hp ha ↦ ?_⟩
      rw [placed_append, placed_instr] at hp
      rw [giveBack, ← hret]
      refine ((hop l).delivers m base store hp.1 ha).bind ?_
      rintro v ⟨pc, store'⟩ ⟨rfl, hk, hv⟩
      have hne : x ≠ .missing := by
        rintro rfl
        cases (hop l).held
      refine .throw ?_
      rw [Method.machine_of_code hp.2, Instr.exec_ret hne, hv, pure_bind]
      rfl

/-! ## Statements made of statements -/

theorem nodup_of_append {s s' : Fragment} (h : ((s ++ s').labels.map Prod.fst).Nodup) :
    (s.labels.map Prod.fst).Nodup ∧ (s'.labels.map Prod.fst).Nodup := by
  rw [Fragment.labels_append, List.map_append, List.map_map] at h
  exact ⟨h.of_append_left, h.of_append_right⟩

theorem stmts_correct {ss : List Stmt} (h : ∀ s ∈ ss, CorrectStmt env t c (s.lower t) s) :
    CorrectStmt env t c (lowerStmts t ss) (.block pos ss) := by
  induction ss with
  | nil =>
    intro σ f σ' hd hr
    obtain ⟨rfl, rfl⟩ := run_pure_eq_ok.1 hr
    refine ⟨.refl σ, fun _ m base _ l store past r past' ha hexec ↦ ?_⟩
    cases hexec with
    | nil => exact ⟨0, _, .refl _ _ _, rfl, ha⟩
  | cons s ss ih =>
    intro σ f σ' hd hr
    obtain ⟨code, σ₁, hs, hr⟩ := run_bind_eq_ok.1 hr
    obtain ⟨more, σ₂, hss, hr⟩ := run_bind_eq_ok.1 hr
    obtain ⟨rfl, rfl⟩ := run_pure_eq_ok.1 hr
    obtain ⟨hg, himp⟩ := h s (by simp) σ code σ₁ hd hs
    obtain ⟨hg', himp'⟩ := ih (fun s hs ↦ h s (by simp [hs])) σ₁ more σ₂ (hd.grows hg) hss
    refine ⟨hg.trans hg', fun hn m base hp l store past r past' ha hexec ↦ ?_⟩
    obtain ⟨hn₁, hn₂⟩ := nodup_of_append hn
    rw [placed_append] at hp
    cases hexec with
    | cons h₁ h₂ =>
      obtain ⟨n, ⟨pc, store'⟩, hsteps, rfl, ha'⟩ := himp hn₁ m base hp.1 l store past _ _ ha h₁
      have harr := himp' hn₂ m _ hp.2 _ store' _ r past' ha' h₂
      have := Machine.Arrives.of_steps hsteps harr
      simpa [Nat.add_assoc] using this
    | consEnd h₁ => exact himp hn₁ m base hp.1 l store past _ _ ha h₁

theorem lowerTest_produces (hc : Describes t c) (env : Env Effect) {x : Instr} (hd : Declared t σ)
    (hr : (e.lowerTest t).run σ = (.ok (x, f), σ')) (l : Locals) :
    Produces env t l σ σ' (.instr x) f (e.eval c env l .bool) := by
  rw [Expr.lowerTest] at hr
  split at hr
  · exact Lowering.instr_produces (Expr.lower_correct hc env l e) hd hr
  · obtain ⟨⟨y, s⟩, σ₁, hy, hr⟩ := run_bind_eq_ok.1 hr
    obtain ⟨⟨⟩, rfl⟩ := run_pure_eq_ok.1 hr
    have hop := (Lowering.operand_operates (Expr.lower_correct hc env l e) hd hy).1
    exact ⟨hop.grows, by rintro z ⟨⟩, hop.produces.delivers⟩

/-- The test of a statement, and the branch after it. -/
theorem test_runs {x : Instr} (hx : Produces env t l σ σ' (.instr x) f (e.eval c env l .bool))
    (hd : Declared t σ) {base j : Nat} {label : Text} (hp : Placed m base f)
    (hbranch : m.code[base + f.code.length]? = some (.branch x label))
    (hl : m.target? label = some (j : Int)) (ha : Agrees t l store) :
    (m.machine (asked env)).Runs ⟨base, store⟩ (test c env l e) fun b s ↦
      s.pc = (if b then j else base + f.code.length + 1) ∧ Agrees t l s.store := by
  refine hx.runs hp ha fun store' hk ↦ (runs_branch _ store' hbranch hl).mono ?_
  rintro b s rfl
  exact ⟨rfl, ha.keeps hd hk⟩

/-- Code that ends in a return does not end normally. -/
theorem Implements.not_ok {s : Stmt} (h : Implements env t c f s) (hn : (f.labels.map Prod.fst).Nodup)
    (hends : f.endsWithReturn = true) (ha : Agrees t l store) {l' : Locals}
    {past past' : List (Request Effect)} : ¬ Exec c env s l past (.ok l') past' := by
  intro hexec
  -- the code by itself, as a method
  have hn' : ((f.labels.map fun e ↦ (e.1, (e.2 : Int))).map Prod.fst).Nodup := by
    rwa [List.map_map]
  let m : Method := { name := "", ret := .void, code := f.code, labels := ⟨_, hn'⟩ }
  have hp : Placed m 0 f := placed_of_method rfl rfl
  obtain ⟨n, ⟨pc, store'⟩, hsteps, hpc, -⟩ := h m 0 hp l store past _ past' ha hexec
  obtain rfl : pc = m.code.length := hpc.trans (Nat.zero_add _)
  rw [Fragment.endsWithReturn, Bool.and_eq_true, List.all_eq_true] at hends
  obtain ⟨hlabels, hlast⟩ := hends
  cases hx : f.code.getLast? with
  | none => simp [hx] at hlast
  | some x =>
    rw [hx] at hlast
    refine not_steps_to_end hx hlast (fun label hl ↦ ?_) hsteps
    obtain ⟨⟨name, i⟩, hmem, heq⟩ := List.mem_map.1 (mem_of_lookup_eq_some hl)
    have hi : i = f.code.length := by
      have := (Prod.mk.inj heq).2
      exact Int.ofNat.inj this
    have := hlabels (name, i) hmem
    simp [hi] at this

theorem conditional_correct (hc : Describes t c) {yes no : Option Stmt}
    {lowerYes lowerNo : LowerM Fragment} (hyes : CorrectStmt env t c lowerYes (orNothing yes))
    (hno : CorrectStmt env t c lowerNo (orNothing no)) :
    CorrectStmt env t c (Lowering.conditional (e.lowerTest t) lowerYes lowerNo)
      (.cond pos e yes no) := by
  intro σ f σ' hd hr
  obtain ⟨⟨x, s⟩, σ₁, hx, hr⟩ := run_bind_eq_ok.1 hr
  obtain ⟨⟨onTrue, done⟩, σ₂, hlabels, hr⟩ := run_bind_eq_ok.1 hr
  obtain ⟨noCode, σ₃, hnoRun, hr⟩ := run_bind_eq_ok.1 hr
  obtain ⟨body, σ₄, hyesRun, hr⟩ := run_bind_eq_ok.1 hr
  obtain ⟨rfl, rfl⟩ := run_pure_eq_ok.1 hr
  have hprod := lowerTest_produces hc env hd hx
  have hg₁ := (hprod default).grows
  have hg₂ : Grows σ₁ σ₂ := fun a ha ↦ by rwa [LowerState.Has, LowerM.run_labelPair_eq_ok hlabels]
  obtain ⟨hg₃, hno⟩ := hno σ₂ noCode σ₃ (hd.grows (hg₁.trans hg₂)) hnoRun
  obtain ⟨hg₄, hyes⟩ := hyes σ₃ body σ₄ (hd.grows (hg₁.trans (hg₂.trans hg₃))) hyesRun
  refine ⟨hg₁.trans (hg₂.trans (hg₃.trans hg₄)), fun hn m base hp l store past r past' ha hexec ↦ ?_⟩
  have hnBody := nodup_of_append (nodup_of_append hn).1
  have hnNo := nodup_of_append (nodup_of_append (nodup_of_append hnBody.1).1).1
  simp only [placed_append, placed_instr, placed_label, Fragment.code_append, List.length_append,
    length_code_instr, length_code_label, Nat.add_zero] at hp
  obtain ⟨⟨⟨⟨⟨⟨hps, hbranch⟩, hpno⟩, hgoto⟩, htrue⟩, hpbody⟩, hdone⟩ := hp
  have htest := test_runs (hprod l) hd hps hbranch htrue ha
  have hlast : ∀ (p : Prop) [Decidable p],
      (if p then Fragment.label done else .empty).code.length = 0 := by
    intro p _
    split <;> rfl
  cases hexec with
  | condEnd ht => exact htest.arrives ht
  | @cond _ _ _ _ _ b _ past₁ _ _ ht h =>
    obtain ⟨n, ⟨pc, store₁⟩, hsteps, hpc, ha₁⟩ := htest.arrives ht
    simp only at hpc ha₁
    refine .of_steps hsteps ?_
    subst hpc
    cases b with
    | true =>
      have harr := hyes hnBody.2 m _ hpbody l store₁ past₁ r past' ha₁ h
      simpa [hlast, Nat.add_assoc] using harr
    | false =>
      have harr := hno hnNo.2 m _ (by simpa using hpno) l store₁ past₁ r past' ha₁ h
      cases r with
      | error e => exact harr
      | ok l' =>
        cases hends : noCode.endsWithReturn with
        | true => exact absurd h ((hno hnNo.2).not_ok hnNo.2 hends ha₁)
        | false =>
          obtain ⟨n, ⟨pc, store₂⟩, hsteps', hpc', ha₂⟩ := harr
          simp only at hpc' ha₂
          subst hpc'
          simp only [hends, Bool.not_false, Bool.true_or, if_true, placed_instr, placed_label,
            length_code_instr] at hgoto hdone
          have hgoto' : m.code[base + (s.code.length + 1) + noCode.code.length]? =
              some (.goto done) := by simpa [Nat.add_assoc] using hgoto
          have hend := (runs_goto (asked env) store₂ hgoto' hdone).arrives (Act.result_pure () past')
          obtain ⟨k, s', hk, rfl⟩ := hend
          refine ⟨n + k, _, hsteps'.trans hk, ?_, ha₂⟩
          simp [Nat.add_assoc]

theorem loop_correct (hc : Describes t c) {body : Option Stmt} {lowerBody : LowerM Fragment}
    (hbody : CorrectStmt env t c lowerBody (orNothing body)) :
    CorrectStmt env t c (Lowering.loop (e.lowerTest t) lowerBody) (.loop pos e body) := by
  intro σ f σ' hd hr
  obtain ⟨⟨again, enter, done⟩, σ₁, hlabels, hr⟩ := run_bind_eq_ok.1 hr
  obtain ⟨⟨x, s⟩, σ₂, hx, hr⟩ := run_bind_eq_ok.1 hr
  obtain ⟨b, σ₃, hb, hr⟩ := run_bind_eq_ok.1 hr
  obtain ⟨rfl, rfl⟩ := run_pure_eq_ok.1 hr
  have hg₁ : Grows σ σ₁ := fun a ha ↦ by rwa [LowerState.Has, LowerM.run_labelTriple_eq_ok hlabels]
  have hd₁ := hd.grows hg₁
  have hprod := lowerTest_produces hc env hd₁ hx
  have hg₂ := (hprod default).grows
  obtain ⟨hg₃, hbody⟩ := hbody σ₂ b σ₃ (hd₁.grows hg₂) hb
  refine ⟨hg₁.trans (hg₂.trans hg₃), fun hn m base hp l store past r past' ha hexec ↦ ?_⟩
  have hnBody := (nodup_of_append (nodup_of_append (nodup_of_append hn).1).1).2
  simp only [instrs_cons, placed_append, placed_instr, placed_label, Fragment.code_append,
    List.length_append, length_code_instr, length_code_label, length_code_instrs, List.length_nil,
    Nat.add_zero, Nat.zero_add] at hp ⊢
  obtain ⟨⟨⟨⟨⟨⟨hagain, hps⟩, hbranch, hgoto, -⟩, henter⟩, hpb⟩, hback⟩, hdone⟩ := hp
  have htest : ∀ (l : Locals) (store : Text → Word), Agrees t l store →
      (m.machine (asked env)).Runs ⟨base, store⟩ (test c env l e) fun b s' ↦
        s'.pc = (if b then base + (s.code.length + (1 + 1)) else base + s.code.length + 1) ∧
          Agrees t l s'.store :=
    fun l store ha ↦ test_runs (hprod l) hd₁ hps hbranch henter ha
  -- by induction on the rounds: each one starts where the loop starts
  generalize hloop : Stmt.loop pos e body = loop at hexec
  induction hexec generalizing store with
  | testEnd ht =>
    cases hloop
    exact (htest _ store ha).arrives ht
  | exit ht =>
    cases hloop
    obtain ⟨n, ⟨pc, store₁⟩, hsteps, hpc, ha₁⟩ := (htest _ store ha).arrives ht
    simp only [Bool.false_eq_true, if_false] at hpc ha₁
    subst hpc
    obtain ⟨k, s', hk, rfl⟩ := (runs_goto (asked env) store₁ hgoto hdone).arrives
      (Act.result_pure () _)
    exact ⟨n + k, _, hsteps.trans hk, rfl, ha₁⟩
  | roundEnd ht h =>
    cases hloop
    obtain ⟨n, ⟨pc, store₁⟩, hsteps, hpc, ha₁⟩ := (htest _ store ha).arrives ht
    simp only [if_true] at hpc ha₁
    subst hpc
    have harr := hbody hnBody m _ hpb _ store₁ _ _ _ ha₁ h
    exact .of_steps hsteps harr
  | round ht h _ _ ih =>
    cases hloop
    obtain ⟨n, ⟨pc, store₁⟩, hsteps, hpc, ha₁⟩ := (htest _ store ha).arrives ht
    simp only [if_true] at hpc ha₁
    subst hpc
    obtain ⟨n', ⟨pc, store₂⟩, hsteps', hpc', ha₂⟩ := hbody hnBody m _ hpb _ store₁ _ _ _ ha₁ h
    simp only at hpc' ha₂
    subst hpc'
    have hback' : m.code[base + (s.code.length + (1 + 1)) + b.code.length]? = some (.goto again) := by
      simpa [Nat.add_assoc] using hback
    obtain ⟨k, s', hk, rfl⟩ := (runs_goto (asked env) store₂ hback' hagain).arrives
      (Act.result_pure () _)
    exact .of_steps ((hsteps.trans hsteps').trans hk) (ih store₂ ha₂ rfl)
  | _ => cases hloop

theorem orNothing_correct {s : Option Stmt} (h : ∀ x ∈ s, CorrectStmt env t c (x.lower t) x) :
    CorrectStmt env t c (lowerStmt? t s) (orNothing s) := by
  cases s with
  | none =>
    show CorrectStmt env t c (lowerStmts t []) (.block default [])
    exact stmts_correct (by simp)
  | some x => exact h x rfl

end

/-- The statements that a statement is made of. -/
def Stmt.parts : Stmt → List Stmt
  | .block _ ss => ss
  | .cond _ _ yes no => yes.toList ++ no.toList
  | .loop _ _ body => body.toList
  | .expr _ _ | .assign _ _ _ | .indexAssign _ _ _ _ | .ret _ _ => []

section
variable {pos : Position} {e : Expr} {yes no body : Option Stmt} {x : Stmt}

theorem Stmt.mem_parts_onTrue (h : x ∈ yes) : x ∈ (Stmt.cond pos e yes no).parts :=
  List.mem_append_left _ (Option.mem_toList.2 h)

theorem Stmt.mem_parts_onFalse (h : x ∈ no) : x ∈ (Stmt.cond pos e yes no).parts :=
  List.mem_append_right _ (Option.mem_toList.2 h)

theorem Stmt.mem_parts_loop (h : x ∈ body) : x ∈ (Stmt.loop pos e body).parts := Option.mem_toList.2 h

end

theorem Stmt.sizeOf_lt_of_mem_parts {s x : Stmt} (h : x ∈ s.parts) : sizeOf x < sizeOf s := by
  have hopt : ∀ o : Option Stmt, x ∈ o.toList → sizeOf x < sizeOf o := by
    intro o ho
    obtain rfl := Option.mem_toList.1 ho
    simp
  cases s with
  | block _ ss =>
    have : sizeOf x < sizeOf ss := List.sizeOf_lt_of_mem h
    simp only [block.sizeOf_spec]
    omega
  | cond _ _ yes no =>
    simp only [cond.sizeOf_spec]
    rcases List.mem_append.1 h with h | h
    · have := hopt _ h
      omega
    · have := hopt _ h
      omega
  | loop _ _ body =>
    have := hopt _ h
    simp only [loop.sizeOf_spec]
    omega
  | expr _ _ | assign _ _ _ | indexAssign _ _ _ _ | ret _ _ => cases h

theorem Stmt.induction {P : Stmt → Prop} (h : ∀ s : Stmt, (∀ x ∈ s.parts, P x) → P s) (s : Stmt) :
    P s :=
  h s fun x _ ↦ Stmt.induction h x
termination_by sizeOf s
decreasing_by exact Stmt.sizeOf_lt_of_mem_parts ‹_›

/-- **Lowered statements do what the statements do.** -/
theorem Stmt.lower_correct {t : Scope} {c : Context} (hc : Describes t c)
    (hthis : t.sig.isStatic = false → ∀ v, t.lookup Method.receiver ≠ some (.var v))
    (env : Env Effect) (s : Stmt) : CorrectStmt env t c (s.lower t) s := by
  induction s using Stmt.induction with
  | h s ih =>
    cases s with
    | block pos ss => exact stmts_correct ih
    | cond pos e yes no =>
      exact conditional_correct hc (orNothing_correct fun x hx ↦ ih x (mem_parts_onTrue hx))
        (orNothing_correct fun x hx ↦ ih x (mem_parts_onFalse hx))
    | loop pos e body =>
      exact loop_correct hc (orNothing_correct fun x hx ↦ ih x (mem_parts_loop hx))
    | expr pos e =>
      intro σ f σ' hd hr
      obtain ⟨hg, hruns⟩ := effects_runs hc hd hr
      refine ⟨hg, fun _ m base hp l store past r past' ha hexec ↦ ?_⟩
      cases hexec with
      | expr h => exact (hruns m base l store hp ha).arrives h
    | assign pos name value =>
      intro σ f σ' hd hr
      obtain ⟨hg, hruns⟩ := assign_runs hc hthis hd hr
      refine ⟨hg, fun _ m base hp l store past r past' ha hexec ↦ ?_⟩
      cases hexec with
      | assign h => exact (hruns m base l store hp ha).arrives h
    | indexAssign pos name index value =>
      intro σ f σ' hd hr
      obtain ⟨hg, hruns⟩ := indexAssign_runs hc hd hr
      refine ⟨hg, fun _ m base hp l store past r past' ha hexec ↦ ?_⟩
      cases hexec with
      | assignElement h => exact (hruns m base l store hp ha).arrives h
    | ret pos value =>
      intro σ f σ' hd hr
      obtain ⟨hg, hruns⟩ := ret_runs hc hd hr
      refine ⟨hg, fun _ m base hp l store past r past' ha hexec ↦ ?_⟩
      cases hexec with
      | ret h => exact (hruns m base l store _ hp ha).arrives h

end MiniJava
