import MiniJava.Proofs.InternalErrors
import MiniJava.Proofs.MirroredClass
import MiniJava.Proofs.StrategyChoice

/-!
# Methods that return

Control never runs past the end of a method that returns (`control_leaves_at_returns`).  A method returns
if it has no result, or if its last statement is `Returning`, which is said of the source: it is a
return, or a block whose last statement is returning, or a conditional of which both cases are.

Whether code ends in a return is decided from the code, by a look at its last instruction and at the labels
behind it.  A returning statement is lowered to code of which this is true (`Stmt.Returning.ends`): what
stands before the last part may place labels at its own end, but these are not at the end of the whole,
since a part that ends in a return has an instruction.

The emitter finds a jump past the end by a look at the labels there.  It stops for that reason nowhere
else (`emitMethod_pastEnd`), so it never does so for such a method.
-/

set_option autoImplicit false

namespace MiniJava

open IR

/-! ## Returning statements -/

/-- **A returning statement**: control never gets to its end. -/
inductive Stmt.Returning : Stmt → Prop
  | ret (pos : Position) (value : Option Expr) : Returning (.ret pos value)
  | block (pos : Position) {ss : List Stmt} {s : Stmt} (hlast : ss.getLast? = some s)
      (hs : Returning s) : Returning (.block pos ss)
  | cond (pos : Position) (test : Expr) {yes no : Stmt} (hyes : Returning yes) (hno : Returning no) :
      Returning (.cond pos test (some yes) (some no))

namespace Fragment

theorem endsWithReturn_iff {f : Fragment} : f.endsWithReturn = true ↔
    (∀ l ∈ f.labels, l.2 ≠ f.code.length) ∧ ∃ x, f.code.getLast? = some x ∧ x.isReturn = true := by
  rw [endsWithReturn_def, Bool.and_eq_true, List.all_eq_true, Option.any_eq_true]
  simp

theorem endsWithReturn_ret (x : Operand) (ty : Ty) : (instr (.ret x ty)).endsWithReturn = true := rfl

/-- Labels at the end of a first part are not at the end of the whole. -/
theorem Bounded.endsWithReturn_append {f g : Fragment} (hf : f.Bounded)
    (hg : g.endsWithReturn = true) : (f ++ g).endsWithReturn = true := by
  obtain ⟨hlabels, x, hx, hret⟩ := endsWithReturn_iff.1 hg
  have hlen : 0 < g.code.length := List.length_pos_of_mem (List.mem_of_getLast? hx)
  refine endsWithReturn_iff.2 ⟨fun l hl ↦ ?_, x, ?_, hret⟩
  · rw [code_append, List.length_append]
    rw [labels_append, List.mem_append] at hl
    rcases hl with hl | hl
    · have := hf l hl
      omega
    · obtain ⟨l', hl', rfl⟩ := List.mem_map.1 hl
      have := hlabels l' hl'
      dsimp only
      omega
  · rw [code_append, List.getLast?_append, hx, Option.some_or]

end Fragment

/-- A step of lowering gives code that ends in a return. -/
def EndsInReturn (t : Scope) (lo : Nat) (step : LowerM Fragment) : Prop :=
  ∀ σ f σ', Beside t lo lo σ σ → step.run σ = (.ok f, σ') → f.endsWithReturn = true

namespace Lowering

variable {t : Scope} {lo : Nat}

theorem ret_ends (pos : Position) (value : Option Expr) : EndsInReturn t lo (ret t pos value) := by
  intro σ f σ' hb hrun
  cases value with
  | none =>
    rw [ret] at hrun
    split at hrun
    · obtain ⟨rfl, -⟩ := LowerM.run_pure_eq_ok.1 hrun
      exact Fragment.endsWithReturn_ret _ _
    · exact absurd hrun LowerM.run_unsupported
  | some e =>
    rw [ret] at hrun
    split at hrun
    · exact absurd hrun LowerM.run_unsupported
    · obtain ⟨⟨x, s⟩, σ₁, hx, hrun⟩ := LowerM.run_bind_eq_ok.1 hrun
      obtain ⟨rfl, -⟩ := LowerM.run_pure_eq_ok.1 hrun
      have hs := ((operand_both (e.lower_mirror t lo lo False.elim) hb t.sig.ret).of_run hx).1
      exact hs.closed.bounded.endsWithReturn_append (Fragment.endsWithReturn_ret _ _)

/-- Statements end as the last one does. -/
theorem stmts_end {ss : List Stmt} {s : Stmt} (hlast : ss.getLast? = some s)
    (hs : EndsInReturn t lo (s.lower t)) : EndsInReturn t lo (lowerStmts t ss) := by
  induction ss with
  | nil => cases hlast
  | cons x ss ih =>
    intro σ f σ' hb hrun
    obtain ⟨f₁, σ₁, hx, hrun⟩ := LowerM.run_bind_eq_ok.1 hrun
    obtain ⟨f₂, σ₂, hss, hrun⟩ := LowerM.run_bind_eq_ok.1 hrun
    obtain ⟨rfl, -⟩ := LowerM.run_pure_eq_ok.1 hrun
    cases ss with
    | nil =>
      cases hlast
      obtain ⟨rfl, -⟩ := LowerM.run_pure_eq_ok.1 hss
      rw [Fragment.append_empty]
      exact hs σ f₁ σ₁ hb hx
    | cons y ss =>
      have hfirst := (x.lower_mirror False.elim False.elim σ σ hb).of_run hx
      rw [List.getLast?_cons_cons] at hlast
      exact hfirst.closed.bounded.endsWithReturn_append (ih hlast σ₁ f₂ σ₂ hfirst.beside hss)

/-- A conditional both cases of which end in a return has no label at its end. -/
theorem conditional_ends {test : LowerM (Instr × Fragment)} {onTrue onFalse : LowerM Fragment}
    (ht : MirrorTest t False lo lo test) (hmirror : MirrorStep t False lo lo onFalse)
    (hyes : EndsInReturn t lo onTrue) (hno : EndsInReturn t lo onFalse) :
    EndsInReturn t lo (conditional test onTrue onFalse) := by
  intro σ f σ' hb hrun
  obtain ⟨⟨cond, s⟩, σ₁, htest, hrun⟩ := LowerM.run_bind_eq_ok.1 hrun
  obtain ⟨⟨yes, done⟩, σ₂, hlabels, hrun⟩ := LowerM.run_bind_eq_ok.1 hrun
  obtain ⟨no, σ₃, honFalse, hrun⟩ := LowerM.run_bind_eq_ok.1 hrun
  obtain ⟨body, σ₄, honTrue, hrun⟩ := LowerM.run_bind_eq_ok.1 hrun
  obtain ⟨rfl, -⟩ := LowerM.run_pure_eq_ok.1 hrun
  have hs := ((ht σ σ hb).of_run htest).1
  have hgives := (labelPair_both hs.beside (by decide)).of_run hlabels
  have hfalse := (hmirror σ₂ σ₂ hgives.beside).of_run honFalse
  have hends := hno σ₂ no σ₃ hgives.beside honFalse
  have hends' := hyes σ₃ body σ₄ hfalse.beside honTrue
  simp only [hends, hends', Bool.not_true, Bool.or_self, Bool.false_eq_true, if_false,
    Fragment.append_empty]
  refine Fragment.Bounded.endsWithReturn_append ?_ hends'
  apply_rules [Fragment.Bounded.append, Fragment.bounded_instr, Fragment.bounded_label,
    hs.closed.bounded, hfalse.closed.bounded]

end Lowering

open Lowering in
/-- **Returning statements are lowered to code that ends in a return.** -/
theorem Stmt.Returning.ends {t : Scope} {lo : Nat} {s : Stmt} (h : s.Returning) :
    EndsInReturn t lo (s.lower t) := by
  induction h with
  | ret pos value => exact ret_ends pos value
  | block pos hlast _ ih => exact stmts_end hlast ih
  | cond pos test _ _ hyes hno =>
    exact conditional_ends (test.lowerTest_mirror False.elim)
      (stmt?_mirror fun x _ ↦ x.lower_mirror False.elim False.elim) hyes hno

/-! ## Methods -/

/-- **Control leaves the code at returns only**: the code ends in a return, each label that is jumped to
stands before an instruction, and a path from one of the instructions stays inside the code and cannot be
continued just where it arrives at a return. -/
structure IR.Method.LeavesAtReturns (m : Method) : Prop where
  last : ∃ x, m.code.getLast? = some x ∧ x.isReturn = true
  target : ∀ x ∈ m.code, ∀ label, x.target? = some label →
    ∃ j < m.code.length, m.target? label = some (j : Int)
  path : ∀ i is k, i < m.code.length → m.Path i is k →
    ∃ x, m.code[k]? = some x ∧ ((∀ j, ¬ m.Next k j) ↔ x.isReturn = true)

section
variable {m : Method} (hlast : ∃ x, m.code.getLast? = some x ∧ x.isReturn = true)
  (htarget : ∀ x ∈ m.code, ∀ label, x.target? = some label →
    ∃ j < m.code.length, m.target? label = some (j : Int))
include hlast htarget

/-- One step stays inside the code: the last instruction does not fall through. -/
theorem IR.Method.Next.goal_lt_length {i j : Nat} (h : m.Next i j) : j < m.code.length := by
  cases h with
  | fall hx hf =>
    have hi := (List.getElem?_eq_some_iff.1 hx).1
    obtain ⟨y, hy, hret⟩ := hlast
    by_contra hj
    obtain rfl : i = m.code.length - 1 := by omega
    rw [← List.getLast?_eq_getElem?, hy] at hx
    obtain rfl := Option.some.inj hx
    cases y with
    | ret _ _ => cases hf
    | _ => cases hret
  | jump hx hl hj =>
    obtain ⟨k, hk, htk⟩ := htarget _ (List.mem_of_getElem? hx) _ hl
    obtain rfl := Int.ofNat_inj.1 (Option.some.inj (hj.symm.trans htk))
    exact hk

theorem IR.Method.Path.lt_length {i k : Nat} {is : List Nat} (h : m.Path i is k)
    (hi : i < m.code.length) : k < m.code.length := by
  induction h with
  | nil => exact hi
  | cons hn _ ih => exact ih (hn.goal_lt_length hlast htarget)

omit hlast in
/-- Control goes on from every instruction but a return. -/
theorem IR.Method.not_next_iff_isReturn {k : Nat} {x : Instr} (hx : m.code[k]? = some x) :
    (∀ j, ¬ m.Next k j) ↔ x.isReturn = true := by
  constructor
  · intro hstop
    by_contra hret
    by_cases hf : x.fallsThrough = true
    · exact hstop _ (.fall hx hf)
    · cases x with
      | goto label =>
        obtain ⟨j, -, hj⟩ := htarget _ (List.mem_of_getElem? hx) label rfl
        exact hstop j (.jump hx rfl hj)
      | ret _ _ => exact hret rfl
      | _ => exact hf rfl
  · intro hret j hn
    cases x with
    | ret y ty =>
      rcases (next_iff hx).1 hn with ⟨hf, -⟩ | ⟨label, hl, -⟩
      · cases hf
      · cases hl
    | _ => cases hret

theorem IR.Method.leavesAtReturns : m.LeavesAtReturns where
  last := hlast
  target := htarget
  path i is k hi hp := by
    have hk := hp.lt_length hlast htarget hi
    exact ⟨_, List.getElem?_eq_getElem hk,
      not_next_iff_isReturn htarget (List.getElem?_eq_getElem hk)⟩

end

/-- A method that is made of a closed fragment which ends in a return. -/
theorem Fragment.Closed.leavesAtReturns {m : Method} {f : Fragment} {lo hi : Nat}
    (hf : f.Closed lo hi) (hends : f.endsWithReturn = true) (hcode : m.code = f.code)
    (hlabels : m.labels.entries = f.labels.map fun (name, i) ↦ (name, (i : Int))) :
    m.LeavesAtReturns := by
  obtain ⟨hend, hlast⟩ := endsWithReturn_iff.1 hends
  refine Method.leavesAtReturns (hcode ▸ hlast) fun x hx label hl ↦ ?_
  obtain ⟨⟨_, i⟩, hi, rfl⟩ := List.mem_map.1 (hf.wanted (List.mem_filterMap.2 ⟨x, hcode ▸ hx, hl⟩))
  have htarget := (placed_of_method hcode hlabels).labels _ i hi
  rw [Nat.zero_add] at htarget
  refine ⟨i, ?_, htarget⟩
  rw [hcode]
  exact Nat.lt_of_le_of_ne (hf.bounded _ hi) (hend _ hi)

/-- **A method returns**: it has no result, or its last statement is returning. -/
def Returns (d : MethodDecl) (m : Method) : Prop :=
  m.ret.isVoid = true ∨ ∃ s, d.body.getLast? = some s ∧ s.Returning

namespace Lowering

theorem close_ends {ret : Ty} {f : Fragment} (hf : f.Bounded)
    (h : ret.isVoid = true ∨ f.endsWithReturn = true) : (close ret f).endsWithReturn = true := by
  rw [close]
  split
  · exact hf.endsWithReturn_append (Fragment.endsWithReturn_ret _ _)
  · rename_i hclose
    rcases h with hret | hends
    · simpa [hret] using hclose
    · exact hends

theorem LoweredBy.leavesAtReturns {t : Scope} {d : MethodDecl} {m : Method} {σ σ' : LowerState}
    {f : Fragment} (h : LoweredBy t d m σ σ' f) (hd : Returns d m) : m.LeavesAtReturns := by
  have hb := beside_self h.declares
  have hbody := (stmts_mirror (fun s _ ↦ s.lower_mirror False.elim False.elim) σ σ hb).of_run h.body
  refine (close_both hbody t.sig.ret).closed.leavesAtReturns ?_ h.code h.labels
  refine close_ends hbody.closed.bounded (hd.imp (fun hret ↦ h.ret ▸ hret) ?_)
  rintro ⟨s, hlast, hs⟩
  exact stmts_end hlast hs.ends σ f σ' hb h.body

theorem constructor_leavesAtReturns (t : Symbols) : (constructor t).LeavesAtReturns := by
  refine Method.leavesAtReturns ⟨_, rfl, rfl⟩ fun x hx label hl ↦ ?_
  obtain rfl | rfl := List.mem_pair.1 hx
  · cases hl
  · cases hl

end Lowering

/-! ## Errors of the emitter -/

namespace Jvm

theorem assemble_pastEnd {c : ClassDef} {err : Error} (h : assemble c = .error err) {name label : Text}
    (hcause : err.cause = .defect (.branchPastEnd name label)) :
    ∃ m ∈ c.methods, name = m.name ∧ targetPastEnd? m = some label := by
  rcases Except.bind_eq_error.1 h with h | ⟨texts, -, h⟩
  · obtain ⟨m, hm, hfail⟩ := Except.exists_of_mapM_eq_error h
    rcases Except.bind_eq_error.1 hfail with hfail | ⟨e, -, hfail⟩
    · obtain ⟨err', herr, rfl⟩ := withinPlace_eq_error.1 hfail
      exact ⟨m, hm, emitMethod_pastEnd herr hcause⟩
    · cases hfail
  · cases h

end Jvm

/-- No label at the end is jumped to, whatever the registers are. -/
theorem IR.Method.LeavesAtReturns.targetPastEnd? {m : Method} (h : m.LeavesAtReturns)
    (reg : Variable → Int) : Jvm.targetPastEnd? (m.withRegs reg) = none := by
  refine List.find?_eq_none.2 fun label hlabel hany ↦ ?_
  obtain ⟨x, hx, hl⟩ := List.any_eq_true.1 hany
  obtain ⟨j, hj, htarget⟩ := h.target x hx label (of_decide_eq_true hl)
  have hend := lookup_eq_some_of_mem m.labels.nodup (Labels.mem_namesAt.1 hlabel)
  have heq : m.code.length = j := Int.ofNat_inj.1 (Option.some.inj (hend.symm.trans htarget))
  omega

/-! ## Programs -/

/-- **Control never runs past the end of a method that returns.**  It leaves the code of such a method, and
of the constructor, at returns only, and the emitter never finds a jump past its end, whatever class and
registers it is given.  If the assembly of the class is stopped by such a jump, it is in a method that does
not return. -/
theorem control_leaves_at_returns {t : Symbols} {p : Program} {fresh : Fresh} {c : ClassDef}
    (hlower : (lowerProgram t (some p) fresh).1 = .ok c) :
    ∃ ms, c.methods = Lowering.constructor t :: ms ∧ (Lowering.constructor t).LeavesAtReturns ∧
      List.Forall₂ (fun d m ↦ m.name = d.name ∧ (Returns d m → m.LeavesAtReturns ∧
        ∀ c' reg err name label, Jvm.emitMethod c' (m.withRegs reg) = .error err →
          err.cause ≠ .defect (.branchPastEnd name label))) p.cls.methods ms ∧
      ∀ s c' err name label, Allocation.cls s c = .ok c' → Jvm.assemble c' = .error err →
        err.cause = .defect (.branchPastEnd name label) →
        ∃ d m, (d, m) ∈ p.cls.methods.zip ms ∧ m.name = name ∧ ¬ Returns d m := by
  have hrun : lowerProgram t (some p) fresh = (.ok c, (lowerProgram t (some p) fresh).2) :=
    Prod.ext hlower rfl
  obtain ⟨ms, rfl, hms⟩ := lowerProgram_spec hrun
  have hinside : ∀ d m, (d, m) ∈ p.cls.methods.zip ms →
      m.name = d.name ∧ (Returns d m → m.LeavesAtReturns) := by
    intro d m hdm
    obtain ⟨σ, σ', hm⟩ := (List.forall₂_iff_zip.1 hms).2 hdm
    obtain ⟨sig, σ₁, f, -, hby⟩ := Lowering.method_spec hm
    exact ⟨hby.name, hby.leavesAtReturns⟩
  refine ⟨ms, rfl, Lowering.constructor_leavesAtReturns t, List.forall₂_iff_zip.2
    ⟨hms.length_eq, fun {d m} hdm ↦ ⟨(hinside d m hdm).1, fun hd ↦ ?_⟩⟩, ?_⟩
  · have hm := (hinside d m hdm).2 hd
    refine ⟨hm, fun c' reg err name label herr hcause ↦ ?_⟩
    have hpast := (Jvm.emitMethod_pastEnd herr hcause).2
    rw [hm.targetPastEnd? reg] at hpast
    cases hpast
  · intro s c' err name label halloc herr hcause
    obtain ⟨m', hm', rfl, hpast⟩ := Jvm.assemble_pastEnd herr hcause
    obtain ⟨m, hm, hslots⟩ := exists_of_mem_right (Jvm.cls_spec halloc).1 hm'
    obtain ⟨reg, rfl⟩ := Allocation.exists_withRegs hslots
    have hleaves : ¬ m.LeavesAtReturns := by
      intro h
      rw [h.targetPastEnd? reg] at hpast
      cases hpast
    rcases List.mem_cons.1 hm with rfl | hm
    · exact absurd (Lowering.constructor_leavesAtReturns t) hleaves
    · obtain ⟨i, hi⟩ := List.mem_iff_getElem?.1 hm
      have hlt : i < p.cls.methods.length := hms.length_eq ▸ (List.getElem?_eq_some_iff.1 hi).1
      have hd := List.getElem?_eq_getElem hlt
      have hdm : (_, m) ∈ _ := List.mem_of_getElem? (List.getElem?_zip_eq_some.2 ⟨hd, hi⟩)
      exact ⟨_, m, hdm, rfl, fun hd ↦ hleaves ((hinside _ m hdm).2 hd)⟩

/-- A class with a method that returns in both cases of a conditional, one without result that ends in a
loop, and one with a result that ends in a loop. -/
def paths : Program where
  pos := default
  cls := {
    pos := default, name := "Paths"
    methods := [
      { pos := default, name := "pick", ret := { name := "int" }
        params := [{ pos := default, name := "c", type := { name := "boolean" } }]
        body := [.cond default (.ident default "c")
          (some (.block default [.ret default (some (.int default "1"))]))
          (some (.ret default (some (.int default "2"))))] },
      { pos := default, name := "tick", ret := { name := "void" }
        params := [{ pos := default, name := "c", type := { name := "boolean" } }]
        body := [.loop default (.ident default "c")
          (some (.assign default "c" (.bool default false)))] },
      { pos := default, name := "spin", ret := { name := "int" }
        params := [{ pos := default, name := "c", type := { name := "boolean" } }]
        body := [.loop default (.ident default "c") none] }] }

/-- The first two methods return.  The third one does not, and stops the assembly. -/
theorem paths_leave_at_returns : ∃ t c pick tick spin c' err label, Symbols.build paths = .ok t ∧
    (lowerProgram t (some paths) {}).1 = .ok c ∧
    c.methods = [Lowering.constructor t, pick, tick, spin] ∧ pick.LeavesAtReturns ∧
    tick.LeavesAtReturns ∧ Allocation.cls .ranges c = .ok c' ∧ Jvm.assemble c' = .error err ∧
    err.cause = .defect (.branchPastEnd "spin" label) ∧
    ∃ d m, (d, m) ∈ paths.cls.methods.zip [pick, tick, spin] ∧ m.name = "spin" ∧ ¬ Returns d m := by
  obtain ⟨t, hbuild⟩ : ∃ t, Symbols.build paths = .ok t := ⟨_, rfl⟩
  obtain ⟨c, c', hlower, halloc, htest⟩ : ∃ c c', (lowerProgram t (some paths) {}).1 = .ok c ∧
      Allocation.cls .ranges c = .ok c' ∧ (c.methods.map (·.ret.isVoid) == [true, false, true, false] &&
        match Jvm.assemble c' with
        | .ok _ => false
        | .error err => err.cause == .defect (.branchPastEnd "spin" "end_2")) = true := by
    cases hbuild
    exact Except.exists_of_test (by decide +kernel)
  rw [Bool.and_eq_true, beq_iff_eq] at htest
  obtain ⟨hvoid, hfail⟩ := htest
  obtain ⟨err, herr, hcause⟩ : ∃ err, Jvm.assemble c' = .error err ∧
      err.cause = .defect (.branchPastEnd "spin" "end_2") := by
    split at hfail
    · cases hfail
    · exact ⟨_, ‹_›, beq_iff_eq.1 hfail⟩
  obtain ⟨ms, hms, -, hall, hpast⟩ := control_leaves_at_returns hlower
  have hspin := hpast .ranges c' err "spin" "end_2" halloc herr hcause
  obtain _ | ⟨hpick, _ | ⟨htick, _ | ⟨-, _ | -⟩⟩⟩ := hall
  rw [hms] at hvoid
  simp only [List.map_cons, List.map_nil, List.cons.injEq, and_true] at hvoid
  refine ⟨t, c, _, _, _, c', err, "end_2", hbuild, hlower, hms, ?_, ?_, halloc, herr, hcause, hspin⟩
  · exact (hpick.2 (.inr ⟨_, rfl, .cond _ _ (.block _ rfl (.ret _ _)) (.ret _ _)⟩)).1
  · exact (htick.2 (.inl hvoid.2.2.1)).1

end MiniJava
