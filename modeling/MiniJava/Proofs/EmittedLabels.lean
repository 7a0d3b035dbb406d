import MiniJava.Proofs.EmittedMarks
import MiniJava.Proofs.InternalErrors
import MiniJava.Proofs.MirroredClass
import MiniJava.Proofs.StrategyChoice

/-!
# Branches of the assembly

In the assembly of a program every jump goes to a label that stands in the same method, and no label
stands there twice (`branches_are_closed`).  The labels of the intermediate code stand right before the
lines of the instruction that they belong to, in the order of their names.

What the lines of a whole method mention is what the method places and private labels
(`labelNames_before`, `Emitted.jumps_before`), since that is so for each instruction (`instr_marks`).  That
the method places all labels which it jumps to is known from lowering.  Nothing is asked of the names of
variables.
-/

set_option autoImplicit false

namespace MiniJava

open IR

namespace Jvm

/-! ## Lines -/

/-- The instruction, if it invokes a method. -/
def Instr.invocation? : Instr → Option Instr
  | invoke how cls method params result => some (invoke how cls method params result)
  | _ => none

/-- The invocations among lines. -/
def invocations (ls : List Line) : List Instr :=
  ls.filterMap fun
    | .label _ => none
    | .instr i => i.invocation?

@[simp] theorem invocations_append (ls ls' : List Line) :
    invocations (ls ++ ls') = invocations ls ++ invocations ls' := List.filterMap_append

@[simp] theorem invocations_labels (names : List Text) : invocations (names.map .label) = [] := by
  rw [invocations, List.filterMap_map]
  exact List.filterMap_eq_nil_iff.2 fun _ _ ↦ rfl

/-- What a mark invokes. -/
def Mark.invocation? : Mark → Option Instr
  | invoke i => some i
  | equality _ | new _ => none

/-- The invocations of lines are those of the calls that the lines belong to. -/
theorem Marked.invocations {own : List Text} {n n' : Nat} {ls : List Line} {c : ClassDef} {calls : List Call}
    {sites : List Site} (h : Marked own (marksOf c calls sites) n n' ls) :
    Jvm.invocations ls = calls.filterMap (invocationOf? c) := by
  have hlines : Jvm.invocations ls = (ls.filterMap Line.mark?).filterMap Mark.invocation? := by
    rw [List.filterMap_filterMap]
    refine List.filterMap_congr fun l _ ↦ ?_
    cases l with
    | label _ => rfl
    | instr i =>
      cases i with
      | ifCompare cond label => cases cond <;> rfl
      | _ => rfl
  have hcall (x : Call) : (callMarks c x).filterMap Mark.invocation? = (invocationOf? c x).toList := by
    rw [callMarks]
    split
    · rename_i hk
      rw [invocationOf?, hk]
      rfl
    · cases invocationOf? c x <;> rfl
  have hequalities (conds : List Cond) :
      (conds.map Mark.equality).filterMap Mark.invocation? = [] := by
    rw [List.filterMap_map]
    exact List.filterMap_eq_nil_iff.2 fun _ _ ↦ rfl
  rw [hlines, h.marks, marksOf, List.filterMap_append, hequalities, List.append_nil, List.filterMap_flatMap]
  simp only [hcall, List.filterMap_eq_flatMap_toList]

/-! ## Methods -/

/-- The labels of an index stand in the order of their names. -/
theorem sorted_namesAt (ls : Labels) (index : Int) :
    (ls.namesAt index).Pairwise fun a b ↦ b.isBefore a = false := by
  have hsorted := List.pairwise_mergeSort Text.not_isBefore_trans Text.not_isBefore_total
    ((ls.entries.filter fun e ↦ e.2 == index).map Prod.fst)
  exact hsorted.imp fun h ↦ by simpa using h

/-- The states of the emitter between the instructions of a method, which ends with some lines. -/
structure Emitted (c : ClassDef) (m : Method) (lines : List Line) (es : Nat → Emitter) : Prop where
  first : es 0 = {}
  last : (es m.code.length).lines = lines
  step : ∀ i x, m.code[i]? = some x →
    (emitAt c m (stackTemp? m) i x).run (es i) = .ok ((), es (i + 1))

/-- A list of steps passes through states. -/
theorem exists_states {α : Type} {f : α → Nat → EmitM Unit} {xs : List α} {k : Nat} {e e' : Emitter}
    {u : Unit} (h : ((xs.zipIdx k).forM fun (x, i) ↦ f x i).run e = .ok (u, e')) :
    ∃ es : Nat → Emitter, es 0 = e ∧ es xs.length = e' ∧
      ∀ i x, xs[i]? = some x → (f x (k + i)).run (es i) = .ok ((), es (i + 1)) := by
  induction xs generalizing e k with
  | nil =>
    cases h
    exact ⟨fun _ ↦ e', rfl, rfl, by simp⟩
  | cons x xs ih =>
    obtain ⟨_, e₁, hx, h₁⟩ := EmitM.bind_eq_ok.1 h
    obtain ⟨es, h0, hlast, hes⟩ := ih h₁
    refine ⟨fun i ↦ i.casesOn e es, rfl, hlast, fun i y hy ↦ ?_⟩
    cases i with
    | zero =>
      cases hy
      show (f x k).run e = .ok ((), es 0)
      rw [h0]
      exact hx
    | succ i =>
      have := hes i y (by simpa using hy)
      rwa [Nat.add_right_comm, Nat.add_assoc] at this

section
variable {c : ClassDef} {m : Method} {e : Emitter}

theorem exists_emitted (h : emitMethod c m = .ok e) :
    targetPastEnd? m = none ∧ ∃ es, Emitted c m e.lines es := by
  obtain ⟨⟨_, e₁⟩, hcode, h₁⟩ := Except.bind_eq_ok.1 h
  cases hend : targetPastEnd? m with
  | some label =>
    rw [hend] at h₁
    cases h₁
  | none =>
    rw [hend] at h₁
    cases h₁
    obtain ⟨es, h0, hlast, hes⟩ := exists_states (f := fun x i ↦ emitAt c m (stackTemp? m) i x) hcode
    exact ⟨rfl, es, h0, by rw [hlast], fun i x hx ↦ by simpa using hes i x hx⟩

/-- What the emitter does at the instruction of an index: it writes the labels there, and behind them the
lines of the instruction. -/
theorem emitAt_writes {keepAt : Nat → Option Text} {i : Nat} {x : IR.Instr} {u : Unit} {e' : Emitter}
    (h : (emitAt c m keepAt i x).run e = .ok (u, e')) :
    ∃ e₁ block, e₁.lines = e.lines ++ (m.labels.namesAt i).map .label ∧
      (instr c m x).run e₁ = .ok ((), e') ∧ e'.lines = e₁.lines ++ block ∧
      Marked x.target?.toList (marksOf c x.calls x.sites) e.nextLabel e'.nextLabel block := by
  rw [emitAt] at h
  obtain ⟨_, e₁, hlabels, h₁⟩ := EmitM.bind_eq_ok.1 h
  have hw := (forM_placeLabel_spec (within_eq_ok hlabels)).1
  rw [EmitM.run_get_bind] at h₁
  obtain ⟨keep, hinstr⟩ : ∃ keep, (instr c m x).run { e₁ with keep } = .ok ((), e') := by
    cases hat : keepAt i with
    | none =>
      rw [hat] at h₁
      exact ⟨e₁.keep, (checked_spec h₁).1⟩
    | some name =>
      rw [hat] at h₁
      obtain ⟨_, e₂, hset, h₂⟩ := EmitM.bind_eq_ok.1 h₁
      cases hset
      exact ⟨_, (checked_spec h₂).1⟩
  obtain ⟨-, block, hblock, hmarked⟩ := instr_marks x _ _ hinstr
  refine ⟨{ e₁ with keep }, block, hw.lines, hinstr, hblock, ?_⟩
  rw [← hw.nextLabel]
  exact hmarked

end

namespace Emitted

variable {c : ClassDef} {m : Method} {lines : List Line} {es : Nat → Emitter}
  (h : Emitted c m lines es)
include h

/-- The lines of one more instruction. -/
theorem exists_block {i : Nat} (hi : i < m.code.length) : ∃ x block, m.code[i]? = some x ∧
    (es (i + 1)).lines = (es i).lines ++ ((m.labels.namesAt i).map .label ++ block) ∧
    Marked x.target?.toList (marksOf c x.calls x.sites) (es i).nextLabel
      (es (i + 1)).nextLabel block := by
  have hx := List.getElem?_eq_getElem hi
  obtain ⟨e₁, block, h₁, -, hlines, hm⟩ := emitAt_writes (h.step i _ hx)
  exact ⟨_, block, hx, by rw [hlines, h₁, List.append_assoc], hm⟩

/-- The labels of earlier instructions have been written. -/
theorem mem_labelNames_before {i j : Nat} (hi : i ≤ m.code.length) (hj : j < i) {name : Text}
    (hname : name ∈ m.labels.namesAt j) : name ∈ labelNames (es i).lines := by
  induction i with
  | zero => omega
  | succ i ih =>
    obtain ⟨x, block, -, hlines, -⟩ := h.exists_block hi
    rw [hlines, labelNames_append, labelNames_append, labelNames_labels, List.mem_append, List.mem_append]
    by_cases hij : j = i
    · exact .inr (.inl (hij ▸ hname))
    · exact .inl (ih (by omega) (by omega))

/-- The jumps written so far go to labels written so far, or where the code goes to. -/
theorem jumps_before {i : Nat} (hi : i ≤ m.code.length) : ∀ name ∈ jumpNames (es i).lines,
    name ∈ labelNames (es i).lines ∨ ∃ x ∈ m.code, x.target? = some name := by
  induction i with
  | zero =>
    rw [h.first]
    simp [jumpNames]
  | succ i ih =>
    obtain ⟨x, block, hx, hlines, hm⟩ := h.exists_block hi
    intro name hname
    rw [hlines, jumpNames_append, jumpNames_append, jumpNames_labels, List.nil_append,
      List.mem_append] at hname
    rw [hlines, labelNames_append, labelNames_append, List.mem_append, List.mem_append]
    rcases hname with hname | hname
    · exact (ih (by omega) name hname).imp_left .inl
    · rcases hm.jumps name hname with hown | hlabel
      · exact .inr ⟨x, List.mem_of_getElem? hx, Option.mem_toList.1 hown⟩
      · exact .inl (.inr (.inr hlabel))

end Emitted

/-! ## Closed branches -/

theorem count_label (name : Text) (ls : List Line) :
    ls.count (.label name) = (labelNames ls).count name := by
  induction ls with
  | nil => rfl
  | cons l ls ih =>
    cases l with
    | label name' =>
      have hcons : labelNames (.label name' :: ls) = name' :: labelNames ls := rfl
      rw [hcons, List.count_cons, List.count_cons, ih]
      simp
    | instr i =>
      have hcons : labelNames (.instr i :: ls) = labelNames ls := rfl
      rw [hcons, List.count_cons, ih]
      simp

/-- **The branches of a method are closed** in its lines.  A jump has one label, and no label stands
twice; the labels of an index stand in the order of their names right before the lines of the instruction
there. -/
structure ClosedBranches (c : ClassDef) (m : Method) (lines : List Line) : Prop where
  target : ∀ i label, .instr i ∈ lines → i.target? = some label → lines.count (.label label) = 1
  once : ∀ label, lines.count (.label label) ≤ 1
  order : ∀ index, (m.labels.namesAt index).Pairwise fun a b ↦ b.isBefore a = false
  names : ∀ index label, label ∈ m.labels.namesAt index ↔ m.target? label = some index
  blocks : ∃ es, Emitted c m lines es ∧ ∀ k x, m.code[k]? = some x → ∃ e block,
    e.lines = (es k).lines ++ (m.labels.namesAt k).map .label ∧
    (instr c m x).run e = .ok ((), es (k + 1)) ∧ (es (k + 1)).lines = e.lines ++ block

/-- A method has closed branches if it places the labels that it jumps to, none of them private. -/
theorem closedBranches {c : ClassDef} {m : Method} {e : Emitter} (h : emitMethod c m = .ok e)
    (hl : ∀ entry ∈ m.labels.entries, ¬ IsPrivate entry.1)
    (ht : ∀ x ∈ m.code, ∀ label, x.target? = some label →
      ∃ j : Nat, j ≤ m.code.length ∧ (label, (j : Int)) ∈ m.labels.entries) :
    ClosedBranches c m e.lines := by
  obtain ⟨hend, es, hes⟩ := exists_emitted h
  obtain ⟨hnodup, -⟩ := labelNames_before hl hes.first (fun i hi ↦ by
    obtain ⟨x, block, -, hlines, hm⟩ := hes.exists_block hi
    exact ⟨block, hlines, hm.toPrivateLabels⟩) (Nat.le_refl _)
  rw [hes.last] at hnodup
  refine ⟨fun i label hi htarget ↦ ?_, fun label ↦ ?_, sorted_namesAt m.labels, fun index label ↦ ?_,
    es, hes, fun k x hx ↦ ?_⟩
  · rw [count_label]
    refine List.count_eq_one_of_mem hnodup ?_
    have hjumps := hes.jumps_before (Nat.le_refl _) label
    rw [hes.last] at hjumps
    rcases hjumps (mem_jumpNames.2 ⟨i, hi, htarget⟩) with hlabel | ⟨x, hx, hxt⟩
    · exact hlabel
    · obtain ⟨j, hj, hmem⟩ := ht x hx label hxt
      have hat : label ∈ m.labels.namesAt j := Labels.mem_namesAt.2 hmem
      -- a label behind the last instruction that is jumped to would be an error
      have hlt : j < m.code.length := by
        rcases Nat.lt_or_eq_of_le hj with hlt | rfl
        · exact hlt
        · have := List.find?_eq_none.1 hend label hat
          exact absurd (List.any_eq_true.2 ⟨x, hx, by simpa using hxt⟩) this
      rw [← hes.last]
      exact hes.mem_labelNames_before (Nat.le_refl _) hlt hat
  · rw [count_label]
    exact List.nodup_iff_count_le_one.1 hnodup label
  · rw [Labels.mem_namesAt]
    exact ⟨lookup_eq_some_of_mem m.labels.nodup, mem_of_lookup_eq_some⟩
  · obtain ⟨e₁, block, h₁, hinstr, hblock, -⟩ := emitAt_writes (hes.step k x hx)
    exact ⟨e₁, block, h₁, hinstr, hblock⟩

end Jvm

/-- What is known of each method of a lowered program. -/
theorem exists_methodMirror {t : Symbols} {p : Option Program} {fresh : Fresh} {c : ClassDef}
    (hlower : (lowerProgram t p fresh).1 = .ok c) : ∀ m ∈ c.methods, ∃ sig,
      MethodMirror { table := t, sig } fresh.labels fresh.labels m m := by
  have hmirror := lowerProgram_mirror t p fresh fresh
  rw [hlower] at hmirror
  cases hmirror with
  | ok h =>
    intro m hm
    obtain ⟨sig, -, hmirror⟩ := List.forall₂_same.1 h.methods m hm
    exact ⟨sig, hmirror⟩

/-- **The branches of the assembly are closed**, whatever numbers lowering starts from: in each method
every jump goes to a label that stands in the method once, no label stands there twice, and the labels of
the intermediate code stand before the lines of their instruction. -/
theorem branches_are_closed {t : Symbols} {p : Option Program} {fresh : Fresh} {s : Strategy}
    {c c' : ClassDef} {text : Text} (hlower : (lowerProgram t p fresh).1 = .ok c)
    (halloc : Allocation.cls s c = .ok c') (htext : Jvm.assemble c' = .ok text) :
    List.Forall₂ (fun m m' ↦ m'.code = m.code ∧ m'.labels = m.labels) c.methods c'.methods ∧
    ∃ es : List Jvm.Emitter, Jvm.Assembled c' es text ∧
      List.Forall₂ (fun m e ↦ Jvm.ClosedBranches c' m e.lines) c'.methods es := by
  obtain ⟨es, hes⟩ := Jvm.assemble_spec htext
  have hms := (Jvm.cls_spec halloc).1
  have hbranches : ∀ m' ∈ c'.methods, ∀ e, Jvm.emitMethod c' m' = .ok e →
      Jvm.ClosedBranches c' m' e.lines := by
    intro m' hm' e he
    obtain ⟨m, hm, halloc⟩ := exists_of_mem_right hms hm'
    obtain ⟨reg, rfl⟩ := Allocation.exists_withRegs halloc
    obtain ⟨sig, hm⟩ := exists_methodMirror hlower m hm
    refine Jvm.closedBranches he (fun entry ↦ hm.framed.not_isPrivate) fun x hx label htarget ↦ ?_
    obtain ⟨-, j, hj, hlabel⟩ := hm.framed.target hx htarget
    exact ⟨j, hj, mem_of_lookup_eq_some hlabel⟩
  refine ⟨hms.imp fun m m' h ↦ ?_, es, hes, ?_⟩
  · obtain ⟨reg, rfl⟩ := Allocation.exists_withRegs h
    exact ⟨rfl, rfl⟩
  · exact ((List.forall₂_and_left _ _).2 ⟨hbranches, hes.emitted⟩).imp fun m' e h ↦ h.1 e h.2

/-- A method with a loop, and with a comparison whose answer is a value. -/
def countMethod : MethodDecl where
  pos := default
  name := "count"
  ret := { name := "int" }
  params := [{ pos := default, name := "n", type := { name := "int" } }]
  locals := [{ pos := default, name := "b", type := { name := "boolean" } }]
  body := [
    .loop default (.ident default "b")
      (some (.assign default "b" (.binary default "<" (.ident default "n") (.int default "9")))),
    .ret default (some (.ident default "n"))]

/-- A class with this method. -/
def count : Program where
  pos := default
  cls := { pos := default, name := "Count", methods := [countMethod] }

/-- A program that is compiled, from some numbers on, to a class that passes a test. -/
theorem exists_compiled_of_test {p : Program} {n : Fresh} {s : Strategy} {P : Symbols → ClassDef → Bool}
    (h : (do
      let t ← Symbols.build p
      let c ← (lowerProgram t (some p) n).1
      let c' ← Allocation.cls s c
      let _ ← Jvm.assemble c'
      return P t c') = Except.ok true) :
    ∃ t c c' text, Symbols.build p = .ok t ∧ (lowerProgram t (some p) n).1 = .ok c ∧
      Allocation.cls s c = .ok c' ∧ Jvm.assemble c' = .ok text ∧ P t c' = true := by
  obtain ⟨t, hbuild, h⟩ := Except.bind_eq_ok.1 h
  obtain ⟨c, hlower, h⟩ := Except.bind_eq_ok.1 h
  obtain ⟨c', halloc, h⟩ := Except.bind_eq_ok.1 h
  obtain ⟨text, htext, h⟩ := Except.bind_eq_ok.1 h
  exact ⟨t, c, c', text, hbuild, hlower, halloc, htext, Except.ok.inj h⟩

theorem count_branches_are_closed : ∃ t c c' text, Symbols.build count = .ok t ∧
    (lowerProgram t (some count) { temps := 0, labels := 9 }).1 = .ok c ∧
    Allocation.cls .ranges c = .ok c' ∧ Jvm.assemble c' = .ok text ∧
    List.Forall₂ (fun m m' ↦ m'.code = m.code ∧ m'.labels = m.labels) c.methods c'.methods ∧
    ∃ es : List Jvm.Emitter, Jvm.Assembled c' es text ∧
      List.Forall₂ (fun m e ↦ Jvm.ClosedBranches c' m e.lines) c'.methods es := by
  obtain ⟨t, c, c', text, hbuild, hlower, halloc, htext, -⟩ :=
    exists_compiled_of_test (p := count) (n := { temps := 0, labels := 9 }) (s := .ranges)
      (P := fun _ _ ↦ true) (by decide +kernel)
  exact ⟨t, c, c', text, hbuild, hlower, halloc, htext, branches_are_closed hlower halloc htext⟩

end MiniJava
