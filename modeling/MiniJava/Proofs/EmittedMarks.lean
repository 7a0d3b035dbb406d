import MiniJava.Proofs.Layout
import MiniJava.Proofs.LoweredSites
import MiniJava.Proofs.TwoRuns

/-!
# Labels and marks of the lines of an instruction

A step of the emitter writes lines with private labels only, of numbers that it takes, and jumps to these
or to a label that it is told (`Marks`).  The lines also show what the instruction does besides computing:
they invoke the methods of its calls, make its objects and test its equalities, in their order
(`instr_marks`).  Nothing is asked of the names of variables.
-/

set_option autoImplicit false

namespace MiniJava

open IR

/-- The equality of a site that takes both operands from the stack. -/
def Site.cond? : Site → Option Jvm.Cond
  | .equality op _ _ false => Jvm.Cond.ofOp? op
  | .equality _ _ _ true | .creation _ _ => none

namespace Jvm

/-! ## Lines -/

/-- The labels that lines jump to. -/
def jumpNames (ls : List Line) : List Text :=
  ls.filterMap fun
    | .label _ => none
    | .instr i => i.target?

@[simp] theorem jumpNames_append (ls ls' : List Line) :
    jumpNames (ls ++ ls') = jumpNames ls ++ jumpNames ls' := List.filterMap_append

@[simp] theorem jumpNames_labels (names : List Text) : jumpNames (names.map .label) = [] := by
  rw [jumpNames, List.filterMap_map]
  exact List.filterMap_eq_nil_iff.2 fun _ _ ↦ rfl

theorem mem_jumpNames {ls : List Line} {name : Text} :
    name ∈ jumpNames ls ↔ ∃ i, .instr i ∈ ls ∧ i.target? = some name := by
  rw [jumpNames, List.mem_filterMap]
  constructor
  · rintro ⟨l, hl, hname⟩
    cases l with
    | label _ => cases hname
    | instr i => exact ⟨i, hl, hname⟩
  · rintro ⟨i, hi, hname⟩
    exact ⟨_, hi, hname⟩

/-- What a line does besides jumping: it tests an equality on two operands, makes an object, or invokes a
method. -/
inductive Mark where
  | equality (cond : Cond)
  | new (cls : Text)
  | invoke (i : Instr)

/-- The mark of a line. -/
def Line.mark? : Line → Option Mark
  | .instr (.ifCompare .eq _) => some (.equality .eq)
  | .instr (.ifCompare .ne _) => some (.equality .ne)
  | .instr (.new cls) => some (.new cls)
  | .instr (.invoke how cls method params result) => some (.invoke (.invoke how cls method params result))
  | _ => none

/-- What lines do with labels, and their marks: they place private labels only, and jump to these and to the
labels of `own`. -/
structure Marked (own : List Text) (ms : List Mark) (n n' : Nat) (ls : List Line) : Prop
    extends PrivateLabels n n' ls where
  jumps : ∀ name ∈ jumpNames ls, name ∈ own ∨ name ∈ labelNames ls
  marks : ls.filterMap Line.mark? = ms

namespace Marked

variable {own : List Text} {ms ms' : List Mark} {n k n' : Nat} {ls ls' : List Line}

theorem nil : Marked own [] n n [] :=
  ⟨⟨Nat.le_refl n, List.nodup_nil, by simp [labelNames]⟩, by simp [jumpNames], rfl⟩

theorem instr {i : Instr} (h : ∀ name, i.target? = some name → name ∈ own) :
    Marked own (Line.instr i).mark?.toList n n [.instr i] where
  le := Nat.le_refl n
  nodup := by simp [labelNames]
  labels := by simp [labelNames]
  jumps name hname := by
    obtain ⟨j, hj, ht⟩ := mem_jumpNames.1 hname
    cases List.mem_singleton.1 hj
    exact .inl (h name ht)
  marks := by
    cases hi : (Line.instr i).mark? <;> simp [hi]

/-- Private labels of numbers one after another are different. -/
theorem append (h : Marked own ms n k ls) (h' : Marked own ms' k n' ls') :
    Marked own (ms ++ ms') n n' (ls ++ ls') where
  le := Nat.le_trans h.le h'.le
  nodup := by
    rw [labelNames_append]
    refine List.nodup_append.2 ⟨h.nodup, h'.nodup, ?_⟩
    rintro name hname _ hname' rfl
    obtain ⟨i, -, hi, hp⟩ := h.labels name hname
    obtain ⟨j, hj, -, hp'⟩ := h'.labels name hname'
    have := private_inj hp hp'
    omega
  labels name hname := by
    rw [labelNames_append, List.mem_append] at hname
    rcases hname with hname | hname
    · obtain ⟨i, hi, hi', hp⟩ := h.labels name hname
      exact ⟨i, hi, Nat.lt_of_lt_of_le hi' h'.le, hp⟩
    · obtain ⟨i, hi, hi', hp⟩ := h'.labels name hname
      exact ⟨i, Nat.le_trans h.le hi, hi', hp⟩
  jumps name hname := by
    rw [jumpNames_append, List.mem_append] at hname
    rw [labelNames_append, List.mem_append]
    rcases hname with hname | hname
    · exact (h.jumps name hname).imp id .inl
    · exact (h'.jumps name hname).imp id .inr
  marks := by rw [List.filterMap_append, h.marks, h'.marks]

/-- The lines of a comparison, between whose private labels are no others. -/
theorem answer (h : Marked [trueLabel n] ms (n + 1) n' ls) :
    Marked own ms n n' (ls ++ [.instr (.push 0), .instr (.goto (endLabel n)), .label (trueLabel n),
      .instr (.push 1), .label (endLabel n)]) := by
  have hle := h.le
  have hnames : labelNames [.instr (.push 0), .instr (.goto (endLabel n)), .label (trueLabel n),
      .instr (.push 1), .label (endLabel n)] = [trueLabel n, endLabel n] := rfl
  have hjumps : jumpNames [.instr (.push 0), .instr (.goto (endLabel n)), .label (trueLabel n),
      .instr (.push 1), .label (endLabel n)] = [endLabel n] := rfl
  refine ⟨⟨by omega, ?_, fun name hname ↦ ?_⟩, fun name hname ↦ ?_, ?_⟩
  · rw [labelNames_append, hnames]
    refine List.nodup_append.2 ⟨h.nodup, by simp [trueLabel_ne_endLabel], ?_⟩
    rintro name hname _ hname' rfl
    obtain ⟨i, hi, -, hp⟩ := h.labels name hname
    have := private_inj hp (List.mem_pair.1 hname')
    omega
  · rw [labelNames_append, hnames, List.mem_append] at hname
    rcases hname with hname | hname
    · obtain ⟨i, hi, hi', hp⟩ := h.labels name hname
      exact ⟨i, by omega, hi', hp⟩
    · exact ⟨n, Nat.le_refl n, by omega, List.mem_pair.1 hname⟩
  · rw [jumpNames_append, hjumps, List.mem_append] at hname
    rw [labelNames_append, hnames]
    rcases hname with hname | hname
    · rcases h.jumps name hname with hname | hname
      · exact .inr (by simp [List.mem_singleton.1 hname])
      · exact .inr (List.mem_append_left _ hname)
    · exact .inr (by simp [List.mem_singleton.1 hname])
  · rw [List.filterMap_append, h.marks]
    exact List.append_nil ms

end Marked

/-! ## Steps -/

/-- A step that writes marked lines if it succeeds, and may forget what it was told to leave on the
stack. -/
def Marks {α : Type} (own : List Text) (ms : List Mark) (e : Emitter) (x : EmitM α) : Prop :=
  ∀ a e', x.run e = .ok (a, e') →
    (e'.keep = e.keep ∨ e'.keep = none) ∧
      ∃ ls, e'.lines = e.lines ++ ls ∧ Marked own ms e.nextLabel e'.nextLabel ls

namespace Marks

variable {α β : Type} {own : List Text} {ms : List Mark} {e : Emitter}

variable {x : EmitM α}

/-- A step that writes nothing. -/
theorem quiet (h : ∀ a e', x.run e = .ok (a, e') →
      (e'.keep = e.keep ∨ e'.keep = none) ∧ e'.lines = e.lines ∧ e'.nextLabel = e.nextLabel) :
    Marks own [] e x := by
  intro a e' hx
  obtain ⟨hk, hl, hn⟩ := h a e' hx
  exact ⟨hk, [], by rw [hl, List.append_nil], by rw [hn]; exact .nil⟩

theorem pure (a : α) : Marks own [] e (Pure.pure a) :=
  quiet fun _ _ h ↦ by cases h; exact ⟨.inl rfl, rfl, rfl⟩

theorem throw (err : Error) : Marks own ms e (MonadExcept.throw err : EmitM α) := fun _ _ h ↦ nomatch h

theorem bind {ms' : List Mark} {f : α → EmitM β} (h : Marks own ms e x)
    (hf : ∀ a e', Marks own ms' e' (f a)) : Marks own (ms ++ ms') e (x >>= f) := by
  intro b e'' hrun
  obtain ⟨a, e', hx, hb⟩ := EmitM.bind_eq_ok.1 hrun
  obtain ⟨hk, ls, hl, hm⟩ := h a e' hx
  obtain ⟨hk', ls', hl', hm'⟩ := hf a e' b e'' hb
  refine ⟨?_, ls ++ ls', by rw [hl', hl, List.append_assoc], hm.append hm'⟩
  rcases hk' with hk' | hk'
  · rwa [hk']
  · exact .inr hk'

/-- A step with marks, and then one without. -/
theorem before {f : α → EmitM β} (h : Marks own ms e x) (hf : ∀ a e', Marks own [] e' (f a)) :
    Marks own ms e (x >>= f) := by
  have hb := h.bind hf
  rwa [List.append_nil] at hb

theorem get {f : Emitter → EmitM α} (h : Marks own ms e (f e)) :
    Marks own ms e (MonadState.get >>= f) := h

theorem forM {xs : List α} {f : α → EmitM Unit} (h : ∀ x e, Marks own [] e (f x)) :
    Marks own [] e (xs.forM f) := by
  induction xs generalizing e with
  | nil => exact .pure _
  | cons x xs ih => exact (h x e).bind fun _ _ ↦ ih

end Marks

section
variable {c : ClassDef} {m : Method} {own : List Text} {e : Emitter}

theorem emit_marks {i : Instr} (h : ∀ name, i.target? = some name → name ∈ own) :
    Marks own (Line.instr i).mark?.toList e (emit m i) := by
  intro u e' hrun
  obtain ⟨-, rfl⟩ := emit_eq_ok hrun
  exact ⟨.inl rfl, _, rfl, .instr h⟩

/-- An instruction that does not jump and has no mark. -/
theorem emit_quietly {i : Instr} (h : i.target? = none ∧ (Line.instr i).mark?.toList = []) :
    Marks own [] e (emit m i) := by
  rw [← h.2]
  exact emit_marks fun name ht ↦ by rw [h.1] at ht; cases ht

variable {label : Text} {op : Op} {cond : Cond}

theorem jump_marks {ms : List Mark} {i : Instr} (ht : i.target? = some label)
    (hm : (Line.instr i).mark?.toList = ms) (h : label ∈ own) : Marks own ms e (jump m i label) := by
  have hi : ∀ name, i.target? = some name → name ∈ own := by
    intro name hname
    rw [ht] at hname
    exact Option.some.inj hname ▸ h
  intro u e' hrun
  subst hm
  obtain ⟨-, ⟨-, rfl⟩ | ⟨-, rfl⟩⟩ := jump_eq_ok hrun
  · exact ⟨.inl rfl, _, rfl, .instr hi⟩
  · exact ⟨.inl rfl, _, rfl, .instr hi⟩

theorem goto_marks (h : label ∈ own) : Marks own [] e (goto m label) :=
  (jump_marks rfl rfl h).bind fun _ _ ↦ .quiet fun _ _ h ↦ by cases h; exact ⟨.inl rfl, rfl, rfl⟩

theorem slotOf_marks (name : Text) : Marks own [] e (slotOf m name) := by
  refine .quiet fun (kind, slot) e' h ↦ ?_
  obtain ⟨-, rfl⟩ := slotOf_spec h
  exact ⟨.inl rfl, rfl, rfl⟩

theorem loadVar_marks (name : Text) : Marks own [] e (loadVar m name) :=
  (slotOf_marks name).bind fun _ _ ↦ emit_quietly ⟨rfl, rfl⟩

theorem storeVar_marks (name : Text) : Marks own [] e (storeVar m name) :=
  (slotOf_marks name).bind fun _ _ ↦ emit_quietly ⟨rfl, rfl⟩

theorem load_marks (x : Operand) : Marks own [] e (load m x) := by
  induction x generalizing e with
  | missing => exact .throw _
  | literal text ty =>
    rw [load, loadLiteral]
    split
    · refine Marks.bind (.quiet fun v e' h ↦ ?_) fun v _ ↦ emit_quietly ⟨rfl, rfl⟩
      cases hp : Literal.parse text with
      | ok w =>
        rw [hp] at h
        cases h
        exact ⟨.inl rfl, rfl, rfl⟩
      | error err =>
        rw [hp] at h
        cases h
    · exact .throw _
  | var name ty =>
    rw [load]
    refine .get ?_
    split
    · exact .quiet fun _ _ h ↦ by cases h; exact ⟨.inl rfl, rfl, rfl⟩
    · exact loadVar_marks name
  | elem base index ty ih =>
    rw [load]
    exact (loadVar_marks base).bind fun _ _ ↦ ih.bind fun _ _ ↦ emit_quietly ⟨rfl, rfl⟩

theorem loadAll_marks (xs : List Operand) : Marks own [] e (loadAll m xs) :=
  .forM fun x _ ↦ load_marks x

/-! ## Conditions -/

/-- The equalities of an operator on two operands that are tested on both. -/
def conds (op : Op) (l r : Operand) : List Cond :=
  (op.sites l.ty r.ty (isZero l || isZero r)).filterMap Site.cond?

theorem conds_eq_nil {l r : Operand} (h : (isZero l || isZero r) = true) : conds op l r = [] := by
  rw [conds, Op.sites, h]
  split <;> rfl

theorem conds_of_not_compare (h : Cond.ofOp? op = none) (l r : Operand) : conds op l r = [] := by
  cases op <;> cases h <;> rfl

/-- A jump on two operands is an equality exactly if the operator is one. -/
theorem mark?_ifCompare (hcond : Cond.ofOp? op = some cond) {l r : Operand}
    (h : (isZero l || isZero r) = false) (label : Text) :
    (Line.instr (.ifCompare cond label)).mark?.toList = (conds op l r).map .equality := by
  rw [conds, h]
  cases op <;> cases hcond <;> rfl

theorem branchCompare_marks (hcond : Cond.ofOp? op = some cond) (l r : Operand) (h : label ∈ own) :
    Marks own ((conds op l r).map .equality) e (branchCompare m op cond l r label) := by
  rw [branchCompare]
  split
  · rename_i hr
    rw [conds_eq_nil (by simp [hr])]
    exact (load_marks l).bind fun _ _ ↦ jump_marks rfl rfl h
  · split
    · rename_i hl
      rw [conds_eq_nil (by simp [hl])]
      exact (load_marks r).bind fun _ _ ↦ jump_marks rfl rfl h
    · rename_i hr hl
      exact (load_marks l).bind fun _ _ ↦ (load_marks r).bind fun _ _ ↦
        jump_marks rfl (mark?_ifCompare hcond (by simp [hl, hr]) label) h

theorem compare_marks (hcond : Cond.ofOp? op = some cond) (l r : Operand) :
    Marks own ((conds op l r).map .equality) e (compare m op cond l r) := by
  intro u e' hrun
  rw [compare] at hrun
  obtain ⟨⟨onTrue, done⟩, e₁, hfresh, hrun⟩ := EmitM.bind_eq_ok.1 hrun
  cases hfresh
  obtain ⟨_, e₂, hcompare, hrun⟩ := EmitM.bind_eq_ok.1 hrun
  obtain ⟨_, e₃, hpush, hrun⟩ := EmitM.bind_eq_ok.1 hrun
  obtain ⟨_, e₄, hgoto, hrun⟩ := EmitM.bind_eq_ok.1 hrun
  obtain ⟨_, e₅, htrue, hrun⟩ := EmitM.bind_eq_ok.1 hrun
  obtain ⟨_, e₆, hpush', hend⟩ := EmitM.bind_eq_ok.1 hrun
  obtain ⟨hk, ls, hl, hm⟩ := branchCompare_marks hcond l r (List.mem_singleton_self _) _ _ hcompare
  -- the five lines behind the test
  have hwrites := (emit_plain hpush rfl rfl rfl).1.trans <| (goto_spec hgoto).1.trans <|
    (placeLabel_spec htrue).1.trans <| (emit_plain hpush' rfl rfl rfl).1.trans (placeLabel_spec hend).1
  refine ⟨by rwa [hwrites.keep], _, by rw [hwrites.lines, hl, List.append_assoc], ?_⟩
  rw [hwrites.nextLabel]
  exact hm.answer

/-! ## Calls and fields -/

/-- The instruction that invokes the method of a call, if the call invokes one. -/
def invocationOf? (c : ClassDef) (x : Call) : Option Instr :=
  (invocation? x.kind).bind fun how ↦ (callTarget? c x).map (invokeInstr c x how)

/-- The marks of a call. -/
def callMarks (c : ClassDef) (x : Call) : List Mark :=
  if x.kind = .newObject then [.new (c.resolve x.cls)] else (invocationOf? c x).toList.map .invoke

theorem callMarks_of_not_new {x : Call} (h : x.kind ≠ .newObject) :
    callMarks c x = (invocationOf? c x).toList.map .invoke := if_neg h

/-- What an invocation emits behind its operands. -/
theorem invocation_marks (x : Call) :
    Marks own ((invocationOf? c x).toList.map .invoke) e (invocation c m x) := by
  intro u e' hrun
  obtain ⟨cls, e₁, hcls, hrun⟩ := EmitM.bind_eq_ok.1 hrun
  rw [callClass_run] at hcls
  split at hcls
  · rename_i cls' htarget
    cases hcls
    cases hhow : invocation? x.kind with
    | none =>
      rw [hhow] at hrun
      cases hrun
    | some how =>
      rw [hhow] at hrun
      rw [invocationOf?, hhow, htarget]
      refine emit_marks ?_ _ _ hrun
      intro name ht
      cases ht
  · cases hcls

theorem newArray_marks (ty : Ty) : Marks own [] e (newArray c m ty) := by
  rw [newArray]
  split
  · exact emit_quietly ⟨rfl, rfl⟩
  · exact emit_quietly ⟨rfl, rfl⟩
  · exact emit_quietly ⟨rfl, rfl⟩
  · exact emit_quietly ⟨rfl, rfl⟩
  · exact .throw _

theorem invoke_marks (x : Call) : Marks own ((invocationOf? c x).toList.map .invoke) e (invoke c m x) := by
  by_cases hk : x.kind = .static
  · rw [invoke_static hk]
    exact (loadAll_marks _).bind fun _ _ ↦ invocation_marks x
  · by_cases hm : x.caller = .missing
    · rw [invoke_missing hk hm]
      exact .throw _
    · rw [invoke_onObject hk hm]
      exact (load_marks _).bind fun _ _ ↦ (loadAll_marks _).bind fun _ _ ↦ invocation_marks x

theorem call_marks (x : Call) : Marks own (callMarks c x) e (call c m x) := by
  have hnone (hk : x.kind ≠ .newObject) (hi : invocation? x.kind = none) : callMarks c x = [] := by
    rw [callMarks_of_not_new hk, invocationOf?, hi]
    rfl
  rw [call]
  split
  · rename_i hk
    rw [callMarks, if_pos hk]
    exact emit_marks fun name ht ↦ by cases ht
  · rename_i hk
    rw [hnone (by simp [hk]) (by rw [hk]; rfl)]
    split
    · exact (load_marks _).bind fun _ _ ↦ newArray_marks x.ret
    · exact .throw _
  · rename_i hk
    rw [hnone (by simp [hk]) (by rw [hk]; rfl)]
    exact (load_marks _).bind fun _ _ ↦ emit_quietly ⟨rfl, rfl⟩
  · rename_i hk _ _
    rw [callMarks_of_not_new hk]
    exact invoke_marks x

theorem getField_marks (object : Operand) (field : FieldRef) (ty : Ty) :
    Marks own [] e (getField c m object field ty) := by
  rw [getField]
  split
  · exact emit_quietly ⟨rfl, rfl⟩
  · exact (load_marks object).bind fun _ _ ↦ emit_quietly ⟨rfl, rfl⟩

theorem putField_marks (object : Operand) (field : FieldRef) (value : Operand) :
    Marks own [] e (putField c m object field value) := by
  rw [putField]
  split
  · exact (load_marks value).bind fun _ _ ↦ emit_quietly ⟨rfl, rfl⟩
  · exact (load_marks object).bind fun _ _ ↦ (load_marks value).bind fun _ _ ↦ emit_quietly ⟨rfl, rfl⟩

/-! ## Instructions -/

/-- The marks of the calls and of the equalities of an instruction, of which it has only one kind. -/
def marksOf (c : ClassDef) (calls : List Call) (sites : List Site) : List Mark :=
  calls.flatMap (callMarks c) ++ (sites.filterMap Site.cond?).map .equality

theorem marksOf_call (x : Call) : marksOf c [x] [] = callMarks c x := by
  rw [marksOf, List.flatMap_singleton]
  exact List.append_nil _

theorem value_marks (x : IR.Instr) : Marks own (marksOf c x.calls x.valueSites) e (value c m x) := by
  cases x with
  | single x => exact load_marks x
  | binary op l r ty =>
    rw [value]
    show Marks own ((conds op l r).map .equality) e _
    split
    · rename_i hcond
      exact compare_marks hcond l r
    · rename_i hcond
      rw [conds_of_not_compare hcond]
      split
      · exact (load_marks l).bind fun _ _ ↦ (load_marks r).bind fun _ _ ↦ emit_quietly ⟨rfl, rfl⟩
      · exact .throw _
  | unary op x ty =>
    refine (load_marks x).bind fun _ _ ↦ ?_
    split
    · exact (emit_quietly ⟨rfl, rfl⟩).bind fun _ _ ↦ emit_quietly ⟨rfl, rfl⟩
    · exact emit_quietly ⟨rfl, rfl⟩
    · exact .throw _
  | call x =>
    rw [value]
    split
    · exact .throw _
    · exact marksOf_call (c := c) x ▸ call_marks x
  | getField object field ty => exact getField_marks object field ty
  | missing | assign _ _ _ | ret _ _ | branch _ _ | goto _ | putField _ _ _ => exact .throw _

theorem branch_marks (cond : IR.Instr) (h : label ∈ own) :
    Marks own (marksOf c cond.calls cond.valueSites) e (branch c m cond label) := by
  unfold branch
  split
  · split
    · rename_i hcond
      exact branchCompare_marks hcond _ _ h
    · exact (value_marks _).before fun _ _ ↦ jump_marks rfl rfl h
  · exact (load_marks _).bind fun _ _ ↦ jump_marks rfl rfl h
  · exact (value_marks _).before fun _ _ ↦ jump_marks rfl rfl h

theorem assign_marks (dest : Operand) (rhs : IR.Instr) :
    Marks own (marksOf c rhs.calls rhs.valueSites) e (assign c m dest rhs) := by
  cases dest with
  | var name ty =>
    refine (value_marks rhs).before fun _ e₁ ↦ .get ?_
    split
    · exact .quiet fun _ _ h ↦ by cases h; exact ⟨.inr rfl, rfl, rfl⟩
    · exact storeVar_marks name
  | elem base index ty =>
    exact (loadVar_marks base).bind fun _ _ ↦ (load_marks index).bind fun _ _ ↦
      (value_marks rhs).before fun _ _ ↦ emit_quietly ⟨rfl, rfl⟩
  | missing | literal _ _ => exact .throw _

/-- The sites of an assignment test what its value tests. -/
theorem cond?_sites_assign (dest : Operand) (ty : Ty) (rhs : IR.Instr) :
    (IR.Instr.assign dest ty rhs).sites.filterMap Site.cond? = rhs.valueSites.filterMap Site.cond? := by
  by_cases h : rhs.MakesObject
  · have hrhs : rhs.valueSites = [] := by
      cases rhs with
      | binary _ _ _ _ => exact absurd h (IR.Instr.not_makesObject rfl)
      | _ => rfl
    rw [hrhs]
    unfold IR.Instr.sites
    split
    · split <;> rfl
    · rename_i heq
      cases heq
      rw [hrhs]
    · rename_i heq
      cases heq
    · rename_i hne _
      exact absurd rfl (hne dest ty rhs)
  · rw [IR.Instr.sites_assign h]

/-- **The lines of an instruction** place private labels only, jump to these or to the label that the
instruction names, invoke the method that it calls, and test its equality. -/
theorem instr_marks (x : IR.Instr) :
    Marks x.target?.toList (marksOf c x.calls x.sites) e (instr c m x) := by
  have hdiscard (own : List Text) (y : IR.Instr) :
      Marks own (marksOf c y.calls y.valueSites) e (do
        value c m y
        emit m .pop) := (value_marks y).before fun _ _ ↦ emit_quietly ⟨rfl, rfl⟩
  cases x with
  | assign dest ty rhs =>
    rw [marksOf, cond?_sites_assign]
    exact assign_marks dest rhs
  | call x =>
    refine Marks.before ?_ fun _ _ ↦ ?_
    · exact marksOf_call (c := c) x ▸ call_marks x
    · split
      · exact .pure _
      · exact emit_quietly ⟨rfl, rfl⟩
  | ret x ty =>
    have hend {e : Emitter} :
        Marks [] [] e (modify fun e ↦ { e with unreachable := true } : EmitM Unit) :=
      .quiet fun _ _ h ↦ by cases h; exact ⟨.inl rfl, rfl, rfl⟩
    rw [instr]
    split
    · exact (emit_quietly ⟨rfl, rfl⟩).bind fun _ _ ↦ hend
    · exact (load_marks x).bind fun _ _ ↦ (emit_quietly ⟨rfl, rfl⟩).bind fun _ _ ↦ hend
  | goto label => exact goto_marks (List.mem_singleton_self label)
  | branch cond label => exact branch_marks cond (List.mem_singleton_self label)
  | putField object field value => exact putField_marks object field value
  | missing => exact .throw _
  | single x => exact hdiscard _ (.single x)
  | binary op l r ty => exact hdiscard _ (.binary op l r ty)
  | unary op x ty => exact hdiscard _ (.unary op x ty)
  | getField object field ty => exact hdiscard _ (.getField object field ty)

end

end Jvm

end MiniJava
