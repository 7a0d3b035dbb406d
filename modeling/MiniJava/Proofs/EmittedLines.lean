import MiniJava.Proofs.EmittedCode

/-!
# What emitted lines do

The lines of an instruction, in their place among the lines of a method: from the first of them on the
stack machine does what the instruction does (`Emits.does`).  A comparison whose answer is wanted as a
value jumps between its lines, so this is said of the machine and not of a list of instructions.
-/

set_option autoImplicit false

namespace MiniJava.Jvm

open IR

section
variable {c : ClassDef} {m : Method} {env : Env Instr} {store : Text → Word} {slots : Nat → Word}
variable {lines : List Line} {p : Nat}
variable {n n' q : Nat} {s s' : Option Text} {x : IR.Instr} {ls : List Line}

variable (env slots) in
/-- The lines after the test of a comparison push the answer, whichever way the test went. -/
theorem does_answer (hu : UniqueLabels lines) {test : Text → Instr}
    (h : StandsAt (answerLines test n) lines p) (stack : List Word) (b : Bool) :
    (machine lines env).Does ⟨if b then p + 3 else p + 1, ⟨stack, slots⟩⟩
      (pure ⟨p + 6, ⟨.ofBool b :: stack, slots⟩⟩) := by
  have hend : (machine lines env).Does ⟨p + 5, ⟨.ofBool b :: stack, slots⟩⟩
      (pure ⟨p + 6, ⟨.ofBool b :: stack, slots⟩⟩) := does_label env (h 5 _ rfl) _
  cases b with
  | true =>
    have hpush : (machine lines env).Does ⟨p + 4, ⟨stack, slots⟩⟩
        (pure ⟨p + 5, ⟨.ofBool true :: stack, slots⟩⟩) := does_exec env (h 4 _ rfl) _
    exact (does_label env (h 3 _ rfl) _).after (hpush.after hend)
  | false =>
    have hpush : (machine lines env).Does ⟨p + 1, ⟨stack, slots⟩⟩
        (pure ⟨p + 2, ⟨.ofBool false :: stack, slots⟩⟩) := does_exec env (h 1 _ rfl) _
    have hgoto : (machine lines env).Does ⟨p + 2, ⟨.ofBool false :: stack, slots⟩⟩
        (pure ⟨p + 5, ⟨.ofBool false :: stack, slots⟩⟩) := by
      have := does_exec env (h 2 _ rfl) ⟨.ofBool false :: stack, slots⟩
      rw [Instr.exec, pure_bind, goOn] at this
      simpa only [idxOf?_label hu (h 5 _ rfl)] using this
    exact hpush.after (hgoto.after hend)

/-- The lines of a value push it. -/
theorem Computes.does (henv : TypedEnv env) (hu : UniqueLabels lines) (h : Computes c m s n x ls s' n')
    (hx : x.hasValue m.vars = true) (hs : ∀ name ∈ x.uses, HoldsAt m.vars store name)
    (hr : Ready m store slots s (loadsOf x)) (hp : StandsAt ls lines p) (stack : List Word) :
    s' = none ∧ (machine lines env).Does ⟨p, ⟨onTop store s stack, slots⟩⟩
      ((fun v ↦ ⟨p + ls.length, ⟨v :: stack, slots⟩⟩) <$> x.eval (linked c env) store) := by
  cases h with
  | plain hval =>
    obtain ⟨hs', heq⟩ := hval.execAll_eq henv hx hs hr stack
    refine ⟨hs', ?_⟩
    have hdoes := does_execAll env hp hval.plain ⟨onTop store s stack, slots⟩
    rw [heq, Functor.map_map] at hdoes
    simpa only [List.length_map] using hdoes
  | @compare _ _ op cond l r ty is test ho hcmp =>
    obtain ⟨hs', heq⟩ := hcmp.exec_eq c henv ho hx hs hr (trueLabel n) stack
    refine ⟨hs', ?_⟩
    have hanswer := hp.right
    rw [List.length_map] at hanswer
    have hstart : StandsAt (is.map .instr ++ [.instr (test (trueLabel n))]) lines p := by
      rw [answerLines, ← List.singleton_append, ← List.append_assoc] at hp
      exact hp.left
    have htest : (machine lines env).Does ⟨p, ⟨onTop store s stack, slots⟩⟩ _ :=
      does_last env hstart hcmp.plain _
    rw [heq, map_eq_pure_bind, bind_assoc] at htest
    -- the test goes to the line after it, or to the label of the other answer
    have hland : ∀ v : Word, goOn lines (p + is.length + 1) (⟨stack, slots⟩, branchTo (trueLabel n) v) =
        pure ⟨if v.bool? = some true then p + is.length + 3 else p + is.length + 1, ⟨stack, slots⟩⟩ := by
      intro v
      rw [branchTo]
      split
      · rw [goOn]
        simp only [idxOf?_label hu (hanswer 3 _ rfl)]
      · rfl
    simp only [pure_bind, hland, ← map_eq_pure_bind] at htest
    rw [map_eq_pure_bind]
    refine htest.trans fun v past past' hv ↦ ?_
    have hbool : Ty.bool.Holds v := by
      have hres : op.result = .bool := by cases op <;> cases ho <;> rfl
      rw [← hres]
      exact (IR.Instr.gives_binary (answers_linked henv c) hx hs).ok hv
    obtain ⟨b, rfl⟩ := Ty.exists_bool hbool
    have hdone := does_answer env slots hu hanswer stack b
    simpa [answerLines, Nat.add_assoc] using hdone

/-! ## Instructions -/

/-- The slots after an instruction that leaves a temporary on the stack or not: the variable that it
writes is in its slot, unless it is on the stack. -/
def written {α : Type} (m : Method) (x : IR.Instr) (left : Option Text) (slots : Nat → α)
    (store : Text → α) : Nat → α :=
  match x.defs? with
  | none => slots
  | some name =>
    if left = some name then slots
    else
      match m.slot? name with
      | some slot => Function.update slots slot (store name)
      | none => slots

theorem written_of_defs? {α : Type} (h : x.defs? = none) (left : Option Text) (slots : Nat → α)
    (store : Text → α) : written m x left slots store = slots := by
  rw [written, h]

/-- An instruction that computes a value, as an instruction of its own. -/
theorem Computes.exec_eq (h : Computes c m s n x ls s' n') (hx : ∀ y, x ≠ .call y)
    (hw : x.wellTyped m.vars = true) :
    x.exec (linked c env) store = (x.eval (linked c env) store >>= fun _ ↦ pure (store, .next)) ∧
      x.hasValue m.vars = true := by
  cases h with
  | compare ho hc => exact ⟨rfl, hw⟩
  | plain hval =>
    cases hval with
    | call _ _ => exact absurd rfl (hx _)
    | single _ | arith _ _ _ | not _ | neg _ | getStatic | getField _ => exact ⟨rfl, hw⟩

/-- A branch on the answer to a condition that is a boolean. -/
theorem exec_branch (henv : TypedEnv env) {cond : IR.Instr} {label : Text}
    (hx : (IR.Instr.branch cond label).wellTyped m.vars = true)
    (hs : ∀ name ∈ cond.uses, HoldsAt m.vars store name) :
    (IR.Instr.branch cond label).exec (linked c env) store =
      (cond.eval (linked c env) store >>= fun v ↦ pure (store, branchTo label v)) := by
  simp only [IR.Instr.wellTyped, Bool.and_eq_true] at hx
  rw [IR.Instr.exec]
  refine (IR.Instr.gives_eval (answers_linked henv c) hx.1 hs).bind_congr fun v hv ↦ ?_
  obtain ⟨b, rfl⟩ := Ty.exists_bool (hv.of_fits hx.2)
  rw [Word.bool?_ofBool, branchTo_ofBool]
  cases b <;> rfl

/-- The jump on a boolean that is not zero. -/
theorem exec_ifTrue {v : Word} (h : Ty.bool.Holds v) (label : Text) (stack : List Word) :
    (Instr.ifZero .ne label).exec env ⟨v :: stack, slots⟩ =
      pure (⟨stack, slots⟩, branchTo label v) := by
  obtain ⟨b, rfl⟩ := Ty.exists_bool h
  cases b <;> rfl

/-- The jump on a boolean that is zero. -/
theorem exec_ifFalse {v : Word} (h : Ty.bool.Holds v) (label : Text) (stack : List Word) :
    (Instr.ifZero .eq label).exec env ⟨v :: stack, slots⟩ =
      (fun u ↦ (⟨stack, slots⟩, branchTo label u)) <$> Op.applyUnary .not v := by
  obtain ⟨b, rfl⟩ := Ty.exists_bool h
  cases b <;> rfl

theorem eq_none_of_ready_nil {P : Text → Prop} (h : ReadyBy P s []) : s = none := by
  cases s with
  | none => rfl
  | some t =>
    obtain ⟨ty, rest, hnil, -⟩ := h
    cases hnil

/-- What the stack machine does at the lines of an instruction. -/
def Mimics (c : ClassDef) (m : Method) (env : Env Instr) (lines : List Line) (store : Text → Word)
    (slots : Nat → Word) (s : Option Text) (x : IR.Instr) (p q : Nat) (s' : Option Text) : Prop :=
  (machine lines env).Does ⟨p, ⟨onTop store s [], slots⟩⟩
    (x.exec (linked c env) store >>= fun r ↦
      goOn lines q (⟨onTop r.1 s' [], written m x s' slots r.1⟩, r.2))

variable {rhs : IR.Instr} {ty ty' : Ty} {is : List Instr}

/-- A value that is assigned to a temporary and left on the stack. -/
theorem mimics_leave {name : Text} (h : (machine lines env).Does ⟨p, ⟨onTop store s [], slots⟩⟩
      ((fun v ↦ ⟨q, ⟨[v], slots⟩⟩) <$> rhs.eval (linked c env) store)) :
    Mimics c m env lines store slots s (.assign (.var name ty) ty' rhs) p q (some name) := by
  rw [map_eq_pure_bind] at h
  simpa [Mimics, IR.Instr.exec, goOn, onTop, written, IR.Instr.defs?] using h

/-- A value that is assigned to a variable and stored to its slot. -/
theorem mimics_store (henv : TypedEnv env) {name : Text} {kind : Kind} {slot : Nat}
    (h : (machine lines env).Does ⟨p, ⟨onTop store s [], slots⟩⟩
      ((fun v ↦ ⟨q, ⟨[v], slots⟩⟩) <$> rhs.eval (linked c env) store))
    (hx : (IR.Instr.assign (.var name ty) ty' rhs).wellTyped m.vars = true)
    (hs : ∀ name ∈ rhs.uses, HoldsAt m.vars store name) (hslot : HasSlot m name kind slot)
    (hq : lines[q]? = some (.instr (.store kind slot))) :
    Mimics c m env lines store slots s (.assign (.var name ty) ty' rhs) p (q + 1) none := by
  obtain ⟨y, hy, hreg, hkind⟩ := hslot
  simp only [IR.Instr.wellTyped, hy, Bool.and_eq_true] at hx
  have hslot? : m.slot? name = some slot := Method.slot?_eq_some hy hreg
  simp only [Mimics, IR.Instr.exec, bind_assoc, pure_bind]
  refine h.trans fun v past past' hv ↦ ?_
  have hk : v.kind = kind := by
    rw [← hkind]
    apply Ty.kind_of_holds
    exact ((IR.Instr.gives_eval (answers_linked henv c) hx.1 hs).ok hv).of_fits hx.2
  have hstore := does_exec env hq ⟨[v], slots⟩
  simpa [Instr.exec, Instr.work, hk, goOn, onTop, written, IR.Instr.defs?, hslot?] using hstore

/-- An instruction that asks the environment for something and writes no variable. -/
theorem mimics_next {y : Act Instr Word}
    (hx : x.exec (linked c env) store = y >>= fun _ ↦ pure (store, .next)) (hd : x.defs? = none)
    (h : (machine lines env).Does ⟨p, ⟨onTop store s [], slots⟩⟩ ((fun _ ↦ ⟨q, ⟨[], slots⟩⟩) <$> y)) :
    Mimics c m env lines store slots s x p q none := by
  rw [map_eq_pure_bind] at h
  simpa [Mimics, hx, goOn, onTop, written_of_defs? hd] using h

/-- An instruction that carries out an operation without a result. -/
theorem mimics_operation (henv : TypedEnv env) {xs : List Operand} {a : Operation} {i : Instr}
    (h : LoadsAll m s xs is s') (hx : ∀ y ∈ xs, y.wellTyped m.vars = true)
    (hs : ∀ y ∈ xs, ∀ name ∈ y.uses, HoldsAt m.vars store name) (hr : Ready m store slots s xs)
    (hlink : link c a = some i) (hasks : i.asks? = some (xs.length, false)) (hi : Plain [i])
    (hexec : x.exec (linked c env) store =
      (xs.mapM (Operand.eval (linked c env) store) >>= linked c env a) >>= fun _ ↦ pure (store, .next))
    (hd : x.defs? = none) (hp : StandsAt ((is ++ [i]).map .instr) lines p) :
    s' = none ∧ Mimics c m env lines store slots s x p (p + (is ++ [i]).length) none := by
  obtain ⟨rfl, heq⟩ := h.execAll_operation henv hx hs hr hlink hasks []
  refine ⟨rfl, mimics_next hexec hd ?_⟩
  have hdoes := does_execAll env hp (h.plain.append hi) ⟨onTop store s [], slots⟩
  rw [heq, Functor.map_map] at hdoes
  exact hdoes

/-- A jump on the answer to a condition: plain instructions, and a test on what they leave. -/
theorem mimics_test (henv : TypedEnv env) {cond : IR.Instr} {label : Text} {test : Instr}
    (hx : (IR.Instr.branch cond label).wellTyped m.vars = true)
    (hs : ∀ name ∈ cond.uses, HoldsAt m.vars store name) (hplain : Plain is)
    (hp : StandsAt (is.map .instr ++ [.instr test]) lines p)
    (htest : (execAll env is ⟨onTop store s [], slots⟩ >>= test.exec env) =
      (fun v ↦ (⟨[], slots⟩, branchTo label v)) <$> cond.eval (linked c env) store) :
    Mimics c m env lines store slots s (.branch cond label) p
      (p + (is.map Line.instr ++ [Line.instr test]).length) none := by
  have hdoes := does_last env hp hplain ⟨onTop store s [], slots⟩
  rw [htest, map_eq_pure_bind, bind_assoc] at hdoes
  simpa [Mimics, exec_branch henv hx hs, onTop, written, IR.Instr.defs?, Nat.add_assoc] using hdoes

/-- A value that is returned. -/
theorem mimics_ret (henv : TypedEnv env) {y : Operand} {ty : Ty} (hload : Loads m s y is s')
    (hx : (IR.Instr.ret y ty).wellTyped m.vars = true) (hs : ∀ name ∈ y.uses, HoldsAt m.vars store name)
    (hr : Ready m store slots s (loadsOf (.ret y ty)))
    (hp : StandsAt (is.map .instr ++ [.instr (.retValue (.ofTy ty))]) lines p) (q : Nat) :
    s' = none ∧ Mimics c m env lines store slots s (.ret y ty) p q none := by
  have hm := hload.ne_missing
  rw [IR.Instr.wellTyped_ret hm, Bool.and_eq_true] at hx
  rw [loadsOf_ret hm] at hr
  obtain ⟨rfl, heq⟩ := hload.execAll_eq c env hx.1 hr []
  refine ⟨rfl, ?_⟩
  have hdoes := does_last env hp hload.plain ⟨onTop store s [], slots⟩
  have hret : ((execAll env is ⟨onTop store s [], slots⟩ >>= (Instr.retValue (.ofTy ty)).exec env) >>=
      goOn lines (p + is.length + 1)) =
      (y.eval (linked c env) store >>= fun v ↦ throw (.returned (some v))) := by
    rw [heq, bind_assoc]
    refine (Operand.gives_eval (answers_linked henv c) hx.1 hs).map_bind_congr fun v hv ↦ ?_
    rw [Instr.exec]
    simp only [if_pos (Ty.kind_of_holds (hv.of_fits hx.2))]
    rfl
  rw [hret] at hdoes
  rw [Mimics, IR.Instr.exec_ret hm, bind_assoc]
  exact hdoes

/-- A value that is assigned to an element of an array: the array and the index are loaded first, and
stay below the value. -/
theorem mimics_storeElem (henv : TypedEnv env) (hu : UniqueLabels lines) {s₁ s₂ : Option Text}
    {base : Text} {index : Operand} {kind : Kind} {slot : Nat} (hslot : HasSlot m base kind slot)
    (hi : Loads m s index is s₁) (h : Computes c m s₁ n rhs ls s₂ n')
    (hx : (IR.Instr.assign (.elem base index ty) ty' rhs).wellTyped m.vars = true)
    (hs : ∀ name ∈ (IR.Instr.assign (.elem base index ty) ty' rhs).uses, HoldsAt m.vars store name)
    (hr : Ready m store slots s (loadsOf (.assign (.elem base index ty) ty' rhs)))
    (hp : StandsAt (.instr (.load kind slot) ::
      (is.map .instr ++ (ls ++ [.instr (.arrayStore (.ofTy ty))]))) lines p) :
    s₂ = none ∧ Mimics c m env lines store slots s (.assign (.elem base index ty) ty' rhs) p
      (p + 1 + is.length + ls.length + 1) none := by
  simp only [IR.Instr.wellTyped, Operand.wellTyped, Bool.and_eq_true] at hx
  obtain ⟨⟨⟨⟨hsimple, hindex⟩, -⟩, hrhs⟩, -⟩ := hx
  rw [IR.Instr.uses, Operand.uses_elem hsimple] at hs
  cases s with
  | some t =>
    obtain ⟨ty'', rest, hcons, -⟩ := hr
    cases hcons
  | none =>
    rw [loadsOf] at hr
    have hr₁ := hr (.elem base index ty) (by simp)
    rw [Operand.uses_elem hsimple] at hr₁
    obtain ⟨hv, hk⟩ := hr₁ base (by simp) _ _ hslot
    obtain ⟨rfl, hload⟩ := hi.execAll_of_none c env hindex
      (fun name hn ↦ hr₁ name (by simp [hn])) [store base]
    have hbase : (Instr.load kind slot).work env ⟨[], slots⟩ = pure ⟨[store base], slots⟩ := by
      simp [Instr.work, hv, hk]
    have hfront : (machine lines env).Does ⟨p, ⟨[], slots⟩⟩
        ((fun i ↦ ⟨p + 1 + is.length, ⟨[i, store base], slots⟩⟩) <$>
          index.eval (linked c env) store) := by
      have hwork := does_work env hp.head rfl rfl ⟨[], slots⟩
      rw [hbase, map_pure] at hwork
      refine hwork.after ?_
      have hrest := does_execAll env hp.tail.left hi.plain ⟨[store base], slots⟩
      rwa [hload, Functor.map_map] at hrest
    have hval := hp.tail.right
    rw [List.length_map] at hval
    have hlast := hval.right.head
    have hcomp := h.does henv hu hrhs (fun name hn ↦ hs name (by simp [hn]))
      (fun y hy ↦ hr y (by simp [hy])) hval.left
    refine ⟨(hcomp []).1, ?_⟩
    rw [Mimics, IR.Instr.exec, bind_assoc]
    refine hfront.trans fun i _ _ _ ↦ ?_
    rw [bind_assoc]
    refine (hcomp [i, store base]).2.trans fun v _ _ _ ↦ ?_
    have hasks : (Instr.arrayStore (.ofTy ty)).asks? = some ([store base, i, v].length, false) := rfl
    have hstore : (machine lines env).Does
        ⟨p + 1 + is.length + ls.length, ⟨[v, i, store base], slots⟩⟩ _ := does_work env hlast rfl rfl _
    have hwork : (Instr.arrayStore (.ofTy ty)).work env ⟨[v, i, store base], slots⟩ = _ :=
      work_of_operands hasks []
    rw [hwork, Functor.map_map, map_eq_pure_bind] at hstore
    simpa [goOn, onTop, written, IR.Instr.defs?, linked, link, held_eq] using hstore

/-- **The lines of an instruction do what the instruction does**, and leave nothing on the stack but
the variable that they write, if it is to be left there. -/
theorem Emits.mimics (henv : TypedEnv env) (hu : UniqueLabels lines) {keep : Option Text}
    (h : Emits c m keep s n x ls s' n') (hx : x.wellTyped m.vars = true)
    (hs : ∀ name ∈ x.uses, HoldsAt m.vars store name) (hr : Ready m store slots s (loadsOf x))
    (hp : StandsAt ls lines p) : (s' = none ∨ ∃ name, x.defs? = some name ∧ s' = some name) ∧
      Mimics c m env lines store slots s x p (p + ls.length) s' := by
  cases h with
  | leave hk hval =>
    simp only [IR.Instr.wellTyped, Bool.and_eq_true] at hx
    exact ⟨.inr ⟨_, rfl, rfl⟩, mimics_leave (hval.does henv hu hx.1 hs hr hp []).2⟩
  | store hk hval hslot =>
    have hrhs := hx
    simp only [IR.Instr.wellTyped, Bool.and_eq_true] at hrhs
    obtain ⟨rfl, hdoes⟩ := hval.does henv hu hrhs.1 hs hr hp.left []
    refine ⟨.inl rfl, ?_⟩
    have := mimics_store henv hdoes hx hs hslot hp.right.head
    simpa [Nat.add_assoc] using this
  | storeElem hslot hi hval =>
    obtain ⟨rfl, hm⟩ := mimics_storeElem henv hu hslot hi hval hx hs hr hp
    refine ⟨.inl rfl, ?_⟩
    simpa [Nat.add_assoc, Nat.add_comm, Nat.add_left_comm] using hm
  | @callVoid _ _ y is hv hcall =>
    obtain ⟨rfl, heq⟩ := hcall.execAll_eq henv hx hs hr []
    refine ⟨.inl rfl, mimics_next (y := y.eval (linked c env) store) rfl rfl ?_⟩
    have hdoes := does_execAll env hp hcall.plain ⟨onTop store s [], slots⟩
    rw [heq, Functor.map_map] at hdoes
    simpa [hv] using hdoes
  | @callValue _ _ y is hv hcall =>
    obtain ⟨rfl, heq⟩ := hcall.execAll_eq henv hx hs hr []
    refine ⟨.inl rfl, mimics_next (y := y.eval (linked c env) store) rfl rfl ?_⟩
    have hdoes := does_last env hp hcall.plain ⟨onTop store s [], slots⟩
    rw [heq, hv] at hdoes
    simpa [Instr.exec, Instr.work, goOn, Nat.add_assoc] using hdoes
  | retVoid => exact ⟨.inl (eq_none_of_ready_nil hr), does_exec env hp.head _⟩
  | ret hload =>
    obtain ⟨rfl, hm⟩ := mimics_ret henv hload hx hs hr hp _
    exact ⟨.inl rfl, hm⟩
  | goto =>
    obtain rfl := eq_none_of_ready_nil hr
    exact ⟨.inl rfl, does_exec env hp.head _⟩
  | branchCompare ho hcmp =>
    have hcond := hx
    simp only [IR.Instr.wellTyped, Bool.and_eq_true] at hcond
    obtain ⟨rfl, heq⟩ := hcmp.exec_eq c henv ho hcond.1 hs hr _ []
    exact ⟨.inl rfl, mimics_test henv hx hs hcmp.plain hp heq⟩
  | @branchNot _ _ y ty label is hload =>
    have hcond := hx
    simp only [IR.Instr.wellTyped, IR.Instr.hasValue, Bool.and_eq_true] at hcond
    obtain ⟨⟨⟨⟨-, hy⟩, hyf⟩, -⟩, -⟩ := hcond
    obtain ⟨rfl, heq⟩ := hload.execAll_eq c env hy hr []
    refine ⟨.inl rfl, mimics_test henv hx hs hload.plain hp ?_⟩
    rw [heq, IR.Instr.eval, map_bind]
    exact (Operand.gives_eval (answers_linked henv c) hy hs).map_bind_congr fun v hv ↦
      exec_ifFalse (hv.of_fits hyf) label []
  | @branch _ _ cond label is hval =>
    have hcond := hx
    simp only [IR.Instr.wellTyped, Bool.and_eq_true] at hcond
    obtain ⟨rfl, heq⟩ := hval.execAll_eq henv hcond.1 hs hr []
    refine ⟨.inl rfl, mimics_test henv hx hs hval.plain hp ?_⟩
    have hgives := IR.Instr.gives_eval (answers_linked henv c) hcond.1 hs
    rw [heq]
    exact (hgives.map_bind_congr fun v hv ↦ exec_ifTrue (hv.of_fits hcond.2) label []).trans
      (map_eq_pure_bind _ _).symm
  | @putStatic _ _ field value is hload =>
    simp only [IR.Instr.wellTyped, Bool.and_eq_true] at hx
    rw [IR.Instr.uses] at hs
    have hall : LoadsAll m s [value] (is ++ []) s' := .cons hload .nil
    have hlink : link c (.putStatic field) =
        some (.putStatic (fieldName c .missing field.name) (descriptor c field.ty)) := by
      rw [link, typeText_eq]
      rfl
    obtain ⟨rfl, hm⟩ := mimics_operation (x := .putField .missing field value) henv hall
      (by simpa using hx.1.2) (by simpa using hs) hr hlink rfl
      (plain_singleton rfl rfl) (by simp [IR.Instr.exec]) rfl (by simpa using hp)
    exact ⟨.inl rfl, by simpa using hm⟩
  | @putField _ _ _ object field value is js hload hload' =>
    have hm := hload.ne_missing
    simp only [IR.Instr.wellTyped, Bool.and_eq_true, Bool.or_eq_true, beq_iff_eq, hm, false_or] at hx
    rw [loadsOf_putField hm] at hr
    have hall : LoadsAll m s [object, value] (is ++ (js ++ [])) s' := .cons hload (.cons hload' .nil)
    have hlink : link c (.putField object.ty field) =
        some (.putField (fieldName c object field.name) (descriptor c field.ty)) := by
      rw [link, typeText_eq, memberName_eq]
    obtain ⟨rfl, hmim⟩ := mimics_operation (x := .putField object field value) henv hall
      (by simpa using hx.1) (by simpa [IR.Instr.uses, or_imp, forall_and] using hs) hr hlink rfl
      (plain_singleton rfl rfl) (by simp [IR.Instr.exec_putField hm]) rfl (by simpa using hp)
    exact ⟨.inl rfl, by simpa using hmim⟩
  | discard hcall hval =>
    obtain ⟨hexec, hvalue⟩ := hval.exec_eq hcall hx
    obtain ⟨rfl, hdoes⟩ := hval.does henv hu hvalue hs hr hp.left []
    refine ⟨.inl rfl, mimics_next hexec hval.defs?_eq_none_and.1 ?_⟩
    rw [map_eq_pure_bind]
    refine hdoes.trans fun v _ _ _ ↦ ?_
    have hpop := does_exec env hp.right.head ⟨[v], slots⟩
    simpa [Instr.exec, Instr.work, goOn, Nat.add_assoc] using hpop

end

end MiniJava.Jvm
