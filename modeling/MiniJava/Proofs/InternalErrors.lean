import MiniJava.Proofs.BackEnd
import MiniJava.Proofs.EmissionSafety
import MiniJava.Proofs.WellFormedCode

/-!
# Internal errors are unreachable

The back end checks the intermediate code that it is given at many places, and what lowering gives it
passes all these checks but one (`internal_errors_are_unreachable`): every method passes its check, each
strategy finds slots for its variables, and the emitter refuses nothing except constructs that there is
no code for and literals that are no integers.  The one check that can fail is that of a method which can
run off its end, where a jump has nowhere to go.

Between two instructions nothing is on the stack but the temporary that the first one leaves for the
second (`leftBefore`).  That is kept from one instruction to the next, so it holds over the whole code.
-/

set_option autoImplicit false

namespace MiniJava

open IR Source

namespace Jvm

/-! ## Methods -/

/-- The temporary that is on the stack before the instruction of an index. -/
def leftBefore (m : Method) : Nat → Option Text
  | 0 => none
  | i + 1 => stackTemp? m i

variable {name : Text}

theorem leftBefore_eq_some {m : Method} {i : Nat} (h : leftBefore m i = some name) :
    ∃ k, i = k + 1 ∧ StaysOnStack m k name := by
  cases i with
  | zero => cases h
  | succ k => exact ⟨k, rfl, stackTemp?_eq_some h⟩

/-- A temporary is written once, so it is not left on the stack twice. -/
theorem stackTemp?_ne_of_leftBefore {m : Method} {i : Nat} (h : leftBefore m i = some name) :
    stackTemp? m i ≠ some name := by
  intro h'
  obtain ⟨k, rfl, hk⟩ := leftBefore_eq_some h
  obtain ⟨ty, _, _, hdef⟩ := hk.assigned
  obtain ⟨ty', _, _, hdef'⟩ := (stackTemp?_eq_some h').assigned
  have hcount := count_add_count_le (fun x ↦ x.defs?.toList) name (show k ≠ k + 1 by omega) hdef hdef'
  have hone : (m.code.filterMap IR.Instr.defs?).count name = 1 := hk.defCount
  rw [List.filterMap_eq_flatMap_toList] at hone
  rw [hone] at hcount
  simp [IR.Instr.defs?] at hcount

/-- A method of sound code with a slot for each variable that the code names. -/
structure Emittable (t : Scope) (vars : VarTable) (m : Method) : Prop where
  code : ∀ x ∈ m.code, SoundInstr t vars x
  slots : ∀ name, m.Names name → Slotted m name
  labels : ∀ entry ∈ m.labels.entries, ¬ IsPrivate entry.1
  targets : ∀ x ∈ m.code, ∀ label, x.target? = some label → ¬ IsPrivate label

section
variable {c : ClassDef} {t : Scope} {vars : VarTable} {m : Method} {e : Emitter} {i : Nat}
  {x : IR.Instr}

/-- The labels before an instruction are those of the method.  There are none if a temporary is on the
stack. -/
theorem placeLabels_safe (hm : Emittable t vars m) (he : Settled (leftBefore m i) e) :
    Safe e ((m.labels.namesAt i).forM (placeLabel m)) fun _ ↦ Settled (leftBefore m i) := by
  cases htop : leftBefore m i with
  | some name =>
    obtain ⟨k, rfl, hk⟩ := leftBefore_eq_some htop
    rw [hk.unlabelled]
    exact .pure (htop ▸ he)
  | none =>
    rw [htop] at he
    have hstart : Leaves e 0 e := ⟨rfl, he.depth, he.onStack, he.consistent⟩
    refine (Safe.forM (fun label hlabel e₁ h₁ ↦ ?_) hstart).mono fun _ e₁ h₁ ↦ ?_
    · exact placeLabel_public (hm.labels _ (Labels.mem_namesAt.1 hlabel)) h₁
    · exact ⟨h₁.keep.trans he.keep, h₁.depth, h₁.onStack, h₁.consistent⟩

theorem checkStack_ok {i : Nat} {before top : Option Text} (hd : e.depth = left top)
    (ho : e.onStack = top) (hne : ∀ name, before = some name → top ≠ some name) :
    (checkStack m i before).run e = .ok ((), e) := by
  have hdepth : ¬ ((decide (e.depth ≠ if e.onStack.isSome then 1 else 0) && !e.unreachable) = true) := by
    simp [hd, ho, left]
  rw [checkStack, EmitM.run_get_bind]
  cases before with
  | none =>
    dsimp only
    rw [if_neg hdepth]
    rfl
  | some name =>
    dsimp only
    rw [if_neg (ho ▸ hne name rfl), if_neg hdepth]
    rfl

/-- After an instruction the stack is as the emitter expects it. -/
theorem checkStack_safe {before top : Option Text} (he : Settled top e)
    (hne : ∀ name, before = some name → top ≠ some name) :
    Safe e (checkStack m i before) fun _ ↦ Settled top := by
  rw [Safe, checkStack_ok he.depth he.onStack hne]
  exact he

/-- **What one instruction keeps**: nothing is on the stack but the temporary that it leaves. -/
theorem emitAt_safe (hm : Emittable t vars m) (hx : m.code[i]? = some x)
    (he : Settled (leftBefore m i) e) :
    Safe e (emitAt c m (stackTemp? m) i x) fun _ ↦ Settled (leftBefore m (i + 1)) := by
  have hmem : x ∈ m.code := List.mem_of_getElem? hx
  have hdefs : ∀ name, stackTemp? m i = some name → x.defs? = some name := by
    intro name hname
    obtain ⟨ty, ty', rhs, hi⟩ := (stackTemp?_eq_some hname).assigned
    rw [Option.some.inj (hx.symm.trans hi)]
    rfl
  refine ((placeLabels_safe hm he).within _).bind fun _ e₁ h₁ ↦ .get ?_
  -- the rest, from the state in which the emitter knows what to leave on the stack
  have hrest : Safe { e₁ with keep := stackTemp? m i } (do
      EmitM.within s!"instr {i}" (instr c m x)
      checkStack m i e₁.onStack) fun _ ↦ Settled (stackTemp? m i) := by
    have hwaits : Waits { e₁ with keep := stackTemp? m i } 0 (firstOperand x)
        { e₁ with keep := stackTemp? m i } := by
      refine ⟨.refl _, ?_, fun name hname ↦ ?_⟩
      · show e₁.depth = 0 + left e₁.onStack
        rw [h₁.depth, h₁.onStack, Nat.zero_add]
      · obtain ⟨k, rfl, hk⟩ := leftBefore_eq_some (h₁.onStack.symm.trans hname)
        obtain ⟨next, ty, hnext, hfirst⟩ := hk.read
        rw [Option.some.inj (hx.symm.trans hnext)]
        exact ⟨ty, hfirst⟩
    have hinstr : Safe { e₁ with keep := stackTemp? m i } (instr c m x)
        fun _ ↦ Settled (stackTemp? m i) :=
      instr_safe h₁.consistent (hm.code x hmem) (fun name hn ↦ hm.slots name ⟨i, x, hx, .inl hn⟩)
        (fun name hn ↦ hm.slots name ⟨i, x, hx, .inr hn⟩) (hm.targets x hmem) hdefs hwaits
    refine (hinstr.within _).bind fun _ e₂ h₂ ↦ checkStack_safe h₂ fun name hname ↦ ?_
    exact stackTemp?_ne_of_leftBefore (h₁.onStack.symm.trans hname)
  show Safe e₁ _ fun _ ↦ Settled (stackTemp? m i)
  cases hkeep : stackTemp? m i with
  | none =>
    rw [hkeep] at hrest
    have hsame : { e₁ with keep := none } = e₁ := by rw [← h₁.keep]
    rwa [hsame] at hrest
  | some name =>
    have hname : name ≠ "" := (hm.slots name ⟨i, x, hx, .inr (hdefs name hkeep)⟩).1
    rw [hkeep] at hrest
    refine Safe.bind (P := fun _ e₂ ↦ e₂ = { e₁ with keep := some name }) (.modify ?_) ?_
    · rw [named, if_neg hname]
    · rintro _ _ rfl
      exact hrest

/-- **What a run over the code keeps**, from the instruction at `k` on. -/
theorem emitAll_safe (hm : Emittable t vars m) {xs : List IR.Instr} {k : Nat}
    (hxs : ∀ i x, xs[i]? = some x → m.code[k + i]? = some x) (he : Settled (leftBefore m k) e) :
    Safe e ((xs.zipIdx k).forM fun (x, i) ↦ emitAt c m (stackTemp? m) i x)
      fun _ ↦ Settled (leftBefore m (k + xs.length)) := by
  induction xs generalizing k e with
  | nil => exact .pure he
  | cons x xs ih =>
    refine (emitAt_safe hm (hxs 0 x rfl) he).bind fun _ e₁ h₁ ↦ ?_
    rw [List.length_cons, show k + (xs.length + 1) = k + 1 + xs.length by omega]
    refine ih (fun i y hy ↦ ?_) h₁
    rw [show k + 1 + i = k + (i + 1) by omega]
    exact hxs (i + 1) y hy

/-- The emitter refuses a method, or finds a jump past its end, or succeeds. -/
theorem emitMethod_safe (hm : Emittable t vars m) {err : Error} (h : emitMethod c m = .error err) :
    err.cause.isRefusal = true ∨ ∃ label, err.cause = .defect (.branchPastEnd m.name label) := by
  have hstart : Settled (leftBefore m 0) ({} : Emitter) := ⟨rfl, rfl, rfl, fun _ _ hd ↦ nomatch hd⟩
  have hcode := emitAll_safe (c := c) hm (fun i x hx ↦ by rwa [Nat.zero_add]) hstart
  rw [Safe] at hcode
  rw [emitMethod, emitWith] at h
  rcases Except.bind_eq_error.1 h with hrun | ⟨⟨_, e⟩, -, hend⟩
  · rw [hrun] at hcode
    exact .inl hcode
  · cases hpast : targetPastEnd? m with
    | none =>
      rw [hpast] at hend
      cases hend
    | some label =>
      rw [hpast] at hend
      cases hend
      exact .inr ⟨label, rfl⟩

end

/-- The same of a class, of which all methods can be emitted safely. -/
theorem assemble_safe {c : ClassDef} (h : ∀ m ∈ c.methods, ∃ t vars, Emittable t vars m) {err : Error}
    (he : assemble c = .error err) :
    err.cause.isRefusal = true ∨
      ∃ m ∈ c.methods, ∃ label, err.cause = .defect (.branchPastEnd m.name label) := by
  rcases Except.bind_eq_error.1 he with he | ⟨texts, -, he⟩
  · obtain ⟨m, hm, hfail⟩ := Except.exists_of_mapM_eq_error he
    obtain ⟨t, vars, hemit⟩ := h m hm
    rcases Except.bind_eq_error.1 hfail with hfail | ⟨e, -, hfail⟩
    · obtain ⟨err', herr, rfl⟩ := withinPlace_eq_error.1 hfail
      exact (emitMethod_safe hemit herr).imp_right fun hlabel ↦ ⟨m, hm, hlabel⟩
    · cases hfail
  · cases he

/-- A private label does not end in a digit. -/
theorem getLast?_of_isPrivate (h : IsPrivate name) :
    name.signs.getLast? = some (.char 'e') ∨ name.signs.getLast? = some (.char 'd') := by
  obtain ⟨n, rfl | rfl⟩ := h
  · rw [trueLabel, Text.signs_ofString, toList_trueLabel, List.map_append, List.map_append,
      List.getLast?_append, List.getLast?_append]
    exact .inl rfl
  · rw [endLabel, Text.signs_ofString, toList_endLabel, List.map_append, List.map_append,
      List.getLast?_append, List.getLast?_append]
    exact .inr rfl

theorem not_isPrivate_labelName (stem : Text) (n : Nat) : ¬ IsPrivate (Fresh.labelName stem n) := by
  have hne : Nat.toDigits 10 n ≠ [] := Nat.toDigits_ne_nil
  have hdigit : ((Nat.toDigits 10 n).getLast hne).isDigit = true :=
    Nat.isDigit_of_mem_toDigits (by decide) (by decide) (List.getLast_mem hne)
  have hlast : (Fresh.labelName stem n).signs.getLast? =
      some (.char ((Nat.toDigits 10 n).getLast hne)) := by
    rw [Fresh.signs_labelName, List.getLast?_append, List.getLast?_cons, List.getLast?_map,
      List.getLast?_eq_getLast_of_ne_nil hne]
    rfl
  intro hp
  rcases getLast?_of_isPrivate hp with h | h
  · rw [Sign.char.inj (Option.some.inj (hlast.symm.trans h))] at hdigit
    cases hdigit
  · rw [Sign.char.inj (Option.some.inj (hlast.symm.trans h))] at hdigit
    cases hdigit

end Jvm

/-! ## Lowered methods -/

section
variable {t : Scope} {vars : VarTable}

theorem Knows.contains {name : Text} {ty : Ty} (h : Knows t vars name ty) :
    vars.contains name = true := by
  obtain ⟨v, hv, -⟩ := h
  exact VarTable.contains_iff_get?.2 ⟨v, hv⟩

variable {x : Operand}

theorem SimpleOperand.contains (h : SimpleOperand t vars x) :
    ∀ name ∈ x.uses, vars.contains name = true := by
  cases h with
  | literal text ty => simp
  | var h => simpa using h.contains

theorem SoundOperand.contains (h : SoundOperand t vars x) :
    ∀ name ∈ x.uses, vars.contains name = true := by
  cases h with
  | simple h => exact h.contains
  | elem hb hi =>
    rw [Operand.uses_elem (by cases hi <;> rfl)]
    exact List.forall_mem_cons.2 ⟨hb.contains, hi.contains⟩

theorem SoundObject.contains (h : SoundObject t vars x) :
    ∀ name ∈ x.uses, vars.contains name = true := by
  cases h with
  | missing => simp
  | simple h => exact h.contains

theorem SoundCall.contains {c : Call} (h : SoundCall t vars c) :
    ∀ name ∈ (Instr.call c).uses, vars.contains name = true := by
  have hargs {args : List Operand} (ha : ∀ x ∈ args, SimpleOperand t vars x) :
      ∀ name ∈ args.flatMap Operand.uses, vars.contains name = true := by
    intro name hname
    obtain ⟨x, hx, hname⟩ := List.mem_flatMap.1 hname
    exact (ha x hx).contains name hname
  refine List.forall_mem_append.2 ?_
  cases h with
  | newObject cls hret => exact ⟨by simp, by simp⟩
  | newArray hs hret => exact ⟨by simp, hargs (by simpa using hs)⟩
  | arrayLength hx hret => exact ⟨hx.contains, by simp⟩
  | static cls method ha ret => exact ⟨by simp, hargs ha⟩
  | method hk hc cls method ha ret => exact ⟨hc.contains, hargs ha⟩

theorem SoundValue.contains {x : Instr} (h : SoundValue t vars x) :
    ∀ name ∈ x.uses, vars.contains name = true := by
  cases h with
  | single h => exact h.contains
  | binary op hl hr ty => exact List.forall_mem_append.2 ⟨hl.contains, hr.contains⟩
  | unary op h ty => exact h.contains
  | getField h field ty => exact h.contains
  | call h hret => exact h.contains

/-- The table has all variables that sound code names. -/
theorem SoundInstr.contains {x : Instr} (h : SoundInstr t vars x) {name : Text}
    (hn : name ∈ x.uses ∨ x.defs? = some name) : vars.contains name = true := by
  cases h with
  | assignVar hk hv =>
    rcases hn with hn | ⟨⟨⟩⟩
    · exact hv.contains name hn
    · exact hk.contains
  | assignElem hb hi hv =>
    have hn := hn.resolve_right (by simp [Instr.defs?])
    rcases List.mem_append.1 hn with hn | hn
    · exact (SoundOperand.elem hb hi).contains name hn
    · exact hv.contains name hn
  | call h => exact h.contains name (hn.resolve_right (by simp [Instr.defs?]))
  | retVoid ty => simp [Instr.uses, Instr.defs?] at hn
  | ret h ty => exact h.contains name (hn.resolve_right (by simp [Instr.defs?]))
  | branch h label => exact h.contains name (hn.resolve_right (by simp [Instr.defs?]))
  | goto label => simp [Instr.uses, Instr.defs?] at hn
  | putField h field hv =>
    have hn := hn.resolve_right (by simp [Instr.defs?])
    exact (List.mem_append.1 hn).elim (h.contains name) (hv.contains name)

end

namespace Framed

variable {t : Scope} {m : Method} (h : Framed t m)
include h

/-- A variable of the table was declared in the source, or is the receiver or a temporary. -/
theorem var_cases {x : Variable} (hx : x ∈ m.vars.vars) :
    t.sig.isStatic = false ∧ x = Lowering.receiverVar t.table ∨
      (∃ p ∈ t.sig.params, x = Lowering.paramVar p) ∨ (∃ l ∈ t.sig.locals, x = Lowering.localVar l) ∨
      ∃ n ty, x = tempVar n ty := by
  obtain ⟨vars, hdecl, temps, hvars, htemps⟩ := h.vars
  rw [hvars, List.mem_append] at hx
  rcases hx with hx | hx
  · rcases hdecl.cases hx with hx | hx | hx
    · exact .inl hx
    · exact .inr (.inl hx)
    · exact .inr (.inr (.inl hx))
  · exact .inr (.inr (.inr (htemps x hx)))

/-- The table is as an allocation wants it. -/
theorem standardTable : m.StandardTable where
  receiver := by
    intro hs
    obtain ⟨vars, hdecl, htemps⟩ := h.vars
    exact ⟨_, htemps.get? (hdecl.receiver (h.isStatic ▸ hs)), rfl⟩
  ofThis := by
    intro x hx hk
    rcases h.var_cases hx with ⟨hs, rfl⟩ | ⟨p, -, rfl⟩ | ⟨l, -, rfl⟩ | ⟨n, ty, rfl⟩
    · exact ⟨rfl, h.isStatic.trans hs⟩
    · cases hk
    · cases hk
    · cases hk
  nodup := by
    obtain ⟨vars, hdecl, -⟩ := h.vars
    obtain ⟨rest, hvars, -⟩ := hdecl.front
    have hn := vars.nodup
    rw [hvars, Lowering.frontVars, List.map_append, List.map_append, List.map_map] at hn
    rw [h.params, List.map_map]
    exact (List.nodup_append.1 (List.nodup_append.1 hn).1).2.1
  param := by
    intro p hp
    obtain ⟨vars, hdecl, htemps⟩ := h.vars
    rw [h.params] at hp
    obtain ⟨q, hq, rfl⟩ := List.mem_map.1 hp
    exact ⟨_, htemps.get? (hdecl.param hq), rfl⟩
  ofParam := by
    intro x hx hk
    rcases h.var_cases hx with ⟨-, rfl⟩ | ⟨p, hp, rfl⟩ | ⟨l, -, rfl⟩ | ⟨n, ty, rfl⟩
    · cases hk
    · rw [h.params]
      exact ⟨_, List.mem_map_of_mem hp, rfl⟩
    · cases hk
    · cases hk
  known := by
    intro x hx hk
    rcases h.var_cases hx with ⟨-, rfl⟩ | ⟨p, -, rfl⟩ | ⟨l, -, rfl⟩ | ⟨n, ty, rfl⟩
    · cases hk
    · cases hk
    · cases hk
    · cases hk

/-- All variables have names if those of the source do. -/
theorem name_ne_empty (hp : ∀ p ∈ t.sig.params, p.name ≠ "") (hl : ∀ l ∈ t.sig.locals, l.name ≠ "")
    {name : Text} (hn : m.vars.contains name = true) : name ≠ "" := by
  obtain ⟨x, hx⟩ := VarTable.contains_iff_get?.1 hn
  obtain ⟨hmem, rfl⟩ := VarTable.get?_eq_some_iff.1 hx
  rcases h.var_cases hmem with ⟨-, rfl⟩ | ⟨p, hpmem, rfl⟩ | ⟨l, hlmem, rfl⟩ | ⟨n, ty, rfl⟩
  · show Method.receiver ≠ ""
    decide
  · exact hp p hpmem
  · exact hl l hlmem
  · intro hempty
    have hsigns := congrArg Text.signs hempty
    simp [tempVar, Fresh.tempName] at hsigns

/-- No label is private. -/
theorem not_isPrivate {entry : Text × Int} (hentry : entry ∈ m.labels.entries) :
    ¬ Jvm.IsPrivate entry.1 := by
  obtain ⟨f, lo, hi, hclosed, -, hlabels⟩ := h.closed
  rw [hlabels] at hentry
  obtain ⟨⟨name, i⟩, hmem, rfl⟩ := List.mem_map.1 hentry
  obtain ⟨stem, n, rfl, -⟩ := hclosed.numbered.number name (List.mem_map.2 ⟨_, hmem, rfl⟩)
  exact Jvm.not_isPrivate_labelName stem n

theorem target_not_isPrivate {x : Instr} (hx : x ∈ m.code) {label : Text} (hl : x.target? = some label) :
    ¬ Jvm.IsPrivate label := by
  obtain ⟨-, j, -, htarget⟩ := h.target hx hl
  exact h.not_isPrivate (mem_of_lookup_eq_some htarget)

/-- The method passes its check if its table has all variables that the code names. -/
theorem check (hvars : ∀ x ∈ m.code, ∀ name, name ∈ x.uses ∨ x.defs? = some name →
    m.vars.contains name = true) : m.check = .ok () := by
  refine Method.check_eq_ok_iff.2 fun i x hx ↦ Method.checkInstr_eq_ok_iff.2 ?_
  have hmem : x ∈ m.code := List.mem_of_getElem? hx
  refine ⟨fun name hn ↦ hvars x hmem name (.inl hn), fun name hn ↦ hvars x hmem name (.inr hn),
    fun label hl ↦ ?_⟩
  obtain ⟨-, j, hj, htarget⟩ := h.target hmem hl
  exact Method.hasLabel_iff.2 ⟨j, hj, htarget⟩

end Framed

namespace SoundMethod

variable {t : Scope} {m : Method} (h : SoundMethod t m)
include h

/-- **A sound method passes its check.** -/
theorem check : m.check = .ok () :=
  h.toFramed.check fun x hx _ hn ↦ (h.code x hx).contains hn

/-- **A sound method gets slots, and can be emitted safely with them.** -/
theorem exists_emittable (hp : ∀ p ∈ t.sig.params, p.name ≠ "")
    (hl : ∀ l ∈ t.sig.locals, l.name ≠ "") {s : Strategy} (hs : Allocation.Known s) :
    ∃ m', Allocation.method s m = .ok m' ∧ m'.name = m.name ∧ Jvm.Emittable t m.vars m' := by
  obtain ⟨numbers, hm, hsep⟩ := Allocation.exists_withNumbers hs h.check h.standardTable
  have hsafe := Allocation.safeSlots_withNumbers h.standardTable h.check hsep
  refine ⟨_, hm, rfl, h.code, fun name hname ↦ ?_, fun entry ↦ h.not_isPrivate,
    fun x hx label ht ↦ h.target_not_isPrivate hx ht⟩
  have hname' : m.Names name := hname
  refine ⟨h.name_ne_empty hp hl (hname'.contains h.check), ?_⟩
  obtain ⟨n, hn⟩ := hsafe.given name hname'
  obtain ⟨x, hx, hslot⟩ := Option.bind_eq_some_iff.1 hn
  split at hslot
  · exact ⟨_, x.reg.toNat, x, hx, by omega, rfl⟩
  · cases hslot

end SoundMethod

/-! ## Programs -/

/-- Slots for a class, and what is known of its methods with them. -/
theorem Allocation.exists_cls {s : Strategy} {c : ClassDef} {R : Method → Method → Prop}
    (h : ∀ m ∈ c.methods, ∃ m', method s m = .ok m' ∧ R m m') :
    ∃ ms', cls s c = .ok { c with methods := ms' } ∧ ∀ m' ∈ ms', ∃ m ∈ c.methods, R m m' := by
  obtain ⟨ms', hms'⟩ : ∃ ms', (c.methods.mapM fun m ↦
      withinPlace s!"method {m.name}" (method s m)) = .ok ms' := by
    refine Except.exists_mapM_eq_ok fun m hm ↦ ?_
    obtain ⟨m', hm', -⟩ := h m hm
    exact ⟨m', withinPlace_eq_ok.2 hm'⟩
  refine ⟨ms', Except.bind_eq_ok.2 ⟨ms', hms', rfl⟩, fun m' hm' ↦ ?_⟩
  obtain ⟨m, hm, hof⟩ := exists_of_mem_right (Except.mapM_eq_ok.1 hms') hm'
  obtain ⟨m'', hm'', hr⟩ := h m hm
  obtain rfl := Except.ok.inj ((withinPlace_eq_ok.1 hof).symm.trans hm'')
  exact ⟨m, hm, hr⟩

/-- Each method of a lowered program, the constructor too, is sound in a scope of variables with
names. -/
theorem sound_of_lowerProgram {p : Program} {t : Symbols} {fresh fresh' : Fresh} {cls : ClassDef}
    (hbuild : Symbols.build p = .ok t) (hlower : lowerProgram t (some p) fresh = (.ok cls, fresh'))
    (hvoid : ∀ d ∈ p.cls.methods, NoVoid p.cls.name d)
    (hnames : ∀ d ∈ p.cls.methods, ∀ v ∈ d.params ++ d.locals, v.name ≠ "") :
    ∀ m ∈ cls.methods, ∃ scope, SoundMethod scope m ∧ (∀ q ∈ scope.sig.params, q.name ≠ "") ∧
      ∀ l ∈ scope.sig.locals, l.name ≠ "" := by
  obtain ⟨ms, rfl, hms⟩ := lowerProgram_sound hbuild hvoid hlower
  refine List.forall_mem_cons.2 ⟨⟨_, soundMethod_constructor t, by simp, by simp⟩, fun m hm ↦ ?_⟩
  obtain ⟨d, hd, -, hsound⟩ := exists_of_mem_right hms hm
  refine ⟨_, hsound, fun q hq ↦ ?_, fun l hl ↦ ?_⟩
  · obtain ⟨v, hv, rfl⟩ := List.mem_map.1 hq
    exact hnames d hd v (List.mem_append_left _ hv)
  · obtain ⟨v, hv, rfl⟩ := List.mem_map.1 hl
    exact hnames d hd v (List.mem_append_right _ hv)

/-- **Internal errors are unreachable.**  If no parameter and no local is void or without a name, and no
object of void or of a class without a name is made, then every method of a lowered program passes its
check, each strategy finds slots, and the assembly is made unless there is no code for a construct, or a
literal is no integer, or a jump goes past the end of a method. -/
theorem internal_errors_are_unreachable {p : Program} {t : Symbols} {fresh fresh' : Fresh}
    {cls : ClassDef} (hbuild : Symbols.build p = .ok t)
    (hlower : lowerProgram t (some p) fresh = (.ok cls, fresh'))
    (hvoid : ∀ d ∈ p.cls.methods, NoVoid p.cls.name d)
    (hnames : ∀ d ∈ p.cls.methods, ∀ v ∈ d.params ++ d.locals, v.name ≠ "")
    {s : Strategy} (hs : Allocation.Known s) :
    (∀ m ∈ cls.methods, m.check = .ok ()) ∧
    ∃ cls', Allocation.cls s cls = .ok cls' ∧ ∀ e, Jvm.assemble cls' = .error e →
      (∃ what pos, e.cause = .unsupported what pos) ∨ (∃ text fault, e.cause = .literal text fault) ∨
        ∃ m ∈ cls.methods, ∃ label, e.cause = .defect (.branchPastEnd m.name label) := by
  have hsound := sound_of_lowerProgram hbuild hlower hvoid hnames
  refine ⟨fun m hm ↦ ?_, ?_⟩
  · obtain ⟨scope, hm, -⟩ := hsound m hm
    exact hm.check
  · obtain ⟨ms', halloc, horigin⟩ := Allocation.exists_cls (s := s) (c := cls)
      (R := fun m m' ↦ m'.name = m.name ∧ ∃ scope vars, Jvm.Emittable scope vars m') fun m hm ↦ by
        obtain ⟨scope, hm, hp, hl⟩ := hsound m hm
        obtain ⟨m', halloc, hname, hemit⟩ := hm.exists_emittable hp hl hs
        exact ⟨m', halloc, hname, scope, m.vars, hemit⟩
    refine ⟨_, halloc, fun e he ↦ ?_⟩
    have hemit : ∀ m' ∈ ms', ∃ scope vars, Jvm.Emittable scope vars m' := by
      intro m' hm'
      obtain ⟨m, -, -, hemit⟩ := horigin m' hm'
      exact hemit
    rcases Jvm.assemble_safe hemit he with hrefusal | ⟨m', hm', label, hlabel⟩
    · exact (Cause.isRefusal_iff.1 hrefusal).imp_right .inl
    · obtain ⟨m, hm, hname, -⟩ := horigin m' hm'
      exact .inr (.inr ⟨m, hm, label, hname ▸ hlabel⟩)

theorem search_has_no_internal_errors :
    ∃ t cls fresh', Symbols.build search = .ok t ∧
      lowerProgram t (some search) { temps := 0, labels := 5 } = (.ok cls, fresh') ∧
      (∀ d ∈ search.cls.methods, NoVoid search.cls.name d) ∧
      (∀ d ∈ search.cls.methods, ∀ v ∈ d.params ++ d.locals, v.name ≠ "") ∧
      Allocation.Known .liveSets ∧ (∀ m ∈ cls.methods, m.check = .ok ()) ∧
      ∃ cls', Allocation.cls .liveSets cls = .ok cls' ∧ ∀ e, Jvm.assemble cls' = .error e →
        (∃ what pos, e.cause = .unsupported what pos) ∨ (∃ text fault, e.cause = .literal text fault) ∨
          ∃ m ∈ cls.methods, ∃ label, e.cause = .defect (.branchPastEnd m.name label) := by
  obtain ⟨t, cls, fresh', hbuild, hlower⟩ := search_lowers
  have hnames : ∀ d ∈ search.cls.methods, ∀ v ∈ d.params ++ d.locals, v.name ≠ "" := by
    intro d hd
    obtain rfl := List.mem_singleton.1 hd
    decide
  have hs : Allocation.Known .liveSets := .inr (.inl rfl)
  exact ⟨t, cls, fresh', hbuild, hlower, search_noVoid, hnames, hs,
    internal_errors_are_unreachable hbuild hlower search_noVoid hnames hs⟩

end MiniJava
