import MiniJava.Proofs.InternalErrors
import MiniJava.Proofs.PlainEmission
import MiniJava.Proofs.StackLimits

/-!
# Temporaries on the stack are a peephole

To leave a temporary on the stack changes nothing but lines that it makes needless
(`stack_temporaries_are_a_peephole`): emission fails exactly if plain emission does, where every temporary
is stored, and otherwise its lines are those of plain emission without the store and the load of each such
temporary, one right after the other.  The two need the same depth of the stack, and a temporary is never
left on the stack for longer than one instruction.

Any code will do: all that is asked for is that the variables that it names have names and slots.  The
depth of the stack is then not known, and may be anything where nothing falls through.  Only this is used:
an instruction that computes a value ends with this value on the stack (`value_pushes`).
-/

set_option autoImplicit false

namespace MiniJava

open IR

namespace Jvm

/-! ## What a value leaves on the stack -/

/-- Instructions that do not jump, and that make the stack higher by a number in all. -/
structure Raises (n : Int) (is : List Instr) : Prop where
  straight : ∀ i ∈ is, i.target? = none
  effect : (is.map Instr.effect).sum = n

namespace Raises

variable {n k : Int} {is js : List Instr}

theorem append (h : Raises n is) (h' : Raises k js) : Raises (n + k) (is ++ js) where
  straight i hi := (List.mem_append.1 hi).elim (h.straight i) (h'.straight i)
  effect := by rw [List.map_append, List.sum_append, h.effect, h'.effect]

theorem instr {i : Instr} (ht : i.target? = none) (hn : i.effect = n) :
    Raises n [i] :=
  ⟨by simpa using ht, by simpa using hn⟩

/-- The instructions of some operands, and then one that takes them. -/
theorem snoc (h : Raises n is) {i : Instr} (hk : n + i.effect = k) (ht : i.target? = none) :
    Raises k (is ++ [i]) := by
  have hi := h.append (.instr ht rfl)
  rwa [hk] at hi

/-- The emitter follows. -/
theorem depth {t t' : Tracker} (h : Raises n is)
    (hf : (is.map Line.instr).foldlM Tracker.line t = some t') :
    (t'.depth : Int) = t.depth + n ∧ (is ≠ [] → t'.depth ≤ t'.maxDepth) := by
  induction is generalizing t n with
  | nil =>
    have hn : n = 0 := h.effect.symm
    cases hf
    exact ⟨by omega, by simp⟩
  | cons i is ih =>
    obtain ⟨ht, hts⟩ := List.forall_mem_cons.1 h.straight
    obtain ⟨t₁, hi, hf⟩ := Option.bind_eq_some_iff.1 hf
    have hn : i.effect + (is.map Instr.effect).sum = n := h.effect
    rw [Tracker.line, Tracker.instr, ht] at hi
    split at hi
    · cases hi
    · rename_i hd
      cases hi
      obtain ⟨hdepth, hmax⟩ := ih ⟨hts, rfl⟩ hf
      have hafter : ((t.after i).depth : Int) = t.depth + i.effect := Int.toNat_of_nonneg (by omega)
      refine ⟨by omega, fun _ ↦ ?_⟩
      by_cases hempty : is = []
      · subst hempty
        cases hf
        exact Nat.le_max_right _ _
      · exact hmax hempty

end Raises

section
variable {c : ClassDef} {m : Method}

variable {is : List Instr} {x : IR.Instr}

theorem Loads.raises {s s' : Option Text} {x : Operand} (h : Loads m s x is s') (hs : s = none) :
    Raises 1 is := by
  induction h with
  | literal _ _ => exact .instr rfl rfl
  | top => cases hs
  | var _ _ => exact .instr rfl rfl
  | elem _ _ ih => exact (Raises.instr (n := 1) rfl rfl).append ((ih hs).snoc (k := 0) rfl rfl)

theorem LoadsAll.raises {s s' : Option Text} {xs : List Operand} (h : LoadsAll m s xs is s')
    (hs : s = none) : Raises xs.length is := by
  induction h with
  | nil => exact ⟨by simp, rfl⟩
  | cons hx _ ih =>
    rw [List.length_cons, Nat.cast_succ, Int.add_comm]
    exact (hx.raises hs).append (ih (by simpa [hs] using hx.onStack))

theorem effect_invokeInstr {x : Call} (hv : x.ret.isVoid = false) (how : Invocation) (cls : Text) :
    (invokeInstr c x how cls).effect = 1 - x.args.length - if how.hasReceiver then 1 else 0 := by
  rw [invokeInstr, Instr.effect, invokeEffect, descriptor_ne_V, hv, List.length_map]
  simp only [Bool.not_false, if_true]
  omega

theorem Calls.raises {x : Call} {s s' : Option Text} (h : Calls c m x s is s') (hs : s = none)
    (hv : x.ret.isVoid = false) : Raises 1 is := by
  cases h with
  | newObject _ => exact .instr rfl rfl
  | newArray _ _ hl hi =>
    rw [arrayInstr?] at hi
    split at hi <;> cases hi <;> exact (hl.raises hs).snoc rfl rfl
  | arrayLength _ hl => exact (hl.raises hs).snoc rfl rfl
  | static _ hl =>
    refine (hl.raises hs).snoc ?_ rfl
    rw [effect_invokeInstr hv, Invocation.hasReceiver, if_neg Bool.false_ne_true]
    omega
  | onObject hk hstatic hr ha ho =>
    rename_i how cls
    have hreceiver : how.hasReceiver = true := by simp [hasReceiver_of_invocation? hk, hstatic]
    have hargs := ha.raises (by simpa [hs] using hr.onStack)
    refine (hr.raises hs).append (hargs.snoc (k := 0) ?_ rfl)
    rw [effect_invokeInstr hv, hreceiver, if_pos rfl]
    omega

theorem Evaluates.raises {s s' : Option Text} (h : Evaluates c m s x is s') (hs : s = none) :
    Raises 1 is := by
  cases h with
  | single h => exact h.raises hs
  | arith _ hl hr =>
    exact (hl.raises hs).append ((hr.raises (by simpa [hs] using hl.onStack)).snoc (k := 0) rfl rfl)
  | not h => exact (h.raises hs).append ((Raises.instr (n := 1) (i := .push 1) rfl rfl).snoc (k := 0) rfl rfl)
  | neg h => exact (h.raises hs).snoc rfl rfl
  | call hv h => exact h.raises hs hv
  | getStatic => exact .instr rfl rfl
  | getField h => exact (h.raises hs).snoc rfl rfl

/-- The last lines of a comparison push its answer, whatever the depth was. -/
theorem answer_depth {t t' : Tracker} {onTrue done : Text}
    (h : [Line.label onTrue, .instr (.push 1), .label done].foldlM Tracker.line t = some t') :
    0 < t'.depth ∧ t'.depth ≤ t'.maxDepth := by
  simp only [List.foldlM_cons, List.foldlM_nil, Option.bind_eq_bind, Option.bind_eq_some_iff] at h
  obtain ⟨t₁, htrue, t₂, hpush, t₃, hdone, h⟩ := h
  cases h
  -- something falls through to the push and to what follows it
  have hlive : t₁.unreachable = false := by
    rw [Tracker.line, Tracker.label] at htrue
    split at htrue <;> split at htrue
    · cases htrue
      rfl
    · rename_i hu
      split at htrue
      · cases htrue
        exact Bool.eq_false_iff.2 hu
      · cases htrue
    · cases htrue
      rfl
    · rename_i hu
      cases htrue
      exact Bool.eq_false_iff.2 hu
  have hpushed : t₂ = t₁.after (.push 1) := by
    rw [Tracker.line, Tracker.instr, if_neg (by simp only [Instr.effect]; omega)] at hpush
    exact (Option.some.inj hpush).symm
  have hlive₂ : t₂.unreachable = false := by
    rw [hpushed, Tracker.after, hlive]
    rfl
  have hsame : t'.depth = t₂.depth ∧ t'.maxDepth = t₂.maxDepth := by
    rw [Tracker.line, Tracker.label, hlive₂] at hdone
    split at hdone
    · rw [if_neg Bool.false_ne_true] at hdone
      split at hdone
      · cases hdone
        exact ⟨rfl, rfl⟩
      · cases hdone
    · cases hdone
      exact ⟨rfl, rfl⟩
  rw [hsame.1, hsame.2, hpushed]
  refine ⟨?_, Nat.le_max_right _ _⟩
  simp only [Tracker.after, Instr.effect]
  omega

/-- **A value is on the stack** once it is computed, where nothing was left there before. -/
theorem value_pushes {p p' : Emitter} {u : Unit} (hn : ∀ name ∈ x.names, name ≠ "")
    (ho : p.onStack = none) (h : (value c m x).run p = .ok (u, p')) :
    0 < p'.depth ∧ p'.depth ≤ p'.maxDepth := by
  obtain ⟨ls, hls, ha, -⟩ := value_spec hn h
  have htrack := ha.track
  rw [ho] at hls
  generalize p.nextLabel = n, p'.nextLabel = n', p'.onStack = s at hls
  cases hls with
  | plain hev =>
    have hraises := hev.raises rfl
    obtain ⟨hdepth, hmax⟩ := hraises.depth htrack
    refine ⟨?_, hmax ?_⟩
    · simp only [Emitter.tracker] at hdepth
      omega
    · rintro rfl
      cases hraises.effect
  | @compare _ _ _ _ _ _ _ is test _ _ =>
    have hsplit : is.map Line.instr ++ answerLines test n =
        (is.map .instr ++ [.instr (test (trueLabel n)), .instr (.push 0), .instr (.goto (endLabel n))]) ++
        [.label (trueLabel n), .instr (.push 1), .label (endLabel n)] := by
      rw [List.append_assoc]
      rfl
    rw [hsplit, List.foldlM_append] at htrack
    obtain ⟨t, -, hend⟩ := Option.bind_eq_some_iff.1 htrack
    exact answer_depth hend

/-! ## Instructions -/

/-- Plain emission: every temporary is stored to its slot. -/
def emitPlainly (c : ClassDef) (m : Method) : Except Error Emitter := emitWith c m fun _ ↦ none

variable {ts : List Text} {k s : Option Text}

/-- **A temporary is left on the stack** in the one run and stored in the other. -/
theorem leave_ahead {name : Text} {e p : Emitter} (h : Level m ts k e p) (hname : Slotted m name)
    (htemp : isTemp m name = true) (hpos : 0 < p.depth) (hmax : p.depth ≤ p.maxDepth) :
    Agree StopsToo (fun a b ↦ a.1 = b.1 ∧ Ahead m (ts ++ [name]) none name a.2 b.2)
      ((set { e with keep := none, onStack := some name } : EmitM Unit).run e)
      ((storeVar m name).run p) := by
  obtain ⟨hl, hk, ho⟩ := h
  obtain ⟨hne, kind, slot, hslot⟩ := hname
  simp only at hpos hmax
  have hdepth : ((e.depth : Int) + (Instr.store kind slot).effect).toNat = e.depth - 1 := by
    simp only [Instr.effect]
    omega
  rw [storeVar, StateT.run_bind, slotOf_of_hasSlot hslot]
  show Agree _ _ _ ((emit m (.store kind slot)).run _)
  rw [emit_run, if_neg (by simp only [Instr.effect]; omega)]
  refine .ok ⟨rfl, ?_⟩
  simp only [Emitter.put, hdepth, Nat.max_eq_left (show e.depth - 1 ≤ e.maxDepth by omega), ho]
  exact .intro (e := { e with keep := none, onStack := some name }) rfl hl rfl rfl
    (show e.depth = e.depth - 1 + 1 by omega) hmax hne htemp hslot

/-- An assignment leaves its value on the stack if it was told so, and stores it in the plain run. -/
theorem assign_sideBySide {name : Text} {ty : Ty} {rhs : IR.Instr} (hname : Slotted m name)
    (hn : ∀ name ∈ rhs.names, name ≠ "")
    (hk : ∀ kept, k = some kept → kept = name ∧ isTemp m kept = true)
    (hx : TakesTop s (firstOperand rhs)) :
    Together StopsToo (SideBySide m ts k s) (SideBySide m (ts ++ k.toList) none k)
      (assign c m (.var name ty) rhs) (assign c m (.var name ty) rhs) := by
  intro e p he
  rw [assign, StateT.run_bind, StateT.run_bind]
  have hvalue := (code_beside c m ts k).value (x := rhs) (h := 0) (fun _ _ _ _ ↦ trivial) hx
  rw [IR.Instr.rename_refl] at hvalue
  refine (hvalue e p he).bind ?_
  rintro ⟨_, e₁⟩ ⟨_, p₁⟩ - hp ⟨-, h₁⟩
  have hkeep : e₁.keep = k ∧ p₁.keep = none := by
    obtain ⟨-, hk, -⟩ := h₁
    exact ⟨hk, rfl⟩
  have hempty : (none : Option Text).getD "" ≠ name := hname.1.symm
  rw [EmitM.run_get_bind, EmitM.run_get_bind, hkeep.1, hkeep.2, if_neg hempty]
  cases k with
  | none =>
    rw [if_neg hempty, Option.toList_none, List.append_nil]
    exact storeVar_level name _ _ h₁
  | some kept =>
    obtain ⟨rfl, htemp⟩ := hk kept rfl
    obtain ⟨hpos, hmax⟩ := value_pushes hn he.onStack.2 hp
    rw [if_pos Option.getD_some, named, if_neg hname.1]
    exact leave_ahead h₁ hname htemp hpos hmax

/-- **What one instruction does in the two runs**, if the temporary on the stack is what it loads
first. -/
theorem instr_sideBySide (hslots : ∀ name ∈ x.names, Slotted m name)
    (hk : ∀ kept, k = some kept → isTemp m kept = true ∧ ∃ ty ty' rhs, x = .assign (.var kept ty) ty' rhs)
    (hx : TakesTop s (firstOperand x)) :
    Together StopsToo (SideBySide m ts k s) (SideBySide m (ts ++ k.toList) none k)
      (instr c m x) (instr c m x) := by
  -- nothing is left on the stack by what is no assignment
  have hlevel (hdefs : x.defs? = none) (e p : Emitter) (he : Level m ts k e p) :
      SideBySide m (ts ++ k.toList) none k e p := by
    obtain rfl : k = none := by
      refine kept_eq_none (x := x) (fun kept hkept ↦ ?_) hdefs
      obtain ⟨-, ty, ty', rhs, rfl⟩ := hk kept hkept
      rfl
    rwa [Option.toList_none, List.append_nil]
  have hinstr := (code_beside c m ts k).instr (x := x) (fun _ _ _ _ ↦ trivial) (fun _ _ ↦ trivial) hx
    (E := SideBySide m (ts ++ k.toList) none k) (fun name ty ty' rhs hx' ↦ ?_) ?_ ?_
  · rwa [IR.Instr.rename_refl] at hinstr
  · subst hx'
    rw [IR.Instr.rename_refl]
    refine assign_sideBySide (hslots name ?_) (fun n hn ↦ (hslots n ?_).1) (fun kept hkept ↦ ?_) hx
    · exact List.mem_append_left _ (List.mem_singleton_self name)
    · exact List.mem_append_right _ hn
    · obtain ⟨htemp, _, _, _, heq⟩ := hk kept hkept
      cases heq
      exact ⟨rfl, htemp⟩
  · rintro y rfl - e p he
    exact hlevel rfl e p he
  · exact hlevel

/-! ## Methods -/

/-- What the checks after an instruction do if nothing that was on the stack before is still there. -/
theorem checkStack_run {i : Nat} {e : Emitter} (hne : ∀ name, s = some name → e.onStack ≠ some name) :
    (checkStack m i s).run e =
      if (decide (e.depth ≠ if e.onStack.isSome then 1 else 0) && !e.unreachable) = true then
        .error (.defect (.stackNotEmpty m.name i e.depth))
      else .ok ((), e) := by
  rw [checkStack, EmitM.run_get_bind]
  generalize (if e.onStack.isSome = true then 1 else 0) = expected
  cases s with
  | none =>
    dsimp only
    split
    · rfl
    · rfl
  | some name =>
    dsimp only
    rw [if_neg (hne name rfl)]
    split
    · rfl
    · rfl

/-- The checks after an instruction come to the same in the two runs, and what was on the stack before is
not there any more. -/
theorem checkStack_sideBySide {i : Nat} (hne : ∀ name, s = some name → k ≠ some name) :
    Together StopsToo (SideBySide m ts none k) (SideBySide m ts none k) (checkStack m i s)
      (checkStack m i none) := by
  intro e p h
  obtain ⟨ho, hp⟩ := h.onStack
  have hsame : e.unreachable = p.unreachable ∧
      decide (e.depth ≠ if k.isSome then 1 else 0) = decide (p.depth ≠ 0) := by
    cases k with
    | none =>
      obtain ⟨-, -, -⟩ := h
      exact ⟨rfl, rfl⟩
    | some name =>
      obtain ⟨-, -, -, -, hd, -, -, -, -⟩ := h
      exact ⟨rfl, by simp [hd]⟩
  have hfused := checkStack_run (m := m) (i := i) (s := s) (e := e) (ho ▸ hne)
  have hplain := checkStack_run (m := m) (i := i) (s := none) (e := p) fun _ h ↦ nomatch h
  rw [ho, hsame.1, hsame.2] at hfused
  rw [hp, Option.isSome_none, if_neg Bool.false_ne_true] at hplain
  rw [hfused, hplain]
  by_cases hc : (decide (p.depth ≠ 0) && !p.unreachable) = true
  · rw [if_pos hc, if_pos hc]
    exact .error (not_isLeftover rfl)
  · rw [if_neg hc, if_neg hc]
    exact .ok ⟨rfl, h⟩

/-- The labels before an instruction.  There are none if a temporary is on the stack. -/
theorem placeLabels_sideBySide (i : Nat) :
    Together StopsToo (SideBySide m ts none (leftBefore m i)) (SideBySide m ts none (leftBefore m i))
      ((m.labels.namesAt i).forM (placeLabel m)) ((m.labels.namesAt i).forM (placeLabel m)) := by
  cases htop : leftBefore m i with
  | none => exact .forM fun label _ ↦ placeLabel_level label
  | some name =>
    obtain ⟨j, rfl, hj⟩ := leftBefore_eq_some htop
    rw [hj.unlabelled]
    exact .pure ()

/-- The temporaries that instructions before an index leave on the stack. -/
def tempsBefore (m : Method) (i : Nat) : List Text := (List.range i).filterMap (stackTemp? m)

/-- The temporaries that stay on the stack, in the order of the code. -/
def stackTemps (m : Method) : List Text := tempsBefore m m.code.length

theorem tempsBefore_succ (m : Method) (i : Nat) :
    tempsBefore m (i + 1) = tempsBefore m i ++ (stackTemp? m i).toList := by
  rw [tempsBefore, List.range_succ, List.filterMap_append, ← tempsBefore]
  cases h : stackTemp? m i <;> simp [h]

/-- **What one instruction keeps**, with its labels and the checks after it. -/
theorem emitAt_sideBySide {i : Nat} (hx : m.code[i]? = some x)
    (hslots : ∀ name ∈ x.names, Slotted m name) :
    Together StopsToo (SideBySide m (tempsBefore m i) none (leftBefore m i))
      (SideBySide m (tempsBefore m (i + 1)) none (leftBefore m (i + 1)))
      (emitAt c m (stackTemp? m) i x) (emitAt c m (fun _ ↦ none) i x) := by
  have htop : TakesTop (leftBefore m i) (firstOperand x) := by
    intro name hname
    obtain ⟨j, rfl, hj⟩ := leftBefore_eq_some hname
    obtain ⟨next, ty, hnext, hfirst⟩ := hj.read
    rw [Option.some.inj (hx.symm.trans hnext)]
    exact ⟨ty, hfirst⟩
  have hkept : ∀ kept, stackTemp? m i = some kept →
      isTemp m kept = true ∧ ∃ ty ty' rhs, x = .assign (.var kept ty) ty' rhs := by
    intro kept h
    have hstays := stackTemp?_eq_some h
    obtain ⟨ty, ty', rhs, hi⟩ := hstays.assigned
    exact ⟨hstays.temp, ty, ty', rhs, Option.some.inj (hx.symm.trans hi)⟩
  rw [tempsBefore_succ]
  have htell : Together StopsToo (SideBySide m (tempsBefore m i) none (leftBefore m i))
      (SideBySide m (tempsBefore m i) (stackTemp? m i) (leftBefore m i)) (tell (stackTemp? m i))
      (tell none) := by
    intro e p h
    cases hkeep : stackTemp? m i with
    | none => exact .ok ⟨rfl, h⟩
    | some kept =>
      have hne : kept ≠ "" := by
        obtain ⟨-, ty, ty', rhs, rfl⟩ := hkept kept hkeep
        exact (hslots kept (List.mem_append_left _ (List.mem_singleton_self kept))).1
      refine .ok ⟨rfl, ?_⟩
      rw [named, if_neg hne]
      exact h.keeping (some kept)
  refine emitAt_together (fun _ _ _ h ↦ h) (placeLabels_sideBySide i) htell
    (instr_sideBySide hslots hkept htop) fun e p h ↦ ?_
  obtain ⟨ho, hp⟩ := h.onStack
  rw [ho, hp]
  exact checkStack_sideBySide fun name ↦ stackTemp?_ne_of_leftBefore

/-- **What a run over the code keeps.** -/
theorem emitAll_sideBySide (hslots : ∀ x ∈ m.code, ∀ name ∈ x.names, Slotted m name) :
    Together StopsToo (SideBySide m (tempsBefore m 0) none (leftBefore m 0))
      (SideBySide m (stackTemps m) none (leftBefore m m.code.length))
      (m.code.zipIdx.forM fun p ↦ emitAt c m (stackTemp? m) p.2 p.1)
      (m.code.zipIdx.forM fun p ↦ emitAt c m (fun _ ↦ none) p.2 p.1) := by
  have hcode := forM_zipIdx_together (I := fun i ↦ SideBySide m (tempsBefore m i) none (leftBefore m i))
    (Q := StopsToo) (F := fun x i ↦ emitAt c m (stackTemp? m) i x)
    (G := fun x i ↦ emitAt c m (fun _ ↦ none) i x) (φ := id) m.code (k := 0) fun i x hx ↦ ?_
  · rwa [List.map_id, Nat.zero_add] at hcode
  · rw [Nat.zero_add]
    exact emitAt_sideBySide hx (hslots x (List.mem_of_getElem? hx))

/-- The last instruction leaves nothing on the stack. -/
theorem leftBefore_length (m : Method) : leftBefore m m.code.length = none := by
  cases htop : leftBefore m m.code.length with
  | none => rfl
  | some name =>
    obtain ⟨j, hlen, hj⟩ := leftBefore_eq_some htop
    obtain ⟨next, -, hnext, -⟩ := hj.read
    rw [← hlen, List.getElem?_length] at hnext
    cases hnext

/-- No temporary stays on the stack twice, since it is written once. -/
theorem nodup_stackTemps (m : Method) : (stackTemps m).Nodup := by
  refine List.nodup_range.filterMap fun i j name hi hj ↦ ?_
  by_contra hne
  have hstays := stackTemp?_eq_some hi
  obtain ⟨ty, _, _, hdef⟩ := hstays.assigned
  obtain ⟨ty', _, _, hdef'⟩ := (stackTemp?_eq_some hj).assigned
  have hcount := count_add_count_le (fun x ↦ x.defs?.toList) name hne hdef hdef'
  have hone : (m.code.filterMap IR.Instr.defs?).count name = 1 := hstays.defCount
  rw [List.filterMap_eq_flatMap_toList] at hone
  rw [hone] at hcount
  simp [IR.Instr.defs?] at hcount

/-- The two runs over a whole method. -/
theorem emitMethod_agree (hslots : ∀ x ∈ m.code, ∀ name ∈ x.names, Slotted m name) :
    Agree StopsToo (fun e p ↦ Peephole m (stackTemps m) p.lines e.lines ∧ e.maxDepth = p.maxDepth)
      (emitMethod c m) (emitPlainly c m) := by
  have hstart : SideBySide m (tempsBefore m 0) none (leftBefore m 0) ({} : Emitter) {} :=
    Level.intro (e := {}) .nil rfl rfl
  refine (emitAll_sideBySide hslots _ _ hstart).bind ?_
  rintro ⟨_, e⟩ ⟨_, p⟩ - - ⟨-, h⟩
  rw [leftBefore_length] at h
  obtain ⟨hl, -, -⟩ := h
  cases targetPastEnd? m with
  | some label => exact .error (not_isLeftover rfl)
  | none => exact .ok ⟨hl, rfl⟩

end

/-- **To leave temporaries on the stack is a peephole.**  If all variables that the code of a method names
have names and registers, then emission fails exactly if plain emission does.  If not, its lines are those
of plain emission without an adjacent store and load for each temporary that stays on the stack, and both
need the same depth of the stack.  The error that a temporary was left on the stack does not arise. -/
theorem stack_temporaries_are_a_peephole (c : ClassDef) (m : Method)
    (hvars : ∀ x ∈ m.code, ∀ name ∈ x.names,
      name ≠ "" ∧ ∃ v ∈ m.vars.vars, v.name = name ∧ 0 ≤ v.reg) :
    SameSuccess (fun e p ↦ Peephole m (stackTemps m) p.lines e.lines ∧ e.maxDepth = p.maxDepth)
      (emitMethod c m) (emitPlainly c m) ∧
    (stackTemps m).Nodup ∧
    ∀ err, emitMethod c m = .error err → ∀ method i name,
      err.cause ≠ .defect (.leftOnStack method i name) := by
  have hslots : ∀ x ∈ m.code, ∀ name ∈ x.names, Slotted m name := by
    intro x hx name hname
    obtain ⟨hne, v, hv, hv', hreg⟩ := hvars x hx name hname
    refine ⟨hne, Kind.ofTy v.ty, v.reg.toNat, v, VarTable.get?_eq_some_iff.2 ⟨hv, hv'⟩, ?_, rfl⟩
    exact (Int.toNat_of_nonneg hreg).symm
  have hagree := emitMethod_agree (c := c) hslots
  refine ⟨hagree.sameSuccess, nodup_stackTemps m, fun err herr method i name hcause ↦ ?_⟩
  exact hagree.not_isLeftover herr ⟨method, i, name, hcause⟩

theorem gauss_temporaries_are_a_peephole : ∃ m ∈ gauss.methods,
    (∀ x ∈ m.code, ∀ name ∈ x.names, name ≠ "" ∧ ∃ v ∈ m.vars.vars, v.name = name ∧ 0 ≤ v.reg) ∧
    stackTemps m = ["t_0", "t_1", "t_2", "t_3"] ∧ (emitMethod gauss m).isOk = true ∧
    SameSuccess (fun e p ↦ Peephole m (stackTemps m) p.lines e.lines ∧ e.maxDepth = p.maxDepth)
      (emitMethod gauss m) (emitPlainly gauss m) ∧
    (stackTemps m).Nodup ∧
    ∀ err, emitMethod gauss m = .error err → ∀ method i name,
      err.cause ≠ .defect (.leftOnStack method i name) := by
  have hvars : ∀ m ∈ gauss.methods, ∀ x ∈ m.code, ∀ name ∈ x.names,
      name ≠ "" ∧ ∃ v ∈ m.vars.vars, v.name = name ∧ 0 ≤ v.reg := by
    decide
  refine ⟨_, List.mem_singleton_self _, hvars _ (List.mem_singleton_self _), ?_, ?_, ?_⟩
  · decide +kernel
  · decide +kernel
  · exact stack_temporaries_are_a_peephole gauss _ (hvars _ (List.mem_singleton_self _))

end Jvm

end MiniJava
