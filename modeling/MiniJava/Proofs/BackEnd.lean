import MiniJava.Proofs.FirstFit
import MiniJava.Proofs.Layout

/-!
# The back end preserves the meaning of the intermediate code

Running the emitted lines of a method on the stack machine is indistinguishable from running its
intermediate code over named variables: `back_end_preserves_meaning`.

The two runs are related at each instruction (`Related`).  A variable that is live there is in its slot,
or it is the temporary on top of the stack.  Slots can be shared, so a write to one must not touch
another variable that is live afterwards: that is what the allocation promises.  A temporary on the
stack is read by the next instruction and by no other, so nothing wants it later.
-/

set_option autoImplicit false

namespace MiniJava.Jvm

open IR

/-! ## Temporaries on the stack -/

section
variable {m : Method}

/-- What two instructions name counts apart. -/
theorem count_add_count_le {xs : List IR.Instr} (f : IR.Instr → List Text) {i j : Nat}
    {x y : IR.Instr} (name : Text) (hij : i ≠ j) (hx : xs[i]? = some x) (hy : xs[j]? = some y) :
    (f x).count name + (f y).count name ≤ (xs.flatMap f).count name := by
  induction xs generalizing i j with
  | nil => simp at hx
  | cons z xs ih =>
    have hone : ∀ (k : Nat) (w : IR.Instr), xs[k]? = some w →
        (f w).count name ≤ (xs.flatMap f).count name := by
      intro k w hw
      exact (List.sublist_flatten_of_mem
        (List.mem_map_of_mem (List.mem_of_getElem? hw))).count_le name
    rw [List.flatMap_cons, List.count_append]
    cases i with
    | zero =>
      cases j with
      | zero => exact absurd rfl hij
      | succ j =>
        obtain rfl : z = x := Option.some.inj hx
        have := hone j y hy
        omega
    | succ i =>
      cases j with
      | zero =>
        obtain rfl : z = y := Option.some.inj hy
        have := hone i x hx
        omega
      | succ j =>
        have := ih (i := i) (j := j) (by omega) hx hy
        omega

/-- A temporary on the stack is wanted by the next instruction and by no other. -/
theorem StaysOnStack.eq_of_live (hf : ∀ x ∈ m.code, LoadsFirst x) {i j : Nat} {name : Text}
    (h : StaysOnStack m i name) (hl : m.Live name j) : j = i + 1 := by
  obtain ⟨ty, ty', rhs, hdef⟩ := h.assigned
  obtain ⟨next, ty'', hnext, hfirst⟩ := h.read
  induction hl with
  | @use j x hx hv =>
    by_contra hne
    have hcount := count_add_count_le IR.Instr.uses name hne hx hnext
    have hread := (hf next (List.mem_of_getElem? hnext)).mem_uses hfirst
    have h₁ : 0 < x.uses.count name := List.count_pos_iff.2 hv
    have h₂ : 0 < next.uses.count name := List.count_pos_iff.2 hread
    have h₃ : (m.code.flatMap IR.Instr.uses).count name = 1 := h.useCount
    omega
  | @later j k hd hn _ ih =>
    -- the only way to the next instruction is past the one that writes the temporary
    obtain rfl := ih
    cases hn with
    | fall hx hf => exact absurd (by rw [Method.defAt, hdef]; rfl) hd
    | jump hx ht hj =>
      have := Labels.mem_namesAt.2 (mem_of_lookup_eq_some hj)
      rw [h.unlabelled] at this
      cases this

/-- Nothing but a temporary on the stack is missing from its place, so the operands of the instruction
can be loaded. -/
theorem readyBy_loadsOf {P : Text → Prop} {i : Nat} {x : IR.Instr} {s : Option Text}
    (hx : m.code[i]? = some x) (hf : LoadsFirst x)
    (hs : ∀ name, s = some name → ∃ j, i = j + 1 ∧ StaysOnStack m j name)
    (hin : ∀ name ∈ x.uses, s ≠ some name → P name) : ReadyBy P s (loadsOf x) := by
  have hsub := loadsOf_sublist x
  cases s with
  | none =>
    intro y hy name hn
    exact hin name (hsub.subset (List.mem_flatMap.2 ⟨y, hy, hn⟩)) (by simp)
  | some name =>
    obtain ⟨j, rfl, hstays⟩ := hs name rfl
    obtain ⟨next, ty, hnext, hfirst⟩ := hstays.read
    obtain rfl := Option.some.inj (hx.symm.trans hnext)
    obtain ⟨rest, hrest⟩ := hf name ty hfirst
    refine ⟨ty, rest, hrest, fun y hy v hv ↦ ?_⟩
    have hmem : v ∈ rest.flatMap Operand.uses := List.mem_flatMap.2 ⟨y, hy, hv⟩
    rw [hrest, List.flatMap_cons] at hsub
    refine hin v (hsub.subset (List.mem_append_right _ hmem)) ?_
    -- a second read of the temporary would be counted
    rintro ⟨rfl⟩
    have hcount := hsub.count_le name
    have hall : x.uses.count name ≤ (m.code.flatMap IR.Instr.uses).count name :=
      (List.sublist_flatten_of_mem (List.mem_map_of_mem (List.mem_of_getElem? hx))).count_le name
    have hone : (m.code.flatMap IR.Instr.uses).count name = 1 := hstays.useCount
    have hpos : 0 < (rest.flatMap Operand.uses).count name := List.count_pos_iff.2 hmem
    simp only [Operand.uses, List.count_append, List.count_singleton_self] at hcount
    omega

end

/-! ## Methods -/

/-- A write to one variable spares the slots of all others that are live after it. -/
def Spares (m : Method) : Prop :=
  ∀ w v, m.Clash w v → m.slot? w = m.slot? v → w = v

/-- The runs stand at the same instruction and agree on what is still wanted. -/
structure Related (m : Method) (es : Nat → Emitter) (s : IR.State) (t : State) : Prop where
  le : s.pc ≤ m.code.length
  pc : t.pc = Layout.place m es s.pc
  stack : t.frame.stack = onTop s.store (es s.pc).onStack []
  holds : ∀ v, m.Live v s.pc → HoldsAt m.vars s.store v
  inSlot : ∀ v, m.Live v s.pc → (es s.pc).onStack ≠ some v → InSlot m s.store t.frame.slots v

section
variable {c : ClassDef} {m : Method} {lines : List Line} {es : Nat → Emitter}
variable {slot i j : Nat} {x : IR.Instr} {v : Text}

theorem HasSlot.slot? {name : Text} {kind : Kind} (h : HasSlot m name kind slot) :
    m.slot? name = some slot := by
  obtain ⟨x, hx, hreg, -⟩ := h
  exact Method.slot?_eq_some hx hreg

variable {store : Text → Word} {r : (Text → Word) × Control} {label : Text}

/-- A value of the type of a variable has the kind of its slot. -/
theorem HasSlot.kind_eq {name : Text} {kind : Kind} (h : HasSlot m name kind slot)
    (hv : HoldsAt m.vars store name) : (store name).kind = kind := by
  obtain ⟨x, hx, -, hkind⟩ := h
  obtain ⟨y, hy, hholds⟩ := hv
  obtain rfl := Option.some.inj (hx.symm.trans hy)
  rw [← hkind]
  exact Ty.kind_of_holds hholds

/-- Live variables hold values of their types after an instruction, too. -/
theorem holds_after (hx : m.code[i]? = some x) (hold : ∀ v, m.Live v i → HoldsAt m.vars store v)
    (hr : x.Respects m.vars store r) (hn : m.Next i j) (hv : m.Live v j) : HoldsAt m.vars r.1 v := by
  by_cases hd : x.defs? = some v
  · exact hr.written v hd
  · have hlive : m.Live v i := .later (by rw [Method.defAt, hx]; exact hd) hn hv
    obtain ⟨y, hy, hholds⟩ := hold v hlive
    exact ⟨y, hy, by rw [hr.frame v hd]; exact hholds⟩

/-- A variable that is written to its slot is there. -/
theorem written_self {α : Type} {left : Option Text} (hd : x.defs? = some v) (hleft : left ≠ some v)
    (hslot : m.slot? v = some slot) (slots : Nat → α) (store : Text → α) :
    written m x left slots store slot = store v := by
  simp [written, hd, hleft, hslot]

/-- An instruction spares the slots of the variables that it does not write and that are wanted after
it. -/
theorem written_of_live {α : Type} (hspares : Spares m) (hx : m.code[i]? = some x) (hn : m.Next i j)
    (hv : m.Live v j) (hd : x.defs? ≠ some v) (hslot : m.slot? v = some slot) (left : Option Text)
    (slots : Nat → α) (store : Text → α) : written m x left slots store slot = slots slot := by
  rw [written]
  cases hw : x.defs? with
  | none => rfl
  | some w =>
    simp only
    split
    · rfl
    · cases hslot' : m.slot? w with
      | none => rfl
      | some slot' =>
        -- the slot that is written is that of another variable
        refine Function.update_of_ne ?_ _ _
        rintro rfl
        have hclash : m.Clash w v := ⟨i, j, by rw [Method.defAt, hx]; exact hw, hn, hv⟩
        have hwv := hspares w v hclash (hslot'.trans hslot.symm)
        exact hd (hwv ▸ hw)

/-- Live variables are in their slots after an instruction, but for the one it leaves on the stack. -/
theorem inSlot_after (hspares : Spares m) {slots : Nat → Word} {left : Option Text}
    (hx : m.code[i]? = some x) (hr : x.Respects m.vars store r) (hn : m.Next i j)
    (hin : ∀ v, m.Live v i → m.Live v j → InSlot m store slots v) (hv : m.Live v j)
    (hholds : HoldsAt m.vars r.1 v) (hleft : left ≠ some v) :
    InSlot m r.1 (written m x left slots r.1) v := by
  intro kind slot hslot
  refine ⟨?_, hslot.kind_eq hholds⟩
  by_cases hd : x.defs? = some v
  · exact written_self hd hleft hslot.slot? slots r.1
  · have hlive : m.Live v i := .later (by rw [Method.defAt, hx]; exact hd) hn hv
    obtain ⟨hval, -⟩ := hin v hlive hv kind slot hslot
    rw [hr.frame v hd, ← hval]
    exact written_of_live hspares hx hn hv hd hslot.slot? left slots r.1

/-- What is on the stack before an instruction is not wanted after it. -/
theorem onStack_ne_of_live (h : Layout c m lines es) (hf : ∀ x ∈ m.code, LoadsFirst x)
    (hi : i ≤ m.code.length) (hn : m.Next i j) (hv : m.Live v j) : (es i).onStack ≠ some v := by
  intro hs
  obtain ⟨k, rfl, hstays⟩ := h.staysOnStack hi hs
  obtain rfl := hstays.eq_of_live hf hv
  cases hn with
  | jump _ _ hj =>
    have := Labels.mem_namesAt.2 (mem_of_lookup_eq_some hj)
    rw [hstays.unlabelled] at this
    cases this

/-- Nothing is on the stack at a label. -/
theorem onStack_eq_none_of_label (h : Layout c m lines es) (hj : j ≤ m.code.length)
    (hl : m.target? label = some (j : Int)) : (es j).onStack = none := by
  cases hs : (es j).onStack with
  | none => rfl
  | some name =>
    obtain ⟨k, rfl, hstays⟩ := h.staysOnStack hj hs
    have := Labels.mem_namesAt.2 (mem_of_lookup_eq_some hl)
    rw [hstays.unlabelled] at this
    cases this

/-- The instruction that a jump goes to. -/
theorem Layout.target (h : Layout c m lines es) (hcheck : m.check = .ok ()) (hx : m.code[i]? = some x)
    (ht : x.target? = some label) : ∃ j < m.code.length, m.target? label = some (j : Int) := by
  obtain ⟨j, hj, hlabel⟩ := Method.exists_target hcheck hx ht
  refine ⟨j, Nat.lt_of_le_of_ne hj ?_, hlabel⟩
  rintro rfl
  have hinside := h.inside
  rw [targetPastEnd?, List.find?_eq_none] at hinside
  refine hinside label (Labels.mem_namesAt.2 (mem_of_lookup_eq_some hlabel)) ?_
  rw [List.any_eq_true]
  exact ⟨x, List.mem_of_getElem? hx, by simpa using ht⟩

/-- The lines of an instruction that may jump are instructions, one at least. -/
theorem Emits.instrs_of_target {keep s s' : Option Text} {n n' : Nat} {ls : List Line}
    (h : Emits c m keep s n x ls s' n') (ht : x.target? = some label) :
    x.defs? = none ∧ ∃ i, ls[0]? = some (.instr i) := by
  have hfront : ∀ (is : List Instr) (j : Instr),
      ∃ i, (is.map Line.instr ++ [Line.instr j])[0]? = some (Line.instr i) := by
    intro is j
    cases is with
    | nil => exact ⟨j, rfl⟩
    | cons i is => exact ⟨i, rfl⟩
  cases h with
  | goto => exact ⟨rfl, _, rfl⟩
  | branchCompare _ _ | branchNot _ | branch _ => exact ⟨rfl, hfront _ _⟩
  | discard hc hval =>
    cases hval with
    | plain hval => cases hval <;> cases ht
    | compare _ _ => cases ht
  | leave _ _ | store _ _ _ | storeElem _ _ _ | callVoid _ _ | callValue _ _ | retVoid | ret _
  | putStatic _ | putField _ _ => cases ht

/-- There is nothing to run after the lines of the last instruction. -/
theorem Layout.machine_end (h : Layout c m lines es) (env : Env Instr) (f : Frame) :
    machine lines env ⟨place m es m.code.length, f⟩ = throw .exhausted := by
  rw [machine, h.getElem?_place_length]

/-- Whichever way control goes from an instruction, what is wanted there is in place. -/
theorem Layout.related_after (h : Layout c m lines es) (hw : ∀ x ∈ m.code, x.wellTyped m.vars = true)
    (hspares : Spares m) {slots : Nat → Word} (hx : m.code[i]? = some x)
    (hholds : ∀ v, m.Live v i → HoldsAt m.vars store v)
    (hin : ∀ v, m.Live v i → (es i).onStack ≠ some v → InSlot m store slots v)
    (hr : x.Respects m.vars store r) (hn : m.Next i j) (hs : (es j).onStack = (es (i + 1)).onStack)
    (hj : j ≤ m.code.length) :
    Related m es ⟨j, r.1⟩ ⟨place m es j, ⟨onTop r.1 (es (i + 1)).onStack [],
      written m x (es (i + 1)).onStack slots r.1⟩⟩ := by
  have hi : i ≤ m.code.length := Nat.le_of_lt (List.getElem?_eq_some_iff.1 hx).1
  have hheld : ∀ v, m.Live v j → HoldsAt m.vars r.1 v := fun v hv ↦ holds_after hx hholds hr hn hv
  refine ⟨hj, rfl, by rw [hs], hheld, fun v hv hne ↦ ?_⟩
  refine inSlot_after hspares hx hr hn (fun v hlive hv ↦ hin v hlive ?_) hv (hheld v hv) (hs ▸ hne)
  exact onStack_ne_of_live h (fun y hy ↦ loadsFirst_of_wellTyped (hw y hy)) hi hn hv

/-- A machine that was at an instruction and is at a label has moved. -/
theorem steps_pos_of_label {env : Env Instr} {n p q : Nat} {f f' : Frame}
    {past past' : List (Request Instr)} (hn : (machine lines env).Steps n ⟨p, f⟩ past ⟨q, f'⟩ past')
    {i : Instr} (hp : lines[p]? = some (.instr i)) (hq : lines[q]? = some (.label label)) : 0 < n := by
  rcases Nat.eq_zero_or_pos n with rfl | hpos
  · have hpc : p = q := congrArg State.pc (Except.ok.inj (Prod.mk.inj hn).1)
    rw [hpc, hq] at hp
    cases hp
  · exact hpos

/-- **One instruction of the intermediate code is followed by its lines.** -/
theorem Layout.follows (h : Layout c m lines es) (hcheck : m.check = .ok ())
    (hw : ∀ x ∈ m.code, x.wellTyped m.vars = true) (hspares : Spares m) {env : Env Instr}
    (henv : TypedEnv env) :
    Machine.Follows (m.machine (linked c env)) (machine lines env) (Related m es)
      fun s ↦ m.code.length - s.pc := by
  rintro ⟨i, store⟩ ⟨p, stack, slots⟩ hrel past
  obtain ⟨hle, hpc, hstack, hholds, hin⟩ := hrel
  simp only at hle hpc hstack hholds hin
  subst hpc hstack
  cases hx : m.code[i]? with
  | none =>
    obtain rfl : i = m.code.length := Nat.le_antisymm hle (List.getElem?_eq_none_iff.1 hx)
    rw [Method.machine, hx]
    exact ⟨by simp, 1, .of_step (by rw [h.machine_end]; rfl)⟩
  | some x =>
    have hwx := hw x (List.mem_of_getElem? hx)
    have huses : ∀ name ∈ x.uses, HoldsAt m.vars store name := fun name hn ↦ hholds name (.use hx hn)
    have hstays : ∀ name, (es i).onStack = some name → ∃ j, i = j + 1 ∧ StaysOnStack m j name :=
      fun name hs ↦ h.staysOnStack hle hs
    have hready : Ready m store slots (es i).onStack (loadsOf x) :=
      readyBy_loadsOf hx (loadsFirst_of_wellTyped hwx) hstays fun name hn hs ↦ hin name (.use hx hn) hs
    obtain ⟨ls, hls, happ⟩ := (h.emitsAt i x hx).emits
    obtain ⟨hp, hend⟩ := h.standsAt_place hx happ
    obtain ⟨hleft, hmimics⟩ := hls.mimics henv h.uniqueLabels hwx huses hready hp
    have hgives := IR.Instr.gives_exec (answers_linked henv c) hwx huses
    rw [Method.machine_of_code hx]
    cases hres : (x.exec (linked c env) store).result past with
    | mk res past' =>
      cases res with
      | error e =>
        rw [Act.result_bind_error hres]
        exact ⟨hgives.error hres, hmimics.ends (Act.result_bind_error hres)⟩
      | ok r =>
        have hr := hgives.ok hres
        have hafter {j : Nat} (hn : m.Next i j) := h.related_after hw hspares hx hholds hin hr hn
        obtain ⟨store', control⟩ := r
        rw [Act.result_bind_ok hres]
        cases control with
        | next =>
          have hi : i + 1 ≤ m.code.length := (List.getElem?_eq_some_iff.1 hx).1
          obtain ⟨n, hn⟩ := hmimics.steps (by rw [Act.result_bind_ok hres, hend]; rfl)
          obtain ⟨k, hk⟩ := (h.does_place env (Nat.zero_le _) _).steps (Act.result_pure _ past')
          refine ⟨n + k, _, hn.trans hk, hafter (.fall hx (hr.next rfl)) rfl hi, ?_⟩
          exact .inr (by simp only; omega)
        | jump label =>
          have ht := hr.jump label rfl
          obtain ⟨hdefs, first, hfirst⟩ := hls.instrs_of_target ht
          obtain ⟨j, hj, htarget⟩ := h.target hcheck hx ht
          obtain ⟨k, hk, hlabel⟩ := h.label_at htarget hj
          have hs' : (es (i + 1)).onStack = none := by
            rcases hleft with hs | ⟨name, hname, -⟩
            · exact hs
            · rw [hdefs] at hname
              cases hname
          have hsj := onStack_eq_none_of_label h (Nat.le_of_lt hj) htarget
          have hgo : m.goOn (i + 1) (store', .jump label) =
              (pure ⟨j, store'⟩ : Act Instr IR.State) := by
            simp only [Method.goOn, htarget]
          rw [hgo]
          obtain ⟨n, hn⟩ := hmimics.steps (by
            rw [Act.result_bind_ok hres]
            simp only [goOn, idxOf?_label h.uniqueLabels hlabel]
            rfl)
          have hk' : k ≤ if j < m.code.length then (m.labels.namesAt j).length else 0 := by
            rwa [if_pos hj]
          obtain ⟨n', hn'⟩ := (h.does_place env hk' _).steps (Act.result_pure _ past')
          have hpos : 0 < n := steps_pos_of_label hn (hp 0 _ hfirst) hlabel
          refine ⟨n + n', _, hn.trans hn', ?_, .inl (by omega)⟩
          exact hafter (.jump hx ht htarget) (hsj.trans hs'.symm) (Nat.le_of_lt hj)

end

/-! ## Allocated methods -/

section
variable (t : VarTable) (f : Variable → Int)

/-- Registers are not looked at. -/
theorem wellTyped_operand_mapReg (x : Operand) : x.wellTyped (t.mapReg f) = x.wellTyped t := by
  induction x with
  | missing | literal _ _ => rfl
  | var name ty =>
    simp only [Operand.wellTyped, VarTable.get?_mapReg]
    cases t.get? name <;> rfl
  | elem base index ty ih => simp only [Operand.wellTyped, ih]

theorem wellTyped_call_mapReg (x : Call) : x.wellTyped (t.mapReg f) = x.wellTyped t := by
  have h : Operand.wellTyped (t.mapReg f) = Operand.wellTyped t :=
    funext (wellTyped_operand_mapReg t f)
  simp only [Call.wellTyped, h]

theorem hasValue_mapReg (x : IR.Instr) : x.hasValue (t.mapReg f) = x.hasValue t := by
  cases x <;> simp only [Instr.hasValue, wellTyped_operand_mapReg, wellTyped_call_mapReg]

theorem wellTyped_mapReg (x : IR.Instr) : x.wellTyped (t.mapReg f) = x.wellTyped t := by
  cases x with
  | assign dest ty rhs =>
    cases dest with
    | var name ty' =>
      simp only [Instr.wellTyped, hasValue_mapReg, VarTable.get?_mapReg]
      cases t.get? name <;> rfl
    | missing | literal _ _ | elem _ _ _ =>
      simp only [Instr.wellTyped, hasValue_mapReg, wellTyped_operand_mapReg]
  | ret x ty =>
    cases x <;> simp only [Instr.wellTyped, wellTyped_operand_mapReg]
  | missing | call _ | binary _ _ _ _ | unary _ _ _ | single _ | branch _ _ | goto _ | putField _ _ _
  | getField _ _ _ =>
    simp only [Instr.wellTyped, hasValue_mapReg, wellTyped_operand_mapReg, wellTyped_call_mapReg]

end

/-- What names stand for does not depend on the methods of a class. -/
theorem descriptor_methods (c : ClassDef) (ms : List Method) (ty : Ty) :
    descriptor { c with methods := ms } ty = descriptor c ty := by
  induction ty with
  | array elem ih => rw [descriptor, descriptor, ih]
  | absent | int | bool | void | string | object _ _ | receiver _ => rfl

theorem link_methods (c : ClassDef) (ms : List Method) : link { c with methods := ms } = link c := by
  have h : typeText { c with methods := ms } = typeText c := by
    rw [typeText_eq, typeText_eq]
    exact funext (descriptor_methods c ms)
  funext a
  simp only [link, h]
  rfl

theorem linked_congr {c c' : ClassDef} (h : link c' = link c) : linked c' = linked c := by
  funext env a vs
  rw [linked, linked, h]

/-- A method that the back end can be trusted with: it passes its check, its variables have names and
are in the table as lowering puts them there, its operands fit their use, nothing but the arguments is
wanted at the start, and its labels are not private ones. -/
structure Compilable (m : Method) : Prop where
  check : m.check = .ok ()
  names : ∀ x ∈ m.code, ∀ name ∈ x.names, name ≠ ""
  table : m.StandardTable
  typed : ∀ x ∈ m.code, x.wellTyped m.vars = true
  entry : ∀ v, Allocation.IsFree m v → ¬ m.Live v 0
  labels : ∀ entry ∈ m.labels.entries, ¬ IsPrivate entry.1

/-- The two runs of a method start from the same arguments, which are of the types of the receiver and
the parameters. -/
structure Starts (m : Method) (store : Text → Word) (slots : Nat → Word) : Prop where
  receiver : m.isStatic = false → slots 0 = store Method.receiver
  param : ∀ (i : Nat) (p : Param), m.params[i]? = some p → slots (m.firstParam + i) = store p.name
  typed : ∀ v, m.vars.contains v = true → ¬ Allocation.IsFree m v → HoldsAt m.vars store v

section
variable {c : ClassDef} {m m' : Method} {s : Strategy}

/-- The arguments are in their slots. -/
theorem Starts.inSlot {store : Text → Word} {slots : Nat → Word} (h : Starts m store slots)
    (ht : m.StandardTable) (hsafe : Allocation.SafeSlots m m') {v : Text}
    (hv : m.vars.contains v = true) (hf : ¬ Allocation.IsFree m v) (hholds : HoldsAt m'.vars store v) :
    InSlot m' store slots v := by
  intro kind slot hslot
  refine ⟨?_, hslot.kind_eq hholds⟩
  rcases Allocation.cases_of_contains ht hv with ⟨rfl, hs⟩ | ⟨i, p, hp, rfl⟩ | hfree
  · obtain rfl := Option.some.inj (hslot.slot?.symm.trans (hsafe.receiver hs))
    exact h.receiver hs
  · obtain rfl := Option.some.inj (hslot.slot?.symm.trans (hsafe.param i p hp))
    exact h.param i p hp
  · exact absurd hfree hf

/-- An allocation keeps the variables of a method apart. -/
theorem exists_spares (hs : Allocation.Known s) (hc : m.check = .ok ()) (ht : m.StandardTable)
    (ha : Allocation.method s m = .ok m') :
    ∃ reg, m' = { m with vars := m.vars.mapReg reg } ∧ Allocation.SafeSlots m m' ∧ Spares m' := by
  obtain ⟨numbers, hnum, hsep⟩ := Allocation.exists_withNumbers hs hc ht
  obtain rfl := Except.ok.inj (hnum.symm.trans ha)
  have hsafe := Allocation.safeSlots_withNumbers ht hc hsep
  obtain ⟨reg, hreg⟩ := hsafe.same
  refine ⟨reg, hreg, hsafe, ?_⟩
  rintro w v ⟨i, k, hd, hn, hl⟩ hslots
  refine Allocation.eq_of_slot?_eq ht hc hsep ⟨i, k, hd, ?_, ?_⟩ hslots
  · exact hn.congr (by rfl) (by rfl)
  · exact hl.congr (by rfl) (by rfl)

/-- **The lines of an allocated method do what its intermediate code does.** -/
theorem Compilable.simulates (hm : Compilable m) (hs : Allocation.Known s)
    (ha : Allocation.method s m = .ok m') {e : Emitter} (he : emitMethod c m' = .ok e)
    {env : Env Instr} (henv : TypedEnv env) {store : Text → Word} {slots : Nat → Word}
    (hstart : Starts m store slots) :
    Machine.Simulates (m.machine (linked c env)) (machine e.lines env) ⟨0, store⟩
      ⟨0, ⟨[], slots⟩⟩ := by
  obtain ⟨reg, rfl, hsafe, hspares⟩ := exists_spares hs hm.check hm.table ha
  obtain ⟨es, hlayout⟩ := exists_layout (by exact hm.names) (by exact hm.labels) he
  have hfollows := hlayout.follows (Allocation.check_mapReg hm.check reg)
    (fun x hx ↦ (wellTyped_mapReg _ _ x).trans (hm.typed x hx)) hspares henv
  have hplace := hlayout.does_place env (i := 0) (k := 0) (Nat.zero_le _) ⟨[], slots⟩
  rw [hlayout.first] at hplace
  refine (Machine.simulates_of_step hfollows ?_).after hplace
  -- what is live at the start is an argument
  have harg : ∀ v, m.Live v 0 → m.vars.contains v = true ∧ ¬ Allocation.IsFree m v :=
    fun v hv ↦ ⟨hv.names.contains hm.check, fun hf ↦ hm.entry v hf hv⟩
  have hheld : ∀ v, m.Live v 0 → HoldsAt (m.vars.mapReg reg) store v := by
    intro v hv
    obtain ⟨x, hx, hholds⟩ := hstart.typed v (harg v hv).1 (harg v hv).2
    exact ⟨{ x with reg := reg x }, by rw [VarTable.get?_mapReg, hx]; rfl, hholds⟩
  refine ⟨Nat.zero_le _, rfl, by rw [hlayout.first]; rfl, fun v hv ↦ hheld v (hv.congr (by rfl) (by rfl)), ?_⟩
  intro v hv _
  have hv' : m.Live v 0 := hv.congr (by rfl) (by rfl)
  exact hstart.inSlot hm.table hsafe (harg v hv').1 (harg v hv').2 (hheld v hv')

/-- An allocation of a class is one of each method. -/
theorem cls_spec {c' : ClassDef} (h : Allocation.cls s c = .ok c') :
    List.Forall₂ (fun m m' ↦ Allocation.method s m = .ok m') c.methods c'.methods ∧
      c' = { c with methods := c'.methods } := by
  obtain ⟨ms, hms, hc⟩ := Except.bind_eq_ok.1 h
  cases hc
  refine ⟨(Except.mapM_eq_ok.1 hms).imp fun m m' hm ↦ ?_, rfl⟩
  cases hr : Allocation.method s m with
  | error err =>
    rw [hr] at hm
    cases hm
  | ok m₁ =>
    rw [hr] at hm
    cases hm
    rfl

/-- **The back end preserves the meaning of the intermediate code**: running the lines of a method on
the stack machine simulates running its code over named variables, from the same arguments. -/
theorem back_end_preserves_meaning (hs : Allocation.Known s) (hc : ∀ m ∈ c.methods, Compilable m)
    {c' : ClassDef} (ha : Allocation.cls s c = .ok c') {text : Text} (ht : assemble c' = .ok text) :
    ∃ es : List Emitter, Assembled c' es text ∧
      List.Forall₂ (fun m e ↦ ∀ env, TypedEnv env → ∀ store slots, Starts m store slots →
        Machine.Simulates (m.machine (linked c env)) (machine e.lines env) ⟨0, store⟩
          ⟨0, ⟨[], slots⟩⟩) c.methods es := by
  obtain ⟨hms, hc'⟩ := cls_spec ha
  obtain ⟨es, hes⟩ := assemble_spec ht
  refine ⟨es, hes, ((List.forall₂_and_left _ _).2 ⟨hc, forall₂_comp hms hes.emitted⟩).imp ?_⟩
  rintro m e ⟨hm, m', hmm, he⟩ env henv store slots hstart
  have hlink : link c' = link c := by rw [hc', link_methods]
  rw [← linked_congr hlink]
  exact hm.simulates hs hmm he henv hstart

/-- A class whose only method is a loop. -/
def sums : ClassDef where
  name := "Sums"
  methods := [Allocation.sumDown]

theorem sumDown_not_live (v : Text) (hv : Allocation.IsFree Allocation.sumDown v) :
    ¬ Allocation.sumDown.Live v 0 := by
  have hv' : v = "sum" ∨ v = "t_0" := by
    have hfree : (Allocation.free Allocation.sumDown).map Variable.name = ["sum", "t_0"] := by decide
    have hmem := Allocation.mem_free_iff.2 hv
    rw [hfree] at hmem
    simpa using hmem
  -- the first instruction writes `sum`, and the second one `t_0`
  intro hlive
  cases hlive with
  | use hx hu =>
    cases hx
    cases hu
  | later hd hn hl =>
    rcases hv' with rfl | rfl
    · exact hd rfl
    · cases hn with
      | jump hx ht _ =>
        cases hx
        cases ht
      | fall hx hf =>
        cases hl with
        | use hx hu =>
          cases hx
          exact absurd hu (by decide)
        | later hd _ _ => exact hd rfl

theorem sumDown_compilable : Compilable Allocation.sumDown where
  check := by decide
  names := by decide
  table := Allocation.sumDown_standardTable
  typed := by decide
  entry := sumDown_not_live
  labels := List.forall_mem_singleton.2 fun hp ↦ absurd (head?_of_isPrivate hp) (by decide)

/-- Arguments for the loop. -/
def sumDownArgs (v : Text) : Word := if v = Method.receiver then .ref 1 else .int 3

theorem sumDown_starts :
    Starts Allocation.sumDown sumDownArgs fun slot ↦ if slot = 0 then .ref 1 else .int 3 where
  receiver := fun _ ↦ rfl
  param := by
    intro i p hp
    cases i with
    | zero =>
      cases hp
      decide
    | succ i => cases hp
  typed := by
    intro v hv hf
    rcases Allocation.cases_of_contains Allocation.sumDown_standardTable hv with
      ⟨rfl, -⟩ | ⟨i, p, hp, rfl⟩ | hfree
    · exact ⟨_, rfl, rfl⟩
    · cases i with
      | zero =>
        cases hp
        exact ⟨_, rfl, (by decide : (sumDownArgs "n").kind = .int)⟩
      | succ i => cases hp
    · exact absurd hfree hf

theorem sums_preserves_meaning :
    Allocation.Known .ranges ∧ (∀ m ∈ sums.methods, Compilable m) ∧
      ∃ c' text, Allocation.cls .ranges sums = .ok c' ∧ assemble c' = .ok text ∧
        ∃ e, Assembled c' [e] text ∧
          Machine.Simulates (Allocation.sumDown.machine (linked sums fun _ _ ↦ none))
            (machine e.lines fun _ _ ↦ none) ⟨0, sumDownArgs⟩
            ⟨0, ⟨[], fun slot ↦ if slot = 0 then .ref 1 else .int 3⟩⟩ := by
  have hs : Allocation.Known .ranges := .inl rfl
  have hc : ∀ m ∈ sums.methods, Compilable m := List.forall_mem_singleton.2 sumDown_compilable
  refine ⟨hs, hc, ?_⟩
  have hok : (Allocation.cls .ranges sums >>= assemble).isOk = true := by
    -- the order of colouring is put into a form that can be evaluated
    simp only [Allocation.cls, Allocation.method, Allocation.run, Allocation.allocate,
      Allocation.placeFree, Allocation.numbering, Graph.colors, Graph.colorList,
      Graph.order_eq_insertionSort]
    decide +kernel
  obtain ⟨c', text, ha, ht⟩ := Except.exists_of_isOk hok
  obtain ⟨es, hes, hall⟩ := back_end_preserves_meaning hs hc ha ht
  cases hall with
  | cons hm hrest =>
    cases hrest
    exact ⟨c', text, ha, ht, _, hes, hm _ (by rintro _ _ _ _ ⟨⟩) _ _ sumDown_starts⟩

end

end MiniJava.Jvm
