import MiniJava.Proofs.BackEnd
import MiniJava.Proofs.ParallelEmission

/-!
# The choice of a strategy

Which strategy gives the slots changes the slots and nothing else (`strategy_changes_only_slots`): the
assembly of a class by one strategy and by another fail with the same error, or they are the same text
with names in it, in which each name is replaced by the slot that the strategy gives.

What can go wrong in an allocation goes wrong before the strategy is asked, and each strategy gives a
slot to every variable that the code reads or writes.  So a variable that the emitter touches has a slot
by one strategy exactly if it has one by the other, and the two runs of the emitter go side by side.
-/

set_option autoImplicit false

namespace MiniJava

open IR

/-! ## Names and operands -/

namespace IR

/-- An operand whose index, if it has one, is a literal or a variable. -/
def Operand.isPlain : Operand → Bool
  | elem _ index _ => index.isSimple
  | missing | literal _ _ | var _ _ => true

/-- All elements that the code of a method names have plain indices. -/
def Method.PlainIndices (m : Method) : Prop := ∀ x ∈ m.code, ∀ y ∈ x.operands, y.isPlain = true

theorem Operand.names_eq_uses {x : Operand} (h : x.isPlain = true) : x.names = x.uses := by
  cases x with
  | missing | literal _ _ | var _ _ => rfl
  | elem base index ty =>
    rw [uses_elem h]
    cases index with
    | literal _ _ | var _ _ => rfl
    | missing | elem _ _ _ => cases h

theorem Instr.mem_uses_of_valueOperands {x : Instr} {y : Operand} (hy : y ∈ x.valueOperands)
    {v : Text} (hv : v ∈ y.uses) : v ∈ x.uses := by
  cases x with
  | call c =>
    rw [uses, List.mem_append, List.mem_flatMap]
    rcases List.mem_cons.1 hy with rfl | hy
    · exact .inl hv
    · exact .inr ⟨y, hy, hv⟩
  | binary op l r ty =>
    rw [uses, List.mem_append]
    rcases List.mem_pair.1 hy with rfl | rfl
    · exact .inl hv
    · exact .inr hv
  | unary op z ty | single z | getField z field ty =>
    obtain rfl := List.mem_singleton.1 hy
    exact hv
  | missing | assign _ _ _ | ret _ _ | branch _ _ | goto _ | putField _ _ _ => cases hy

/-- The variables of a plain operand are read or written by its instruction. -/
theorem Instr.uses_or_defs_of_operands {x : Instr} {y : Operand} (hy : y ∈ x.operands)
    (hp : y.isPlain = true) {v : Text} (hv : v ∈ y.names) : v ∈ x.uses ∨ x.defs? = some v := by
  rw [Operand.names_eq_uses hp] at hv
  cases x with
  | assign dest ty value =>
    rcases List.mem_cons.1 hy with rfl | hy
    · cases y with
      | var name ty' =>
        obtain rfl := List.mem_singleton.1 hv
        exact .inr rfl
      | elem base index ty' => exact .inl (List.mem_append_left _ hv)
      | missing | literal _ _ => cases hv
    · refine .inl ?_
      have hmem := mem_uses_of_valueOperands hy hv
      cases dest with
      | elem base index ty' => exact List.mem_append_right _ hmem
      | missing | literal _ _ | var _ _ => exact hmem
  | ret z ty =>
    obtain rfl := List.mem_singleton.1 hy
    exact .inl hv
  | putField object field value =>
    rw [uses, List.mem_append]
    rcases List.mem_pair.1 hy with rfl | rfl
    · exact .inl (.inl hv)
    · exact .inl (.inr hv)
  | branch cond label => exact .inl (mem_uses_of_valueOperands hy hv)
  | call _ | binary _ _ _ _ | unary _ _ _ | single _ | getField _ _ _ =>
    exact .inl (mem_uses_of_valueOperands hy hv)
  | missing | goto _ => cases hy

end IR

/-! ## Allocations -/

namespace Allocation

/-- A step that changes registers only, whether it succeeds or not. -/
def KeepsAll (x : Step Unit) : Prop := ∀ m, ∃ r reg, x.run m = (r, m.withRegs reg)

variable {m m' : Method} {s : Strategy}

theorem run_bind_error {α β : Type} {x : Step α} {f : α → Step β} {e : Error}
    (h : x.run m = (.error e, m')) : (x >>= f).run m = (.error e, m') := by
  have hb : (x >>= f).run m = (ExceptT.bindCont f (x.run m).1 : StateM Method _) (x.run m).2 := rfl
  rw [hb, h]
  rfl

theorem withRegs_reg (m : Method) : m.withRegs Variable.reg = m := by
  simp [Method.withRegs, VarTable.mapReg]

theorem withRegs_withRegs (m : Method) (f g : Variable → Int) :
    (m.withRegs f).withRegs g = m.withRegs fun v ↦ g { v with reg := f v } := by
  rw [Method.withRegs, Method.withRegs, mapReg_mapReg]

theorem keepsAll_pure : KeepsAll (pure ()) := fun m ↦ ⟨.ok (), Variable.reg, by rw [withRegs_reg]; rfl⟩

theorem KeepsAll.bind {x : Step Unit} {f : Unit → Step Unit} (h : KeepsAll x)
    (hf : ∀ u, KeepsAll (f u)) : KeepsAll (x >>= f) := by
  intro m
  obtain ⟨r, reg, hx⟩ := h m
  cases r with
  | error e => exact ⟨.error e, reg, run_bind_error hx⟩
  | ok u =>
    obtain ⟨r', reg', hf⟩ := hf u (m.withRegs reg)
    rw [withRegs_withRegs] at hf
    exact ⟨r', _, (run_bind hx).trans hf⟩

theorem keepsAll_place (name : Text) (slot : Nat) (missing : Defect) :
    KeepsAll (place name slot missing) := by
  intro m
  cases h : m.vars.contains name with
  | true => exact ⟨.ok (), _, run_place h⟩
  | false =>
    refine ⟨.error (.defect missing), Variable.reg, ?_⟩
    have hp : (place name slot missing).run m = (if m.vars.contains name then
        set { m with vars := m.vars.setReg name slot }
        else throw (.defect missing) : Step Unit).run m := rfl
    rw [hp, h, withRegs_reg]
    rfl

theorem keepsAll_placeParams (name : Text) (ps : List Param) (slot : Nat) :
    KeepsAll (placeParams name ps slot) := by
  induction ps generalizing slot with
  | nil => exact keepsAll_pure
  | cons p ps ih => exact (keepsAll_place _ _ _).bind fun _ ↦ ih _

/-- The slots of the receiver and of the parameters are given before the strategy is asked. -/
theorem run_front (m : Method) :
    ∃ r reg, (do
      placeReceiver
      placeParams m.name m.params m.firstParam : Step Unit).run m = (r, m.withRegs reg) := by
  have hreceiver : KeepsAll (if m.isStatic then pure ()
      else place Method.receiver 0 (.noReceiverVariable m.name)) := by
    split
    · exact keepsAll_pure
    · exact keepsAll_place _ _ _
  exact (hreceiver.bind fun _ ↦ keepsAll_placeParams _ _ _) m

theorem run_eq_bind (s : Strategy) (m : Method) : run s m = ((do
    placeReceiver
    placeParams m.name m.params m.firstParam : Step Unit) >>= fun _ ↦ placeFree s).run m := by
  rw [bind_assoc]
  rfl

theorem run_placeFree_error {m : Method} {e : Error} (h : numbering m s = .error e) :
    (placeFree s).run m = (.error e, m) := by
  have hlift : (placeFree s).run m = ((liftM (numbering m s) : Step _) >>= fun numbers ↦
      set (m.withRegs (freeReg m numbers))).run m := rfl
  rw [hlift, h]
  rfl

/-- The registers by the numbers of a strategy, over those given before. -/
def regBy (m : Method) (front : Variable → Int) (numbers : List (Text × Nat)) (v : Variable) : Int :=
  freeReg m numbers { v with reg := front v }

/-- What an allocation makes of a method: the slots in front, and then the numbers of the strategy. -/
theorem exists_regBy (h : method s m = .ok m') :
    ∃ front numbers, numbering (m.withRegs front) s = .ok numbers ∧
      m' = m.withRegs (regBy m front numbers) := by
  obtain ⟨r, front, hfront⟩ := run_front m
  rw [method, run_eq_bind] at h
  cases r with
  | error err =>
    rw [run_bind_error hfront] at h
    cases h
  | ok u =>
    rw [run_bind hfront] at h
    cases hn : numbering (m.withRegs front) s with
    | error err =>
      rw [run_placeFree_error hn] at h
      cases h
    | ok numbers =>
      rw [run_placeFree hn] at h
      cases h
      exact ⟨front, numbers, hn, withRegs_withRegs m front _⟩

/-- An allocation changes nothing but registers. -/
theorem exists_withRegs (h : method s m = .ok m') : ∃ reg, m' = m.withRegs reg := by
  obtain ⟨front, numbers, -, rfl⟩ := exists_regBy h
  exact ⟨_, rfl⟩

theorem numbering_unknown (m : Method) (name : String) :
    ∃ e, numbering m (.unknown name) = .error e := by
  cases h : withinPlace "liveness" (Liveness.analyze m) with
  | error e => exact ⟨e, by simp only [numbering, graph, h]; rfl⟩
  | ok l => exact ⟨_, by simp only [numbering, graph, h]; rfl⟩

/-- An allocation succeeds by known strategies only. -/
theorem known_of_method (h : method s m = .ok m') : Known s := by
  cases s with
  | ranges => exact .inl rfl
  | liveSets => exact .inr (.inl rfl)
  | sequential => exact .inr (.inr rfl)
  | unknown name =>
    obtain ⟨front, numbers, hn, -⟩ := exists_regBy h
    obtain ⟨e, he⟩ := numbering_unknown (m.withRegs front) name
    rw [he] at hn
    cases hn

/-- An allocation of a checked method fails whatever the strategy is, or it succeeds by every
strategy. -/
theorem method_cases {m : Method} (hc : m.check = .ok ()) :
    (∃ err, ∀ s, method s m = .error err) ∨
      ∃ front, ∀ s, Known s → ∃ numbers, method s m = .ok (m.withRegs (regBy m front numbers)) ∧
        ∀ v, IsFree m v → m.Names v → ∃ n, numbers.lookup v = some n := by
  obtain ⟨r, front, hfront⟩ := run_front m
  cases r with
  | error err =>
    refine .inl ⟨err, fun s ↦ ?_⟩
    rw [method, run_eq_bind, run_bind_error hfront]
  | ok u =>
    refine .inr ⟨front, fun s hs ↦ ?_⟩
    obtain ⟨numbers, hnum, hsep⟩ := numbering_spec hs (check_mapReg hc front)
    refine ⟨numbers, ?_, fun v hv hn ↦ hsep.given (hv.mapReg front) hn⟩
    rw [method, run_eq_bind, run_bind hfront, run_placeFree hnum]
    exact congrArg Except.ok (withRegs_withRegs m front _)

/-- A variable that the code names has a slot by both strategies, or it has the register that was given
before. -/
theorem matches_regBy {m : Method} {front : Variable → Int} {numbers₁ numbers₂ : List (Text × Nat)}
    {v : Text} (h₁ : IsFree m v → ∃ n, numbers₁.lookup v = some n)
    (h₂ : IsFree m v → ∃ n, numbers₂.lookup v = some n) :
    Jvm.Matches m (regBy m front numbers₁) (regBy m front numbers₂) v := by
  intro x hx
  obtain ⟨-, rfl⟩ := VarTable.get?_eq_some_iff.1 hx
  cases hf : isFree x with
  | true =>
    have hnot {numbers : List (Text × Nat)} (h : ∃ n, numbers.lookup x.name = some n) :
        ¬ regBy m front numbers x < 0 := by
      obtain ⟨n, hn⟩ := h
      have hreg : regBy m front numbers x = (n + m.reserved : Int) := by
        have hfree : isFree { x with reg := front x } = true := hf
        simp only [regBy, freeReg, hn, hfree, if_true]
      rw [hreg]
      omega
    exact iff_of_false (hnot (h₁ ⟨x, hx, hf⟩)) (hnot (h₂ ⟨x, hx, hf⟩))
  | false =>
    have hreg (numbers : List (Text × Nat)) : regBy m front numbers x = front x := by
      have hfree : isFree { x with reg := front x } = false := hf
      simp only [regBy, freeReg, hfree]
      split
      · rfl
      · rfl
    rw [hreg, hreg]

/-- Two methods that differ in slots only, and whose lines do. -/
structure Twins (m₁ m₂ : Method) : Prop where
  ofRegs : ∃ m reg₁ reg₂, m₁ = m.withRegs reg₁ ∧ m₂ = m.withRegs reg₂ ∧
    ∀ x ∈ m.code, Jvm.AllMatch m reg₁ reg₂ x.operands

theorem twins_of_strategies {m : Method} (hc : m.check = .ok ()) (hp : m.PlainIndices)
    {s₁ s₂ : Strategy} (h₁ : Known s₁) (h₂ : Known s₂) :
    SameOutcome Twins (method s₁ m) (method s₂ m) := by
  rcases method_cases hc with ⟨err, herr⟩ | ⟨front, hall⟩
  · rw [herr, herr]
    exact .error err
  · obtain ⟨numbers₁, hm₁, hn₁⟩ := hall s₁ h₁
    obtain ⟨numbers₂, hm₂, hn₂⟩ := hall s₂ h₂
    rw [hm₁, hm₂]
    refine .ok ⟨m, _, _, rfl, rfl, fun x hx y hy v hv ↦ ?_⟩
    have hnames : m.Names v := by
      obtain ⟨i, hi⟩ := List.mem_iff_getElem?.1 hx
      exact ⟨i, x, hi, Instr.uses_or_defs_of_operands hy (hp x hx y hy) hv⟩
    exact matches_regBy (fun hf ↦ hn₁ v hf hnames) fun hf ↦ hn₂ v hf hnames

theorem cls_twins {c : ClassDef} {s₁ s₂ : Strategy} (h₁ : Known s₁) (h₂ : Known s₂)
    (hc : ∀ m ∈ c.methods, m.check = .ok () ∧ m.PlainIndices) :
    SameOutcome (fun c₁ c₂ ↦ ∃ ms₁ ms₂, c₁ = { c with methods := ms₁ } ∧
        c₂ = { c with methods := ms₂ } ∧ List.Forall₂ Twins ms₁ ms₂) (cls s₁ c) (cls s₂ c) := by
  rw [cls, cls]
  have hms := SameOutcome.mapM fun m hm ↦
    (twins_of_strategies (hc m hm).1 (hc m hm).2 h₁ h₂).withinPlace s!"method {m.name}"
  exact hms.bind fun ms₁ ms₂ h ↦ .ok ⟨ms₁, ms₂, rfl, rfl, h⟩

end Allocation

/-! ## Assembly -/

namespace Jvm

/-- A method in assembly with the names of variables in place of their slots. -/
structure NamedMethod where
  /-- The line in front of the limits. -/
  head : Text
  maxDepth : Nat
  lines : List NamedLine

/-- The assembly of methods, each with the slots of its variables in place of their names and with some
number of slots. -/
inductive NamedTexts : List Method → List NamedMethod → List Text → Prop
  | nil : NamedTexts [] [] []
  | cons {m : Method} {ms : List Method} {b : NamedMethod} {bs : List NamedMethod} {lines : List Line}
      {ts : List Text} (slots : Nat) (h : List.Forall₂ (Stands m) b.lines lines)
      (hs : NamedTexts ms bs ts) :
      NamedTexts (m :: ms) (b :: bs) (("\n" ++ (b.head ++ "\t.limit stack " ++ toString b.maxDepth ++
        "\n" ++ "\t.limit locals " ++ toString slots ++ "\n" ++ Text.join (lines.map Line.text) ++
        ".end method\n")) :: ts)

theorem sameNames_methods (c : ClassDef) (ms₁ ms₂ : List Method) :
    SameNames { c with methods := ms₁ } { c with methods := ms₂ } where
  name := rfl
  resolve := rfl
  superName := rfl
  descriptor := by
    funext ty
    exact (descriptor_methods c ms₁ ty).trans (descriptor_methods c ms₂ ty).symm

theorem texts_parallel {c₁ c₂ : ClassDef} (hc : SameNames c₁ c₂) {ms₁ ms₂ : List Method}
    (h : List.Forall₂ Allocation.Twins ms₁ ms₂) :
    SameOutcome (fun ts₁ ts₂ ↦ ∃ bs, NamedTexts ms₁ bs ts₁ ∧ NamedTexts ms₂ bs ts₂)
      (ms₁.mapM fun m ↦ do
        let e ← withinPlace s!"method {m.name}" (emitMethod c₁ m)
        return "\n" ++ methodText c₁ m e)
      (ms₂.mapM fun m ↦ do
        let e ← withinPlace s!"method {m.name}" (emitMethod c₂ m)
        return "\n" ++ methodText c₂ m e) := by
  induction h with
  | nil => exact .ok ⟨[], .nil, .nil⟩
  | cons htwins _ ih =>
    obtain ⟨m, reg₁, reg₂, rfl, rfl, hall⟩ := htwins
    rw [List.mapM_cons, List.mapM_cons, bind_assoc, bind_assoc]
    refine ((emitMethod_parallel hc hall).withinPlace _).bind ?_
    rintro e _ ⟨hl₁, hl₂⟩
    refine ih.bind ?_
    rintro ts₁ ts₂ ⟨bs, hbs₁, hbs₂⟩
    have htext (e : Emitter) :
        methodText c₂ (m.withRegs reg₂) e = methodText c₁ (m.withRegs reg₂) e := by
      rw [methodText, methodText, methodDescriptor, methodDescriptor, hc.descriptor]
    rw [htext]
    exact .ok ⟨⟨headLine c₁ m ++ "\n", e.maxDepth, _⟩ :: bs, .cons _ hl₁ hbs₁, .cons _ hl₂ hbs₂⟩

theorem headerText_methods (c : ClassDef) (ms : List Method) :
    headerText { c with methods := ms } = headerText c := by
  have hfield : fieldText { c with methods := ms } = fieldText c := by
    funext f
    rw [fieldText, fieldText, descriptor_methods]
  rw [headerText, headerText, hfield]
  rfl

theorem assemble_parallel {c : ClassDef} {ms₁ ms₂ : List Method}
    (h : List.Forall₂ Allocation.Twins ms₁ ms₂) :
    SameOutcome (fun t₁ t₂ ↦ ∃ bodies texts₁ texts₂, t₁ = headerText c ++ Text.join texts₁ ∧
        t₂ = headerText c ++ Text.join texts₂ ∧ NamedTexts ms₁ bodies texts₁ ∧
        NamedTexts ms₂ bodies texts₂)
      (assemble { c with methods := ms₁ }) (assemble { c with methods := ms₂ }) := by
  rw [assemble, assemble, headerText_methods c ms₁, headerText_methods c ms₂]
  refine (texts_parallel (sameNames_methods c ms₁ ms₂) h).bind ?_
  rintro texts₁ texts₂ ⟨bodies, hb₁, hb₂⟩
  exact .ok ⟨bodies, texts₁, texts₂, rfl, rfl, hb₁, hb₂⟩

/-- **The strategy changes nothing but slots.**  The assembly of a class by two strategies fails with
the same error, or it is the same up to the slots of variables and the number of slots: the same header,
and for each method the same lines with names of variables, which stand for the slots that each strategy
gives. -/
theorem strategy_changes_only_slots {c : ClassDef} {s₁ s₂ : Strategy} (h₁ : Allocation.Known s₁)
    (h₂ : Allocation.Known s₂) (hc : ∀ m ∈ c.methods, m.check = .ok () ∧ m.PlainIndices) :
    (∃ err, (Allocation.cls s₁ c >>= assemble) = .error err ∧
      (Allocation.cls s₂ c >>= assemble) = .error err) ∨
    ∃ c₁ c₂ bodies texts₁ texts₂, Allocation.cls s₁ c = .ok c₁ ∧ Allocation.cls s₂ c = .ok c₂ ∧
      assemble c₁ = .ok (headerText c ++ Text.join texts₁) ∧
      assemble c₂ = .ok (headerText c ++ Text.join texts₂) ∧
      NamedTexts c₁.methods bodies texts₁ ∧ NamedTexts c₂.methods bodies texts₂ := by
  obtain ⟨err, h₁, h₂⟩ | ⟨_, _, h₁, h₂, ms₁, ms₂, rfl, rfl, htwins⟩ :=
    (Allocation.cls_twins h₁ h₂ hc).error_or_ok
  · exact .inl ⟨err, by rw [h₁]; rfl, by rw [h₂]; rfl⟩
  rw [h₁, h₂]
  obtain ⟨err, ha₁, ha₂⟩ | ⟨_, _, ha₁, ha₂, bodies, texts₁, texts₂, rfl, rfl, hb₁, hb₂⟩ :=
    (assemble_parallel (c := c) htwins).error_or_ok
  · exact .inl ⟨err, ha₁, ha₂⟩
  · exact .inr ⟨_, _, bodies, texts₁, texts₂, rfl, rfl, ha₁, ha₂, hb₁, hb₂⟩

theorem sums_changes_only_slots :
    Allocation.Known .ranges ∧ Allocation.Known .sequential ∧
      (∀ m ∈ sums.methods, m.check = .ok () ∧ m.PlainIndices) ∧
      ∃ c₁ c₂ bodies texts₁ texts₂, Allocation.cls .ranges sums = .ok c₁ ∧
        Allocation.cls .sequential sums = .ok c₂ ∧
        assemble c₁ = .ok (headerText sums ++ Text.join texts₁) ∧
        assemble c₂ = .ok (headerText sums ++ Text.join texts₂) ∧
        NamedTexts c₁.methods bodies texts₁ ∧ NamedTexts c₂.methods bodies texts₂ := by
  have hc : ∀ m ∈ sums.methods, m.check = .ok () ∧ m.PlainIndices :=
    List.forall_mem_singleton.2 ⟨by decide, by unfold Method.PlainIndices; decide⟩
  have h₁ : Allocation.Known .ranges := .inl rfl
  have h₂ : Allocation.Known .sequential := .inr (.inr rfl)
  refine ⟨h₁, h₂, hc, ?_⟩
  obtain ⟨err, -, herr⟩ | h := strategy_changes_only_slots h₁ h₂ hc
  · have hok : (Allocation.cls .sequential sums >>= assemble).isOk = true := by decide +kernel
    rw [herr] at hok
    cases hok
  · exact h

end Jvm

end MiniJava
