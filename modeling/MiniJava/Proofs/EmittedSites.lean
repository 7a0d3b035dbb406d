import MiniJava.Proofs.EmittedLabels

/-!
# What the sites of a method become

The lines of a method tell its sites again.  An equality without a literal zero becomes a jump that takes
both operands from the stack, and only such an equality does (`Emitted.equalityJumps_eq`).  An object
becomes one `new`, and the constructor that is invoked next belongs to the class of the variable that the
object is made in (`Emitted.constructions_eq`): the variable is either left on the stack or stored to its
slot and loaded again, and no other line stands in between.

Nothing is asked of the names of variables here: one without a name counts as left on the stack, and that
is enough.
-/

set_option autoImplicit false

namespace MiniJava

open IR

/-- The class of the object that a site makes, and the class of the variable that it makes it in. -/
def Site.construction? (c : ClassDef) : Site → Option (Text × Option Text)
  | .creation cls place => some (c.resolve cls, place.className?.map c.resolve)
  | .equality _ _ _ _ => none

namespace Jvm

/-! ## Lines that sites become -/

/-- The equality that a jump tests on two operands. -/
def Line.equality? : Line → Option Cond
  | .instr (.ifCompare .eq _) => some .eq
  | .instr (.ifCompare .ne _) => some .ne
  | _ => none

/-- The equalities that lines test on two operands. -/
def equalityJumps (ls : List Line) : List Cond := ls.filterMap Line.equality?

/-- The class whose constructor without parameters a line invokes. -/
def Line.constructor? : Line → Option Text
  | .instr (.invoke .special cls method [] result) =>
    if method = "<init>" ∧ result = "V" then some cls else none
  | _ => none

/-- The class whose constructor is invoked on the object on the stack, which may be stored to a slot and
loaded from there before. -/
def initialiser? : List Line → Option Text
  | .instr (.store kind slot) :: .instr (.load kind' slot') :: l :: _ =>
    if kind = kind' ∧ slot = slot' then l.constructor? else none
  | l :: _ => l.constructor?
  | [] => none

/-- The classes of the objects that lines make, each with the class whose constructor is invoked on the
object. -/
def constructions : List Line → List (Text × Option Text)
  | [] => []
  | .instr (.new cls) :: ls => (cls, initialiser? ls) :: constructions ls
  | _ :: ls => constructions ls

@[simp] theorem equalityJumps_append (ls ls' : List Line) :
    equalityJumps (ls ++ ls') = equalityJumps ls ++ equalityJumps ls' := List.filterMap_append

@[simp] theorem equalityJumps_labels (names : List Text) : equalityJumps (names.map .label) = [] := by
  simp [equalityJumps, Line.equality?]

/-- Lines that make no object are passed over. -/
theorem constructions_append {ls : List Line} (h : ∀ cls, Line.instr (.new cls) ∉ ls) (ls' : List Line) :
    constructions (ls ++ ls') = constructions ls' := by
  induction ls with
  | nil => rfl
  | cons l ls ih =>
    rw [List.cons_append, constructions.eq_3]
    · exact ih fun cls hmem ↦ h cls (List.mem_cons_of_mem _ hmem)
    · rintro cls rfl
      exact h cls List.mem_cons_self

/-! ## Instructions -/

/-- Lines that test some equalities and make no object. -/
structure EqualityLines (conds : List Cond) (ls : List Line) : Prop where
  equalities : equalityJumps ls = conds
  makesNone : ∀ cls, Line.instr (.new cls) ∉ ls

/-- The equality that a mark tests. -/
def Mark.equality? : Mark → Option Cond
  | equality cond => some cond
  | new _ | invoke _ => none

/-- **The lines of an instruction that makes no object** test the equalities of its sites. -/
theorem Marked.equalityLines {own : List Text} {n n' : Nat} {ls : List Line} {c : ClassDef}
    {calls : List Call} {sites : List Site} (h : Marked own (marksOf c calls sites) n n' ls)
    (hcalls : ∀ x ∈ calls, x.kind ≠ .newObject) : EqualityLines (sites.filterMap Site.cond?) ls := by
  have hcall : ∀ mark ∈ calls.flatMap (callMarks c), ∃ i, mark = .invoke i := by
    intro mark hmark
    obtain ⟨x, hx, hmark⟩ := List.mem_flatMap.1 hmark
    rw [callMarks_of_not_new (hcalls x hx)] at hmark
    obtain ⟨i, -, rfl⟩ := List.mem_map.1 hmark
    exact ⟨i, rfl⟩
  have hmarks := h.marks
  refine ⟨?_, fun cls hmem ↦ ?_⟩
  · have hlines : equalityJumps ls = (ls.filterMap Line.mark?).filterMap Mark.equality? := by
      rw [equalityJumps, List.filterMap_filterMap]
      refine List.filterMap_congr fun l _ ↦ ?_
      cases l with
      | label _ => rfl
      | instr i =>
        cases i with
        | ifCompare cond label => cases cond <;> rfl
        | _ => rfl
    have hnone : (calls.flatMap (callMarks c)).filterMap Mark.equality? = [] := by
      refine List.filterMap_eq_nil_iff.2 fun mark hmark ↦ ?_
      obtain ⟨i, rfl⟩ := hcall mark hmark
      rfl
    rw [hlines, hmarks, marksOf, List.filterMap_append, hnone, List.nil_append, List.filterMap_map]
    exact List.filterMap_some
  · have hmark : Mark.new cls ∈ marksOf c calls sites := by
      rw [← hmarks]
      exact List.mem_filterMap.2 ⟨_, hmem, rfl⟩
    rcases List.mem_append.1 hmark with hmark | hmark
    · obtain ⟨i, hi⟩ := hcall _ hmark
      cases hi
    · obtain ⟨cond, -, hcond⟩ := List.mem_map.1 hmark
      cases hcond

section
variable {c : ClassDef} {m : Method}

variable {e e' : Emitter} {u : Unit}

variable {name : Text}

/-- A value for a variable is left on the stack, or stored to the slot of the variable. -/
theorem assignVar_run {ty ty' : Ty} {rhs : IR.Instr}
    (h : (instr c m (.assign (.var name ty) ty' rhs)).run e = .ok (u, e')) :
    ∃ v e₁, (value c m rhs).run e = .ok (v, e₁) ∧
      (e₁.keep.getD "" = name ∧ e' = { e₁ with keep := none, onStack := named name } ∨
        e₁.keep.getD "" ≠ name ∧ ∃ kind slot, HasSlot m name kind slot ∧
          Writes e₁ e' [.instr (.store kind slot)] ∧ e'.onStack = e₁.onStack) := by
  obtain ⟨v, e₁, hv, h⟩ := EmitM.bind_eq_ok.1 h
  refine ⟨v, e₁, hv, ?_⟩
  rw [EmitM.run_get_bind] at h
  split at h
  · rename_i hk
    cases h
    exact .inl ⟨hk, rfl⟩
  · rename_i hk
    exact .inr ⟨hk, storeVar_spec h⟩

/-- **An instruction that makes no object** tests the equalities of its sites.  What it was told to leave on
the stack is there afterwards. -/
theorem instr_lines {x : IR.Instr} (h : ¬ x.MakesObject)
    (hkeep : e.keep = none ∨ x.defs? = some (e.keep.getD ""))
    (hrun : (instr c m x).run e = .ok (u, e')) :
    e'.keep = none ∧ ∃ ls, e'.lines = e.lines ++ ls ∧
      EqualityLines (x.sites.filterMap Site.cond?) ls := by
  obtain ⟨hk, ls, hls, hmarked⟩ := instr_marks x _ _ hrun
  refine ⟨?_, ls, hls, hmarked.equalityLines fun y hy hnew ↦ h ⟨y, hy, hnew⟩⟩
  rcases hkeep with hnone | hdefs
  · rw [hnone, or_self] at hk
    exact hk
  · obtain ⟨ty, ty', rhs, rfl⟩ : ∃ ty ty' rhs, x = .assign (.var (e.keep.getD "") ty) ty' rhs := by
      unfold IR.Instr.defs? at hdefs
      split at hdefs
      · rw [← Option.some.inj hdefs]
        exact ⟨_, _, _, rfl⟩
      · cases hdefs
    obtain ⟨v, e₁, hv, hdest⟩ := assignVar_run hrun
    obtain ⟨-, rfl⟩ | ⟨hne, kind, slot, -, hw, -⟩ := hdest
    · rfl
    · rw [hw.keep]
      have hmarks : Marks [] _ e (value c m rhs) := value_marks rhs
      rcases (hmarks _ _ hv).1 with hk₁ | hk₁
      · exact absurd (by rw [hk₁]) hne
      · exact hk₁

/-- An object is made, and left on the stack or stored to the slot of its variable. -/
theorem create_lines {ty : Ty} {cls : Text} (h : (instr c m (.create name ty cls)).run e = .ok (u, e')) :
    e.keep.getD "" = name ∧ e'.keep = none ∧ e'.onStack = named name ∧
        e'.lines = e.lines ++ [.instr (.new (c.resolve cls))] ∨
      e.keep.getD "" ≠ name ∧ e'.keep = e.keep ∧ e'.onStack = e.onStack ∧
        ∃ kind slot, HasSlot m name kind slot ∧
          e'.lines = e.lines ++ [.instr (.new (c.resolve cls)), .instr (.store kind slot)] := by
  obtain ⟨v, e₁, hv, hdest⟩ := assignVar_run h
  obtain rfl : e₁ = e.put (.new (c.resolve cls)) := by
    rw [value] at hv
    split at hv
    · cases hv
    · exact (emit_eq_ok (m := m) (i := .new (c.resolve cls)) hv).2
  obtain ⟨hk, rfl⟩ | ⟨hk, kind, slot, hslot, hw, hs⟩ := hdest
  · exact .inl ⟨hk, rfl, rfl, rfl⟩
  · refine .inr ⟨hk, hw.keep, hs, kind, slot, hslot, ?_⟩
    rw [hw.lines]
    exact List.append_assoc _ _ _

theorem owner?_eq {ty : Ty} (h : ∀ own, ty ≠ .receiver own) (kind : CallKind) (method : Text) :
    owner? c kind ty method = ty.className?.map c.resolve := by
  cases ty with
  | receiver own => exact absurd rfl (h own)
  | _ => rfl

/-- The constructor of an object is that of the class of its variable. -/
theorem initialise_lines {ty : Ty} (hty : ∀ own, ty ≠ .receiver own)
    (h : (instr c m (.initialise name ty)).run e = .ok (u, e')) :
    ∃ owner, ty.className?.map c.resolve = some owner ∧
      (e.onStack.getD "" = name ∧
          e'.lines = e.lines ++ [.instr (.invoke .special owner "<init>" [] "V")] ∨
        e.onStack.getD "" ≠ name ∧ ∃ kind slot, HasSlot m name kind slot ∧
          e'.lines = e.lines ++
            [.instr (.load kind slot), .instr (.invoke .special owner "<init>" [] "V")]) := by
  obtain ⟨_, e₁, hcall, hend⟩ := EmitM.bind_eq_ok.1 h
  cases hend
  obtain ⟨_, e₂, hload, hcall⟩ := EmitM.bind_eq_ok.1 hcall
  obtain ⟨_, e₃, hargs, hcall⟩ := EmitM.bind_eq_ok.1 hcall
  cases hargs
  obtain ⟨owner, e₄, howner, hcall⟩ := EmitM.bind_eq_ok.1 hcall
  rw [callClass_run] at howner
  split at howner
  · rename_i cls htarget
    cases howner
    have hclass : ty.className?.map c.resolve = some owner := by
      rw [← htarget, callTarget?, if_neg (by simp)]
      exact (owner?_eq hty .special "<init>").symm
    obtain ⟨-, rfl⟩ := emit_eq_ok hcall
    refine ⟨owner, hclass, ?_⟩
    rw [load, EmitM.run_get_bind] at hload
    split at hload
    · rename_i hs
      cases hload
      exact .inl ⟨hs, rfl⟩
    · rename_i hs
      obtain ⟨kind, slot, hslot, hw, -⟩ := loadVar_spec hload
      refine .inr ⟨hs, kind, slot, hslot, ?_⟩
      show e₂.lines ++ _ = _
      rw [hw.lines]
      exact List.append_assoc _ _ _
  · cases howner

theorem getD_named (name : Text) : (named name).getD "" = name := by
  rw [named]
  split
  · rename_i hname
    rw [hname, Option.getD_none]
  · rfl

/-- The instruction of an index runs behind its labels.  It is told to leave the variable that it writes on
the stack, or nothing; what was on the stack before does not stay there. -/
theorem emitAt_run {i : Nat} {x : IR.Instr} (hx : m.code[i]? = some x) (hkeep : e.keep = none)
    (h : (emitAt c m (stackTemp? m) i x).run e = .ok (u, e')) :
    ∃ e₁ : Emitter, e₁.lines = e.lines ++ (m.labels.namesAt i).map .label ∧ e₁.onStack = e.onStack ∧
      (e₁.keep = none ∨ x.defs? = some (e₁.keep.getD "")) ∧ (instr c m x).run e₁ = .ok ((), e') ∧
      ∀ name, e.onStack = some name → e'.onStack ≠ some name := by
  rw [emitAt] at h
  obtain ⟨_, e₁, hlabels, h₁⟩ := EmitM.bind_eq_ok.1 h
  obtain ⟨hw, hs⟩ := forM_placeLabel_spec (within_eq_ok hlabels)
  rw [EmitM.run_get_bind] at h₁
  cases hat : stackTemp? m i with
  | none =>
    rw [hat] at h₁
    obtain ⟨hinstr, hleft, -⟩ := checked_spec h₁
    exact ⟨e₁, hw.lines, hs, .inl (hw.keep.trans hkeep), hinstr, fun name hname ↦ hleft name (hs.trans hname)⟩
  | some name =>
    rw [hat] at h₁
    obtain ⟨_, e₂, hset, h₂⟩ := EmitM.bind_eq_ok.1 h₁
    cases hset
    obtain ⟨hinstr, hleft, -⟩ := checked_spec h₂
    refine ⟨{ e₁ with keep := named name }, hw.lines, hs, .inr ?_, hinstr,
      fun name hname ↦ hleft name (hs.trans hname)⟩
    obtain ⟨ty, ty', rhs, hassign⟩ := (stackTemp?_eq_some hat).assigned
    obtain rfl := Option.some.inj (hx.symm.trans hassign)
    exact congrArg some (getD_named name).symm

end

/-! ## Methods -/

/-- Only the sites of an instruction that makes an object have a constructor. -/
theorem construction?_sites (c : ClassDef) {x : IR.Instr} (h : ¬ x.MakesObject) :
    x.sites.filterMap (Site.construction? c) = [] := by
  have hvalue (y : IR.Instr) : y.valueSites.filterMap (Site.construction? c) = [] := by
    cases y with
    | binary op l r ty =>
      rw [IR.Instr.valueSites, Op.sites]
      split <;> rfl
    | _ => rfl
  cases x with
  | assign dest ty rhs =>
    have hrhs : ¬ rhs.MakesObject := h
    rw [IR.Instr.sites_assign hrhs]
    exact hvalue rhs
  | branch cond label => exact hvalue cond
  | binary op l r ty => exact hvalue (.binary op l r ty)
  | _ => rfl

theorem HasSlot.unique {m : Method} {name : Text} {kind kind' : Kind} {slot slot' : Nat}
    (h : HasSlot m name kind slot) (h' : HasSlot m name kind' slot') : kind = kind' ∧ slot = slot' := by
  obtain ⟨v, hv, hreg, hkind⟩ := h
  obtain ⟨v', hv', hreg', hkind'⟩ := h'
  obtain rfl := Option.some.inj (hv.symm.trans hv')
  exact ⟨hkind.symm.trans hkind', Int.ofNat_inj.1 (hreg.symm.trans hreg')⟩

namespace Emitted

variable {c : ClassDef} {m : Method} {lines : List Line} {es : Nat → Emitter}
  (h : Emitted c m lines es)
include h

variable {i : Nat}

/-- The lines so far are a beginning of all lines. -/
theorem exists_rest (hi : i ≤ m.code.length) : ∃ rest, lines = (es i).lines ++ rest := by
  obtain ⟨k, hk⟩ := Nat.exists_eq_add_of_le hi
  induction k generalizing i with
  | zero =>
    obtain rfl : m.code.length = i := hk
    exact ⟨[], by rw [h.last, List.append_nil]⟩
  | succ k ih =>
    obtain ⟨x, block, -, hlines, -⟩ := h.exists_block (i := i) (by omega)
    obtain ⟨rest, hrest⟩ := ih (i := i + 1) (by omega) (by omega)
    exact ⟨_, by rw [hrest, hlines, List.append_assoc]⟩

variable (hm : m.Initialises)
include hm

/-- One more instruction: the lines behind its labels test the equalities of its sites. -/
theorem exists_equalities {x : IR.Instr} (hx : m.code[i]? = some x) (hkeep : (es i).keep = none) :
    (es (i + 1)).keep = none ∧ ∃ block,
      (es (i + 1)).lines = (es i).lines ++ ((m.labels.namesAt i).map .label ++ block) ∧
      equalityJumps block = x.sites.filterMap Site.cond? ∧
      (¬ x.MakesObject → ∀ cls, Line.instr (.new cls) ∉ block) := by
  obtain ⟨e₁, hl₁, -, hkeep₁, hrun, -⟩ := emitAt_run hx hkeep (h.step i x hx)
  by_cases hmakes : x.MakesObject
  · obtain ⟨name, ty, cls, rfl, -⟩ := hm i x hx hmakes
    have hdefs : (IR.Instr.create name ty cls).defs? = some name := rfl
    rw [hdefs] at hkeep₁
    obtain ⟨-, hk, -, hl⟩ | ⟨hne, hk, -, kind, slot, -, hl⟩ := create_lines hrun
    · exact ⟨hk, _, by rw [hl, hl₁, List.append_assoc], rfl, fun hn ↦ absurd hmakes hn⟩
    · refine ⟨?_, _, by rw [hl, hl₁, List.append_assoc], rfl, fun hn ↦ absurd hmakes hn⟩
      rw [hk]
      exact hkeep₁.resolve_right fun heq ↦ hne (Option.some.inj heq).symm
  · obtain ⟨hk, block, hl, hblock⟩ := instr_lines hmakes hkeep₁ hrun
    exact ⟨hk, block, by rw [hl, hl₁, List.append_assoc], hblock.equalities, fun _ ↦ hblock.makesNone⟩

/-- Between instructions nothing is told to be left on the stack. -/
theorem keep_eq_none (hi : i ≤ m.code.length) : (es i).keep = none := by
  induction i with
  | zero => rw [h.first]
  | succ i ih =>
    exact (h.exists_equalities hm (List.getElem?_eq_getElem hi) (ih (Nat.le_of_lt hi))).1

/-- **The equalities that the lines of a method test on two operands** are those of its sites without a
literal zero, in order. -/
theorem equalityJumps_eq :
    equalityJumps lines = (m.code.flatMap IR.Instr.sites).filterMap Site.cond? := by
  have hbefore : ∀ i ≤ m.code.length, equalityJumps (es i).lines =
      ((m.code.take i).flatMap IR.Instr.sites).filterMap Site.cond? := by
    intro i hi
    induction i with
    | zero => simp [h.first, equalityJumps]
    | succ i ih =>
      have hx := List.getElem?_eq_getElem hi
      obtain ⟨-, block, hlines, heq, -⟩ := h.exists_equalities hm hx (h.keep_eq_none hm (Nat.le_of_lt hi))
      rw [hlines, equalityJumps_append, equalityJumps_append, equalityJumps_labels, List.nil_append, heq,
        ih (Nat.le_of_lt hi), List.take_succ_eq_append_getElem hi, List.flatMap_append,
        List.flatMap_singleton, List.filterMap_append]
  have hall := hbefore m.code.length (Nat.le_refl _)
  rwa [h.last, List.take_length] at hall

/-- The lines behind an instruction that makes an object invoke the constructor of the class of its
variable, on the object. -/
theorem initialiser?_eq {name cls : Text} {ty : Ty} (hx : m.code[i]? = some (.create name ty cls))
    {rest : List Line} (hrest : lines = (es (i + 1)).lines ++ rest) : ∃ before,
      (es (i + 1)).lines = (es i).lines ++
        ((m.labels.namesAt i).map .label ++ .instr (.new (c.resolve cls)) :: before) ∧
      initialiser? (before ++ rest) = ty.className?.map c.resolve ∧
      ∀ cls, Line.instr (.new cls) ∉ before := by
  have hmakes : (IR.Instr.create name ty cls).MakesObject := IR.Instr.makesObject_call.2 rfl
  obtain ⟨name', ty', cls', heq, hty, hnext, hlabels⟩ := hm i _ hx hmakes
  cases heq
  have hi : i + 1 < m.code.length := (List.getElem?_eq_some_iff.1 hnext).1
  have hkeep := h.keep_eq_none hm (i := i) (by omega)
  -- the two instructions, and what is on the stack between them
  obtain ⟨e₁, hl₁, hs₁, hk₁, hrun₁, hleft⟩ := emitAt_run hx hkeep (h.step i _ hx)
  obtain ⟨e₂, hl₂, hs₂, -, hrun₂, -⟩ :=
    emitAt_run hnext (h.keep_eq_none hm (by omega)) (h.step (i + 1) _ hnext)
  rw [hlabels, List.map_nil, List.append_nil] at hl₂
  obtain ⟨owner, howner, hinit⟩ := initialise_lines hty hrun₂
  rw [hs₂, hl₂] at hinit
  obtain ⟨rest', hrest'⟩ := h.exists_rest (i := i + 1 + 1) hi
  obtain ⟨-, -, hs, hl⟩ | ⟨hne, -, hs, kind, slot, hslot, hl⟩ := create_lines hrun₁
  · -- the object is on the stack when its constructor is called
    rw [hs, getD_named] at hinit
    obtain ⟨-, hl'⟩ | ⟨habs, -⟩ := hinit
    · refine ⟨[], by rw [hl, hl₁, List.append_assoc], ?_, by simp⟩
      rw [hrest', hl', List.append_assoc, List.append_cancel_left_eq] at hrest
      rw [howner, ← hrest]
      rfl
    · exact absurd rfl habs
  · -- the object is loaded from its slot, since nothing was on the stack before it was made
    have hname : name ≠ "" := by
      rcases hk₁ with hk₁ | hk₁
      · rw [hk₁] at hne
        exact hne.symm
      · exact absurd (Option.some.inj hk₁).symm hne
    have hnone : (es (i + 1)).onStack = none := by
      cases hstack : (es i).onStack with
      | none => rw [hs, hs₁, hstack]
      | some t => exact absurd (hs.trans (hs₁.trans hstack)) (hleft t hstack)
    rw [hnone] at hinit
    obtain ⟨habs, -⟩ | ⟨-, kind', slot', hslot', hl'⟩ := hinit
    · exact absurd habs.symm hname
    · obtain ⟨rfl, rfl⟩ := hslot.unique hslot'
      refine ⟨[.instr (.store kind slot)], by rw [hl, hl₁, List.append_assoc], ?_, by simp⟩
      rw [hrest', hl', List.append_assoc, List.append_cancel_left_eq] at hrest
      rw [howner, ← hrest]
      exact if_pos ⟨rfl, rfl⟩

/-- **The objects that the lines of a method make** are those of its sites, in order, and the constructor of
each is that of the class of the variable that it is made in. -/
theorem constructions_eq :
    constructions lines = (m.code.flatMap IR.Instr.sites).filterMap (Site.construction? c) := by
  have hafter : ∀ k i, i + k = m.code.length → ∀ rest, lines = (es i).lines ++ rest →
      constructions rest = ((m.code.drop i).flatMap IR.Instr.sites).filterMap (Site.construction? c) := by
    intro k
    induction k with
    | zero =>
      intro i hi rest hrest
      obtain rfl : i = m.code.length := hi
      rw [h.last, List.self_eq_append_right] at hrest
      rw [hrest, List.drop_length]
      rfl
    | succ k ih =>
      intro i hi rest hrest
      have hlt : i < m.code.length := by omega
      have hx := List.getElem?_eq_getElem hlt
      obtain ⟨rest', hrest'⟩ := h.exists_rest (i := i + 1) hlt
      rw [List.drop_eq_getElem_cons hlt, List.flatMap_cons, List.filterMap_append,
        ← ih (i + 1) (by omega) rest' hrest']
      generalize m.code[i] = x at hx
      have hnames : ∀ cls, Line.instr (.new cls) ∉ (m.labels.namesAt i).map Line.label := by simp
      by_cases hmakes : x.MakesObject
      · obtain ⟨name, ty, cls, rfl, -⟩ := hm i x hx hmakes
        obtain ⟨before, hl, hinit, hbefore⟩ := h.initialiser?_eq hm hx hrest'
        rw [hrest', hl, List.append_assoc, List.append_cancel_left_eq, List.append_assoc] at hrest
        rw [← hrest, constructions_append hnames, List.cons_append, constructions, hinit,
          constructions_append hbefore]
        rfl
      · obtain ⟨-, block, hl, -, hblock⟩ :=
          h.exists_equalities hm hx (h.keep_eq_none hm (Nat.le_of_lt hlt))
        rw [hrest', hl, List.append_assoc, List.append_cancel_left_eq, List.append_assoc] at hrest
        rw [← hrest, constructions_append hnames, constructions_append (hblock hmakes),
          construction?_sites c hmakes, List.nil_append]
  exact hafter m.code.length 0 (by omega) lines (by rw [h.first]; rfl)

/-- An object is made in a variable of a class. -/
theorem isSome_className? {cls : Text} {place : Ty}
    (hs : Site.creation cls place ∈ m.code.flatMap IR.Instr.sites) : place.className?.isSome = true := by
  obtain ⟨x, hx, hsite⟩ := List.mem_flatMap.1 hs
  have hmakes : x.MakesObject := by
    by_contra hn
    cases List.filterMap_eq_nil_iff.1 (construction?_sites c hn) _ hsite
  obtain ⟨i, hi, rfl⟩ := List.getElem_of_mem hx
  obtain ⟨name, ty, cls', heq, hty, hnext, -⟩ := hm i _ (List.getElem?_eq_getElem hi) hmakes
  rw [heq] at hsite
  obtain ⟨-, rfl⟩ := Site.creation.inj (List.mem_singleton.1 hsite)
  obtain ⟨e₁, -, -, -, hrun, -⟩ := emitAt_run hnext (h.keep_eq_none hm hi) (h.step (i + 1) _ hnext)
  obtain ⟨owner, howner, -⟩ := initialise_lines hty hrun
  exact Option.isSome_map.symm.trans (by rw [howner, Option.isSome_some])

end Emitted

end Jvm

/-! ## Programs -/

/-- The sites of the methods of the class of a program.  Its constructor, which comes first, has none. -/
def Program.sites (p : Program) : List (List Site) :=
  [] :: p.cls.methods.map fun d ↦ Source.Context.sites { program := p, method := d }

/-- **The methods of a compiled class have the sites of their declarations.** -/
theorem sites_of_lowerProgram {p : Program} {t : Symbols} {fresh : Fresh} {s : Strategy} {c c' : ClassDef}
    (hbuild : Symbols.build p = .ok t) (hlower : (lowerProgram t (some p) fresh).1 = .ok c)
    (halloc : Allocation.cls s c = .ok c') :
    List.Forall₂ (fun ss m ↦ m.code.flatMap Instr.sites = ss ∧ m.Initialises) p.sites c'.methods := by
  obtain ⟨ms, rfl, hms⟩ := lowerProgram_spec (Prod.ext hlower rfl)
  have hbody : List.Forall₂ (fun ss m ↦ m.code.flatMap Instr.sites = ss ∧ m.Initialises) p.sites
      (Lowering.constructor t :: ms) := by
    refine .cons ⟨rfl, ?_⟩ (List.forall₂_map_left_iff.2 ?_)
    · -- the constructor of the class calls that of the superclass and returns
      rintro (_ | _ | i) x hx hmakes
      · cases hx
        cases Instr.makesObject_call.1 hmakes
      · cases hx
        exact absurd hmakes (Instr.not_makesObject rfl)
      · cases hx
    · refine ((List.forall₂_and_left _ _).2 ⟨fun d hd ↦ hd, hms⟩).imp ?_
      rintro d m ⟨hd, σ, σ', hrun⟩
      obtain ⟨sig, σ₁, f, hsig, hby⟩ := Lowering.method_spec hrun
      obtain ⟨hmethod, hdescribes⟩ := describes_of_build (c := { program := p, method := d }) hbuild hd
      obtain rfl := Option.some.inj (hsig.symm.trans hmethod)
      exact hby.shows hdescribes
  refine (forall₂_comp hbody (Jvm.cls_spec halloc).1).imp ?_
  rintro ss m' ⟨m, h, hm'⟩
  obtain ⟨reg, rfl⟩ := Allocation.exists_withRegs hm'
  exact h

end MiniJava
