import MiniJava.Proofs.InternalErrors
import MiniJava.Proofs.Renaming
import MiniJava.Proofs.StrategyChoice

/-!
# Assembly with other names

A method and the same method with other names are emitted in step (`InStep`): both runs of the emitter
fail, or both succeed, and then their lines are the same but for the names of labels and for the order of
labels that stand at one place (`SamePlaces`).

That order is the order of the names, so it does change.  It matters to the emitter only if a depth was
recorded for a label that is not zero.  The states of the two runs (`Renamed`) therefore keep count: there
are `h` values on the stack and perhaps a temporary, and the labels of the method are reached on an empty
stack only.  This is where variables have to have names: the emitter takes one without for the value on top
of the stack.
-/

set_option autoImplicit false

namespace MiniJava

open IR

namespace Jvm

/-! ## Lines -/

/-- The line with other names for labels. -/
def Line.rename (g : Equiv.Perm Text) : Line → Line
  | label name => label (g name)
  | instr i => instr (i.rename g)

/-- **Lines that are the same but for the order of labels** which stand at one place. -/
inductive SamePlaces : List Line → List Line → Prop
  | nil : SamePlaces [] []
  | cons (l : Line) {ls ks : List Line} (h : SamePlaces ls ks) : SamePlaces (l :: ls) (l :: ks)
  | swap (a b : Text) (ls : List Line) :
      SamePlaces (.label a :: .label b :: ls) (.label b :: .label a :: ls)
  | trans {ls ks js : List Line} (h : SamePlaces ls ks) (h' : SamePlaces ks js) : SamePlaces ls js

namespace SamePlaces

theorem refl (ls : List Line) : SamePlaces ls ls := by
  induction ls with
  | nil => exact .nil
  | cons l ls ih => exact .cons l ih

theorem append_left (ls : List Line) {ks ks' : List Line} (h : SamePlaces ks ks') :
    SamePlaces (ls ++ ks) (ls ++ ks') := by
  induction ls with
  | nil => exact h
  | cons l ls ih => exact .cons l ih

theorem append_right {ls ls' : List Line} (h : SamePlaces ls ls') (ks : List Line) :
    SamePlaces (ls ++ ks) (ls' ++ ks) := by
  induction h with
  | nil => exact .refl ks
  | cons l _ ih => exact .cons l ih
  | swap a b ls => exact .swap a b (ls ++ ks)
  | trans _ _ ih₁ ih₂ => exact ih₁.trans ih₂

theorem append {ls ls' ks ks' : List Line} (h : SamePlaces ls ls') (h' : SamePlaces ks ks') :
    SamePlaces (ls ++ ks) (ls' ++ ks') :=
  (h.append_right ks).trans (append_left ls' h')

/-- Labels in another order. -/
theorem labels {names names' : List Text} (h : names.Perm names') :
    SamePlaces (names.map .label) (names'.map .label) := by
  induction h with
  | nil => exact .nil
  | cons a _ ih => exact .cons _ ih
  | swap a b names => exact .swap _ _ _
  | trans _ _ ih₁ ih₂ => exact ih₁.trans ih₂

end SamePlaces

/-! ## Steps -/

theorem EmitM.run_bind_of_ok {α β : Type} {x : EmitM α} {f : α → EmitM β} {a : α} {e e₁ : Emitter}
    (h : x.run e = .ok (a, e₁)) : (x >>= f).run e = (f a).run e₁ := by
  rw [StateT.run_bind, h]
  rfl

theorem EmitM.run_bind_of_error {α β : Type} {x : EmitM α} {f : α → EmitM β} {err : Error} {e : Emitter}
    (h : x.run e = .error err) : (x >>= f).run e = .error err := by
  rw [StateT.run_bind, h]
  rfl

/-- **Two steps in step**: both fail, or both succeed and leave states that are related. -/
abbrev InStep {α : Type} (R S : Emitter → Emitter → Prop) (x y : EmitM α) : Prop :=
  Together (fun _ _ ↦ True) R S x y

/-- Steps that succeed. -/
theorem Agree.of_ok {α : Type} {Q : Error → Error → Prop} {S : Emitter → Emitter → Prop}
    {x y : Except Error (α × Emitter)} {a : α} {e e' : Emitter} (hx : x = .ok (a, e)) (hy : y = .ok (a, e'))
    (h : S e e') : Agree Q (fun p q ↦ p.1 = q.1 ∧ S p.2 q.2) x y := by
  rw [hx, hy]
  exact .ok ⟨rfl, h⟩

/-! ## States -/

/-- The stack is empty at the labels of the method, as far as depths are recorded for them. -/
def ZeroDepths (ds : List (Text × Nat)) : Prop := ∀ l d, ¬ IsPrivate l → ds.lookup l = some d → d = 0

/-- The depths at labels in two runs: those of private labels are the same, and those of other labels are
zero. -/
structure SameDepths (ds ds' : List (Text × Nat)) : Prop where
  own : ∀ l, IsPrivate l → ds'.lookup l = ds.lookup l
  left : ZeroDepths ds
  right : ZeroDepths ds'

/-- **Two states of the emitter that differ in names**, and in the order of labels.  There are `h` values
on the stack, and on top of them the temporary `top` if there is one; `kept` is the temporary that the next
assignment leaves there. -/
inductive Renamed (f g : Equiv.Perm Text) (kept : Option Text) (h : Nat) (top : Option Text) :
    Emitter → Emitter → Prop
  | intro {ls ls' : List Line} {deepest slots next : Nat} {dead : Bool} {ds ds' : List (Text × Nat)}
      (hl : SamePlaces (ls.map (Line.rename g)) ls') (hd : SameDepths ds ds') :
      Renamed f g kept h top
        { lines := ls, depth := h + Jvm.left top, maxDepth := deepest, unreachable := dead,
          labelDepths := ds, slots, keep := kept, onStack := top, nextLabel := next }
        { lines := ls', depth := h + Jvm.left top, maxDepth := deepest, unreachable := dead,
          labelDepths := ds', slots, keep := kept.map f, onStack := top.map f, nextLabel := next }

/-- Permutations of the names of variables and of labels that keep what the emitter makes up: the empty
name, and private labels. -/
structure KeepsOwn (f g : Equiv.Perm Text) : Prop where
  empty : f "" = ""
  label : ∀ l, IsPrivate l → g l = l

theorem KeepsOwn.isPrivate_iff {f g : Equiv.Perm Text} (hk : KeepsOwn f g) {l : Text} :
    IsPrivate (g l) ↔ IsPrivate l := by
  refine ⟨fun hp ↦ ?_, fun hp ↦ by rwa [hk.label l hp]⟩
  have hl : l = g l := g.injective (hk.label (g l) hp).symm
  rwa [hl]

section
variable {f g : Equiv.Perm Text} {m : Method} {e e' : Emitter} {kept top : Option Text} {h : Nat}

theorem Renamed.depths (hr : Renamed f g kept h top e e') : SameDepths e.labelDepths e'.labelDepths := by
  obtain ⟨-, hd⟩ := hr
  exact hd

theorem Renamed.depth (hr : Renamed f g kept h top e e') :
    e.depth = h + Jvm.left top ∧ e'.depth = h + Jvm.left top := by
  obtain ⟨-, -⟩ := hr
  exact ⟨rfl, rfl⟩

theorem Renamed.onStack (hr : Renamed f g kept h top e e') :
    e.onStack = top ∧ e'.onStack = top.map f := by
  obtain ⟨-, -⟩ := hr
  exact ⟨rfl, rfl⟩

theorem Renamed.keep (hr : Renamed f g kept h top e e') : e.keep = kept ∧ e'.keep = kept.map f := by
  obtain ⟨-, -⟩ := hr
  exact ⟨rfl, rfl⟩

/-! ## Writing lines -/

/-- A line more in both runs. -/
theorem SamePlaces.snoc {ls ls' : List Line} (hl : SamePlaces (ls.map (Line.rename g)) ls') (l : Line) :
    SamePlaces ((ls ++ [l]).map (Line.rename g)) (ls' ++ [l.rename g]) := by
  rw [List.map_append]
  exact hl.append (.refl _)

/-- The state after an instruction that leaves `n` values on the stack. -/
def Emitter.wrote (e : Emitter) (i : Instr) (n : Nat) : Emitter :=
  { e with lines := e.lines ++ [.instr i], depth := n, maxDepth := max e.maxDepth n }

variable {i : Instr} {n : Nat} {label : Text} {name : Text} {onTrue done : Text}

theorem emit_ok (hn : (e.depth : Int) + i.effect = n) : (emit m i).run e = .ok ((), e.wrote i n) := by
  rw [emit_run, if_neg (by omega), Emitter.put, hn]
  rfl

theorem emit_renamed (hn : (h : Int) + i.effect = n) :
    InStep (Renamed f g kept h top) (Renamed f g kept n top) (emit m i)
      (emit (m.rename f g) (i.rename g)) := by
  rintro _ _ ⟨hl, hd⟩
  have hdepth : ((h + Jvm.left top : Nat) : Int) + i.effect = (n + Jvm.left top : Nat) := by omega
  exact .of_ok (emit_ok hdepth) (emit_ok ((i.effect_rename g).symm ▸ hdepth))
    (.intro (hl.snoc (.instr i)) hd)

/-! ### Labels of the method -/

/-- Depths at labels after a change for labels of the method only. -/
structure Records (ds ds₁ : List (Text × Nat)) : Prop where
  own : ∀ l, IsPrivate l → ds₁.lookup l = ds.lookup l
  zero : ZeroDepths ds₁

theorem Records.cons {ds : List (Text × Nat)} (hz : ZeroDepths ds) (hl : ¬ IsPrivate label) :
    Records ds ((label, 0) :: ds) := by
  refine ⟨fun l hp ↦ ?_, fun l d hp hd ↦ ?_⟩
  · rw [lookup_cons_eq_ite, if_neg]
    rintro rfl
    exact hl hp
  · rw [lookup_cons_eq_ite] at hd
    split at hd
    · exact (Option.some.inj hd).symm
    · exact hz l d hp hd

theorem SameDepths.record {ds ds' ds₁ ds₁' : List (Text × Nat)} (hd : SameDepths ds ds')
    (h : Records ds ds₁) (h' : Records ds' ds₁') : SameDepths ds₁ ds₁' :=
  ⟨fun l hp ↦ by rw [h.own l hp, h'.own l hp, hd.own l hp], h.zero, h'.zero⟩

/-- What a jump does that leaves `n` values on the stack. -/
theorem jump_run (hn : (e.depth : Int) + i.effect = n) (label : Text) :
    (jump m i label).run e = match e.labelDepths.lookup label with
      | some depth => if depth ≠ n then .error (.defect (.depthMismatch m.name label depth n))
        else .ok ((), e.wrote i n)
      | none => .ok ((), { e.wrote i n with labelDepths := (label, n) :: e.labelDepths }) := by
  have hrun : (jump m i label).run e = (match e.labelDepths.lookup label with
      | some depth => if depth ≠ n then EmitM.defect (.depthMismatch m.name label depth n) else Pure.pure ()
      | none => set { e.wrote i n with labelDepths := (label, n) :: e.labelDepths }
      : EmitM Unit).run (e.wrote i n) := by
    rw [jump, StateT.run_bind, emit_ok hn]
    rfl
  rw [hrun]
  cases e.labelDepths.lookup label with
  | none => rfl
  | some depth =>
    dsimp only
    split <;> rfl

/-- A jump to a label of the method that leaves the stack empty. -/
theorem jump_ok (hz : ZeroDepths e.labelDepths) (hl : ¬ IsPrivate label)
    (hn : (e.depth : Int) + i.effect = 0) :
    ∃ ds, (jump m i label).run e = .ok ((), { e.wrote i 0 with labelDepths := ds }) ∧
      Records e.labelDepths ds := by
  rw [jump_run hn]
  cases hlookup : e.labelDepths.lookup label with
  | none => exact ⟨_, rfl, .cons hz hl⟩
  | some d =>
    obtain rfl := hz label d hl hlookup
    exact ⟨e.labelDepths, rfl, fun _ _ ↦ rfl, hz⟩

/-- Jumps to a label of the method that leave the stack empty. -/
theorem jump_renamed (hk : KeepsOwn f g) (hl : ¬ IsPrivate label) (hn : (h : Int) + i.effect = 0) :
    InStep (Renamed f g kept h none) (Renamed f g kept 0 none) (jump m i label)
      (jump (m.rename f g) (i.rename g) (g label)) := by
  intro e e' hr
  obtain ⟨ds₁, hrun, hds⟩ := jump_ok (m := m) hr.depths.left hl (by rw [hr.depth.1]; exact hn)
  obtain ⟨ds₁', hrun', hds'⟩ := jump_ok (m := m.rename f g) hr.depths.right
    (hk.isPrivate_iff.not.2 hl) (by rw [hr.depth.2, i.effect_rename g]; exact hn)
  obtain ⟨hlines, hd⟩ := hr
  exact .of_ok hrun hrun' (.intro (hlines.snoc (.instr i)) (hd.record hds hds'))

/-! ### Private labels -/

theorem SameDepths.cons {ds ds' : List (Text × Nat)} (hd : SameDepths ds ds') (hl : IsPrivate label)
    (n : Nat) : SameDepths ((label, n) :: ds) ((label, n) :: ds') := by
  have hzero {ds : List (Text × Nat)} (hz : ZeroDepths ds) : ZeroDepths ((label, n) :: ds) := by
    intro l d hp hd
    rw [lookup_cons_eq_ite, if_neg] at hd
    · exact hz l d hp hd
    · rintro rfl
      exact hp hl
  refine ⟨fun l hp ↦ ?_, hzero hd.left, hzero hd.right⟩
  rw [lookup_cons_eq_ite, lookup_cons_eq_ite, hd.own l hp]

/-- Jumps to a private label; the depth at it is known then. -/
theorem jumpOwn_renamed (hk : KeepsOwn f g) (hl : IsPrivate label) (hn : (h : Int) + i.effect = n) :
    InStep (Renamed f g kept h none)
      (fun e₁ e₁' ↦ Renamed f g kept n none e₁ e₁' ∧ e₁.labelDepths.lookup label = some n)
      (jump m i label) (jump (m.rename f g) (i.rename g) (g label)) := by
  intro e e' hr
  have hrun := jump_run (m := m) (e := e) (by rw [hr.depth.1]; exact hn) label
  have hrun' := jump_run (m := m.rename f g) (e := e')
    (by rw [hr.depth.2, i.effect_rename g]; exact hn) label
  rw [hk.label label hl, hrun, hrun', hr.depths.own label hl]
  cases hlookup : e.labelDepths.lookup label with
  | none =>
    obtain ⟨hlines, hd⟩ := hr
    refine .ok ⟨rfl, .intro (hlines.snoc (.instr i)) (hd.cons hl n), ?_⟩
    rw [lookup_cons_eq_ite, if_pos rfl]
  | some d =>
    dsimp only
    by_cases hdn : d = n
    · subst hdn
      rw [if_neg (by simp), if_neg (by simp)]
      obtain ⟨hlines, hd⟩ := hr
      exact .ok ⟨rfl, .intro (hlines.snoc (.instr i)) hd, hlookup⟩
    · rw [if_pos hdn, if_pos hdn]
      exact .error trivial

/-! ## Operands -/

theorem KeepsOwn.ne_empty (hk : KeepsOwn f g) (hn : name ≠ "") : f name ≠ "" := by
  rw [← hk.empty]
  exact f.injective.ne hn

/-- Access to the slot of a variable, to load or to store it. -/
theorem access_renamed (name : Text) (access : Kind → Nat → Instr)
    (hren : ∀ kind slot, (access kind slot).rename g = access kind slot)
    (hn : ∀ kind slot, (h : Int) + (access kind slot).effect = n) :
    InStep (Renamed f g kept h top) (Renamed f g kept n top)
      (do
        let (kind, slot) ← slotOf m name
        emit m (access kind slot))
      (do
        let (kind, slot) ← slotOf (m.rename f g) (f name)
        emit (m.rename f g) (access kind slot)) := by
  refine Together.bind (S := Renamed f g kept h top) ?_ fun p ↦ ?_
  · have hget : (m.rename f g).vars.get? (f name) = (m.vars.get? name).map (Variable.rename f) :=
      VarTable.get?_rename f m.vars name
    intro e e' hr
    rw [slotOf_run, slotOf_run, hget]
    cases m.vars.get? name with
    | none => exact .error trivial
    | some v =>
      obtain ⟨hl, hd⟩ := hr
      show Agree _ _ (if v.reg < 0 then _ else _) (if v.reg < 0 then _ else _)
      split
      · exact .error trivial
      · exact .ok ⟨rfl, .intro hl hd⟩
  · have hemit : InStep (Renamed f g kept h top) (Renamed f g kept n top) (emit m (access p.1 p.2))
        (emit (m.rename f g) ((access p.1 p.2).rename g)) := emit_renamed (hn p.1 p.2)
    rwa [hren] at hemit

theorem loadVar_renamed (name : Text) : InStep (Renamed f g kept h top) (Renamed f g kept (h + 1) top)
    (loadVar m name) (loadVar (m.rename f g) (f name)) :=
  access_renamed name .load (fun _ _ ↦ rfl) fun _ _ ↦ rfl

theorem storeVar_renamed (name : Text) : InStep (Renamed f g kept (h + 1) top) (Renamed f g kept h top)
    (storeVar m name) (storeVar (m.rename f g) (f name)) := by
  refine access_renamed name .store (fun _ _ ↦ rfl) fun kind slot ↦ ?_
  simp only [Instr.effect]
  omega

/-- **A variable is loaded**, unless it is on the stack already. -/
theorem load_var_renamed (hk : KeepsOwn f g) {ty : Ty} (hname : name ≠ "")
    (ht : TakesTop top (.var name ty)) :
    InStep (Renamed f g kept h top) (Renamed f g kept (h + 1) none) (load m (.var name ty))
      (load (m.rename f g) (.var (f name) ty)) := by
  refine .get fun e e' hr ↦ ?_
  obtain ⟨hon, hon'⟩ := hr.onStack
  rw [hon, hon']
  cases top with
  | none =>
    rw [if_neg (by simpa using hname.symm), if_neg (by simpa using (hk.ne_empty hname).symm)]
    exact loadVar_renamed name
  | some name' =>
    obtain ⟨_, heq⟩ := ht name' rfl
    cases heq
    obtain ⟨hl, hd⟩ := hr
    rw [if_pos (by simp), if_pos (by simp)]
    exact fun _ _ _ ↦ .of_ok rfl rfl (.intro hl hd)

theorem operands_renamed (hk : KeepsOwn f g) :
    OperandsPaired (fun _ _ ↦ True) m (m.rename f g) f g (· ≠ "") fun top h ↦ Renamed f g kept h top where
  name := rfl
  fails _ _ _ := trivial
  emit _ := emit_renamed
  loadVar _ := loadVar_renamed _
  var := load_var_renamed hk

/-! ## Conditions -/

theorem placeLabel_run (label : Text) :
    (placeLabel m label).run e = match e.labelDepths.lookup label with
      | some depth =>
        if e.unreachable then
          .ok ((), { e with lines := e.lines ++ [.label label], depth, unreachable := false })
        else if depth ≠ e.depth then .error (.defect (.depthMismatch m.name label depth e.depth))
        else .ok ((), { e with lines := e.lines ++ [.label label] })
      | none =>
        if e.unreachable then
          .ok ((), { e with lines := e.lines ++ [.label label], unreachable := false })
        else .ok ((), { e with lines := e.lines ++ [.label label]
                               labelDepths := (label, e.depth) :: e.labelDepths }) := by
  rw [placeLabel, EmitM.run_get_bind]
  cases e.labelDepths.lookup label with
  | none =>
    dsimp only
    split <;> rfl
  | some depth =>
    dsimp only
    split
    · rfl
    · split <;> rfl

/-- The end of a comparison, when both jumps to its labels are emitted. -/
theorem landing_ok {ds : List (Text × Nat)} (htrue : ds.lookup onTrue = some e.depth)
    (hdone : ds.lookup done = some (e.depth + 1)) :
    (do
      placeLabel m onTrue
      emit m (.push 1)
      placeLabel m done : EmitM Unit).run
        { e with depth := e.depth + 1, unreachable := true, labelDepths := ds } =
      .ok ((), { e with
        lines := e.lines ++ [.label onTrue, .instr (.push 1), .label done]
        depth := e.depth + 1
        maxDepth := max e.maxDepth (e.depth + 1)
        unreachable := false
        labelDepths := ds }) := by
  have hlabel : (placeLabel m onTrue).run
      { e with depth := e.depth + 1, unreachable := true, labelDepths := ds } =
      .ok ((), { e with
        lines := e.lines ++ [.label onTrue], unreachable := false, labelDepths := ds }) := by
    rw [placeLabel_run, htrue]
    rfl
  rw [EmitM.run_bind_of_ok hlabel, EmitM.run_bind_of_ok (emit_ok (n := e.depth + 1) rfl), placeLabel_run]
  simp [Emitter.wrote, hdone]

/-- The state after a comparison that leaves its answer on the stack. -/
def Emitter.answered (e : Emitter) (onTrue done : Text) (ds : List (Text × Nat)) : Emitter :=
  { e with
    lines := e.lines ++
      [.instr (.push 0), .instr (.goto done), .label onTrue, .instr (.push 1), .label done]
    depth := e.depth + 1
    maxDepth := max e.maxDepth (e.depth + 1)
    unreachable := false
    labelDepths := ds }

/-- What a comparison does after its jump.  It can fail if its second label is taken. -/
theorem answer_run (hne : onTrue ≠ done) (htrue : e.labelDepths.lookup onTrue = some e.depth) :
    (do
      emit m (.push 0)
      goto m done
      placeLabel m onTrue
      emit m (.push 1)
      placeLabel m done : EmitM Unit).run e = match e.labelDepths.lookup done with
      | some d => if d ≠ e.depth + 1 then .error (.defect (.depthMismatch m.name done d (e.depth + 1)))
        else .ok ((), e.answered onTrue done e.labelDepths)
      | none => .ok ((), e.answered onTrue done ((done, e.depth + 1) :: e.labelDepths)) := by
  let e₁ := e.wrote (.push 0) (e.depth + 1)
  have hjump := jump_run (m := m) (e := e₁) (i := .goto done) (n := e.depth + 1)
    (by simp [e₁, Emitter.wrote, Instr.effect]) done
  -- both jumps to the labels are recorded, and nothing falls through
  have hland {ds : List (Text × Nat)} (ht : ds.lookup onTrue = some e.depth)
      (hd : ds.lookup done = some (e.depth + 1))
      (hj : (jump m (.goto done) done).run e₁ =
        .ok ((), { e₁.wrote (.goto done) (e.depth + 1) with labelDepths := ds })) :
      (goto m done >>= fun _ ↦ do
        placeLabel m onTrue
        emit m (.push 1)
        placeLabel m done).run e₁ = .ok ((), e.answered onTrue done ds) := by
    rw [goto, bind_assoc, EmitM.run_bind_of_ok hj, EmitM.run_bind_of_ok rfl]
    refine (landing_ok (e := { e₁.wrote (.goto done) (e.depth + 1) with depth := e.depth }) ht hd).trans ?_
    simp [Emitter.answered, Emitter.wrote, e₁]
  rw [EmitM.run_bind_of_ok (emit_ok (n := e.depth + 1) rfl)]
  cases hdone : e.labelDepths.lookup done with
  | none =>
    rw [show e₁.labelDepths.lookup done = none from hdone] at hjump
    refine hland ?_ ?_ hjump
    · rw [lookup_cons_eq_ite, if_neg hne]
      exact htrue
    · rw [lookup_cons_eq_ite, if_pos rfl]
  | some d =>
    rw [show e₁.labelDepths.lookup done = some d from hdone] at hjump
    dsimp only at hjump ⊢
    by_cases hd : d = e.depth + 1
    · rw [if_neg (by simp [hd])] at hjump ⊢
      exact hland htrue (hd ▸ hdone) hjump
    · rw [if_pos hd] at hjump ⊢
      rw [goto, bind_assoc]
      exact EmitM.run_bind_of_error hjump

/-- The end of a comparison with private labels, whose lines are the same in both runs. -/
theorem answer_renamed (hk : KeepsOwn f g) (htrue : IsPrivate onTrue) (hdone : IsPrivate done)
    (hne : onTrue ≠ done) :
    InStep (fun e e' ↦ Renamed f g kept h none e e' ∧ e.labelDepths.lookup onTrue = some h)
      (Renamed f g kept (h + 1) none)
      (do
        emit m (.push 0)
        goto m done
        placeLabel m onTrue
        emit m (.push 1)
        placeLabel m done)
      (do
        emit (m.rename f g) (.push 0)
        goto (m.rename f g) done
        placeLabel (m.rename f g) onTrue
        emit (m.rename f g) (.push 1)
        placeLabel (m.rename f g) done) := by
  rintro e e' ⟨hr, hlookup⟩
  have hlookup' : e'.labelDepths.lookup onTrue = some h := by
    rw [hr.depths.own _ htrue, hlookup]
  have hrun := answer_run (m := m) hne (hlookup.trans (congrArg some hr.depth.1.symm))
  have hrun' := answer_run (m := m.rename f g) hne (hlookup'.trans (congrArg some hr.depth.2.symm))
  rw [hrun, hrun', hr.depths.own _ hdone]
  have hanswer {ds ds' : List (Text × Nat)} (hd : SameDepths ds ds') :
      Renamed f g kept (h + 1) none (e.answered onTrue done ds) (e'.answered onTrue done ds') := by
    obtain ⟨hlines, -⟩ := hr
    refine .intro ?_ hd
    rw [List.map_append]
    refine hlines.append ?_
    simp only [List.map_cons, List.map_nil, Line.rename, Instr.rename, hk.label _ htrue, hk.label _ hdone]
    exact .refl _
  cases e.labelDepths.lookup done with
  | none =>
    rw [hr.depth.1, hr.depth.2]
    exact .ok ⟨rfl, hanswer (hr.depths.cons hdone _)⟩
  | some d =>
    dsimp only
    rw [hr.depth.1, hr.depth.2]
    split
    · exact .error trivial
    · exact .ok ⟨rfl, hanswer hr.depths⟩

theorem freshLabels_run (e : Emitter) : freshLabels.run e =
    .ok ((trueLabel e.nextLabel, endLabel e.nextLabel), { e with nextLabel := e.nextLabel + 1 }) := rfl

/-- **A comparison ends with its answer on the stack** in both runs. -/
theorem compare_renamed (hk : KeepsOwn f g) {op : Op} {cond : Cond} {l r : Operand}
    (hl : ∀ name ∈ l.names, name ≠ "") (hr : ∀ name ∈ r.names, name ≠ "")
    (ht : TakesTop top (firstCompared l r)) :
    InStep (Renamed f g kept h top) (Renamed f g kept (h + 1) none) (compare m op cond l r)
      (compare (m.rename f g) op cond (l.rename f) (r.rename f)) := by
  rintro _ _ ⟨hlines, hd⟩
  rename_i next _ _ _
  have htrue : IsPrivate (trueLabel next) := ⟨_, .inl rfl⟩
  have hdone : IsPrivate (endLabel next) := ⟨_, .inr rfl⟩
  have hjump : InStep (Renamed f g kept h top) _ (branchCompare m op cond l r (trueLabel next))
      (branchCompare (m.rename f g) op cond (l.rename f) (r.rename f) (g (trueLabel next))) :=
    (operands_renamed hk).branchCompare hl hr ht fun _ hn ↦ jumpOwn_renamed hk htrue hn
  rw [hk.label _ htrue] at hjump
  have hanswer := hjump.bind fun _ ↦
    answer_renamed (m := m) hk htrue hdone (trueLabel_ne_endLabel next next)
  rw [compare, compare, EmitM.run_bind_of_ok (freshLabels_run _), EmitM.run_bind_of_ok (freshLabels_run _)]
  exact hanswer _ _ (.intro hlines hd)

/-! ## Instructions -/

/-- The variables of operands have names. -/
def Named (xs : List Operand) : Prop := ∀ x ∈ xs, ∀ name ∈ x.names, name ≠ ""

variable {c d : ClassDef}

/-- Nothing falls through. -/
theorem stop_renamed : InStep (Renamed f g kept h top) (Renamed f g kept h top)
    (modify fun e ↦ { e with unreachable := true }) (modify fun e ↦ { e with unreachable := true }) := by
  rintro _ _ ⟨hl, hd⟩
  exact .of_ok rfl rfl (.intro hl hd)

theorem code_renamed (hk : KeepsOwn f g) (hc : SameNames c d) : CodePaired (fun _ _ ↦ True) c d m
    (m.rename f g) f g (· ≠ "") (¬ IsPrivate ·) fun top h ↦ Renamed f g kept h top where
  toOperandsPaired := operands_renamed hk
  names := hc
  compare := compare_renamed hk
  jump hl _ := jump_renamed hk hl
  stop := stop_renamed

/-- An assignment stores the value, or leaves it on the stack if it was told so. -/
theorem assign_renamed (hk : KeepsOwn f g) (hc : SameNames c d) {ty : Ty} {rhs : IR.Instr}
    (hname : name ≠ "") (hx : Named rhs.valueOperands)
    (hkept : ∀ kept', kept = some kept' → kept' = name) (ht : TakesTop top (firstOperand rhs)) :
    InStep (Renamed f g kept 0 top) (Renamed f g none 0 kept) (assign c m (.var name ty) rhs)
      (assign d (m.rename f g) (.var (f name) ty) (rhs.rename f g)) := by
  refine ((code_renamed hk hc).value hx ht).bind fun _ ↦ .get fun e e' hr ↦ ?_
  obtain ⟨hkeep, hkeep'⟩ := hr.keep
  rw [hkeep, hkeep']
  cases kept with
  | none =>
    rw [if_neg (by simpa using hname.symm), if_neg (by simpa using (hk.ne_empty hname).symm)]
    exact storeVar_renamed name
  | some kept =>
    obtain rfl := hkept kept rfl
    obtain ⟨hl, hd⟩ := hr
    rw [if_pos (by simp), if_pos (by simp), named, if_neg hname, named, if_neg (hk.ne_empty hname)]
    exact fun _ _ _ ↦ .of_ok rfl rfl (.intro hl hd)

/-- **An instruction is emitted**: what it leaves on the stack is the temporary that it was told to leave
there. -/
theorem instr_renamed (hk : KeepsOwn f g) (hc : SameNames c d) {x : IR.Instr} (hx : Named x.operands)
    (hl : ∀ label, x.target? = some label → ¬ IsPrivate label)
    (hv : ∀ y, x = .call y → (invocation? y.kind).isSome)
    (hkept : ∀ name, kept = some name → x.defs? = some name) (ht : TakesTop top (firstOperand x)) :
    InStep (Renamed f g kept 0 top) (Renamed f g none 0 kept) (instr c m x)
      (instr d (m.rename f g) (x.rename f g)) := by
  -- nothing is kept of what is no assignment
  have hdone (hdefs : x.defs? = none) (e e' : Emitter) (hr : Renamed f g kept 0 none e e') :
      Renamed f g none 0 kept e e' := by
    obtain rfl := kept_eq_none hkept hdefs
    exact hr
  refine (code_renamed hk hc).instr hx hl ht (fun name ty ty' rhs hassign ↦ ?_)
    (fun y hcall hret e e' hr ↦ ?_) hdone
  · subst hassign
    obtain ⟨hdest, hrhs⟩ := List.forall_mem_cons.1 hx
    refine assign_renamed hk hc (hdest name (by simp)) hrhs (fun kept' h ↦ ?_) ht
    exact (Option.some.inj (hkept kept' h)).symm
  · rw [results, hret, hv y hcall] at hr
    exact hdone (hcall ▸ rfl) e e' hr

/-! ## Methods -/

/-- A label of the method is placed on an empty stack. -/
theorem placeLabel_ok (hz : ZeroDepths e.labelDepths) (hl : ¬ IsPrivate label) (hd : e.depth = 0) :
    ∃ ds, (placeLabel m label).run e = .ok ((), { e with
      lines := e.lines ++ [.label label], unreachable := false, labelDepths := ds }) ∧
        Records e.labelDepths ds := by
  rw [placeLabel_run]
  cases hlookup : e.labelDepths.lookup label with
  | none =>
    dsimp only
    split
    · exact ⟨_, rfl, fun _ _ ↦ rfl, hz⟩
    · rename_i hu
      rw [hd]
      refine ⟨_, ?_, .cons hz hl⟩
      rw [Bool.eq_false_iff.2 hu]
  | some depth =>
    obtain rfl := hz label depth hl hlookup
    dsimp only
    split
    · refine ⟨_, ?_, fun _ _ ↦ rfl, hz⟩
      rw [hd]
    · rename_i hu
      rw [if_neg (by simp [hd])]
      refine ⟨_, ?_, fun _ _ ↦ rfl, hz⟩
      rw [Bool.eq_false_iff.2 hu]

/-- Labels of the method are placed on an empty stack. -/
theorem placeLabels_ok {labels : List Text} (hz : ZeroDepths e.labelDepths)
    (hl : ∀ label ∈ labels, ¬ IsPrivate label) (hd : e.depth = 0) :
    ∃ ds, (labels.forM (placeLabel m)).run e = .ok ((), { e with
      lines := e.lines ++ labels.map .label
      unreachable := e.unreachable && labels.isEmpty
      labelDepths := ds }) ∧ Records e.labelDepths ds := by
  induction labels generalizing e with
  | nil =>
    refine ⟨e.labelDepths, ?_, fun _ _ ↦ rfl, hz⟩
    rw [List.map_nil, List.append_nil, List.isEmpty_nil, Bool.and_true]
    rfl
  | cons label labels ih =>
    obtain ⟨ds, hrun, hds⟩ := placeLabel_ok (m := m) hz (hl label (by simp)) hd
    obtain ⟨ds', hrun', hds'⟩ := ih (e := { e with
      lines := e.lines ++ [.label label], unreachable := false, labelDepths := ds }) hds.zero
      (fun l h ↦ hl l (by simp [h])) hd
    refine ⟨ds', ?_, fun l hp ↦ (hds'.own l hp).trans (hds.own l hp), hds'.zero⟩
    refine (EmitM.run_bind_of_ok hrun).trans (hrun'.trans ?_)
    simp

/-- The labels before an instruction, on an empty stack. -/
theorem placeLabels_renamed (hk : KeepsOwn f g) (hm : ∀ entry ∈ m.labels.entries, ¬ IsPrivate entry.1)
    (i : Int) : InStep (Renamed f g kept 0 none) (Renamed f g kept 0 none)
      ((m.labels.namesAt i).forM (placeLabel m))
      (((m.rename f g).labels.namesAt i).forM (placeLabel (m.rename f g))) := by
  have hperm : ((m.rename f g).labels.namesAt i).Perm ((m.labels.namesAt i).map g) :=
    Labels.namesAt_rename g m.labels i
  have hl : ∀ label ∈ m.labels.namesAt i, ¬ IsPrivate label := fun label hlabel ↦
    hm _ (Labels.mem_namesAt.1 hlabel)
  have hl' : ∀ label ∈ (m.rename f g).labels.namesAt i, ¬ IsPrivate label := by
    intro label hlabel
    obtain ⟨l, hmem, rfl⟩ := List.mem_map.1 (hperm.mem_iff.1 hlabel)
    exact hk.isPrivate_iff.not.2 (hl l hmem)
  intro e e' hr
  obtain ⟨ds, hrun, hds⟩ := placeLabels_ok (m := m) hr.depths.left hl hr.depth.1
  obtain ⟨ds', hrun', hds'⟩ := placeLabels_ok (m := m.rename f g) hr.depths.right hl' hr.depth.2
  rw [namesAt_isEmpty_rename] at hrun'
  obtain ⟨hlines, hd⟩ := hr
  refine .of_ok hrun hrun' (.intro ?_ (hd.record hds hds'))
  rw [List.map_append]
  refine hlines.append ?_
  have hnames : ((m.labels.namesAt i).map Line.label).map (Line.rename g) =
      ((m.labels.namesAt i).map g).map Line.label := by
    rw [List.map_map, List.map_map]
    rfl
  rw [hnames]
  exact .labels hperm.symm

/-- What is asked of a method to be emitted in step with others of its kind. -/
structure Steppable (m : Method) : Prop where
  names : ∀ x ∈ m.code, Named x.operands
  labels : ∀ entry ∈ m.labels.entries, ¬ IsPrivate entry.1
  targets : ∀ x ∈ m.code, ∀ label, x.target? = some label → ¬ IsPrivate label
  calls : ∀ x ∈ m.code, ∀ y, x = .call y → (invocation? y.kind).isSome

/-- After an instruction the stack is as the emitter expects it. -/
theorem checkStack_renamed {i : Nat} {before : Option Text}
    (hne : ∀ name, before = some name → top ≠ some name) :
    InStep (Renamed f g kept 0 top) (Renamed f g kept 0 top) (checkStack m i before)
      (checkStack (m.rename f g) i (before.map f)) := by
  intro e e' hr
  have hleft : Jvm.left (top.map f) = Jvm.left top := by simp [Jvm.left]
  refine .of_ok (checkStack_ok ?_ hr.onStack.1 hne) (checkStack_ok ?_ hr.onStack.2 fun name hname ↦ ?_) hr
  · rw [hr.depth.1, Nat.zero_add]
  · rw [hr.depth.2, Nat.zero_add, hleft]
  · obtain ⟨name, hbefore, rfl⟩ := Option.map_eq_some_iff.1 hname
    exact fun heq ↦ hne name hbefore (Option.map_injective f.injective heq)

/-- The labels before an instruction.  There are none if a temporary is on the stack. -/
theorem labelsBefore_renamed (hk : KeepsOwn f g) (hm : Steppable m) (i : Nat) :
    InStep (Renamed f g kept 0 (leftBefore m i)) (Renamed f g kept 0 (leftBefore m i))
      ((m.labels.namesAt i).forM (placeLabel m))
      (((m.rename f g).labels.namesAt i).forM (placeLabel (m.rename f g))) := by
  cases htop : leftBefore m i with
  | none => exact placeLabels_renamed hk hm.labels i
  | some name =>
    obtain ⟨k, rfl, hstays⟩ := leftBefore_eq_some htop
    have hnames' : (m.rename f g).labels.namesAt (k + 1 : Nat) = [] := by
      rw [← List.isEmpty_iff, namesAt_isEmpty_rename, hstays.unlabelled]
      rfl
    rw [hstays.unlabelled, hnames']
    exact .pure ()

/-- The emitter is told what to leave on the stack. -/
theorem tell_renamed (hk : KeepsOwn f g) {kept : Option Text} (hkept : ∀ name, kept = some name → name ≠ "") :
    InStep (Renamed f g none h top) (Renamed f g kept h top) (tell kept) (tell (kept.map f)) := by
  cases kept with
  | none => exact .pure ()
  | some name =>
    rintro _ _ ⟨hl, hd⟩
    have hname := hkept name rfl
    refine .ok ⟨rfl, ?_⟩
    rw [named, if_neg hname, named, if_neg (hk.ne_empty hname)]
    exact .intro hl hd

/-- **What one instruction keeps**: the two states differ in names only. -/
theorem emitAt_renamed (hk : KeepsOwn f g) (hc : SameNames c d) (hm : Steppable m) {i : Nat} {x : IR.Instr}
    (hx : m.code[i]? = some x) :
    InStep (Renamed f g none 0 (leftBefore m i)) (Renamed f g none 0 (leftBefore m (i + 1)))
      (emitAt c m (stackTemp? m) i x)
      (emitAt d (m.rename f g) (stackTemp? (m.rename f g)) i (x.rename f g)) := by
  have hmem : x ∈ m.code := List.mem_of_getElem? hx
  have hfirst : TakesTop (leftBefore m i) (firstOperand x) := by
    intro name hname
    obtain ⟨k, rfl, hstays⟩ := leftBefore_eq_some hname
    obtain ⟨next, ty, hnext, hfirst⟩ := hstays.read
    rw [Option.some.inj (hx.symm.trans hnext)]
    exact ⟨ty, hfirst⟩
  have hdefs : ∀ name, stackTemp? m i = some name → ∃ ty ty' rhs, x = .assign (.var name ty) ty' rhs := by
    intro name hname
    obtain ⟨ty, ty', rhs, hi⟩ := (stackTemp?_eq_some hname).assigned
    exact ⟨ty, ty', rhs, Option.some.inj (hx.symm.trans hi)⟩
  have htell : InStep (Renamed f g none 0 (leftBefore m i))
      (Renamed f g (stackTemp? m i) 0 (leftBefore m i)) (tell (stackTemp? m i))
      (tell (stackTemp? (m.rename f g) i)) := by
    rw [stackTemp?_rename]
    refine tell_renamed hk fun name hname ↦ ?_
    obtain ⟨ty, ty', rhs, rfl⟩ := hdefs name hname
    exact hm.names _ hmem (.var name ty) (by simp [IR.Instr.operands]) name (by simp)
  refine emitAt_together (fun _ _ _ _ ↦ trivial) (labelsBefore_renamed hk hm i) htell
    (instr_renamed hk hc (hm.names x hmem) (hm.targets x hmem) (hm.calls x hmem) ?_ hfirst) fun e e' hr ↦ ?_
  · intro name hname
    obtain ⟨ty, ty', rhs, rfl⟩ := hdefs name hname
    rfl
  · rw [hr.onStack.1, hr.onStack.2]
    exact checkStack_renamed fun name ↦ stackTemp?_ne_of_leftBefore

/-- **What a run over the code keeps.** -/
theorem emitAll_renamed (hk : KeepsOwn f g) (hc : SameNames c d) (hm : Steppable m) :
    InStep (Renamed f g none 0 (leftBefore m 0)) (Renamed f g none 0 (leftBefore m m.code.length))
      (m.code.zipIdx.forM fun p ↦ emitAt c m (stackTemp? m) p.2 p.1)
      ((m.rename f g).code.zipIdx.forM fun p ↦
        emitAt d (m.rename f g) (stackTemp? (m.rename f g)) p.2 p.1) := by
  have hcode := forM_zipIdx_together (I := fun i ↦ Renamed f g none 0 (leftBefore m i))
    (Q := fun _ _ ↦ True) (F := fun x i ↦ emitAt c m (stackTemp? m) i x)
    (G := fun x i ↦ emitAt d (m.rename f g) (stackTemp? (m.rename f g)) i x)
    (φ := IR.Instr.rename f g) m.code (k := 0) fun i x hx ↦ ?_
  · rwa [Nat.zero_add] at hcode
  · rw [Nat.zero_add]
    exact emitAt_renamed hk hc hm hx

/-- A jump past the end is one by other names too. -/
theorem targetPastEnd?_rename (f g : Equiv.Perm Text) (m : Method) :
    (targetPastEnd? (m.rename f g)).isSome = (targetPastEnd? m).isSome := by
  have hperm : ((m.rename f g).labels.namesAt m.code.length).Perm
      ((m.labels.namesAt m.code.length).map g) := Labels.namesAt_rename g m.labels _
  have hlength : (m.rename f g).code.length = m.code.length := List.length_map _
  have hany (label : Text) : ((m.rename f g).code.any fun x ↦ x.target? = some (g label)) =
      m.code.any fun x ↦ x.target? = some label := by
    rw [Method.rename, List.any_map]
    congr 1
    funext x
    rw [Function.comp_apply, IR.Instr.target?_rename, ← Option.map_some, decide_eq_decide]
    exact (Option.map_injective g.injective).eq_iff
  rw [targetPastEnd?, targetPastEnd?, hlength, Bool.eq_iff_iff, List.find?_isSome, List.find?_isSome]
  constructor
  · rintro ⟨_, hmem, htarget⟩
    obtain ⟨label, hlabel, rfl⟩ := List.mem_map.1 (hperm.mem_iff.1 hmem)
    exact ⟨label, hlabel, (hany label).symm.trans htarget⟩
  · rintro ⟨label, hlabel, htarget⟩
    exact ⟨g label, hperm.mem_iff.2 (List.mem_map_of_mem hlabel), (hany label).trans htarget⟩

/-- Two emitters with the same limits, whose lines are the same but for the names of labels and their
order at one place. -/
structure SameLines (g : Equiv.Perm Text) (e e' : Emitter) : Prop where
  lines : SamePlaces (e.lines.map (Line.rename g)) e'.lines
  maxDepth : e'.maxDepth = e.maxDepth
  slots : e'.slots = e.slots

theorem Renamed.sameLines (hr : Renamed f g kept h top e e') : SameLines g e e' := by
  obtain ⟨hl, -⟩ := hr
  exact ⟨hl, rfl, rfl⟩

/-- **A method is emitted with other names as it is with its own.** -/
theorem emitMethod_rename (hk : KeepsOwn f g) (hc : SameNames c d) (hm : Steppable m) :
    SameSuccess (SameLines g) (emitMethod c m) (emitMethod d (m.rename f g)) := by
  have hstart : Renamed f g none 0 (leftBefore m 0) {} {} :=
    .intro .nil ⟨fun _ _ ↦ rfl, fun _ _ _ hd ↦ (nomatch hd), fun _ _ _ hd ↦ (nomatch hd)⟩
  rw [emitMethod, emitMethod, emitWith, emitWith]
  refine (emitAll_renamed hk hc hm _ _ hstart).sameSuccess.bind ?_
  rintro ⟨_, e⟩ ⟨_, e'⟩ ⟨-, hr⟩
  have hpast := targetPastEnd?_rename f g m
  dsimp only
  cases hleft : targetPastEnd? m with
  | none =>
    rw [hleft, Option.isSome_none, Option.isSome_eq_false_iff, Option.isNone_iff_eq_none] at hpast
    rw [hpast]
    exact .ok hr.sameLines
  | some label =>
    rw [hleft, Option.isSome_some, Option.isSome_iff_exists] at hpast
    obtain ⟨label', hright⟩ := hpast
    rw [hright]
    exact .error _ _

/-! ## Classes -/

/-- **The same assembly but for labels**: two classes have it with the same header, and with the same head
and limits of each method, but the labels in the lines have other names, by `g`, and can stand in another
order where they stand at one place. -/
inductive SameAssembly (g : Equiv.Perm Text) (c d : ClassDef) : Text → Text → Prop
  | intro {es es' : List Emitter} (hc : List.Forall₂ (fun m e ↦ emitMethod c m = .ok e) c.methods es)
      (hd : List.Forall₂ (fun n e ↦ emitMethod d n = .ok e) d.methods es')
      (h : List.Forall₂ (SameLines g) es es') : SameAssembly g c d (assembly c es) (assembly c es')

theorem methodText_rename (hc : SameNames c d) (e : Emitter) :
    methodText d (m.rename f g) e = methodText c m e := by
  rw [methodText, methodText, methodDescriptor, methodDescriptor, hc.descriptor]
  rfl

theorem texts_rename (hc : SameNames c d) {ms ns : List Method}
    (h : List.Forall₂ (fun m n ↦ ∃ f, KeepsOwn f g ∧ Steppable m ∧ n = m.rename f g) ms ns) :
    SameSuccess (fun ts ts' ↦ ∃ es es', List.Forall₂ (fun m e ↦ emitMethod c m = .ok e) ms es ∧
        List.Forall₂ (fun n e ↦ emitMethod d n = .ok e) ns es' ∧ List.Forall₂ (SameLines g) es es' ∧
        ts = List.zipWith (fun m e ↦ "\n" ++ methodText c m e) ms es ∧
        ts' = List.zipWith (fun m e ↦ "\n" ++ methodText c m e) ms es')
      (ms.mapM fun m ↦ do
        let e ← withinPlace s!"method {m.name}" (emitMethod c m)
        return "\n" ++ methodText c m e)
      (ns.mapM fun n ↦ do
        let e ← withinPlace s!"method {n.name}" (emitMethod d n)
        return "\n" ++ methodText d n e) := by
  induction h with
  | nil => exact .ok ⟨[], [], .nil, .nil, .nil, rfl, rfl⟩
  | @cons m _ ms ns hmn _ ih =>
    obtain ⟨f, hk, hm, rfl⟩ := hmn
    rw [List.mapM_cons, List.mapM_cons, bind_assoc, bind_assoc]
    refine ((emitMethod_rename hk hc hm).with_eq.withinPlace _ _).bind ?_
    rintro e e' ⟨he, he', hsame⟩
    rw [pure_bind, pure_bind]
    refine ih.bind ?_
    rintro _ _ ⟨es, es', hes, hes', hall, rfl, rfl⟩
    refine .ok ⟨e :: es, e' :: es', .cons he hes, .cons he' hes', .cons hsame hall, rfl, ?_⟩
    rw [methodText_rename hc]
    rfl

/-- **A class is assembled with other names as it is with its own.** -/
theorem assemble_rename (c : ClassDef) {ms ns : List Method}
    (h : List.Forall₂ (fun m n ↦ ∃ f, KeepsOwn f g ∧ Steppable m ∧ n = m.rename f g) ms ns) :
    SameSuccess (SameAssembly g { c with methods := ms } { c with methods := ns })
      (assemble { c with methods := ms }) (assemble { c with methods := ns }) := by
  rw [assemble, assemble]
  refine (texts_rename (sameNames_methods c ms ns) h).bind ?_
  rintro _ _ ⟨es, es', hes, hes', hall, rfl, rfl⟩
  rw [headerText_methods c ns, ← headerText_methods c ms]
  have hsame := SameAssembly.intro hes hes' hall
  rw [assembly_eq, assembly_eq] at hsame
  exact .ok hsame

end

end Jvm

end MiniJava
