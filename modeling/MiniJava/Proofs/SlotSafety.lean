import MiniJava.Proofs.Numbering

/-!
# Slots never clobber

The allocation of a checked method succeeds, and along every path a variable is read from a slot that
was last written for it: `allocation_never_clobbers`.

The slots of the receiver and of the parameters are given first, one after another, and the strategy
numbers the other variables above them.  So two variables share a slot only if the strategy gives both
of them one number, and `Separates` says that it does not do so when one is written while the other is
still wanted.
-/

set_option autoImplicit false

namespace MiniJava

open IR

namespace IR.Method

/-- The variable table of a method as lowering builds it: the receiver exactly in an instance method,
each parameter once, and otherwise locals and temporaries. -/
structure StandardTable (m : Method) : Prop where
  receiver : m.isStatic = false → ∃ x, m.vars.get? receiver = some x ∧ x.kind = .this
  ofThis : ∀ x ∈ m.vars.vars, x.kind = .this → x.name = Method.receiver ∧ m.isStatic = false
  nodup : (m.params.map Param.name).Nodup
  param : ∀ p ∈ m.params, ∃ x, m.vars.get? p.name = some x ∧ x.kind = .param
  ofParam : ∀ x ∈ m.vars.vars, x.kind = .param → ∃ p ∈ m.params, p.name = x.name
  known : ∀ x ∈ m.vars.vars, x.kind ≠ .unknown

/-- The slot of the first parameter. -/
def firstParam (m : Method) : Nat := if m.isStatic then 0 else 1

theorem reserved_eq (m : Method) : m.reserved = m.firstParam + m.params.length := by
  rw [reserved, firstParam, Nat.add_comm]

/-- The slot of a variable that has one. -/
def slot? (m : Method) (v : Text) : Option Nat :=
  (m.vars.get? v).bind fun x ↦ if 0 ≤ x.reg then some x.reg.toNat else none

theorem slot?_eq_some {m : Method} {v : Text} {x : Variable} {n : Nat}
    (hx : m.vars.get? v = some x) (hr : x.reg = n) : m.slot? v = some n := by
  rw [slot?, hx, Option.bind_some, hr, if_pos (Int.natCast_nonneg n), Int.toNat_natCast]

/-- On a path that goes on with the instructions of `after`, the instruction at `i` is the last one
that writes a variable with a property. -/
def WritesLast (m : Method) (P : Text → Prop) (i : Nat) (after : List Nat) : Prop :=
  (∃ w, m.defAt i = some w ∧ P w) ∧ ∀ j ∈ after, ∀ w, m.defAt j = some w → ¬ P w

end IR.Method

namespace Allocation

variable {t : VarTable} {v : Text} {slot : Nat} {m : Method}

/-! ## The slots in front -/

/-- The slots of the parameters of a list, one after another. -/
def setParams (t : VarTable) : List Param → Nat → VarTable
  | [], _ => t
  | p :: rest, slot => setParams (t.setReg p.name slot) rest (slot + 1)

theorem mapReg_mapReg (t : VarTable) (f g : Variable → Int) :
    (t.mapReg f).mapReg g = t.mapReg fun v ↦ g { v with reg := f v } := by
  simp [VarTable.mapReg]

theorem contains_mapReg (t : VarTable) (f : Variable → Int) (v : Text) :
    (t.mapReg f).contains v = t.contains v := by
  rw [Bool.eq_iff_iff, VarTable.contains_iff, VarTable.contains_iff]
  simp [VarTable.mapReg]

theorem exists_setParams_eq (ps : List Param) (t : VarTable) (slot : Nat) :
    ∃ f, setParams t ps slot = t.mapReg f := by
  induction ps generalizing t slot with
  | nil => exact ⟨Variable.reg, by simp [setParams, VarTable.mapReg]⟩
  | cons p ps ih =>
    obtain ⟨f, hf⟩ := ih (t.setReg p.name slot) (slot + 1)
    exact ⟨_, by rw [setParams, hf, VarTable.setReg, mapReg_mapReg]⟩

theorem get?_setReg_of_ne {a : Text} {reg : Int} (h : v ≠ a) : (t.setReg a reg).get? v = t.get? v := by
  rw [VarTable.get?_setReg]
  cases hx : t.get? v with
  | none => rfl
  | some x =>
    have hname := (VarTable.get?_eq_some_iff.1 hx).2
    rw [Option.map_some, if_neg]
    rwa [beq_iff_eq, hname]

theorem get?_setReg_self {reg : Int} {x : Variable} (hx : t.get? v = some x) :
    (t.setReg v reg).get? v = some { x with reg } := by
  have hname := (VarTable.get?_eq_some_iff.1 hx).2
  rw [VarTable.get?_setReg, hx, Option.map_some, if_pos]
  rw [beq_iff_eq, hname]

variable {ps : List Param} {s : Strategy}

theorem get?_setParams_of_not_mem (h : v ∉ ps.map Param.name) :
    (setParams t ps slot).get? v = t.get? v := by
  induction ps generalizing t slot with
  | nil => rfl
  | cons p ps ih =>
    rw [List.map_cons, List.mem_cons, not_or] at h
    rw [setParams, ih h.2, get?_setReg_of_ne h.1]

theorem get?_setParams (hn : (ps.map Param.name).Nodup) {i : Nat} {p : Param} (hp : ps[i]? = some p)
    {x : Variable} (hx : t.get? p.name = some x) :
    (setParams t ps slot).get? p.name = some { x with reg := ((slot + i : Nat) : Int) } := by
  induction ps generalizing t slot i x with
  | nil => simp at hp
  | cons q ps ih =>
    rw [List.map_cons, List.nodup_cons] at hn
    rw [setParams]
    cases i with
    | zero =>
      rw [List.getElem?_cons_zero, Option.some.injEq] at hp
      subst hp
      rw [get?_setParams_of_not_mem hn.1, get?_setReg_self hx, Nat.add_zero]
    | succ i =>
      rw [List.getElem?_cons_succ] at hp
      have hne : p.name ≠ q.name := by
        intro h
        exact hn.1 (h ▸ List.mem_map.2 ⟨p, List.mem_of_getElem? hp, rfl⟩)
      rw [ih hn.2 hp (by rw [get?_setReg_of_ne hne]; exact hx), Nat.add_right_comm, Nat.add_assoc]

/-! ## Steps of an allocation -/

theorem run_bind {α β : Type} {x : Step α} {f : α → Step β} {m' : Method} {a : α}
    (h : x.run m = (.ok a, m')) : (x >>= f).run m = (f a).run m' := by
  have hb : (x >>= f).run m = (ExceptT.bindCont f (x.run m).1 : StateM Method _) (x.run m).2 := rfl
  rw [hb, h]
  rfl

theorem run_place {name : Text} {missing : Defect} (h : m.vars.contains name = true) :
    (place name slot missing).run m = (.ok (), { m with vars := m.vars.setReg name slot }) := by
  have hp : (place name slot missing).run m = (if m.vars.contains name then
      set { m with vars := m.vars.setReg name slot } else throw (.defect missing) : Step Unit).run m :=
    rfl
  rw [hp, if_pos h]
  rfl

theorem run_placeParams {name : Text} (h : ∀ p ∈ ps, m.vars.contains p.name = true) :
    (placeParams name ps slot).run m = (.ok (), { m with vars := setParams m.vars ps slot }) := by
  induction ps generalizing m slot with
  | nil => rfl
  | cons p ps ih =>
    rw [placeParams, run_bind (run_place (h p (by simp))), ih]
    · rfl
    · intro q hq
      exact (contains_mapReg _ _ _).trans (h q (by simp [hq]))

/-- The variables of a method once the receiver and the parameters have their slots. -/
def fixedVars (m : Method) : VarTable :=
  setParams (if m.isStatic then m.vars else m.vars.setReg Method.receiver 0) m.params m.firstParam

/-- The register of a variable by the numbers of a strategy. -/
def freeReg (m : Method) (numbers : List (Text × Nat)) (v : Variable) : Int :=
  match numbers.lookup v.name with
  | some n => if isFree v then n + m.reserved else v.reg
  | none => v.reg

theorem exists_fixedVars_eq (m : Method) : ∃ f, fixedVars m = m.vars.mapReg f := by
  rw [fixedVars]
  split
  · exact exists_setParams_eq _ _ _
  · obtain ⟨f, hf⟩ := exists_setParams_eq m.params (m.vars.setReg Method.receiver 0) m.firstParam
    exact ⟨_, by rw [hf, VarTable.setReg, mapReg_mapReg]⟩

theorem run_placeReceiver (ht : m.StandardTable) : placeReceiver.run m = (.ok (), { m with
      vars := if m.isStatic then m.vars else m.vars.setReg Method.receiver 0 }) := by
  have hp : placeReceiver.run m = (if m.isStatic then pure ()
      else place Method.receiver 0 (.noReceiverVariable m.name) : Step Unit).run m := rfl
  rw [hp]
  by_cases hs : m.isStatic = true
  · rw [if_pos hs, if_pos hs]
    rfl
  · rw [if_neg hs, if_neg hs, run_place]
    · rfl
    · exact VarTable.contains_iff_get?.2
        ((ht.receiver (Bool.eq_false_iff.2 hs)).imp fun _ hx ↦ hx.1)

theorem run_placeFree {numbers : List (Text × Nat)} (hn : numbering m s = .ok numbers) :
    (placeFree s).run m = (.ok (), { m with vars := m.vars.mapReg (freeReg m numbers) }) := by
  have hp : (placeFree s).run m = (do
      let numbers ← numbering m s
      set { m with vars := m.vars.mapReg (freeReg m numbers) } : Step Unit).run m := rfl
  rw [hp, hn]
  rfl

/-- The strategy is asked once the receiver and the parameters have their slots. -/
theorem run_eq_placeFree (ht : m.StandardTable) (s : Strategy) :
    run s m = (placeFree s).run { m with vars := fixedVars m } := by
  have hparams : ∀ p ∈ m.params,
      (if m.isStatic then m.vars else m.vars.setReg Method.receiver 0).contains p.name = true := by
    intro p hp
    have hmem := VarTable.contains_iff_get?.2 ((ht.param p hp).imp fun _ hx ↦ hx.1)
    split
    · exact hmem
    · exact (contains_mapReg _ _ _).trans hmem
  have ha : run s m = (do
      placeReceiver
      placeParams m.name m.params m.firstParam
      placeFree s : Step Unit).run m := rfl
  rw [ha, run_bind (run_placeReceiver ht), run_bind (run_placeParams hparams)]
  rfl

/-- What an allocation makes of a method, once the strategy has its numbers. -/
theorem method_eq_ok {numbers : List (Text × Nat)} (ht : m.StandardTable)
    (hn : numbering { m with vars := fixedVars m } s = .ok numbers) :
    method s m = .ok { m with vars := (fixedVars m).mapReg (freeReg m numbers) } := by
  rw [method, run_eq_placeFree ht, run_placeFree hn]
  rfl

/-! ## What is in the table afterwards -/

section
variable {m : Method} (ht : m.StandardTable)
include ht

theorem get?_fixedVars_receiver (hs : m.isStatic = false) :
    ∃ x, (fixedVars m).get? Method.receiver = some x ∧ x.kind = .this ∧ x.reg = 0 := by
  obtain ⟨x, hx, hk⟩ := ht.receiver hs
  refine ⟨{ x with reg := 0 }, ?_, hk, rfl⟩
  rw [fixedVars, get?_setParams_of_not_mem, hs, if_neg Bool.false_ne_true, get?_setReg_self hx]
  -- a parameter of that name would have the receiver's variable, which is of another kind
  intro hmem
  obtain ⟨p, hp, hname⟩ := List.mem_map.1 hmem
  obtain ⟨y, hy, hky⟩ := ht.param p hp
  rw [hname, hx] at hy
  cases hy
  rw [hk] at hky
  cases hky

theorem get?_fixedVars_param {i : Nat} {p : Param} (hp : m.params[i]? = some p) :
    ∃ x, (fixedVars m).get? p.name = some x ∧ x.kind = .param ∧
      x.reg = (m.firstParam + i : Nat) := by
  obtain ⟨x, hx, hk⟩ := ht.param p (List.mem_of_getElem? hp)
  refine ⟨{ x with reg := ((m.firstParam + i : Nat) : Int) }, ?_, hk, rfl⟩
  by_cases hs : m.isStatic = true
  · rw [fixedVars, if_pos hs, get?_setParams ht.nodup hp hx]
  · have hget : (m.vars.setReg Method.receiver 0).get? p.name = _ := VarTable.get?_setReg
    rw [hx, Option.map_some] at hget
    rw [fixedVars, if_neg hs, get?_setParams ht.nodup hp hget]

theorem get?_fixedVars_free {x : Variable} (hx : m.vars.get? v = some x) (hf : isFree x = true) :
    (fixedVars m).get? v = some x := by
  have hne : x.kind ≠ .this ∧ x.kind ≠ .param := by
    constructor <;> intro h <;> simp [isFree, h] at hf
  rw [fixedVars, get?_setParams_of_not_mem]
  · by_cases hs : m.isStatic = true
    · rw [if_pos hs, hx]
    · rw [if_neg hs, get?_setReg_of_ne, hx]
      rintro rfl
      obtain ⟨y, hy, hk⟩ := ht.receiver (Bool.eq_false_iff.2 hs)
      rw [hx] at hy
      cases hy
      exact hne.1 hk
  · intro hmem
    obtain ⟨p, hp, rfl⟩ := List.mem_map.1 hmem
    obtain ⟨y, hy, hk⟩ := ht.param p hp
    rw [hx] at hy
    cases hy
    exact hne.2 hk

/-- A variable of the table is the receiver, a parameter, or left to the strategy. -/
theorem cases_of_contains (hv : m.vars.contains v = true) : (v = Method.receiver ∧ m.isStatic = false) ∨
      (∃ (i : Nat) (p : Param), m.params[i]? = some p ∧ p.name = v) ∨ IsFree m v := by
  obtain ⟨x, hx⟩ := VarTable.contains_iff_get?.1 hv
  obtain ⟨hmem, rfl⟩ := VarTable.get?_eq_some_iff.1 hx
  cases hk : x.kind with
  | this => exact .inl (ht.ofThis x hmem hk)
  | param =>
    obtain ⟨p, hp, hname⟩ := ht.ofParam x hmem hk
    obtain ⟨i, hi⟩ := List.mem_iff_getElem?.1 hp
    exact .inr (.inl ⟨i, p, hi, hname⟩)
  | declared => exact .inr (.inr ⟨x, hx, by simp [isFree, hk]⟩)
  | temp => exact .inr (.inr ⟨x, hx, by simp [isFree, hk]⟩)
  | unknown => exact absurd hk (ht.known x hmem)

end

/-! ## Slots -/

/-- A change of registers changes neither what is checked nor what is left to the strategy. -/
theorem check_mapReg (hc : m.check = .ok ()) (f : Variable → Int) :
    { m with vars := m.vars.mapReg f }.check = .ok () := by
  refine Method.check_eq_ok_iff.2 fun i x hx ↦ Method.checkInstr_eq_ok_iff.2 ?_
  simp only [contains_mapReg]
  exact Method.checkInstr_eq_ok_iff.1 (Method.check_eq_ok_iff.1 hc i x hx)

theorem IsFree.mapReg (h : IsFree m v) (f : Variable → Int) :
    IsFree { m with vars := m.vars.mapReg f } v := by
  obtain ⟨x, hx, hf⟩ := h
  exact ⟨{ x with reg := f x }, by rw [VarTable.get?_mapReg, hx]; rfl, hf⟩

/-- The slots of a method keep its variables apart: `m` is the method before the allocation and `m'`
the one after it. -/
structure SafeSlots (m m' : Method) : Prop where
  /-- Only registers have changed. -/
  same : ∃ reg, m' = { m with vars := m.vars.mapReg reg }
  receiver : m.isStatic = false → m'.slot? Method.receiver = some 0
  param : ∀ (i : Nat) (p : Param), m.params[i]? = some p → m'.slot? p.name = some (m.firstParam + i)
  given : ∀ v, m.Names v → ∃ n, m'.slot? v = some n
  above : ∀ v n, IsFree m v → m.Names v → m'.slot? v = some n → m.reserved ≤ n
  /-- On a path to an instruction that reads a variable, the last write to its slot was a write to
  the variable. -/
  noClobber : ∀ before i after k x v, m.Path 0 (before ++ i :: after) k → m.code[k]? = some x →
    v ∈ x.uses → m.WritesLast (fun w ↦ m'.slot? w = m'.slot? v) i after →
    m.WritesLast (fun w ↦ w = v) i after

section
variable {m : Method} {numbers : List (Text × Nat)}

/-- The method with the slots that come from some numbers. -/
def withNumbers (m : Method) (numbers : List (Text × Nat)) : Method :=
  { m with vars := (fixedVars m).mapReg (freeReg m numbers) }

theorem slot?_of_fixed {x : Variable} {n : Nat} (hx : (fixedVars m).get? v = some x)
    (hf : isFree x = false) (hr : x.reg = n) : (withNumbers m numbers).slot? v = some n := by
  have hget : (withNumbers m numbers).vars.get? v = some { x with reg := freeReg m numbers x } := by
    rw [withNumbers, VarTable.get?_mapReg, hx, Option.map_some]
  refine Method.slot?_eq_some hget ?_
  rw [freeReg, hf, ← hr]
  cases numbers.lookup x.name <;> simp

variable (ht : m.StandardTable)
include ht

theorem slot?_receiver (hs : m.isStatic = false) :
    (withNumbers m numbers).slot? Method.receiver = some 0 := by
  obtain ⟨x, hx, hk, hr⟩ := get?_fixedVars_receiver ht hs
  exact slot?_of_fixed hx (by simp [isFree, hk]) hr

theorem slot?_param {i : Nat} {p : Param} (hp : m.params[i]? = some p) :
    (withNumbers m numbers).slot? p.name = some (m.firstParam + i) := by
  obtain ⟨x, hx, hk, hr⟩ := get?_fixedVars_param ht hp
  exact slot?_of_fixed hx (by simp [isFree, hk]) hr

theorem slot?_free (hv : IsFree m v) {n : Nat} (hn : numbers.lookup v = some n) :
    (withNumbers m numbers).slot? v = some (n + m.reserved) := by
  obtain ⟨x, hx, hf⟩ := hv
  have hname := (VarTable.get?_eq_some_iff.1 hx).2
  have hget : (withNumbers m numbers).vars.get? v = some { x with reg := freeReg m numbers x } := by
    rw [withNumbers, VarTable.get?_mapReg, get?_fixedVars_free ht hx hf, Option.map_some]
  refine Method.slot?_eq_some hget ?_
  simp [freeReg, hname, hn, hf]

/-- A variable that the strategy does not number has one of the slots in front, and no other variable
has the same. -/
theorem slot?_of_not_free (hv : m.vars.contains v = true) (hf : ¬ IsFree m v) :
    ∃ n < m.reserved, (withNumbers m numbers).slot? v = some n ∧
      ∀ w, m.vars.contains w = true → ¬ IsFree m w →
        (withNumbers m numbers).slot? w = some n → w = v := by
  have hfirst : m.isStatic = false → m.firstParam = 1 := fun hs ↦ by simp [Method.firstParam, hs]
  rcases cases_of_contains ht hv with ⟨rfl, hs⟩ | ⟨i, p, hp, rfl⟩ | h
  · refine ⟨0, by rw [Method.reserved_eq, hfirst hs]; omega, slot?_receiver ht hs, ?_⟩
    intro w hw hfw hslot
    rcases cases_of_contains ht hw with ⟨rfl, -⟩ | ⟨j, q, hq, rfl⟩ | h
    · rfl
    · rw [slot?_param ht hq, hfirst hs] at hslot
      simp at hslot
    · exact absurd h hfw
  · have hi := (List.getElem?_eq_some_iff.1 hp).1
    refine ⟨m.firstParam + i, by rw [Method.reserved_eq]; omega, slot?_param ht hp, ?_⟩
    intro w hw hfw hslot
    rcases cases_of_contains ht hw with ⟨rfl, hs⟩ | ⟨j, q, hq, rfl⟩ | h
    · rw [slot?_receiver ht hs, hfirst hs, Option.some.injEq] at hslot
      omega
    · rw [slot?_param ht hq, Option.some.injEq, Nat.add_left_cancel_iff] at hslot
      subst hslot
      rw [Option.some.inj (hp.symm.trans hq)]
    · exact absurd h hfw
  · exact absurd h hf

/-- Two variables that the numbers keep apart do not share a slot. -/
theorem eq_of_slot?_eq (hc : m.check = .ok ()) (hn : Separates m numbers) {w : Text}
    (hclash : m.Clash w v) (h : (withNumbers m numbers).slot? w = (withNumbers m numbers).slot? v) :
    w = v := by
  have hw := hclash.names_left
  have hv := hclash.names_right
  by_cases hfw : IsFree m w
  · obtain ⟨a, ha⟩ := hn.given hfw hw
    rw [slot?_free ht hfw ha] at h
    by_cases hfv : IsFree m v
    · obtain ⟨b, hb⟩ := hn.given hfv hv
      rw [slot?_free ht hfv hb, Option.some.injEq] at h
      by_contra hne
      exact hn.apart hfw hfv hne hclash (by rw [ha, hb]; congr 1; omega)
    · obtain ⟨b, hlt, hb, -⟩ := slot?_of_not_free ht (hv.contains hc) hfv
      rw [hb, Option.some.injEq] at h
      omega
  · obtain ⟨a, hlt, ha, huniq⟩ := slot?_of_not_free ht (hw.contains hc) hfw
    rw [ha] at h
    by_cases hfv : IsFree m v
    · obtain ⟨b, hb⟩ := hn.given hfv hv
      rw [slot?_free ht hfv hb, Option.some.injEq] at h
      omega
    · exact (huniq v (hv.contains hc) hfv h.symm).symm

/-- Numbers that keep the variables apart give safe slots. -/
theorem safeSlots_withNumbers (hc : m.check = .ok ()) (hn : Separates m numbers) :
    SafeSlots m (withNumbers m numbers) where
  same := by
    obtain ⟨f, hf⟩ := exists_fixedVars_eq m
    exact ⟨_, by rw [withNumbers, hf, mapReg_mapReg]⟩
  receiver := slot?_receiver ht
  param := fun _ _ hp ↦ slot?_param ht hp
  given := by
    intro v hv
    by_cases hf : IsFree m v
    · obtain ⟨n, hl⟩ := hn.given hf hv
      exact ⟨_, slot?_free ht hf hl⟩
    · obtain ⟨n, -, hslot, -⟩ := slot?_of_not_free ht (hv.contains hc) hf
      exact ⟨n, hslot⟩
  above := by
    intro v n hf hv hslot
    obtain ⟨k, hl⟩ := hn.given hf hv
    rw [slot?_free ht hf hl, Option.some.injEq] at hslot
    omega
  noClobber := by
    rintro before i after k x v hp hx hv ⟨⟨w, hd, hslot⟩, hafter⟩
    -- nothing after `i` writes the slot of `v`, so nothing there writes `v`, which is live after `i`
    have hlast : ∀ j ∈ after, m.defAt j ≠ some v := fun j hj hj' ↦ hafter j hj v hj' rfl
    obtain ⟨n, hnext, hrest⟩ := hp.split
    have hlive : m.Live v n := hrest.live hlast (.use hx hv)
    have hwv := eq_of_slot?_eq ht hc hn ⟨i, n, hd, hnext, hlive⟩ hslot
    refine ⟨⟨w, hd, hwv⟩, ?_⟩
    rintro j hj w' hj' rfl
    exact hlast j hj hj'

end

/-- An allocation succeeds, and its slots come from numbers that keep the variables apart. -/
theorem exists_withNumbers (hs : Known s) (hc : m.check = .ok ()) (ht : m.StandardTable) :
    ∃ numbers, method s m = .ok (withNumbers m numbers) ∧ Separates m numbers := by
  obtain ⟨f, hf⟩ := exists_fixedVars_eq m
  obtain ⟨numbers, hnum, hsep⟩ := numbering_spec hs (check_mapReg hc f)
  refine ⟨numbers, method_eq_ok ht (hf ▸ hnum), ?_, ?_⟩
  · exact fun hv hnames ↦ hsep.given (hv.mapReg f) hnames
  · rintro w v hw hv hne ⟨i, k, hd, hnext, hlive⟩
    refine hsep.apart (hw.mapReg f) (hv.mapReg f) hne ⟨i, k, hd, ?_, ?_⟩
    · exact hnext.congr (by rfl) (by rfl)
    · exact hlive.congr (by rfl) (by rfl)

/-- **An allocation succeeds and no variable clobbers another.** -/
theorem allocation_never_clobbers {s : Strategy} {m : Method} (hs : Known s)
    (hc : m.check = .ok ()) (ht : m.StandardTable) :
    ∃ m', method s m = .ok m' ∧ SafeSlots m m' := by
  obtain ⟨numbers, hm, hsep⟩ := exists_withNumbers hs hc ht
  exact ⟨_, hm, safeSlots_withNumbers ht hc hsep⟩

/-- A method that adds up the numbers from its parameter down, in a loop. -/
def sumDown : Method where
  name := "sumDown"
  params := [⟨"n", .int⟩]
  ret := .int
  code := [
    .assign (.var "sum" .int) .int (.single (.literal "0" .int)),
    .assign (.var "t_0" .int) .int (.binary .add (.var "sum" .int) (.var "n" .int) .int),
    .assign (.var "sum" .int) .int (.single (.var "t_0" .int)),
    .assign (.var "n" .int) .int (.binary .sub (.var "n" .int) (.literal "1" .int) .int),
    .branch (.binary .lt (.literal "0" .int) (.var "n" .int) .bool) "again",
    .ret (.var "sum" .int) .int]
  labels := ⟨[("again", 1)], by decide⟩
  vars := ⟨[⟨"this", .receiver "Sums", .this, -1⟩, ⟨"n", .int, .param, -1⟩,
    ⟨"sum", .int, .declared, -1⟩, ⟨"t_0", .int, .temp, -1⟩], by decide⟩

theorem sumDown_standardTable : sumDown.StandardTable where
  receiver := fun _ ↦ ⟨_, rfl, rfl⟩
  ofThis := by decide
  nodup := by decide
  param := List.forall_mem_singleton.2 ⟨_, rfl, rfl⟩
  ofParam := by decide
  known := by decide

theorem sumDown_never_clobbers :
    Known .ranges ∧ sumDown.check = .ok () ∧ sumDown.StandardTable ∧
      ∃ m', method .ranges sumDown = .ok m' ∧ SafeSlots sumDown m' :=
  ⟨.inl rfl, by decide, sumDown_standardTable,
    allocation_never_clobbers (.inl rfl) (by decide) sumDown_standardTable⟩

end Allocation

end MiniJava
