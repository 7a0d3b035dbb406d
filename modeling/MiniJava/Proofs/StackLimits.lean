import MiniJava.Proofs.ControlFlow
import MiniJava.Proofs.StackDepth
import MiniJava.Proofs.Tables

/-!
# The limits that a class prints

The assembly of a method prints two limits, for the depth of the stack and for the number of slots.
`printed_limits_are_safe` says that they are safe on every path through the lines of the method, with
the effect of each instruction read off its line (`Instr.use?`): there are always enough words on the
stack, never more than the limit, always the same number at the same line, and none after a return.

The emitter counts a depth of its own.  Where a label stands in code that nothing falls into, that
count can be more than the depth on any path; it is never less (`Flows.sync`).  Since the emitter finds
the stack empty after each instruction by its own count, it is empty there on every path.
-/

set_option autoImplicit false

namespace MiniJava

open IR

namespace Jvm

variable {name : Text} {labels : Text → Nat} {live : Bool} {e : Emitter}

/-! ## Paths -/

/-- A path from the first line, with an empty stack, arrives at a line with a depth. -/
inductive Reaches (lines : List Line) : Nat → Int → Prop
  | start : Reaches lines 0 0
  | label {p : Nat} {d : Int} {name : Text} (h : Reaches lines p d)
      (hl : lines[p]? = some (.label name)) : Reaches lines (p + 1) d
  | fall {p : Nat} {d : Int} {i : Instr} {u : StackUse} (h : Reaches lines p d)
      (hl : lines[p]? = some (.instr i)) (hu : i.use? = some u) (hf : i.fallsThrough = true) :
      Reaches lines (p + 1) (d - u.pops + u.pushes)
  | jump {p q : Nat} {d : Int} {i : Instr} {u : StackUse} {name : Text} (h : Reaches lines p d)
      (hl : lines[p]? = some (.instr i)) (hu : i.use? = some u) (ht : i.target? = some name)
      (hq : lines[q]? = some (.label name)) : Reaches lines q (d - u.pops + u.pushes)

/-- The lines of a method keep within limits on every path. -/
structure WithinLimits (lines : List Line) (stack locals : Nat) : Prop where
  /-- An instruction finds its operands on the stack and has room for its results. -/
  use : ∀ p d i, Reaches lines p d → lines[p]? = some (.instr i) →
    ∃ u, i.use? = some u ∧ 0 ≤ d - u.pops ∧ d - u.pops + u.pushes ≤ stack
  depth : ∀ p d, Reaches lines p d → 0 ≤ d ∧ d ≤ stack
  same : ∀ p d d', Reaches lines p d → Reaches lines p d' → d = d'
  ret : ∀ p d i u, Reaches lines p d → lines[p]? = some (.instr i) → i.isReturn = true →
    i.use? = some u → d - u.pops + u.pushes = 0
  slot : ∀ i slot, Line.instr i ∈ lines → i.slot? = some slot → slot < locals

/-! ## The count of the emitter -/

/-- The depth on a path, and what the emitter counts. -/
structure Sync (labels : Text → Nat) (live : Bool) (depth : Nat) (t : Tracker) : Prop where
  live : live = !t.unreachable
  depth : depth ≤ t.depth
  labels : ∀ name d, t.labelDepths.lookup name = some d → labels name ≤ d
  max : t.depth ≤ t.maxDepth
  labelsMax : ∀ name d, t.labelDepths.lookup name = some d → d ≤ t.maxDepth

theorem lookup_cons_cases {name' : Text} {d d' : Nat} {ds : List (Text × Nat)}
    (h : ((name, d) :: ds).lookup name' = some d') :
    name' = name ∧ d' = d ∨ ds.lookup name' = some d' := by
  rw [List.lookup_cons] at h
  cases hname : name' == name with
  | true =>
    rw [hname] at h
    exact .inl ⟨eq_of_beq hname, (Option.some.inj h).symm⟩
  | false =>
    rw [hname] at h
    exact .inr h

namespace Sync

variable {depth : Nat} {t t' : Tracker}

/-- A label that is not deeper than the count is recorded with the count. -/
theorem cons (h : Sync labels live depth t) (hle : labels name ≤ t.depth) :
    Sync labels live depth { t with labelDepths := (name, t.depth) :: t.labelDepths } := by
  refine ⟨h.live, h.depth, fun name' d hd ↦ ?_, h.max, fun name' d hd ↦ ?_⟩
  · rcases lookup_cons_cases hd with ⟨rfl, rfl⟩ | hd
    · exact hle
    · exact h.labels _ _ hd
  · rcases lookup_cons_cases hd with ⟨rfl, rfl⟩ | hd
    · exact h.max
    · exact h.labelsMax _ _ hd

theorem record (h : Sync labels live depth t) (hle : labels name ≤ depth)
    (ht : t.record name = some t') : Sync labels live depth t' ∧ t'.maxDepth = t.maxDepth := by
  rw [Tracker.record] at ht
  split at ht
  · split at ht
    · cases ht
      exact ⟨h, rfl⟩
    · cases ht
  · cases ht
    exact ⟨h.cons (Nat.le_trans hle h.depth), rfl⟩

theorem after (h : Sync labels live depth t) {i : Instr} {u : StackUse} (hu : Counted i u)
    (hp : u.pops ≤ depth) :
    Sync labels (live && i.fallsThrough) (depth - u.pops + u.pushes) (t.after i) := by
  have hdepth := h.depth
  have he := hu.2
  refine ⟨?_, ?_, h.labels, Nat.le_max_right _ _, fun name d hd ↦ ?_⟩
  · simp [Tracker.after, h.live]
  · simp only [Tracker.after]
    omega
  · exact Nat.le_trans (h.labelsMax name d hd) (Nat.le_max_left _ _)

/-- At a label the count goes on, or starts again with what was recorded there. -/
theorem label (h : Sync labels live depth t) (hle : labels name ≤ depth)
    (ht : t.label name = some t') :
    Sync labels true (labels name) t' ∧ t'.maxDepth = t.maxDepth := by
  have hcount : labels name ≤ t.depth := Nat.le_trans hle h.depth
  rw [Tracker.label] at ht
  split at ht
  · rename_i d hd
    split at ht
    · cases ht
      exact ⟨⟨rfl, h.labels _ _ hd, h.labels, h.labelsMax _ _ hd, h.labelsMax⟩, rfl⟩
    · rename_i hu
      split at ht
      · cases ht
        exact ⟨⟨by simp [hu], hcount, h.labels, h.max, h.labelsMax⟩, rfl⟩
      · cases ht
  · split at ht
    · cases ht
      exact ⟨⟨rfl, hcount, h.labels, h.max, h.labelsMax⟩, rfl⟩
    · rename_i hu
      cases ht
      have hhere : Sync labels true (labels name) t :=
        ⟨by simp [hu], hcount, h.labels, h.max, h.labelsMax⟩
      exact ⟨hhere.cons hcount, rfl⟩

end Sync

theorem LineFlow.sync {live' : Bool} {depth depth' : Nat} {l : Line} {t t' : Tracker}
    (h : LineFlow labels live depth l live' depth') (hs : Sync labels live depth t)
    (ht : t.line l = some t') : Sync labels live' depth' t' ∧ t.maxDepth ≤ t'.maxDepth := by
  cases h with
  | label hlive hle =>
    obtain ⟨hs', hmax⟩ := hs.label hle ht
    exact ⟨hs', Nat.le_of_eq hmax.symm⟩
  | @instr i u hu hp htarget hret =>
    have hafter := hs.after hu hp
    have hmax : t.maxDepth ≤ (t.after i).maxDepth := Nat.le_max_left _ _
    rw [Tracker.line, Tracker.instr] at ht
    split at ht
    · cases ht
    · split at ht
      · rename_i name hname
        obtain ⟨hs', heq⟩ := hafter.record (htarget name hname).1 ht
        exact ⟨hs', heq ▸ hmax⟩
      · cases ht
        exact ⟨hafter, hmax⟩

/-- **The emitter never counts less than the depth of the stack.** -/
theorem Flows.sync {live' : Bool} {depth depth' : Nat} {ls : List Line} {t t' : Tracker}
    (h : Flows labels live depth ls live' depth') (hs : Sync labels live depth t)
    (ht : ls.foldlM Tracker.line t = some t') :
    Sync labels live' depth' t' ∧ t.maxDepth ≤ t'.maxDepth := by
  induction h generalizing t with
  | nil =>
    cases ht
    exact ⟨hs, Nat.le_refl _⟩
  | cons hl _ ih =>
    rw [List.foldlM_cons] at ht
    obtain ⟨t₁, ht₁, ht₂⟩ := Option.bind_eq_some_iff.1 ht
    obtain ⟨hs₁, hm₁⟩ := hl.sync hs ht₁
    obtain ⟨hs₂, hm₂⟩ := ih hs₁ ht₂
    exact ⟨hs₂, Nat.le_trans hm₁ hm₂⟩

/-! ## Soundness -/

/-- A flow from an empty stack, at a line. -/
theorem Flows.at_line {lines : List Line} {depth p : Nat} {l : Line}
    (h : Flows labels true 0 lines live depth) (hl : lines[p]? = some l) :
    ∃ live₁ d₁ live₂ d₂, Flows labels true 0 (lines.take p) live₁ d₁ ∧
      LineFlow labels live₁ d₁ l live₂ d₂ ∧ Flows labels true 0 (lines.take (p + 1)) live₂ d₂ := by
  obtain ⟨hp, rfl⟩ := List.getElem?_eq_some_iff.1 hl
  have hsplit : lines = lines.take p ++ lines[p] :: lines.drop (p + 1) := by
    rw [← List.drop_eq_getElem_cons hp, List.take_append_drop]
  rw [hsplit] at h
  obtain ⟨live₁, d₁, hbefore, hrest⟩ := h.split
  cases hrest with
  | @cons _ live₂ _ _ d₂ _ _ _ hline _ =>
    refine ⟨live₁, d₁, live₂, d₂, hbefore, hline, ?_⟩
    rw [List.take_add_one, List.getElem?_eq_getElem hp]
    exact hbefore.append (.single hline)

/-- Where a path can be: at a line with the depth of the flow, or at a label with its depth. -/
def At (labels : Text → Nat) (lines : List Line) (p d : Nat) : Prop :=
  Flows labels true 0 (lines.take p) true d ∨ ∃ name, lines[p]? = some (.label name) ∧ labels name = d

section
variable {labels : Text → Nat} {lines : List Line} {live : Bool} {depth : Nat}
  (h : Flows labels true 0 lines live depth)
include h
variable {p : Nat}

theorem At.label {p d : Nat} {name : Text} (hat : At labels lines p d)
    (hl : lines[p]? = some (.label name)) : labels name = d := by
  rcases hat with hf | ⟨name', hl', hd⟩
  · obtain ⟨live₁, d₁, live₂, d₂, hbefore, hline, -⟩ := h.at_line hl
    obtain ⟨rfl, rfl⟩ := hf.unique hbefore
    cases hline with
    | label hlive _ => exact (hlive rfl).symm
  · rw [hl] at hl'
    cases hl'
    exact hd

theorem At.unique {d d' : Nat} (hat : At labels lines p d) (hat' : At labels lines p d') : d = d' := by
  rcases hat with hf | ⟨name, hl, hd⟩
  · rcases hat' with hf' | ⟨name, hl, hd⟩
    · exact (hf.unique hf').2
    · rw [← hd]
      exact (At.label h (.inl hf) hl).symm
  · rw [← hd]
    exact At.label h hat' hl

/-- What an instruction does where a path can be. -/
theorem At.instr {p d : Nat} {i : Instr} (hat : At labels lines p d)
    (hl : lines[p]? = some (.instr i)) :
    ∃ u, i.use? = some u ∧ u.pops ≤ d ∧
      Flows labels true 0 (lines.take (p + 1)) i.fallsThrough (d - u.pops + u.pushes) ∧
      (∀ name, i.target? = some name → labels name = d - u.pops + u.pushes) ∧
      (i.isReturn = true → d - u.pops + u.pushes = 0) := by
  rcases hat with hf | ⟨name, hl', -⟩
  · obtain ⟨live₁, d₁, live₂, d₂, hbefore, hline, hafter⟩ := h.at_line hl
    obtain ⟨rfl, rfl⟩ := hf.unique hbefore
    cases hline with
    | instr hu hp ht hret =>
      rw [Bool.true_and] at hafter
      exact ⟨_, hu.1, hp, hafter, fun name hname ↦ (ht name hname).2 rfl, hret rfl⟩
  · rw [hl] at hl'
    cases hl'

/-- A path keeps to the flow. -/
theorem Reaches.at {d : Int} (hr : Reaches lines p d) : ∃ n : Nat, d = n ∧ At labels lines p n := by
  induction hr with
  | start => exact ⟨0, rfl, .inl (by simpa using .nil)⟩
  | @label p d name _ hl ih =>
    obtain ⟨n, rfl, hat⟩ := ih
    obtain rfl := At.label h hat hl
    obtain ⟨_, _, _, _, _, hline, hafter⟩ := h.at_line hl
    cases hline with
    | label _ _ => exact ⟨_, rfl, .inl hafter⟩
  | @fall p d i u _ hl hu hf ih =>
    obtain ⟨n, rfl, hat⟩ := ih
    obtain ⟨u', hu', hp, hafter, -, -⟩ := At.instr h hat hl
    obtain rfl := Option.some.inj (hu.symm.trans hu')
    rw [hf] at hafter
    exact ⟨n - u.pops + u.pushes, by omega, .inl hafter⟩
  | @jump p q d i u name _ hl hu ht hq ih =>
    obtain ⟨n, rfl, hat⟩ := ih
    obtain ⟨u', hu', hp, -, htarget, -⟩ := At.instr h hat hl
    obtain rfl := Option.some.inj (hu.symm.trans hu')
    exact ⟨n - u.pops + u.pushes, by omega, .inr ⟨name, hq, htarget name ht⟩⟩

variable {t t' : Tracker} (hs : Sync labels true 0 t) (ht : lines.foldlM Tracker.line t = some t')
include hs ht

/-- The depth at every line is at most the greatest that the emitter has counted. -/
theorem Flows.take_le {d : Nat} {live' : Bool} (hp : Flows labels true 0 (lines.take p) live' d) :
    d ≤ t'.maxDepth := by
  rw [← List.take_append_drop p lines] at h ht
  rw [List.foldlM_append] at ht
  obtain ⟨t₁, ht₁, ht₂⟩ := Option.bind_eq_some_iff.1 ht
  obtain ⟨live₁, d₁, hbefore, hrest⟩ := h.split
  obtain ⟨rfl, rfl⟩ := hp.unique hbefore
  obtain ⟨hs₁, -⟩ := hp.sync hs ht₁
  obtain ⟨-, hmax⟩ := hrest.sync hs₁ ht₂
  exact Nat.le_trans hs₁.depth (Nat.le_trans hs₁.max hmax)

theorem At.le {d : Nat} (hat : At labels lines p d) : d ≤ t'.maxDepth := by
  rcases hat with hf | ⟨name, hl, rfl⟩
  · exact Flows.take_le h hs ht hf
  · obtain ⟨_, _, _, _, _, hline, hafter⟩ := h.at_line hl
    cases hline with
    | label _ _ => exact Flows.take_le h hs ht hafter

/-- **A flow is within the limits that the emitter counts.** -/
theorem Flows.withinLimits {locals : Nat}
    (hslot : ∀ i slot, Line.instr i ∈ lines → i.slot? = some slot → slot < locals) :
    WithinLimits lines t'.maxDepth locals where
  use := by
    intro p d i hr hl
    obtain ⟨n, rfl, hat⟩ := hr.at h
    obtain ⟨u, hu, hp, hafter, -, -⟩ := At.instr h hat hl
    have hle := Flows.take_le h hs ht hafter
    exact ⟨u, hu, by omega, by omega⟩
  depth := by
    intro p d hr
    obtain ⟨n, rfl, hat⟩ := hr.at h
    have hle := At.le h hs ht hat
    omega
  same := by
    intro p d d' hr hr'
    obtain ⟨n, rfl, hat⟩ := hr.at h
    obtain ⟨n', rfl, hat'⟩ := hr'.at h
    rw [At.unique h hat hat']
  ret := by
    intro p d i u hr hl hret hu
    obtain ⟨n, rfl, hat⟩ := hr.at h
    obtain ⟨u', hu', hp, -, -, hzero⟩ := At.instr h hat hl
    obtain rfl := Option.some.inj (hu.symm.trans hu')
    have := hzero hret
    omega
  slot := hslot

end

/-! ## Methods -/

/-- The lines that the emitter has written so far flow, with an empty stack at the labels of the
method. -/
structure Followed (e : Emitter) : Prop where
  flow : ∃ labels live k, (∀ name, ¬ IsPrivate name → labels name = 0) ∧
    Flows labels true 0 e.lines live (k + left e.onStack)
  fresh : ∀ n name, e.nextLabel ≤ n → name = trueLabel n ∨ name = endLabel n →
    ¬ mentioned e.lines name
  appends : Appends {} e e.lines
  clean : e.unreachable = true ∨ e.depth = left e.onStack

theorem followed_empty : Followed {} where
  flow := ⟨fun _ ↦ 0, true, 0, fun _ _ ↦ rfl, .nil⟩
  fresh := by simp [mentioned]
  appends := (Writes.refl _).toAppends
  clean := .inr rfl

theorem sync_empty (labels : Text → Nat) : Sync labels true 0 (Emitter.tracker {}) :=
  ⟨rfl, Nat.le_refl _, by simp [Emitter.tracker], Nat.le_refl _, by simp [Emitter.tracker]⟩

/-- By the check of the emitter, nothing lies below what it has left on the stack. -/
theorem Followed.eq_zero (h : Followed e) {k : Nat}
    (hf : Flows labels true 0 e.lines live (k + left e.onStack)) (hlive : live = true) : k = 0 := by
  obtain ⟨hs, -⟩ := hf.sync (sync_empty labels) h.appends.track
  have hu : e.unreachable = false := by
    have := hs.live
    rw [hlive] at this
    simpa [Emitter.tracker] using this.symm
  have hd : e.depth = left e.onStack := h.clean.resolve_left (by simp [hu])
  have hle : k + left e.onStack ≤ e.depth := hs.depth
  omega

/-- Labels of the method are placed with an empty stack. -/
theorem flows_map_label {names : List Text} {s : Option Text} {k : Nat}
    (hn : ∀ name ∈ names, labels name = 0) (hs : names ≠ [] → s = none) (hk : live = true → k = 0) :
    ∃ live' k', Flows labels live (k + left s) (names.map .label) live' (k' + left s) ∧
      (live' = true → k' = 0) := by
  induction names generalizing live k with
  | nil => exact ⟨live, k, .nil, hk⟩
  | cons name names ih =>
    obtain rfl := hs (by simp)
    have hname := hn name (by simp)
    have hl : LineFlow labels live (k + left none) (.label name) true (labels name) := by
      refine .label (fun hlive ↦ ?_) (by simp [hname])
      rw [hname, hk hlive]
      rfl
    rw [hname] at hl
    have hzero : true = true → 0 = 0 := fun _ ↦ rfl
    obtain ⟨live', k', hf, hk'⟩ := ih (fun n hn' ↦ hn n (by simp [hn'])) (fun _ ↦ rfl) hzero
    exact ⟨live', k', .cons hl hf, hk'⟩

/-- The depths at labels, changed at the private labels of a number. -/
def withPrivate (labels : Text → Nat) (n r : Nat) (name : Text) : Nat :=
  if name = trueLabel n then r else if name = endLabel n then r + 1 else labels name

theorem withPrivate_of_ne {n r : Nat} (h : ¬ (name = trueLabel n ∨ name = endLabel n)) :
    withPrivate labels n r name = labels name := by
  rw [not_or] at h
  rw [withPrivate, if_neg h.1, if_neg h.2]

variable {c : ClassDef} {m : Method}

/-- What is left after an instruction is to be read by the next one, or was there before. -/
theorem EmitsAt.followed {keepAt : Nat → Option Text} {i : Nat} {x : IR.Instr} {e' : Emitter}
    (h : EmitsAt c m keepAt i x e e') (he : Followed e)
    (hnames : ∀ name ∈ m.labels.namesAt i, ¬ IsPrivate name)
    (hstack : m.labels.namesAt i ≠ [] → e.onStack = none)
    (htarget : ∀ name, x.target? = some name → ¬ IsPrivate name) (hcalls : ∀ y ∈ x.calls, Readable c y)
    : Followed e' := by
  obtain ⟨ls, hls, ha⟩ := h.emits
  obtain ⟨labels, live, k, hlabels, hf⟩ := he.flow
  have hlines : e'.lines = e.lines ++ ((m.labels.namesAt i).map .label ++ ls) := ha.lines
  obtain ⟨live₁, k₁, hf₁, hk₁⟩ := flows_map_label (fun name hname ↦ hlabels name (hnames name hname))
    hstack (he.eq_zero hf)
  have hbefore := hf.append hf₁
  have hfresh : ∀ n name, e.nextLabel ≤ n → name = trueLabel n ∨ name = endLabel n →
      ¬ mentioned (e.lines ++ (m.labels.namesAt i).map .label) name := by
    intro n name hn hname hm
    rcases mentioned_append.1 hm with hm | ⟨l, hl, hl'⟩
    · exact he.fresh n name hn hname hm
    · obtain ⟨name', hmem, rfl⟩ := List.mem_map.1 hl
      rcases hl' with hl' | ⟨_, hl', -⟩
      · cases hl'
        exact hnames _ hmem ⟨n, hname⟩
      · cases hl'
  refine ⟨?_, ?_, ?_, h.clean⟩
  · -- the depth at the private labels of the instruction is what it finds below its comparison
    obtain ⟨r, hr⟩ := hls.flows hcalls h.consumed k₁
    have hprivate : ∀ name, ¬ IsPrivate name → withPrivate labels e.nextLabel r name = 0 := by
      intro name hname
      rw [withPrivate_of_ne (fun hp ↦ hname ⟨_, hp⟩), hlabels name hname]
    have hother : Flows (withPrivate labels e.nextLabel r) true 0
        (e.lines ++ (m.labels.namesAt i).map .label) live₁ (k₁ + left e.onStack) :=
      hbefore.congr fun name hm ↦
        withPrivate_of_ne fun hp ↦ hfresh e.nextLabel name (Nat.le_refl _) hp hm
    obtain ⟨live', k', hf'⟩ := hr (withPrivate labels e.nextLabel r) live₁
      (fun _ ↦ ⟨by simp [withPrivate], by simp [withPrivate, (trueLabel_ne_endLabel _ _).symm]⟩)
      (fun name hname ↦ hprivate name (htarget name hname)) hk₁
    refine ⟨_, live', k', hprivate, ?_⟩
    rw [hlines, ← List.append_assoc]
    exact hother.append hf'
  · intro n name hn hname hm
    have hnext := hls.next_le
    rw [hlines, ← List.append_assoc, mentioned_append] at hm
    rcases hm with hm | hm
    · exact hfresh n name (by omega) hname hm
    · rcases hls.mentioned_cases hm with ht | ⟨hlt, hp⟩
      · exact htarget name ht ⟨n, hname⟩
      · have := private_inj hname hp
        omega
  · rw [hlines]
    exact he.appends.trans ha

/-- A method that passes its check and whose names can stand in assembly: its variables have names, its
labels are not private ones, and its calls can be read back from their lines. -/
structure Presentable (c : ClassDef) (m : Method) : Prop where
  check : m.check = .ok ()
  names : ∀ x ∈ m.code, ∀ name ∈ x.names, name ≠ ""
  labels : ∀ entry ∈ m.labels.entries, ¬ IsPrivate entry.1
  calls : ∀ x ∈ m.code, ∀ y ∈ x.calls, Readable c y

theorem Presentable.not_private_of_namesAt (h : Presentable c m) {i : Nat}
    (hn : name ∈ m.labels.namesAt i) : ¬ IsPrivate name :=
  h.labels _ (Labels.mem_namesAt.1 hn)

theorem Presentable.not_private_of_target? (h : Presentable c m) {i : Nat} {x : IR.Instr}
    (hx : m.code[i]? = some x) (ht : x.target? = some name) : ¬ IsPrivate name := by
  obtain ⟨j, -, hj⟩ := Method.exists_target h.check hx ht
  exact h.labels _ (mem_of_lookup_eq_some hj)

/-- The lines of a method flow. -/
theorem emitMethod_followed (h : Presentable c m) (he : emitMethod c m = .ok e) : Followed e := by
  obtain ⟨-, es, h0, hlast, hes⟩ := emitWith_spec h.names
    (fun i name hname ↦ (stackTemp?_eq_some hname).assigned) he
  have hall : ∀ i ≤ m.code.length, Followed (es i) := by
    intro i
    induction i with
    | zero =>
      intro _
      rw [h0]
      exact followed_empty
    | succ i ih =>
      intro hi
      have hx : m.code[i]? = some m.code[i] := List.getElem?_eq_getElem hi
      refine (hes i _ hx).followed (ih (by omega)) (fun name ↦ h.not_private_of_namesAt) ?_
        (fun name ↦ h.not_private_of_target? hx) (h.calls _ (List.mem_of_getElem? hx))
      intro hne
      cases hs : (es i).onStack with
      | none => rfl
      | some name =>
        obtain ⟨j, rfl, hj⟩ := stackTemp?_of_onStack h0 hes (by omega) hs
        exact absurd (stackTemp?_eq_some hj).unlabelled hne
  rw [← hlast]
  exact hall _ (Nat.le_refl _)

theorem emitMethod_withinLimits (h : Presentable c m) (he : emitMethod c m = .ok e) :
    WithinLimits e.lines e.maxDepth (slotLimit m e) := by
  have hf := emitMethod_followed h he
  obtain ⟨labels, live, k, -, hflow⟩ := hf.flow
  refine hflow.withinLimits (sync_empty labels) hf.appends.track ?_
  intro i slot hi hslot
  exact Nat.lt_of_lt_of_le (hf.appends.slots_lt i slot hi hslot) (Nat.le_max_left _ _)

/-- **The limits that the assembly of a class prints are safe.** -/
theorem printed_limits_are_safe (hc : ∀ m ∈ c.methods, Presentable c m) {text : Text}
    (h : assemble c = .ok text) :
    ∃ es : List Emitter, Assembled c es text ∧
      List.Forall₂ (fun m e ↦ emitMethod c m = .ok e ∧ (methodLines c m e).take 4 =
          [("" : Text), headLine c m, "\t.limit stack " ++ toString e.maxDepth,
            "\t.limit locals " ++ toString (slotLimit m e)] ∧
        m.reserved ≤ slotLimit m e ∧ WithinLimits e.lines e.maxDepth (slotLimit m e)) c.methods es := by
  obtain ⟨es, hes⟩ := assemble_spec h
  refine ⟨es, hes, ((List.forall₂_and_left _ _).2 ⟨hc, hes.emitted⟩).imp ?_⟩
  rintro m e ⟨hm, he⟩
  exact ⟨he, rfl, Nat.le_max_right _ _, emitMethod_withinLimits hm he⟩

/-- The call of a method of one parameter to itself. -/
def recursion : Call where
  kind := .static
  cls := "Gauss"
  method := "sum"
  args := [.var "t_1" .int]
  ret := .int

/-- A class with a method that compares and calls itself. -/
def gauss : ClassDef where
  name := "Gauss"
  methods := [
    { name := "sum"
      isStatic := true
      params := [⟨"n", .int⟩]
      ret := .int
      code := [
        .assign (.var "t_0" .bool) .bool
          (.binary .lt (.var "n" .int) (.literal "1" .int) .bool),
        .branch (.single (.var "t_0" .bool)) "done",
        .assign (.var "t_1" .int) .int (.binary .sub (.var "n" .int) (.literal "1" .int) .int),
        .assign (.var "t_2" .int) .int (.call recursion),
        .assign (.var "t_3" .int) .int (.binary .add (.var "t_2" .int) (.var "n" .int) .int),
        .ret (.var "t_3" .int) .int,
        .ret (.literal "0" .int) .int]
      labels := ⟨[("done", 6)], by decide⟩
      vars := ⟨[⟨"n", .int, .param, 0⟩, ⟨"t_0", .bool, .temp, 1⟩, ⟨"t_1", .int, .temp, 1⟩,
        ⟨"t_2", .int, .temp, 1⟩, ⟨"t_3", .int, .temp, 1⟩], by decide⟩ }]

theorem gauss_presentable : ∀ m ∈ gauss.methods, Presentable gauss m := by
  refine List.forall_mem_singleton.2 ⟨by decide, by decide, ?_, ?_⟩
  · exact List.forall_mem_singleton.2 fun hp ↦ absurd (head?_of_isPrivate hp) (by decide)
  · intro x hx y hy
    have hcall : y = recursion := by
      simp only [List.mem_cons, List.not_mem_nil, or_false] at hx
      rcases hx with rfl | rfl | rfl | rfl | rfl | rfl | rfl <;>
        simp [IR.Instr.calls] at hy
      exact hy
    subst hcall
    exact ⟨⟨by decide, by decide, by decide, by decide, by decide, by decide⟩, by decide⟩

theorem gauss_limits_are_safe :
    (∀ m ∈ gauss.methods, Presentable gauss m) ∧ ∃ text, assemble gauss = .ok text ∧
      ∃ es : List Emitter, Assembled gauss es text ∧
        List.Forall₂ (fun m e ↦ emitMethod gauss m = .ok e ∧ (methodLines gauss m e).take 4 =
            [("" : Text), headLine gauss m, "\t.limit stack " ++ toString e.maxDepth,
              "\t.limit locals " ++ toString (slotLimit m e)] ∧
          m.reserved ≤ slotLimit m e ∧ WithinLimits e.lines e.maxDepth (slotLimit m e))
          gauss.methods es := by
  refine ⟨gauss_presentable, ?_⟩
  obtain ⟨text, h⟩ := Except.exists_ok (x := assemble gauss) (by decide +kernel)
  exact ⟨text, h, printed_limits_are_safe gauss_presentable h⟩

end Jvm

end MiniJava
