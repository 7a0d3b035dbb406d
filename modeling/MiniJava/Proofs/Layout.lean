import MiniJava.Proofs.EmittedLines
import MiniJava.Proofs.StackDepth

/-!
# Where the lines of a method stand

The emitter writes the lines of one instruction after those of another, so each instruction has a place
among the lines of the method (`Layout.standsAt`).  No label is written twice (`Layout.uniqueLabels`):
those of the method are placed at one index each, and the private ones are numbered.  A jump to a label
of the method arrives at the instruction that the label stands before (`Layout.label_at`).
-/

set_option autoImplicit false

namespace MiniJava.Jvm

open IR

/-- The states of the emitter between the instructions of a method, which ends with some lines. -/
structure Layout (c : ClassDef) (m : Method) (lines : List Line) (es : Nat → Emitter) : Prop where
  first : es 0 = {}
  last : (es m.code.length).lines = lines
  emitsAt : ∀ i x, m.code[i]? = some x → EmitsAt c m (stackTemp? m) i x (es i) (es (i + 1))
  inside : targetPastEnd? m = none
  labels : ∀ entry ∈ m.labels.entries, ¬ IsPrivate entry.1

/-- The layout of a method that the emitter has got through. -/
theorem exists_layout {c : ClassDef} {m : Method} {e : Emitter}
    (hn : ∀ x ∈ m.code, ∀ name ∈ x.names, name ≠ "")
    (hl : ∀ entry ∈ m.labels.entries, ¬ IsPrivate entry.1) (h : emitMethod c m = .ok e) :
    ∃ es, Layout c m e.lines es := by
  obtain ⟨hinside, es, h0, hlast, hes⟩ := emitWith_spec hn
    (fun i name hname ↦ (stackTemp?_eq_some hname).assigned) h
  exact ⟨es, h0, by rw [hlast], hes, hinside, hl⟩

/-! ## Labels -/

/-- The labels that stand in lines. -/
def labelNames (ls : List Line) : List Text :=
  ls.filterMap fun
    | .label name => some name
    | .instr _ => none

@[simp] theorem labelNames_append (ls ls' : List Line) :
    labelNames (ls ++ ls') = labelNames ls ++ labelNames ls' := List.filterMap_append

@[simp] theorem labelNames_instrs (is : List Instr) : labelNames (is.map .instr) = [] := by
  rw [labelNames, List.filterMap_map]
  exact List.filterMap_eq_nil_iff.2 fun _ _ ↦ rfl

@[simp] theorem labelNames_labels (names : List Text) : labelNames (names.map .label) = names := by
  rw [labelNames, List.filterMap_map]
  exact List.filterMap_some

theorem mem_labelNames {ls : List Line} {name : Text} : name ∈ labelNames ls ↔ .label name ∈ ls := by
  rw [labelNames, List.mem_filterMap]
  constructor
  · rintro ⟨l, hl, hname⟩
    cases l with
    | label name' =>
      cases hname
      exact hl
    | instr _ => cases hname
  · intro h
    exact ⟨_, h, rfl⟩

theorem uniqueLabels_of_nodup {lines : List Line} (h : (labelNames lines).Nodup) :
    UniqueLabels lines := by
  induction lines with
  | nil =>
    intro p q name hp
    simp at hp
  | cons l lines ih =>
    have hcons : labelNames (l :: lines) = labelNames [l] ++ labelNames lines := labelNames_append [l] _
    rw [hcons, List.nodup_append] at h
    obtain ⟨-, hrest, hdisjoint⟩ := h
    -- a label at the front and again further on would be in both parts
    have hfront : ∀ (q : Nat) (name : Text), l = .label name → lines[q]? ≠ some (.label name) := by
      rintro q name rfl hq
      exact hdisjoint name (by simp [labelNames]) name (mem_labelNames.2 (List.mem_of_getElem? hq)) rfl
    intro p q name hp hq
    cases p with
    | zero =>
      cases q with
      | zero => rfl
      | succ q => exact absurd hq (hfront q name (Option.some.inj hp))
    | succ p =>
      cases q with
      | zero => exact absurd hp (hfront p name (Option.some.inj hq))
      | succ q => rw [ih hrest p q name hp hq]

section
variable {c : ClassDef} {m : Method}

variable {ls : List Line} {n n' : Nat} {x : IR.Instr}

theorem Computes.labelNames_cases {s s' : Option Text} (h : Computes c m s n x ls s' n') :
    labelNames ls = [] ∧ n' = n ∨
      labelNames ls = [trueLabel n, endLabel n] ∧ n' = n + 1 := by
  cases h with
  | plain _ => exact .inl ⟨labelNames_instrs _, rfl⟩
  | compare _ _ => exact .inr ⟨by simp [answerLines, labelNames], rfl⟩

/-- The lines of an instruction hold no label but the two private ones of a comparison. -/
theorem Emits.labelNames_cases {keep s s' : Option Text} (h : Emits c m keep s n x ls s' n') :
    labelNames ls = [] ∧ n' = n ∨
      labelNames ls = [trueLabel n, endLabel n] ∧ n' = n + 1 := by
  cases h with
  | leave _ h => exact h.labelNames_cases
  | store _ h _ => simpa [labelNames] using h.labelNames_cases
  | storeElem _ _ h => simpa [labelNames] using h.labelNames_cases
  | discard _ h => simpa [labelNames] using h.labelNames_cases
  | callVoid _ _ | callValue _ _ | retVoid | ret _ | goto | branchCompare _ _ | branchNot _ | branch _
  | putStatic _ | putField _ _ => exact .inl ⟨by simp [labelNames], rfl⟩

/-- Lines that place private labels only, each once, with numbers from `n` on and below `n'`. -/
structure PrivateLabels (n n' : Nat) (ls : List Line) : Prop where
  le : n ≤ n'
  nodup : (labelNames ls).Nodup
  labels : ∀ name ∈ labelNames ls, ∃ k, n ≤ k ∧ k < n' ∧ (name = trueLabel k ∨ name = endLabel k)

theorem Emits.privateLabels {keep s s' : Option Text} (h : Emits c m keep s n x ls s' n') :
    PrivateLabels n n' ls := by
  rcases h.labelNames_cases with ⟨hn, rfl⟩ | ⟨hn, rfl⟩
  · exact ⟨Nat.le_refl _, by simp [hn], by simp [hn]⟩
  · refine ⟨Nat.le_succ n, ?_, fun name hname ↦ ?_⟩
    · simpa [hn] using trueLabel_ne_endLabel n n
    · rw [hn] at hname
      exact ⟨n, Nat.le_refl n, Nat.lt_succ_self n, List.mem_pair.1 hname⟩

/-- A label has one index. -/
theorem eq_of_mem_namesAt {name : Text} {i j : Nat} (hi : name ∈ m.labels.namesAt i)
    (hj : name ∈ m.labels.namesAt j) : i = j := by
  have h₁ := lookup_eq_some_of_mem m.labels.nodup (Labels.mem_namesAt.1 hi)
  have h₂ := lookup_eq_some_of_mem m.labels.nodup (Labels.mem_namesAt.1 hj)
  have := Option.some.inj (h₁.symm.trans h₂)
  omega

theorem nodup_namesAt (ls : Labels) (index : Int) : (ls.namesAt index).Nodup := by
  rw [Labels.namesAt, (List.mergeSort_perm _ _).nodup_iff]
  exact ls.nodup.sublist (List.filter_sublist.map Prod.fst)

/-- If the emitter writes the labels of each instruction and then lines with private labels, the labels
written so far are those of earlier instructions and private ones with small numbers, each of them
once. -/
theorem labelNames_before {es : Nat → Emitter} (hl : ∀ entry ∈ m.labels.entries, ¬ IsPrivate entry.1)
    (h0 : es 0 = {})
    (hstep : ∀ i < m.code.length, ∃ block,
      (es (i + 1)).lines = (es i).lines ++ ((m.labels.namesAt i).map .label ++ block) ∧
      PrivateLabels (es i).nextLabel (es (i + 1)).nextLabel block)
    {i : Nat} (hi : i ≤ m.code.length) : (labelNames (es i).lines).Nodup ∧
      ∀ name ∈ labelNames (es i).lines, (∃ j < i, name ∈ m.labels.namesAt j) ∨
        ∃ k < (es i).nextLabel, name = trueLabel k ∨ name = endLabel k := by
  induction i with
  | zero =>
    rw [h0]
    exact ⟨List.nodup_nil, by simp [labelNames]⟩
  | succ i ih =>
    obtain ⟨hnodup, hold⟩ := ih (by omega)
    obtain ⟨block, hlines, hblock⟩ := hstep i hi
    have hpublic : ∀ (k : Nat), ∀ name ∈ m.labels.namesAt k, ¬ IsPrivate name :=
      fun k name hn ↦ hl _ (Labels.mem_namesAt.1 hn)
    have hle := hblock.le
    rw [hlines, labelNames_append, labelNames_append, labelNames_labels]
    constructor
    · rw [List.nodup_append, List.nodup_append]
      refine ⟨hnodup, ⟨nodup_namesAt _ _, hblock.nodup, ?_⟩, ?_⟩
      · rintro name hname _ hname' rfl
        obtain ⟨k, -, -, hp⟩ := hblock.labels name hname'
        exact hpublic i name hname ⟨k, hp⟩
      · rintro name hname _ hname' rfl
        rcases hold name hname with ⟨j, hj, hat⟩ | ⟨k, hk, hp⟩
        · rcases List.mem_append.1 hname' with hname' | hname'
          · exact absurd (eq_of_mem_namesAt hat hname') (by omega)
          · obtain ⟨k, -, -, hp⟩ := hblock.labels name hname'
            exact hpublic j name hat ⟨k, hp⟩
        · rcases List.mem_append.1 hname' with hname' | hname'
          · exact hpublic i name hname' ⟨k, hp⟩
          · obtain ⟨k', hk', -, hp'⟩ := hblock.labels name hname'
            have := private_inj hp hp'
            omega
    · intro name hname
      rw [List.mem_append, List.mem_append] at hname
      rcases hname with hname | hname | hname
      · rcases hold name hname with ⟨j, hj, hat⟩ | ⟨k, hk, hp⟩
        · exact .inl ⟨j, by omega, hat⟩
        · exact .inr ⟨k, by omega, hp⟩
      · exact .inl ⟨i, by omega, hname⟩
      · obtain ⟨k, -, hk, hp⟩ := hblock.labels name hname
        exact .inr ⟨k, hk, hp⟩

end

/-! ## Places -/

section
variable {c : ClassDef} {m : Method} {lines : List Line} {es : Nat → Emitter}

namespace Layout

variable (h : Layout c m lines es)
include h

variable {i : Nat} {x : IR.Instr}

/-- The labels of a method are written once each, between its instructions. -/
theorem labels_before (hi : i ≤ m.code.length) : (labelNames (es i).lines).Nodup ∧
    ∀ name ∈ labelNames (es i).lines, (∃ j < i, name ∈ m.labels.namesAt j) ∨
      ∃ k < (es i).nextLabel, name = trueLabel k ∨ name = endLabel k := by
  refine labelNames_before h.labels h.first (fun i hi ↦ ?_) hi
  obtain ⟨ls, hls, happ⟩ := (h.emitsAt i _ (List.getElem?_eq_getElem hi)).emits
  exact ⟨ls, happ.lines, hls.privateLabels⟩

/-- No label is written twice. -/
theorem uniqueLabels : UniqueLabels lines := by
  rw [← h.last]
  exact uniqueLabels_of_nodup (h.labels_before (Nat.le_refl _)).1

/-- What is written stays. -/
theorem exists_lines_eq (hi : i ≤ m.code.length) : ∃ post, lines = (es i).lines ++ post := by
  obtain ⟨d, hd⟩ := Nat.exists_eq_add_of_le hi
  induction d generalizing i with
  | zero =>
    rw [Nat.add_zero] at hd
    exact ⟨[], by rw [← h.last, hd, List.append_nil]⟩
  | succ d ih =>
    obtain ⟨post, hpost⟩ := ih (i := i + 1) (by omega) (by omega)
    have hlt : i < m.code.length := by omega
    obtain ⟨ls, -, happ⟩ := (h.emitsAt i _ (List.getElem?_eq_getElem hlt)).emits
    rw [happ.lines, List.append_assoc] at hpost
    exact ⟨_, hpost⟩

/-- The labels and the lines of an instruction stand where the emitter was when it wrote them. -/
theorem standsAt (hx : m.code[i]? = some x) {ls : List Line} (happ : Appends (es i) (es (i + 1)) ls) :
    StandsAt ls lines (es i).lines.length := by
  obtain ⟨post, hpost⟩ := h.exists_lines_eq (i := i + 1) (List.getElem?_eq_some_iff.1 hx).1
  rw [hpost, happ.lines, List.append_assoc]
  exact standsAt_append _ _

/-- The line of an instruction, after its labels. -/
def place (m : Method) (es : Nat → Emitter) (i : Nat) : Nat :=
  (es i).lines.length + if i < m.code.length then (m.labels.namesAt i).length else 0

omit h in
theorem place_of_code (hx : m.code[i]? = some x) :
    place m es i = (es i).lines.length + (m.labels.namesAt i).length := by
  rw [place, if_pos (List.getElem?_eq_some_iff.1 hx).1]

/-- The lines of an instruction stand at its place, and the next labels behind them. -/
theorem standsAt_place (hx : m.code[i]? = some x) {ls : List Line}
    (happ : Appends (es i) (es (i + 1)) ((m.labels.namesAt i).map .label ++ ls)) :
    StandsAt ls lines (place m es i) ∧ place m es i + ls.length = (es (i + 1)).lines.length := by
  have hstands := (h.standsAt hx happ).right
  rw [List.length_map] at hstands
  rw [place_of_code hx]
  refine ⟨hstands, ?_⟩
  rw [happ.lines]
  simp [Nat.add_assoc]

/-- No line stands at the place after the last instruction. -/
theorem getElem?_place_length : lines[place m es m.code.length]? = none := by
  rw [place, if_neg (Nat.lt_irrefl _), h.last]
  simp

/-- From the lines of one instruction to those of the next there are labels only. -/
theorem labels_before_place {i k : Nat}
    (hk : k ≤ if i < m.code.length then (m.labels.namesAt i).length else 0) :
    ∃ names : List Text, StandsAt (names.map .label) lines ((es i).lines.length + k) ∧
      (es i).lines.length + k + names.length = place m es i := by
  rw [place]
  split at hk
  · rename_i hi
    obtain ⟨ls, -, happ⟩ := (h.emitsAt i _ (List.getElem?_eq_getElem hi)).emits
    have hstands := (h.standsAt (List.getElem?_eq_getElem hi) happ).left
    rw [← List.take_append_drop k (m.labels.namesAt i), List.map_append] at hstands
    have hrest := hstands.right
    rw [List.length_map, List.length_take, Nat.min_eq_left hk] at hrest
    refine ⟨_, hrest, ?_⟩
    rw [if_pos hi, List.length_drop]
    omega
  · rename_i hi
    rw [if_neg hi]
    refine ⟨[], fun j l hl ↦ ?_, by simpa using hk⟩
    cases hl

/-- From a label of an instruction, or the place after the lines before it, the machine gets to the
instruction. -/
theorem does_place (env : Env Instr) {i k : Nat}
    (hk : k ≤ if i < m.code.length then (m.labels.namesAt i).length else 0) (f : Frame) :
    (machine lines env).Does ⟨(es i).lines.length + k, f⟩ (pure ⟨place m es i, f⟩) := by
  obtain ⟨names, hstands, hplace⟩ := h.labels_before_place hk
  rw [← hplace]
  exact does_labels env hstands f

/-- The line of a label of the method. -/
theorem label_at {label : Text} {j : Nat} (hl : m.target? label = some (j : Int))
    (hj : j < m.code.length) :
    ∃ k ≤ (m.labels.namesAt j).length, lines[(es j).lines.length + k]? = some (.label label) := by
  have hmem : label ∈ m.labels.namesAt j := Labels.mem_namesAt.2 (mem_of_lookup_eq_some hl)
  obtain ⟨k, hk⟩ := List.mem_iff_getElem?.1 hmem
  obtain ⟨ls, -, happ⟩ := (h.emitsAt j _ (List.getElem?_eq_getElem hj)).emits
  refine ⟨k, Nat.le_of_lt (List.getElem?_eq_some_iff.1 hk).1, ?_⟩
  apply (h.standsAt (List.getElem?_eq_getElem hj) happ).left
  rw [List.getElem?_map, hk]
  rfl

/-- What is on the stack between two instructions is a temporary that was meant to stay there. -/
theorem staysOnStack (hi : i ≤ m.code.length) {name : Text} (hs : (es i).onStack = some name) :
    ∃ j, i = j + 1 ∧ StaysOnStack m j name := by
  obtain ⟨j, hij, hj⟩ := stackTemp?_of_onStack h.first h.emitsAt hi hs
  exact ⟨j, hij, stackTemp?_eq_some hj⟩

end Layout

end

end MiniJava.Jvm
