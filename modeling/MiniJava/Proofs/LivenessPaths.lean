import MiniJava.Proofs.ControlFlow
import MiniJava.Proofs.LivenessFixpoint

/-!
# What the live sets say of paths

The analysis of a checked method succeeds, and its sets describe the method: `Describes.before` says
that a variable which some path reads before writing it is in the set before the first instruction of
the path, and `Describes.after` says the same of the sets after an instruction.

Both rest on the fixpoint of `MiniJava.Proofs.LivenessFixpoint` and on reading off what one instruction
does (`flowAt_spec`).
-/

set_option autoImplicit false

namespace MiniJava

open IR

/-! ## Numbers of variables -/

/-- The number of a variable: its place in the table. -/
def IR.Method.number? (m : Method) (name : Text) : Option Nat :=
  (m.vars.vars.map Variable.name).idxOf? name

section
variable {m : Method}

theorem IR.Method.number?_eq_some {name : Text} {j : Nat} :
    m.number? name = some j ↔ (m.vars.vars.map Variable.name)[j]? = some name := by
  rw [number?, List.idxOf?_eq_some_iff, List.getElem?_eq_some_iff]
  constructor
  · rintro ⟨hj, h, -⟩
    exact ⟨hj, h⟩
  · rintro ⟨hj, h⟩
    refine ⟨hj, h, fun k hk hne ↦ ?_⟩
    have := m.vars.nodup.getElem_inj_iff.1 (hne.trans h.symm)
    omega

theorem IR.Method.exists_number? {name : Text} (h : m.vars.contains name = true) :
    ∃ j, m.number? name = some j := by
  rw [VarTable.contains_iff, List.mem_iff_getElem?] at h
  exact h.imp fun j hj ↦ number?_eq_some.2 hj

theorem IR.Method.number?_inj {a b : Text} {j : Nat} (ha : m.number? a = some j)
    (hb : m.number? b = some j) : a = b := by
  rw [number?_eq_some] at ha hb
  exact Option.some.inj (ha.symm.trans hb)

theorem IR.Method.number?_lt {a : Text} {j : Nat} (h : m.number? a = some j) :
    j < m.vars.vars.length := by
  have := (List.getElem?_eq_some_iff.1 (number?_eq_some.1 h)).1
  rwa [List.length_map] at this

end

namespace Liveness

variable {m : Method} {j i : Nat} {x : Instr} {l : Liveness}

/-! ## What one instruction does -/

theorem insertVar_of_number? {name : Text} (h : m.number? name = some j) (i : Nat) (s : Bitmap) :
    insertVar m i s name = .ok (s.insert j) := by
  rw [Method.number?] at h
  rw [insertVar, h]

theorem foldlM_insertVar {names : List Text} {s : Bitmap} (h : ∀ n ∈ names, m.vars.contains n = true) :
    ∃ t, names.foldlM (insertVar m i) s = .ok t ∧
      ∀ j, t.mem j = true ↔ s.mem j = true ∨ ∃ n ∈ names, m.number? n = some j := by
  induction names generalizing s with
  | nil => exact ⟨s, rfl, by simp⟩
  | cons n names ih =>
    obtain ⟨k, hk⟩ := Method.exists_number? (h n (by simp))
    obtain ⟨t, ht, hm⟩ := ih (s := s.insert k) fun n hn ↦ h n (by simp [hn])
    refine ⟨t, ?_, fun j ↦ ?_⟩
    · rw [List.foldlM_cons, insertVar_of_number? hk]
      exact ht
    · rw [hm, Bitmap.mem_insert, Bool.or_eq_true, beq_iff_eq]
      simp only [List.mem_cons, exists_eq_or_imp, hk, Option.some.injEq]
      exact ⟨fun h ↦ by tauto, fun h ↦ by tauto⟩

theorem target_eq_ok {label : Text} {j : Int} (h : m.target? label = some j) :
    target m i label = .ok j := by
  rw [target, h]

/-- The successors of an instruction of a checked method are where control can go, as far as there is
an instruction. -/
theorem successors_spec (hc : m.check = .ok ()) (hx : m.code[i]? = some x) :
    ∃ ss, successors m i x = .ok ss ∧
      ∀ s, s ∈ ss ↔ ∃ j : Nat, s = j ∧ j < m.code.length ∧ m.Next i j := by
  -- what is left of candidates for the successors when those past the end are dropped
  have key {c : List Int} (hpos : ∀ s ∈ c, 0 ≤ s) (hc : ∀ j : Nat, (j : Int) ∈ c ↔
      (x.fallsThrough = true ∧ j = i + 1) ∨
        ∃ label, x.target? = some label ∧ m.target? label = some (j : Int)) (s : Int) :
      s ∈ c.filter (fun s : Int ↦ s < m.code.length) ↔
        ∃ j : Nat, s = j ∧ j < m.code.length ∧ m.Next i j := by
    rw [List.mem_filter, decide_eq_true_eq]
    constructor
    · rintro ⟨hs, hl⟩
      obtain ⟨j, rfl⟩ := Int.eq_ofNat_of_zero_le (hpos s hs)
      exact ⟨j, rfl, by simpa using hl, (Method.next_iff hx).2 ((hc j).1 hs)⟩
    · rintro ⟨j, rfl, hl, hn⟩
      exact ⟨(hc j).2 ((Method.next_iff hx).1 hn), by simpa using hl⟩
  cases x with
  | ret v ty =>
    refine ⟨_, rfl, key (by simp) fun j ↦ ?_⟩
    simp [Instr.fallsThrough, Instr.target?]
  | goto label =>
    obtain ⟨k, -, ht⟩ := Method.exists_target hc hx (rfl : _ = some label)
    refine ⟨_, ?_, key (c := [(k : Int)]) (by simp) fun j ↦ ?_⟩
    · simp only [successors, target_eq_ok ht]
      rfl
    · simp [Instr.fallsThrough, Instr.target?, ht, eq_comm]
  | branch cond label =>
    obtain ⟨k, -, ht⟩ := Method.exists_target hc hx (rfl : _ = some label)
    refine ⟨_, ?_, key (c := if (k : Int) = i + 1 then [(k : Int)] else [(k : Int), (i : Int) + 1])
      (fun s hs ↦ ?_) fun j ↦ ?_⟩
    · simp only [successors, target_eq_ok ht]
      rfl
    · split at hs <;> simp only [List.mem_cons, List.not_mem_nil, or_false] at hs <;> omega
    · simp only [Instr.fallsThrough, Instr.target?, Option.some.injEq, exists_eq_left', ht,
        Int.natCast_inj, true_and]
      split <;> simp only [List.mem_cons, List.not_mem_nil, or_false] <;> omega
  | _ =>
    refine ⟨_, rfl, key (by simp; omega) fun j ↦ ?_⟩
    simp [Instr.fallsThrough, Instr.target?]
    omega

/-- A flow says what an instruction of a method does. -/
structure FlowAt (m : Method) (i : Nat) (x : Instr) (f : Flow) : Prop where
  use : ∀ j, f.use.mem j = true ↔ ∃ n ∈ x.uses, m.number? n = some j
  defs : ∀ j, f.defs.mem j = true ↔ ∃ n, x.defs? = some n ∧ m.number? n = some j
  succ : ∀ s, s ∈ f.succ ↔ ∃ j : Nat, s = j ∧ j < m.code.length ∧ m.Next i j

theorem flowAt_spec (hc : m.check = .ok ()) (hx : m.code[i]? = some x) :
    ∃ f, flowAt m i x = .ok f ∧ FlowAt m i x f := by
  obtain ⟨use, hu, hmu⟩ := foldlM_insertVar (i := i)
    (s := Bitmap.withCapacity m.vars.vars.length) fun n hn ↦ Method.contains_of_mem_uses hc hx hn
  obtain ⟨defs, hd, hmd⟩ := foldlM_insertVar (i := i) (m := m)
    (s := Bitmap.withCapacity m.vars.vars.length) fun n hn ↦
      Method.contains_of_defs? hc hx (Option.mem_toList.1 hn)
  obtain ⟨succ, hs, hms⟩ := successors_spec hc hx
  refine ⟨{ use, defs, succ }, ?_, ?_⟩
  · simp only [flowAt, hu, hd, hs]
    rfl
  · exact ⟨fun j ↦ by simpa using hmu j, fun j ↦ by simpa using hmd j, hms⟩

/-! ## The state before the first sweep -/

theorem flowOf_eq {f : Flow} (h : l.flow[i]? = some f) : l.flowOf i = f := by
  rw [flowOf, List.getD_eq_getElem?_getD, h, Option.getD_some]

/-- A state numbers the variables of a method and says what its instructions do. -/
structure Fits (m : Method) (l : Liveness) : Prop where
  vars : l.vars = m.vars.vars.map Variable.name
  length : l.flow.length = m.code.length
  flow : ∀ i x, m.code[i]? = some x → FlowAt m i x (l.flowOf i)

theorem Fits.le {k : Liveness} (h : Fits m l) (hle : Le l k) : Fits m k :=
  ⟨hle.vars.trans h.vars, by rw [hle.flow, h.length], fun i x hx ↦ by
    rw [flowOf_congr hle.flow]
    exact h.flow i x hx⟩

/-- The sets of a fresh state are empty. -/
theorem mem_getD_fresh (flow : List Flow) (n i j : Nat) :
    ((flow.map fun _ ↦ Bitmap.withCapacity n).getD i .wordless).mem j = false := by
  rw [List.getD_eq_getElem?_getD, List.getElem?_map]
  cases flow[i]? with
  | none => exact Bitmap.mem_wordless j
  | some f => exact Bitmap.mem_withCapacity n j

/-- There is nothing in the sets before the first sweep. -/
theorem build_empty (h : build m = .ok l) (i j : Nat) :
    (l.inAt i).mem j = false ∧ (l.outAt i).mem j = false := by
  obtain ⟨flow, -, h⟩ := Except.bind_eq_ok.1 h
  cases h
  exact ⟨mem_getD_fresh flow _ i j, mem_getD_fresh flow _ i j⟩

/-- What a variable of the method does not take from a set, no list of names takes from it. -/
theorem foldlM_insertVar_induction {P : Bitmap → Prop} {names : List Text} {s t : Bitmap}
    (hinsert : ∀ s k, k < m.vars.vars.length → P s → P (s.insert k)) (hs : P s)
    (h : names.foldlM (insertVar m i) s = .ok t) : P t := by
  induction names generalizing s with
  | nil =>
    cases h
    exact hs
  | cons name names ih =>
    rw [List.foldlM_cons] at h
    obtain ⟨s', hs', h⟩ := Except.bind_eq_ok.1 h
    refine ih ?_ h
    rw [insertVar] at hs'
    split at hs'
    · rename_i k hk
      cases hs'
      exact hinsert s k (Method.number?_lt hk) hs
    · cases hs'

/-- The sets of what an instruction reads and writes have what the empty sets have and a variable of the
method does not take away. -/
theorem build_induction {P : Bitmap → Prop} (hwordless : P .wordless)
    (hempty : P (.withCapacity m.vars.vars.length))
    (hinsert : ∀ s k, k < m.vars.vars.length → P s → P (s.insert k)) (h : build m = .ok l) (i : Nat) :
    P (l.flowOf i).use ∧ P (l.flowOf i).defs := by
  obtain ⟨flow, hflow, h⟩ := Except.bind_eq_ok.1 h
  cases h
  rw [flowOf, List.getD_eq_getElem?_getD]
  cases hf : flow[i]? with
  | none => exact ⟨hwordless, hwordless⟩
  | some f =>
    obtain ⟨p, -, hp⟩ := exists_of_mem_right (Except.mapM_eq_ok.1 hflow) (List.mem_of_getElem? hf)
    obtain ⟨use, huse, hp⟩ := Except.bind_eq_ok.1 hp
    obtain ⟨defs, hdefs, hp⟩ := Except.bind_eq_ok.1 hp
    obtain ⟨succ, -, hp⟩ := Except.bind_eq_ok.1 hp
    cases hp
    exact ⟨foldlM_insertVar_induction hinsert hempty huse, foldlM_insertVar_induction hinsert hempty hdefs⟩

theorem build_vars (h : build m = .ok l) : l.vars = m.vars.vars.map Variable.name := by
  obtain ⟨flow, -, h⟩ := Except.bind_eq_ok.1 h
  cases h
  rfl

/-- The names that an instruction reads or writes are numbered. -/
theorem below_build (h : build m = .ok l) (i : Nat) :
    Below l.vars.length (l.flowOf i).use ∧ Below l.vars.length (l.flowOf i).defs := by
  rw [build_vars h, List.length_map]
  refine build_induction (fun j hj ↦ ?_) (fun j hj ↦ ?_) (fun s k hk hs j hj ↦ ?_) h i
  · exact absurd hj (Bool.eq_false_iff.1 (Bitmap.mem_wordless j))
  · exact absurd hj (Bool.eq_false_iff.1 (Bitmap.mem_withCapacity _ j))
  · rw [Bitmap.mem_insert, Bool.or_eq_true, beq_iff_eq] at hj
    rcases hj with rfl | hj
    · exact hk
    · exact hs j hj

/-- The state before the first sweep has the right shape, of a checked method or not. -/
theorem build_sound (h : build m = .ok l) : Sound l := by
  have hbelow := below_build h
  have hempty := build_empty h
  obtain ⟨flow, -, h⟩ := Except.bind_eq_ok.1 h
  cases h
  refine ⟨List.length_map _, List.length_map _, fun i ↦ (hbelow i).1, fun i j hj ↦ ?_, fun i j hj ↦ ?_⟩
  · rw [(hempty i j).1] at hj
    cases hj
  · rw [(hempty i j).2] at hj
    cases hj

theorem build_spec (hc : m.check = .ok ()) : ∃ l, build m = .ok l ∧ Fits m l ∧ Sound l := by
  obtain ⟨flow, hf⟩ : ∃ flow, m.code.zipIdx.mapM (fun p ↦ flowAt m p.2 p.1) = .ok flow := by
    refine Except.exists_mapM_eq_ok fun p hp ↦ ?_
    obtain ⟨f, hf, -⟩ := flowAt_spec hc (List.mem_zipIdx_iff_getElem?.1 hp)
    exact ⟨f, hf⟩
  have hlen : flow.length = m.code.length := by
    rw [Except.length_of_mapM_eq_ok hf, List.length_zipIdx]
  have hflow (i : Nat) (x : Instr) (hx : m.code[i]? = some x) :
      ∃ f, flow[i]? = some f ∧ FlowAt m i x f := by
    have hz : m.code.zipIdx[i]? = some (x, i) := by
      rw [List.getElem?_zipIdx, hx, Option.map_some, Nat.zero_add]
    obtain ⟨f, hfi, hfx⟩ := Except.getElem?_of_mapM_eq_ok hf hz
    obtain ⟨g, hg, hgx⟩ := flowAt_spec hc hx
    cases hfx.symm.trans hg
    exact ⟨f, hfi, hgx⟩
  refine ⟨_, by rw [build, hf]; rfl, ⟨rfl, hlen, fun i x hx ↦ ?_⟩, build_sound (by rw [build, hf]; rfl)⟩
  obtain ⟨f, hfi, hfx⟩ := hflow i x hx
  rwa [flowOf_eq hfi]

/-! ## The end of the analysis -/

/-- The sets of a state are right about the paths of a method. -/
structure Describes (m : Method) (l : Liveness) : Prop extends Fits m l where
  before : ∀ {v i j}, m.Live v i → m.number? v = some j → (l.inAt i).mem j = true
  after : ∀ {v i k j}, 2 ≤ m.code.length → m.Next i k → m.Live v k → m.number? v = some j →
    (l.outAt i).mem j = true

theorem Fits.mem_joinAt (h : Fits m l) {k : Nat} (hx : m.code[i]? = some x) (hn : m.Next i k)
    (hk : k < m.code.length) (hj : (l.inAt k).mem j = true) : (l.joinAt i).mem j = true := by
  refine Liveness.mem_joinAt.2 ⟨k, ((h.flow i x hx).succ k).2 ⟨k, rfl, hk, hn⟩, ?_⟩
  rwa [Int.toNat_natCast]

theorem Fits.mem_use (h : Fits m l) {v : Text} (hx : m.code[i]? = some x) (hv : v ∈ x.uses)
    (hj : m.number? v = some j) : (l.flowOf i).use.mem j = true :=
  ((h.flow i x hx).use j).2 ⟨v, hv, hj⟩

theorem Fits.mem_defs (h : Fits m l) {v : Text} (hx : m.code[i]? = some x) (hj : m.number? v = some j) :
    (l.flowOf i).defs.mem j = true ↔ x.defs? = some v := by
  rw [(h.flow i x hx).defs j]
  refine ⟨?_, fun hd ↦ ⟨v, hd, hj⟩⟩
  rintro ⟨n, hn, hjn⟩
  rwa [Method.number?_inj hj hjn]

/-- A stable state contains every variable that is live, path by path. -/
theorem Fits.mem_inAt_of_stable (h : Fits m l) (hs : Stable l) {v : Text} (hl : m.Live v i)
    (hj : m.number? v = some j) : (l.inAt i).mem j = true := by
  induction hl with
  | use hx hv =>
    have hi := (List.getElem?_eq_some_iff.1 hx).1
    exact (hs _ (h.length ▸ hi)).before j (mem_beforeAt.2 (.inr (h.mem_use hx hv hj)))
  | later hd hn hl ih =>
    obtain ⟨x, hx⟩ := hn.exists_code
    refine (hs _ (h.length ▸ hn.lt_length)).before j (mem_beforeAt.2 (.inl ⟨?_, ?_⟩))
    · exact h.mem_joinAt hx hn hl.lt_length ih
    · rw [Bool.eq_false_iff, Ne, h.mem_defs hx hj]
      rwa [Method.defAt, hx, Option.bind_some] at hd

theorem Fits.describes_of_stable (h : Fits m l) (hs : Stable l) : Describes m l := by
  refine ⟨h, h.mem_inAt_of_stable hs, fun {v i k j} _ hn hl hj ↦ ?_⟩
  obtain ⟨x, hx⟩ := hn.exists_code
  exact (hs _ (h.length ▸ hn.lt_length)).out j
    (h.mem_joinAt hx hn hl.lt_length (h.mem_inAt_of_stable hs hl hj))

theorem Fits.inRange (h : Fits m l) : l.inRange = true := by
  rw [Liveness.inRange, List.all_eq_true]
  intro f hf
  obtain ⟨i, hi⟩ := List.mem_iff_getElem?.1 hf
  have hlt := (List.getElem?_eq_some_iff.1 hi).1
  have hx := List.getElem?_eq_getElem (h.length ▸ hlt)
  rw [List.all_eq_true]
  intro s hs
  rw [← flowOf_eq hi] at hs
  obtain ⟨j, rfl, -, -⟩ := ((h.flow i _ hx).succ s).1 hs
  simp

/-- What is live before a lone instruction is what it reads. -/
theorem mem_inAt_lone (hlen : l.liveIn.length = l.flow.length) :
    (inAt { l with liveIn := List.zipWith (fun s f ↦ s.union f.use) l.liveIn l.flow } i).mem j = true ↔
      (l.inAt i).mem j = true ∨ (l.flowOf i).use.mem j = true := by
  rw [inAt, inAt, flowOf, List.getD_eq_getElem?_getD, List.getD_eq_getElem?_getD,
    List.getD_eq_getElem?_getD, List.getElem?_zipWith]
  by_cases hi : i < l.flow.length
  · rw [List.getElem?_eq_getElem hi, List.getElem?_eq_getElem (hlen ▸ hi)]
    simp
  · have hnone : (default : Flow).use.mem j = false := Bitmap.mem_wordless j
    rw [List.getElem?_eq_none (Nat.le_of_not_lt hi), List.getElem?_eq_none (by omega)]
    simp [hnone]

/-- **The analysis of a checked method succeeds, and its sets contain what is live on a path.** -/
theorem analyze_spec (hc : m.check = .ok ()) : ∃ l, analyze m = .ok l ∧ Describes m l := by
  obtain ⟨l, hl, hfit, hsound⟩ := build_spec hc
  rw [analyze, hl]
  show ∃ k, l.solve = .ok k ∧ _
  rw [solve]
  split
  · rename_i hlen
    refine ⟨_, rfl, ⟨hfit.vars, hfit.length, hfit.flow⟩, fun {v i j} hv hj ↦ ?_,
      fun h2 ↦ absurd (hfit.length ▸ hlen) (by omega)⟩
    -- with one instruction a path can only stay where it is
    have hzero {k : Nat} (hk : m.Live v k) : k = 0 := by
      have := hk.lt_length
      have := hfit.length
      omega
    induction hv with
    | use hx hv => exact (mem_inAt_lone hsound.lengthIn).2 (.inr (hfit.mem_use hx hv hj))
    | later hd hn hl ih =>
      rw [hzero (.later hd hn hl)]
      rwa [hzero hl] at ih
  · rw [if_pos hfit.inRange]
    obtain ⟨-, hle, hst⟩ := settle_bound_spec hsound
    exact ⟨_, rfl, (hfit.le hle).describes_of_stable hst⟩

end Liveness

end MiniJava
