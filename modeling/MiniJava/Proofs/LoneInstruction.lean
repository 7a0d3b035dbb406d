import MiniJava.Proofs.LivenessExact
import MiniJava.Proofs.Sweeping

/-!
# Methods of one instruction

A method of at most one instruction is analysed without a sweep: what its instruction reads is live before
it, and nothing is live after it.  This file compares that with sweeping until nothing changes.

Sweeping gives the variables that some path reads before writing them (`Settled.mem_inAt`,
`Settled.mem_outAt`).  In a method of one instruction a path can only stay where it is, so the set before the
instruction is the same both ways.  After the instruction something is live if the instruction goes back to
itself and reads a variable (`Method.RereadsItself`), and then the set after it is wrong
(`lone_sets_but_for_rereading`, `spin_sets_differ`).
-/

set_option autoImplicit false

namespace MiniJava

open IR

namespace Liveness

/-! ## What sweeping ends with -/

/-- A state of a method that holds what is live, and nothing else. -/
structure Settled (m : Method) (l : Liveness) : Prop where
  fits : Fits m l
  stable : Stable l
  justified : Justified m l

section
variable {m : Method} {l : Liveness}

theorem Settled.mem_inAt (h : Settled m l) {i j : Nat} :
    (l.inAt i).mem j = true ↔ ∃ v, m.number? v = some j ∧ m.Live v i := by
  refine ⟨h.justified.before i j, ?_⟩
  rintro ⟨v, hv, hlive⟩
  exact h.fits.mem_inAt_of_stable h.stable hlive hv

theorem Settled.mem_outAt (h : Settled m l) {i j : Nat} :
    (l.outAt i).mem j = true ↔ ∃ k v, m.Next i k ∧ m.number? v = some j ∧ m.Live v k := by
  refine ⟨h.justified.after i j, ?_⟩
  rintro ⟨k, v, hn, hv, hlive⟩
  obtain ⟨x, hx⟩ := hn.exists_code
  exact (h.stable i (h.fits.length ▸ hn.lt_length)).out j
    (h.fits.mem_joinAt hx hn hlive.lt_length (h.mem_inAt.2 ⟨v, hv, hlive⟩))

/-- Sweeping the state that a checked method starts from until nothing changes. -/
theorem settled_sweepTimes (hc : m.check = .ok ()) (hl : build m = .ok l) {n : Nat}
    (hn : l.SettlesAfter n) : Settled m (l.sweepTimes (n + 1)) := by
  obtain ⟨l', hl', hfit, hs⟩ := build_spec hc
  obtain rfl := Except.ok.inj (hl.symm.trans hl')
  have hempty := build_empty hl
  have hjust : Justified m l := by
    refine ⟨fun i j hj ↦ ?_, fun i j hj ↦ ?_⟩
    · rw [(hempty i j).1] at hj
      cases hj
    · rw [(hempty i j).2] at hj
      cases hj
  -- with enough sweeps allowed, `settle` makes the same ones
  have hfuel : n < n + l.bound := by
    rw [bound]
    omega
  have hmarks : 2 * l.flow.length * l.vars.length < n + l.bound + l.marks.card := by
    rw [bound]
    omega
  rw [← hn.settle_eq hfuel]
  obtain ⟨-, hle, hstable⟩ := settle_spec hs hmarks
  exact ⟨hfit.le hle, hstable, hjust.settle hfit hs⟩

end

end Liveness

/-! ## Paths in a method of one instruction -/

namespace IR.Method

variable {m : Method} {v : Text}

/-- The only instruction of the method is a branch back to itself, and it reads a variable. -/
def RereadsItself (m : Method) : Prop :=
  ∃ cond label, m.code = [.branch cond label] ∧ m.target? label = some 0 ∧ cond.uses ≠ []

/-- With one instruction, a path can only stay where it is. -/
theorem Live.of_length_le_one (hlen : m.code.length ≤ 1) {i : Nat} (h : m.Live v i) :
    i = 0 ∧ ∃ x, m.code = [x] ∧ v ∈ x.uses := by
  induction h with
  | use hx hv =>
    obtain ⟨hi, -⟩ := List.getElem?_eq_some_iff.1 hx
    obtain ⟨y, hy⟩ := List.length_eq_one_iff.1 (show m.code.length = 1 by omega)
    rw [hy, List.length_singleton, Nat.lt_one_iff] at hi
    subst hi
    rw [hy] at hx
    cases hx
    exact ⟨rfl, _, hy, hv⟩
  | later _ hn _ ih =>
    have hi := hn.lt_length
    exact ⟨by omega, ih.2⟩

/-- Something is live after the only instruction exactly if that is a branch to itself that reads it. -/
theorem exists_next_live_iff (hlen : m.code.length ≤ 1) {i : Nat} :
    (∃ k, m.Next i k ∧ m.Live v k) ↔ i = 0 ∧
      ∃ cond label, m.code = [.branch cond label] ∧ m.target? label = some 0 ∧ v ∈ cond.uses := by
  constructor
  · rintro ⟨k, hn, hlive⟩
    obtain ⟨rfl, x, hcode, hv⟩ := hlive.of_length_le_one hlen
    have hi := hn.lt_length
    obtain rfl : i = 0 := by omega
    refine ⟨rfl, ?_⟩
    have hx : m.code[0]? = some x := by rw [hcode]; rfl
    rcases (next_iff hx).1 hn with ⟨-, h⟩ | ⟨label, htarget, hzero⟩
    · cases h
    · cases x with
      | branch cond label' =>
        cases htarget
        exact ⟨cond, label, hcode, hzero, hv⟩
      | goto label' => cases hv
      | _ => cases htarget
  · rintro ⟨rfl, cond, label, hcode, hzero, hv⟩
    have hx : m.code[0]? = some (.branch cond label) := by rw [hcode]; rfl
    exact ⟨0, .jump hx rfl hzero, .use hx hv⟩

end IR.Method

namespace Liveness

/-! ## The two ways compared -/

/-- The analysis of a method of at most one instruction leaves the sets after it empty. -/
theorem solve_lone {m : Method} {l : Liveness} (hl : build m = .ok l) (hlen : l.flow.length ≤ 1) :
    ∃ solved, l.solve = .ok solved ∧ ∀ i j, (solved.outAt i).mem j = false :=
  ⟨{ l with liveIn := List.zipWith (fun s f ↦ s.union f.use) l.liveIn l.flow },
    by rw [solve, if_pos hlen], fun i j ↦ (build_empty hl i j).2⟩

/-- **What a lone instruction needs no sweep for.**  In a checked method of at most one instruction, the sets
before an instruction are those that sweeping until nothing changes ends with.  The sets after it are empty,
and sweeping ends with the same exactly if the instruction is no branch to itself that reads a variable. -/
theorem lone_sets_but_for_rereading {m : Method} (hc : m.check = .ok ()) (hlen : m.code.length ≤ 1) :
    ∃ l solved n, build m = .ok l ∧ l.solve = .ok solved ∧ l.SettlesAfter n ∧
      (∀ i j, (solved.inAt i).mem j = ((l.sweepTimes (n + 1)).inAt i).mem j) ∧
      (∀ i j, (solved.outAt i).mem j = false) ∧
      ((∀ i j, (solved.outAt i).mem j = ((l.sweepTimes (n + 1)).outAt i).mem j) ↔
        ¬ m.RereadsItself) := by
  obtain ⟨l, hl, hfit, hs⟩ := build_spec hc
  obtain ⟨solved, hsolve, hempty⟩ := solve_lone hl (hfit.length ▸ hlen)
  obtain ⟨n, -, hn⟩ := exists_settlesAfter hs
  have hswept := settled_sweepTimes hc hl hn
  have hanalyze : analyze m = .ok solved := by
    rw [analyze, hl]
    exact hsolve
  obtain ⟨solved', hsolved', hdescribes⟩ := analyze_spec hc
  obtain rfl := Except.ok.inj (hanalyze.symm.trans hsolved')
  have hjust := justified_of_analyze hc hanalyze
  refine ⟨l, solved, n, hl, hsolve, hn, fun i j ↦ ?_, hempty, ?_⟩
  · -- both hold what is live before the instruction
    rw [Bool.eq_iff_iff, hswept.mem_inAt]
    refine ⟨hjust.before i j, ?_⟩
    rintro ⟨v, hv, hlive⟩
    exact hdescribes.before hlive hv
  · have hsame (i j : Nat) : (solved.outAt i).mem j = ((l.sweepTimes (n + 1)).outAt i).mem j ↔
        ¬ ∃ k v, m.Next i k ∧ m.number? v = some j ∧ m.Live v k := by
      rw [hempty, eq_comm, Bool.eq_false_iff, Ne, hswept.mem_outAt]
    simp only [hsame]
    constructor
    · rintro hnone ⟨cond, label, hcode, hzero, huses⟩
      obtain ⟨v, hv⟩ := List.exists_mem_of_ne_nil _ huses
      have hx : m.code[0]? = some (.branch cond label) := by rw [hcode]; rfl
      obtain ⟨j, hj⟩ := Method.exists_number? (Method.contains_of_mem_uses hc hx hv)
      obtain ⟨k, hnext, hlive⟩ := (Method.exists_next_live_iff hlen).2
        ⟨rfl, cond, label, hcode, hzero, hv⟩
      exact hnone 0 j ⟨k, v, hnext, hj, hlive⟩
    · rintro hloop i j ⟨k, v, hnext, -, hlive⟩
      obtain ⟨-, cond, label, hcode, hzero, hv⟩ := (Method.exists_next_live_iff hlen).1 ⟨k, hnext, hlive⟩
      exact hloop ⟨cond, label, hcode, hzero, List.ne_nil_of_mem hv⟩

/-! ## A method that waits -/

/-- A method that stays at its only instruction as long as its parameter is true. -/
def spin : Method where
  name := "spin"
  isStatic := true
  params := [⟨"a", .bool⟩]
  code := [.branch (.single (.var "a" .bool)) "again"]
  labels := ⟨[("again", 0)], by decide⟩
  vars := ⟨[⟨"a", .bool, .param, -1⟩], by decide⟩

theorem spin_sets_but_for_rereading : spin.check = .ok () ∧ spin.code.length ≤ 1 ∧
    spin.RereadsItself ∧ ∃ l solved n, build spin = .ok l ∧ l.solve = .ok solved ∧ l.SettlesAfter n ∧
      (∀ i j, (solved.inAt i).mem j = ((l.sweepTimes (n + 1)).inAt i).mem j) ∧
      ¬ ∀ i j, (solved.outAt i).mem j = ((l.sweepTimes (n + 1)).outAt i).mem j := by
  have hc : spin.check = .ok () := by decide
  have hloop : spin.RereadsItself := ⟨_, _, rfl, rfl, by decide⟩
  obtain ⟨l, solved, n, hl, hsolve, hn, hin, -, hout⟩ := lone_sets_but_for_rereading hc (by decide)
  exact ⟨hc, by decide, hloop, l, solved, n, hl, hsolve, hn, hin, fun h ↦ hout.1 h hloop⟩

/-- The parameter of `spin` is live after its instruction, since that comes again: sweeping finds it, and
the analysis does not. -/
theorem spin_sets_differ : spin.check = .ok () ∧ spin.code.length ≤ 1 ∧
    ∃ l solved, build spin = .ok l ∧ l.solve = .ok solved ∧ l.SettlesAfter 2 ∧
      (l.sweepTimes 3).names ((l.sweepTimes 3).outAt 0) = [("a" : Text)] ∧
      solved.names (solved.outAt 0) = [] := by
  refine ⟨by decide, by decide, _, _, rfl, rfl, ⟨?_, ?_⟩, ?_, ?_⟩
  · decide +kernel
  · decide +kernel
  · decide +kernel
  · decide +kernel

end Liveness

end MiniJava
