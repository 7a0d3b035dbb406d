import MiniJava.Proofs.EmittedLabels
import MiniJava.Proofs.LivenessExact
import MiniJava.Proofs.LoweredSites
import MiniJava.Proofs.MirroredRenaming

/-!
# Temporaries are written first

On every path through a lowered method a temporary is written before it is read, so none is live at the
start (`temporaries_are_written_first`).

The proof looks at a name that the source cannot use (`Hidden`), and at the paths on which it is read but
not written before (`Method.Wants`).  Lowered code passes such a name on (`Fragment.Passes`): if the name
is wanted at the start of the code, then it is wanted at its end as well, and it is not what the value of
the code is read from.  So a temporary that code leaves its value in is not wanted before the code, and
this stays true when the code of other operands, with branches of its own, stands in between.  The end of
a method is no instruction, and nothing is wanted there.

Code that jumps is passed in steps.  A loop comes back to its start, but in fewer steps each time, which is
why `Method.Wants` counts them.
-/

set_option autoImplicit false

namespace MiniJava

open IR

/-! ## Wanted names -/

namespace IR.Method

/-- A variable is read on a path of at most `n` steps from an index, and not written before. -/
inductive Wants (m : Method) (v : Text) : Nat → Nat → Prop
  | use {n i : Nat} {x : Instr} (hx : m.code[i]? = some x) (hv : v ∈ x.uses) : Wants m v n i
  | later {n i j : Nat} (hd : m.defAt i ≠ some v) (hn : m.Next i j) (h : Wants m v n j) :
      Wants m v (n + 1) i

section
variable {m : Method} {v : Text} {n i : Nat} {x : Instr}

theorem Live.wants (h : m.Live v i) : ∃ n, m.Wants v n i := by
  induction h with
  | use hx hv => exact ⟨0, .use hx hv⟩
  | later hd hn _ ih =>
    obtain ⟨n, h⟩ := ih
    exact ⟨n + 1, .later hd hn h⟩

namespace Wants

theorem mono {k : Nat} (h : m.Wants v n i) (hk : n ≤ k) : m.Wants v k i := by
  induction h generalizing k with
  | use hx hv => exact .use hx hv
  | later hd hn _ ih =>
    obtain ⟨k, rfl⟩ := Nat.exists_eq_succ_of_ne_zero (by omega : k ≠ 0)
    exact .later hd hn (ih (by omega))

theorem lt_length (h : m.Wants v n i) : i < m.code.length := by
  cases h with
  | use hx _ => exact (List.getElem?_eq_some_iff.1 hx).1
  | later _ hn _ => exact hn.lt_length

/-- A variable that an instruction does not read is wanted where control goes from it. -/
theorem next (h : m.Wants v n i) (hx : m.code[i]? = some x) (hv : v ∉ x.uses) :
    x.defs? ≠ some v ∧ ∃ k < n, ∃ j, m.Next i j ∧ m.Wants v k j := by
  cases h with
  | use hy hu =>
    obtain rfl := Option.some.inj (hx.symm.trans hy)
    exact absurd hu hv
  | later hd hn h =>
    rw [defAt, hx] at hd
    exact ⟨hd, _, Nat.lt_succ_self _, _, hn, h⟩

theorem instr (h : m.Wants v n i) (hx : m.code[i]? = some x) (hv : v ∉ x.uses)
    (ht : x.target? = none) : x.defs? ≠ some v ∧ m.Wants v n (i + 1) := by
  obtain ⟨hd, k, hk, j, hn, h⟩ := h.next hx hv
  refine ⟨hd, ?_⟩
  rcases (next_iff hx).1 hn with ⟨-, rfl⟩ | ⟨label, hl, -⟩
  · exact h.mono (Nat.le_of_lt hk)
  · rw [ht] at hl
    cases hl

/-- A variable that is written is not wanted before. -/
theorem assign {name : Text} {ty ty' : Ty} {y : Instr} (h : m.Wants v n i)
    (hx : m.code[i]? = some (.assign (.var name ty) ty' y)) (hv : v ∉ y.uses) :
    v ≠ name ∧ m.Wants v n (i + 1) :=
  (h.instr hx hv rfl).imp_left fun hd heq ↦ hd (congrArg some heq.symm)

theorem goto {label : Text} {j : Nat} (h : m.Wants v n i) (hx : m.code[i]? = some (.goto label))
    (hl : m.target? label = some (j : Int)) : ∃ k < n, m.Wants v k j := by
  obtain ⟨-, k, hk, j', hn, h⟩ := h.next hx (by simp [Instr.uses])
  rcases (next_iff hx).1 hn with ⟨hf, -⟩ | ⟨label', hl', hj⟩
  · cases hf
  · cases hl'
    rw [← Int.ofNat_inj.1 (Option.some.inj (hj.symm.trans hl))]
    exact ⟨k, hk, h⟩

theorem branch {cond : Instr} {label : Text} {j : Nat} (h : m.Wants v n i)
    (hx : m.code[i]? = some (.branch cond label)) (hv : v ∉ cond.uses)
    (hl : m.target? label = some (j : Int)) :
    ∃ k < n, m.Wants v k (i + 1) ∨ m.Wants v k j := by
  obtain ⟨-, k, hk, j', hn, h⟩ := h.next hx hv
  rcases (next_iff hx).1 hn with ⟨-, rfl⟩ | ⟨label', hl', hj⟩
  · exact ⟨k, hk, .inl h⟩
  · cases hl'
    rw [← Int.ofNat_inj.1 (Option.some.inj (hj.symm.trans hl))]
    exact ⟨k, hk, .inr h⟩

end Wants

end

end IR.Method

/-! ## Code that passes names on -/

namespace Fragment

/-- **Code passes a name on**: wherever the code is placed, if the name is wanted at its start, then it is
wanted at its end too, and something more is known of the name. -/
def Passes (v : Text) (f : Fragment) (more : Prop) : Prop :=
  ∀ m base n, Placed m base f → m.Wants v n base → more ∧ m.Wants v n (base + f.code.length)

namespace Passes

variable {v : Text} {f g : Fragment} {P Q : Prop} {x : Instr}

theorem empty (h : P) : empty.Passes v P := fun _ _ _ _ hw ↦ ⟨h, hw⟩

theorem mono (h : f.Passes v P) (hpq : P → Q) : f.Passes v Q :=
  fun m base n hp hw ↦ (h m base n hp hw).imp_left hpq

/-- What is known after the first part can be used in the second one. -/
theorem append (hf : f.Passes v P) (hg : P → g.Passes v Q) : (f ++ g).Passes v (P ∧ Q) := by
  intro m base n hp hw
  rw [MiniJava.placed_append] at hp
  obtain ⟨hP, hw⟩ := hf m base n hp.1 hw
  obtain ⟨hQ, hw⟩ := hg hP m _ n hp.2 hw
  rw [code_append, List.length_append, ← Nat.add_assoc]
  exact ⟨⟨hP, hQ⟩, hw⟩

theorem instr (hv : v ∉ x.uses) (ht : x.target? = none) : (Fragment.instr x).Passes v True :=
  fun _ _ _ hp hw ↦ ⟨trivial, (hw.instr (MiniJava.placed_instr.1 hp) hv ht).2⟩

theorem assign (name : Text) (ty ty' : Ty) (hv : v ∉ x.uses) :
    (Fragment.instr (.assign (.var name ty) ty' x)).Passes v (v ≠ name) :=
  fun _ _ _ hp hw ↦ hw.assign (MiniJava.placed_instr.1 hp) hv

theorem instrs {xs : List Instr} (h : ∀ x ∈ xs, v ∉ x.uses ∧ x.target? = none) :
    (Fragment.instrs xs).Passes v True := by
  induction xs with
  | nil => exact empty trivial
  | cons x xs ih =>
    rw [instrs_cons]
    have hx := h x (by simp)
    exact ((instr hx.1 hx.2).append fun _ ↦ ih fun y hy ↦ h y (by simp [hy])).mono fun _ ↦ trivial

end Passes

end Fragment

/-- **A name that the source cannot use**: it is no variable in scope, and not the receiver. -/
structure Hidden (t : Scope) (v : Text) : Prop where
  self : t.sig.isStatic = false → v ≠ Method.receiver
  var : ∀ s, t.lookup v ≠ some (.var s)

/-- The variables that a value is read from. -/
def Value.uses : Value → List Text
  | operand x => x.uses
  | instr x => x.uses

/-- Lowering an expression gives code that passes a name on, which its value is not read from then. -/
def PassesOn (v : Text) (lower : Lowering) : Prop :=
  ∀ want, (lower want).Ensures fun r ↦ r.2.Passes v (v ∉ r.1.uses)

namespace Lowering

open LowerM (Ensures)

/-! ## Consumers -/

section
variable {v : Text} {lower left right : Lowering} {lowers : List Lowering}

theorem operand_passes (h : PassesOn v lower) (want : Ty) :
    Ensures (operand lower want) fun r ↦ r.2.Passes v (v ∉ r.1.uses) := by
  refine (h want).bind ?_
  rintro ⟨y, s⟩ hs
  cases y with
  | operand x => exact .pure hs
  | instr x =>
    refine (Ensures.temp x.ty).bind ?_
    rintro _ ⟨name, rfl⟩
    exact .pure ((hs.append (.assign name _ _)).mono (by simp))

theorem instr_passes (h : PassesOn v lower) (want : Ty) :
    Ensures (instr lower want) fun r ↦ r.2.Passes v (v ∉ r.1.uses) := by
  refine (h want).bind ?_
  rintro ⟨y, s⟩ hs
  cases y with
  | operand x => exact .pure hs
  | instr x => exact .pure hs

theorem fixedArgs_passes (h : ∀ lower ∈ lowers, PassesOn v lower) (params : List Symbol) :
    Ensures (fixedArgs lowers params) fun r ↦ r.2.Passes v (∀ x ∈ r.1, v ∉ x.uses) := by
  induction lowers generalizing params with
  | nil => exact .pure (.empty (by simp))
  | cons lower lowers ih =>
    cases params with
    | nil => exact .pure (.empty (by simp))
    | cons p params =>
      refine (operand_passes (h lower (by simp)) p.ty).bind ?_
      rintro ⟨x, s⟩ hs
      refine (ih (fun l hl ↦ h l (by simp [hl])) params).bind ?_
      rintro ⟨xs, r⟩ hr
      exact .pure ((hs.append fun _ ↦ hr).mono fun h ↦ List.forall_mem_cons.2 h)

theorem operands_passes (h : ∀ lower ∈ lowers, PassesOn v lower) (want : Ty) :
    Ensures (operands want lowers) fun r ↦ r.2.Passes v (∀ x ∈ r.1, v ∉ x.uses) := by
  rw [operands_eq_fixedArgs]
  exact fixedArgs_passes h _

theorem array_passes (h : PassesOn v lower) (pos : Position) :
    Ensures (array pos lower) fun r ↦ r.2.Passes v (v ≠ r.1.name) := by
  refine (operand_passes h .absent).bind ?_
  rintro ⟨x, s⟩ hs
  cases x with
  | var name ty =>
    dsimp only
    split
    · exact .unsupported
    · exact .pure (hs.mono (by simp))
  | missing | literal _ _ | elem _ _ _ => exact .unsupported

/-- The fresh array is written before its elements are. -/
theorem pack_passes (v : Text) (ty : Ty) (items : List Operand) : Ensures (pack ty items) fun r ↦
    (∀ x ∈ items, v ∉ x.uses) → r.2.Passes v (v ∉ r.1.uses) := by
  refine .after fun name ↦ .pure fun hitems ↦ ?_
  have hnew : v ∉ (Instr.call { kind := .newArray, args := [intLiteral items.length],
                                ret := ty }).uses := by
    simp [Instr.uses, intLiteral]
  refine ((Fragment.Passes.assign name ty ty hnew).append fun hname ↦
    .instrs fun x hx ↦ ⟨?_, ?_⟩).mono ?_
  · obtain ⟨⟨y, i⟩, hy, rfl⟩ := List.mem_map.1 hx
    have hmem : y ∈ items := List.mem_of_getElem? (List.mem_zipIdx_iff_getElem?.1 hy)
    simpa [Instr.uses, ArrayVar.get, Operand.uses, intLiteral, hname] using hitems y hmem
  · obtain ⟨_, -, rfl⟩ := List.mem_map.1 hx
    rfl
  · rintro ⟨hname, -⟩
    simpa [ArrayVar.whole] using hname

/-! ## Names and operators -/

variable {t : Scope}

theorem this_passes (hv : Hidden t v) (pos : Position) : Ensures (t.this pos) fun x ↦ v ∉ x.uses := by
  rw [Scope.this]
  split
  · exact .unsupported
  · rename_i hs
    refine .pure ?_
    simpa using hv.self (Bool.eq_false_iff.2 hs)

theorem fieldObject_passes (hv : Hidden t v) (pos : Position) (field : Symbol) :
    Ensures (t.fieldObject pos field) fun x ↦ v ∉ x.uses := by
  rw [Scope.fieldObject]
  split
  · exact .pure (by simp)
  · exact this_passes hv pos

theorem ident_passes (hv : Hidden t v) (pos : Position) (name : Text) :
    PassesOn v fun _ ↦ ident t pos name := by
  intro want
  rw [ident]
  split
  · exact .unsupported
  · rename_i s hs
    refine .pure (.empty ?_)
    rintro hname
    obtain rfl := List.mem_singleton.1 hname
    exact hv.var s hs
  · rename_i f _
    exact (fieldObject_passes hv pos f).bind fun x hx ↦ .pure (.empty hx)

theorem literal_passes (text : Text) (ty : Ty) :
    PassesOn v fun _ ↦ return (.operand (.literal text ty), .empty) :=
  fun _ ↦ .pure (.empty (by simp [Value.uses]))

/-- A short-circuit operator writes its result on both ways. -/
theorem logic_passes (hl : PassesOn v left) (hr : PassesOn v right) (isAnd : Bool) :
    PassesOn v fun _ ↦ logic isAnd left right := by
  intro want
  rw [logic_eq]
  refine (operand_passes hl .bool).bind ?_
  rintro ⟨l, ls⟩ hls
  refine (Ensures.temp .bool).bind ?_
  rintro _ ⟨name, rfl⟩
  refine .after ?_
  rintro ⟨onTrue, done⟩
  refine (operand_passes hr .bool).bind ?_
  rintro ⟨r, rs⟩ hrs
  refine .pure fun m base n hp hw ↦ ?_
  have hresult (h : v ≠ name) : v ∉ (Value.operand (.var name .bool)).uses := by
    simpa [Value.uses] using h
  have hliteral (b : Bool) : v ∉ (Instr.single (boolLiteral b)).uses := by
    simp [Instr.uses, boolLiteral]
  cases isAnd with
  | true =>
    simp only [shortCircuit, if_true, placed_append, placed_instr, placed_label, Fragment.code_append,
      List.length_append, length_code_instr, length_code_label, Nat.add_zero, ← Nat.add_assoc] at hp ⊢
    obtain ⟨⟨⟨⟨⟨⟨⟨hpl, hbranch⟩, hset⟩, hgoto⟩, htrue⟩, hpr⟩, hset'⟩, hdone⟩ := hp
    obtain ⟨hvl, hw⟩ := hls m base n hpl hw
    obtain ⟨k, hk, hw | hw⟩ := hw.branch hbranch hvl htrue
    · -- the left side is false
      obtain ⟨hname, hw⟩ := hw.assign hset (hliteral false)
      obtain ⟨k', hk', hw⟩ := hw.goto hgoto hdone
      exact ⟨hresult hname, hw.mono (by omega)⟩
    · obtain ⟨hvr, hw⟩ := hrs m _ k hpr hw
      obtain ⟨hname, hw⟩ := hw.assign hset' hvr
      exact ⟨hresult hname, hw.mono (by omega)⟩
  | false =>
    simp only [shortCircuit, Bool.false_eq_true, if_false, placed_append, placed_instr, placed_label,
      Fragment.code_append, List.length_append, length_code_instr, length_code_label, Nat.add_zero,
      ← Nat.add_assoc] at hp ⊢
    obtain ⟨⟨⟨⟨⟨⟨⟨hpl, hbranch⟩, hpr⟩, hset⟩, hgoto⟩, htrue⟩, hset'⟩, hdone⟩ := hp
    obtain ⟨hvl, hw⟩ := hls m base n hpl hw
    obtain ⟨k, hk, hw | hw⟩ := hw.branch hbranch hvl htrue
    · obtain ⟨hvr, hw⟩ := hrs m _ k hpr hw
      obtain ⟨hname, hw⟩ := hw.assign hset hvr
      obtain ⟨k', hk', hw⟩ := hw.goto hgoto hdone
      exact ⟨hresult hname, hw.mono (by omega)⟩
    · -- the left side is true
      obtain ⟨hname, hw⟩ := hw.assign hset' (hliteral true)
      exact ⟨hresult hname, hw.mono (by omega)⟩

theorem binary_passes (hl : PassesOn v left) (hr : PassesOn v right) (pos : Position) (op : Text) :
    PassesOn v fun _ ↦ binary pos op left right := by
  intro want
  rw [binary]
  split
  · exact .unsupported
  · exact logic_passes hl hr true want
  · exact logic_passes hl hr false want
  · refine (operand_passes hl .int).bind ?_
    rintro ⟨l, ls⟩ hls
    refine (operand_passes hr .int).bind ?_
    rintro ⟨r, rs⟩ hrs
    exact .pure ((hls.append fun _ ↦ hrs).mono (by simp [Value.uses, Instr.uses]))

theorem unary_passes (h : PassesOn v lower) (pos : Position) (op : Text) :
    PassesOn v fun _ ↦ unary pos op lower := by
  intro want
  rw [unary]
  split
  · exact .unsupported
  · refine (operand_passes h _).bind ?_
    rintro ⟨x, s⟩ hs
    exact .pure hs

/-! ## Objects and arrays -/

/-- The variable that an object is made in is written before the constructor reads it. -/
theorem construct_passes (name : Text) (ty : Ty) (cls : Text) :
    (construct (.var name ty) cls).Passes v (v ≠ name) := by
  have hnew : v ∉ (Instr.call { kind := .newObject, cls, ret := ty }).uses := by
    simp [Instr.uses]
  refine ((Fragment.Passes.assign name ty ty hnew).append fun hname ↦
    .instr (x := .call { kind := .special, caller := .var name ty, method := "<init>", ret := .void })
      ?_ rfl).mono And.left
  simpa [Instr.uses] using hname

theorem newObject_passes (t : Scope) (cls : Text) : PassesOn v fun _ ↦ newObject t cls := by
  intro want
  refine (Ensures.temp _).bind ?_
  rintro _ ⟨name, rfl⟩
  exact .pure ((construct_passes name _ cls).mono (by simp [Value.uses]))

theorem newArray_passes (h : PassesOn v lower) (t : Scope) (elem : TypeName) :
    PassesOn v fun _ ↦ newArray t elem lower := by
  intro want
  refine (operand_passes h .int).bind ?_
  rintro ⟨x, s⟩ hs
  exact .pure (hs.mono (by simp [Value.uses, Instr.uses]))

theorem arrayLiteral_passes (h : ∀ lower ∈ lowers, PassesOn v lower) :
    PassesOn v (arrayLiteral lowers) := by
  intro want
  refine (operands_passes h _).bind ?_
  rintro ⟨xs, s⟩ hs
  refine (pack_passes v _ xs).bind ?_
  rintro ⟨x, r⟩ hr
  exact .pure ((hs.append hr).mono And.right)

/-- An element is read from the array and from its index. -/
theorem not_mem_uses_elem {base : Text} {index : Operand} {ty : Ty} (hb : v ≠ base)
    (hi : v ∉ index.uses) : v ∉ (Operand.elem base index ty).uses := by
  cases index with
  | var name _ =>
    have hname : v ≠ name := by simpa using hi
    simp [Operand.uses, hb, hname]
  | missing | literal _ _ | elem _ _ _ => simpa [Operand.uses] using hb

theorem element_passes {base index : Lowering} (ha : PassesOn v base) (hi : PassesOn v index)
    (pos : Position) : PassesOn v fun _ ↦ element pos base index := by
  intro want
  refine (array_passes ha pos).bind ?_
  rintro ⟨a, s⟩ hs
  refine (operand_passes hi .int).bind ?_
  rintro ⟨x, r⟩ hr
  exact .pure ((hs.append fun _ ↦ hr).mono fun h ↦ not_mem_uses_elem h.1 h.2)

theorem length_passes (h : PassesOn v lower) (pos : Position) :
    PassesOn v fun _ ↦ length pos lower := by
  intro want
  refine (array_passes h pos).bind ?_
  rintro ⟨a, s⟩ hs
  exact .pure (hs.mono (by simp [Value.uses, Instr.uses, ArrayVar.whole]))

/-! ## Calls -/

theorem classTarget_passes (t : Scope) (pos : Position) (cls name : Text) :
    Ensures (classTarget t pos cls name) fun r ↦ v ∉ r.caller.uses := by
  rw [classTarget]
  split
  · split
    · exact .pure (by simp [Target.ownStatic])
    · exact .unsupported
  · exact .pure (by simp)

theorem valueTarget_passes (t : Scope) (pos : Position) (x : Operand) (name : Text) :
    Ensures (valueTarget t pos x name) fun r ↦ v ∉ x.uses → v ∉ r.caller.uses := by
  have hown (hx : v ∉ x.uses) : v ∉ (Target.onOwn t x name).caller.uses := by
    rw [Target.onOwn]
    split
    · split
      · simp [Target.ownStatic]
      · exact hx
    · exact hx
  rw [valueTarget]
  dsimp only
  split
  · exact .pure hown
  · exact .pure hown
  · exact .pure id
  · exact .pure id
  · exact .unsupported

theorem target_passes (hv : Hidden t v) {recv : Option (Expr × Lowering)}
    (h : ∀ r ∈ recv, PassesOn v r.2) (pos : Position) (name : Text) :
    Ensures (target t pos recv name) fun r ↦ r.2.Passes v (v ∉ r.1.caller.uses) := by
  rw [target.eq_def]
  split
  · split
    · exact .pure (.empty (by simp [Target.ownStatic]))
    · refine (this_passes hv pos).bind fun x hx ↦ ?_
      exact (valueTarget_passes t pos x name).bind fun r hr ↦ .pure (.empty (hr hx))
  · rename_i e lower
    split
    · split
      · exact .unsupported
      · exact (classTarget_passes t pos _ name).bind fun r hr ↦ .pure (.empty hr)
    · refine (operand_passes (h (e, lower) rfl) .absent).bind ?_
      rintro ⟨x, s⟩ hs
      exact (valueTarget_passes t pos x name).bind fun r hr ↦ .pure (hs.mono hr)

section
variable {args : List (Expr × Lowering)} (h : ∀ a ∈ args, PassesOn v a.2)
include h

theorem variadicArgs_passes (ty : Ty) :
    Ensures (variadicArgs ty args) fun r ↦ r.2.Passes v (v ∉ r.1.uses) := by
  rw [variadicArgs.eq_def]
  split
  · rename_i e lower
    refine (operand_passes (h (e, lower) (by simp)) _).bind ?_
    rintro ⟨x, s⟩ hs
    dsimp only
    split
    · exact .pure hs
    · refine (pack_passes v ty [x]).bind ?_
      rintro ⟨y, p⟩ hp
      exact .pure ((hs.append fun hx ↦ hp (by simpa using hx)).mono And.right)
  · refine (operands_passes (List.forall_mem_map.2 h) _).bind ?_
    rintro ⟨xs, s⟩ hs
    refine (pack_passes v ty xs).bind ?_
    rintro ⟨y, p⟩ hp
    exact .pure ((hs.append hp).mono And.right)

theorem argsFor_passes (pos : Position) (sig : Signature) :
    Ensures (argsFor pos sig args) fun r ↦ r.2.Passes v (∀ x ∈ r.1, v ∉ x.uses) := by
  have hpart {as : List (Expr × Lowering)} (has : as ⊆ args) :
      ∀ lower ∈ as.map Prod.snd, PassesOn v lower :=
    List.forall_mem_map.2 fun a ha ↦ h a (has ha)
  rw [argsFor]
  dsimp only
  split
  · split
    · exact .unsupported
    · exact fixedArgs_passes (hpart fun _ ha ↦ ha) _
  · split
    · exact .throw
    · split
      · exact .unsupported
      · refine (fixedArgs_passes (hpart (List.take_subset _ _)) _).bind ?_
        rintro ⟨xs, s⟩ hs
        dsimp only
        split
        · refine (variadicArgs_passes (fun a ha ↦ h a (List.drop_subset _ _ ha)) _).bind ?_
          rintro ⟨y, p⟩ hp
          refine .pure ((hs.append fun _ ↦ hp).mono fun hxs ↦ ?_)
          exact List.forall_mem_append.2 ⟨hxs.1, by simpa using hxs.2⟩
        · exact .throw

theorem call_passes {t : Scope} (hv : Hidden t v) {recv : Option (Expr × Lowering)}
    (hr : ∀ r ∈ recv, PassesOn v r.2) (pos : Position) (name : Text) (want : Ty) :
    Ensures (call t pos recv name args want) fun r ↦ r.2.Passes v (v ∉ (Instr.call r.1).uses) := by
  refine (target_passes hv hr pos name).bind ?_
  rintro ⟨⟨kind, caller, cls, sig⟩, s⟩ hs
  have hcall {xs : List Operand} {f : Fragment} {ret : Ty} (hf : f.Passes v (∀ x ∈ xs, v ∉ x.uses)) :
      (s ++ f).Passes v
        (v ∉ (Instr.call { kind, caller, cls, method := name, args := xs, ret }).uses) := by
    refine (hs.append fun _ ↦ hf).mono fun huses ↦ ?_
    rw [Instr.uses, List.mem_append, List.mem_flatMap]
    rintro (hcaller | ⟨x, hx, hvx⟩)
    · exact huses.1 hcaller
    · exact huses.2 x hx hvx
  cases sig with
  | some sig =>
    refine (argsFor_passes h pos sig).bind ?_
    rintro ⟨xs, f⟩ hf
    exact .pure (hcall hf)
  | none =>
    refine (operands_passes (List.forall_mem_map.2 h) .absent).bind ?_
    rintro ⟨xs, f⟩ hf
    exact .pure (hcall hf)

theorem callValue_passes {t : Scope} (hv : Hidden t v) {recv : Option (Expr × Lowering)}
    (hr : ∀ r ∈ recv, PassesOn v r.2) (pos : Position) (name : Text) :
    PassesOn v (callValue t pos recv name args) := by
  intro want
  refine (call_passes h hv hr pos name _).bind ?_
  rintro ⟨c, s⟩ hs
  dsimp only
  split
  · exact .unsupported
  · exact .pure hs

end

end

end Lowering

/-! ## Expressions -/

open Lowering in
/-- **Lowered expressions pass hidden names on.** -/
theorem Expr.lower_passes {t : Scope} {v : Text} (hv : Hidden t v) (e : Expr) :
    PassesOn v (e.lower t) := by
  induction e using Expr.induction with
  | h e ih =>
    cases e with
    | int pos text => exact literal_passes text .int
    | bool pos b => exact literal_passes _ .bool
    | ident pos name => exact ident_passes hv pos name
    | this pos => exact fun _ ↦ (this_passes hv pos).bind fun x hx ↦ .pure (.empty hx)
    | paren pos e => exact ih e (by simp)
    | binary pos op left right =>
      exact binary_passes (ih left (by simp)) (ih right (by simp)) pos op
    | unary pos op arg => exact unary_passes (ih arg (by simp)) pos op
    | call pos recv name args =>
      exact callValue_passes (forall_args ih) hv (forall_receiver ih) pos name
    | new pos cls => exact newObject_passes t cls
    | newArray pos elem size => exact newArray_passes (ih size (by simp)) t elem
    | array pos elems =>
      refine arrayLiteral_passes ?_
      rw [lowerArgs_eq_map, List.map_map]
      exact List.forall_mem_map.2 ih
    | index pos base index =>
      exact element_passes (ih base (by simp)) (ih index (by simp)) _
    | length pos arg => exact length_passes (ih arg (by simp)) _

/-! ## Statements -/

/-- Lowering a statement gives code that passes a name on. -/
def PassesStep (v : Text) (step : LowerM Fragment) : Prop := step.Ensures fun f ↦ f.Passes v True

section
variable {t : Scope} {v : Text} (hv : Hidden t v)

include hv in
theorem Expr.lowerTest_passes (e : Expr) :
    (e.lowerTest t).Ensures fun r ↦ r.2.Passes v (v ∉ r.1.uses) := by
  rw [Expr.lowerTest]
  split
  · exact Lowering.instr_passes (e.lower_passes hv) .bool
  · refine (Lowering.operand_passes (e.lower_passes hv) .bool).bind ?_
    rintro ⟨x, s⟩ hs
    exact .pure hs

namespace Lowering

open LowerM (Ensures)

section
include hv

theorem effects_passes (e : Expr) : PassesStep v (effects t e) := by
  rw [effects]
  split
  · rename_i pos recv name args _
    have hparts : ∀ x ∈ (Expr.call pos recv name args).parts, PassesOn v (x.lower t) :=
      fun x _ ↦ x.lower_passes hv
    refine (call_passes (forall_args hparts) hv (forall_receiver hparts) pos name .void).bind ?_
    rintro ⟨c, s⟩ hs
    exact .pure ((hs.append fun hc ↦ .instr hc rfl).mono fun _ ↦ trivial)
  · refine (operand_passes (e.lower_passes hv) .absent).bind ?_
    rintro ⟨x, s⟩ hs
    exact .pure (hs.mono fun _ ↦ trivial)

theorem assign_passes (pos : Position) (name : Text) (e : Expr) :
    PassesStep v (assign t pos name e) := by
  rw [assign]
  split
  · exact .unsupported
  · rename_i f _
    refine (fieldObject_passes hv pos f).bind fun object hobject ↦ ?_
    refine (operand_passes (e.lower_passes hv) f.ty).bind ?_
    rintro ⟨x, s⟩ hs
    refine .pure ((hs.append fun hx ↦ .instr ?_ rfl).mono fun _ ↦ trivial)
    simpa [Instr.uses] using ⟨hobject, hx⟩
  · rename_i s _
    split
    · exact .pure ((construct_passes name _ _).mono fun _ ↦ trivial)
    · refine (instr_passes (e.lower_passes hv) s.ty).bind ?_
      rintro ⟨x, r⟩ hr
      exact .pure ((hr.append (.assign name _ _)).mono fun _ ↦ trivial)

theorem indexAssign_passes (pos : Position) (name : Text) (index e : Expr) :
    PassesStep v (indexAssign t pos name index e) := by
  refine (array_passes (ident_passes hv pos name) pos).bind ?_
  rintro ⟨a, s⟩ hs
  refine (operand_passes (index.lower_passes hv) .int).bind ?_
  rintro ⟨i, is⟩ his
  refine (instr_passes (e.lower_passes hv) a.ty.elem).bind ?_
  rintro ⟨x, xs⟩ hxs
  have hparts := (hs.append fun _ ↦ his).append fun _ ↦ hxs
  refine .pure ((hparts.append fun h ↦ .instr ?_ rfl).mono fun _ ↦ trivial)
  rw [ArrayVar.get, Instr.uses, List.mem_append, not_or]
  exact ⟨not_mem_uses_elem h.1.1 h.1.2, h.2⟩

/-- Control does not go on from a return, so a name that it does not read is not wanted there at all. -/
theorem ret_passes (pos : Position) (e : Option Expr) : PassesStep v (ret t pos e) := by
  cases e with
  | none =>
    rw [ret]
    split
    · exact .pure (.instr (by simp [Instr.uses]) rfl)
    · exact .unsupported
  | some e =>
    rw [ret]
    split
    · exact .unsupported
    · refine (operand_passes (e.lower_passes hv) t.sig.ret).bind ?_
      rintro ⟨x, s⟩ hs
      exact .pure ((hs.append fun hx ↦ .instr (x := .ret x _) hx rfl).mono fun _ ↦ trivial)

end

/-- A case that ends in a return is followed by the other one, where control does not come from it; the
name is passed on there all the same. -/
theorem conditional_passes {test : LowerM (Instr × Fragment)} {onTrue onFalse : LowerM Fragment}
    (ht : test.Ensures fun r ↦ r.2.Passes v (v ∉ r.1.uses)) (hyes : PassesStep v onTrue)
    (hno : PassesStep v onFalse) : PassesStep v (conditional test onTrue onFalse) := by
  refine ht.bind ?_
  rintro ⟨cond, s⟩ hs
  refine .after ?_
  rintro ⟨yes, done⟩
  refine hno.bind fun no hno ↦ hyes.bind fun body hbody ↦ .pure fun m base n hp hw ↦ ⟨trivial, ?_⟩
  have hlabel (b : Bool) : (if b then Fragment.label done else .empty).code.length = 0 := by
    cases b <;> rfl
  cases hleaves : no.endsWithReturn with
  | false =>
    simp only [hleaves, Bool.not_false, Bool.true_or, if_true, placed_append, placed_instr, placed_label,
      Fragment.code_append, List.length_append, length_code_instr, length_code_label, Nat.add_zero,
      ← Nat.add_assoc] at hp ⊢
    obtain ⟨⟨⟨⟨⟨⟨hps, hbranch⟩, hpno⟩, hgoto⟩, hplace⟩, hpbody⟩, hdone⟩ := hp
    obtain ⟨hcond, hw⟩ := hs m base n hps hw
    obtain ⟨k, hk, hw | hw⟩ := hw.branch hbranch hcond hplace
    · obtain ⟨k', hk', hw⟩ := (hno m _ k hpno hw).2.goto hgoto hdone
      exact hw.mono (by omega)
    · exact (hbody m _ k hpbody hw).2.mono (by omega)
  | true =>
    simp only [hleaves, Bool.not_true, Bool.false_or, Bool.false_eq_true, if_false, hlabel,
      Fragment.append_empty, placed_append, placed_instr, placed_label, Fragment.code_append,
      List.length_append, length_code_instr, length_code_label, Nat.add_zero, ← Nat.add_assoc] at hp ⊢
    obtain ⟨⟨⟨⟨⟨hps, hbranch⟩, hpno⟩, hplace⟩, hpbody⟩, -⟩ := hp
    obtain ⟨hcond, hw⟩ := hs m base n hps hw
    obtain ⟨k, hk, hw | hw⟩ := hw.branch hbranch hcond hplace
    · have hw := (hno m _ k hpno hw).2
      exact (hbody m _ k hpbody hw).2.mono (by omega)
    · exact (hbody m _ k hpbody hw).2.mono (by omega)

/-- A loop comes back to its start in fewer steps. -/
theorem loop_passes {test : LowerM (Instr × Fragment)} {body : LowerM Fragment}
    (ht : test.Ensures fun r ↦ r.2.Passes v (v ∉ r.1.uses)) (hbody : PassesStep v body) :
    PassesStep v (loop test body) := by
  refine .after ?_
  rintro ⟨again, enter, done⟩
  refine ht.bind ?_
  rintro ⟨cond, s⟩ hs
  refine hbody.bind fun b hb ↦ .pure fun m base n hp hw ↦ ⟨trivial, ?_⟩
  simp only [instrs_cons, placed_append, placed_instr, placed_label, Fragment.code_append,
    List.length_append, length_code_instr, length_code_label, length_code_instrs, List.length_nil,
    Nat.add_zero, Nat.zero_add, ← Nat.add_assoc] at hp ⊢
  obtain ⟨⟨⟨⟨⟨⟨hagain, hps⟩, hbranch, hleave, -⟩, henter⟩, hpb⟩, hback⟩, hdone⟩ := hp
  induction n using Nat.strongRecOn with
  | ind n ih =>
    obtain ⟨hcond, hw⟩ := hs m base n hps hw
    obtain ⟨k, hk, hw | hw⟩ := hw.branch hbranch hcond henter
    · obtain ⟨k', hk', hw⟩ := hw.goto hleave hdone
      exact hw.mono (by omega)
    · obtain ⟨k', hk', hw⟩ := (hb m _ k hpb hw).2.goto hback hagain
      exact (ih k' (by omega) hw).mono (by omega)

theorem stmts_pass {ss : List Stmt} (h : ∀ s ∈ ss, PassesStep v (s.lower t)) :
    PassesStep v (lowerStmts t ss) := by
  induction ss with
  | nil => exact .pure (.empty trivial)
  | cons s ss ih =>
    refine (h s (by simp)).bind fun f hf ↦ ?_
    refine (ih fun x hx ↦ h x (by simp [hx])).bind fun g hg ↦ ?_
    exact .pure ((hf.append fun _ ↦ hg).mono fun _ ↦ trivial)

theorem stmt?_passes {s : Option Stmt} (h : ∀ x ∈ s, PassesStep v (x.lower t)) :
    PassesStep v (lowerStmt? t s) := by
  cases s with
  | none => exact .pure (.empty trivial)
  | some x => exact h x rfl

end Lowering

open Lowering in
include hv in
/-- **Lowered statements pass hidden names on.** -/
theorem Stmt.lower_passes (s : Stmt) : PassesStep v (s.lower t) := by
  induction s using Stmt.induction with
  | h s ih =>
    cases s with
    | block pos ss => exact stmts_pass ih
    | cond pos e yes no =>
      exact conditional_passes (e.lowerTest_passes hv)
        (stmt?_passes fun x hx ↦ ih x (mem_parts_onTrue hx))
        (stmt?_passes fun x hx ↦ ih x (mem_parts_onFalse hx))
    | loop pos e body =>
      exact loop_passes (e.lowerTest_passes hv) (stmt?_passes fun x hx ↦ ih x (mem_parts_loop hx))
    | expr pos e => exact effects_passes hv e
    | assign pos name value => exact assign_passes hv pos name value
    | indexAssign pos name index value => exact indexAssign_passes hv pos name index value
    | ret pos value => exact ret_passes hv pos value

end

/-! ## Methods -/

/-- A temporary of a method. -/
def IR.Method.IsTemp (m : Method) (v : Text) : Prop := ∃ x, m.vars.get? v = some x ∧ x.kind = .temp

/-- A temporary has a name that the source cannot use. -/
theorem IR.Method.IsTemp.hidden {t : Scope} {m : Method} {vars : VarTable}
    (hd : Lowering.Declares t vars) (ht : AddsTemps vars m.vars) {v : Text} (hv : m.IsTemp v) :
    Hidden t v := by
  obtain ⟨x, hx, hk⟩ := hv
  have hnew : vars.get? v = none := by
    by_contra hne
    obtain ⟨y, hy⟩ := Option.ne_none_iff_exists'.1 hne
    obtain rfl := Option.some.inj ((ht.get? hy).symm.trans hx)
    rcases hd.cases (VarTable.get?_eq_some_iff.1 hy).1 with ⟨-, rfl⟩ | ⟨p, -, rfl⟩ | ⟨l, -, rfl⟩
    · cases hk
    · cases hk
    · cases hk
  refine ⟨fun hs heq ↦ ?_, fun s hlookup ↦ ?_⟩
  · rw [heq, hd.receiver hs] at hnew
    cases hnew
  · obtain ⟨y, hy⟩ := VarTable.contains_iff_get?.1 (hd.contains_of_lookup hlookup)
    rw [hy] at hnew
    cases hnew

/-- No temporary is wanted at the start. -/
theorem Lowering.LoweredBy.not_live {t : Scope} {d : MethodDecl} {m : Method} {σ σ' : LowerState}
    {f : Fragment} (h : LoweredBy t d m σ σ' f) {v : Text} (hv : m.IsTemp v) : ¬ m.Live v 0 := by
  have hb := beside_self h.declares
  have hmirror : ∀ s ∈ d.body, MirrorStep t False σ.fresh.labels σ.fresh.labels (s.lower t) :=
    fun s _ ↦ s.lower_mirror False.elim False.elim
  have htemps := ((stmts_mirror hmirror σ σ hb).of_run h.body).left
  have hhidden := hv.hidden h.declares (h.vars ▸ htemps)
  have hbody : f.Passes v True := stmts_pass (fun s _ ↦ s.lower_passes hhidden) σ f σ' h.body
  have hclose : (close t.sig.ret f).Passes v True := by
    rw [close]
    split
    · exact (hbody.append fun _ ↦ .instr (by simp [Instr.uses]) rfl).mono And.left
    · exact hbody
  intro hlive
  obtain ⟨n, hw⟩ := hlive.wants
  -- the end of the code is no place where something is read
  have hend := (hclose m 0 n (placed_of_method h.code h.labels) hw).2.lt_length
  rw [h.code, Nat.zero_add] at hend
  exact Nat.lt_irrefl _ hend

theorem Lowering.not_isTemp_constructor (t : Symbols) (v : Text) : ¬ (constructor t).IsTemp v := by
  rintro ⟨x, hx, hk⟩
  obtain rfl := List.mem_singleton.1 (VarTable.get?_eq_some_iff.1 hx).1
  cases hk

/-! ## Programs -/

/-- **Temporaries are written before they are read.**  On every path from the start of a lowered method, an
instruction that reads a temporary comes after one that writes it, so the analysis of the method finds no
temporary live at the start. -/
theorem temporaries_are_written_first {t : Symbols} {p : Option Program} {fresh : Fresh} {c : ClassDef}
    (hlower : (lowerProgram t p fresh).1 = .ok c) : ∀ m ∈ c.methods,
      (∀ is k x v, m.Path 0 is k → m.code[k]? = some x → v ∈ x.uses → m.IsTemp v →
        ∃ j ∈ is, m.defAt j = some v) ∧
      ∃ l, Liveness.analyze m = .ok l ∧ ∀ v, m.IsTemp v → v ∉ l.names (l.inAt 0) := by
  have hlive : ∀ m ∈ c.methods, ∀ v, m.IsTemp v → ¬ m.Live v 0 := by
    cases p with
    | none => cases hlower
    | some p =>
      have hrun : lowerProgram t (some p) fresh = (.ok c, (lowerProgram t (some p) fresh).2) :=
        Prod.ext hlower rfl
      obtain ⟨ms, rfl, hms⟩ := lowerProgram_spec hrun
      intro m hm v hv
      rcases List.mem_cons.1 hm with rfl | hm
      · exact absurd hv (Lowering.not_isTemp_constructor t v)
      · obtain ⟨d, -, σ, σ', hrun⟩ := exists_of_mem_right hms hm
        obtain ⟨sig, σ₁, f, -, hby⟩ := Lowering.method_spec hrun
        exact hby.not_live hv
  intro m hm
  obtain ⟨sig, hmirror⟩ := exists_methodMirror hlower m hm
  obtain ⟨l, hl, hdescribes⟩ := Liveness.analyze_spec hmirror.check
  have hjustified := Liveness.justified_of_analyze hmirror.check hl
  refine ⟨fun is k x v hp hx hu hv ↦ ?_, l, hl, fun v hv ↦ ?_⟩
  · by_contra hnone
    push Not at hnone
    exact hlive m hm v hv (hp.live hnone (.use hx hu))
  · have hcontains : m.vars.contains v = true :=
      VarTable.contains_iff_get?.2 (hv.imp fun _ h ↦ h.1)
    rw [Liveness.mem_names_inAt hdescribes hjustified hcontains]
    exact hlive m hm v hv

/-- A class with a method whose test has both short-circuit operators, elements of an array and a call with
arguments that are packed. -/
def gate : Program where
  pos := default
  cls := {
    pos := default, name := "Gate"
    methods := [
      { pos := default, name := "count", ret := { name := "int" }
        params := [{ pos := default, name := "ns"
                     type := { name := "int", array := true, varargs := true } }]
        body := [.ret default (some (.length default (.ident default "ns")))] },
      { pos := default, name := "open", ret := { name := "boolean" }
        params := [{ pos := default, name := "a", type := { name := "boolean" } },
          { pos := default, name := "xs", type := { name := "int", array := true } }]
        body := [
          .loop default (.binary default "&&" (.ident default "a")
              (.binary default "||"
                (.binary default "<" (.index default (.ident default "xs") (.int default "0"))
                  (.int default "3"))
                (.binary default "==" (.call default none "count"
                    [.int default "1", .index default (.ident default "xs") (.int default "1")])
                  (.int default "2"))))
            (some (.assign default "a" (.call default (some (.new default "Gate")) "open"
              [.ident default "a", .array default [.int default "1", .int default "2"]]))),
          .ret default (some (.ident default "a"))] }] }

/-- There are ten temporaries in the second method. -/
theorem gate_temporaries_are_written_first : ∃ t c m, Symbols.build gate = .ok t ∧
    (lowerProgram t (some gate) {}).1 = .ok c ∧ c.methods[2]? = some m ∧
    (m.vars.vars.filter (·.kind = .temp)).length = 10 ∧
    (∀ is k x v, m.Path 0 is k → m.code[k]? = some x → v ∈ x.uses → m.IsTemp v →
      ∃ j ∈ is, m.defAt j = some v) ∧
    ∃ l, Liveness.analyze m = .ok l ∧ ∀ v, m.IsTemp v → v ∉ l.names (l.inAt 0) := by
  obtain ⟨t, hbuild⟩ : ∃ t, Symbols.build gate = .ok t := ⟨_, rfl⟩
  have htest : ((lowerProgram t (some gate) {}).1.toOption.bind fun c ↦ c.methods[2]?.map fun m ↦
      (m.vars.vars.filter (·.kind = .temp)).length) = some 10 := by
    cases hbuild
    decide +kernel
  cases hlower : (lowerProgram t (some gate) {}).1 with
  | error e =>
    rw [hlower] at htest
    cases htest
  | ok c =>
    rw [hlower] at htest
    obtain ⟨m, hm, hcount⟩ := Option.map_eq_some_iff.1 htest
    exact ⟨t, c, m, hbuild, hlower, hm, hcount,
      temporaries_are_written_first hlower m (List.mem_of_getElem? hm)⟩

end MiniJava
