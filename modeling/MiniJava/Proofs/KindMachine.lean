import MiniJava.Proofs.BackEnd

/-!
# Kinds of operands

Every value of the stack machine is an integer or a reference, and an instruction needs operands of the
right kind.  `Instr.after` follows the kinds on the stack and in the slots over one instruction, and fails
if they are not what the instruction needs.  `KindPath` follows them along every path that control can
take, whatever the values are, and `KindSafe` says that no path leads to such a failure.

Safety along all paths is shown by the number of steps that are still to be taken: `SafeFor` lets a jump
back rely on what holds for one step less.
-/

set_option autoImplicit false

namespace MiniJava.Jvm

open IR

/-! ## Kinds -/

/-- The kind of the elements of an array. -/
def Elem.kind : Elem → Kind
  | int | bool => .int
  | ref => .ref

theorem Elem.kind_ofTy {ty : Ty} (h : ty.isVoid = false) : (ofTy ty).kind = .ofTy ty := by
  cases ty with
  | absent | void => cases h
  | int | bool | string | array _ | object _ _ | receiver _ => rfl

/-- The kind of what a descriptor describes. -/
def Kind.ofDescriptor (d : Text) : Kind :=
  match d.signs.head? with
  | some (.char 'L') | some (.char '[') => .ref
  | _ => .int

theorem Kind.ofDescriptor_descriptor (c : ClassDef) (ty : Ty) :
    ofDescriptor (descriptor c ty) = ofTy ty := by
  cases ty with
  | absent | int | bool | void | string => rfl
  | array elem => simp [descriptor, ofDescriptor, ofTy, Ty.isRef]
  | object cls own | receiver cls => simp [descriptor, ofDescriptor, ofTy, Ty.isRef]

/-- The kinds of what is on the operand stack, its top first, and of what is in the slots. -/
structure Kinds where
  stack : List Kind
  slots : Nat → Option Kind

namespace Instr

/-- The kinds of the operands that an instruction needs on the stack, the first one pushed first. -/
def takes : Instr → List Kind
  | store kind _ | retValue kind => [kind]
  | arrayLoad _ => [.ref, .int]
  | arrayStore elem => [.ref, .int, elem.kind]
  | arith _ | ifCompare _ _ => [.int, .int]
  | neg | ifZero _ _ | newArray _ | newRefArray _ => [.int]
  | arrayLength | getField _ _ => [.ref]
  | putField _ desc => [.ref, .ofDescriptor desc]
  | putStatic _ desc => [.ofDescriptor desc]
  | invoke how _ _ params _ =>
    (if how.hasReceiver then [.ref] else []) ++ params.map Kind.ofDescriptor
  | push _ | load _ _ | goto _ | new _ | getStatic _ _ | pop | ret => []

/-- The kind of the value that an instruction leaves on the stack. -/
def leaves? : Instr → Option Kind
  | push _ | arith _ | neg | arrayLength => some .int
  | load kind _ => some kind
  | arrayLoad elem => some elem.kind
  | new _ | newArray _ | newRefArray _ => some .ref
  | getField _ desc | getStatic _ desc => some (.ofDescriptor desc)
  | invoke _ _ _ _ result => if result = "V" then none else some (.ofDescriptor result)
  | store _ _ | arrayStore _ | ifZero _ _ | ifCompare _ _ | goto _ | putField _ _ | putStatic _ _ | pop
  | ret | retValue _ => none

/-- The kinds after an instruction that finds operands of the kinds it needs.  A load needs a value of its
kind in the slot, and a value of any kind can be dropped. -/
def after (i : Instr) (k : Kinds) : Option Kinds :=
  match i with
  | load kind slot =>
    if k.slots slot = some kind then some { k with stack := kind :: k.stack } else none
  | pop => if k.stack = [] then none else some { k with stack := k.stack.tail }
  | i =>
    if i.takes.reverse <+: k.stack then
      some ⟨i.leaves?.toList ++ k.stack.drop i.takes.length,
        match i with
        | store kind slot => Function.update k.slots slot (some kind)
        | _ => k.slots⟩
    else none

section
variable {stack : List Kind} {slots : Nat → Option Kind}

theorem after_load {kind : Kind} {slot : Nat} (h : slots slot = some kind) (stack : List Kind) :
    (load kind slot).after ⟨stack, slots⟩ = some ⟨kind :: stack, slots⟩ := by
  simp [after, h]

theorem after_store (kind : Kind) (slot : Nat) (stack : List Kind) (slots : Nat → Option Kind) :
    (store kind slot).after ⟨kind :: stack, slots⟩ =
      some ⟨stack, Function.update slots slot (some kind)⟩ := by
  simp [after, takes, leaves?]

theorem after_pop (kind : Kind) (stack : List Kind) (slots : Nat → Option Kind) :
    pop.after ⟨kind :: stack, slots⟩ = some ⟨stack, slots⟩ := by
  simp [after]

/-- An instruction that does not touch the slots takes its operands and leaves its result. -/
theorem after_of_takes {i : Instr} (hs : i.slot? = none) (hp : i ≠ pop) {ks : List Kind}
    (hk : i.takes = ks) (stack : List Kind) (slots : Nat → Option Kind) :
    i.after ⟨ks.reverse ++ stack, slots⟩ = some ⟨i.leaves?.toList ++ stack, slots⟩ := by
  subst hk
  cases i with
  | load kind slot | store kind slot => cases hs
  | pop => exact absurd rfl hp
  | _ => simp [after]

end

end Instr

/-- The kinds after instructions, one after another. -/
def afterAll (is : List Instr) (k : Kinds) : Option Kinds := is.foldlM (fun k i ↦ i.after k) k

section
variable {is js : List Instr} {i : Instr} {k : Kinds}

@[simp] theorem afterAll_nil : afterAll [] k = some k := rfl

@[simp] theorem afterAll_cons : afterAll (i :: is) k = i.after k >>= afterAll is := rfl

@[simp] theorem afterAll_append : afterAll (is ++ js) k = afterAll is k >>= afterAll js := by
  rw [afterAll, List.foldlM_append]
  rfl

end

/-! ## Safety -/

/-- The lines that control can reach from the first one, with the kinds that it arrives with. -/
inductive KindPath (lines : List Line) (start : Kinds) : Nat → Kinds → Prop
  | start : KindPath lines start 0 start
  | label {p : Nat} {k : Kinds} {name : Text} (h : KindPath lines start p k)
      (hl : lines[p]? = some (.label name)) : KindPath lines start (p + 1) k
  | fall {p : Nat} {k k' : Kinds} {i : Instr} (h : KindPath lines start p k)
      (hi : lines[p]? = some (.instr i)) (hk : i.after k = some k') (hf : i.fallsThrough = true) :
      KindPath lines start (p + 1) k'
  | jump {p q : Nat} {k k' : Kinds} {i : Instr} {name : Text} (h : KindPath lines start p k)
      (hi : lines[p]? = some (.instr i)) (hk : i.after k = some k') (ht : i.target? = some name)
      (hq : lines[q]? = some (.label name)) : KindPath lines start q k'

/-- Plain instructions lead from the first of them to the line after the last. -/
theorem KindPath.plain {lines : List Line} {start : Kinds} {is : List Instr} {p : Nat} {k k' : Kinds}
    (h : KindPath lines start p k) (hp : StandsAt (is.map .instr) lines p) (hplain : Plain is)
    (hk : afterAll is k = some k') : KindPath lines start (p + is.length) k' := by
  induction is generalizing p k with
  | nil =>
    obtain rfl := Option.some.inj hk
    exact h
  | cons i is ih =>
    obtain ⟨-, hf⟩ := hplain i (by simp)
    obtain ⟨k₁, hk₁, hk₂⟩ := Option.bind_eq_some_iff.1 hk
    have hrest := ih (h.fall hp.head hk₁ hf) hp.tail (fun j hj ↦ hplain j (by simp [hj])) hk₂
    rwa [Nat.add_assoc, Nat.add_comm 1] at hrest

/-- **Kind-safe lines**: on every path, every instruction finds operands of the kinds that it needs. -/
def KindSafe (lines : List Line) (start : Kinds) : Prop :=
  ∀ p k i, KindPath lines start p k → lines[p]? = some (.instr i) → (i.after k).isSome = true

/-- No path of some number of steps leads to an instruction with the wrong operands. -/
def SafeFor (lines : List Line) : Nat → Nat → Kinds → Prop
  | 0, _, _ => True
  | n + 1, p, k =>
    match lines[p]? with
    | none => True
    | some (.label _) => SafeFor lines n (p + 1) k
    | some (.instr i) => ∃ k', i.after k = some k' ∧
        (i.fallsThrough = true → SafeFor lines n (p + 1) k') ∧
        ∀ name q, i.target? = some name → lines[q]? = some (.label name) → SafeFor lines n q k'

section
variable {lines : List Line} {n p : Nat} {k k' : Kinds}

theorem safeFor_of_label {name : Text} (h : lines[p]? = some (.label name)) :
    SafeFor lines (n + 1) p k ↔ SafeFor lines n (p + 1) k := by
  rw [SafeFor, h]

theorem safeFor_of_instr {i : Instr} (h : lines[p]? = some (.instr i)) :
    SafeFor lines (n + 1) p k ↔ ∃ k', i.after k = some k' ∧
      (i.fallsThrough = true → SafeFor lines n (p + 1) k') ∧
      ∀ name q, i.target? = some name → lines[q]? = some (.label name) → SafeFor lines n q k' := by
  rw [SafeFor, h]

theorem safeFor_of_end (h : lines[p]? = none) (n : Nat) (k : Kinds) : SafeFor lines n p k := by
  cases n with
  | zero => trivial
  | succ n =>
    rw [SafeFor, h]
    trivial

/-- What is safe is safe for fewer steps. -/
theorem SafeFor.pred (h : SafeFor lines (n + 1) p k) : SafeFor lines n p k := by
  induction n generalizing p k with
  | zero => trivial
  | succ n ih =>
    cases hl : lines[p]? with
    | none => exact safeFor_of_end hl _ _
    | some l =>
      cases l with
      | label name =>
        rw [safeFor_of_label hl] at h ⊢
        exact ih h
      | instr i =>
        rw [safeFor_of_instr hl] at h ⊢
        obtain ⟨k', hk, hfall, hjump⟩ := h
        exact ⟨k', hk, fun hf ↦ ih (hfall hf), fun name q ht hq ↦ ih (hjump name q ht hq)⟩

/-- Lines that are safe for any number of steps are safe. -/
theorem kindSafe_of_safeFor {start : Kinds} (h : ∀ n, SafeFor lines n 0 start) :
    KindSafe lines start := by
  have hall : ∀ p k, KindPath lines start p k → ∀ n, SafeFor lines n p k := by
    intro p k hp
    induction hp with
    | start => exact h
    | label _ hl ih => exact fun n ↦ (safeFor_of_label hl).1 (ih (n + 1))
    | fall _ hi hk hf ih =>
      intro n
      obtain ⟨k', hk', hfall, -⟩ := (safeFor_of_instr hi).1 (ih (n + 1))
      obtain rfl := Option.some.inj (hk.symm.trans hk')
      exact hfall hf
    | jump _ hi hk ht hq ih =>
      intro n
      obtain ⟨k', hk', -, hjump⟩ := (safeFor_of_instr hi).1 (ih (n + 1))
      obtain rfl := Option.some.inj (hk.symm.trans hk')
      exact hjump _ _ ht hq
  intro p k i hp hi
  obtain ⟨k', hk, -⟩ := (safeFor_of_instr hi).1 (hall p k hp 1)
  rw [hk]
  rfl

/-- Labels are passed over. -/
theorem safeFor_labels {names : List Text} (h : StandsAt (names.map .label) lines p)
    (hs : SafeFor lines n (p + names.length) k) : SafeFor lines n p k := by
  induction names generalizing p with
  | nil => exact hs
  | cons name names ih =>
    have hrest := ih h.tail (by rwa [List.length_cons, Nat.add_comm names.length, ← Nat.add_assoc] at hs)
    exact ((safeFor_of_label h.head).2 hrest).pred

/-- Plain instructions are passed if each finds its operands. -/
theorem safeFor_plain {is : List Instr} (h : StandsAt (is.map .instr) lines p) (hp : Plain is)
    (hk : afterAll is k = some k') (hs : SafeFor lines n (p + is.length) k') : SafeFor lines n p k := by
  induction is generalizing p k with
  | nil =>
    obtain rfl := Option.some.inj hk
    exact hs
  | cons i is ih =>
    obtain ⟨ht, hf⟩ := hp i (by simp)
    obtain ⟨k₁, hk₁, hk₂⟩ := Option.bind_eq_some_iff.1 hk
    have hrest := ih h.tail (fun j hj ↦ hp j (by simp [hj])) hk₂
      (by rwa [List.length_cons, Nat.add_comm is.length, ← Nat.add_assoc] at hs)
    refine ((safeFor_of_instr h.head).2 ⟨k₁, hk₁, fun _ ↦ hrest, ?_⟩).pred
    intro name q hname
    rw [ht] at hname
    cases hname

/-- Plain instructions and one that may jump or return. -/
theorem safeFor_last {is : List Instr} {i : Instr}
    (h : StandsAt (is.map .instr ++ [.instr i]) lines p) (hp : Plain is)
    (hk : afterAll (is ++ [i]) k = some k')
    (hf : i.fallsThrough = true → SafeFor lines (n + 1) (p + is.length + 1) k')
    (hj : ∀ name q, i.target? = some name → lines[q]? = some (.label name) → SafeFor lines n q k') :
    SafeFor lines (n + 1) p k := by
  simp only [afterAll_append, afterAll_cons, Option.bind_eq_bind, Option.bind_eq_some_iff,
    afterAll_nil, Option.some.injEq] at hk
  obtain ⟨k₁, hk₁, k₂, hk₂, rfl⟩ := hk
  have hlast := h.right.head
  rw [List.length_map] at hlast
  refine safeFor_plain h.left hp hk₁ ?_
  exact (safeFor_of_instr hlast).2 ⟨k₂, hk₂, fun hfall ↦ (hf hfall).pred, hj⟩

end

end MiniJava.Jvm
