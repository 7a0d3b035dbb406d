import MiniJava.Proofs.JvmMachine
import MiniJava.Proofs.StackUse
import MiniJava.Proofs.StrategyChoice

/-!
# What the lines of an instruction touch

`Instr.uses` and `Instr.defs?` say which variables an instruction reads and which one it writes, and
liveness believes them.  The emitter does not ask them: it goes through the operands once more and
decides for itself what is loaded, stored or found on the stack.  Here the two are compared.

* `Stays` follows lines with the number of words that they have put on top of the stack they found,
  and says which slots they load and store.  `Emits.stays` gives it for the lines of an instruction:
  the slots loaded are those of `uses`, the slot stored is that of `defs?`, and the lines go no deeper
  than the temporary on the stack, and not even there unless it is one of `uses`.
* What follows is said with two runs (`Stays.runs_match`): frames that agree on the slots that may be
  loaded, and on the words that may be reached, cannot be told apart by the lines, wherever in a body
  they stand.  A step keeps the two runs alike (`exec_matches`), so all steps in these lines do.
-/

set_option autoImplicit false

namespace MiniJava

open IR

/-! ## Computations side by side -/

namespace Act

variable {K α β γ δ : Type} {R : α → β → Prop} {S : γ → δ → Prop}

/-- Two computations make the same requests, and both end the run in the same way or both have
results, which are related. -/
def Matches (R : α → β → Prop) (x : Act K α) (y : Act K β) : Prop :=
  ∀ past, ∃ past',
    (∃ e, x.result past = (.error e, past') ∧ y.result past = (.error e, past')) ∨
      ∃ a b, x.result past = (.ok a, past') ∧ y.result past = (.ok b, past') ∧ R a b

theorem matches_pure {a : α} {b : β} (h : R a b) : Matches R (pure a : Act K α) (pure b) :=
  fun past ↦ ⟨past, .inr ⟨a, b, rfl, rfl, h⟩⟩

theorem matches_throw (e : End) : Matches R (throw e : Act K α) (throw e) :=
  fun past ↦ ⟨past, .inl ⟨e, rfl, rfl⟩⟩

theorem matches_self (x : Act K α) : Matches (· = ·) x x := by
  intro past
  cases h : x.result past with
  | mk r past' =>
    refine ⟨past', ?_⟩
    cases r with
    | error e => exact .inl ⟨e, rfl, rfl⟩
    | ok a => exact .inr ⟨a, a, rfl, rfl, rfl⟩

theorem Matches.bind {x : Act K α} {y : Act K β} {f : α → Act K γ} {g : β → Act K δ}
    (h : Matches R x y) (hfg : ∀ a b, R a b → Matches S (f a) (g b)) :
    Matches S (x >>= f) (y >>= g) := by
  intro past
  obtain ⟨past', ⟨e, hx, hy⟩ | ⟨a, b, hx, hy, hab⟩⟩ := h past
  · exact ⟨past', .inl ⟨e, result_bind_error hx, result_bind_error hy⟩⟩
  · rw [result_bind_ok hx, result_bind_ok hy]
    exact hfg a b hab past'

end Act

theorem IR.Instr.names_mem_uses {x : IR.Instr} (hp : ∀ y ∈ x.valueOperands, y.isPlain = true) :
    ∀ y ∈ x.valueOperands, ∀ name ∈ y.names, name ∈ x.uses := by
  intro y hy name hname
  rw [Operand.names_eq_uses (hp y hy)] at hname
  exact mem_uses_of_valueOperands hy hname

namespace Jvm

/-! ## One instruction -/

namespace Instr

/-- The number of words that an instruction takes from the stack. -/
def needs : Instr → Nat
  | store _ _ | neg | pop | ifZero _ _ | retValue _ => 1
  | arith _ | ifCompare _ _ => 2
  | i => (i.asks?.map Prod.fst).getD 0

/-- The number of words that it puts there afterwards. -/
def leaves : Instr → Nat
  | push _ | load _ _ | arith _ | neg => 1
  | i => if (i.asks?.map Prod.snd).getD false then 1 else 0

/-- The number of words on top of the stack that lines have found, after an instruction. -/
def height (i : Instr) (n : Nat) : Nat := n - i.needs + i.leaves

/-- An instruction takes no more than `n` words, loads a slot of `reads` and stores one of
`writes`. -/
structure KeepsTo (reads writes : Kind → Nat → Prop) (n : Nat) (i : Instr) : Prop where
  needs_le : i.needs ≤ n
  load : ∀ kind slot, i = .load kind slot → reads kind slot
  store : ∀ kind slot, i = .store kind slot → writes kind slot

theorem keepsTo_of_slot? {reads writes : Kind → Nat → Prop} {n : Nat} {i : Instr}
    (hn : i.needs ≤ n) (hslot : i.slot? = none) : i.KeepsTo reads writes n := by
  refine ⟨hn, ?_, ?_⟩
  · rintro kind slot rfl
    cases hslot
  · rintro kind slot rfl
    cases hslot

end Instr

/-- Two frames agree on the slots of `reads`, and on `n` words on top of stacks that lines have
found. -/
structure FramesAlike (reads : Kind → Nat → Prop) (found found' : List Word) (n : Nat) (f g : Frame) :
    Prop where
  stack : ∃ top, top.length = n ∧ f.stack = top ++ found ∧ g.stack = top ++ found'
  slots : ∀ kind slot, reads kind slot → f.slots slot = g.slots slot

/-- Only slots of `writes` have changed. -/
def Changes (writes : Kind → Nat → Prop) (f f' : Frame) : Prop :=
  ∀ slot, (∀ kind, ¬ writes kind slot) → f'.slots slot = f.slots slot

section
variable {reads writes : Kind → Nat → Prop} {found found' : List Word} {env : Env Instr}
variable {i : Instr} {n : Nat}

variable {f g : Frame}

/-- An instruction that the environment carries out on words on top of the stack. -/
theorem ask_matches {count : Nat} {hasResult : Bool} (hn : count ≤ n)
    (h : FramesAlike reads found found' n f g) : Act.Matches (fun f' g' ↦
        FramesAlike reads found found' (n - count + if hasResult then 1 else 0) f' g' ∧
          f'.slots = f.slots ∧ g'.slots = g.slots)
      (i.ask env count hasResult f) (i.ask env count hasResult g) := by
  obtain ⟨⟨top, hlen, hf, hg⟩, hslots⟩ := h
  have htop : count ≤ top.length := hlen.symm ▸ hn
  have henough (below : List Word) : ¬ (top ++ below).length < count := by
    rw [List.length_append]
    omega
  rw [Instr.ask, Instr.ask, hf, hg, if_neg (henough found), if_neg (henough found'),
    List.take_append_of_le_length htop, List.take_append_of_le_length htop,
    List.drop_append_of_le_length htop, List.drop_append_of_le_length htop]
  refine (Act.matches_self _).bind fun v _ hv ↦ Act.matches_pure ⟨⟨?_, hslots⟩, rfl, rfl⟩
  subst hv
  cases hasResult with
  | true => exact ⟨v :: top.drop count, by simp [hlen], rfl, rfl⟩
  | false => exact ⟨top.drop count, by simp [hlen], rfl, rfl⟩

/-- The results of two runs of an instruction. -/
structure StepsAlike (reads writes : Kind → Nat → Prop) (found found' : List Word) (i : Instr)
    (n : Nat) (f g : Frame) (a b : Frame × Control) : Prop where
  alike : FramesAlike reads found found' (i.height n) a.1 b.1
  control : b.2 = a.2
  left : Changes writes f a.1
  right : Changes writes g b.1
  goes : a.2 = .next ∧ i.fallsThrough = true ∨ ∃ label, a.2 = .jump label ∧ i.target? = some label

/-- An instruction that the environment carries out. -/
theorem exec_matches_of_asks {count : Nat} {hasResult : Bool}
    (hi : ∀ f, i.exec env f = i.ask env count hasResult f >>= fun f' ↦ pure (f', .next))
    (hf : i.fallsThrough = true) (hh : i.height n = n - count + if hasResult then 1 else 0)
    (hn : count ≤ n) (h : FramesAlike reads found found' n f g) :
    Act.Matches (StepsAlike reads writes found found' i n f g) (i.exec env f) (i.exec env g) := by
  rw [hi, hi]
  refine (ask_matches hn h).bind fun f' g' hfg ↦ Act.matches_pure ?_
  obtain ⟨halike, hl, hr⟩ := hfg
  rw [← hh] at halike
  exact ⟨halike, rfl, fun slot _ ↦ by rw [hl], fun slot _ ↦ by rw [hr], .inl ⟨rfl, hf⟩⟩

/-- An instruction that has `top` on the stack afterwards and goes on or jumps. -/
theorem stepsAlike_of_top {stack stack' : List Word} {slots slots' : Nat → Word}
    (hs : ∀ kind slot, reads kind slot → slots slot = slots' slot) (top : List Word)
    (hlen : top.length = i.height n) {control : Control}
    (hgo : control = .next ∧ i.fallsThrough = true ∨
      ∃ label, control = .jump label ∧ i.target? = some label) :
    StepsAlike reads writes found found' i n ⟨stack, slots⟩ ⟨stack', slots'⟩
      (⟨top ++ found, slots⟩, control) (⟨top ++ found', slots'⟩, control) :=
  ⟨⟨⟨top, hlen, rfl, rfl⟩, hs⟩, rfl, fun _ _ ↦ rfl, fun _ _ ↦ rfl, hgo⟩

/-- A test goes on, or jumps to its label. -/
theorem goes_of_test {label : Text} (hf : i.fallsThrough = true) (ht : i.target? = some label)
    (b : Bool) : (if b then .jump label else .next : Control) = .next ∧ i.fallsThrough = true ∨
      ∃ name, (if b then .jump label else .next : Control) = .jump name ∧ i.target? = some name := by
  cases b with
  | false => exact .inl ⟨rfl, hf⟩
  | true => exact .inr ⟨label, rfl, ht⟩

section
variable {slots slots' : Nat → Word} {kind : Kind} {slot : Nat}

/-- A slot that both runs read holds the same word in both. -/
theorem load_matches (hs : ∀ kind slot, reads kind slot → slots slot = slots' slot)
    (hr : reads kind slot) (top : List Word) :
    Act.Matches (StepsAlike reads writes found found' (.load kind slot) top.length
        ⟨top ++ found, slots⟩ ⟨top ++ found', slots'⟩)
      ((Instr.load kind slot).exec env ⟨top ++ found, slots⟩)
      ((Instr.load kind slot).exec env ⟨top ++ found', slots'⟩) := by
  have hslot : slots slot = slots' slot := hs kind slot hr
  show Act.Matches _ ((if (slots slot).kind = kind then _ else _) >>= _)
    ((if (slots' slot).kind = kind then _ else _) >>= _)
  rw [← hslot]
  by_cases hk : (slots slot).kind = kind
  · rw [if_pos hk, if_pos hk]
    refine Act.matches_pure ?_
    show StepsAlike _ _ _ _ _ _ _ _ (⟨slots slot :: top ++ found, slots⟩, _)
      (⟨slots' slot :: top ++ found', slots'⟩, _)
    rw [← hslot]
    exact stepsAlike_of_top hs (slots slot :: top) rfl (.inl ⟨rfl, rfl⟩)
  · rw [if_neg hk, if_neg hk]
    exact Act.matches_throw _

/-- A slot that both runs write holds the same word afterwards; the others are as they were. -/
theorem store_matches (hs : ∀ kind slot, reads kind slot → slots slot = slots' slot)
    (hw : writes kind slot) (v : Word) (top : List Word) :
    Act.Matches (StepsAlike reads writes found found' (.store kind slot) (v :: top).length
        ⟨v :: top ++ found, slots⟩ ⟨v :: top ++ found', slots'⟩)
      ((Instr.store kind slot).exec env ⟨v :: top ++ found, slots⟩)
      ((Instr.store kind slot).exec env ⟨v :: top ++ found', slots'⟩) := by
  show Act.Matches _ ((if v.kind = kind then _ else _) >>= _) ((if v.kind = kind then _ else _) >>= _)
  by_cases hk : v.kind = kind
  · rw [if_pos hk, if_pos hk]
    have hother (slots : Nat → Word) {s : Nat} (hs : ∀ kind, ¬ writes kind s) :
        Function.update slots slot v s = slots s := by
      refine Function.update_of_ne ?_ _ _
      rintro rfl
      exact hs kind hw
    refine Act.matches_pure ⟨⟨⟨top, rfl, rfl, rfl⟩, ?_⟩, rfl, fun _ ↦ hother slots,
      fun _ ↦ hother slots', .inl ⟨rfl, rfl⟩⟩
    intro kind s hr
    by_cases hslot : s = slot
    · simp [hslot]
    · simpa [hslot] using hs kind s hr
  · rw [if_neg hk, if_neg hk]
    exact Act.matches_throw _

end

/-- **One step of two runs.**  An instruction that keeps to some words and slots does the same in
frames that agree on them. -/
theorem exec_matches (hi : i.KeepsTo reads writes n) (h : FramesAlike reads found found' n f g) :
    Act.Matches (StepsAlike reads writes found found' i n f g) (i.exec env f) (i.exec env g) := by
  have hneeds := hi.needs_le
  obtain ⟨stack, slots⟩ := f
  obtain ⟨stack', slots'⟩ := g
  obtain ⟨⟨top, hlen, hf, hg⟩, hs⟩ := id h
  simp only at hf hg hs
  subst hf hg hlen
  cases i with
  | arrayLoad _ | new _ | newArray _ | newRefArray _ | arrayLength | getField _ _
  | getStatic _ _ | arrayStore _ | putField _ _ | putStatic _ _ | invoke _ _ _ _ _ =>
    exact exec_matches_of_asks (fun _ ↦ rfl) rfl rfl hneeds h
  | ret => exact Act.matches_throw _
  | goto label => exact Act.matches_pure (stepsAlike_of_top hs top rfl (.inr ⟨label, rfl, rfl⟩))
  | push v =>
    exact Act.matches_pure
      (stepsAlike_of_top hs (.int (BitVec.ofInt 32 v) :: top) rfl (.inl ⟨rfl, rfl⟩))
  | load kind slot => exact load_matches hs (hi.load kind slot rfl) top
  | store kind slot =>
    obtain ⟨v, top, rfl⟩ := List.exists_cons_of_length_pos hneeds
    exact store_matches hs (hi.store kind slot rfl) v top
  | arith op =>
    obtain ⟨b, top, rfl⟩ := List.exists_cons_of_length_pos (Nat.lt_of_succ_lt hneeds)
    obtain ⟨a, top, rfl⟩ := List.exists_cons_of_length_pos (Nat.lt_of_succ_lt_succ hneeds)
    cases b with
    | ref b => exact Act.matches_throw _
    | int b =>
      cases a with
      | ref a => exact Act.matches_throw _
      | int a =>
        show Act.Matches _ ((op.apply a b >>= _) >>= _) ((op.apply a b >>= _) >>= _)
        rw [bind_assoc, bind_assoc]
        refine (Act.matches_self _).bind fun v w hv ↦ ?_
        subst hv
        exact Act.matches_pure (stepsAlike_of_top hs (.int v :: top) rfl (.inl ⟨rfl, rfl⟩))
  | neg =>
    obtain ⟨a, top, rfl⟩ := List.exists_cons_of_length_pos hneeds
    cases a with
    | ref a => exact Act.matches_throw _
    | int a => exact Act.matches_pure (stepsAlike_of_top hs (.int (-a) :: top) rfl (.inl ⟨rfl, rfl⟩))
  | pop =>
    obtain ⟨a, top, rfl⟩ := List.exists_cons_of_length_pos hneeds
    exact Act.matches_pure (stepsAlike_of_top hs top rfl (.inl ⟨rfl, rfl⟩))
  | ifZero cond label =>
    obtain ⟨a, top, rfl⟩ := List.exists_cons_of_length_pos hneeds
    cases a with
    | ref a => exact Act.matches_throw _
    | int a => exact Act.matches_pure (stepsAlike_of_top hs top rfl (goes_of_test rfl rfl _))
  | ifCompare cond label =>
    obtain ⟨b, top, rfl⟩ := List.exists_cons_of_length_pos (Nat.lt_of_succ_lt hneeds)
    obtain ⟨a, top, rfl⟩ := List.exists_cons_of_length_pos (Nat.lt_of_succ_lt_succ hneeds)
    cases b with
    | ref b => exact Act.matches_throw _
    | int b =>
      cases a with
      | ref a => exact Act.matches_throw _
      | int a => exact Act.matches_pure (stepsAlike_of_top hs top rfl (goes_of_test rfl rfl _))
  | retValue kind =>
    obtain ⟨v, top, rfl⟩ := List.exists_cons_of_length_pos hneeds
    show Act.Matches _ (if v.kind = kind then _ else _) (if v.kind = kind then _ else _)
    by_cases hk : v.kind = kind
    · rw [if_pos hk]
      exact Act.matches_throw _
    · rw [if_neg hk]
      exact Act.matches_throw _

end

/-! ## Lines -/

/-- Lines that keep to the slots of `reads` and `writes` and never reach the stack they have found:
the number of words on top of it before and after them, none where nothing falls through; `labels`
gives the number at each label. -/
inductive Stays (reads writes : Kind → Nat → Prop) (labels : Text → Nat) :
    Option Nat → List Line → Option Nat → Prop
  | nil {h : Option Nat} : Stays reads writes labels h [] h
  | label {h h' : Option Nat} {name : Text} {ls : List Line}
      (hl : ∀ n, h = some n → n = labels name)
      (hs : Stays reads writes labels (some (labels name)) ls h') :
      Stays reads writes labels h (.label name :: ls) h'
  | instr {n : Nat} {h' : Option Nat} {i : Instr} {ls : List Line}
      (hi : i.KeepsTo reads writes n) (ht : ∀ name, i.target? = some name → labels name = i.height n)
      (hs : Stays reads writes labels (if i.fallsThrough then some (i.height n) else none) ls h') :
      Stays reads writes labels (some n) (.instr i :: ls) h'

namespace Stays

variable {reads writes : Kind → Nat → Prop} {labels : Text → Nat} {h h' h'' : Option Nat}
  {ls ls' : List Line}
variable {n : Nat}

theorem append (hs : Stays reads writes labels h ls h')
    (hs' : Stays reads writes labels h' ls' h'') : Stays reads writes labels h (ls ++ ls') h'' := by
  induction hs with
  | nil => exact hs'
  | label hl _ ih => exact .label hl (ih hs')
  | instr hi ht _ ih => exact .instr hi ht (ih hs')

/-- An instruction that names no slot and does not jump. -/
theorem plain {i : Instr} {n' : Nat} (hn : i.needs ≤ n) (hslot : i.slot? = none) (ht : i.target? = none)
    (hf : i.fallsThrough = true) (hh : i.height n = n') :
    Stays reads writes labels (some n) [.instr i] (some n') := by
  refine .instr (Instr.keepsTo_of_slot? hn hslot) (by simp [ht]) ?_
  rw [hf, if_pos rfl, hh]
  exact .nil

/-- The load of a slot. -/
theorem loadSlot {kind : Kind} {slot : Nat} (hr : reads kind slot) :
    Stays reads writes labels (some n) [.instr (.load kind slot)] (some (n + 1)) := by
  refine .instr ⟨Nat.zero_le _, ?_, by simp⟩ (by simp [Instr.target?]) .nil
  rintro _ _ ⟨⟩
  exact hr

/-- The store of a word to a slot. -/
theorem storeSlot {kind : Kind} {slot : Nat} (hw : writes kind slot) :
    Stays reads writes labels (some (n + 1)) [.instr (.store kind slot)] (some n) := by
  refine .instr ⟨Nat.le_add_left 1 n, by simp, ?_⟩ (by simp [Instr.target?]) .nil
  rintro _ _ ⟨⟩
  exact hw

/-- An instruction that names no slot and may jump, after which no lines come. -/
theorem last {n' : Nat} (hs : ∀ labels, Stays reads writes labels (some n) ls (some n')) {i : Instr}
    (hn : i.needs ≤ n') (hslot : i.slot? = none) :
    ∃ labels h', Stays reads writes labels (some n) (ls ++ [.instr i]) h' :=
  ⟨fun _ ↦ i.height n', _,
    (hs _).append (.instr (Instr.keepsTo_of_slot? hn hslot) (fun _ _ ↦ rfl) .nil)⟩

theorem keepsTo (hs : Stays reads writes labels h ls h') {i : Instr} (hmem : .instr i ∈ ls) :
    ∃ n, i.KeepsTo reads writes n := by
  induction hs with
  | nil => cases hmem
  | label _ _ ih => exact ih (by simpa using hmem)
  | @instr n _ j _ hi _ _ ih =>
    rcases List.mem_cons.1 hmem with heq | hmem
    · cases heq
      exact ⟨n, hi⟩
    · exact ih hmem

/-- The lines from a label on. -/
theorem drop_label (hs : Stays reads writes labels h ls h') {k : Nat} {name : Text}
    (hk : ls[k]? = some (.label name)) :
    Stays reads writes labels (some (labels name)) (ls.drop k) h' := by
  induction hs generalizing k with
  | nil => cases hk
  | @label _ _ name' _ _ hs ih =>
    cases k with
    | zero =>
      cases hk
      exact .label (fun n hn ↦ (Option.some.inj hn).symm) hs
    | succ k => exact ih hk
  | instr _ _ _ ih =>
    cases k with
    | zero => cases hk
    | succ k => exact ih hk

end Stays

/-! ## Runs -/

/-- At most `n` steps of the machine of a body, as long as they start in the lines from `p` on and
before `q`. -/
def runWithin (lines : List Line) (env : Env Instr) (p q : Nat) : Nat → State → Act Instr State
  | 0, s => return s
  | n + 1, s =>
    if p ≤ s.pc ∧ s.pc < q then machine lines env s >>= runWithin lines env p q n else return s

/-- Two states of runs that are to be told apart by nothing: the runs stand at the same line, and the
stacks and slots are as in `FramesAlike`, with any number of words on top of what was found. -/
structure StatesAlike (reads writes : Kind → Nat → Prop) (found found' : List Word) (f g : Frame)
    (s t : State) : Prop where
  pc : s.pc = t.pc
  frames : ∃ n, FramesAlike reads found found' n s.frame t.frame
  left : Changes writes f s.frame
  right : Changes writes g t.frame

section
variable {reads writes : Kind → Nat → Prop} {labels : Text → Nat} {found found' : List Word}
  {env : Env Instr} {ls lines : List Line} {p : Nat} {h' : Option Nat} {f g : Frame}

theorem Changes.trans {f₁ f₂ f₃ : Frame} (h : Changes writes f₁ f₂) (h' : Changes writes f₂ f₃) :
    Changes writes f₁ f₃ :=
  fun slot hs ↦ (h' slot hs).trans (h slot hs)

/-- Two states that are alike, and from which the lines that are left stay above what was found. -/
structure Follows (reads writes : Kind → Nat → Prop) (labels : Text → Nat) (found found' : List Word)
    (ls : List Line) (p : Nat) (h' : Option Nat) (f g : Frame) (s t : State) : Prop where
  pc : s.pc = t.pc
  frames : ∃ n, FramesAlike reads found found' n s.frame t.frame ∧
    ∀ k < ls.length, s.pc = p + k → Stays reads writes labels (some n) (ls.drop k) h'
  left : Changes writes f s.frame
  right : Changes writes g t.frame

theorem Follows.statesAlike {s t : State}
    (h : Follows reads writes labels found found' ls p h' f g s t) :
    StatesAlike reads writes found found' f g s t :=
  ⟨h.pc, h.frames.imp fun _ hn ↦ hn.1, h.left, h.right⟩

/-- After an instruction of the lines the runs go on with the next line, or with the same label. -/
theorem goOn_matches {h : Option Nat} (hs : Stays reads writes labels h ls h')
    (hat : StandsAt ls lines p) {k n : Nat} {i : Instr} {f₁ g₁ : Frame} {a b : Frame × Control}
    (hi : Stays reads writes labels (some n) (.instr i :: ls.drop (k + 1)) h')
    (hl : Changes writes f f₁) (hr : Changes writes g g₁)
    (hab : StepsAlike reads writes found found' i n f₁ g₁ a b) :
    Act.Matches (Follows reads writes labels found found' ls p h' f g)
      (goOn lines (p + k + 1) a) (goOn lines (p + k + 1) b) := by
  obtain ⟨halike, hctl, hleft, hright, hgo⟩ := hab
  rw [goOn, goOn, hctl]
  cases hi with
  | instr _ ht hrest =>
    rcases hgo with ⟨hnext, hf⟩ | ⟨label, hjump, htarget⟩
    · rw [hnext]
      refine Act.matches_pure ⟨rfl, ⟨i.height n, halike, ?_⟩, hl.trans hleft, hr.trans hright⟩
      intro j _ hj
      obtain rfl : j = k + 1 := by
        simp only at hj
        omega
      rwa [hf, if_pos rfl] at hrest
    · rw [hjump]
      cases hidx : lines.idxOf? (.label label) with
      | none =>
        simp only [hidx]
        exact Act.matches_throw _
      | some pc =>
        simp only [hidx]
        refine Act.matches_pure ⟨rfl, ⟨i.height n, halike, ?_⟩, hl.trans hleft, hr.trans hright⟩
        intro j hj hpc
        have hline : ls[j]? = some (.label label) := by
          rw [List.getElem?_eq_getElem hj, Option.some.injEq]
          have hstands := hat j _ (List.getElem?_eq_getElem hj)
          rw [← hpc] at hstands
          obtain ⟨hlt, hbeq, -⟩ := List.findIdx?_eq_some_iff_getElem.1 hidx
          rw [List.getElem?_eq_getElem hlt, Option.some.injEq] at hstands
          rw [← hstands]
          exact eq_of_beq hbeq
        rw [← ht label htarget]
        exact hs.drop_label hline

/-- One step of two runs in the lines. -/
theorem machine_matches {h : Option Nat} (hs : Stays reads writes labels h ls h')
    (hat : StandsAt ls lines p) {s t : State}
    (hst : Follows reads writes labels found found' ls p h' f g s t)
    (hin : p ≤ s.pc ∧ s.pc < p + ls.length) :
    Act.Matches (Follows reads writes labels found found' ls p h' f g)
      (machine lines env s) (machine lines env t) := by
  obtain ⟨hpc, ⟨n, halike, hrest⟩, hl, hr⟩ := hst
  obtain ⟨k, hk⟩ := Nat.exists_eq_add_of_le hin.1
  have hlt : k < ls.length := by omega
  have hline : lines[s.pc]? = some ls[k] := hk ▸ hat k _ (List.getElem?_eq_getElem hlt)
  have hstays := hrest k hlt hk
  rw [List.drop_eq_getElem_cons hlt] at hstays
  rw [machine, machine, ← hpc, hline]
  cases hx : ls[k] with
  | label name =>
    rw [hx] at hstays
    refine Act.matches_pure ⟨rfl, ⟨n, halike, ?_⟩, hl, hr⟩
    intro j _ hj
    obtain rfl : j = k + 1 := by
      simp only at hj
      omega
    cases hstays with
    | label hname hs => rwa [← hname n rfl] at hs
  | instr i =>
    rw [hx] at hstays
    rw [hk]
    have hi : i.KeepsTo reads writes n := by
      cases hstays with
      | instr hi _ _ => exact hi
    exact (exec_matches hi halike).bind fun a b hab ↦ goOn_matches hs hat hstays hl hr hab

/-- **All steps of two runs in the lines.**  Frames that agree on what the lines keep to lead to runs
that nothing tells apart, and that change nothing but what may be written. -/
theorem Stays.runs_match {n : Nat} (hs : Stays reads writes labels (some n) ls h')
    (hat : StandsAt ls lines p) (hfg : FramesAlike reads found found' n f g) (steps : Nat) :
    Act.Matches (StatesAlike reads writes found found' f g)
      (runWithin lines env p (p + ls.length) steps ⟨p, f⟩)
      (runWithin lines env p (p + ls.length) steps ⟨p, g⟩) := by
  have hrun : ∀ s t, Follows reads writes labels found found' ls p h' f g s t →
      Act.Matches (StatesAlike reads writes found found' f g)
        (runWithin lines env p (p + ls.length) steps s)
        (runWithin lines env p (p + ls.length) steps t) := by
    induction steps with
    | zero => exact fun s t hst ↦ Act.matches_pure hst.statesAlike
    | succ steps ih =>
      intro s t hst
      rw [runWithin, runWithin, ← hst.pc]
      by_cases hin : p ≤ s.pc ∧ s.pc < p + ls.length
      · rw [if_pos hin, if_pos hin]
        exact (machine_matches hs hat hst hin).bind ih
      · rw [if_neg hin, if_neg hin]
        exact Act.matches_pure hst.statesAlike
  refine hrun _ _ ⟨rfl, ⟨n, hfg, ?_⟩, fun _ _ ↦ rfl, fun _ _ ↦ rfl⟩
  intro k _ hk
  obtain rfl : k = 0 := by
    simp only at hk
    omega
  exact hs

end

/-! ## The lines of operands and values -/

/-- The number of words that may be reached of the stack that lines find: a temporary that is there,
if it is one of some variables. -/
def reach (uses : List Text) : Option Text → Nat
  | some t => if t ∈ uses then 1 else 0
  | none => 0

section
variable {c : ClassDef} {m : Method} {uses : List Text} {reads writes : Kind → Nat → Prop}
  {labels : Text → Nat}
  (hr : ∀ name ∈ uses, ∀ kind slot, HasSlot m name kind slot → reads kind slot)
include hr
variable {s s' : Option Text} {is : List Instr} {n : Nat}

theorem Loads.stays {x : Operand} (h : Loads m s x is s') (hx : ∀ name ∈ x.names, name ∈ uses) (k : Nat) :
    Stays reads writes labels (some (k + reach uses s)) (is.map .instr)
      (some (k + reach uses s' + 1)) := by
  induction h generalizing k with
  | literal _ _ => exact .plain (Nat.zero_le _) rfl rfl rfl rfl
  | @top name ty =>
    rw [reach, if_pos (hx name (by simp))]
    exact .nil
  | @var _ name _ _ _ _ hslot =>
    exact .loadSlot (hr name (hx name (by simp)) _ _ hslot)
  | @elem s s' base _ _ _ _ _ hslot _ ih =>
    have hi := ih (fun name hname ↦ hx name (by simp [hname])) (k + 1)
    rw [Nat.add_right_comm k 1, Nat.add_right_comm k 1] at hi
    rw [List.map_cons, List.map_append, ← List.singleton_append]
    refine (Stays.loadSlot (hr base (hx base (by simp)) _ _ hslot)).append ?_
    exact hi.append (.plain (Nat.le_add_left 2 _) rfl rfl rfl rfl)

theorem LoadsAll.stays {xs : List Operand} (h : LoadsAll m s xs is s')
    (hx : ∀ x ∈ xs, ∀ name ∈ x.names, name ∈ uses) (k : Nat) :
    Stays reads writes labels (some (k + reach uses s)) (is.map .instr)
      (some (k + reach uses s' + xs.length)) := by
  induction h generalizing k with
  | nil => exact .nil
  | @cons s₁ s₂ s₃ x xs is js hl _ ih =>
    have hxs := ih (fun y hy ↦ hx y (by simp [hy])) (k + 1)
    rw [Nat.add_right_comm k 1, Nat.add_right_comm k 1, Nat.add_assoc _ 1, Nat.add_comm 1] at hxs
    rw [List.map_append]
    exact (hl.stays hr (hx x (by simp)) k).append hxs

variable {l r : Operand} {test : Text → Instr}

theorem Loads.stays_two {s₁ s₂ s₃ : Option Text} {js : List Instr} (hl : Loads m s₁ l is s₂)
    (hr' : Loads m s₂ r js s₃) (hx : ∀ x ∈ [l, r], ∀ name ∈ x.names, name ∈ uses) (k : Nat) :
    Stays reads writes labels (some (k + reach uses s₁)) ((is ++ js).map .instr)
      (some (k + reach uses s₃ + 2)) := by
  rw [← List.append_nil js]
  exact (LoadsAll.cons hl (LoadsAll.cons hr' .nil)).stays hr hx k

omit hr in
theorem Compares.test_slot? {op : Op} {cond : Cond} (h : Compares m op cond l r s is test s')
    (label : Text) : (test label).slot? = none ∧ (test label).leaves = 0 := by
  cases h <;> exact ⟨rfl, rfl⟩

theorem Compares.stays {op : Op} {cond : Cond} (h : Compares m op cond l r s is test s')
    (hx : ∀ x ∈ [l, r], ∀ name ∈ x.names, name ∈ uses) (k : Nat) (label : Text) :
    Stays reads writes labels (some (k + reach uses s)) (is.map .instr)
      (some (k + reach uses s' + (test label).needs)) := by
  cases h with
  | rightZero _ h => exact h.stays hr (hx l (by simp)) k
  | leftZero _ _ h => exact h.stays hr (hx r (by simp)) k
  | both _ _ h h' => exact h.stays_two hr h' hx k

omit hr in
/-- An invocation takes its operands and leaves its result, if it has one. -/
theorem stays_invokeInstr (x : Call) (how : Invocation) (cls : Text) {k : Nat}
    (hn : n = k + (x.args.length + if how.hasReceiver then 1 else 0)) :
    ∃ r, Stays reads writes labels (some n) [.instr (invokeInstr c x how cls)] (some (k + r)) ∧
      (x.ret.isVoid = false → r = 1) := by
  have hneeds : (invokeInstr c x how cls).needs =
      x.args.length + if how.hasReceiver then 1 else 0 := by
    simp [invokeInstr, Instr.needs, Instr.asks?]
  have hleaves : x.ret.isVoid = false → (invokeInstr c x how cls).leaves = 1 := by
    intro hv
    simp [invokeInstr, Instr.leaves, Instr.asks?, descriptor_ne_V, hv]
  refine ⟨(invokeInstr c x how cls).leaves, .plain (by omega) rfl rfl rfl ?_, hleaves⟩
  rw [Instr.height, hneeds]
  omega

theorem Calls.stays {x : Call} (h : Calls c m x s is s')
    (hx : ∀ y ∈ x.caller :: x.args, ∀ name ∈ y.names, name ∈ uses) (k : Nat) :
    ∃ n, Stays reads writes labels (some (k + reach uses s)) (is.map .instr)
        (some (k + reach uses s' + n)) ∧ (x.ret.isVoid = false → n = 1) := by
  cases h with
  | newObject _ => exact ⟨1, .plain (Nat.zero_le _) rfl rfl rfl rfl, fun _ ↦ rfl⟩
  | newArray _ ha hl hi =>
    rw [List.map_append]
    refine ⟨1, (hl.stays hr (hx _ (by simp [ha])) k).append ?_, fun _ ↦ rfl⟩
    rw [arrayInstr?] at hi
    split at hi
    case h_5 => cases hi
    all_goals
      cases hi
      exact .plain (Nat.le_add_left 1 _) rfl rfl rfl rfl
  | arrayLength _ hl =>
    rw [List.map_append]
    refine ⟨1, (hl.stays hr (hx _ (by simp)) k).append ?_, fun _ ↦ rfl⟩
    exact .plain (Nat.le_add_left 1 _) rfl rfl rfl rfl
  | static _ hl =>
    obtain ⟨r, hcall, hv⟩ := stays_invokeInstr (c := c) x .static (c.resolve x.cls) rfl
    rw [List.map_append]
    exact ⟨r, (hl.stays hr (fun y hy ↦ hx y (by simp [hy])) k).append hcall, hv⟩
  | @onObject _ _ _ _ how cls hk hs hl ha _ =>
    have hreceiver : how.hasReceiver = true := by simp [hasReceiver_of_invocation? hk, hs]
    have hargs : Stays reads writes labels _ _ _ :=
      ha.stays hr (fun y hy ↦ hx y (by simp [hy])) (k + 1)
    rw [Nat.add_right_comm k 1] at hargs
    obtain ⟨r, hcall, hv⟩ := stays_invokeInstr x how cls
      (show k + 1 + reach uses s' + x.args.length = k + reach uses s' + _ by
        rw [hreceiver, if_pos rfl]
        omega)
    rw [List.map_append, List.map_append]
    exact ⟨r, (hl.stays hr (hx _ (by simp)) k).append (hargs.append hcall), hv⟩

theorem Evaluates.stays {x : IR.Instr} (h : Evaluates c m s x is s')
    (hx : ∀ y ∈ x.valueOperands, ∀ name ∈ y.names, name ∈ uses) (k : Nat) :
    Stays reads writes labels (some (k + reach uses s)) (is.map .instr)
      (some (k + reach uses s' + 1)) := by
  cases h with
  | single h => exact h.stays hr (hx _ (by simp)) k
  | arith _ hl hr' =>
    rw [← List.append_assoc, List.map_append]
    exact (hl.stays_two hr hr' hx k).append (.plain (Nat.le_add_left 2 _) rfl rfl rfl rfl)
  | not h =>
    rw [List.map_append]
    refine (h.stays hr (hx _ (by simp)) k).append ?_
    exact (Stays.plain (Nat.zero_le _) rfl rfl rfl rfl).append
      (.plain (Nat.le_add_left 2 _) rfl rfl rfl rfl)
  | neg h =>
    rw [List.map_append]
    refine (h.stays hr (hx _ (by simp)) k).append ?_
    exact .plain (Nat.le_add_left 1 _) rfl rfl rfl rfl
  | call hv h =>
    obtain ⟨n, hcall, hn⟩ := h.stays hr hx k
    rwa [hn hv] at hcall
  | getStatic => exact .plain (Nat.zero_le _) rfl rfl rfl rfl
  | getField h =>
    rw [List.map_append]
    refine (h.stays hr (hx _ (by simp)) k).append ?_
    exact .plain (Nat.le_add_left 1 _) rfl rfl rfl rfl

omit hr in
/-- The lines that answer a comparison: its first label is passed with the words that are left of the
operands, and the second one with the answer on top of them. -/
theorem stays_answerLines {k : Nat} (hslot : (test (trueLabel n)).slot? = none)
    (hleaves : (test (trueLabel n)).leaves = 0) (ht : (test (trueLabel n)).target? = some (trueLabel n))
    (hf : (test (trueLabel n)).fallsThrough = true) (htrue : labels (trueLabel n) = k)
    (hend : labels (endLabel n) = k + 1) :
    Stays reads writes labels (some (k + (test (trueLabel n)).needs)) (answerLines test n)
      (some (k + 1)) := by
  have hheight : (test (trueLabel n)).height (k + (test (trueLabel n)).needs) = k := by
    rw [Instr.height, hleaves]
    omega
  have hpush (v : Int) : Stays reads writes labels (some k) [.instr (.push v)] (some (k + 1)) :=
    .plain (Nat.zero_le _) rfl rfl rfl rfl
  refine .instr (Instr.keepsTo_of_slot? (Nat.le_add_left _ _) hslot) ?_ ?_
  · intro name hname
    rw [ht, Option.some.injEq] at hname
    rw [← hname, htrue, hheight]
  · rw [hf, if_pos rfl, hheight]
    refine (hpush 0).append (.instr (Instr.keepsTo_of_slot? (Nat.zero_le _) rfl) ?_ ?_)
    · rintro name ⟨⟩
      exact hend
    · refine .label (by simp [Instr.fallsThrough]) ?_
      rw [htrue]
      refine (hpush 1).append (.label ?_ ?_)
      · rintro _ ⟨⟩
        exact hend.symm
      · rw [hend]
        exact .nil

theorem Computes.stays {n' : Nat} {x : IR.Instr} {ls : List Line} (h : Computes c m s n x ls s' n')
    (hx : ∀ y ∈ x.valueOperands, ∀ name ∈ y.names, name ∈ uses) (k : Nat) :
    ∃ labels, Stays reads writes labels (some (k + reach uses s)) ls
      (some (k + reach uses s' + 1)) := by
  cases h with
  | plain h => exact ⟨fun _ ↦ 0, h.stays hr hx k⟩
  | compare _ h =>
    obtain ⟨ht, hf⟩ := h.test_target? (trueLabel n)
    obtain ⟨hslot, hleaves⟩ := h.test_slot? (trueLabel n)
    refine ⟨fun name ↦ if name = trueLabel n then k + reach uses s' else k + reach uses s' + 1,
      (h.stays hr hx k (trueLabel n)).append
        (stays_answerLines hslot hleaves ht hf (if_pos rfl) (if_neg ?_))⟩
    exact (trueLabel_ne_endLabel n n).symm

/-- An assignment to an element has the array and the index below its value. -/
theorem stays_storeElem {s₁ s₂ s₃ : Option Text} {n' : Nat} {base : Text} {index : Operand} {ty : Ty}
    {rhs : IR.Instr} {ls : List Line} {kind : Kind} {slot : Nat} (hslot : HasSlot m base kind slot)
    (hi : Loads m s₁ index is s₂) (h : Computes c m s₂ n rhs ls s₃ n')
    (hx : ∀ y ∈ .elem base index ty :: rhs.valueOperands, ∀ name ∈ y.names, name ∈ uses) (k : Nat) :
    ∃ labels, Stays reads writes labels (some (k + reach uses s₁))
      (.instr (.load kind slot) :: (is.map .instr ++ (ls ++ [.instr (.arrayStore (.ofTy ty))])))
      (some (k + reach uses s₃)) := by
  have hdest := hx _ List.mem_cons_self
  obtain ⟨labels, hs⟩ := h.stays hr (fun y hy ↦ hx y (List.mem_cons_of_mem _ hy)) (k + 2)
  have hbase : Stays reads writes labels (some (k + reach uses s₁)) [.instr (.load kind slot)]
      (some (k + 1 + reach uses s₁)) := by
    rw [Nat.add_right_comm]
    exact .loadSlot (hr base (hdest base List.mem_cons_self) _ _ hslot)
  have hindex : Stays reads writes labels (some (k + 1 + reach uses s₁)) (is.map .instr)
      (some (k + 2 + reach uses s₂)) := by
    rw [show k + 2 + reach uses s₂ = k + 1 + reach uses s₂ + 1 by omega]
    exact hi.stays hr (fun name hname ↦ hdest name (List.mem_cons_of_mem _ hname)) (k + 1)
  have hstore : Stays reads writes labels (some (k + 2 + reach uses s₃ + 1))
      [.instr (.arrayStore (.ofTy ty))] (some (k + reach uses s₃)) := by
    rw [Nat.add_right_comm k 2]
    exact .plain (Nat.le_add_left 3 _) rfl rfl rfl rfl
  exact ⟨labels, hbase.append (hindex.append (hs.append hstore))⟩

end

/-! ## The lines of an instruction -/

section
variable {c : ClassDef} {m : Method}

/-- A slot of a variable that an instruction reads. -/
def ReadSlot (m : Method) (x : IR.Instr) (kind : Kind) (slot : Nat) : Prop :=
  ∃ name ∈ x.uses, HasSlot m name kind slot

/-- The slot of the variable that an instruction writes. -/
def WrittenSlot (m : Method) (x : IR.Instr) (kind : Kind) (slot : Nat) : Prop :=
  ∃ name, x.defs? = some name ∧ HasSlot m name kind slot

/-- **The lines of an instruction keep to the variables that it is said to read and to write.** -/
theorem Emits.stays {keep s s' : Option Text} {n n' : Nat} {x : IR.Instr} {ls : List Line}
    (h : Emits c m keep s n x ls s' n') (hp : ∀ y ∈ x.operands, y.isPlain = true) :
    ∃ labels h', Stays (ReadSlot m x) (WrittenSlot m x) labels (some (reach x.uses s)) ls h' := by
  have hr : ∀ name ∈ x.uses, ∀ kind slot, HasSlot m name kind slot → ReadSlot m x kind slot :=
    fun name hname _ _ hslot ↦ ⟨name, hname, hslot⟩
  have hx (hd : x.defs? = none) : ∀ y ∈ x.operands, ∀ name ∈ y.names, name ∈ x.uses := by
    intro y hy name hname
    refine (IR.Instr.uses_or_defs_of_operands hy (hp y hy) hname).resolve_right ?_
    simp [hd]
  rw [← Nat.zero_add (reach x.uses s)]
  cases h with
  | leave _ h =>
    have hrhs := IR.Instr.names_mem_uses fun y hy ↦ hp y (List.mem_cons_of_mem _ hy)
    obtain ⟨labels, hs⟩ := h.stays hr hrhs 0
    exact ⟨labels, _, hs⟩
  | store _ h hslot =>
    have hrhs := IR.Instr.names_mem_uses fun y hy ↦ hp y (List.mem_cons_of_mem _ hy)
    obtain ⟨labels, hs⟩ := h.stays hr hrhs 0
    exact ⟨labels, _, hs.append (.storeSlot ⟨_, rfl, hslot⟩)⟩
  | storeElem hslot hi h =>
    obtain ⟨labels, hs⟩ := stays_storeElem hr hslot hi h (hx rfl) 0
    exact ⟨labels, _, hs⟩
  | callVoid _ h =>
    obtain ⟨r, hs, -⟩ := h.stays hr (hx rfl) 0
    exact ⟨fun _ ↦ 0, _, hs⟩
  | callValue hv h =>
    obtain ⟨r, hs, hone⟩ := h.stays hr (hx rfl) 0
    rw [hone hv] at hs
    exact ⟨fun _ ↦ 0, _, hs.append (.plain (Nat.le_add_left 1 _) rfl rfl rfl rfl)⟩
  | retVoid => exact Stays.last (fun _ ↦ .nil) (Nat.zero_le _) rfl
  | ret h =>
    exact Stays.last (fun _ ↦ h.stays hr (hx rfl _ List.mem_cons_self) 0) (Nat.le_add_left 1 _) rfl
  | goto => exact Stays.last (fun _ ↦ .nil) (Nat.zero_le _) rfl
  | branchCompare _ h =>
    exact Stays.last (fun _ ↦ h.stays hr (hx rfl) 0 _) (Nat.le_add_left _ _) (h.test_slot? _).1
  | branchNot h =>
    exact Stays.last (fun _ ↦ h.stays hr (hx rfl _ List.mem_cons_self) 0) (Nat.le_add_left 1 _) rfl
  | branch h =>
    exact Stays.last (fun _ ↦ h.stays hr (hx rfl) 0) (Nat.le_add_left 1 _) rfl
  | putStatic h =>
    refine Stays.last (fun _ ↦ h.stays hr (hx rfl _ ?_) 0) (Nat.le_add_left 1 _) rfl
    exact List.mem_cons_of_mem _ List.mem_cons_self
  | putField h h' =>
    exact Stays.last (fun _ ↦ h.stays_two hr h' (hx rfl) 0) (Nat.le_add_left 2 _) rfl
  | discard _ h =>
    obtain ⟨hd, ho⟩ := h.defs?_eq_none_and
    rw [ho] at hx
    obtain ⟨labels, hs⟩ := h.stays hr (hx hd) 0
    exact ⟨labels, _, hs.append (.plain (Nat.le_add_left 1 _) rfl rfl rfl rfl)⟩

/-- Lines touch nothing but what an instruction is said to read and to write, where `s` is the
temporary that is on the stack before them. -/
structure Touches (m : Method) (x : IR.Instr) (s : Option Text) (ls : List Line) : Prop where
  /-- A slot that is loaded is that of a variable that the instruction reads. -/
  loads : ∀ kind slot, Line.instr (.load kind slot) ∈ ls → ∃ name ∈ x.uses, HasSlot m name kind slot
  /-- A slot that is stored is that of the variable that the instruction writes. -/
  stores : ∀ kind slot, Line.instr (.store kind slot) ∈ ls →
    ∃ name, x.defs? = some name ∧ HasSlot m name kind slot
  /-- Two runs through the lines, which stand anywhere in a body, go in step if the slots of the
  variables that the instruction reads are the same, and the temporary too if it is one of these.
  Other slots and all other words on the stack may differ: the runs still ask the environment the same,
  end in the same way and stand at the same lines with the same words on top, and leave what lies below
  and the slots that are not written as they were. -/
  runs : ∀ (lines : List Line) (p : Nat) (env : Env Instr) (f g : Frame) (top found found' : List Word),
    StandsAt ls lines p → f.stack = top ++ found → g.stack = top ++ found' →
    top.length = reach x.uses s →
    (∀ kind slot, ReadSlot m x kind slot → f.slots slot = g.slots slot) →
    ∀ steps, Act.Matches (StatesAlike (ReadSlot m x) (WrittenSlot m x) found found' f g)
      (runWithin lines env p (p + ls.length) steps ⟨p, f⟩)
      (runWithin lines env p (p + ls.length) steps ⟨p, g⟩)

theorem Emits.touches {keep s s' : Option Text} {n n' : Nat} {x : IR.Instr} {ls : List Line}
    (h : Emits c m keep s n x ls s' n') (hp : ∀ y ∈ x.operands, y.isPlain = true) :
    Touches m x s ls := by
  obtain ⟨labels, h', hs⟩ := h.stays hp
  refine ⟨fun kind slot hmem ↦ ?_, fun kind slot hmem ↦ ?_, ?_⟩
  · obtain ⟨k, hk⟩ := hs.keepsTo hmem
    exact hk.load kind slot rfl
  · obtain ⟨k, hk⟩ := hs.keepsTo hmem
    exact hk.store kind slot rfl
  · intro lines p env f g top found found' hat hf hg htop hslots steps
    exact hs.runs_match hat ⟨⟨top, htop, hf, hg⟩, hslots⟩ steps

/-- **The variables that an instruction is said to read and to write are those that its lines touch**,
whatever the state of the emitter is. -/
theorem emitted_lines_touch_uses_and_def {x : IR.Instr} {e e' : Emitter}
    (hp : ∀ y ∈ x.operands, y.isPlain = true) (hn : ∀ name ∈ x.names, name ≠ "")
    (h : (instr c m x).run e = .ok ((), e')) :
    ∃ ls, e'.lines = e.lines ++ ls ∧ Touches m x e.onStack ls := by
  obtain ⟨ls, hls, ha, -⟩ := instr_spec hn h
  exact ⟨ls, ha.lines, hls.touches hp⟩

end

/-! ## A sum with a temporary -/

/-- A method that adds an element of an array to a number. -/
def addTo : Method where
  name := "addTo"
  isStatic := true
  vars := ⟨[⟨"a", .array .int, .param, 0⟩, ⟨"i", .int, .param, 1⟩, ⟨"t", .int, .temp, 2⟩,
    ⟨"s", .int, .declared, 3⟩], by decide⟩

/-- `s = t + a[i]` -/
def sumInstr : IR.Instr :=
  .assign (.var "s" .int) .int
    (.binary .add (.var "t" .int) (.elem "a" (.var "i" .int) .int) .int)

/-- The temporary `t` is found on the stack and not loaded. -/
theorem sumInstr_touches : (∀ y ∈ sumInstr.operands, y.isPlain = true) ∧
    (∀ name ∈ sumInstr.names, name ≠ "") ∧
    ∃ e' ls, (instr { name := "Sums" } addTo sumInstr).run { depth := 1, onStack := some "t" } =
        .ok ((), e') ∧ e'.lines = [] ++ ls ∧
      ls = [.instr (.load .ref 0), .instr (.load .int 1), .instr (.arrayLoad .int),
        .instr (.arith .add), .instr (.store .int 3)] ∧ Touches addTo sumInstr (some "t") ls := by
  obtain ⟨ls, hls, htouches⟩ := @emitted_lines_touch_uses_and_def { name := "Sums" } addTo sumInstr
    { depth := 1, onStack := some "t" } _ (by decide) (by decide) rfl
  refine ⟨by decide, by decide, _, ls, rfl, hls, ?_, htouches⟩
  cases hls
  rfl

end Jvm

end MiniJava
