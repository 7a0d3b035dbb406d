import MiniJava.Proofs.LineLabels
import MiniJava.Proofs.StackUse

/-!
# The depth of the stack along a method body

`Flows` follows the lines of a body with the depth of the stack, given the depth at each label: it
never goes below zero, the jumps to a label arrive with its depth, and a return leaves nothing.  After a
jump or a return nothing falls through; the lines up to the next label are then followed all the same,
with the depth they would have.

Each form of instruction is shown to flow, from the lines that `Emits` gives it.  What the emitter
counts is never less than the depth here (`Flows.sync`), so its check after each instruction says that
nothing was left on the stack, and its greatest depth is a bound.
-/

set_option autoImplicit false

namespace MiniJava

open IR

/-- The calls in an instruction. -/
def IR.Instr.calls : IR.Instr → List Call
  | call x => [x]
  | assign _ _ value => value.calls
  | branch cond _ => cond.calls
  | missing | binary _ _ _ _ | unary _ _ _ | single _ | ret _ _ | goto _ | putField _ _ _
  | getField _ _ _ => []

namespace Jvm

/-- The instruction ends the method. -/
def Instr.isReturn : Instr → Bool
  | ret | retValue _ => true
  | _ => false

/-! ## Flow -/

/-- One line of a body: `live` says that control can come from the line before, and `depth` how deep
the stack is; `labels` gives the depth at each label. -/
inductive LineFlow (labels : Text → Nat) : Bool → Nat → Line → Bool → Nat → Prop
  | label {live : Bool} {depth : Nat} {name : Text} (hlive : live = true → depth = labels name)
      (hle : labels name ≤ depth) : LineFlow labels live depth (.label name) true (labels name)
  | instr {live : Bool} {depth : Nat} {i : Instr} {u : StackUse} (hu : Counted i u)
      (hp : u.pops ≤ depth)
      (ht : ∀ name, i.target? = some name → labels name ≤ depth - u.pops + u.pushes ∧
        (live = true → labels name = depth - u.pops + u.pushes))
      (hret : live = true → i.isReturn = true → depth - u.pops + u.pushes = 0) :
      LineFlow labels live depth (.instr i) (live && i.fallsThrough) (depth - u.pops + u.pushes)

/-- Lines one after another. -/
inductive Flows (labels : Text → Nat) : Bool → Nat → List Line → Bool → Nat → Prop
  | nil {live : Bool} {depth : Nat} : Flows labels live depth [] live depth
  | cons {live₁ live₂ live₃ : Bool} {depth₁ depth₂ depth₃ : Nat} {l : Line} {ls : List Line}
      (h : LineFlow labels live₁ depth₁ l live₂ depth₂)
      (hs : Flows labels live₂ depth₂ ls live₃ depth₃) :
      Flows labels live₁ depth₁ (l :: ls) live₃ depth₃

section
variable {labels : Text → Nat} {live live' live'' : Bool} {depth depth' depth'' : Nat}
  {ls ls' : List Line}

theorem Flows.append (h : Flows labels live depth ls live' depth')
    (h' : Flows labels live' depth' ls' live'' depth'') :
    Flows labels live depth (ls ++ ls') live'' depth'' := by
  induction h with
  | nil => exact h'
  | cons hl _ ih => exact .cons hl (ih h')

theorem Flows.single {l : Line} (h : LineFlow labels live depth l live' depth') :
    Flows labels live depth [l] live' depth' :=
  .cons h .nil

theorem Flows.split (h : Flows labels live depth (ls ++ ls') live'' depth'') :
    ∃ live' depth', Flows labels live depth ls live' depth' ∧
      Flows labels live' depth' ls' live'' depth'' := by
  induction ls generalizing live depth with
  | nil => exact ⟨live, depth, .nil, h⟩
  | cons l ls ih =>
    cases h with
    | cons hl hs =>
      obtain ⟨live', depth', h₁, h₂⟩ := ih hs
      exact ⟨live', depth', .cons hl h₁, h₂⟩

theorem LineFlow.unique {l : Line} (h : LineFlow labels live depth l live' depth')
    (h' : LineFlow labels live depth l live'' depth'') : live' = live'' ∧ depth' = depth'' := by
  cases h with
  | label _ _ =>
    cases h' with
    | label _ _ => exact ⟨rfl, rfl⟩
  | instr hu _ _ _ =>
    cases h' with
    | instr hu' _ _ _ =>
      obtain rfl := Option.some.inj (hu.1.symm.trans hu'.1)
      exact ⟨rfl, rfl⟩

theorem Flows.unique (h : Flows labels live depth ls live' depth')
    (h' : Flows labels live depth ls live'' depth'') : live' = live'' ∧ depth' = depth'' := by
  induction h with
  | nil =>
    cases h' with
    | nil => exact ⟨rfl, rfl⟩
  | cons hl _ ih =>
    cases h' with
    | cons hl' hs' =>
      obtain ⟨rfl, rfl⟩ := hl.unique hl'
      exact ih hs'

theorem LineFlow.congr {labels' : Text → Nat} {l : Line}
    (h : LineFlow labels live depth l live' depth')
    (heq : ∀ name, mentioned [l] name → labels' name = labels name) :
    LineFlow labels' live depth l live' depth' := by
  cases h with
  | label hlive hle =>
    rw [← heq _ ⟨_, List.mem_singleton_self _, .inl rfl⟩] at hlive hle ⊢
    exact .label hlive hle
  | instr hu hp ht hret =>
    refine .instr hu hp ?_ hret
    intro name hname
    rw [heq name ⟨_, List.mem_singleton_self _, .inr ⟨_, rfl, hname⟩⟩]
    exact ht name hname

/-- Only the depths of the labels that are there matter. -/
theorem Flows.congr {labels' : Text → Nat} (h : Flows labels live depth ls live' depth')
    (heq : ∀ name, mentioned ls name → labels' name = labels name) :
    Flows labels' live depth ls live' depth' := by
  induction h with
  | nil => exact .nil
  | @cons _ _ _ _ _ _ l ls hl _ ih =>
    have hcons (name : Text) : mentioned ([l] ++ ls) name ↔ mentioned [l] name ∨ mentioned ls name :=
      mentioned_append
    exact .cons (hl.congr fun name hname ↦ heq name ((hcons name).2 (.inl hname)))
      (ih fun name hname ↦ heq name ((hcons name).2 (.inr hname)))

end

/-! ## Operands and values -/

/-- The emitter counts an instruction that is no invocation as the machine does. -/
theorem counted {i : Instr} {u : StackUse} (hu : i.use? = some u := by rfl)
    (hi : ∀ how cls method params result, i ≠ .invoke how cls method params result := by simp) :
    Counted i u :=
  counted_of_not_invoke hu hi

section
variable {labels : Text → Nat} {live live' : Bool} {depth depth' depth'' : Nat}

/-- An instruction that puts one word on the stack, before other lines. -/
theorem Flows.push {i : Instr} {ls : List Line} (hu : Counted i ⟨0, 1⟩)
    (h : Flows labels live (depth + 1) ls live' depth') (ht : i.target? = none := by rfl)
    (hf : i.fallsThrough = true := by rfl) (hr : i.isReturn = false := by rfl) :
    Flows labels live depth (.instr i :: ls) live' depth' := by
  have hi : LineFlow labels live depth (.instr i) (live && i.fallsThrough) (depth + 1) :=
    .instr hu (Nat.zero_le _) (by simp [ht]) (by simp [hr])
  rw [hf, Bool.and_true] at hi
  exact .cons hi h

/-- An instruction that neither jumps nor returns, after other lines. -/
theorem Flows.snoc {i : Instr} {ls : List Line} {u : StackUse}
    (h : Flows labels live depth ls live' depth') (hu : Counted i u)
    (hp : u.pops ≤ depth') (hd : depth' - u.pops + u.pushes = depth'')
    (ht : i.target? = none := by rfl) (hf : i.fallsThrough = true := by rfl)
    (hr : i.isReturn = false := by rfl) :
    Flows labels live depth (ls ++ [.instr i]) live' depth'' := by
  have hi : LineFlow labels live' depth' (.instr i) (live' && i.fallsThrough)
      (depth' - u.pops + u.pushes) :=
    .instr hu hp (by simp [ht]) (by simp [hr])
  rw [hf, Bool.and_true, hd] at hi
  exact h.append (.single hi)

end

section
variable {c : ClassDef} {m : Method} {labels : Text → Nat} {live : Bool}
variable {s s' : Option Text} {is : List Instr} {x : IR.Instr} {n n' : Nat} {ls : List Line}

/-- Loading an operand puts one word on the stack, on top of `k` others and of a temporary that may be
there. -/
theorem Loads.flows {x : Operand} (h : Loads m s x is s') (k : Nat) :
    Flows labels live (k + left s) (is.map .instr) live (k + left s' + 1) := by
  induction h generalizing k with
  | literal _ _ => exact .push counted .nil
  | top => exact .nil
  | var _ _ => exact .push counted .nil
  | elem _ _ ih =>
    have hi := ih (k + 1)
    rw [Nat.add_right_comm k 1, Nat.add_right_comm k 1] at hi
    rw [List.map_cons, List.map_append]
    exact .push counted (hi.snoc counted (by simp) (by simp))

theorem LoadsAll.flows {xs : List Operand} (h : LoadsAll m s xs is s') (k : Nat) :
    Flows labels live (k + left s) (is.map .instr) live (k + left s' + xs.length) := by
  induction h generalizing k with
  | nil => exact .nil
  | @cons s₁ s₂ s₃ x xs is js hx _ ih =>
    have hxs := ih (k + 1)
    rw [List.map_append]
    refine (hx.flows k).append ?_
    rw [Nat.add_right_comm k 1] at hxs
    convert hxs using 1
    rw [List.length_cons]
    omega

/-- The names of a call can be read back from the line of an invocation. -/
structure Readable (c : ClassDef) (x : Call) : Prop where
  names : CleanNames c x
  args : ∀ a ∈ x.args, a.ty.isVoid = false

theorem clean_superName {x : Call} (h : CleanNames c x) : Clean c.superName := by
  rw [ClassDef.superName]
  split
  · simp [Clean, ClassDef.root]
  · exact clean_resolve h.imports h.super

theorem clean_owner {x : Call} (h : CleanNames c x) {cls : Text}
    (ho : owner? c x.kind x.caller.ty x.method = some cls) : Clean cls := by
  have hcaller := h.caller
  unfold owner? at ho
  split at ho
  · rename_i name hty
    rw [hty] at hcaller
    split at ho
    · cases ho
      exact clean_superName h
    · cases ho
      exact clean_resolve h.imports (hcaller name (by simp [Ty.classNames]))
  · obtain ⟨name, hname, rfl⟩ := Option.map_eq_some_iff.1 ho
    refine clean_resolve h.imports ?_
    generalize x.caller.ty = ty at hcaller hname
    cases ty with
    | object cls own =>
      cases hname
      exact hcaller _ (by simp [Ty.classNames])
    | receiver cls =>
      cases hname
      exact hcaller _ (by simp [Ty.classNames])
    | string =>
      cases hname
      simp [Clean]
    | absent | int | bool | void | array _ => cases hname

/-- A call takes its operands from the stack and leaves its result. -/
theorem Calls.flows {x : Call} (h : Calls c m x s is s') (hx : Readable c x) (k : Nat) :
    ∃ n, Flows labels live (k + left s) (is.map .instr) live (k + left s' + n) ∧
      (x.ret.isVoid = false → n = 1) := by
  cases h with
  | newObject _ => exact ⟨1, .push counted .nil, fun _ ↦ rfl⟩
  | newArray _ _ hl hi =>
    refine ⟨1, ?_, fun _ ↦ rfl⟩
    rw [List.map_append]
    rw [arrayInstr?] at hi
    split at hi
    case h_5 => cases hi
    all_goals
      cases hi
      exact (hl.flows k).snoc counted (by simp) (by simp)
  | arrayLength _ hl =>
    rw [List.map_append]
    exact ⟨1, (hl.flows k).snoc counted (by simp) (by simp), fun _ ↦ rfl⟩
  | static _ hl =>
    refine ⟨if x.ret.isVoid then 0 else 1, ?_, fun hv ↦ by simp [hv]⟩
    rw [List.map_append]
    refine (hl.flows k).snoc (counted_invokeInstr hx.names hx.args
      (clean_resolve hx.names.imports hx.names.cls)) ?_ ?_
    · simp [Invocation.hasReceiver]
    · simp [Invocation.hasReceiver]
  | @onObject _ _ _ _ how _ hk hs hr ha ho =>
    refine ⟨if x.ret.isVoid then 0 else 1, ?_, fun hv ↦ by simp [hv]⟩
    have hargs : Flows labels live _ _ live _ := ha.flows (k + 1)
    rw [Nat.add_right_comm] at hargs
    have hreceiver : how.hasReceiver = true := by simp [hasReceiver_of_invocation? hk, hs]
    rw [List.map_append, List.map_append, ← List.append_assoc]
    refine ((hr.flows k).append hargs).snoc
      (counted_invokeInstr hx.names hx.args (clean_owner hx.names ho)) ?_ ?_
    · simp only [hreceiver, if_true]
      omega
    · simp only [hreceiver, if_true]
      omega

theorem Evaluates.flows (h : Evaluates c m s x is s') (hx : ∀ y, x = .call y → Readable c y) (k : Nat) :
    Flows labels live (k + left s) (is.map .instr) live (k + left s' + 1) := by
  cases h with
  | single h => exact h.flows k
  | arith _ hl hr =>
    have hr' : Flows labels live _ _ live _ := hr.flows (k + 1)
    rw [Nat.add_right_comm] at hr'
    rw [List.map_append, List.map_append, ← List.append_assoc]
    exact ((hl.flows k).append hr').snoc counted (by simp; omega) (by simp)
  | not h =>
    rw [List.map_append]
    exact (h.flows k).append (.push counted (.snoc .nil counted (by simp) (by simp)))
  | neg h =>
    rw [List.map_append]
    exact (h.flows k).snoc counted (by simp) (by simp)
  | call hv h =>
    obtain ⟨n, hf, hn⟩ := h.flows (hx _ rfl) k
    rwa [hn hv] at hf
  | getStatic => exact .push counted .nil
  | getField h =>
    rw [List.map_append]
    exact (h.flows k).snoc counted (by simp) (by simp)

variable {test : Text → Instr} {name : Text}

theorem Compares.flows {op : Op} {cond : Cond} {l r : Operand} (h : Compares m op cond l r s is test s')
    (k : Nat) :
    ∃ n, Flows labels live (k + left s) (is.map .instr) live (k + left s' + n) ∧
      ∀ name, Counted (test name) ⟨n, 0⟩ ∧ (test name).target? = some name ∧
        (test name).fallsThrough = true ∧ (test name).isReturn = false := by
  cases h with
  | rightZero _ h => exact ⟨1, h.flows k, fun _ ↦ ⟨counted, rfl, rfl, rfl⟩⟩
  | leftZero _ _ h => exact ⟨1, h.flows k, fun _ ↦ ⟨counted, rfl, rfl, rfl⟩⟩
  | both _ _ h h' =>
    have hr : Flows labels live _ _ live _ := h'.flows (k + 1)
    rw [Nat.add_right_comm] at hr
    rw [List.map_append]
    refine ⟨2, ?_, fun _ ↦ ⟨counted, rfl, rfl, rfl⟩⟩
    convert (h.flows k).append hr using 1
    omega

/-- A conditional jump after other lines, which pops what they have put on the stack. -/
theorem Flows.jump {live' : Bool} {depth d n : Nat} {ls : List Line} {i : Instr}
    (h : Flows labels live depth ls live' (d + n)) (hu : Counted i ⟨n, 0⟩)
    (ht : i.target? = some name ∧ i.fallsThrough = true ∧ i.isReturn = false) (hle : labels name ≤ d)
    (hl : live' = true → labels name = d) : Flows labels live depth (ls ++ [.instr i]) live' d := by
  have hd : d + n - n + 0 = d := by omega
  have hi : LineFlow labels live' (d + n) (.instr i) (live' && i.fallsThrough) (d + n - n + 0) := by
    refine .instr hu (by simp) ?_ (by simp [ht.2.2])
    intro name' hname
    obtain rfl := Option.some.inj (ht.1.symm.trans hname)
    rw [hd]
    exact ⟨hle, hl⟩
  rw [ht.2.1, Bool.and_true, hd] at hi
  exact h.append (.single hi)

theorem LineFlow.goto {depth : Nat} (hle : labels name ≤ depth) (hl : live = true → labels name = depth) :
    LineFlow labels live depth (.instr (.goto name)) false depth := by
  have hg : LineFlow labels live depth (.instr (.goto name))
      (live && (Instr.goto name).fallsThrough) (depth - 0 + 0) := by
    refine .instr (u := ⟨0, 0⟩) counted (by simp) ?_ (by simp [Instr.isReturn])
    rintro name' ⟨⟩
    exact ⟨hle, hl⟩
  rwa [Instr.fallsThrough, Bool.and_false] at hg

/-- The answer of a comparison is one word on the stack, whichever way it is reached. -/
theorem answerLines_flows {d words : Nat}
    (ht : ∀ name, Counted (test name) ⟨words, 0⟩ ∧ (test name).target? = some name ∧
      (test name).fallsThrough = true ∧ (test name).isReturn = false) (htrue : labels (trueLabel n) = d)
    (hend : labels (endLabel n) = d + 1) :
    Flows labels live (d + words) (answerLines test n) true (d + 1) := by
  have hjump : Flows labels live (d + words) ([] ++ [.instr (test (trueLabel n))]) live d :=
    .jump .nil (ht _).1 (ht _).2 (Nat.le_of_eq htrue) fun _ ↦ htrue
  have hlabel : LineFlow labels true (d + 1) (.label (endLabel n)) true (labels (endLabel n)) :=
    .label (fun _ ↦ hend.symm) (Nat.le_of_eq hend)
  have hdone : Flows labels true (labels (trueLabel n)) [.instr (.push 1), .label (endLabel n)] true
      (d + 1) := by
    rw [hend] at hlabel
    rw [htrue]
    exact .push counted (.single hlabel)
  refine hjump.append (.push counted (.cons (.goto (Nat.le_of_eq hend) fun _ ↦ hend) ?_))
  exact .cons (.label (by simp) (by omega)) hdone

theorem Computes.flows (h : Computes c m s n x ls s' n') (hx : ∀ y, x = .call y → Readable c y)
    (k : Nat) (hl : n < n' → labels (trueLabel n) = k + left s' ∧ labels (endLabel n) = k + left s' + 1) :
    ∃ live', Flows labels live (k + left s) ls live' (k + left s' + 1) := by
  cases h with
  | plain h => exact ⟨live, h.flows hx k⟩
  | compare _ h =>
    obtain ⟨words, hf, ht⟩ := h.flows k
    obtain ⟨htrue, hend⟩ := hl (Nat.lt_succ_self n)
    exact ⟨true, hf.append (answerLines_flows ht htrue hend)⟩

/-! ## What is left on the stack -/

theorem Loads.onStack {x : Operand} (h : Loads m s x is s') : s' = s ∨ s' = none := by
  induction h with
  | literal _ _ => exact .inl rfl
  | top => exact .inr rfl
  | var _ _ => exact .inl rfl
  | elem _ _ ih => exact ih

/-- What two steps leave of the temporary on the stack. -/
theorem onStack_trans {s₁ s₂ s₃ : Option Text} (h : s₂ = s₁ ∨ s₂ = none) (h' : s₃ = s₂ ∨ s₃ = none) :
    s₃ = s₁ ∨ s₃ = none := by
  rcases h' with rfl | rfl
  · exact h
  · exact .inr rfl

theorem LoadsAll.onStack {xs : List Operand} (h : LoadsAll m s xs is s') : s' = s ∨ s' = none := by
  induction h with
  | nil => exact .inl rfl
  | cons hx _ ih => exact onStack_trans hx.onStack ih

theorem Calls.onStack {x : Call} (h : Calls c m x s is s') : s' = s ∨ s' = none := by
  cases h with
  | newObject _ => exact .inl rfl
  | newArray _ _ h _ => exact h.onStack
  | arrayLength _ h => exact h.onStack
  | static _ h => exact h.onStack
  | onObject _ _ hr ha _ => exact onStack_trans hr.onStack ha.onStack

theorem Compares.onStack {op : Op} {cond : Cond} {l r : Operand}
    (h : Compares m op cond l r s is test s') : s' = s ∨ s' = none := by
  cases h with
  | rightZero _ h => exact h.onStack
  | leftZero _ _ h => exact h.onStack
  | both _ _ h h' => exact onStack_trans h.onStack h'.onStack

theorem Evaluates.onStack (h : Evaluates c m s x is s') : s' = s ∨ s' = none := by
  cases h with
  | single h => exact h.onStack
  | arith _ hl hr => exact onStack_trans hl.onStack hr.onStack
  | not h => exact h.onStack
  | neg h => exact h.onStack
  | call _ h => exact h.onStack
  | getStatic => exact .inl rfl
  | getField h => exact h.onStack

theorem Computes.onStack (h : Computes c m s n x ls s' n') : s' = s ∨ s' = none := by
  cases h with
  | plain h => exact h.onStack
  | compare _ h => exact h.onStack

theorem Emits.onStack {keep : Option Text} (h : Emits c m keep s n x ls s' n') :
    s' = keep ∨ s' = s ∨ s' = none := by
  cases h with
  | leave hk _ => exact .inl hk.symm
  | store _ h _ => exact .inr h.onStack
  | storeElem _ hi h => exact .inr (onStack_trans hi.onStack h.onStack)
  | callVoid _ h => exact .inr h.onStack
  | callValue _ h => exact .inr h.onStack
  | retVoid => exact .inr (.inl rfl)
  | ret h => exact .inr h.onStack
  | goto => exact .inr (.inl rfl)
  | branchCompare _ h => exact .inr h.onStack
  | branchNot h => exact .inr h.onStack
  | branch h => exact .inr h.onStack
  | putStatic h => exact .inr h.onStack
  | putField h h' => exact .inr (onStack_trans h.onStack h'.onStack)
  | discard _ h => exact .inr h.onStack

/-- An instruction that consumes what it finds on the stack and adds nothing leaves nothing. -/
theorem left_eq_zero (h : s' = s ∨ s' = none) (hs : ∀ name, s = some name → s' ≠ some name) :
    left s' = 0 := by
  rcases h with rfl | rfl
  · cases s' with
    | none => rfl
    | some name => exact absurd rfl (hs name rfl)
  · rfl

/-! ## Instructions -/

theorem LineFlow.ret {depth depth' : Nat} {i : Instr} {u : StackUse} (hu : Counted i u)
    (hr : i.isReturn = true) (hp : u.pops ≤ depth) (hd : depth - u.pops + u.pushes = depth')
    (h : live = true → depth' = 0) : LineFlow labels live depth (.instr i) false depth' := by
  have hi : i.target? = none ∧ i.fallsThrough = false := by
    cases i <;> simp [Instr.isReturn, Instr.target?, Instr.fallsThrough] at hr ⊢
  have hl : LineFlow labels live depth (.instr i) (live && i.fallsThrough)
      (depth - u.pops + u.pushes) :=
    .instr hu hp (by simp [hi.1]) fun hlive _ ↦ hd.trans (h hlive)
  rwa [hi.2, Bool.and_false, hd] at hl

/-- The lines of an instruction, from `k` words below a temporary that may be on the stack: at most one
comparison has its private labels at a depth `r`, and labels of the method are reached with an empty
stack if the instruction is.  -/
theorem Emits.flows {keep : Option Text} (h : Emits c m keep s n x ls s' n')
    (hx : ∀ y ∈ x.calls, Readable c y) (hs : ∀ name, s = some name → s' ≠ some name) (k : Nat) :
    ∃ r, ∀ (labels : Text → Nat) (live : Bool),
      (n < n' → labels (trueLabel n) = r ∧ labels (endLabel n) = r + 1) →
      (∀ name, x.target? = some name → labels name = 0) → (live = true → k = 0) →
      ∃ live' k', Flows labels live (k + left s) ls live' (k' + left s') := by
  cases h with
  | @leave s₁ _ _ _ _ _ _ _ hk h =>
    refine ⟨k + left s₁, fun labels live hl _ _ ↦ ?_⟩
    obtain ⟨live', hf⟩ := h.flows (fun y hy ↦ hx y (by simp [IR.Instr.calls, hy])) k hl
    exact ⟨live', k + left s₁, hf⟩
  | store _ h _ =>
    refine ⟨k + left s', fun labels live hl _ _ ↦ ?_⟩
    obtain ⟨live', hf⟩ := h.flows (fun y hy ↦ hx y (by simp [IR.Instr.calls, hy])) k hl
    exact ⟨live', k, hf.snoc counted (by simp) (by simp)⟩
  | @storeElem s₂ _ _ _ _ _ _ _ _ _ _ _ _ _ hi h =>
    refine ⟨k + 2 + left s', fun labels live hl _ _ ↦ ?_⟩
    have hi' : Flows labels live _ _ live _ := hi.flows (k + 1)
    obtain ⟨live', hf⟩ : ∃ live', Flows labels live _ _ live' _ :=
      h.flows (fun y hy ↦ hx y (by simp [IR.Instr.calls, hy])) (k + 2) hl
    refine ⟨live', k, .push counted ?_⟩
    rw [Nat.add_right_comm] at hi'
    rw [show k + 1 + left s₂ + 1 = k + 2 + left s₂ by omega] at hi'
    exact hi'.append (hf.snoc counted (by simp; omega) (by simp; omega))
  | callVoid _ h =>
    refine ⟨0, fun labels live _ _ _ ↦ ?_⟩
    obtain ⟨j, hf, -⟩ := h.flows (hx _ (by simp [IR.Instr.calls])) k
    exact ⟨live, k + j, by rwa [Nat.add_right_comm]⟩
  | callValue hv h =>
    refine ⟨0, fun labels live _ _ _ ↦ ?_⟩
    obtain ⟨j, hf, hj⟩ := h.flows (hx _ (by simp [IR.Instr.calls])) k
    rw [hj hv] at hf
    exact ⟨live, k, hf.snoc counted (by simp) (by simp)⟩
  | retVoid =>
    refine ⟨0, fun labels live _ _ hk ↦ ⟨false, k, .single (.ret counted rfl (by simp) rfl ?_)⟩⟩
    intro hlive
    simp [hk hlive, left_eq_zero (.inl rfl) hs]
  | ret h =>
    refine ⟨0, fun labels live _ _ hk ↦
      ⟨false, k, (h.flows k).append (.single (.ret counted rfl (by simp) rfl ?_))⟩⟩
    intro hlive
    simp [hk hlive, left_eq_zero h.onStack hs]
  | goto =>
    refine ⟨0, fun labels live _ ht hk ↦ ⟨false, k, .single (.goto ?_ ?_)⟩⟩
    · simp [ht _ rfl]
    · intro hlive
      simp [ht _ rfl, hk hlive, left_eq_zero (.inl rfl) hs]
  | branchCompare _ h =>
    refine ⟨0, fun labels live _ ht hk ↦ ?_⟩
    obtain ⟨words, hf, htest⟩ := h.flows k
    refine ⟨live, k, hf.jump (htest _).1 (htest _).2 ?_ ?_⟩
    · simp [ht _ rfl]
    · intro hlive
      simp [ht _ rfl, hk hlive, left_eq_zero h.onStack hs]
  | branchNot h =>
    refine ⟨0, fun labels live _ ht hk ↦ ⟨live, k, (h.flows k).jump counted ⟨rfl, rfl, rfl⟩ ?_ ?_⟩⟩
    · simp [ht _ rfl]
    · intro hlive
      simp [ht _ rfl, hk hlive, left_eq_zero h.onStack hs]
  | branch h =>
    refine ⟨0, fun labels live _ ht hk ↦ ?_⟩
    have hf : Flows labels live _ _ live _ :=
      h.flows (fun y hy ↦ hx y (by simp [IR.Instr.calls, hy])) k
    refine ⟨live, k, hf.jump counted ⟨rfl, rfl, rfl⟩ ?_ ?_⟩
    · simp [ht _ rfl]
    · intro hlive
      simp [ht _ rfl, hk hlive, left_eq_zero h.onStack hs]
  | putStatic h =>
    exact ⟨0, fun labels live _ _ _ ↦ ⟨live, k, (h.flows k).snoc counted (by simp) (by simp)⟩⟩
  | putField h h' =>
    refine ⟨0, fun labels live _ _ _ ↦ ?_⟩
    have hv : Flows labels live _ _ live _ := h'.flows (k + 1)
    rw [Nat.add_right_comm] at hv
    rw [List.map_append]
    exact ⟨live, k, ((h.flows k).append hv).snoc counted (by simp; omega) (by simp)⟩
  | discard hc h =>
    refine ⟨k + left s', fun labels live hl _ _ ↦ ?_⟩
    obtain ⟨live', hf⟩ := h.flows (fun y hy ↦ absurd hy (hc y)) k hl
    exact ⟨live', k, hf.snoc counted (by simp) (by simp)⟩

/-- What is on the stack before an instruction is a temporary that the one before it left there. -/
theorem stackTemp?_of_onStack {es : Nat → Emitter} (h0 : es 0 = {})
    (hes : ∀ i x, m.code[i]? = some x → EmitsAt c m (stackTemp? m) i x (es i) (es (i + 1))) {i : Nat}
    (hi : i ≤ m.code.length) (hs : (es i).onStack = some name) :
    ∃ j, i = j + 1 ∧ stackTemp? m j = some name := by
  cases i with
  | zero =>
    rw [h0] at hs
    cases hs
  | succ i =>
    have hat := hes i _ (List.getElem?_eq_getElem hi)
    obtain ⟨ls, hls, -⟩ := hat.emits
    rcases hls.onStack with hk | hk | hk
    · exact ⟨i, rfl, hk ▸ hs⟩
    · exact absurd hs (hat.consumed name (hk ▸ hs))
    · rw [hk] at hs
      cases hs

end

end Jvm

end MiniJava
