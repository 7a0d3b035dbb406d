import Mathlib.Tactic

/-!
# Machines that talk to an environment

What runs of the source, of the intermediate code and of the stack machine have in common.  A run
computes on `Word`s by itself; calls, fields, arrays and allocations it leaves to an environment.
What it asks the environment is recorded, and the answers may depend on all that was asked before,
so an environment is as free as a heap with any number of other methods in it.

* `Act` is a computation that asks, and that may end the run: by a return, an exception, at the end
  of the code, or because an operation has no meaning (`End.stuck`).
* `Machine.run` is the number of steps it is told to make, and `Machine.Simulates` says that two
  machines cannot be told apart from outside: they ask the same in the same order, and one ends
  exactly if the other does, in the same way.
* `Machine.simulates_of_step` gets that from one step: it is answered by some steps of the other
  machine, and by none only if a rank falls.
-/

set_option autoImplicit false

namespace MiniJava

/-! ## Values -/

/-- What a variable, a slot or the stack holds.  A boolean is one of the integers 0 and 1. -/
inductive Word where
  | int (value : BitVec 32)
  | ref (id : Nat)
deriving DecidableEq, Repr, Inhabited

namespace Word

/-- The value of a boolean. -/
def ofBool (b : Bool) : Word := .int (if b then 1 else 0)

/-- The boolean that a value stands for. -/
def bool? : Word → Option Bool
  | .int v => if v = 0 then some false else if v = 1 then some true else none
  | .ref _ => none

@[simp] theorem bool?_ofBool (b : Bool) : (ofBool b).bool? = some b := by cases b <;> rfl

theorem eq_ofBool {v : Word} {b : Bool} (h : v.bool? = some b) : v = ofBool b := by
  cases v with
  | ref id => cases h
  | int v =>
    simp only [bool?] at h
    split at h
    · cases h
      rename_i hv
      rw [hv]
      rfl
    · split at h
      · cases h
        rename_i hv
        rw [hv]
        rfl
      · cases h

end Word

/-! ## Computations -/

/-- How a run ends. -/
inductive End where
  | returned (value : Option Word)
  | thrown
  /-- There is no instruction left. -/
  | exhausted
  /-- An operation was applied to what it is not defined on. -/
  | stuck
deriving DecidableEq, Repr, Inhabited

/-- What the environment is asked: to carry out an operation on values. -/
structure Request (K : Type) where
  op : K
  operands : List Word
deriving Repr

/-- Answers to requests, from all requests made before; no answer is an exception. -/
abbrev Env (K : Type) := List (Request K) → Request K → Option Word

/-- A computation that makes requests and may end the run. -/
abbrev Act (K : Type) := ExceptT End (StateM (List (Request K)))

variable {K α β : Type}

/-- Asks the environment. -/
def perform (env : Env K) (op : K) (operands : List Word) : Act K Word := do
  let past ← get
  set (past ++ [⟨op, operands⟩])
  match env past ⟨op, operands⟩ with
  | some v => return v
  | none => throw .thrown

namespace Act

variable {x : Act K α} {f : α → Act K β} {past past' : List (Request K)} {P : α → Prop}

/-- The result of a computation after some requests, and all requests after it. -/
def result (x : Act K α) (past : List (Request K)) : Except End α × List (Request K) :=
  x.run past

@[simp] theorem result_pure (a : α) (past : List (Request K)) :
    result (pure a : Act K α) past = (.ok a, past) := rfl

@[simp] theorem result_throw (e : End) (past : List (Request K)) :
    result (throw e : Act K α) past = (.error e, past) := rfl

theorem result_bind (x : Act K α) (f : α → Act K β) (past : List (Request K)) :
    result (x >>= f) past =
      match result x past with
      | (.ok a, past') => result (f a) past'
      | (.error e, past') => (.error e, past') := by
  show ExceptT.bindCont f (x past).1 (x past).2 =
    match x past with
    | (.ok a, past') => f a past'
    | (.error e, past') => (.error e, past')
  generalize x past = r
  obtain ⟨a, past'⟩ := r
  cases a <;> rfl

theorem result_bind_ok {a : α} (h : x.result past = (.ok a, past')) :
    (x >>= f).result past = (f a).result past' := by
  rw [result_bind, h]

theorem result_bind_error {e : End} (h : x.result past = (.error e, past')) :
    (x >>= f).result past = (.error e, past') := by
  rw [result_bind, h]

theorem result_map (f : α → β) (x : Act K α) (past : List (Request K)) :
    result (f <$> x) past = ((result x past).1.map f, (result x past).2) := by
  rw [map_eq_pure_bind, result_bind]
  cases h : result x past with
  | mk a s => cases a <;> rfl

theorem ext_result {y : Act K α} (h : ∀ past, x.result past = y.result past) : x = y :=
  funext h

/-- A computation that is never stuck, and whose results have a property. -/
def Gives (x : Act K α) (P : α → Prop) : Prop :=
  ∀ past, match x.result past with
    | (.ok a, _) => P a
    | (.error e, _) => e ≠ .stuck

theorem Gives.pure {a : α} (h : P a) : Gives (Pure.pure a : Act K α) P := fun _ ↦ h

theorem Gives.throw {e : End} (h : e ≠ .stuck) : Gives (MonadExcept.throw e : Act K α) P := fun _ ↦ h

theorem Gives.ok (h : Gives x P) {a : α} (hx : x.result past = (.ok a, past')) : P a := by
  have := h past
  rwa [hx] at this

theorem Gives.error (h : Gives x P) {e : End} (hx : x.result past = (.error e, past')) :
    e ≠ .stuck := by
  have := h past
  rwa [hx] at this

theorem Gives.mono {Q : α → Prop} (h : Gives x P) (hpq : ∀ a, P a → Q a) : Gives x Q := by
  intro past
  have := h past
  split at this
  · exact hpq _ this
  · exact this

theorem Gives.bind {Q : β → Prop} (h : Gives x P) (hf : ∀ a, P a → Gives (f a) Q) :
    Gives (x >>= f) Q := by
  intro past
  rw [result_bind]
  have hx := h past
  cases hr : x.result past with
  | mk r past' =>
    rw [hr] at hx
    cases r with
    | ok a => exact hf a hx past'
    | error e => exact hx

/-- Two computations that go on alike from each result of a first one. -/
theorem Gives.bind_congr {g : α → Act K β} (h : Gives x P) (hfg : ∀ a, P a → f a = g a) :
    x >>= f = x >>= g := by
  apply ext_result
  intro past
  rw [result_bind, result_bind]
  have hx := h past
  cases hr : x.result past with
  | mk r past' =>
    rw [hr] at hx
    cases r with
    | ok a => exact congrArg (fun y ↦ result y past') (hfg a hx)
    | error e => rfl

/-- What follows a result in some form matters on results of the property only. -/
theorem Gives.map_bind_congr {γ : Type} {x : Act K α} (h : Gives x P) {form : α → β}
    {f : β → Act K γ} {g : α → Act K γ} (hfg : ∀ a, P a → f (form a) = g a) :
    form <$> x >>= f = x >>= g := by
  rw [map_eq_pure_bind, bind_assoc]
  exact h.bind_congr fun a ha ↦ (pure_bind _ _).trans (hfg a ha)

theorem Gives.mapM {P : β → Prop} {xs : List α} (h : ∀ x ∈ xs, Gives (f x) P) :
    Gives (xs.mapM f) fun vs ↦ vs.length = xs.length := by
  induction xs with
  | nil => exact .pure rfl
  | cons x xs ih =>
    rw [List.mapM_cons]
    refine (h x (by simp)).bind fun v _ ↦ (ih fun y hy ↦ h y (by simp [hy])).bind fun vs hvs ↦ ?_
    exact .pure (by simp [hvs])

end Act

theorem Act.gives_perform {env : Env K} {op : K} {operands : List Word} {P : Word → Prop}
    (h : ∀ past v, env past ⟨op, operands⟩ = some v → P v) : Gives (perform env op operands) P := by
  intro past
  have hr : (perform env op operands).result past =
      match env past ⟨op, operands⟩ with
      | some v => (.ok v, past ++ [⟨op, operands⟩])
      | none => (.error .thrown, past ++ [⟨op, operands⟩]) := by
    show (match env past ⟨op, operands⟩ with | some v => _ | none => _ : Act K Word).result _ = _
    cases env past ⟨op, operands⟩ <;> rfl
  rw [hr]
  cases he : env past ⟨op, operands⟩ with
  | some v => exact h past v he
  | none => simp

/-! ## Machines -/

/-- A machine, by its step. -/
abbrev Machine (K S : Type) := S → Act K S

namespace Machine

variable {S T : Type}
variable {M : Machine K S} {s : S}

/-- A number of steps. -/
def run (M : Machine K S) : Nat → S → Act K S
  | 0, s => return s
  | n + 1, s => M s >>= M.run n

/-- A number of steps leads from one state to another. -/
def Steps (M : Machine K S) (n : Nat) (s : S) (past : List (Request K)) (s' : S)
    (past' : List (Request K)) : Prop :=
  (M.run n s).result past = (.ok s', past')

/-- The run ends within a number of steps. -/
def Ends (M : Machine K S) (n : Nat) (s : S) (past : List (Request K)) (e : End)
    (past' : List (Request K)) : Prop :=
  (M.run n s).result past = (.error e, past')

section
variable {M : Machine K S} {n k : Nat} {s s' s'' : S} {past past' past'' : List (Request K)} {e : End}

theorem run_add (M : Machine K S) (n k : Nat) (s : S) : M.run (n + k) s = M.run n s >>= M.run k := by
  induction n generalizing s with
  | zero => rw [Nat.zero_add, run, pure_bind]
  | succ n ih =>
    rw [Nat.succ_add, run, run, bind_assoc]
    exact congrArg _ (funext ih)

theorem Steps.refl (M : Machine K S) (s : S) (past : List (Request K)) : M.Steps 0 s past s past := rfl

theorem Steps.trans (h : M.Steps n s past s' past') (h' : M.Steps k s' past' s'' past'') :
    M.Steps (n + k) s past s'' past'' := by
  rw [Steps, run_add, Act.result_bind_ok h]
  exact h'

theorem Steps.ends (h : M.Steps n s past s' past') (h' : M.Ends k s' past' e past'') :
    M.Ends (n + k) s past e past'' := by
  rw [Ends, run_add, Act.result_bind_ok h]
  exact h'

theorem Steps.of_step (h : (M s).result past = (.ok s', past')) : M.Steps 1 s past s' past' := by
  rw [Steps, run, Act.result_bind_ok h]
  rfl

theorem Ends.of_step (h : (M s).result past = (.error e, past')) : M.Ends 1 s past e past' := by
  rw [Ends, run, Act.result_bind_error h]

/-- The last of some steps. -/
theorem Steps.last (h : M.Steps (n + 1) s past s'' past'') :
    ∃ s' past', M.Steps n s past s' past' ∧ (M s').result past' = (.ok s'', past'') := by
  rw [Steps, run_add, Act.result_bind] at h
  cases hr : (M.run n s).result past with
  | mk r past' =>
    rw [hr] at h
    cases r with
    | error e => cases h
    | ok s' =>
      refine ⟨s', past', hr, ?_⟩
      have hone : M.run 1 s' = M s' := bind_pure (M s')
      rw [← hone]
      exact h

/-- A run that has ended does not go on. -/
theorem Ends.mono (h : M.Ends n s past e past') (k : Nat) : M.Ends (n + k) s past e past' := by
  rw [Ends, run_add, Act.result_bind_error h]

theorem Ends.le_of_steps (h : M.Ends n s past e past') (h' : M.Steps k s past s' past'') : k ≤ n := by
  by_contra hlt
  obtain ⟨d, rfl⟩ := Nat.exists_eq_add_of_le (Nat.le_of_not_le hlt)
  have := (h.mono d).symm.trans h'
  cases this

/-- What is left of a run that ends, after some steps. -/
theorem Ends.sub (h : M.Ends n s past e past'') (h' : M.Steps k s past s' past') :
    M.Ends (n - k) s' past' e past'' := by
  have hle := h.le_of_steps h'
  obtain ⟨d, rfl⟩ := Nat.exists_eq_add_of_le hle
  rw [Ends, run_add, Act.result_bind_ok h'] at h
  rwa [Nat.add_sub_cancel_left]

/-- What is left of some steps, after fewer. -/
theorem Steps.sub (h : M.Steps n s past s'' past'') (h' : M.Steps k s past s' past') (hle : k ≤ n) :
    M.Steps (n - k) s' past' s'' past'' := by
  obtain ⟨d, rfl⟩ := Nat.exists_eq_add_of_le hle
  rw [Steps, run_add, Act.result_bind_ok h'] at h
  rwa [Nat.add_sub_cancel_left]

/-- A run ends in one way. -/
theorem Ends.unique {e' : End} (h : M.Ends n s past e past') (h' : M.Ends k s past e' past'') :
    e = e' ∧ past' = past'' := by
  have h₁ := h.mono k
  have h₂ := h'.mono n
  rw [Nat.add_comm k n] at h₂
  have := h₁.symm.trans h₂
  simpa using this

end

/-- The machine does from a state what a computation does, which tells the state it ends up in. -/
def Does (M : Machine K S) (s : S) (x : Act K S) : Prop :=
  ∀ past, match x.result past with
    | (.ok s', past') => ∃ n, M.Steps n s past s' past'
    | (.error e, past') => ∃ n, M.Ends n s past e past'

variable {x : Act K S}

theorem Does.steps {s' : S} (h : M.Does s x) {past past' : List (Request K)}
    (hx : x.result past = (.ok s', past')) : ∃ n, M.Steps n s past s' past' := by
  have := h past
  rwa [hx] at this

theorem Does.ends (h : M.Does s x) {past past' : List (Request K)} {e : End}
    (hx : x.result past = (.error e, past')) : ∃ n, M.Ends n s past e past' := by
  have := h past
  rwa [hx] at this

theorem Does.refl (M : Machine K S) (s : S) : M.Does s (pure s) := fun past ↦ ⟨0, .refl M s past⟩

theorem Does.step (M : Machine K S) (s : S) : M.Does s (M s) := by
  intro past
  split
  · rename_i h
    exact ⟨1, .of_step h⟩
  · rename_i h
    exact ⟨1, .of_step h⟩

/-- A computation after steps that ask for nothing. -/
theorem Does.after {s' : S} (h : M.Does s (pure s')) (hx : M.Does s' x) : M.Does s x := by
  intro past
  obtain ⟨n, hn⟩ := h.steps (Act.result_pure s' past)
  split
  · rename_i hres
    obtain ⟨k, hk⟩ := hx.steps hres
    exact ⟨n + k, hn.trans hk⟩
  · rename_i hres
    obtain ⟨k, hk⟩ := hx.ends hres
    exact ⟨n + k, hn.ends hk⟩

/-- One computation after another.  What comes second is wanted for the results of the first one
only. -/
theorem Does.trans {x : Act K α} {f : α → S} {g : α → Act K S} (h : M.Does s (f <$> x))
    (hg : ∀ a past past', x.result past = (.ok a, past') → M.Does (f a) (g a)) :
    M.Does s (x >>= g) := by
  intro past
  rw [Act.result_bind]
  cases hr : x.result past with
  | mk r past' =>
    have hx : (f <$> x).result past = (r.map f, past') := by rw [Act.result_map, hr]
    cases r with
    | error e => exact h.ends hx
    | ok a =>
      obtain ⟨n, hn⟩ := h.steps hx
      show match (g a).result past' with | (.ok s', past'') => _ | (.error e, past'') => _
      split
      · rename_i hres
        obtain ⟨k, hk⟩ := (hg a past past' hr).steps hres
        exact ⟨n + k, hn.trans hk⟩
      · rename_i hres
        obtain ⟨k, hk⟩ := (hg a past past' hr).ends hres
        exact ⟨n + k, hn.ends hk⟩

/-- **One machine simulates another**: it makes the same requests, no more and no fewer, it ends when
the other one ends, in the same way, and only then.  The machine that is simulated is never stuck. -/
structure Simulates (M : Machine K S) (N : Machine K T) (s : S) (t : T) : Prop where
  steps : ∀ n s' past past', M.Steps n s past s' past' → ∃ k t', N.Steps k t past t' past'
  ends : ∀ n e past past', M.Ends n s past e past' → e ≠ .stuck ∧ ∃ k, N.Ends k t past e past'
  /-- Wherever `N` stands, it goes on to a point that `M` gets to with the same requests. -/
  steps_only : ∀ k t' past past', N.Steps k t past t' past' →
    (∃ n s' k' t'' past'', M.Steps n s past s' past'' ∧ N.Steps k' t' past' t'' past'') ∨
      ∃ n e k' past'', M.Ends n s past e past'' ∧ N.Ends k' t' past' e past''
  ends_only : ∀ k e past past', N.Ends k t past e past' → ∃ n, M.Ends n s past e past'

/-- A simulation after steps that ask for nothing. -/
theorem Simulates.after {N : Machine K T} {t t' : T} (h : Simulates M N s t') (ht : N.Does t (pure t'))
    : Simulates M N s t := by
  have hfirst : ∀ past, ∃ k, N.Steps k t past t' past := fun past ↦ ht.steps (Act.result_pure t' past)
  refine ⟨?_, ?_, ?_, ?_⟩
  · intro n s' past past' hs
    obtain ⟨k, hk⟩ := hfirst past
    obtain ⟨k', t'', hk'⟩ := h.steps n s' past past' hs
    exact ⟨k + k', t'', hk.trans hk'⟩
  · intro n e past past' hs
    obtain ⟨k, hk⟩ := hfirst past
    obtain ⟨hne, k', hk'⟩ := h.ends n e past past' hs
    exact ⟨hne, k + k', hk.ends hk'⟩
  · intro j u past past' hu
    obtain ⟨k, hk⟩ := hfirst past
    rcases Nat.le_total j k with hle | hle
    · exact .inl ⟨0, s, k - j, t', past, .refl M s past, hk.sub hu hle⟩
    · exact h.steps_only _ u past past' (hu.sub hk hle)
  · intro j e past past' hu
    obtain ⟨k, hk⟩ := hfirst past
    exact h.ends_only _ e past past' (hu.sub hk)

/-- One step of `M` is answered by `N`, which may stand still only if the rank falls. -/
def Follows (M : Machine K S) (N : Machine K T) (R : S → T → Prop) (rank : S → Nat) : Prop :=
  ∀ s t, R s t → ∀ past,
    match (M s).result past with
    | (.ok s', past') =>
      ∃ k t', N.Steps k t past t' past' ∧ R s' t' ∧ (0 < k ∨ rank s' < rank s)
    | (.error e, past') => e ≠ .stuck ∧ ∃ k, N.Ends k t past e past'

section
variable {M : Machine K S} {N : Machine K T} {R : S → T → Prop} {rank : S → Nat}
variable {t : T} {past past' : List (Request K)}

theorem Follows.steps (h : Follows M N R rank) {n : Nat} {s' : S} (hr : R s t)
    (hs : M.Steps n s past s' past') : ∃ k t', N.Steps k t past t' past' ∧ R s' t' := by
  induction n generalizing s t past with
  | zero =>
    cases hs
    exact ⟨0, t, .refl N t _, hr⟩
  | succ n ih =>
    have hstep := h s t hr past
    rw [Steps, run, Act.result_bind] at hs
    cases hm : (M s).result past with
    | mk r past₁ =>
      rw [hm] at hs hstep
      cases r with
      | error e => cases hs
      | ok s₁ =>
        obtain ⟨k, t₁, hk, hr₁, -⟩ := hstep
        obtain ⟨k', t', hk', hr'⟩ := ih hr₁ hs
        exact ⟨k + k', t', hk.trans hk', hr'⟩

theorem Follows.ends (h : Follows M N R rank) {n : Nat} {e : End} (hr : R s t)
    (hs : M.Ends n s past e past') : e ≠ .stuck ∧ ∃ k, N.Ends k t past e past' := by
  induction n generalizing s t past with
  | zero => cases hs
  | succ n ih =>
    have hstep := h s t hr past
    rw [Ends, run, Act.result_bind] at hs
    cases hm : (M s).result past with
    | mk r past₁ =>
      rw [hm] at hs hstep
      cases r with
      | error e' =>
        cases hs
        exact hstep
      | ok s₁ =>
        obtain ⟨k, t₁, hk, hr₁, -⟩ := hstep
        obtain ⟨hne, k', hk'⟩ := ih hr₁ hs
        exact ⟨hne, k + k', hk.ends hk'⟩

/-- The steps that are left to `N`, or the rank where `N` stands still, get less. -/
theorem lex_of_follows {j k a b : Nat} (hle : j ≤ k) (h : 0 < j ∨ a < b) :
    Prod.Lex (· < ·) (· < ·) (k - j, a) (k, b) := by
  rw [Prod.lex_def]
  rcases Nat.eq_zero_or_pos j with rfl | hpos
  · exact .inr ⟨rfl, h.resolve_left (Nat.lt_irrefl 0)⟩
  · exact .inl (Nat.sub_lt (Nat.lt_of_lt_of_le hpos hle) hpos)

theorem Follows.steps_only (h : Follows M N R rank) {k : Nat} {t' : T} (hr : R s t)
    (ht : N.Steps k t past t' past') :
    (∃ n s' k' t'' past'', M.Steps n s past s' past'' ∧ N.Steps k' t' past' t'' past'') ∨
      ∃ n e k' past'', M.Ends n s past e past'' ∧ N.Ends k' t' past' e past'' := by
  induction hm : (k, rank s) using (WellFounded.prod_lex Nat.lt_wfRel.wf Nat.lt_wfRel.wf).induction
    generalizing k s t past with
  | h p ih =>
    subst hm
    have hstep := h s t hr past
    cases hres : (M s).result past with
    | mk r past₁ =>
      rw [hres] at hstep
      cases r with
      | error e =>
        obtain ⟨-, k', hk'⟩ := hstep
        exact .inr ⟨1, e, k' - k, past₁, .of_step hres, hk'.sub ht⟩
      | ok s₁ =>
        obtain ⟨j, t₁, hj, hr₁, hless⟩ := hstep
        rcases Nat.le_total j k with hle | hle
        · rcases ih _ (lex_of_follows hle hless) hr₁ (ht.sub hj hle) rfl with
            ⟨n, s', k', t'', past'', hn, hk'⟩ | ⟨n, e, k', past'', hn, hk'⟩
          · exact .inl ⟨1 + n, s', k', t'', past'', (Steps.of_step hres).trans hn, hk'⟩
          · exact .inr ⟨1 + n, e, k', past'', (Steps.of_step hres).ends hn, hk'⟩
        · exact .inl ⟨1, s₁, j - k, t₁, past₁, .of_step hres, hj.sub ht hle⟩

theorem Follows.ends_only (h : Follows M N R rank) {k : Nat} {e : End} (hr : R s t)
    (ht : N.Ends k t past e past') : ∃ n, M.Ends n s past e past' := by
  induction hm : (k, rank s) using (WellFounded.prod_lex Nat.lt_wfRel.wf Nat.lt_wfRel.wf).induction
    generalizing k s t past with
  | h p ih =>
    subst hm
    have hstep := h s t hr past
    cases hres : (M s).result past with
    | mk r past₁ =>
      rw [hres] at hstep
      cases r with
      | error e' =>
        obtain ⟨-, k', hk'⟩ := hstep
        obtain ⟨rfl, rfl⟩ := ht.unique hk'
        exact ⟨1, .of_step hres⟩
      | ok s₁ =>
        obtain ⟨j, t₁, hj, hr₁, hless⟩ := hstep
        have hlt := lex_of_follows (ht.le_of_steps hj) hless
        obtain ⟨n, hn⟩ := ih _ hlt hr₁ (ht.sub hj) rfl
        exact ⟨1 + n, (Steps.of_step hres).ends hn⟩

/-- **What one step shows of every run.** -/
theorem simulates_of_step (h : Follows M N R rank) (hr : R s t) : Simulates M N s t where
  steps n s' past past' hs := by
    obtain ⟨k, t', hk, -⟩ := h.steps hr hs
    exact ⟨k, t', hk⟩
  ends n e past past' hs := h.ends hr hs
  steps_only k t' past past' ht := h.steps_only hr ht
  ends_only k e past past' ht := h.ends_only hr ht

end

/-! ## Computations that a machine carries out -/

/-- The machine gets from a state to one that fits a result, or ends in the way that the result says.
Of a result that has no meaning nothing is said. -/
def Arrives (M : Machine K S) (s : S) (past : List (Request K)) (r : Except End α)
    (past' : List (Request K)) (post : α → S → Prop) : Prop :=
  match r with
  | .ok a => ∃ n s', M.Steps n s past s' past' ∧ post a s'
  | .error e => e ≠ .stuck → ∃ n, M.Ends n s past e past'

/-- The machine carries out a computation: with each result it stands where that is expected. -/
def Runs (M : Machine K S) (s : S) (x : Act K α) (post : α → S → Prop) : Prop :=
  ∀ past, M.Arrives s past (x.result past).1 (x.result past).2 post

section
variable {M : Machine K S} {s s' : S} {x : Act K α} {P : α → S → Prop}

theorem Arrives.of_steps {r : Except End α} {n : Nat} {past past' past'' : List (Request K)}
    (h : M.Steps n s past s' past') (h' : M.Arrives s' past' r past'' P) :
    M.Arrives s past r past'' P := by
  cases r with
  | ok a =>
    obtain ⟨k, s'', hk, hp⟩ := h'
    exact ⟨n + k, s'', h.trans hk, hp⟩
  | error e =>
    intro hne
    obtain ⟨k, hk⟩ := h' hne
    exact ⟨n + k, h.ends hk⟩

theorem Runs.arrives (h : M.Runs s x P) {past past' : List (Request K)} {r : Except End α}
    (hx : x.result past = (r, past')) : M.Arrives s past r past' P := by
  have := h past
  rwa [hx] at this

theorem Runs.pure {a : α} (h : P a s) : M.Runs s (Pure.pure a) P := fun past ↦
  ⟨0, s, .refl M s past, h⟩

theorem Runs.stuck : M.Runs s (throw .stuck : Act K α) P := fun _ h ↦ absurd rfl h

theorem Runs.mono {Q : α → S → Prop} (h : M.Runs s x P) (hpq : ∀ a s', P a s' → Q a s') :
    M.Runs s x Q := by
  intro past
  have hx := h past
  cases hr : (x.result past).1 with
  | ok a =>
    rw [hr] at hx
    obtain ⟨n, s', hs, hp⟩ := hx
    exact ⟨n, s', hs, hpq a s' hp⟩
  | error e =>
    rw [hr] at hx
    exact hx

theorem Runs.bind {Q : β → S → Prop} {f : α → Act K β} (h : M.Runs s x P)
    (hf : ∀ a s', P a s' → M.Runs s' (f a) Q) : M.Runs s (x >>= f) Q := by
  intro past
  have hx := h past
  rw [Act.result_bind]
  cases hr : x.result past with
  | mk r past' =>
    rw [hr] at hx
    cases r with
    | error e => exact hx
    | ok a =>
      obtain ⟨n, s', hs, hp⟩ := hx
      exact .of_steps hs (hf a s' hp past')

/-- A computation that starts after some steps. -/
theorem Runs.after {a : β} {Q : β → S → Prop} (h : M.Runs s (Pure.pure a) Q)
    (hx : ∀ s', Q a s' → M.Runs s' x P) : M.Runs s x P := by
  intro past
  obtain ⟨n, s', hs, hq⟩ := h past
  exact .of_steps hs (hx s' hq past)

/-- A step that ends the run. -/
theorem Runs.throw {e : End} (h : M s = throw e) : M.Runs s (MonadExcept.throw e : Act K α) P :=
  fun _ _ ↦ ⟨1, .of_step (by rw [h]; rfl)⟩

/-- One step. -/
theorem Runs.step {f : α → S} (h : M s = f <$> x) (hp : ∀ a, P a (f a)) : M.Runs s x P := by
  intro past
  have hm := Act.result_map f x past
  rw [← h] at hm
  cases hr : x.result past with
  | mk r past' =>
    rw [hr] at hm
    cases r with
    | ok a => exact ⟨1, f a, .of_step hm, hp a⟩
    | error e => exact fun _ ↦ ⟨1, .of_step hm⟩

end

end Machine

end MiniJava
