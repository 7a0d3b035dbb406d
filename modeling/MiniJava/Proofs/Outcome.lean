import Mathlib.Data.List.Forall2
import MiniJava.Error

/-!
# Outcomes of steps

A computation in `Except` that succeeds is taken apart here: a sequence of steps succeeds when each of
them does, and what it gives is what they give one by one.

`SameOutcome` compares two computations: they fail with one error, or both succeed and give related
results.  `SameSuccess` does not ask for one error.
-/

set_option autoImplicit false

namespace MiniJava

variable {ε α β γ : Type}
variable {x : Except ε α} {f : α → Except ε β} {xs : List α} {ys : List β}

theorem Except.bind_eq_ok {b : β} : (x >>= f) = .ok b ↔ ∃ a, x = .ok a ∧ f a = .ok b := by
  cases x with
  | error e => simp [bind, Except.bind]
  | ok a => simp [bind, Except.bind]

/-- After a step that succeeds the next one is taken. -/
theorem Except.ok_bind (a : α) (f : α → Except ε β) : (Except.ok a >>= f) = f a := rfl

theorem Except.exists_ok (h : x.isOk = true) : ∃ a, x = .ok a := by
  cases x with
  | error e => cases h
  | ok a => exact ⟨a, rfl⟩

/-- Two steps that succeed one after the other. -/
theorem Except.exists_of_isOk (h : (x >>= f).isOk = true) : ∃ a b, x = .ok a ∧ f a = .ok b := by
  obtain ⟨b, hb⟩ := Except.exists_ok h
  obtain ⟨a, ha, hf⟩ := Except.bind_eq_ok.1 hb
  exact ⟨a, b, ha, hf⟩

/-- Two steps that succeed one after the other, with results that pass a test. -/
theorem Except.exists_of_test {x : Except ε α} {f : α → Except ε β} {P : α → β → Bool}
    (h : (do
      let a ← x
      let b ← f a
      return P a b) = Except.ok true) :
    ∃ a b, x = .ok a ∧ f a = .ok b ∧ P a b = true := by
  obtain ⟨a, ha, h⟩ := Except.bind_eq_ok.1 h
  obtain ⟨b, hb, h⟩ := Except.bind_eq_ok.1 h
  exact ⟨a, b, ha, hb, Except.ok.inj h⟩

theorem withinPlace_eq_ok {place : String} {x : Except Error α} {a : α} :
    withinPlace place x = .ok a ↔ x = .ok a := by
  cases x <;> simp [withinPlace, Except.mapError]

theorem Except.bind_eq_error {e : ε} :
    (x >>= f) = .error e ↔ x = .error e ∨ ∃ a, x = .ok a ∧ f a = .error e := by
  cases x with
  | error e' => simp [bind, Except.bind]
  | ok a => simp [bind, Except.bind]

theorem withinPlace_eq_error {place : String} {x : Except Error α} {e : Error} :
    withinPlace place x = .error e ↔ ∃ e', x = .error e' ∧ e'.within place = e := by
  cases x <;> simp [withinPlace, Except.mapError]

/-- A list of steps that fails does so at one of them. -/
theorem Except.exists_of_mapM_eq_error {e : ε} (h : xs.mapM f = .error e) :
    ∃ x ∈ xs, f x = .error e := by
  induction xs with
  | nil => cases h
  | cons x xs ih =>
    rw [List.mapM_cons] at h
    rcases Except.bind_eq_error.1 h with hx | ⟨y, -, h⟩
    · exact ⟨x, by simp, hx⟩
    · rcases Except.bind_eq_error.1 h with hxs | ⟨ys, -, h⟩
      · obtain ⟨z, hz, hfz⟩ := ih hxs
        exact ⟨z, by simp [hz], hfz⟩
      · cases h

/-- Steps for all elements of a list succeed exactly if each one does. -/
theorem Except.forM_eq_ok {f : α → Except ε Unit} : xs.forM f = .ok () ↔ ∀ x ∈ xs, f x = .ok () := by
  induction xs with
  | nil => simp [pure, Except.pure]
  | cons x xs ih =>
    rw [List.forall_mem_cons]
    refine Except.bind_eq_ok.trans ?_
    exact ⟨fun ⟨_, hx, hxs⟩ ↦ ⟨hx, ih.1 hxs⟩, fun ⟨hx, hxs⟩ ↦ ⟨_, hx, ih.2 hxs⟩⟩

/-- What a list of steps gives, element by element. -/
theorem Except.mapM_eq_ok : xs.mapM f = .ok ys ↔ List.Forall₂ (fun x y ↦ f x = .ok y) xs ys := by
  induction xs generalizing ys with
  | nil => cases ys <;> simp [pure, Except.pure]
  | cons x xs ih =>
    rw [List.mapM_cons, Except.bind_eq_ok]
    constructor
    · rintro ⟨y, hy, h⟩
      obtain ⟨zs, hzs, h⟩ := Except.bind_eq_ok.1 h
      cases h
      exact .cons hy (ih.1 hzs)
    · rintro (_ | ⟨hy, hys⟩)
      exact ⟨_, hy, Except.bind_eq_ok.2 ⟨_, ih.2 hys, rfl⟩⟩

/-- Steps for all elements of a list that succeed one by one succeed together. -/
theorem Except.exists_mapM_eq_ok (h : ∀ x ∈ xs, ∃ y, f x = .ok y) : ∃ ys, xs.mapM f = .ok ys := by
  induction xs with
  | nil => exact ⟨[], rfl⟩
  | cons x xs ih =>
    obtain ⟨y, hy⟩ := h x (by simp)
    obtain ⟨ys, hys⟩ := ih fun z hz ↦ h z (by simp [hz])
    exact ⟨y :: ys, Except.mapM_eq_ok.2 (.cons hy (Except.mapM_eq_ok.1 hys))⟩

/-- What a list of steps gives at an index. -/
theorem Except.getElem?_of_mapM_eq_ok (h : xs.mapM f = .ok ys) {i : Nat} {x : α} (hx : xs[i]? = some x) :
    ∃ y, ys[i]? = some y ∧ f x = .ok y := by
  have h₂ := List.forall₂_iff_get.1 (Except.mapM_eq_ok.1 h)
  obtain ⟨hi, rfl⟩ := List.getElem?_eq_some_iff.1 hx
  have hi' : i < ys.length := h₂.1 ▸ hi
  exact ⟨ys[i], List.getElem?_eq_getElem hi', h₂.2 i hi hi'⟩

theorem Except.length_of_mapM_eq_ok (h : xs.mapM f = .ok ys) : ys.length = xs.length :=
  (Except.mapM_eq_ok.1 h).length_eq.symm

variable {R : α → β → Prop}

theorem exists_of_mem_right (h : List.Forall₂ R xs ys) {y : β} (hy : y ∈ ys) : ∃ x ∈ xs, R x y := by
  obtain ⟨i, hi, rfl⟩ := List.mem_iff_getElem.1 hy
  have hi' : i < xs.length := h.length_eq ▸ hi
  exact ⟨xs[i], List.getElem_mem hi', h.get hi' hi⟩

theorem exists_of_mem_left (h : List.Forall₂ R xs ys) {x : α} (hx : x ∈ xs) : ∃ y ∈ ys, R x y :=
  exists_of_mem_right (List.Forall₂.flip (R := flip R) h) hx

theorem forall₂_comp {S : β → γ → Prop} {zs : List γ} (h : List.Forall₂ R xs ys)
    (h' : List.Forall₂ S ys zs) : List.Forall₂ (fun x z ↦ ∃ y, R x y ∧ S y z) xs zs := by
  induction h generalizing zs with
  | nil =>
    cases h'
    exact .nil
  | cons hxy _ ih =>
    cases h' with
    | cons hyz h' => exact .cons ⟨_, hxy, hyz⟩ (ih h')

/-! ## Two computations -/

/-- Two computations fail with the same error, or succeed with related results. -/
inductive SameOutcome (R : α → β → Prop) : Except ε α → Except ε β → Prop
  | ok {a : α} {b : β} (h : R a b) : SameOutcome R (.ok a) (.ok b)
  | error (e : ε) : SameOutcome R (.error e) (.error e)

namespace SameOutcome

variable {δ : Type} {R : α → β → Prop} {S : γ → δ → Prop}
variable {y : Except ε β}

theorem error_or_ok (h : SameOutcome R x y) :
    (∃ e, x = .error e ∧ y = .error e) ∨ ∃ a b, x = .ok a ∧ y = .ok b ∧ R a b := by
  cases h with
  | ok hab => exact .inr ⟨_, _, rfl, rfl, hab⟩
  | error e => exact .inl ⟨e, rfl, rfl⟩

theorem exists_of_ok (h : SameOutcome R x y) {a : α} (hx : x = .ok a) : ∃ b, y = .ok b ∧ R a b := by
  subst hx
  cases h with
  | ok hab => exact ⟨_, rfl, hab⟩

/-- The results are those of the computations. -/
theorem with_eq (h : SameOutcome R x y) :
    SameOutcome (fun a b ↦ x = .ok a ∧ y = .ok b ∧ R a b) x y := by
  cases h with
  | ok hab => exact .ok ⟨rfl, rfl, hab⟩
  | error e => exact .error e

theorem mono {R' : α → β → Prop} (h : SameOutcome R x y) (hr : ∀ a b, R a b → R' a b) :
    SameOutcome R' x y := by
  cases h with
  | ok hab => exact .ok (hr _ _ hab)
  | error e => exact .error e

theorem bind {f : α → Except ε γ} {g : β → Except ε δ} (h : SameOutcome R x y)
    (hf : ∀ a b, R a b → SameOutcome S (f a) (g b)) : SameOutcome S (x >>= f) (y >>= g) := by
  cases h with
  | ok hab => exact hf _ _ hab
  | error e => exact .error e

theorem withinPlace {x : Except Error α} {y : Except Error β} (h : SameOutcome R x y)
    (place : String) :
    SameOutcome R (MiniJava.withinPlace place x) (MiniJava.withinPlace place y) := by
  cases h with
  | ok hab => exact .ok hab
  | error e => exact .error _

theorem mapM {xs : List γ} {f : γ → Except ε α} {g : γ → Except ε β}
    (h : ∀ x ∈ xs, SameOutcome R (f x) (g x)) :
    SameOutcome (List.Forall₂ R) (xs.mapM f) (xs.mapM g) := by
  induction xs with
  | nil => exact .ok .nil
  | cons x xs ih =>
    rw [List.mapM_cons, List.mapM_cons]
    refine (h x (by simp)).bind fun a b hab ↦ ?_
    exact (ih fun y hy ↦ h y (by simp [hy])).bind fun as bs habs ↦ .ok (.cons hab habs)

end SameOutcome

/-- Two computations fail, each with an error of its own, or succeed with related results. -/
inductive SameSuccess (R : α → β → Prop) : Except ε α → Except ε β → Prop
  | ok {a : α} {b : β} (h : R a b) : SameSuccess R (.ok a) (.ok b)
  | error (e e' : ε) : SameSuccess R (.error e) (.error e')

namespace SameSuccess

variable {δ : Type} {R : α → β → Prop} {S : γ → δ → Prop}
variable {y : Except ε β}

theorem exists_of_ok (h : SameSuccess R x y) {a : α} (hx : x = .ok a) : ∃ b, y = .ok b ∧ R a b := by
  subst hx
  cases h with
  | ok hab => exact ⟨_, rfl, hab⟩

/-- The results are those of the computations. -/
theorem with_eq (h : SameSuccess R x y) :
    SameSuccess (fun a b ↦ x = .ok a ∧ y = .ok b ∧ R a b) x y := by
  cases h with
  | ok hab => exact .ok ⟨rfl, rfl, hab⟩
  | error e e' => exact .error e e'

theorem bind {f : α → Except ε γ} {g : β → Except ε δ} (h : SameSuccess R x y)
    (hf : ∀ a b, R a b → SameSuccess S (f a) (g b)) : SameSuccess S (x >>= f) (y >>= g) := by
  cases h with
  | ok hab => exact hf _ _ hab
  | error e e' => exact .error e e'

theorem withinPlace {x : Except Error α} {y : Except Error β} (h : SameSuccess R x y)
    (place place' : String) :
    SameSuccess R (MiniJava.withinPlace place x) (MiniJava.withinPlace place' y) := by
  cases h with
  | ok hab => exact .ok hab
  | error e e' => exact .error _ _

end SameSuccess

end MiniJava
