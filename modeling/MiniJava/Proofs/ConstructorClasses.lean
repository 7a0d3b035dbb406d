import MiniJava.Proofs.EmittedSites

/-!
# Constructors

Which constructor runs on a new object is told by the variable that the object is made in
(`constructors_follow_variables`).  An object that is an argument, a receiver, a result, the value of a field
or a statement by itself is made in a temporary of its own class, so the constructor is its own.

An object that is assigned to a variable is made in the variable.  If the variable is declared with another
class, the constructor is that of this other class, and the object is never initialised by its own
(`superclass_constructor_runs`).
-/

set_option autoImplicit false

namespace MiniJava

open IR

/-- The class that a type name stands for has that name. -/
theorem Symbols.eq_of_className?_typeOf {own cls n : Text}
    (h : (Symbols.typeOf own { name := cls }).className? = some n) : n = cls := by
  change (Symbols.scalarType own cls).className? = some n at h
  rw [Symbols.scalarType] at h
  split at h
  · cases h
  · cases h
  · cases h
  · cases h
  · cases h
  · rename_i hname
    rw [Text.eq_ofString_of_string? hname]
    exact (Option.some.inj h).symm
  · exact (Option.some.inj h).symm

/-- **The constructor of an object belongs to the class of its variable.**  In the assembly of a program each
method makes the objects of its source, in order, and each object is of the class that the source names.
The constructor that is invoked on an object is that of the class of the variable that it is made in, which
is a class always.  So it is the object's own constructor if the variable has the type of the object, as a
temporary has. -/
theorem constructors_follow_variables {p : Program} {t : Symbols} {fresh : Fresh} {s : Strategy}
    {c c' : ClassDef} {text : Text} (hbuild : Symbols.build p = .ok t)
    (hlower : (lowerProgram t (some p) fresh).1 = .ok c) (halloc : Allocation.cls s c = .ok c')
    (htext : Jvm.assemble c' = .ok text) :
    ∃ es : List Jvm.Emitter, Jvm.Assembled c' es text ∧
      List.Forall₂ (fun sites e ↦
        Jvm.constructions e.lines = sites.filterMap (Site.construction? c') ∧
        ∀ cls place, Site.creation cls place ∈ sites → ∃ owner, place.className? = some owner ∧
          (place = Symbols.typeOf p.cls.name { name := cls } → owner = cls))
        p.sites es := by
  obtain ⟨es, hes⟩ := Jvm.assemble_spec htext
  refine ⟨es, hes, (forall₂_comp (sites_of_lowerProgram hbuild hlower halloc) hes.emitted).imp ?_⟩
  rintro _ e ⟨m, ⟨rfl, hm⟩, hemit⟩
  obtain ⟨-, states, hemitted⟩ := Jvm.exists_emitted hemit
  refine ⟨hemitted.constructions_eq hm, fun cls place hsite ↦ ?_⟩
  obtain ⟨owner, howner⟩ := Option.isSome_iff_exists.1 (hemitted.isSome_className? hm hsite)
  refine ⟨owner, howner, ?_⟩
  rintro rfl
  exact Symbols.eq_of_className?_typeOf howner

/-! ## A class that makes objects -/

/-- A class with a method that makes an object by itself, one in a variable of its class and one in a
variable of another class. -/
def shop : Program where
  pos := default
  imports := [{ pos := default, path := ["lib", "Base"] }, { pos := default, path := ["lib", "Derived"] }]
  cls := {
    pos := default, name := "Shop"
    methods := [
      { pos := default, name := "make", ret := { name := "Base" }
        locals := [
          { pos := default, name := "b", type := { name := "Base" } },
          { pos := default, name := "d", type := { name := "Derived" } }]
        body := [
          .expr default (.new default "Derived"),
          .assign default "d" (.new default "Derived"),
          .assign default "b" (.paren default (.new default "Derived")),
          .ret default (some (.ident default "b"))] }] }

theorem shop_constructors_follow_variables : ∃ t c c' text, Symbols.build shop = .ok t ∧
    (lowerProgram t (some shop) {}).1 = .ok c ∧ Allocation.cls .sequential c = .ok c' ∧
    Jvm.assemble c' = .ok text ∧ ∃ es : List Jvm.Emitter, Jvm.Assembled c' es text ∧
      List.Forall₂ (fun sites e ↦
        Jvm.constructions e.lines = sites.filterMap (Site.construction? c') ∧
        ∀ cls place, Site.creation cls place ∈ sites → ∃ owner, place.className? = some owner ∧
          (place = Symbols.typeOf shop.cls.name { name := cls } → owner = cls))
        shop.sites es := by
  obtain ⟨t, c, c', text, hbuild, hlower, halloc, htext, -⟩ :=
    exists_compiled_of_test (p := shop) (n := {}) (s := .sequential) (P := fun _ _ ↦ true) (by decide +kernel)
  exact ⟨t, c, c', text, hbuild, hlower, halloc, htext,
    constructors_follow_variables hbuild hlower halloc htext⟩

/-- An object is made of one class, and the constructor that is invoked on it belongs to another. -/
def Misconstructed (c : ClassDef) (cls owner : Text) : Prop :=
  ∃ m ∈ c.methods, ∃ e ∈ (Jvm.emitMethod c m).toOption, (cls, some owner) ∈ Jvm.constructions e.lines

instance (c : ClassDef) (cls owner : Text) : Decidable (Misconstructed c cls owner) := by
  delta Misconstructed
  infer_instance

/-- An object of a subclass for a variable of the superclass: the program is accepted, and the constructor
of the superclass is invoked on the object. -/
theorem superclass_constructor_runs : ∃ t c c' text, Symbols.build shop = .ok t ∧
    (lowerProgram t (some shop) {}).1 = .ok c ∧ Allocation.cls .sequential c = .ok c' ∧
    Jvm.assemble c' = .ok text ∧ Misconstructed c' "lib/Derived" "lib/Base" := by
  obtain ⟨t, c, c', text, hbuild, hlower, halloc, htext, hwrong⟩ :=
    exists_compiled_of_test (p := shop) (n := {}) (s := .sequential)
      (P := fun _ c' ↦ decide (Misconstructed c' "lib/Derived" "lib/Base")) (by decide +kernel)
  exact ⟨t, c, c', text, hbuild, hlower, halloc, htext, of_decide_eq_true hwrong⟩

end MiniJava
