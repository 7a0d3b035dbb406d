import MiniJava.Proofs.Descriptors
import MiniJava.Proofs.EmittedSites
import MiniJava.Proofs.OwnCalls

/-!
# The class of an argument and of a receiver

A value that is passed to a method is named by the descriptor of its type, and one that a method is called
on by the class that the call is emitted against.  For a class and for the receiver of a method both are the
full name of the class, whatever the class is called and whatever it imports.

A string is the exception.  Its descriptor is always that of `java/lang/String`, and a call on a string goes
to what the name `String` stands for, where the class itself and its imports come first.  So the two are one
class exactly if the name is not taken (`arguments_and_receivers_name_one_class`).  With a class of that name
imported, one variable is passed as a value of one class and used as a value of another
(`imported_string_is_two_classes`).
-/

set_option autoImplicit false

namespace MiniJava

open IR

/-! ## Names -/

/-- The name of the strings is taken: it stands for the class itself, or for an import of another class. -/
def IR.ClassDef.TakesString (c : ClassDef) : Prop :=
  c.name = "String" ∨ ∃ i, c.import? "String" = some i ∧ i.path ≠ "java/lang/String"

/-- The name of the strings stands for their class unless it is taken. -/
theorem IR.ClassDef.resolve_string_iff (c : ClassDef) :
    c.resolve "String" = "java/lang/String" ↔ ¬ c.TakesString := by
  rw [ClassDef.resolve, TakesString, not_or]
  by_cases hname : c.name = "String"
  · have hstring : ("String" : Text) ≠ "java/lang/String" := by decide
    simp [hname, hstring]
  · rw [if_neg (Ne.symm hname)]
    cases himport : c.import? "String" with
    | none => simp [hname, builtin?]
    | some i => simp [hname]

/-- The descriptor of a type with a class names what calls resolve, unless it is that of a string and the
name of the strings is taken. -/
theorem Ty.fullName?_eq_iff (c : ClassDef) {t : Ty} {n : Text} (h : t.className? = some n) :
    t.fullName? c = some (c.resolve n) ↔ (t = .string → ¬ c.TakesString) := by
  cases t with
  | object _ _ | receiver _ =>
    cases h
    simp [fullName?]
  | string =>
    cases h
    rw [← c.resolve_string_iff, fullName?, Option.some.injEq, eq_comm]
    simp
  | _ => cases h

theorem Ty.isSome_fullName? (c : ClassDef) {t : Ty} {n : Text} (h : t.className? = some n) :
    ∃ cls, t.fullName? c = some cls := by
  cases t with
  | object _ _ | receiver _ | string => exact ⟨_, rfl⟩
  | _ => cases h

namespace Jvm

/-- The class that a descriptor names, if it is that of a class. -/
def namedClass? (d : Text) : Option Text :=
  if d.signs.head? = some (.char 'L') ∧ d.signs.getLast? = some (.char ';') then
    some ⟨d.signs.tail.dropLast⟩
  else none

theorem namedClass?_class (cls : Text) : namedClass? ("L" ++ cls ++ ";") = some cls := by
  have hsigns : ("L" ++ cls ++ ";" : Text).signs = .char 'L' :: cls.signs ++ [.char ';'] := by simp
  have hlast : (Sign.char 'L' :: cls.signs ++ [Sign.char ';']).getLast? = some (.char ';') :=
    List.getLast?_concat
  rw [namedClass?, hsigns, if_pos ⟨rfl, hlast⟩]
  simp

end Jvm

/-! ## Calls -/

/-- The call is of the constructor of the superclass, by the receiver of a constructor. -/
def IR.Call.callsSuper (x : Call) : Bool :=
  match x.caller.ty with
  | .receiver _ => x.kind = .special && x.method = "<init>"
  | _ => false

namespace Jvm

/-- A call on a value of a class is emitted against the class that the name resolves to. -/
theorem invocationOf?_of_className? (c : ClassDef) {x : Call} {n : Text} {how : Invocation}
    (hn : x.caller.ty.className? = some n) (hhow : invocation? x.kind = some how)
    (hrecv : how.hasReceiver = true) :
    invocationOf? c x = some (invokeInstr c x how (if x.callsSuper then c.superName else c.resolve n)) := by
  have hstatic : x.kind ≠ .static := by simpa [hasReceiver_of_invocation? hhow] using hrecv
  have howner : owner? c x.kind x.caller.ty x.method =
      some (if x.callsSuper then c.superName else c.resolve n) := by
    rw [Call.callsSuper]
    cases hty : x.caller.ty with
    | receiver own =>
      rw [hty] at hn
      cases hn
      simp only [owner?, Bool.and_eq_true, decide_eq_true_eq]
      split <;> rfl
    | _ =>
      rw [hty] at hn
      rw [owner?_eq (by simp), hn]
      rfl
  rw [invocationOf?, hhow, Option.bind_some, callTarget?, if_neg hstatic, howner, Option.map_some]

/-- **An argument and a receiver of one type name one class, strings apart.**  The descriptor of a type with a
class names the class that the name of the type resolves to, unless it is that of a string and the class
itself or an import has the name of the strings.  In every method that is emitted, the invocations are those
of its calls, in order; each parameter is the descriptor of the type of the argument, and a call on a value of
the type is emitted against the class that the name resolves to, or against the superclass if it is of the
constructor of the superclass. -/
theorem arguments_and_receivers_name_one_class {c : ClassDef} {t : Ty} {n : Text}
    (h : t.className? = some n) :
    (∃ cls, namedClass? (descriptor c t) = some cls ∧
      (cls = c.resolve n ↔ (t = .string → ¬ c.TakesString))) ∧
    ∀ m e, emitMethod c m = .ok e →
      invocations e.lines = (m.code.flatMap IR.Instr.calls).filterMap (invocationOf? c) ∧
      ∀ x ∈ m.code.flatMap IR.Instr.calls, ∀ how, invocation? x.kind = some how →
        how.hasReceiver = true → x.caller.ty = t →
        invocationOf? c x = some (.invoke how (if x.callsSuper then c.superName else c.resolve n) x.method
          (x.args.map fun a ↦ descriptor c a.ty) (descriptor c x.ret)) := by
  obtain ⟨cls, hcls⟩ := Ty.isSome_fullName? c h
  refine ⟨⟨cls, ?_, ?_⟩, fun m e hm ↦ ⟨invocations_of_emitMethod hm, ?_⟩⟩
  · rw [descriptor_of_fullName? hcls, namedClass?_class]
  · rw [← Ty.fullName?_eq_iff c h, hcls, Option.some.injEq]
  · rintro x - how hhow hrecv rfl
    exact invocationOf?_of_className? c h hhow hrecv

end Jvm

/-! ## A class that imports another class of strings -/

/-- A class with a method that passes a string to another method and calls a method on it too. -/
def greeter : Program where
  pos := default
  imports := [{ pos := default, path := ["lib", "String"] }]
  cls := {
    pos := default, name := "Greeter"
    methods := [
      { pos := default, name := "size", ret := { name := "int" }
        params := [{ pos := default, name := "s", type := { name := "String" } }]
        body := [.ret default (some (.call default (some (.ident default "s")) "length" []))] },
      { pos := default, name := "both", ret := { name := "int" }
        params := [{ pos := default, name := "s", type := { name := "String" } }]
        body := [.ret default (some (.binary default "+"
          (.call default (some (.this default)) "size" [.ident default "s"])
          (.call default (some (.ident default "s")) "length" [])))] }] }

theorem greeter_names_classes : ∃ t c c' text, Symbols.build greeter = .ok t ∧
    (lowerProgram t (some greeter) {}).1 = .ok c ∧ Allocation.cls .sequential c = .ok c' ∧
    Jvm.assemble c' = .ok text ∧ Ty.string.className? = some "String" ∧
    (∃ cls, Jvm.namedClass? (Jvm.descriptor c' .string) = some cls ∧
      (cls = c'.resolve "String" ↔ (Ty.string = .string → ¬ c'.TakesString))) ∧
    ∀ m e, Jvm.emitMethod c' m = .ok e →
      Jvm.invocations e.lines = (m.code.flatMap Instr.calls).filterMap (Jvm.invocationOf? c') ∧
      ∀ x ∈ m.code.flatMap Instr.calls, ∀ how, Jvm.invocation? x.kind = some how →
        how.hasReceiver = true → x.caller.ty = .string →
        Jvm.invocationOf? c' x =
          some (.invoke how (if x.callsSuper then c'.superName else c'.resolve "String") x.method
            (x.args.map fun a ↦ Jvm.descriptor c' a.ty) (Jvm.descriptor c' x.ret)) := by
  obtain ⟨t, c, c', text, hbuild, hlower, halloc, htext, -⟩ :=
    exists_compiled_of_test (p := greeter) (n := {}) (s := .sequential) (P := fun _ _ ↦ true) (by decide +kernel)
  exact ⟨t, c, c', text, hbuild, hlower, halloc, htext, rfl,
    Jvm.arguments_and_receivers_name_one_class rfl⟩

/-- One method has both of two invocations. -/
def InvokesBoth (c : ClassDef) (i j : Jvm.Instr) : Prop :=
  ∃ m ∈ c.methods, ∃ e ∈ (Jvm.emitMethod c m).toOption,
    i ∈ Jvm.invocations e.lines ∧ j ∈ Jvm.invocations e.lines

instance (c : ClassDef) (i j : Jvm.Instr) : Decidable (InvokesBoth c i j) := by
  delta InvokesBoth
  infer_instance

/-- A string in a class that imports another class by the name of the strings: the program is accepted, and
the parameter that is passed as a `java/lang/String` has a method of `lib/String` invoked on it. -/
theorem imported_string_is_two_classes : ∃ t c c' text, Symbols.build greeter = .ok t ∧
    (lowerProgram t (some greeter) {}).1 = .ok c ∧ Allocation.cls .sequential c = .ok c' ∧
    Jvm.assemble c' = .ok text ∧
    Jvm.namedClass? (Jvm.descriptor c' .string) = some "java/lang/String" ∧
    Ty.string.className?.map c'.resolve = some "lib/String" ∧
    InvokesBoth c' (.invoke .virtual "Greeter" "size" ["Ljava/lang/String;"] "I")
      (.invoke .virtual "lib/String" "length" [] "I") := by
  obtain ⟨t, c, c', text, hbuild, hlower, halloc, htext, hnames⟩ :=
    exists_compiled_of_test (p := greeter) (n := {}) (s := .sequential)
      (P := fun _ c' ↦ decide (Jvm.namedClass? (Jvm.descriptor c' .string) = some "java/lang/String" ∧
        Ty.string.className?.map c'.resolve = some "lib/String" ∧
        InvokesBoth c' (.invoke .virtual "Greeter" "size" ["Ljava/lang/String;"] "I")
          (.invoke .virtual "lib/String" "length" [] "I"))) (by decide +kernel)
  exact ⟨t, c, c', text, hbuild, hlower, halloc, htext, of_decide_eq_true hnames⟩

end MiniJava
