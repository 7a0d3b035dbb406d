import MiniJava.Proofs.EmittedSites

/-!
# Equality of references

An equality is compiled without a look at the types of its operands (`equalities_compare_integers`).  The
machine has instructions that compare two references, but no method contains one: each equality that has no
literal zero becomes a jump that compares two integers, and an equality of references is among these.  So
references are compared as integers, whether the answer is jumped on or is a value
(`references_are_compared_as_integers`).
-/

set_option autoImplicit false

namespace MiniJava

open IR Source

/-! ## Equalities with a literal zero -/

/-- An equality with a literal zero does not compare two references. -/
def Site.Typed : Site → Prop
  | .equality _ left right true => ¬ (left.isRef = true ∧ right.isRef = true)
  | .equality _ _ _ false | .creation _ _ => True

theorem Expr.isRef_type_of_isZero (c : Context) {e : Expr} (h : e.isZero = true) :
    (e.type c).isRef = false := by
  fun_induction Expr.isZero e with
  | case1 | case2 => rfl
  | case3 pos b => rfl
  | case4 pos e ih => exact ih h
  | case5 => cases h

theorem Source.Context.typed_equality (c : Context) (op : Text) (left right : Expr) :
    ∀ s ∈ c.equality op left right, s.Typed := by
  intro s hs
  rw [Context.equality] at hs
  split at hs
  · rename_i o _
    rw [Op.sites] at hs
    split at hs
    · rw [List.mem_singleton.1 hs]
      cases hz : left.isZero || right.isZero with
      | false => trivial
      | true =>
        rintro ⟨hl, hr⟩
        rcases Bool.or_eq_true_iff.1 hz with hz | hz
        · rw [left.isRef_type_of_isZero c hz] at hl
          cases hl
        · rw [right.isRef_type_of_isZero c hz] at hr
          cases hr
    · cases hs
  · cases hs

theorem Expr.typed_sites (c : Context) (e : Expr) : ∀ s ∈ e.sites c, s.Typed := by
  induction e using Expr.induction with
  | h e ih =>
    intro s hs
    cases e with
    | int _ _ | bool _ _ | ident _ _ | this _ => cases hs
    | paren _ e | unary _ _ e | newArray _ _ e | length _ e => exact ih e (by simp [parts]) s hs
    | binary _ op l r =>
      rcases List.mem_append.1 hs with hs | hs
      · rcases List.mem_append.1 hs with hs | hs
        · exact ih l (by simp [parts]) s hs
        · exact ih r (by simp [parts]) s hs
      · exact c.typed_equality op l r s hs
    | index _ x y =>
      rcases List.mem_append.1 hs with hs | hs
      · exact ih x (by simp [parts]) s hs
      · exact ih y (by simp [parts]) s hs
    | call _ recv _ args =>
      rcases List.mem_append.1 hs with hs | hs
      · cases recv with
        | none => cases hs
        | some e => exact ih e (by simp [parts]) s hs
      · rw [sitesOfAll_eq_flatMap] at hs
        obtain ⟨e, he, hs⟩ := List.mem_flatMap.1 hs
        exact ih e (by simp [parts, he]) s hs
    | new _ cls =>
      rw [List.mem_singleton.1 hs]
      trivial
    | array _ elems =>
      rw [sites, sitesOfAll_eq_flatMap] at hs
      obtain ⟨e, he, hs⟩ := List.mem_flatMap.1 hs
      exact ih e he s hs

theorem typed_sitesOf? (c : Context) (e : Option Expr) : ∀ s ∈ sitesOf? c e, s.Typed := by
  cases e with
  | none => exact fun _ hs ↦ nomatch hs
  | some e => exact e.typed_sites c

theorem Source.Context.typed_assignment (c : Context) (name : Text) (e : Expr) :
    ∀ s ∈ c.assignment name e, s.Typed := by
  intro s hs
  rw [Context.assignment] at hs
  split at hs
  · rw [List.mem_singleton.1 hs]
    trivial
  · exact e.typed_sites c s hs

theorem sitesInAll_eq_flatMap (c : Context) (ss : List Stmt) :
    sitesInAll c ss = ss.flatMap (Stmt.sites c) := by
  induction ss with
  | nil => rfl
  | cons s ss ih => rw [sitesInAll, ih, List.flatMap_cons]

theorem Stmt.typed_sites (c : Context) (x : Stmt) : ∀ s ∈ x.sites c, s.Typed := by
  induction x using Stmt.induction with
  | h x ih =>
    have hpart (y : Option Stmt) (hy : y.toList ⊆ x.parts) : ∀ s ∈ sitesIn? c y, s.Typed := by
      cases y with
      | none => exact fun _ hs ↦ nomatch hs
      | some y => exact ih y (hy (by simp))
    intro s hs
    cases x with
    | block _ xs =>
      rw [sites, sitesInAll_eq_flatMap] at hs
      obtain ⟨y, hy, hs⟩ := List.mem_flatMap.1 hs
      exact ih y hy s hs
    | cond _ e yes no =>
      rcases List.mem_append.1 hs with hs | hs
      · exact e.typed_sites c s hs
      · rcases List.mem_append.1 hs with hs | hs
        · exact hpart no (by simp [parts]) s hs
        · exact hpart yes (by simp [parts]) s hs
    | loop _ e body =>
      rcases List.mem_append.1 hs with hs | hs
      · exact e.typed_sites c s hs
      · exact hpart body (by simp [parts]) s hs
    | expr _ e => exact e.typed_sites c s hs
    | assign _ name e => exact c.typed_assignment name e s hs
    | indexAssign _ _ i e =>
      rcases List.mem_append.1 hs with hs | hs
      · exact i.typed_sites c s hs
      · exact e.typed_sites c s hs
    | ret _ e => exact typed_sitesOf? c e s hs

theorem Program.typed_sites {p : Program} {ss : List Site} (h : ss ∈ p.sites) : ∀ s ∈ ss, s.Typed := by
  rcases List.mem_cons.1 h with rfl | h
  · exact fun _ hs ↦ nomatch hs
  · obtain ⟨d, -, rfl⟩ := List.mem_map.1 h
    intro s hs
    rw [Context.sites, sitesInAll_eq_flatMap] at hs
    obtain ⟨x, -, hs⟩ := List.mem_flatMap.1 hs
    exact x.typed_sites _ s hs

/-! ## Instructions that compare references -/

namespace Jvm

/-- The text of an instruction that compares two references begins so. -/
def Instr.ComparesReferences (i : Instr) : Prop := ("if_acmp" : Text).signs <+: i.text.signs

/-- No instruction that can be emitted compares references. -/
theorem Instr.not_comparesReferences (i : Instr) : ¬ i.ComparesReferences := by
  have hsigns : ("if_acmp" : Text).signs =
      [.char 'i', .char 'f', .char '_', .char 'a', .char 'c', .char 'm', .char 'p'] := rfl
  rw [ComparesReferences, hsigns]
  cases i with
  | push v =>
    simp only [text, pushText]
    split_ifs <;> simp [toString]
  | load kind slot | store kind slot =>
    simp only [text, slotText]
    cases kind <;> split_ifs <;> simp [toString, Kind.letter]
  | arrayLoad elem | arrayStore elem => cases elem <;> simp [text, Elem.letter]
  | arith op => cases op <;> simp [text, Arith.mnemonic]
  | ifZero cond label | ifCompare cond label => cases cond <;> simp [text, Cond.suffix]
  | retValue kind => cases kind <;> simp [text, Kind.letter]
  | invoke how cls method params result => cases how <;> simp [text, Invocation.mnemonic]
  | _ => simp [text]

end Jvm

/-- **Equalities compare integers.**  In the assembly of a program the equalities that each method tests on
two operands are those of its source without a literal zero, in order, and each is a comparison of integers:
no instruction compares references.  An equality of two references has no literal zero, so it is one of
them. -/
theorem equalities_compare_integers {p : Program} {t : Symbols} {fresh : Fresh} {s : Strategy}
    {c c' : ClassDef} {text : Text} (hbuild : Symbols.build p = .ok t)
    (hlower : (lowerProgram t (some p) fresh).1 = .ok c) (halloc : Allocation.cls s c = .ok c')
    (htext : Jvm.assemble c' = .ok text) :
    ∃ es : List Jvm.Emitter, Jvm.Assembled c' es text ∧
      List.Forall₂ (fun sites e ↦
        Jvm.equalityJumps e.lines = sites.filterMap Site.cond? ∧
        (∀ i, Jvm.Line.instr i ∈ e.lines → ¬ i.ComparesReferences) ∧
        ∀ op left right zero, Site.equality op left right zero ∈ sites →
          left.isRef = true → right.isRef = true → zero = false)
        p.sites es := by
  obtain ⟨es, hes⟩ := Jvm.assemble_spec htext
  have hsites := forall₂_comp (sites_of_lowerProgram hbuild hlower halloc) hes.emitted
  refine ⟨es, hes, ((List.forall₂_and_left _ _).2 ⟨fun ss h ↦ Program.typed_sites h, hsites⟩).imp ?_⟩
  rintro _ e ⟨htyped, m, ⟨rfl, hm⟩, hemit⟩
  obtain ⟨-, states, hemitted⟩ := Jvm.exists_emitted hemit
  refine ⟨hemitted.equalityJumps_eq hm, fun i _ ↦ i.not_comparesReferences, ?_⟩
  intro op left right zero hsite hl hr
  cases zero with
  | false => rfl
  | true => exact absurd ⟨hl, hr⟩ (htyped _ hsite)

/-! ## A class that compares references -/

/-- A class with a method whose result is the equality of two objects, and with one that jumps on the
inequality of an object and the receiver. -/
def pair : Program where
  pos := default
  cls := {
    pos := default, name := "Pair"
    methods := [
      { pos := default, name := "same", ret := { name := "boolean" }
        params := [
          { pos := default, name := "a", type := { name := "Pair" } },
          { pos := default, name := "b", type := { name := "Pair" } }]
        body := [.ret default (some (.binary default "==" (.ident default "a") (.ident default "b")))] },
      { pos := default, name := "differ", ret := { name := "int" }
        params := [{ pos := default, name := "a", type := { name := "Pair" } }]
        body := [
          .cond default (.binary default "!=" (.ident default "a") (.this default))
            (some (.block default [.ret default (some (.int default "1"))])) none,
          .ret default (some (.int default "0"))] }] }

theorem pair_equalities_compare_integers : ∃ t c c' text, Symbols.build pair = .ok t ∧
    (lowerProgram t (some pair) {}).1 = .ok c ∧ Allocation.cls .sequential c = .ok c' ∧
    Jvm.assemble c' = .ok text ∧ ∃ es : List Jvm.Emitter, Jvm.Assembled c' es text ∧
      List.Forall₂ (fun sites e ↦
        Jvm.equalityJumps e.lines = sites.filterMap Site.cond? ∧
        (∀ i, Jvm.Line.instr i ∈ e.lines → ¬ i.ComparesReferences) ∧
        ∀ op left right zero, Site.equality op left right zero ∈ sites →
          left.isRef = true → right.isRef = true → zero = false)
        pair.sites es := by
  obtain ⟨t, c, c', text, hbuild, hlower, halloc, htext, -⟩ :=
    exists_compiled_of_test (p := pair) (n := {}) (s := .sequential) (P := fun _ _ ↦ true) (by decide +kernel)
  exact ⟨t, c, c', text, hbuild, hlower, halloc, htext,
    equalities_compare_integers hbuild hlower halloc htext⟩

/-- The comparisons of two integers in the methods of a class. -/
def integerTests (c : ClassDef) : List (List Text) :=
  c.methods.map fun m ↦ (Jvm.emitMethod c m).toOption.toList.flatMap fun e ↦
    e.lines.filterMap fun
      | .instr (.ifCompare cond label) => some (Jvm.Instr.ifCompare cond label).text
      | _ => none

/-- Two objects are compared in a value and in a branch: the program is accepted, and both comparisons are
those of integers. -/
theorem references_are_compared_as_integers : ∃ t c c' text, Symbols.build pair = .ok t ∧
    (lowerProgram t (some pair) {}).1 = .ok c ∧ Allocation.cls .sequential c = .ok c' ∧
    Jvm.assemble c' = .ok text ∧
    pair.sites = [[], [.equality .eq (.object "Pair" true) (.object "Pair" true) false],
      [.equality .ne (.object "Pair" true) (.receiver "Pair") false]] ∧
    integerTests c' = [[], [("if_icmpeq cmp_0_true" : Text)], [("if_icmpne then_0" : Text)]] := by
  obtain ⟨t, c, c', text, hbuild, hlower, halloc, htext, htests⟩ :=
    exists_compiled_of_test (p := pair) (n := {}) (s := .sequential)
    (P := fun _ c' ↦ integerTests c' == [[], [("if_icmpeq cmp_0_true" : Text)], [("if_icmpne then_0" : Text)]])
    (by decide +kernel)
  exact ⟨t, c, c', text, hbuild, hlower, halloc, htext, by decide +kernel, eq_of_beq htests⟩

end MiniJava
