import MiniJava.Proofs.MirroredRenaming
import MiniJava.Proofs.RenamedAllocation
import MiniJava.Proofs.RenamedEmission

/-!
# Compilation from other numbers

Temporaries and labels are numbered, and a unit that is compiled after others starts from the numbers that
they have left.  The numbers do not matter (`numbers_do_not_matter`): a program is lowered to the same class
but for the names of temporaries and labels, each strategy gives a variable and its counterpart the same
slot, and the assembly is the same but for the names of labels and for their order where several stand at
one place.

The last part holds for programs whose parameters and locals have names.  Reading a program makes sure of
that, since a declaration without a name is refused there.  A local that has none does change the depth of
the stack unseen, and then the order of two labels can decide whether a method is assembled at all
(`order_of_labels_decides`).
-/

set_option autoImplicit false

namespace MiniJava

open IR

/-- The class with other names for the variables of each method, by `fs`, and for labels, by `g`. -/
def IR.ClassDef.rename (fs : List (Equiv.Perm Text)) (g : Equiv.Perm Text) (c : ClassDef) : ClassDef :=
  { c with methods := List.zipWith (fun f m ↦ m.rename f g) fs c.methods }

/-- Only temporaries of the method are renamed: the receiver, parameters and locals keep their names. -/
def RenamesTemps (f : Equiv.Perm Text) (m : Method) : Prop :=
  ∀ v ∈ m.vars.vars, v.kind ≠ .temp → f v.name = v.name

/-- Parameters and locals have names. -/
def Symbols.Named (t : Symbols) : Prop := ∀ sig ∈ t.methods, ∀ v ∈ sig.params ++ sig.locals, v.name ≠ ""

/-- A method of a lowered program, and what a renaming of it keeps. -/
structure Renamable (t : Symbols) (g f : Equiv.Perm Text) (m : Method) : Prop where
  temps : RenamesTemps f m
  front : Allocation.FixesFront f m
  own : Jvm.KeepsOwn f g
  check : m.check = .ok ()
  table : m.StandardTable
  steppable : t.Named → Jvm.Steppable m

/-! ## Lowering -/

section
variable {t : Symbols} {lo lo' : Nat}

variable {sig : Signature}

theorem Symbols.Lists.ne_empty (hs : t.Lists sig) (hn : t.Named) :
    ∀ v ∈ sig.params ++ sig.locals, v.name ≠ "" := by
  rcases hs with hs | ⟨hp, hl⟩
  · exact hn sig hs
  · rw [hp, hl]
    exact fun _ hv ↦ nomatch hv

theorem MethodMirror.steppable {m n : Method} (h : MethodMirror { table := t, sig } lo lo' m n)
    (hs : t.Lists sig) (hn : t.Named) :
    Jvm.Steppable m where
  names x hx y hy name hname := by
    have hsig := List.forall_mem_append.1 (hs.ne_empty hn)
    exact h.framed.name_ne_empty hsig.1 hsig.2 (h.contains hx (Instr.mem_names_of_operands hy hname))
  labels _ := h.framed.not_isPrivate
  targets _ hx _ := h.framed.target_not_isPrivate hx
  calls x hx c hc := by
    obtain ⟨y, -, hxy⟩ := exists_of_mem_left h.code hx
    subst hc
    exact hxy.invocation

/-- The methods of two runs differ by a renaming, if the labels do. -/
theorem MethodMirror.exists_rename {m n : Method} (h : MethodMirror { table := t, sig } lo lo' m n)
    (hs : t.Lists sig) {g : Equiv.Perm Text}
    (hg : ∀ l k, l ∈ m.labels.entries.map Prod.fst → LabelPair lo lo' l k → g l = k)
    (hown : ∀ l, Jvm.IsPrivate l → g l = l) : ∃ f, Renamable t g f m ∧ n = m.rename f g := by
  obtain ⟨f, hf, hfixed⟩ := h.exists_perm
  have htemps : RenamesTemps f m := by
    intro v hv hk
    obtain ⟨w, -, hsame, hpaired⟩ := exists_of_mem_left h.sameVars hv
    rw [hf _ _ hpaired, hsame.name hk]
  have htable := h.framed.standardTable
  refine ⟨f, ⟨htemps, ⟨hfixed _ not_isTempName_receiver, fun p hp ↦ ?_⟩,
    ⟨hfixed _ not_isTempName_empty, hown⟩, h.check, htable, h.steppable hs⟩, h.eq_rename hf hg⟩
  obtain ⟨v, hv, hk⟩ := htable.param p hp
  obtain ⟨hmem, hname⟩ := VarTable.get?_eq_some_iff.1 hv
  rw [← hname]
  exact htemps v hmem (by rw [hk]; decide)

/-- One permutation of the labels does for all methods. -/
theorem ClassMirror.exists_labels {c d : ClassDef} (h : ClassMirror t lo lo' c d) :
    ∃ g : Equiv.Perm Text, (∀ m ∈ c.methods, ∀ l k, l ∈ m.labels.entries.map Prod.fst →
      LabelPair lo lo' l k → g l = k) ∧ ∀ l, Jvm.IsPrivate l → g l = l := by
  let labels : List Text := c.methods.flatMap fun m ↦ m.labels.entries.map Prod.fst
  have hpartner : ∀ l ∈ labels, ∃ k, LabelPair lo lo' l k := by
    intro l hl
    obtain ⟨m, hm, hl⟩ := List.mem_flatMap.1 hl
    obtain ⟨entry, hentry, rfl⟩ := List.mem_map.1 hl
    obtain ⟨n, -, sig, -, hmirror⟩ := exists_of_mem_left h.methods hm
    obtain ⟨entry', -, hpair, -⟩ := exists_of_mem_left hmirror.labels hentry
    exact ⟨entry'.1, hpair⟩
  obtain ⟨g, hmoved, hfixed⟩ := exists_perm (P := fun l ↦ ∃ stem n, l = Fresh.labelName stem n)
    (LabelPair.biUnique lo lo') (fun _ _ ⟨stem, k, ha, hb⟩ ↦ ⟨⟨stem, _, ha⟩, stem, _, hb⟩)
    (List.finite_toSet labels) hpartner
  refine ⟨g, fun m hm l k hl hlk ↦ ?_, fun l hp ↦ hfixed l ?_⟩
  · exact (LabelPair.biUnique lo lo').2 (hmoved l (List.mem_flatMap.2 ⟨m, hm, hl⟩)) hlk
  · rintro ⟨stem, n, rfl⟩
    exact Jvm.not_isPrivate_labelName stem n hp

/-- **The classes of two runs differ by a renaming.** -/
theorem ClassMirror.exists_rename {c d : ClassDef} (h : ClassMirror t lo lo' c d) :
    ∃ fs g, List.Forall₂ (Renamable t g) fs c.methods ∧ d = c.rename fs g := by
  obtain ⟨g, hg, hown⟩ := h.exists_labels
  have hmethods : ∃ fs, List.Forall₂ (Renamable t g) fs c.methods ∧
      d.methods = List.zipWith (fun f m ↦ m.rename f g) fs c.methods := by
    have hall := (List.forall₂_and_left _ _).2 ⟨hg, h.methods⟩
    generalize c.methods = ms at hall
    generalize d.methods = ns at hall
    induction hall with
    | nil => exact ⟨[], .nil, rfl⟩
    | cons hm _ ih =>
      obtain ⟨hlabels, sig, hs, hmirror⟩ := hm
      obtain ⟨f, hf, rfl⟩ := hmirror.exists_rename hs hlabels hown
      obtain ⟨fs, hfs, rfl⟩ := ih
      exact ⟨f :: fs, .cons hf hfs, rfl⟩
  obtain ⟨fs, hfs, hd⟩ := hmethods
  refine ⟨fs, g, hfs, ?_⟩
  rw [h.same, hd]
  rfl

end

/-! ## The back end -/

section
variable {t : Symbols} {fs : List (Equiv.Perm Text)} {g : Equiv.Perm Text} {c c' : ClassDef}

/-- A strategy gives each variable and its counterpart the same slot. -/
theorem Allocation.cls_rename (h : List.Forall₂ (Renamable t g) fs c.methods) (s : Strategy) :
    SameOutcome (fun c' d' ↦ d' = c'.rename fs g) (cls s c) (cls s (c.rename fs g)) := by
  have hmethods : SameOutcome (fun ms ns ↦ ns = List.zipWith (fun f m ↦ m.rename f g) fs ms)
      (c.methods.mapM fun m ↦ withinPlace s!"method {m.name}" (method s m))
      ((List.zipWith (fun f m ↦ m.rename f g) fs c.methods).mapM fun m ↦
        withinPlace s!"method {m.name}" (method s m)) := by
    generalize c.methods = ms at h
    induction h with
    | nil => exact .ok rfl
    | @cons f m fs ms hm _ ih =>
      rw [List.zipWith_cons_cons, List.mapM_cons, List.mapM_cons]
      refine ((method_rename g hm.front hm.own.empty hm.check hm.table s).withinPlace _).bind ?_
      rintro m' _ rfl
      refine ih.bind ?_
      rintro ms' _ rfl
      exact .ok rfl
  rw [cls, cls]
  refine hmethods.bind ?_
  rintro ms' _ rfl
  exact .ok rfl

/-- The assembly of a class with slots, and of its counterpart. -/
theorem sameAssembly_of_cls {s : Strategy} (h : List.Forall₂ (Renamable t g) fs c.methods)
    (hn : t.Named) (halloc : Allocation.cls s c = .ok c') :
    SameSuccess (Jvm.SameAssembly g c' (c'.rename fs g)) (Jvm.assemble c')
      (Jvm.assemble (c'.rename fs g)) := by
  have hsteps : List.Forall₂ (fun f m' ↦ Jvm.KeepsOwn f g ∧ Jvm.Steppable m') fs c'.methods := by
    refine (forall₂_comp h (Jvm.cls_spec halloc).1).imp ?_
    rintro f m' ⟨m, hm, hm'⟩
    obtain ⟨reg, rfl⟩ := Allocation.exists_withRegs hm'
    have hstep := hm.steppable hn
    exact ⟨hm.own, hstep.names, hstep.labels, hstep.targets, hstep.calls⟩
  show SameSuccess (Jvm.SameAssembly g { c' with methods := c'.methods } (c'.rename fs g))
    (Jvm.assemble { c' with methods := c'.methods }) (Jvm.assemble (c'.rename fs g))
  refine Jvm.assemble_rename c' ?_
  clear h halloc
  generalize c'.methods = ms at hsteps
  induction hsteps with
  | nil => exact .nil
  | cons hf _ ih => exact .cons ⟨_, hf.1, hf.2, rfl⟩ ih

end

/-- **The numbers that compilation starts from do not matter.**  From two contexts a program is lowered with
the same error, or to classes that differ in the names of temporaries and labels only.  Each strategy then
fails on both with the same error, or gives counterparts the same slots.  If parameters and locals have
names, then the assembly fails for both classes or for none, and the two texts are the same but for the
names of labels and for the order of labels at one place. -/
theorem numbers_do_not_matter (t : Symbols) (p : Option Program) (fresh fresh' : Fresh) :
    SameOutcome (fun c d ↦ ∃ fs g, List.Forall₂ RenamesTemps fs c.methods ∧ d = c.rename fs g ∧
        ∀ s, SameOutcome (fun c' d' ↦ d' = c'.rename fs g ∧
            (t.Named → SameSuccess (Jvm.SameAssembly g c' d') (Jvm.assemble c') (Jvm.assemble d')))
          (Allocation.cls s c) (Allocation.cls s d))
      (lowerProgram t p fresh).1 (lowerProgram t p fresh').1 := by
  refine (lowerProgram_mirror t p fresh fresh').mono fun c d h ↦ ?_
  obtain ⟨fs, g, hfs, rfl⟩ := h.exists_rename
  refine ⟨fs, g, hfs.imp fun _ _ hm ↦ hm.temps, rfl, fun s ↦ ?_⟩
  refine (Allocation.cls_rename hfs s).with_eq.mono ?_
  rintro c' _ ⟨halloc, -, rfl⟩
  exact ⟨rfl, fun hn ↦ sameAssembly_of_cls hfs hn halloc⟩

/-- A method with two conditions that end at one place.  Between them, where nothing gets to, there is an
assignment to a local. -/
def choiceMethod (dest : Text) : MethodDecl where
  pos := default
  name := "f"
  isStatic := true
  ret := { name := "int" }
  params := [{ pos := default, name := "a", type := { name := "boolean" } },
    { pos := default, name := "b", type := { name := "boolean" } }]
  locals := [{ pos := default, name := dest, type := { name := "int" } }]
  body := [
    .cond default (.ident default "a")
      (some (.cond default (.ident default "b")
        (some (.block default [.ret default (some (.int default "1")),
          .assign default dest (.binary default "+"
            (.binary default "+" (.int default "2") (.int default "3")) (.int default "4"))]))
        (some (.ret default (some (.int default "2"))))))
      none,
    .ret default (some (.int default "3"))]

/-- A class with this method. -/
def choice (dest : Text) : Program where
  pos := default
  cls := { pos := default, name := "T", methods := [choiceMethod dest] }

/-- Whether the class is assembled if lowering starts from some numbers. -/
def assembles (dest : Text) (fresh : Fresh) : Except Error Bool := do
  let t ← Symbols.build (choice dest)
  let c ← (lowerProgram t (some (choice dest)) fresh).1
  let c' ← Allocation.cls .ranges c
  return (Jvm.assemble c').isOk

theorem exists_of_assembles {dest : Text} {fresh : Fresh} {b : Bool}
    (h : assembles dest fresh = .ok b) : ∃ t c c', Symbols.build (choice dest) = .ok t ∧
      (lowerProgram t (some (choice dest)) fresh).1 = .ok c ∧ Allocation.cls .ranges c = .ok c' ∧
      (Jvm.assemble c').isOk = b := by
  obtain ⟨t, ht, h⟩ := Except.bind_eq_ok.1 h
  obtain ⟨c, hc, h⟩ := Except.bind_eq_ok.1 h
  obtain ⟨c', hc', h⟩ := Except.bind_eq_ok.1 h
  exact ⟨t, c, c', ht, hc, hc', Except.ok.inj h⟩

open Allocation Jvm in
theorem choice_assembles : assembles "tmp0" {} = .ok true ∧ assembles "" {} = .ok true ∧
    assembles "" { labels := 9 } = .ok false := by
  -- the orders of colours and of labels are put into a form that can be evaluated
  simp only [assembles, cls, Allocation.method, Allocation.run, allocate, placeFree, numbering, Graph.colors,
    Graph.colorList, Graph.order_eq_insertionSort, assemble, emitMethod, emitWith, emitAt, targetPastEnd?,
    stackTemp?, Labels.namesAt_eq_insertionSort]
  decide +kernel

/-- The local `tmp0` is in the way of the first temporary of one run, and the labels of the two conditions
stand in another order in the other. -/
theorem choice_from_other_numbers : ∃ t c d fs g c' d' text text',
    Symbols.build (choice "tmp0") = .ok t ∧ t.Named ∧
    (lowerProgram t (some (choice "tmp0")) {}).1 = .ok c ∧
    (lowerProgram t (some (choice "tmp0")) { temps := 7, labels := 9 }).1 = .ok d ∧ d = c.rename fs g ∧
    Allocation.cls .ranges c = .ok c' ∧ Allocation.cls .ranges d = .ok d' ∧ d' = c'.rename fs g ∧
    Jvm.assemble c' = .ok text ∧ Jvm.assemble d' = .ok text' ∧ Jvm.SameAssembly g c' d' text text' := by
  obtain ⟨t, c, c', ht, hc, halloc, hok⟩ := exists_of_assembles choice_assembles.1
  obtain ⟨text, htext⟩ := Except.exists_ok hok
  have hnamed : t.Named := by
    cases ht
    unfold Symbols.Named
    decide
  have h := numbers_do_not_matter t (some (choice "tmp0")) {} { temps := 7, labels := 9 }
  obtain ⟨d, hd, fs, g, -, hrename, hs⟩ := h.exists_of_ok hc
  obtain ⟨d', halloc', hrename', hsame⟩ := (hs .ranges).exists_of_ok halloc
  obtain ⟨text', htext', hsame⟩ := (hsame hnamed).exists_of_ok htext
  exact ⟨t, c, d, fs, g, c', d', text, text', ht, hnamed, hc, hd, hrename, halloc, halloc', hrename', htext,
    htext', hsame⟩

/-- **The order of labels can decide** whether a method with a local that has no name is assembled.  The
value that is assigned to it stays on the stack, and what the first label is reached with is what the
second one has to be reached with. -/
theorem order_of_labels_decides : ∃ t c d c' d', Symbols.build (choice "") = .ok t ∧
    (lowerProgram t (some (choice "")) {}).1 = .ok c ∧
    (lowerProgram t (some (choice "")) { labels := 9 }).1 = .ok d ∧
    Allocation.cls .ranges c = .ok c' ∧ (Jvm.assemble c').isOk = true ∧
    Allocation.cls .ranges d = .ok d' ∧ (Jvm.assemble d').isOk = false := by
  obtain ⟨t, c, c', ht, hc, halloc, hok⟩ := exists_of_assembles choice_assembles.2.1
  obtain ⟨t', d, d', ht', hd, halloc', hfail⟩ := exists_of_assembles choice_assembles.2.2
  obtain rfl := Except.ok.inj (ht.symm.trans ht')
  exact ⟨t, c, d, c', d', ht, hc, hd, halloc, hok, halloc', hfail⟩

end MiniJava
