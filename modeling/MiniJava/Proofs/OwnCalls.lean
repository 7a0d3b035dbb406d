import MiniJava.Proofs.EmittedLabels

/-!
# Calls of the class's own methods

A call that lowering resolves to a method of the class itself is emitted with a descriptor of its own: its
result is that of the declaration, it has as many parameters, and an argument of a variadic parameter has
the declared type, since it is packed (`own_calls_link`).  Each other parameter has the type of the
argument.  So the invocation names the declared method exactly if every argument has the type of its
parameter, up to descriptors.

An argument of a subclass does not: `this` as an argument for a parameter of the superclass is emitted with
the class itself as the type of the parameter, and there is no such method (`subclass_argument_does_not_link`).
-/

set_option autoImplicit false

namespace MiniJava

open IR

namespace Jvm

/-- **What the invocation of a method has in common with its declaration.** -/
structure LinksTo (c : ClassDef) (x : Call) (f : Method) : Prop where
  name : x.method = f.name
  result : descriptor c x.ret = descriptor c f.ret
  count : x.args.length = f.params.length
  variadic : f.varargs = true →
    (x.args.getLast?).map (fun a ↦ descriptor c a.ty) = (f.params.getLast?).map fun q ↦ descriptor c q.ty
  /-- The parameters are the declared ones exactly if those that are not variadic are. -/
  params : x.args.map (fun a ↦ descriptor c a.ty) = f.params.map (fun q ↦ descriptor c q.ty) ↔
    ∀ i a q, x.args[i]? = some a → f.params[i]? = some q →
      ¬ (f.varargs = true ∧ i + 1 = f.params.length) → descriptor c a.ty = descriptor c q.ty
  /-- With the declared parameters, the descriptor is the declared one. -/
  descriptor : x.args.map (fun a ↦ Jvm.descriptor c a.ty) = f.params.map (fun q ↦ Jvm.descriptor c q.ty) →
    joinDescriptor (x.args.map fun a ↦ Jvm.descriptor c a.ty) (Jvm.descriptor c x.ret) =
      methodDescriptor c (f.params.map Param.ty) f.ret

/-- A list of descriptors is another one if all positions are, but for the last one if that is known. -/
theorem map_eq_map_iff {α β γ : Type} {f : α → γ} {g : β → γ} {xs : List α} {ys : List β}
    (hlen : xs.length = ys.length) {known : Prop}
    (hlast : known → (xs.getLast?).map f = (ys.getLast?).map g) :
    xs.map f = ys.map g ↔ ∀ i a b, xs[i]? = some a → ys[i]? = some b →
      ¬ (known ∧ i + 1 = ys.length) → f a = g b := by
  constructor
  · intro h i a b ha hb _
    have hi := congrArg (·[i]?) h
    simpa [ha, hb] using hi
  · intro h
    refine List.ext_getElem? fun i ↦ ?_
    rw [List.getElem?_map, List.getElem?_map]
    by_cases hi : i < xs.length
    · have hi' : i < ys.length := hlen ▸ hi
      rw [List.getElem?_eq_getElem hi, List.getElem?_eq_getElem hi']
      by_cases hk : known ∧ i + 1 = ys.length
      · have hx := hlast hk.1
        rw [List.getLast?_eq_getElem?, List.getLast?_eq_getElem?, hlen, ← hk.2, Nat.add_sub_cancel,
          List.getElem?_eq_getElem hi, List.getElem?_eq_getElem hi'] at hx
        exact hx
      · exact congrArg some (h i _ _ (List.getElem?_eq_getElem hi) (List.getElem?_eq_getElem hi') hk)
    · rw [List.getElem?_eq_none (by omega), List.getElem?_eq_none (by omega)]
      rfl

variable {c : ClassDef}

/-- A call that agrees with the signature of a method links to the method. -/
theorem linksTo {t : Symbols} {x : Call} {f : Method} {sig : Signature}
    (hown : t.ownMethod? x = some sig) (hx : t.Agrees x) (hname : x.method = f.name)
    (hret : f.ret = sig.ret) (hvarargs : f.varargs = sig.varargs)
    (hparams : f.params = sig.params.map fun p ↦ { name := p.name, ty := p.ty }) : LinksTo c x f := by
  obtain ⟨hret', hlen, hlast⟩ := hx sig hown
  have hlen' : x.args.length = f.params.length := by rw [hparams, List.length_map, hlen]
  have hlast' : f.varargs = true → (x.args.getLast?).map (fun a ↦ descriptor c a.ty) =
      (f.params.getLast?).map fun q ↦ descriptor c q.ty := by
    intro hv
    have hl := congrArg (Option.map (descriptor c)) (hlast (hvarargs ▸ hv))
    rw [Option.map_map, Option.map_map] at hl
    rw [hparams, List.getLast?_map, Option.map_map]
    exact hl
  refine ⟨hname, by rw [hret', hret], hlen', hlast', map_eq_map_iff hlen' hlast', fun hp ↦ ?_⟩
  rw [methodDescriptor, hp, hret', hret, List.map_map]
  rfl

/-- A call of a method of the class itself is invoked. -/
theorem exists_invocation {t : Symbols} {x : Call} {sig : Signature} (h : t.ownMethod? x = some sig)
    (c : ClassDef) : ∃ how cls, invocationOf? c x = some (invokeInstr c x how cls) := by
  rw [Symbols.ownMethod?.eq_def] at h
  split at h
  · rename_i hk
    exact ⟨.static, c.resolve x.cls, by simp [invocationOf?, callTarget?, invocation?, hk]⟩
  · rename_i cls hk hty
    exact ⟨.virtual, c.resolve cls, by simp [invocationOf?, callTarget?, invocation?, owner?, hk, hty]⟩
  · rename_i cls hk hty
    exact ⟨.virtual, c.resolve cls, by
      simp [invocationOf?, callTarget?, invocation?, owner?, Ty.className?, hk, hty]⟩
  · cases h

/-- The invocations written so far are those of the calls so far. -/
theorem Emitted.invocations_before {m : Method} {lines : List Line} {es : Nat → Emitter}
    (h : Emitted c m lines es) {i : Nat} (hi : i ≤ m.code.length) : invocations (es i).lines =
      ((m.code.take i).flatMap IR.Instr.calls).filterMap (invocationOf? c) := by
  induction i with
  | zero =>
    rw [h.first]
    rfl
  | succ i ih =>
    obtain ⟨x, block, hx, hlines, hm⟩ := h.exists_block hi
    rw [hlines, invocations_append, invocations_append, invocations_labels, List.nil_append, hm.invocations,
      ih (by omega), List.take_add_one, hx, List.flatMap_append, List.filterMap_append]
    simp

/-- The invocations of a method are those of its calls. -/
theorem invocations_of_emitMethod {m : Method} {e : Emitter} (h : emitMethod c m = .ok e) :
    invocations e.lines = (m.code.flatMap IR.Instr.calls).filterMap (invocationOf? c) := by
  obtain ⟨-, es, hemitted⟩ := exists_emitted h
  rw [← hemitted.last, hemitted.invocations_before (Nat.le_refl _), List.take_length]

end Jvm

/-! ## Lowered calls -/

section
variable {t : Symbols} {N : Prop} {R : Ty → Text → Text → Prop} {L : Text → Text → Prop}

theorem InvokeMirror.agrees {x y : Call} (h : InvokeMirror t R x y) : t.Agrees x := by
  cases h with
  | static _ _ _ _ ha => exact ha
  | method _ _ _ _ _ _ ha => exact ha

theorem CallMirror.agrees {x y : Call} (h : CallMirror t R x y) : t.Agrees x := by
  cases h with
  | newArray _ _ | arrayLength _ _ => exact fun _ hsig ↦ nomatch hsig
  | invoke h => exact h.agrees

theorem ValueMirror.agrees {x y : Instr} (h : ValueMirror t R x y) : ∀ c ∈ x.calls, t.Agrees c := by
  cases h with
  | call h _ => exact List.forall_mem_singleton.2 h.agrees
  | single _ | binary _ _ _ _ | unary _ _ _ | getField _ _ _ => exact fun _ hc ↦ nomatch hc

/-- The calls of lowered code agree with the methods that they are resolved to. -/
theorem InstrMirror.agrees {x y : Instr} (h : InstrMirror t N R L x y) :
    ∀ c ∈ x.calls, t.Agrees c := by
  cases h with
  | assignVar _ _ hv | assignElem _ _ _ hv | branch hv _ => exact hv.agrees
  | create _ _ _ => exact List.forall_mem_singleton.2 fun _ hsig ↦ nomatch hsig
  | call h => exact List.forall_mem_singleton.2 h.agrees
  | retVoid _ | ret _ _ | goto _ | putField _ _ _ => exact fun _ hc ↦ nomatch hc

end

/-- A signature of the table is that of a lowered method. -/
theorem exists_method_of_lowerProgram {p : Program} {t : Symbols} {fresh : Fresh} {c : ClassDef}
    (hbuild : Symbols.build p = .ok t) (hlower : (lowerProgram t (some p) fresh).1 = .ok c) {name : Text}
    {sig : Signature} (hsig : t.method? name = some sig) :
    ∃ f ∈ c.methods, name = f.name ∧ f.ret = sig.ret ∧ f.varargs = sig.varargs ∧
      f.params = sig.params.map fun q ↦ { name := q.name, ty := q.ty } := by
  obtain ⟨-, -, hmethods, -, -⟩ := Symbols.build_spec (c := { program := p, method := default }) hbuild
  obtain ⟨ms, rfl, hms⟩ := lowerProgram_spec (Prod.ext hlower rfl)
  have hname : sig.name = name := by simpa using List.find?_some hsig
  have hmem : sig ∈ t.methods := List.mem_of_find?_eq_some hsig
  rw [hmethods] at hmem
  obtain ⟨d, hd, rfl⟩ := List.mem_map.1 hmem
  obtain ⟨f, hf, σ, σ', hrun⟩ := exists_of_mem_right hms.flip hd
  obtain ⟨sig', σ₁, g, hsig', hby⟩ := Lowering.method_spec hrun
  obtain rfl := Option.some.inj (hsig'.symm.trans (hname ▸ hsig))
  exact ⟨f, List.mem_cons_of_mem _ hf, by rw [hby.name]; exact hname.symm, hby.ret, hby.varargs, hby.params⟩

theorem Symbols.method?_of_ownMethod? {t : Symbols} {x : Call} {sig : Signature}
    (h : t.ownMethod? x = some sig) : t.method? x.method = some sig := by
  rw [ownMethod?.eq_def] at h
  split at h
  · split at h
    · exact (Option.filter_eq_some_iff.1 h).1
    · cases h
  · exact (Option.filter_eq_some_iff.1 h).1
  · exact (Option.filter_eq_some_iff.1 h).1
  · cases h

/-- **Calls of the class's own methods link up to the types of arguments.**  In the assembly of a program
the invocations of each method are those of its calls, in order.  A call that is resolved to a method of
the class has a declared method of that name, and its invocation has the declared result and number of
parameters; its parameters are the declared ones exactly if each argument that is not variadic has the
descriptor of its parameter, and then the whole descriptor is that of the declaration. -/
theorem own_calls_link {p : Program} {t : Symbols} {fresh : Fresh} {s : Strategy} {c c' : ClassDef}
    {text : Text} (hbuild : Symbols.build p = .ok t)
    (hlower : (lowerProgram t (some p) fresh).1 = .ok c) (halloc : Allocation.cls s c = .ok c')
    (htext : Jvm.assemble c' = .ok text) :
    ∃ es : List Jvm.Emitter, Jvm.Assembled c' es text ∧
      List.Forall₂ (fun m e ↦
        Jvm.invocations e.lines = (m.code.flatMap Instr.calls).filterMap (Jvm.invocationOf? c') ∧
        ∀ x ∈ m.code.flatMap Instr.calls, ∀ sig, t.ownMethod? x = some sig →
          ∃ f ∈ c'.methods, Jvm.LinksTo c' x f ∧ ∃ how cls,
            Jvm.invocationOf? c' x = some (.invoke how cls f.name
              (x.args.map fun a ↦ Jvm.descriptor c' a.ty) (Jvm.descriptor c' f.ret)))
        c'.methods es := by
  obtain ⟨es, hes⟩ := Jvm.assemble_spec htext
  have hms := (Jvm.cls_spec halloc).1
  refine ⟨es, hes, ((List.forall₂_and_left _ _).2 ⟨fun m' hm' ↦ ?_, hes.emitted⟩).imp fun m' e h ↦
    ⟨Jvm.invocations_of_emitMethod h.2, h.1⟩⟩
  obtain ⟨m, hm, hmalloc⟩ := exists_of_mem_right hms hm'
  obtain ⟨reg, rfl⟩ := Allocation.exists_withRegs hmalloc
  intro x hx sig hown
  -- lowering resolved the call to `sig`
  have hagrees : t.Agrees x := by
    obtain ⟨sig, hmirror⟩ := exists_methodMirror hlower m hm
    obtain ⟨i, hi, hxi⟩ := List.mem_flatMap.1 hx
    exact (List.forall₂_same.1 hmirror.code i hi).agrees x hxi
  -- and the class has a method of that name and signature
  obtain ⟨f, hf, hname, hret, hvarargs, hparams⟩ :=
    exists_method_of_lowerProgram hbuild hlower (Symbols.method?_of_ownMethod? hown)
  obtain ⟨f', hf', hfalloc⟩ := exists_of_mem_right hms.flip hf
  obtain ⟨reg', rfl⟩ := Allocation.exists_withRegs hfalloc
  have hlinks : Jvm.LinksTo c' x (f.withRegs reg') :=
    Jvm.linksTo hown hagrees hname hret hvarargs hparams
  obtain ⟨how, cls, hinvoke⟩ := Jvm.exists_invocation hown c'
  refine ⟨_, hf', hlinks, how, cls, ?_⟩
  rw [hinvoke, Jvm.invokeInstr, hlinks.name, hlinks.result]

/-! ## A class with a superclass -/

/-- A class that extends an imported one, with a method that takes an object of the superclass and one
that calls it with the receiver. -/
def derived : Program where
  pos := default
  imports := [{ pos := default, path := ["lib", "Base"] }]
  cls := {
    pos := default, name := "Self", super := "Base"
    methods := [
      { pos := default, name := "f", ret := { name := "int" }
        params := [{ pos := default, name := "b", type := { name := "Base" } }]
        body := [.ret default (some (.int default "1"))] },
      { pos := default, name := "g", ret := { name := "int" }
        body := [.ret default
          (some (.call default (some (.this default)) "f" [.this default]))] }] }

theorem derived_calls_link : ∃ t c c' text, Symbols.build derived = .ok t ∧
    (lowerProgram t (some derived) {}).1 = .ok c ∧ Allocation.cls .ranges c = .ok c' ∧
    Jvm.assemble c' = .ok text ∧ ∃ es : List Jvm.Emitter, Jvm.Assembled c' es text ∧
      List.Forall₂ (fun m e ↦
        Jvm.invocations e.lines = (m.code.flatMap Instr.calls).filterMap (Jvm.invocationOf? c') ∧
        ∀ x ∈ m.code.flatMap Instr.calls, ∀ sig, t.ownMethod? x = some sig →
          ∃ f ∈ c'.methods, Jvm.LinksTo c' x f ∧ ∃ how cls,
            Jvm.invocationOf? c' x = some (.invoke how cls f.name
              (x.args.map fun a ↦ Jvm.descriptor c' a.ty) (Jvm.descriptor c' f.ret)))
        c'.methods es := by
  obtain ⟨t, c, c', text, hbuild, hlower, halloc, htext, -⟩ :=
    exists_compiled_of_test (p := derived) (n := {}) (s := .ranges) (P := fun _ _ ↦ true) (by decide +kernel)
  exact ⟨t, c, c', text, hbuild, hlower, halloc, htext, own_calls_link hbuild hlower halloc htext⟩

/-- A call that is resolved to a method of the class has a descriptor that no method of its name has. -/
def Mislinked (t : Symbols) (c : ClassDef) : Prop :=
  ∃ g ∈ c.methods, ∃ x ∈ g.code.flatMap Instr.calls, (t.ownMethod? x).isSome = true ∧
    ∀ f ∈ c.methods, f.name = x.method →
      Jvm.joinDescriptor (x.args.map fun a ↦ Jvm.descriptor c a.ty) (Jvm.descriptor c x.ret) ≠
        Jvm.methodDescriptor c (f.params.map Param.ty) f.ret

instance (t : Symbols) (c : ClassDef) : Decidable (Mislinked t c) := by
  delta Mislinked
  infer_instance

/-- The receiver as an argument of a parameter of the superclass: the program is accepted, and the call
names a method that is not there. -/
theorem subclass_argument_does_not_link : ∃ t c c' text, Symbols.build derived = .ok t ∧
    (lowerProgram t (some derived) {}).1 = .ok c ∧ Allocation.cls .ranges c = .ok c' ∧
    Jvm.assemble c' = .ok text ∧ Mislinked t c' := by
  obtain ⟨t, c, c', text, hbuild, hlower, halloc, htext, hlinks⟩ :=
    exists_compiled_of_test (p := derived) (n := {}) (s := .ranges)
      (P := fun t c' ↦ decide (Mislinked t c')) (by decide +kernel)
  exact ⟨t, c, c', text, hbuild, hlower, halloc, htext, of_decide_eq_true hlinks⟩

end MiniJava
