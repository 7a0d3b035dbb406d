import MiniJava.Proofs.Emission
import MiniJava.Proofs.LoweredMethod
import MiniJava.Proofs.MirroredClass
import MiniJava.Proofs.Typing

/-!
# Lowered methods are well-formed

The intermediate code of a program is well-formed (`lowered_code_is_well_formed`): its jumps have their
labels, its variables are in the table with the types that the code says, and temporaries are apart from
everything that the program declares.

A method is lowered to the code of its body, which is sound, over a table with the variables that it
declares and the temporaries of the body (`SoundMethod`).
-/

set_option autoImplicit false

namespace MiniJava

open IR Source

/-! ## Well-formed methods -/

namespace IR

/-- An instruction that computes a value. -/
def Instr.isValue : Instr → Bool
  | call _ | binary _ _ _ _ | unary _ _ _ | single _ | getField _ _ _ => true
  | missing | assign _ _ _ | ret _ _ | branch _ _ | goto _ | putField _ _ _ => false

/-- The variables of an operand are in the table with the types that the operand says.  The base of an
element is an array, and its index is a literal or a variable. -/
def Operand.TypedIn (t : VarTable) : Operand → Prop
  | missing | literal _ _ => True
  | var name ty => (t.get? name).map Variable.ty = some ty
  | elem base index ty =>
    (t.get? base).map Variable.ty = some (.array ty) ∧ index.isSimple = true ∧ index.TypedIn t

/-- An operand that a value can be assigned to. -/
def Operand.isPlace : Operand → Bool
  | var _ _ | elem _ _ _ => true
  | missing | literal _ _ => false

/-- **Well-formed intermediate code.** -/
structure Method.WellFormed (m : Method) : Prop where
  /-- A label that is jumped to is placed once, before an instruction or after the last one. -/
  target : ∀ x ∈ m.code, ∀ label, x.target? = some label →
    (m.labels.entries.map Prod.fst).count label = 1 ∧
      ∃ j : Nat, j ≤ m.code.length ∧ m.target? label = some (j : Int)
  typed : ∀ x ∈ m.code, ∀ y ∈ x.operands, y.TypedIn m.vars
  dest : ∀ dest ty value, .assign dest ty value ∈ m.code → dest.isPlace = true
  /-- What is assigned is a value, and not the result of a call that has none. -/
  value : ∀ dest ty value, .assign dest ty value ∈ m.code →
    value.isValue = true ∧ ∀ c, value = .call c → c.ret.isVoid = false
  cond : ∀ cond label, .branch cond label ∈ m.code → cond.isValue = true
  /-- No two temporaries have one name. -/
  temps : m.vars.vars.Pairwise fun v w ↦ v.kind = .temp → w.kind = .temp → v.name ≠ w.name

end IR

/-- No temporary has the name of a parameter or of a local. -/
def TempsApart (d : MethodDecl) (m : Method) : Prop :=
  ∀ v ∈ m.vars.vars, v.kind = .temp → ∀ w ∈ d.params ++ d.locals, w.name ≠ v.name

/-- No parameter or local is void, and no object of void or of a class without a name is made. -/
structure NoVoid (cls : Text) (d : MethodDecl) : Prop where
  vars : ∀ v ∈ d.params ++ d.locals, Symbols.typeOf cls v.type ≠ .void
  made : ∀ c ∈ madeInAll d.body, c ≠ "void" ∧ c ≠ ""

/-! ## Sound methods -/

theorem Symbols.isVoid_typeOf {cls : Text} {n : TypeName} (h : Symbols.typeOf cls n ≠ .void) :
    (Symbols.typeOf cls n).isVoid = false := by
  rw [Symbols.typeOf] at h ⊢
  split
  · rfl
  · rename_i harray
    rw [if_neg harray] at h
    rw [Symbols.scalarType] at h ⊢
    revert h
    split
    case h_4 | h_5 => exact fun h ↦ absurd rfl h
    all_goals exact fun _ ↦ rfl

/-- A framed method with sound code. -/
structure SoundMethod (t : Scope) (m : Method) : Prop extends Framed t m where
  code : ∀ x ∈ m.code, SoundInstr t m.vars x

/-- **A method is lowered to sound code**, if no variable is void and no object of a void type is made. -/
theorem Lowering.LoweredBy.sound {t : Scope} {d : MethodDecl} {m : Method} {σ σ' : LowerState}
    {f : Fragment} (h : LoweredBy t d m σ σ' f)
    (hvoid : ∀ name v, t.lookup name = some (.var v) → v.ty.isVoid = false)
    (hmade : ∀ cls ∈ madeInAll d.body, cls ≠ "void" ∧ cls ≠ "") : SoundMethod t m := by
  -- the code is mirrored by itself
  have hb := beside_self h.declares
  have hmirror : ∀ s ∈ d.body, MirrorStep t True σ.fresh.labels σ.fresh.labels (s.lower t) := by
    refine fun s hs ↦ s.lower_mirror (fun _ ↦ hvoid) fun _ cls hcls ↦ hmade cls ?_
    rw [madeInAll_eq_flatMap]
    exact List.mem_flatMap.2 ⟨s, hs, hcls⟩
  have hclose := close_both ((stmts_mirror hmirror σ σ hb).of_run h.body) t.sig.ret
  have hcode : ∀ x ∈ m.code, SoundInstr t m.vars x := by
    rw [h.code, h.vars]
    intro x hx
    exact (List.forall₂_same.1 hclose.mirror.code x hx).sound (fun _ _ _ hab ↦ hab.2) trivial
  exact ⟨⟨⟨_, _, _, hclose.closed, h.code, h.labels⟩, ⟨_, h.declares, h.vars ▸ hclose.left⟩,
    h.isStatic, h.params⟩, hcode⟩

/-! ## Well-formedness -/

section
variable {t : Scope} {vars : VarTable} (ht : ¬ t.ShadowsReceiver)
include ht

theorem Knows.typed {name : Text} {ty : Ty} (h : Knows t vars name ty) :
    (vars.get? name).map Variable.ty = some ty := by
  obtain ⟨v, hv, hty⟩ := h
  rw [hv, Option.map_some, hty.resolve_right ht]

variable {x : Operand}

theorem SimpleOperand.typedIn (h : SimpleOperand t vars x) : x.TypedIn vars := by
  cases h with
  | literal text ty => trivial
  | var h => exact h.typed ht

theorem SoundOperand.typedIn (h : SoundOperand t vars x) : x.TypedIn vars := by
  cases h with
  | simple h => exact h.typedIn ht
  | elem hb hi => exact ⟨hb.typed ht, by cases hi <;> rfl, hi.typedIn ht⟩

theorem SoundObject.typedIn (h : SoundObject t vars x) : x.TypedIn vars := by
  cases h with
  | missing => trivial
  | simple h => exact h.typedIn ht

theorem SoundCall.typedIn {c : Call} (h : SoundCall t vars c) :
    ∀ y ∈ c.caller :: c.args, y.TypedIn vars := by
  cases h with
  | newObject cls hret => simp [Operand.TypedIn]
  | newArray h hret => simp [Operand.TypedIn, h.typedIn ht]
  | arrayLength h hret => simp [h.typedIn ht]
  | static cls method h ret =>
    exact List.forall_mem_cons.2 ⟨trivial, fun y hy ↦ (h y hy).typedIn ht⟩
  | method hk hc cls method h ret =>
    exact List.forall_mem_cons.2 ⟨hc.typedIn ht, fun y hy ↦ (h y hy).typedIn ht⟩

theorem SoundValue.typedIn {x : Instr} (h : SoundValue t vars x) :
    ∀ y ∈ x.valueOperands, y.TypedIn vars := by
  cases h with
  | single h => simpa using h.typedIn ht
  | binary op hl hr ty => simp [hl.typedIn ht, hr.typedIn ht]
  | unary op h ty => simpa using h.typedIn ht
  | getField h field ty => simpa using h.typedIn ht
  | call h hret => exact h.typedIn ht

theorem SoundInstr.typedIn {x : Instr} (h : SoundInstr t vars x) :
    ∀ y ∈ x.operands, y.TypedIn vars := by
  cases h with
  | assignVar h hv => exact List.forall_mem_cons.2 ⟨h.typed ht, hv.typedIn ht⟩
  | assignElem hb hi hv =>
    exact List.forall_mem_cons.2 ⟨(SoundOperand.elem hb hi).typedIn ht, hv.typedIn ht⟩
  | call h => exact h.typedIn ht
  | retVoid ty => simp [Instr.operands, Operand.TypedIn]
  | ret h ty => simpa [Instr.operands] using h.typedIn ht
  | branch h label => exact h.typedIn ht
  | goto label => simp [Instr.operands]
  | putField h field hv => simp [Instr.operands, h.typedIn ht, hv.typedIn ht]

end

theorem SoundValue.isValue {t : Scope} {vars : VarTable} {x : Instr} (h : SoundValue t vars x) :
    x.isValue = true := by
  cases h <;> rfl

/-- Each jump of such a method has its label. -/
theorem Framed.target {t : Scope} {m : Method} (h : Framed t m) {x : Instr} (hx : x ∈ m.code)
    {label : Text} (hl : x.target? = some label) :
    (m.labels.entries.map Prod.fst).count label = 1 ∧
      ∃ j : Nat, j ≤ m.code.length ∧ m.target? label = some (j : Int) := by
  obtain ⟨f, lo, hi, hclosed, hcode, hlabels⟩ := h.closed
  have hplaced : label ∈ f.placed :=
    hclosed.wanted (List.mem_filterMap.2 ⟨x, hcode ▸ hx, hl⟩)
  obtain ⟨⟨_, i⟩, hi, rfl⟩ := List.mem_map.1 hplaced
  have htarget := (placed_of_method hcode hlabels).labels _ i hi
  rw [Nat.zero_add] at htarget
  refine ⟨List.count_eq_one_of_mem m.labels.nodup ?_, i, hcode ▸ hclosed.bounded _ hi, htarget⟩
  exact List.mem_map.2 ⟨_, mem_of_lookup_eq_some htarget, rfl⟩

namespace SoundMethod

variable {t : Scope} {m : Method} (h : SoundMethod t m)
include h

theorem wellFormed (ht : ¬ t.ShadowsReceiver) : m.WellFormed where
  target x hx label hl := h.target hx hl
  typed x hx := (h.code x hx).typedIn ht
  dest := by
    intro dest ty value hx
    cases h.code _ hx <;> rfl
  value := by
    intro dest ty value hx
    have hvalue : SoundValue t m.vars value := by
      cases h.code _ hx with
      | assignVar _ hv => exact hv
      | assignElem _ _ hv => exact hv
    refine ⟨hvalue.isValue, ?_⟩
    rintro c rfl
    cases hvalue with
    | call _ hret => exact hret
  cond := by
    intro cond label hx
    cases h.code _ hx with
    | branch hc _ => exact hc.isValue
  temps := by
    have hn := m.vars.nodup
    rw [List.Nodup, List.pairwise_map] at hn
    exact hn.imp fun hne _ _ ↦ hne

/-- The variables that are declared for a method are no temporaries. -/
theorem tempsApart {d : MethodDecl} (hp : ∀ w ∈ d.params, ∃ p ∈ t.sig.params, p.name = w.name)
    (hl : ∀ w ∈ d.locals, ∃ l ∈ t.sig.locals, l.name = w.name) : TempsApart d m := by
  obtain ⟨vars, hdecl, temps, hvars, htemps⟩ := h.vars
  intro v hv hkind w hw hname
  have hdeclared : ∀ x ∈ vars.vars, x.kind ≠ .temp := by
    intro x hx
    rcases hdecl.cases hx with ⟨-, rfl⟩ | ⟨p, -, rfl⟩ | ⟨l, -, rfl⟩
    · exact fun h ↦ nomatch h
    · exact fun h ↦ nomatch h
    · exact fun h ↦ nomatch h
  have hw' : w.name ∈ vars.vars.map Variable.name := by
    rw [← VarTable.contains_iff]
    rcases List.mem_append.1 hw with hw | hw
    · obtain ⟨p, hp, hpname⟩ := hp w hw
      exact hpname ▸ VarTable.contains_iff_get?.2 ⟨_, hdecl.param hp⟩
    · obtain ⟨l, hl, hlname⟩ := hl w hw
      exact hlname ▸ hdecl.locals l hl
  rw [hvars, List.mem_append] at hv
  rcases hv with hv | hv
  · exact hdeclared v hv hkind
  · -- the table would have the name twice
    have hn := m.vars.nodup
    rw [hvars, List.map_append, List.nodup_append] at hn
    exact hn.2.2 _ hw' _ (List.mem_map.2 ⟨v, hv, rfl⟩) hname

end SoundMethod

/-- The code of the constructor is sound. -/
theorem soundMethod_constructor (t : Symbols) :
    SoundMethod { table := t, sig := { name := "<init>", ret := .void } } (Lowering.constructor t) := by
  have hthis : Knows { table := t, sig := { name := "<init>", ret := .void } }
      (Lowering.constructor t).vars Method.receiver (.receiver t.cls) := ⟨_, rfl, .inl rfl⟩
  refine ⟨Lowering.framed_constructor t, ?_⟩
  rintro x (_ | ⟨_, _ | ⟨_, ⟨⟩⟩⟩)
  · exact .call (.method (by simp) (.var hthis) "" "<init>" (by simp) .void)
  · exact .retVoid .void

/-- **The methods of a program are lowered to sound code.** -/
theorem lowerProgram_sound {p : Program} {t : Symbols} {fresh fresh' : Fresh} {cls : ClassDef}
    (ht : Symbols.build p = .ok t) (hvoid : ∀ d ∈ p.cls.methods, NoVoid p.cls.name d)
    (hlower : lowerProgram t (some p) fresh = (.ok cls, fresh')) :
    ∃ ms, cls = { Lowering.header t with methods := Lowering.constructor t :: ms } ∧
      List.Forall₂ (fun d m ↦ m.name = d.name ∧ SoundMethod
        { table := t, sig := Context.signature ⟨p, d⟩ d } m) p.cls.methods ms := by
  obtain ⟨ms, rfl, hms⟩ := lowerProgram_spec hlower
  refine ⟨ms, rfl, ?_⟩
  rw [List.forall₂_iff_zip] at hms ⊢
  refine ⟨hms.1, fun {d m} hdm ↦ ?_⟩
  have hd : d ∈ p.cls.methods := (List.of_mem_zip hdm).1
  obtain ⟨σ, σ', hrun⟩ := hms.2 hdm
  obtain ⟨sig, σ₁, f, hsig, hby⟩ := Lowering.method_spec hrun
  obtain ⟨hsig', -⟩ := describes_of_build (c := ⟨p, d⟩) ht hd
  obtain rfl := Option.some.inj (hsig.symm.trans hsig')
  refine ⟨hby.name, hby.sound (fun name v hv ↦ ?_) (hvoid d hd).made⟩
  have hmem := (Scope.lookup_eq_var hv).2
  rw [Context.signature, ← List.mem_append, ← List.map_append] at hmem
  obtain ⟨w, hw, rfl⟩ := List.mem_map.1 hmem
  exact Symbols.isVoid_typeOf ((hvoid d hd).vars w hw)

/-- **The intermediate code of a program is well-formed.**  The constructor and all methods are
well-formed, no temporary of a method has the name of something that the method declares, and lowering
never fails because a label is placed twice, whatever the numbers that fresh names start with. -/
theorem lowered_code_is_well_formed {p : Program} {t : Symbols} (ht : Symbols.build p = .ok t)
    (hthis : ∀ d ∈ p.cls.methods, HidesReceiver d)
    (hvoid : ∀ d ∈ p.cls.methods, NoVoid p.cls.name d) (fresh : Fresh) :
    (∀ cls fresh', lowerProgram t (some p) fresh = (.ok cls, fresh') →
      ∃ ms, cls.methods = Lowering.constructor t :: ms ∧ (∀ m ∈ cls.methods, m.WellFormed) ∧
        List.Forall₂ (fun d m ↦ m.name = d.name ∧ TempsApart d m) p.cls.methods ms) ∧
    ∀ e fresh', lowerProgram t (some p) fresh = (.error e, fresh') →
      ∀ label, e.cause ≠ .defect (.labelRedefined label) := by
  refine ⟨fun cls fresh' hr ↦ ?_, fun e fresh' hr ↦ ?_⟩
  · obtain ⟨ms, rfl, hms⟩ := lowerProgram_sound ht hvoid hr
    refine ⟨ms, rfl, List.forall_mem_cons.2 ⟨?_, fun m hm ↦ ?_⟩, hms.imp ?_⟩
    · exact (soundMethod_constructor t).wellFormed fun ⟨_, l, hl, _⟩ ↦ (nomatch hl)
    · obtain ⟨d, hd, -, hsound⟩ := exists_of_mem_right hms hm
      refine hsound.wellFormed ?_
      rintro ⟨hs, l, hl, hname⟩
      obtain ⟨w, hw, rfl⟩ := List.mem_map.1 hl
      exact hthis d hd hs w hw hname
    · rintro d m ⟨hname, hsound⟩
      refine ⟨hname, hsound.tempsApart ?_ ?_⟩
      · exact fun w hw ↦ ⟨_, List.mem_map_of_mem hw, rfl⟩
      · exact fun w hw ↦ ⟨_, List.mem_map_of_mem hw, rfl⟩
  · obtain ⟨σ', hrun⟩ := run_of_lowerProgram hr
    exact (Lowering.cls_both t p ⟨0, rfl, rfl⟩).keepsLabels hrun

/-- A method with arrays, objects, a loop and a conditional that returns, and with a parameter that has
the name of a temporary. -/
def searchMethod : MethodDecl where
  pos := default
  name := "search"
  ret := { name := "int" }
  params := [{ pos := default, name := "a", type := { name := "int", array := true } },
    { pos := default, name := "tmp0", type := { name := "int" } }]
  locals := [{ pos := default, name := "found", type := { name := "Search" } }]
  body := [
    .loop default (.binary default "&&"
        (.binary default "<" (.index default (.ident default "a") (.int default "0"))
          (.ident default "tmp0"))
        (.binary default "<" (.int default "0") (.length default (.ident default "a"))))
      (some (.indexAssign default "a" (.int default "0")
        (.binary default "+" (.index default (.ident default "a") (.int default "0"))
          (.int default "1")))),
    .cond default (.unary default "!" (.binary default "<" (.ident default "tmp0") (.int default "9")))
      (some (.ret default (some (.int default "1")))) none,
    .assign default "found" (.new default "Search"),
    .ret default (some (.index default (.ident default "a") (.ident default "tmp0")))]

/-- A class with this method. -/
def search : Program where
  pos := default
  cls := { pos := default, name := "Search", methods := [searchMethod] }

theorem search_lowers : ∃ t cls fresh', Symbols.build search = .ok t ∧
    lowerProgram t (some search) { temps := 0, labels := 5 } = (.ok cls, fresh') := by
  obtain ⟨t, hbuild⟩ : ∃ t, Symbols.build search = .ok t := ⟨_, rfl⟩
  have hok : (lowerProgram t (some search) { temps := 0, labels := 5 }).1.isOk = true := by
    cases hbuild
    decide +kernel
  generalize hr : lowerProgram t (some search) { temps := 0, labels := 5 } = r at hok
  obtain ⟨_ | cls, fresh'⟩ := r
  · cases hok
  · exact ⟨t, cls, fresh', hbuild, hr⟩

theorem search_noVoid : ∀ d ∈ search.cls.methods, NoVoid search.cls.name d := by
  intro d hd
  obtain rfl := List.mem_singleton.1 hd
  exact ⟨by decide, by decide⟩

theorem search_is_well_formed :
    ∃ t cls fresh', Symbols.build search = .ok t ∧
      (∀ d ∈ search.cls.methods, HidesReceiver d) ∧
      (∀ d ∈ search.cls.methods, NoVoid search.cls.name d) ∧
      lowerProgram t (some search) { temps := 0, labels := 5 } = (.ok cls, fresh') ∧
      ∃ init m, cls.methods = [init, m] ∧ init.WellFormed ∧ m.WellFormed ∧
        TempsApart searchMethod m := by
  obtain ⟨t, cls, fresh', hbuild, hlower⟩ := search_lowers
  have hthis : ∀ d ∈ search.cls.methods, HidesReceiver d := by
    intro d hd
    obtain rfl := List.mem_singleton.1 hd
    intro _ v hv
    obtain rfl := List.mem_singleton.1 hv
    decide
  refine ⟨t, cls, fresh', hbuild, hthis, search_noVoid, hlower, ?_⟩
  obtain ⟨ms, hms, hall, htemps⟩ := (lowered_code_is_well_formed hbuild hthis search_noVoid
    { temps := 0, labels := 5 }).1 cls fresh' hlower
  cases htemps with
  | cons hm hrest =>
    cases hrest
    rw [hms, List.forall_mem_cons, List.forall_mem_singleton] at hall
    exact ⟨_, _, hms, hall.1, hall.2, hm.2⟩

end MiniJava
