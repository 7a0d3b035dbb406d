import MiniJava.Proofs.Declarations
import MiniJava.Proofs.LoweredStmt

/-!
# Lowered methods

The intermediate code of a method does what its body does in the source
(`lowering_preserves_meaning`): it makes the same requests of its environment, in the same order and on
the same values, and it gives back the same value.

The body is a block, so what is known of lowered statements holds of it.  What is left is the end of the
body: a method without result may run off it, and a return is added there unless the code ends in one,
where control never comes.
-/

set_option autoImplicit false

namespace MiniJava

open IR Source

/-- The variables of the intermediate code hold what those of the source hold.  Nothing is said of
temporaries. -/
structure StartsAs (d : MethodDecl) (l : Locals) (store : Text → Word) : Prop where
  self : d.isStatic = false → store Method.receiver = l.self
  var : ∀ v ∈ d.params ++ d.locals, store v.name = l.vars v.name

/-- The receiver of an instance method is no variable of the source. -/
def HidesReceiver (d : MethodDecl) : Prop :=
  d.isStatic = false → ∀ v ∈ d.locals, v.name ≠ Method.receiver

section
variable {c : Context} {t : Scope}

theorem StartsAs.agrees (hc : Describes t c) {l : Locals} {store : Text → Word}
    (h : StartsAs c.method l store) : Agrees t l store where
  self := by
    rw [hc.sig]
    exact h.self
  var := by
    intro name v hv
    obtain ⟨rfl, hmem⟩ := Scope.lookup_eq_var hv
    rw [hc.sig, Context.signature, ← List.mem_append, ← List.map_append] at hmem
    obtain ⟨w, hw, rfl⟩ := List.mem_map.1 hmem
    exact h.var w hw

theorem HidesReceiver.lookup_ne (hc : Describes t c) (h : HidesReceiver c.method) {vars : VarTable}
    (hvars : Lowering.Declares t vars) (hs : t.sig.isStatic = false) (v : Symbol) :
    t.lookup Method.receiver ≠ some (.var v) := by
  intro hv
  obtain ⟨hname, hp | hl⟩ := Scope.lookup_eq_var hv
  · exact hvars.param_ne_receiver hs hp hname
  · rw [hc.sig] at hs hl
    obtain ⟨w, hw, rfl⟩ := List.mem_map.1 hl
    exact h hs w hw hname

variable {f : Fragment} {m : Method}

/-- The end of the code of a method, if control can come there and the method has no result. -/
theorem closed_ends {ret : Ty} (hret : ret.isVoid = true) (hf : f.endsWithReturn = false)
    (hp : Placed m 0 (Lowering.close ret f)) (ask : Operation → List Word → Act Effect Word)
    (store : Text → Word) (past : List (Request Effect)) :
    (m.machine ask).Ends 1 ⟨f.code.length, store⟩ past (.returned none) past := by
  rw [Lowering.close, hret, hf, Bool.not_false, Bool.and_self, if_pos rfl, placed_append, placed_instr,
    Nat.zero_add] at hp
  refine .of_step ?_
  rw [Method.machine_of_code hp.2]
  rfl

theorem placed_of_close {ret : Ty} (hp : Placed m 0 (Lowering.close ret f)) : Placed m 0 f := by
  rw [Lowering.close] at hp
  split at hp
  · exact (placed_append.1 hp).1
  · exact hp

theorem nodup_of_close {ret : Ty} (hn : ((Lowering.close ret f).labels.map Prod.fst).Nodup) :
    (f.labels.map Prod.fst).Nodup := by
  rw [Lowering.close] at hn
  split at hn
  · exact (nodup_of_append hn).1
  · exact hn

/-- A lowered method ends as its body ends. -/
theorem Lowering.LoweredBy.ends (hc : Describes t c) {σ σ' : LowerState}
    (h : LoweredBy t c.method m σ σ' f) (hthis : HidesReceiver c.method) {env : Env Effect} {l : Locals}
    {store : Text → Word} {past past' : List (Request Effect)} {e : End}
    (hstart : StartsAs c.method l store) (hends : c.Ends env l past e past') (hne : e ≠ .stuck) :
    ∃ n, (m.machine (asked env)).Ends n ⟨0, store⟩ past e past' := by
  have hd : Declared t σ :=
    ⟨fun hs ↦ VarTable.contains_iff_get?.2 ⟨_, h.declares.receiver hs⟩,
      fun _ _ hv ↦ h.declares.contains_of_lookup hv⟩
  have ha : Agrees t l store := hstart.agrees hc
  have hp : Placed m 0 (close t.sig.ret f) := placed_of_method h.code h.labels
  have hn : (f.labels.map Prod.fst).Nodup := by
    have hm := m.labels.nodup
    rw [h.labels, List.map_map] at hm
    exact nodup_of_close hm
  have hbody : Implements env t c f (.block c.method.pos c.method.body) :=
    (stmts_correct (fun s _ ↦ s.lower_correct hc (hthis.lookup_ne hc h.declares) env) σ f σ' hd
      h.body).2 hn
  cases hends with
  | inside hexec => exact hbody m 0 (placed_of_close hp) l store past _ past' ha hexec hne
  | atEnd hret hexec =>
    cases hf : f.endsWithReturn with
    | true => exact absurd hexec (hbody.not_ok hn hf ha)
    | false =>
      obtain ⟨n, ⟨pc, store'⟩, hsteps, hpc, -⟩ :=
        hbody m 0 (placed_of_close hp) l store past _ past' ha hexec
      obtain rfl : pc = f.code.length := hpc.trans (Nat.zero_add _)
      have hvoid : t.sig.ret.isVoid = true := by
        rw [hc.sig]
        exact hret
      exact ⟨n + 1, hsteps.ends (closed_ends hvoid hf hp _ _ _)⟩

end

/-- **Lowering preserves the meaning of programs.**  For every method of a program, all values of its
variables and every environment: if the body ends, then the intermediate code ends in the same way after
the same requests. -/
theorem lowering_preserves_meaning {p : Program} {t : Symbols} {fresh fresh' : Fresh} {cls : ClassDef}
    (hbuild : Symbols.build p = .ok t) (hlower : lowerProgram t (some p) fresh = (.ok cls, fresh'))
    (hthis : ∀ d ∈ p.cls.methods, HidesReceiver d) :
    ∃ ms, cls.methods = Lowering.constructor t :: ms ∧
      List.Forall₂ (fun d m ↦ m.name = d.name ∧ ∀ env l store past e past', StartsAs d l store →
        Context.Ends ⟨p, d⟩ env l past e past' → e ≠ .stuck →
          ∃ n, (m.machine (asked env)).Ends n ⟨0, store⟩ past e past') p.cls.methods ms := by
  obtain ⟨ms, rfl, hms⟩ := lowerProgram_spec hlower
  refine ⟨ms, rfl, ?_⟩
  rw [List.forall₂_iff_zip] at hms ⊢
  refine ⟨hms.1, fun {d m} hdm ↦ ?_⟩
  have hd : d ∈ p.cls.methods := (List.of_mem_zip hdm).1
  obtain ⟨σ, σ', hm⟩ := hms.2 hdm
  obtain ⟨sig, σ₁, f, hsig, hby⟩ := Lowering.method_spec hm
  obtain ⟨hsig', hc⟩ := describes_of_build (c := ⟨p, d⟩) hbuild hd
  obtain rfl := Option.some.inj (hsig.symm.trans hsig')
  exact ⟨hby.name, fun env l store past e past' hstart hends hne ↦
    hby.ends hc (hthis d hd) hstart hends hne⟩

/-- A loop that counts down and calls another method on each round. -/
def tickDown : Stmt :=
  .loop default (.binary default "<" (.int default "0") (.ident default "n")) (some
    (.block default [
      .expr default (.call default none "tick" []),
      .assign default "n" (.binary default "-" (.ident default "n") (.int default "1"))]))

/-- The loop as a method, which gives back the number that is left. -/
def tickDownMethod : MethodDecl where
  pos := default
  name := "run"
  ret := { name := "int" }
  params := [{ pos := default, name := "n", type := { name := "int" } }]
  body := [tickDown, .ret default (some (.ident default "n"))]

/-- A class with this method. -/
def clock : Program where
  pos := default
  cls := { pos := default, name := "Clock", methods := [tickDownMethod] }

/-- One round. -/
theorem clock_ends :
    Context.Ends ⟨clock, tickDownMethod⟩ (fun _ _ ↦ some (.int 0)) ⟨.ref 7, fun _ ↦ .int 1⟩ []
      (.returned (some (.int 0))) [⟨.callMethod "tick", [.ref 7]⟩] := by
  let c : Context := ⟨clock, tickDownMethod⟩
  let env : Env Effect := fun _ _ ↦ some (.int 0)
  let l : Locals := ⟨.ref 7, fun _ ↦ .int 1⟩
  let tick : Request Effect := ⟨.callMethod "tick", [.ref 7]⟩
  have htick : Exec c env (.expr default (.call default none "tick" [])) l [] (.ok l) [tick] :=
    .expr rfl
  have hless : Exec c env (.assign default "n" (.binary default "-" (.ident default "n")
      (.int default "1"))) l [tick] (.ok (l.set "n" (.int 0))) [tick] := .assign rfl
  have hexit : Exec c env tickDown (l.set "n" (.int 0)) [tick] (.ok (l.set "n" (.int 0))) [tick] :=
    .exit rfl
  have hret : Exec c env (.ret default (some (.ident default "n"))) (l.set "n" (.int 0)) [tick]
      (.error (.returned (some (.int 0)))) [tick] := .ret rfl
  exact .inside (.cons (.round rfl (.cons htick (.cons hless .nil)) hexit) (.consEnd hret))

theorem clock_preserves_meaning :
    ∃ t cls fresh', Symbols.build clock = .ok t ∧ lowerProgram t (some clock) {} = (.ok cls, fresh') ∧
      (∀ d ∈ clock.cls.methods, HidesReceiver d) ∧
      ∃ init m n, cls.methods = [init, m] ∧
        (m.machine (asked fun _ _ ↦ some (.int 0))).Ends n
          ⟨0, fun name ↦ if name = Method.receiver then .ref 7 else .int 1⟩ []
          (.returned (some (.int 0))) [⟨.callMethod "tick", [.ref 7]⟩] := by
  obtain ⟨t, hbuild⟩ : ∃ t, Symbols.build clock = .ok t := ⟨_, rfl⟩
  obtain ⟨cls, fresh', hlower⟩ : ∃ cls fresh', lowerProgram t (some clock) {} = (.ok cls, fresh') := by
    cases hbuild
    exact ⟨_, _, rfl⟩
  have hthis : ∀ d ∈ clock.cls.methods, HidesReceiver d := by
    intro d hd
    obtain rfl := List.mem_singleton.1 hd
    exact fun _ v hv ↦ (nomatch hv)
  refine ⟨t, cls, fresh', hbuild, hlower, hthis, ?_⟩
  obtain ⟨ms, hms, hall⟩ := lowering_preserves_meaning hbuild hlower hthis
  cases hall with
  | cons hm hrest =>
    cases hrest
    have hstart : StartsAs tickDownMethod ⟨.ref 7, fun _ ↦ .int 1⟩
        fun name ↦ if name = Method.receiver then .ref 7 else .int 1 := by
      refine ⟨fun _ ↦ rfl, fun v hv ↦ ?_⟩
      obtain rfl := List.mem_singleton.1 hv
      rfl
    obtain ⟨n, hn⟩ := hm.2 _ _ _ _ _ _ hstart clock_ends (by decide)
    exact ⟨_, _, n, hms, hn⟩

end MiniJava
