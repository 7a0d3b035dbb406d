import MiniJava.Proofs.EmittedSites

/-!
# Variadic arguments of undeclared methods

The result of a method that the program does not declare has the type that its consumer expects, and is an
integer if none is expected.  A variadic parameter expects its element type of each of its arguments, but of
a single one it expects nothing, since that may be the array itself.

So two or more arguments that are calls of undeclared methods are lowered with the element type, and a single
one is lowered as an integer, whatever the elements are (`argumentType`).  Then the packing code stores an
integer into an array of something else (`variadic_calls_are_packed`, `single_word_is_packed_as_integer`).
-/

set_option autoImplicit false

namespace MiniJava

open IR Source

/-- What the body of the method of a context is lowered in. -/
def Source.Context.scope (c : Context) (table : Symbols) : Scope :=
  { table, sig := c.signature c.method }

/-- A call of a method that the program does not declare, possibly in parentheses. -/
def Expr.CallsUndeclared (c : Context) (e : Expr) : Prop :=
  ∃ pos recv name args, e.unparen = .call pos recv name args ∧ (calleeOf c name recv).decl? = none

namespace Lowering

open LowerM

/-! ## Calls that are arguments -/

/-- The type of the result of an undeclared method that is one of `n` arguments for elements of a type. -/
def argumentType (elem : Ty) (n : Nat) : Ty := if n = 1 ∨ elem.isVoid then .int else elem

theorem argumentType_eq_self_iff {elem : Ty} {n : Nat} (hn : 1 ≤ n) :
    argumentType elem n = elem ↔ elem = .int ∨ 2 ≤ n ∧ elem.isVoid = false := by
  by_cases h : n = 1 ∨ elem.isVoid
  · rw [argumentType, if_pos h]
    constructor
    · exact fun heq ↦ .inl heq.symm
    · rintro (rfl | ⟨hn', hv⟩)
      · rfl
      · rw [hv] at h
        rcases h with h | h
        · omega
        · cases h
  · rw [argumentType, if_neg h]
    rw [not_or, Bool.not_eq_true] at h
    exact iff_of_true rfl (.inr ⟨by omega, h.2⟩)

/-- The code of an argument that is a call: what comes before, and the call with the temporary that takes its
result. -/
structure ArgumentCall where
  before : List Instr
  temp : Text
  call : Call

namespace ArgumentCall

/-- The argument itself. -/
def operand (a : ArgumentCall) : Operand := .var a.temp a.call.ret

def code (a : ArgumentCall) : List Instr := a.before ++ [.assign a.operand a.call.ret (.call a.call)]

/-- The call is that of an expression, with a result of a type. -/
def Lowers (ret : Ty) (e : Expr) (a : ArgumentCall) : Prop :=
  (∃ pos recv args, e.unparen = .call pos recv a.call.method args) ∧ a.call.ret = ret

end ArgumentCall

/-- Operands stored one after another into a fresh array. -/
def packing (array : ArrayVar) (items : List Operand) : List Instr :=
  .assign array.whole array.ty
      (.call { kind := .newArray, args := [intLiteral items.length], ret := array.ty }) ::
    items.zipIdx.map fun p ↦ .assign (array.get (intLiteral p.2)) array.ty.elem (.single p.1)

theorem pack_code (ty : Ty) (items : List Operand) : Ensures (pack ty items) fun r ↦
    ∃ name, r.1 = (ArrayVar.mk name ty).whole ∧ r.2.code = packing ⟨name, ty⟩ items :=
  .after fun name ↦ .pure ⟨name, rfl, rfl⟩

/-- The code of calls for a variadic parameter: each leaves its result in a temporary, and these are packed
into an array. -/
structure PacksCalls (elem : Ty) (es : List Expr) (args : List ArgumentCall) (array : Text)
    (code : List Instr) : Prop where
  code : code = args.flatMap ArgumentCall.code ++
    packing ⟨array, .array elem⟩ (args.map ArgumentCall.operand)
  calls : List.Forall₂ (fun e a ↦ a.Lowers (argumentType elem es.length) e) es args

theorem PacksCalls.ret_eq_iff {elem : Ty} {es : List Expr} {args : List ArgumentCall} {array : Text}
    {code : List Instr} (h : PacksCalls elem es args array code) (hes : es ≠ []) :
    (∀ a ∈ args, a.call.ret = elem) ↔ elem = .int ∨ 2 ≤ es.length ∧ elem.isVoid = false := by
  have hret (a : ArgumentCall) (ha : a ∈ args) : a.call.ret = argumentType elem es.length := by
    obtain ⟨e, -, hlowers⟩ := exists_of_mem_right h.calls ha
    exact hlowers.2
  obtain ⟨a, ha⟩ : ∃ a, a ∈ args := by
    refine List.exists_mem_of_ne_nil _ fun hnil ↦ hes (List.length_eq_zero_iff.1 ?_)
    rw [h.calls.length_eq, hnil, List.length_nil]
  rw [← argumentType_eq_self_iff (List.length_pos_iff.2 hes)]
  constructor
  · intro hall
    rw [← hret a ha, hall a ha]
  · intro htype b hb
    rw [hret b hb, htype]

section
variable {t : Scope} {c : Context} (hc : Describes t c)
include hc

/-- A call of an undeclared method has the result that is expected. -/
theorem call_undeclared {recv : Option Expr} {name : Text} (h : (calleeOf c name recv).decl? = none)
    (pos : Position) (es : List Expr) {want : Ty} (hwant : want ≠ .absent) :
    Ensures (call t pos (lowerReceiver t recv) name (lowerArgs t es) want) fun r ↦
      r.1.method = name ∧ r.1.ret = want := by
  refine (target_ensures hc (fun e _ ↦ e.lower_presents hc) pos name).bind ?_
  rintro ⟨target, s⟩ ⟨-, ht⟩
  have hsig : target.sig = none := by rw [ht.sig, h, Option.map_none]
  dsimp only
  rw [hsig]
  exact .after fun r ↦ .pure ⟨rfl, if_neg hwant⟩

/-- A call of an undeclared method as an operand: where no values are expected, it is an integer. -/
theorem operand_undeclared {e : Expr} (h : e.CallsUndeclared c) (want : Ty) :
    Ensures (operand (e.lower t) want) fun r ↦ ∃ a : ArgumentCall, r.1 = a.operand ∧ r.2.code = a.code ∧
      a.Lowers (if want.isVoid then .int else want) e := by
  obtain ⟨pos, recv, name, args, he, hdecl⟩ := h
  have hwant : (if want.isVoid then .int else want) ≠ .absent := by
    cases want <;> simp [Ty.isVoid]
  rw [← lower_unparen, he, Expr.lower]
  refine LowerM.Ensures.bind (P := fun r ↦ ∃ x : Call, r.1 = .instr (.call x) ∧ x.method = name ∧
    x.ret = if want.isVoid then .int else want) ?_ ?_
  · refine (call_undeclared hc hdecl pos args hwant).bind ?_
    rintro ⟨x, s⟩ ⟨hname, hret⟩
    dsimp only
    split
    · exact .unsupported
    · exact .pure ⟨x, rfl, hname, hret⟩
  · rintro ⟨_, s⟩ ⟨x, rfl, rfl, hret⟩
    refine (Ensures.temp x.ret).bind ?_
    rintro _ ⟨temp, rfl⟩
    exact .pure ⟨⟨s.code, temp, x⟩, rfl, rfl, ⟨pos, recv, args, he⟩, hret⟩

variable {es : List Expr}

theorem operands_undeclared (h : ∀ e ∈ es, e.CallsUndeclared c) (want : Ty) :
    Ensures (operands want (es.map (Expr.lower t))) fun r ↦ ∃ args : List ArgumentCall,
      r.1 = args.map ArgumentCall.operand ∧ r.2.code = args.flatMap ArgumentCall.code ∧
      List.Forall₂ (fun e a ↦ a.Lowers (if want.isVoid then .int else want) e) es args := by
  induction es with
  | nil => exact .pure ⟨[], rfl, rfl, .nil⟩
  | cons e es ih =>
    refine (operand_undeclared hc (h e (by simp)) want).bind ?_
    rintro ⟨_, s⟩ ⟨a, rfl, hcode, ha⟩
    refine (ih fun e he ↦ h e (by simp [he])).bind ?_
    rintro ⟨_, s'⟩ ⟨args, rfl, hcode', hargs⟩
    refine .pure ⟨a :: args, rfl, ?_, .cons ha hargs⟩
    rw [Fragment.code_append, hcode, hcode', List.flatMap_cons]

/-- Of each of several arguments the element type is expected. -/
theorem packed_undeclared (h : ∀ e ∈ es, e.CallsUndeclared c) (hn : es.length ≠ 1) (elem : Ty) :
    Ensures (do
      let (xs, s) ← operands elem ((es.map fun e ↦ (e, e.lower t)).map Prod.snd)
      let (y, p) ← pack (.array elem) xs
      return (y, s ++ p)) fun r ↦
        ∃ args name, r.1 = (ArrayVar.mk name (.array elem)).whole ∧
          PacksCalls elem es args name r.2.code := by
  rw [List.map_map]
  refine (operands_undeclared hc h elem).bind ?_
  rintro ⟨_, s⟩ ⟨args, rfl, hcode, hargs⟩
  refine (pack_code (.array elem) _).bind ?_
  rintro ⟨_, p⟩ ⟨name, rfl, hpack⟩
  refine .pure ⟨args, name, rfl, by rw [Fragment.code_append, hcode, hpack], ?_⟩
  have htype : argumentType elem es.length = if elem.isVoid then .int else elem := by
    simp [argumentType, hn]
  rw [htype]
  exact hargs

/-- Calls of undeclared methods for a variadic parameter are packed into an array, a single one too. -/
theorem variadicArgs_undeclared (h : ∀ e ∈ es, e.CallsUndeclared c) (elem : Ty) :
    Ensures (variadicArgs (.array elem) (es.map fun e ↦ (e, e.lower t))) fun r ↦
      ∃ args name, r.1 = (ArrayVar.mk name (.array elem)).whole ∧
        PacksCalls elem es args name r.2.code := by
  rcases es with _ | ⟨e, _ | ⟨e', es⟩⟩
  · exact packed_undeclared hc h (by simp) elem
  · -- nothing is expected of a single argument, so it is an integer, which is no array
    have hliteral : isArrayLiteral e = false := by
      obtain ⟨pos, recv, name, args, he, -⟩ := h e (by simp)
      rw [isArrayLiteral, he]
    rw [List.map_singleton, variadicArgs, hliteral]
    refine (operand_undeclared hc (h e (by simp)) .absent).bind ?_
    rintro ⟨_, s⟩ ⟨a, rfl, hcode, ha⟩
    have hty : a.operand.ty ≠ .array elem := by
      rw [ArgumentCall.operand, Operand.ty, ha.2]
      simp [Ty.isVoid]
    dsimp only
    rw [if_neg hty]
    refine (pack_code (.array elem) _).bind ?_
    rintro ⟨_, p⟩ ⟨name, rfl, hpack⟩
    refine .pure ⟨[a], name, rfl, ?_, .cons ha .nil⟩
    rw [Fragment.code_append, hcode, hpack, List.flatMap_singleton, List.map_singleton]
  · exact packed_undeclared hc h (by simp) elem

theorem argsFor_undeclared {sig : Signature} {last : Symbol} (hv : sig.varargs = true)
    (hlast : sig.params.getLast? = some last)
    (h : ∀ e ∈ es.drop (sig.params.length - 1), e.CallsUndeclared c) (pos : Position) :
    Ensures (argsFor pos sig (es.map fun e ↦ (e, e.lower t))) fun r ↦
      ∃ elem args name before packed, last.ty = .array elem ∧
        r.1.getLast? = some (ArrayVar.mk name (.array elem)).whole ∧ r.2.code = before ++ packed ∧
        PacksCalls elem (es.drop (sig.params.length - 1)) args name packed := by
  rw [argsFor, hv, hlast]
  simp only [Bool.not_true, Bool.false_eq_true, if_false, List.length_dropLast]
  split
  · exact .unsupported
  · refine .after ?_
    rintro ⟨xs, s⟩
    dsimp only
    split
    · rename_i elem hty
      rw [hty, ← List.map_drop]
      refine (variadicArgs_undeclared hc h elem).bind ?_
      rintro ⟨_, p⟩ ⟨args, name, rfl, hpacks⟩
      exact .pure ⟨elem, args, name, s.code, p.code, rfl, List.getLast?_concat, rfl, hpacks⟩
    · exact .throw

end

end Lowering

/-- **How calls of undeclared methods are packed for a variadic parameter.**  In an accepted call of a method
of the class, let all arguments for its variadic parameter be calls of undeclared methods, possibly in
parentheses.  Each of them is lowered with a result of `argumentType`, the results are stored one after
another, and the array of them is the last argument.  So the elements that are stored have the element type
exactly if that is `int`, or there are two arguments or more and it is a type of values. -/
theorem variadic_calls_are_packed {c : Context} {table : Symbols}
    (hbuild : Symbols.build c.program = .ok table) (hm : c.method ∈ c.cls.methods)
    {recv : Option Expr} {name : Text} {d : MethodDecl} (hd : (calleeOf c name recv).decl? = some d)
    {last : VarDecl} (hlast : variadic? d = some last) {es : List Expr}
    (hes : d.params.length ≤ es.length)
    (h : ∀ e ∈ es.drop (d.params.length - 1), e.CallsUndeclared c)
    {pos : Position} {want : Ty} {σ σ' : LowerState} {x : Call} {f : Fragment}
    (hr : (Lowering.call (c.scope table) pos (lowerReceiver (c.scope table) recv) name
      (lowerArgs (c.scope table) es) want).run σ = (.ok (x, f), σ')) :
    ∃ elem args array before packed, c.typeOf last.type = .array elem ∧ f.code = before ++ packed ∧
      Lowering.PacksCalls elem (es.drop (d.params.length - 1)) args array packed ∧
      x.args.getLast? = some (.var array (.array elem)) ∧
      ((∀ a ∈ args, a.call.ret = elem) ↔
        elem = .int ∨ d.params.length < es.length ∧ elem.isVoid = false) := by
  have hc : Describes (c.scope table) c := (describes_of_build hbuild hm).2
  obtain ⟨hlast', -⟩ := Option.filter_eq_some_iff.1 hlast
  have hvarargs : (c.signature d).varargs = true := by
    show d.params.any (·.type.varargs) = true
    rw [hc.variadic d (Lowering.decl_of_calleeOf hd), hlast]
    rfl
  have hparams : (c.signature d).params.getLast? = some (Symbols.symbolOf c.cls.name last) := by
    show (d.params.map _).getLast? = _
    rw [List.getLast?_map, hlast', Option.map_some]
  have hlen : (c.signature d).params.length = d.params.length := List.length_map _
  rw [← hlen] at h ⊢
  rw [Lowering.lowerArgs_eq_map] at hr
  obtain ⟨⟨target, s⟩, σ₁, htarget, hr⟩ := LowerM.run_bind_eq_ok.1 hr
  obtain ⟨-, ht⟩ := Lowering.target_ensures hc (fun e _ ↦ e.lower_presents hc) pos name _ _ _ htarget
  have hsig : target.sig = some (c.signature d) := by rw [ht.sig, hd, Option.map_some]
  simp only [hsig] at hr
  obtain ⟨⟨xs, s'⟩, σ₂, hargs, hr⟩ := LowerM.run_bind_eq_ok.1 hr
  obtain ⟨⟨⟩, -⟩ := LowerM.run_pure_eq_ok.1 hr
  obtain ⟨elem, args, array, before, packed, hty, hxs, hcode, hpacks⟩ :=
    Lowering.argsFor_undeclared hc hvarargs hparams h pos _ _ _ hargs
  refine ⟨elem, args, array, s.code ++ before, packed, hty, ?_, hpacks, hxs, ?_⟩
  · rw [Fragment.code_append, hcode, List.append_assoc]
  · -- the parameters in front of the variadic one take an argument each
    have hpos : 0 < d.params.length := List.length_pos_of_mem (List.mem_of_getLast? hlast')
    have hdrop : (es.drop ((c.signature d).params.length - 1)).length =
        es.length - (d.params.length - 1) := by rw [List.length_drop, hlen]
    have hmany : 2 ≤ es.length - (d.params.length - 1) ↔ d.params.length < es.length := by omega
    have hne : es.drop ((c.signature d).params.length - 1) ≠ [] := by
      refine List.ne_nil_of_length_pos ?_
      rw [hdrop]
      omega
    rw [hpacks.ret_eq_iff hne, hdrop, hmany, hlen]

/-! ## Words of another class -/

/-- A word of a class that is not part of the program. -/
def importedWord (name : Text) : Expr := .call default (some (.ident default "Words")) name []

/-- A method that takes any number of words. -/
def joinWords : MethodDecl where
  pos := default
  name := "join"
  isStatic := true
  ret := { name := "int" }
  params := [{ pos := default, name := "parts", type := { name := "String", array := true, varargs := true } }]
  body := [.ret default (some (.int default "0"))]

/-- A method that joins some words. -/
def joining (name : Text) (words : List Expr) : MethodDecl where
  pos := default
  name := name
  isStatic := true
  ret := { name := "int" }
  body := [.ret default (some (.call default none "join" words))]

/-- Two words, one of them in parentheses. -/
def bothWords : List Expr := [importedWord "first", .paren default (importedWord "last")]

/-- A class that joins one word in one method and two in another. -/
def wordLists : Program where
  pos := default
  imports := [{ pos := default, path := ["lib", "Words"] }]
  cls := {
    pos := default, name := "Show"
    methods := [joinWords, joining "one" [importedWord "first"], joining "both" bothWords] }

/-- Where the words of a method that joins them stand. -/
def joiningContext (name : Text) (words : List Expr) : Context :=
  { program := wordLists, method := joining name words }

theorem importedWord_undeclared (name caller : Text) (words : List Expr) :
    (importedWord name).CallsUndeclared (joiningContext caller words) :=
  ⟨_, _, _, _, rfl, rfl⟩

/-- A step of lowering with the symbol table of a program, if it can be run to an end. -/
theorem exists_run_of_test {α : Type} {p : Program} {f : Symbols → LowerM α}
    (h : (Symbols.build p).toOption.map (fun table ↦ ((f table).run {}).1.toOption.isSome) =
      some true) : ∃ table a σ', Symbols.build p = .ok table ∧ (f table).run {} = (.ok a, σ') := by
  cases hbuild : Symbols.build p with
  | error e =>
    rw [hbuild] at h
    cases h
  | ok table =>
    rw [hbuild] at h
    replace h : some ((f table).run {}).1.toOption.isSome = some true := h
    cases hrun : (f table).run {} with
    | mk r σ' =>
      cases r with
      | error e =>
        rw [hrun] at h
        cases h
      | ok a => exact ⟨table, a, σ', rfl, hrun⟩

theorem both_words_are_packed : ∃ table r σ', Symbols.build wordLists = .ok table ∧
    (Lowering.call ((joiningContext "both" bothWords).scope table) default none "join"
      (lowerArgs ((joiningContext "both" bothWords).scope table) bothWords) .int).run {} = (.ok r, σ') ∧
    ∃ args array before packed, r.2.code = before ++ packed ∧
      Lowering.PacksCalls .string bothWords args array packed ∧
      r.1.args.getLast? = some (.var array (.array .string)) ∧ ∀ a ∈ args, a.call.ret = .string := by
  obtain ⟨table, ⟨x, f⟩, σ', hbuild, hrun⟩ := exists_run_of_test (p := wordLists)
    (f := fun table ↦ Lowering.call ((joiningContext "both" bothWords).scope table) default none "join"
      (lowerArgs ((joiningContext "both" bothWords).scope table) bothWords) .int) (by decide +kernel)
  have hundeclared : ∀ e ∈ bothWords, e.CallsUndeclared (joiningContext "both" bothWords) := by
    intro e he
    rcases List.mem_pair.1 he with rfl | rfl
    · exact importedWord_undeclared "first" "both" bothWords
    · exact importedWord_undeclared "last" "both" bothWords
  have hdecl : (calleeOf (joiningContext "both" bothWords) "join" none).decl? = some joinWords := rfl
  obtain ⟨elem, args, array, before, packed, hty, hcode, hpacks, hlast, hret⟩ :=
    variadic_calls_are_packed hbuild (by simp [joiningContext, Context.cls, wordLists]) hdecl rfl
      (by decide) hundeclared hrun
  obtain rfl : elem = .string := (Ty.array.inj hty).symm
  exact ⟨table, (x, f), σ', hbuild, hrun, args, array, before, packed, hcode, hpacks, hlast,
    hret.2 (.inr ⟨by decide, rfl⟩)⟩

/-- The code of a method that joins one word of another class. -/
def oneWordCode : List Instr := [
  .assign (.var "tmp0" .int) .int
    (.call { kind := .static, cls := "Words", method := "first", ret := .int }),
  .assign (.var "tmp1" (.array .string)) (.array .string)
    (.call { kind := .newArray, args := [.literal "1" .int], ret := .array .string }),
  .assign (.elem "tmp1" (.literal "0" .int) .string) .string (.single (.var "tmp0" .int)),
  .assign (.var "tmp2" .int) .int
    (.call { kind := .static, cls := "Show", method := "join", args := [.var "tmp1" (.array .string)],
             ret := .int }),
  .ret (.var "tmp2" .int) .int]

/-- A single word of another class is lowered as an integer, and stored as one into an array of strings. -/
theorem single_word_is_packed_as_integer : (importedWord "first").CallsUndeclared
      (joiningContext "one" [importedWord "first"]) ∧
    ∃ t c c' text, Symbols.build wordLists = .ok t ∧ (lowerProgram t (some wordLists) {}).1 = .ok c ∧
      Allocation.cls .sequential c = .ok c' ∧ Jvm.assemble c' = .ok text ∧
      (c'.method? "one").map Method.code = some oneWordCode := by
  refine ⟨importedWord_undeclared "first" "one" _, ?_⟩
  obtain ⟨t, c, c', text, hbuild, hlower, halloc, htext, hcode⟩ :=
    exists_compiled_of_test (p := wordLists) (n := {}) (s := .sequential)
    (P := fun _ c' ↦ (c'.method? "one").map Method.code == some oneWordCode) (by decide +kernel)
  exact ⟨t, c, c', text, hbuild, hlower, halloc, htext, eq_of_beq hcode⟩

end MiniJava
