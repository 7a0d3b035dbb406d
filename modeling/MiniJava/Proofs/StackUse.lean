import MiniJava.Proofs.Emission

/-!
# What instructions do to the stack

How many words an instruction takes from the stack and puts there, as the machine reads it off the line
of assembly.  For most instructions that is a matter of the mnemonic.  An invocation says it in the
descriptor at its end: `invokeUse?` finds the parenthesis, counts the parameters up to the closing one
and looks at the result after it.

`use?_invokeInstr` says that the descriptors of a call are read as they were meant, and
`counted_invokeInstr` that the emitter counts as the machine does.
-/

set_option autoImplicit false

namespace MiniJava

open IR

namespace Jvm

/-- The words that an instruction takes from the stack, and those that it puts there afterwards. -/
structure StackUse where
  pops : Nat
  pushes : Nat
deriving DecidableEq, Repr

/-! ## Descriptors -/

/-- What a reader of descriptors has seen of the type it is in: nothing, the mark of an array, or the
beginning of a class name. -/
inductive Place where
  | start | array | cls
deriving DecidableEq, Repr

/-- The words of a value of a type of one letter. -/
def letterWords? (s : Sign) : Option Nat :=
  if s ∈ "BCFISZ".toList.map Sign.char then some 1
  else if s ∈ "DJ".toList.map Sign.char then some 2
  else none

/-- The words of the parameters up to the closing parenthesis, and what comes after it. -/
def readParams : Place → List Sign → Option (Nat × List Sign)
  | _, [] => none
  | .cls, s :: ss =>
    if s = .char ';' then (readParams .start ss).map fun r ↦ (r.1 + 1, r.2) else readParams .cls ss
  | .array, s :: ss =>
    if s = .char '[' then readParams .array ss
    else if s = .char 'L' then readParams .cls ss
    else (readParams .start ss).map fun r ↦ (r.1 + 1, r.2)
  | .start, s :: ss =>
    if s = .char ')' then some (0, ss)
    else if s = .char '[' then readParams .array ss
    else if s = .char 'L' then readParams .cls ss
    else do
      let words ← letterWords? s
      let r ← readParams .start ss
      return (r.1 + words, r.2)

/-- The words of a result whose descriptor begins with a sign. -/
def resultWords? (s : Sign) : Option Nat :=
  if s = .char 'V' then some 0
  else if s = .char '[' ∨ s = .char 'L' then some 1
  else letterWords? s

/-- What the line of an invocation says about the stack. -/
def invokeUse? (hasReceiver : Bool) (line : Text) : Option StackUse := do
  let (params, rest) ← readParams .start ((line.signs.dropWhile fun s ↦ s ≠ .char '(').drop 1)
  let result ← resultWords? (← rest.head?)
  return { pops := params + if hasReceiver then 1 else 0, pushes := result }

/-- What an instruction does to the stack. -/
def Instr.use? : Instr → Option StackUse
  | goto _ | ret => some ⟨0, 0⟩
  | push _ | load _ _ | new _ | getStatic _ _ => some ⟨0, 1⟩
  | store _ _ | ifZero _ _ | putStatic _ _ | pop | retValue _ => some ⟨1, 0⟩
  | neg | newArray _ | newRefArray _ | arrayLength | getField _ _ => some ⟨1, 1⟩
  | ifCompare _ _ | putField _ _ => some ⟨2, 0⟩
  | arrayLoad _ | arith _ => some ⟨2, 1⟩
  | arrayStore _ => some ⟨3, 0⟩
  | invoke how cls method params result =>
    invokeUse? how.hasReceiver (invoke how cls method params result).text

/-! ## Names -/

/-- A name that a descriptor can hold. -/
def Clean (name : Text) : Prop :=
  ∀ s ∈ name.signs, s ≠ .char '(' ∧ s ≠ .char ')' ∧ s ≠ .char ';'

instance (name : Text) : Decidable (Clean name) :=
  inferInstanceAs (Decidable (∀ s ∈ name.signs, s ≠ .char '(' ∧ s ≠ .char ')' ∧ s ≠ .char ';'))

end Jvm

/-- The class names in a type. -/
def Ty.classNames : Ty → List Text
  | array elem => elem.classNames
  | object cls _ | receiver cls => [cls]
  | absent | int | bool | void | string => []

namespace Jvm

/-- The names of classes and methods that a call and its class write into a descriptor hold no sign
that ends a part of one. -/
structure CleanNames (c : ClassDef) (x : Call) : Prop where
  super : Clean c.super
  imports : ∀ i ∈ c.imports, Clean i.path
  cls : Clean x.cls
  method : Clean x.method
  caller : ∀ name ∈ x.caller.ty.classNames, Clean name
  args : ∀ a ∈ x.args, ∀ name ∈ a.ty.classNames, Clean name

variable {c : ClassDef}

/-- What holds of a name, of the paths of all imports and of the two known classes holds of the full
name. -/
theorem resolve_of_forall {P : Text → Prop} (hi : ∀ i ∈ c.imports, P i.path)
    (hstring : P "java/lang/String") (hroot : P ClassDef.root) {name : Text} (h : P name) :
    P (c.resolve name) := by
  rw [ClassDef.resolve]
  split
  · exact h
  · split
    · rename_i i hfind
      exact hi i (List.mem_of_find?_eq_some hfind)
    · rw [ClassDef.builtin?]
      split
      · exact hstring
      · exact hroot
      · exact h

theorem clean_resolve (hi : ∀ i ∈ c.imports, Clean i.path) {name : Text} (h : Clean name) :
    Clean (c.resolve name) :=
  resolve_of_forall hi (by simp [Clean]) (by simp [Clean, ClassDef.root]) h

/-! ## Reading what was written -/

theorem readParams_cls {ss rest : List Sign} (h : ∀ s ∈ ss, s ≠ .char ';') :
    readParams .cls (ss ++ .char ';' :: rest) =
      (readParams .start rest).map fun r ↦ (r.1 + 1, r.2) := by
  induction ss with
  | nil => simp [readParams]
  | cons s ss ih =>
    rw [List.cons_append, readParams, if_neg (h s (by simp)), ih fun t ht ↦ h t (by simp [ht])]

section
variable {c : ClassDef} (hi : ∀ i ∈ c.imports, Clean i.path)
include hi

theorem readParams_className {name : Text} (h : Clean name) (rest : List Sign) :
    readParams .cls ((c.resolve name).signs ++ .char ';' :: rest) =
      (readParams .start rest).map fun r ↦ (r.1 + 1, r.2) :=
  readParams_cls fun s hs ↦ (clean_resolve hi h s hs).2.2

theorem readParams_array {t : Ty} (ht : ∀ name ∈ t.classNames, Clean name) (rest : List Sign) :
    readParams .array ((descriptor c t).signs ++ rest) =
      (readParams .start rest).map fun r ↦ (r.1 + 1, r.2) := by
  induction t with
  | absent | int | bool | void => simp [descriptor, readParams]
  | string =>
    simp only [descriptor, Text.signs_ofString]
    have hname : ∀ s ∈ "java/lang/String".toList.map Sign.char, s ≠ .char ';' := by simp
    exact readParams_cls hname
  | array elem ih =>
    simp only [descriptor, Text.signs_append, Text.signs_ofString, List.append_assoc]
    exact ih ht
  | object cls own =>
    simp only [descriptor, Text.signs_append, Text.signs_ofString, List.append_assoc]
    exact readParams_className hi (ht cls (by simp [Ty.classNames])) rest
  | receiver cls =>
    simp only [descriptor, Text.signs_append, Text.signs_ofString, List.append_assoc]
    exact readParams_className hi (ht cls (by simp [Ty.classNames])) rest

/-- The descriptor of a type with values is read as one parameter. -/
theorem readParams_descriptor {t : Ty} (hv : t.isVoid = false)
    (ht : ∀ name ∈ t.classNames, Clean name) (rest : List Sign) :
    readParams .start ((descriptor c t).signs ++ rest) =
      (readParams .start rest).map fun r ↦ (r.1 + 1, r.2) := by
  cases t with
  | absent | void => simp [Ty.isVoid] at hv
  | int | bool =>
    simp only [descriptor, Text.signs_ofString]
    cases hr : readParams .start rest <;> simp [readParams, letterWords?, hr]
  -- a name or a bracket is read as after a bracket
  | string | object _ _ | receiver _ | array _ => exact readParams_array hi ht rest

theorem readParams_join {ts : List Ty} (hv : ∀ t ∈ ts, t.isVoid = false)
    (ht : ∀ t ∈ ts, ∀ name ∈ t.classNames, Clean name) (rest : List Sign) :
    readParams .start ((Text.join (ts.map (descriptor c))).signs ++ .char ')' :: rest) =
      some (ts.length, rest) := by
  induction ts with
  | nil => simp [Text.join, readParams]
  | cons t ts ih =>
    have hjoin : (Text.join ((t :: ts).map (descriptor c))).signs =
        (descriptor c t).signs ++ (Text.join (ts.map (descriptor c))).signs := by
      simp [Text.join]
    rw [hjoin, List.append_assoc, readParams_descriptor hi (hv t (by simp)) (ht t (by simp)),
      ih (fun u hu ↦ hv u (by simp [hu])) fun u hu ↦ ht u (by simp [hu])]
    rfl

end

/-- The first sign of a descriptor tells how many words a result has. -/
theorem resultWords?_descriptor (c : ClassDef) (t : Ty) (rest : List Sign) :
    ((descriptor c t).signs ++ rest).head?.bind resultWords? =
      some (if t.isVoid then 0 else 1) := by
  cases t <;> simp [descriptor, Ty.isVoid, resultWords?, letterWords?]

/-- What comes after the first opening parenthesis. -/
theorem drop_dropWhile_paren {before after : List Sign} (h : ∀ s ∈ before, s ≠ .char '(') :
    ((before ++ .char '(' :: after).dropWhile fun s ↦ s ≠ .char '(').drop 1 = after := by
  rw [List.dropWhile_append_of_pos (by simpa using h)]
  simp

theorem mnemonic_ne_paren (how : Invocation) :
    ∀ s ∈ (how.mnemonic ++ " ").toList.map Sign.char, s ≠ .char '(' := by
  cases how <;> decide

/-- **The line of a call is read as it was meant**: the machine takes the receiver and the arguments
from the stack and leaves the result, if there is one. -/
theorem use?_invokeInstr {x : Call} (h : CleanNames c x) (hv : ∀ a ∈ x.args, a.ty.isVoid = false)
    {how : Invocation} {cls : Text} (hc : Clean cls) :
    (invokeInstr c x how cls).use? =
      some ⟨x.args.length + if how.hasReceiver then 1 else 0, if x.ret.isVoid then 0 else 1⟩ := by
  -- the line up to the parenthesis, the parameters, and the result with what may follow it
  obtain ⟨before, rest, hbefore, hline⟩ : ∃ before rest : List Sign,
      (∀ s ∈ before, s ≠ .char '(') ∧ (invokeInstr c x how cls).text.signs =
        before ++ .char '(' :: ((Text.join ((x.args.map (·.ty)).map (descriptor c))).signs ++
          .char ')' :: ((descriptor c x.ret).signs ++ rest)) := by
    have hcls : ∀ s ∈ cls.signs, s ≠ .char '(' := fun s hs ↦ (hc s hs).1
    have hmethod : ∀ s ∈ x.method.signs, s ≠ .char '(' := fun s hs ↦ (h.method s hs).1
    refine ⟨(how.mnemonic ++ " ").toList.map .char ++ (cls.signs ++ (.char '/' :: x.method.signs)),
      if how = .interface then (.char ' ' :: (toString (x.args.length + 1)).toList.map .char) else [],
      ?_, ?_⟩
    · intro s hs
      rcases List.mem_append.1 hs with hs | hs
      · exact mnemonic_ne_paren how s hs
      · rcases List.mem_append.1 hs with hs | hs
        · exact hcls s hs
        · rcases List.mem_cons.1 hs with rfl | hs
          · simp
          · exact hmethod s hs
    · cases how <;>
        simp [invokeInstr, Instr.text, Invocation.mnemonic, joinDescriptor, Function.comp_def]
  rw [invokeInstr, Instr.use?, ← invokeInstr, invokeUse?, hline, drop_dropWhile_paren hbefore,
    readParams_join h.imports (by simpa using hv) (by simpa using h.args)]
  have hresult := resultWords?_descriptor c x.ret rest
  rw [Option.bind_eq_some_iff] at hresult
  obtain ⟨s, hs, hwords⟩ := hresult
  simp [hs, hwords]

/-! ## Counting -/

/-- The emitter counts an instruction as the machine does. -/
def Counted (i : Instr) (u : StackUse) : Prop :=
  i.use? = some u ∧ i.effect = (u.pushes : Int) - u.pops

theorem counted_of_not_invoke {i : Instr} {u : StackUse} (hu : i.use? = some u)
    (hi : ∀ how cls method params result, i ≠ .invoke how cls method params result) :
    Counted i u := by
  refine ⟨hu, ?_⟩
  cases i with
  | invoke how cls method params result => exact absurd rfl (hi how cls method params result)
  | _ =>
    cases hu
    rfl

theorem descriptor_of_isVoid (c : ClassDef) {t : Ty} (h : t.isVoid = true) : descriptor c t = "V" := by
  cases t with
  | absent | void => rfl
  | _ => cases h

theorem descriptor_ne_V (c : ClassDef) (t : Ty) : (descriptor c t != "V") = !t.isVoid := by
  have hhead : (descriptor c t).signs.head? = some (.char 'V') ↔ t.isVoid = true := by
    cases t <;> simp [descriptor, Ty.isVoid]
  cases hv : t.isVoid with
  | true =>
    rw [descriptor_of_isVoid c hv]
    rfl
  | false =>
    have hd : descriptor c t ≠ "V" := by
      intro hd
      rw [hd, hv] at hhead
      exact absurd (hhead.1 rfl) Bool.false_ne_true
    simpa using hd

theorem counted_invokeInstr {x : Call} (h : CleanNames c x) (hv : ∀ a ∈ x.args, a.ty.isVoid = false)
    {how : Invocation} {cls : Text} (hc : Clean cls) :
    Counted (invokeInstr c x how cls)
      ⟨x.args.length + if how.hasReceiver then 1 else 0, if x.ret.isVoid then 0 else 1⟩ := by
  refine ⟨use?_invokeInstr h hv hc, ?_⟩
  rw [invokeInstr, Instr.effect, invokeEffect, descriptor_ne_V, List.length_map]
  cases how.hasReceiver <;> cases x.ret.isVoid <;> simp <;> omega

end Jvm

end MiniJava
