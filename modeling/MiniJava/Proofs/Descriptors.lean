import MiniJava.Proofs.StackUse

/-!
# Reading descriptors

The descriptor of a method says what its parameters and its result are.  `readMethod?` reads it from left to
right, with no look at the class that wrote it: each type is a number of brackets, and then a letter or the
full name of a class, which ends at the next semicolon.

A name may hold anything else, the letters and the brackets that other types begin with included, so it
matters that reading never looks back.  `readType?_descriptor` says that the text of a type is read as that
type whatever comes after it, and from there the parameters are read one by one (`readTypes?_join`).

Some types are written alike: the class itself and its receiver, a type that is not stated and `void`, and a
string and whatever class stands for `java/lang/String`.  `SameType` says which, and two methods have one
descriptor exactly if their types are the same in this sense, position by position
(`method_descriptors_are_read_back`).
-/

set_option autoImplicit false

namespace MiniJava

open IR

namespace Jvm

/-! ## Types as they are read -/

/-- What a descriptor says of a type that is no array. -/
inductive BaseForm where
  | int | bool | void
  | cls (name : Text)
deriving DecidableEq, Repr

/-- What a descriptor says of a type: the base of an array of some depth. -/
structure TypeForm where
  depth : Nat
  base : BaseForm
deriving DecidableEq, Repr

/-- An array of a type. -/
def TypeForm.array (f : TypeForm) : TypeForm := { f with depth := f.depth + 1 }

theorem TypeForm.array_injective {f g : TypeForm} (h : f.array = g.array) : f = g := by
  cases f
  cases g
  cases h
  rfl

/-- The base that a letter stands for. -/
def letterForm? (s : Sign) : Option BaseForm :=
  if s = .char 'I' then some .int
  else if s = .char 'Z' then some .bool
  else if s = .char 'V' then some .void
  else none

/-- The class name up to the next semicolon, and what comes after it. -/
def readName? (ss : List Sign) : Option (Text × List Sign) :=
  match ss.dropWhile fun s ↦ s ≠ .char ';' with
  | [] => none
  | _ :: rest => some (⟨ss.takeWhile fun s ↦ s ≠ .char ';'⟩, rest)

/-- The type that a text begins with, and what comes after it. -/
def readType? : List Sign → Option (TypeForm × List Sign)
  | [] => none
  | s :: ss =>
    if s = .char '[' then (readType? ss).map fun r ↦ (r.1.array, r.2)
    else if s = .char 'L' then (readName? ss).map fun r ↦ (⟨0, .cls r.1⟩, r.2)
    else (letterForm? s).map fun base ↦ (⟨0, base⟩, ss)

theorem length_le_of_readName? {ss rest : List Sign} {name : Text}
    (h : readName? ss = some (name, rest)) : rest.length ≤ ss.length := by
  rw [readName?] at h
  split at h
  · cases h
  · rename_i hdrop
    cases h
    have hsuffix := (List.dropWhile_suffix (l := ss) fun s ↦ decide (s ≠ .char ';')).length_le
    rw [hdrop, List.length_cons] at hsuffix
    omega

/-- Reading a type takes at least one sign. -/
theorem length_lt_of_readType? {ss rest : List Sign} {f : TypeForm}
    (h : readType? ss = some (f, rest)) : rest.length < ss.length := by
  induction ss generalizing f with
  | nil => cases h
  | cons s ss ih =>
    rw [readType?] at h
    rw [List.length_cons, Nat.lt_succ_iff]
    split at h
    · obtain ⟨r, hr, heq⟩ := Option.map_eq_some_iff.1 h
      cases heq
      exact Nat.le_of_lt (ih hr)
    · split at h
      · obtain ⟨r, hr, heq⟩ := Option.map_eq_some_iff.1 h
        cases heq
        exact length_le_of_readName? hr
      · obtain ⟨base, -, heq⟩ := Option.map_eq_some_iff.1 h
        cases heq
        exact Nat.le_refl _

/-- The types up to a closing parenthesis, and what comes after it. -/
def readTypes? (ss : List Sign) : Option (List TypeForm × List Sign) :=
  if ss.head? = some (.char ')') then some ([], ss.tail)
  else match h : readType? ss with
    | none => none
    | some (f, rest) =>
      have := length_lt_of_readType? h
      (readTypes? rest).map fun r ↦ (f :: r.1, r.2)
termination_by ss.length

/-- The parameters and the result that the descriptor of a method gives. -/
def readMethod? (d : Text) : Option (List TypeForm × TypeForm) :=
  if d.signs.head? = some (.char '(') then do
    let (params, rest) ← readTypes? d.signs.tail
    let (result, rest) ← readType? rest
    if rest.isEmpty then some (params, result) else none
  else none

end Jvm

/-! ## Types as they are meant -/

namespace Ty

/-- The full name of the class of a type, as a class resolves it. -/
def fullName? (c : ClassDef) : Ty → Option Text
  | object cls _ | receiver cls => some (c.resolve cls)
  | string => some "java/lang/String"
  | absent | int | bool | void | array _ => none

/-- The depth and the base of a type, as a class resolves its name. -/
def form (c : ClassDef) : Ty → Jvm.TypeForm
  | int => ⟨0, .int⟩
  | bool => ⟨0, .bool⟩
  | void | absent => ⟨0, .void⟩
  | string => ⟨0, .cls "java/lang/String"⟩
  | array elem => (elem.form c).array
  | object cls _ | receiver cls => ⟨0, .cls (c.resolve cls)⟩

end Ty

/-- **Two types that a class does not tell apart**: both without values, both of one class by its full name,
or arrays of such types. -/
inductive SameType (c : ClassDef) : Ty → Ty → Prop
  | int : SameType c .int .int
  | bool : SameType c .bool .bool
  | void {t u : Ty} (ht : t.isVoid = true) (hu : u.isVoid = true) : SameType c t u
  | cls {t u : Ty} {name : Text} (ht : t.fullName? c = some name) (hu : u.fullName? c = some name) :
      SameType c t u
  | array {t u : Ty} (h : SameType c t u) : SameType c (.array t) (.array u)

namespace Ty

variable {c : ClassDef}

theorem form_eq_void_iff {t : Ty} : t.form c = ⟨0, .void⟩ ↔ t.isVoid = true := by
  cases t <;> simp [form, isVoid, Jvm.TypeForm.array]

theorem form_eq_cls_iff {t : Ty} {name : Text} : t.form c = ⟨0, .cls name⟩ ↔ t.fullName? c = some name := by
  cases t <;> simp [form, fullName?, Jvm.TypeForm.array]

/-- The types that are not told apart are those of one form. -/
theorem form_eq_iff {t u : Ty} : t.form c = u.form c ↔ SameType c t u := by
  constructor
  · intro h
    induction t generalizing u with
    | int =>
      cases u with
      | int => exact .int
      | _ => cases h
    | bool =>
      cases u with
      | bool => exact .bool
      | _ => cases h
    | absent | void => exact .void rfl (form_eq_void_iff.1 h.symm)
    | string | object _ _ | receiver _ => exact .cls rfl (form_eq_cls_iff.1 h.symm)
    | array elem ih =>
      cases u with
      | array elem' => exact .array (ih (Jvm.TypeForm.array_injective h))
      | _ => cases h
  · intro h
    induction h with
    | int | bool => rfl
    | void ht hu => exact (form_eq_void_iff.2 ht).trans (form_eq_void_iff.2 hu).symm
    | cls ht hu => exact (form_eq_cls_iff.2 ht).trans (form_eq_cls_iff.2 hu).symm
    | array _ ih => exact congrArg Jvm.TypeForm.array ih

theorem map_form_eq_iff {ts us : List Ty} :
    ts.map (form c) = us.map (form c) ↔ List.Forall₂ (SameType c) ts us := by
  rw [← List.forall₂_eq_eq_eq, List.forall₂_map_left_iff, List.forall₂_map_right_iff]
  simp only [form_eq_iff]

end Ty

namespace Jvm

section
variable {c : ClassDef}

/-! ## Writing -/

/-- A type with a class is written by the full name of the class. -/
theorem descriptor_of_fullName? {t : Ty} {name : Text} (h : t.fullName? c = some name) :
    descriptor c t = "L" ++ name ++ ";" := by
  cases t with
  | object _ _ | receiver _ | string =>
    cases h
    rfl
  | _ => cases h

/-- Types that are not told apart are written alike. -/
theorem descriptor_eq_of_sameType {t u : Ty} (h : SameType c t u) : descriptor c t = descriptor c u := by
  induction h with
  | int | bool => rfl
  | void ht hu => rw [descriptor_of_isVoid c ht, descriptor_of_isVoid c hu]
  | cls ht hu => rw [descriptor_of_fullName? ht, descriptor_of_fullName? hu]
  | array _ ih => rw [descriptor, descriptor, ih]

theorem map_descriptor_eq_of_forall₂ {ts us : List Ty} (h : List.Forall₂ (SameType c) ts us) :
    ts.map (descriptor c) = us.map (descriptor c) := by
  rw [← List.forall₂_eq_eq_eq, List.forall₂_map_left_iff, List.forall₂_map_right_iff]
  exact h.imp fun _ _ ↦ descriptor_eq_of_sameType

end

/-! ## Reading what was written -/

/-- The class names of a type hold no semicolon. -/
def Unbroken (t : Ty) : Prop := ∀ name ∈ t.classNames, .char ';' ∉ name.signs

instance (t : Ty) : Decidable (Unbroken t) :=
  inferInstanceAs (Decidable (∀ name ∈ t.classNames, .char ';' ∉ name.signs))

/-- A class name is read up to its semicolon. -/
theorem readName?_append {name : Text} (h : .char ';' ∉ name.signs) (rest : List Sign) :
    readName? (name.signs ++ .char ';' :: rest) = some (name, rest) := by
  have hname : ∀ s ∈ name.signs, decide (s ≠ .char ';') = true := by
    intro s hs
    rw [decide_eq_true_eq]
    rintro rfl
    exact h hs
  rw [readName?, List.dropWhile_append_of_pos hname, List.takeWhile_append_of_pos hname,
    List.dropWhile_cons_of_neg (by simp), List.takeWhile_cons_of_neg (by simp), List.append_nil]

/-- The text of a class is read as its name. -/
theorem readType?_class (name : Text) (h : .char ';' ∉ name.signs) (rest : List Sign) :
    readType? (("L" ++ name ++ ";" : Text).signs ++ rest) = some (⟨0, .cls name⟩, rest) := by
  have hsigns : ("L" ++ name ++ ";" : Text).signs ++ rest =
      .char 'L' :: (name.signs ++ .char ';' :: rest) := by
    simp
  rw [hsigns, readType?, if_neg (by simp), if_pos rfl, readName?_append h]
  rfl

/-- No type begins with the parenthesis that ends the parameters. -/
theorem head?_descriptor_ne (c : ClassDef) (t : Ty) (rest : List Sign) :
    ((descriptor c t).signs ++ rest).head? ≠ some (.char ')') := by
  cases t <;> simp [descriptor]

section
variable {c : ClassDef} (hi : ∀ i ∈ c.imports, .char ';' ∉ i.path.signs)
include hi

theorem not_mem_resolve {name : Text} (h : .char ';' ∉ name.signs) : .char ';' ∉ (c.resolve name).signs :=
  resolve_of_forall (P := fun name ↦ .char ';' ∉ name.signs) hi (by decide) (by decide) h

/-- **The text of a type is read as the type**, whatever comes after it. -/
theorem readType?_descriptor {t : Ty} (ht : Unbroken t) (rest : List Sign) :
    readType? ((descriptor c t).signs ++ rest) = some (t.form c, rest) := by
  induction t with
  | absent | int | bool | void => rfl
  | string => exact readType?_class "java/lang/String" (by decide) rest
  | object cls _ | receiver cls =>
    exact readType?_class (c.resolve cls) (not_mem_resolve hi (ht cls (List.mem_singleton_self cls))) rest
  | array elem ih =>
    have hsigns : (descriptor c (.array elem)).signs ++ rest =
        .char '[' :: ((descriptor c elem).signs ++ rest) := rfl
    rw [hsigns, readType?, if_pos rfl, ih ht]
    rfl

/-- **The parameters are read one by one**, up to the parenthesis. -/
theorem readTypes?_join {ts : List Ty} (hts : ∀ t ∈ ts, Unbroken t) (rest : List Sign) :
    readTypes? ((Text.join (ts.map (descriptor c))).signs ++ .char ')' :: rest) =
      some (ts.map (Ty.form c), rest) := by
  induction ts with
  | nil =>
    have hsigns : (Text.join (([] : List Ty).map (descriptor c))).signs ++ .char ')' :: rest =
        .char ')' :: rest := rfl
    rw [hsigns, readTypes?, if_pos List.head?_cons]
    rfl
  | cons t ts ih =>
    have hsigns : (Text.join ((t :: ts).map (descriptor c))).signs ++ .char ')' :: rest =
        (descriptor c t).signs ++ ((Text.join (ts.map (descriptor c))).signs ++ .char ')' :: rest) := by
      simp [Text.join]
    have hread := readType?_descriptor hi (hts t List.mem_cons_self)
      ((Text.join (ts.map (descriptor c))).signs ++ .char ')' :: rest)
    rw [hsigns, readTypes?, if_neg (head?_descriptor_ne c t _)]
    split
    · rename_i hnone
      rw [hread] at hnone
      cases hnone
    · rename_i f ss hsome
      rw [hread] at hsome
      cases hsome
      rw [ih fun u hu ↦ hts u (List.mem_cons_of_mem t hu)]
      rfl

/-- The descriptor of a method is read as its parameters and its result. -/
theorem readMethod?_methodDescriptor {params : List Ty} {ret : Ty} (hparams : ∀ t ∈ params, Unbroken t)
    (hret : Unbroken ret) :
    readMethod? (methodDescriptor c params ret) = some (params.map (Ty.form c), ret.form c) := by
  have hsigns : (methodDescriptor c params ret).signs =
      .char '(' :: ((Text.join (params.map (descriptor c))).signs ++ .char ')' :: (descriptor c ret).signs) := by
    simp [methodDescriptor, joinDescriptor]
  have hread := readType?_descriptor hi hret []
  rw [List.append_nil] at hread
  rw [readMethod?, hsigns, if_pos List.head?_cons, List.tail_cons, readTypes?_join hi hparams]
  simp [hread]

end

/-- **Method descriptors are read back.**  Where no class name of two signatures and no import of the class
holds a semicolon, reading the descriptor from left to right gives each parameter with its depth and its
letter or full class name, and the result.  So two signatures have the same descriptor exactly if they have
as many parameters, and the parameters and the results are the same types by full names. -/
theorem method_descriptors_are_read_back {c : ClassDef} (hi : ∀ i ∈ c.imports, .char ';' ∉ i.path.signs)
    {params params' : List Ty} {ret ret' : Ty} (h : ∀ t ∈ ret :: params, Unbroken t)
    (h' : ∀ t ∈ ret' :: params', Unbroken t) :
    readMethod? (methodDescriptor c params ret) = some (params.map (Ty.form c), ret.form c) ∧
      (methodDescriptor c params ret = methodDescriptor c params' ret' ↔
        List.Forall₂ (SameType c) params params' ∧ SameType c ret ret') := by
  obtain ⟨hret, hparams⟩ := List.forall_mem_cons.1 h
  obtain ⟨hret', hparams'⟩ := List.forall_mem_cons.1 h'
  have hread := readMethod?_methodDescriptor hi hparams hret
  refine ⟨hread, ?_, ?_⟩
  · intro heq
    rw [heq, readMethod?_methodDescriptor hi hparams' hret'] at hread
    obtain ⟨hforms, hform⟩ := Prod.mk.inj (Option.some.inj hread)
    exact ⟨Ty.map_form_eq_iff.1 hforms.symm, Ty.form_eq_iff.1 hform.symm⟩
  · rintro ⟨hsame, hresult⟩
    rw [methodDescriptor, methodDescriptor, map_descriptor_eq_of_forall₂ hsame,
      descriptor_eq_of_sameType hresult]

/-- A class that imports another one from a path full of the signs that types begin and end with. -/
def oddly : ClassDef where
  name := "Oddly"
  imports := [{ name := "Odd", path := "lib/[LOdd)V" }]

/-- Two ways to write one signature. -/
theorem oddly_descriptors_are_read_back :
    (∀ i ∈ oddly.imports, .char ';' ∉ i.path.signs) ∧
    (∀ t ∈ [Ty.string, .array (.array (.object "Odd" false)), .receiver "Oddly", .absent], Unbroken t) ∧
    (∀ t ∈ [Ty.object "java/lang/String" false, .array (.array (.object "lib/[LOdd)V" false)),
      .object "Oddly" true, .void], Unbroken t) ∧
    readMethod? (methodDescriptor oddly
      [.array (.array (.object "Odd" false)), .receiver "Oddly", .absent] .string) =
        some ([⟨2, .cls "lib/[LOdd)V"⟩, ⟨0, .cls "Oddly"⟩, ⟨0, .void⟩], ⟨0, .cls "java/lang/String"⟩) ∧
    methodDescriptor oddly [.array (.array (.object "Odd" false)), .receiver "Oddly", .absent] .string =
      methodDescriptor oddly [.array (.array (.object "lib/[LOdd)V" false)), .object "Oddly" true, .void]
        (.object "java/lang/String" false) := by
  have hi : ∀ i ∈ oddly.imports, .char ';' ∉ i.path.signs := by decide
  have h : ∀ t ∈ [Ty.string, .array (.array (.object "Odd" false)), .receiver "Oddly", .absent],
    Unbroken t := by decide
  have h' : ∀ t ∈ [Ty.object "java/lang/String" false, .array (.array (.object "lib/[LOdd)V" false)),
    .object "Oddly" true, .void], Unbroken t := by decide
  obtain ⟨hread, hsame⟩ := method_descriptors_are_read_back hi h h'
  refine ⟨hi, h, h', hread, hsame.2 ⟨?_, .cls rfl (by decide)⟩⟩
  exact .cons (.array (.array (.cls rfl (by decide)))) <| .cons (.cls rfl rfl) <|
    .cons (.void rfl rfl) .nil

end Jvm

end MiniJava
