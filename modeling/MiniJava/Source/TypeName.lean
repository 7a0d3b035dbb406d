import MiniJava.Text.Blank

/-!
# Type names

A type as a declaration writes it: a name, followed by `[]` for an array and by `...` for the
variadic parameter, which is an array too.  Blanks around the name and around the text count for
nothing, and the empty text is the name `void`.

Only one suffix belongs to the type name: in `int[][]` the array mark is the last `[]` and the name
is `int[]`.
-/

set_option autoImplicit false

namespace MiniJava

/-- A type as written. -/
structure TypeName where
  name : Text
  array : Bool := false
  varargs : Bool := false
deriving DecidableEq, Repr, Inhabited

namespace TypeName

/-- The type as written, without blanks. -/
def text (t : TypeName) : Text :=
  if t.varargs then t.name ++ "..."
  else if t.array then t.name ++ "[]"
  else t.name

/-- The signs before a suffix, if a list of signs ends in it. -/
def dropSuffix? (suffix ss : List Sign) : Option (List Sign) :=
  if suffix.isSuffixOf ss then some (ss.take (ss.length - suffix.length)) else none

/-- The mark of an array. -/
def arrayMark : List Sign := [.char '[', .char ']']

/-- The mark of a variadic parameter. -/
def varargsMark : List Sign := [.char '.', .char '.', .char '.']

/-- The type that a list of signs, trimmed of blanks, writes. -/
def ofTrimmed (ss : List Sign) : TypeName :=
  match dropSuffix? varargsMark ss with
  | some base => ⟨⟨Text.trimSigns base⟩, true, true⟩
  | none =>
    match dropSuffix? arrayMark ss with
    | some base => ⟨⟨Text.trimSigns base⟩, true, false⟩
    | none => if ss.isEmpty then ⟨"void", false, false⟩ else ⟨⟨ss⟩, false, false⟩

/-- The type that a text writes. -/
def parse (t : Text) : TypeName := ofTrimmed (Text.trimSigns t.signs)

/-- A text ends in a suffix exactly if it is the text before the suffix followed by it. -/
theorem dropSuffix?_eq_some_iff {suffix ss base : List Sign} :
    dropSuffix? suffix ss = some base ↔ ss = base ++ suffix := by
  constructor
  · intro h
    rw [dropSuffix?] at h
    split at h
    · rename_i hs
      obtain ⟨t, rfl⟩ := List.isSuffixOf_iff_suffix.mp hs
      simp at h
      simp [h]
    · simp at h
  · rintro rfl
    have hs : suffix.isSuffixOf (base ++ suffix) = true :=
      List.isSuffixOf_iff_suffix.mpr ⟨base, rfl⟩
    simp [dropSuffix?, hs]

/-- A variadic type is an array. -/
theorem array_of_varargs_parse (t : Text) (h : (parse t).varargs = true) :
    (parse t).array = true := by
  rw [parse, ofTrimmed] at h ⊢
  split
  · rfl
  · rename_i hvarargs
    simp only [hvarargs] at h
    split
    · rfl
    · rename_i harray
      simp only [harray] at h
      split at h <;> cases h

end TypeName

end MiniJava
