import MiniJava.Source.TypeName

/-!
# Type names and their texts

A type name is read from a text by trimming it, taking at most one mark off its end and trimming what is left.
The name may look like a marked one itself: it may be empty, or end in dots, brackets or a part of them.

`TypeName.IsRead` says which type names are read from some text, and these are exactly the ones that are read
back from the text that they are shown as (`parse_text_eq_self_iff`).  A trimmed name stays trimmed under a
mark, the mark that was put on is the one that is found, whatever the name ends in, and a name without a mark
is one in which none was found.
-/

set_option autoImplicit false

namespace MiniJava

namespace Text

/-! ## Trimmed texts -/

/-- No blank stands at either end. -/
structure IsTrimmed (ss : List Sign) : Prop where
  first : ∀ s, ss.head? = some s → isBlankSign s = false
  last : ∀ s, ss.getLast? = some s → isBlankSign s = false

variable {ss : List Sign}

theorem isBlankSign_of_head?_dropWhile {s : Sign} (h : (ss.dropWhile isBlankSign).head? = some s) :
    isBlankSign s = false := by
  have hfirst := List.head?_dropWhile_not isBlankSign ss
  rwa [h] at hfirst

theorem dropWhile_isBlankSign_eq (h : ∀ s, ss.head? = some s → isBlankSign s = false) :
    ss.dropWhile isBlankSign = ss := by
  cases ss with
  | nil => rfl
  | cons s ss => exact List.dropWhile_cons_of_neg (by simp [h s rfl])

theorem isTrimmed_trimSigns (ss : List Sign) : IsTrimmed (trimSigns ss) where
  first s hs := by
    obtain ⟨rest, hrest⟩ := trimEndSigns_isPrefix (ss.dropWhile isBlankSign)
    have hfirst : (ss.dropWhile isBlankSign).head? = some s := by
      rw [← hrest, List.head?_append, Option.or_eq_some_iff]
      exact .inl hs
    exact isBlankSign_of_head?_dropWhile hfirst
  last s hs := by
    rw [trimSigns, trimEndSigns, List.getLast?_reverse] at hs
    exact isBlankSign_of_head?_dropWhile hs

/-- Trimming leaves a trimmed text as it is. -/
theorem IsTrimmed.trimSigns_eq (h : IsTrimmed ss) : trimSigns ss = ss := by
  have hend : ss.reverse.dropWhile isBlankSign = ss.reverse := by
    refine dropWhile_isBlankSign_eq fun s hs ↦ h.last s ?_
    rwa [List.head?_reverse] at hs
  rw [trimSigns, dropWhile_isBlankSign_eq h.first, trimEndSigns, hend, List.reverse_reverse]

/-- A mark without blanks keeps a text trimmed. -/
theorem IsTrimmed.append {ss mark : List Sign} (h : IsTrimmed ss) (hmark : IsTrimmed mark) :
    IsTrimmed (ss ++ mark) where
  first s hs := by
    rw [List.head?_append, Option.or_eq_some_iff] at hs
    obtain hs | ⟨-, hs⟩ := hs
    · exact h.first s hs
    · exact hmark.first s hs
  last s hs := by
    rw [List.getLast?_append, Option.or_eq_some_iff] at hs
    obtain hs | ⟨-, hs⟩ := hs
    · exact hmark.last s hs
    · exact h.last s hs

end Text

namespace TypeName

open Text

/-! ## Marks -/

theorem isTrimmed_varargsMark : IsTrimmed varargsMark where
  first s hs := by
    cases hs
    rfl
  last s hs := by
    cases hs
    rfl

theorem isTrimmed_arrayMark : IsTrimmed arrayMark where
  first s hs := by
    cases hs
    rfl
  last s hs := by
    cases hs
    rfl

/-- A text does not end in both marks. -/
theorem dropSuffix?_varargsMark_append_arrayMark (ss : List Sign) :
    dropSuffix? varargsMark (ss ++ arrayMark) = none := by
  rw [Option.eq_none_iff_forall_ne_some]
  intro base hbase
  have hlast := congrArg List.getLast? (dropSuffix?_eq_some_iff.1 hbase)
  rw [List.getLast?_append, List.getLast?_append] at hlast
  cases hlast

/-! The three ways to read a trimmed text. -/

theorem ofTrimmed_append_varargsMark (ss : List Sign) :
    ofTrimmed (ss ++ varargsMark) = ⟨⟨trimSigns ss⟩, true, true⟩ := by
  rw [ofTrimmed, dropSuffix?_eq_some_iff.2 rfl]

theorem ofTrimmed_append_arrayMark (ss : List Sign) :
    ofTrimmed (ss ++ arrayMark) = ⟨⟨trimSigns ss⟩, true, false⟩ := by
  rw [ofTrimmed, dropSuffix?_varargsMark_append_arrayMark, dropSuffix?_eq_some_iff.2 rfl]

theorem ofTrimmed_plain {ss : List Sign} (hne : ss ≠ []) (hvarargs : dropSuffix? varargsMark ss = none)
    (harray : dropSuffix? arrayMark ss = none) : ofTrimmed ss = ⟨⟨ss⟩, false, false⟩ := by
  rw [ofTrimmed, hvarargs, harray, if_neg (by simpa using hne)]

/-! ## Type names that are read -/

/-- **The type names that texts write.**  The name is trimmed, a variadic type is an array, and a name that is
no array is not empty and ends in no mark. -/
structure IsRead (t : TypeName) : Prop where
  trimmed : IsTrimmed t.name.signs
  array : t.varargs = true → t.array = true
  plain : t.array = false → t.name.signs ≠ [] ∧ dropSuffix? varargsMark t.name.signs = none ∧
    dropSuffix? arrayMark t.name.signs = none

/-- Every text writes such a type name. -/
theorem isRead_parse (s : Text) : (parse s).IsRead := by
  suffices h : IsTrimmed (parse s).name.signs ∧ ((parse s).array = false →
      (parse s).name.signs ≠ [] ∧ dropSuffix? varargsMark (parse s).name.signs = none ∧
        dropSuffix? arrayMark (parse s).name.signs = none) from
    ⟨h.1, array_of_varargs_parse s, h.2⟩
  rw [parse, ofTrimmed]
  split
  · exact ⟨isTrimmed_trimSigns _, by simp⟩
  · rename_i hvarargs
    split
    · exact ⟨isTrimmed_trimSigns _, by simp⟩
    · rename_i harray
      split
      · -- the empty text stands for a name that no mark follows
        exact ⟨⟨by simp [isBlankSign, isBlank], by simp [isBlankSign, isBlank]⟩, fun _ ↦ by decide⟩
      · rename_i hne
        exact ⟨isTrimmed_trimSigns _, fun _ ↦ ⟨by simpa using hne, hvarargs, harray⟩⟩

/-- A type name that is read from some text is read from the text that it is shown as. -/
theorem IsRead.parse_text {t : TypeName} (h : t.IsRead) : parse t.text = t := by
  obtain ⟨name, array, varargs⟩ := t
  have hname : trimSigns name.signs = name.signs := h.trimmed.trimSigns_eq
  cases varargs with
  | true =>
    obtain rfl : array = true := h.array rfl
    have htext : parse (TypeName.text ⟨name, true, true⟩) =
      ofTrimmed (trimSigns (name.signs ++ varargsMark)) := rfl
    rw [htext, (h.trimmed.append isTrimmed_varargsMark).trimSigns_eq, ofTrimmed_append_varargsMark, hname]
  | false =>
    cases array with
    | true =>
      have htext : parse (TypeName.text ⟨name, true, false⟩) =
        ofTrimmed (trimSigns (name.signs ++ arrayMark)) := rfl
      rw [htext, (h.trimmed.append isTrimmed_arrayMark).trimSigns_eq, ofTrimmed_append_arrayMark, hname]
    | false =>
      obtain ⟨hne, hvarargs, harray⟩ := h.plain rfl
      have htext : parse (TypeName.text ⟨name, false, false⟩) = ofTrimmed (trimSigns name.signs) := rfl
      rw [htext, hname, ofTrimmed_plain hne hvarargs harray]

/-- The type names that are read back from their texts are those that are read from some text. -/
theorem parse_text_eq_self_iff {t : TypeName} : parse t.text = t ↔ t.IsRead :=
  ⟨fun h ↦ h ▸ isRead_parse t.text, IsRead.parse_text⟩

/-- **Type names survive their texts.**  What is read from a text, whatever blanks and marks it has, is read
again from the text that it is shown as, and a variadic type is an array. -/
theorem type_names_survive_their_texts (s : Text) :
    parse (parse s).text = parse s ∧ ((parse s).varargs = true → (parse s).array = true) :=
  ⟨(isRead_parse s).parse_text, (isRead_parse s).array⟩

/-- A variadic type whose name is made of dots. -/
theorem dotted_type_name_survives_its_text :
    (parse " ..... ... ").varargs = true ∧ (parse " ..... ... ").name = "....." ∧
      parse (parse " ..... ... ").text = parse " ..... ... " ∧ (parse " ..... ... ").array = true := by
  have hvarargs : (parse " ..... ... ").varargs = true := by decide
  obtain ⟨htext, harray⟩ := type_names_survive_their_texts " ..... ... "
  exact ⟨hvarargs, by decide, htext, harray hvarargs⟩

end TypeName

end MiniJava
