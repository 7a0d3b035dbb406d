import MiniJava.Text.Basic

/-!
# White space

The white space of Unicode, and trimming a text of it at both ends.  Trimming works on lists of
signs, where `List.dropWhile` and its lemmas apply; `trim` is the same on texts.
-/

set_option autoImplicit false

namespace MiniJava.Text

/-- The characters with the property `White_Space`. -/
def isBlank (c : Char) : Bool :=
  let n := c.toNat
  (9 ≤ n && n ≤ 13) || n == 0x20 || n == 0x85 || n == 0xa0 || n == 0x1680 ||
    (0x2000 ≤ n && n ≤ 0x200a) || n == 0x2028 || n == 0x2029 || n == 0x202f || n == 0x205f ||
    n == 0x3000

/-- The sign is a blank character. -/
def isBlankSign : Sign → Bool
  | .char c => isBlank c
  | .byte _ => false

/-- Drops the blanks at the end of a list of signs. -/
def trimEndSigns (ss : List Sign) : List Sign := (ss.reverse.dropWhile isBlankSign).reverse

/-- Drops the blanks at both ends of a list of signs. -/
def trimSigns (ss : List Sign) : List Sign := trimEndSigns (ss.dropWhile isBlankSign)

/-- Drops the blanks at both ends of a text. -/
def trim (t : Text) : Text := ⟨trimSigns t.signs⟩

@[simp] theorem trimSigns_nil : trimSigns [] = [] := rfl

/-- What is left of a text after dropping the blanks at its end starts as the text does. -/
theorem trimEndSigns_isPrefix (ss : List Sign) : trimEndSigns ss <+: ss := by
  rw [trimEndSigns, ← List.reverse_suffix, List.reverse_reverse]
  exact List.dropWhile_suffix isBlankSign

end MiniJava.Text
