import Mathlib.Data.List.Nodup
import MiniJava.Proofs.Outcome
import MiniJava.Yaml.Value

/-!
# Records, written and read

Texts and booleans are written as scalars of the tags `!!str` and `!!bool`, and a record as a mapping
from the names of its fields.  Reading gives back what was written: `readString_ofText`,
`readBool_ofBool` and, for records, `record?_toNode`.

No aliases stand in what is written, so that the count of nodes never ends the reading.  The
entries of a record are read one by one; the invariant is that no alias was followed and no key is
taken, and that the fields of the entries still to come are not set yet.
-/

set_option autoImplicit false

namespace MiniJava.Yaml

open ReadM

/-! ## Scalars -/

namespace Node

/-- A text as a node. -/
def ofText (pos : Position) (t : Text) : Node := .scalar ⟨pos, "!!str"⟩ t

/-- A boolean as a node. -/
def ofBool (pos : Position) (b : Bool) : Node :=
  .scalar ⟨pos, "!!bool"⟩ (if b then "true" else "false" : String)

@[simp] theorem text_ofText (pos : Position) (t : Text) : (ofText pos t).text = t := rfl

end Node

variable {p : Progress} {field : String} {v : FieldValue}

/-- Counting never fails before an alias is followed. -/
theorem run_countNode (h : p.aliased = 0) (pos : Position) :
    (countNode false pos).run p = .ok ((), { p with steps := p.steps + 1 }) := by
  simp [countNode, Progress.isExcessive, h]
  rfl

theorem scalarKey_text (pos : Position) (t : Text) :
    scalarKey ⟨pos, "!!str"⟩ t = pure (.text t) := by
  simp [scalarKey, checkedTags]

theorem scalarKey_bool (pos : Position) (b : Bool) :
    scalarKey ⟨pos, "!!bool"⟩ (if b then "true" else "false" : String) =
      pure (.plain (.bool b)) := by
  cases b <;> simp [scalarKey, checkedTags, taggedPlain?, plain?, nulls, trues, falses, Plain.tag]

theorem readString_ofText (h : p.aliased = 0) (pos : Position) (t : Text) :
    ((Node.ofText pos t).readString false).run p = .ok (some t, { p with steps := p.steps + 1 }) := by
  rw [Node.ofText, Node.readString, StateT.run_bind, run_countNode h, scalarKey_text]
  rfl

theorem readBool_ofBool (h : p.aliased = 0) (pos : Position) (b : Bool) :
    ((Node.ofBool pos b).readBool false).run p = .ok (some b, { p with steps := p.steps + 1 }) := by
  rw [Node.ofBool, Node.readBool, StateT.run_bind, run_countNode h, scalarKey_bool]
  rfl

/-! ## Fields -/

/-- The value of a field as a node. -/
def FieldValue.toNode (pos : Position) : FieldValue → Node
  | .text t => .ofText pos t
  | .flag b => .ofBool pos b

/-- The records of a kind can have the value in the field. -/
def Schema.Admits (s : Schema) (field : String) : FieldValue → Prop
  | .text _ => field ∈ s.texts
  | .flag _ => field ∉ s.texts ∧ field ∈ s.flags

theorem Schema.Admits.field? {s : Schema} (h : s.Admits field v) :
    s.field? (.text field) = some field := by
  have hfield : field ∈ s.texts ∨ field ∈ s.flags := by
    cases v with
    | text t => exact .inl h
    | flag b => exact .inr h.2
  simpa [Schema.field?, Option.filter_eq_some_iff] using hfield

/-- A field that is written is set. -/
theorem readField_toNode (hp : p.aliased = 0) {s : Schema} (h : s.Admits field v) (pos : Position) :
    (readField false s field (v.toNode pos)).run p =
      .ok ((), { p with steps := p.steps + 1, fields := (field, v) :: p.fields }) := by
  cases v with
  | text t =>
    have hfield : s.texts.contains field = true := List.contains_iff_mem.2 h
    rw [readField, if_pos hfield, FieldValue.toNode, StateT.run_bind,
      readString_ofText hp]
    rfl
  | flag b =>
    have hfield : ¬ s.texts.contains field = true := fun hc ↦ h.1 (List.contains_iff_mem.1 hc)
    rw [readField, if_neg hfield, FieldValue.toNode, StateT.run_bind,
      readBool_ofBool hp]
    rfl

/-! ## Records -/

/-- The entries that set fields. -/
def fieldEntries (pos : Position) (values : List (String × FieldValue)) : List (Node × Node) :=
  values.map fun f ↦ (.ofText pos f.1, f.2.toNode pos)

/-- A record as a node. -/
def Record.toNode (pos : Position) (r : Record) : Node :=
  .mapping ⟨pos, "!!map"⟩ (fieldEntries pos r.fields)

variable {s : Schema} {values : List (String × FieldValue)}

/-- Different fields have different keys. -/
theorem duplicateKeys_fieldEntries (pos : Position) (h : (values.map Prod.fst).Nodup) :
    duplicateKeys ((fieldEntries pos values).map Prod.fst) = [] := by
  induction values with
  | nil => rfl
  | cons f rest ih =>
    obtain ⟨hf, hrest⟩ := List.nodup_cons.1 h
    have hnone : ((fieldEntries pos rest).map Prod.fst).filter (Node.ofText pos f.1).sameKey = [] := by
      rw [List.filter_eq_nil_iff]
      intro n hn hsame
      obtain ⟨g, hg, rfl⟩ : ∃ g ∈ rest, Node.ofText pos g.1 = n := by
        simpa [fieldEntries] using hn
      have heq : f.1 = g.1 := Text.ofString_injective (eq_of_beq hsame)
      exact hf (heq ▸ List.mem_map_of_mem hg)
    have ih := ih hrest
    simp only [fieldEntries, List.map_cons, duplicateKeys] at hnone ih ⊢
    rw [hnone, ih]
    rfl

theorem readInclusion_fieldEntries (inside : Bool) (target : Target) (pos : Position) :
    readInclusion inside target (fieldEntries pos values) = none := by
  induction values with
  | nil => rfl
  | cons f rest ih =>
    simp only [fieldEntries, List.map_cons, readInclusion] at ih ⊢
    rw [ih]
    simp [isInclusion, Node.ofText]

/-- An entry that sets a field is read, and then those after it. -/
theorem readEntries_field (hvalue : s.Admits field v) {done : List String} (hnew : field ∉ done)
    (hp : p.aliased = 0) (pos : Position) (rest : List (Node × Node)) :
    (readEntries false (.record s) ((.ofText pos field, v.toNode pos) :: rest) done none).run p =
      (readEntries false (.record s) rest (field :: done) none).run
        { p with steps := p.steps + 1 + 1, fields := (field, v) :: p.fields } := by
  have hincludes : isInclusion (.ofText pos field) = false := by simp [isInclusion, Node.ofText]
  have hcontains : done.contains field = false := by simpa using hnew
  have hfield : (readField false s field (v.toNode pos)).run { p with steps := p.steps + 1 } =
      .ok ((), { p with steps := p.steps + 1 + 1, fields := (field, v) :: p.fields }) := by
    refine readField_toNode ?_ hvalue pos
    exact hp
  simp only [readEntries, hincludes, Target.namesKeys, StateT.run_bind, readString_ofText hp, isTaken,
    hvalue.field?, hcontains, hfield, Except.ok_bind, pure_bind, Option.map_some, Option.map_none,
    Option.any_none, Bool.and_false, Bool.false_eq_true, if_true, if_false]

/-- Entries that set fields are read one by one. -/
theorem readEntries_fieldEntries (pos : Position) (hkeys : (values.map Prod.fst).Nodup)
    (hvalues : ∀ f ∈ values, s.Admits f.1 f.2) {done : List String} (hdone : ∀ f ∈ values, f.1 ∉ done)
    (hp : p.aliased = 0) :
    ∃ steps, (readEntries false (.record s) (fieldEntries pos values) done none).run p =
      .ok (none, { p with steps, fields := values.reverse ++ p.fields }) := by
  induction values generalizing done p with
  | nil => exact ⟨p.steps, rfl⟩
  | cons f rest ih =>
    obtain ⟨hf, hrest⟩ := List.nodup_cons.1 hkeys
    obtain ⟨hvalue, hvalues⟩ := List.forall_mem_cons.1 hvalues
    obtain ⟨hnew, hdone⟩ := List.forall_mem_cons.1 hdone
    have hdone' : ∀ g ∈ rest, g.1 ∉ f.1 :: done := by
      intro g hg hmem
      rcases List.mem_cons.1 hmem with heq | hmem
      · exact hf (heq ▸ List.mem_map_of_mem hg)
      · exact hdone g hg hmem
    rw [fieldEntries, List.map_cons, readEntries_field hvalue hnew hp, List.reverse_cons,
      List.append_assoc]
    exact ih hrest hvalues hdone' hp

/-- **A record that is written is read again**, the last field first. -/
theorem record?_toNode (pos : Position) {r : Record} (hkeys : (r.fields.map Prod.fst).Nodup)
    (hvalues : ∀ f ∈ r.fields, s.Admits f.1 f.2) :
    (r.toNode pos).record? s = .ok (⟨r.fields.reverse⟩, []) := by
  have hdone : ∀ f ∈ r.fields, f.1 ∉ ([] : List String) := fun _ _ ↦ List.not_mem_nil
  obtain ⟨steps, hentries⟩ :=
    readEntries_fieldEntries pos hkeys hvalues hdone (p := { steps := 1 }) rfl
  have hdup : (reportDuplicates (fieldEntries pos r.fields)).run { steps := 1 } =
      .ok (false, { steps := 1 }) := by
    rw [reportDuplicates, duplicateKeys_fieldEntries pos hkeys]
    rfl
  have hread : (Node.readRecord s false (r.toNode pos)).run {} =
      .ok ((), { steps, fields := r.fields.reverse }) := by
    rw [Record.toNode, Node.readRecord, StateT.run_bind, run_countNode rfl, Except.ok_bind, StateT.run_bind,
      hdup, Except.ok_bind, readInclusion_fieldEntries]
    show ((readEntries false (.record s) (fieldEntries pos r.fields) [] none).run { steps := 1 } >>=
      fun a ↦ .ok ((), { a.2 with taken := a.1 })) = _
    rw [hentries, Except.ok_bind, List.append_nil]
  rw [Node.record?, ReadM.outcome, StateT.run_bind, hread]
  rfl

end MiniJava.Yaml
