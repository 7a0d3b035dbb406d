import MiniJava.Proofs.Aliases
import MiniJava.Proofs.WrittenPrograms

/-!
# Programs with aliases

Is a document with aliases the program that it is without them?  The readers of a program look at a
node in three ways.

* Where a mapping, a list or a scalar is wanted, an alias is refused.
* Declared variables, imports and the literals of booleans are read as values, and there aliases are
  followed (`Yaml.Node.record?_expand`, `Yaml.Node.bool?_expand`).
* The text of an integer, of a name and of a class, and the key of any part, is the text of a node.  For
  an alias that is the name of its anchor, and not the text that the anchor stands at.

So only the last ones are misread.  `Yaml.Node.isFaithful` says of a document that no such text changes
when aliases are replaced; then the program does not change either, but for the places of variables.
-/

set_option autoImplicit false

namespace MiniJava

open Yaml (Node Head Record)

/-! ## Texts that are looked at -/

namespace Reading

/-- The keys that have a meaning somewhere in a program, those of records apart. -/
def words : List String :=
  ["int", "bool", "ident", "this", "paren", "binary", "unary", "call", "new", "new_array", "array",
   "index", "length", "block", "if", "while", "expr", "assign", "index_assign", "return",
   "op", "left", "right", "x", "name", "recv", "args", "type", "size", "value", "cond", "then", "else",
   "body", "public", "static", "ret", "params", "locals", "methods", "extends", "fields", "imports",
   "class"]

/-- The keys of lists of records. -/
def recordWords : List String := ["params", "locals", "fields", "imports"]

/-- The forms of expressions that consist of a text. -/
def textForms : List String := ["int", "ident", "new"]

end Reading

namespace Yaml.Node

/-- The text of the node is one of some words. -/
def isOneOf (ws : List String) (n : Node) : Bool := ws.any fun w ↦ n.text == (w : Text)

/-- Expanding the node does not change its text. -/
def keepsText (n : Node) : Bool := n.expand.text == n.text

/-- Expanding the key does not change its text, or it means nothing before and after. -/
def keepsWord (k : Node) : Bool :=
  k.keepsText || !(k.isOneOf Reading.words || k.expand.isOneOf Reading.words)

/-- Expanding the only entry of a mapping does not change the text that an expression consists of. -/
def keepsTextForm : List (Node × Node) → Bool
  | [(k, v)] => !k.isOneOf Reading.textForms || v.keepsText
  | _ => true

mutual

/-- No text that a program is read from changes when the node is expanded. -/
def isFaithful : Node → Bool
  | sequence _ items => areFaithful items
  | mapping _ entries => keepsTextForm entries && entriesAreFaithful entries
  | _ => true
termination_by structural n => n

/-- The same of every item. -/
def areFaithful : List Node → Bool
  | [] => true
  | n :: rest => isFaithful n && areFaithful rest
termination_by structural ns => ns

/-- The same of every key and of every value under a word.  Records are read by their values, and of
them less is asked. -/
def entriesAreFaithful : List (Node × Node) → Bool
  | [] => true
  | (k, v) :: rest =>
    k.keepsWord &&
      (if k.isOneOf Reading.recordWords then v.everywhere keepsKeys
        else !k.isOneOf Reading.words || isFaithful v) &&
      entriesAreFaithful rest
termination_by structural es => es

end

theorem areFaithful_iff {items : List Node} :
    areFaithful items = true ↔ ∀ n ∈ items, n.isFaithful = true := by
  induction items with
  | nil => simp [areFaithful]
  | cons n rest ih => rw [areFaithful, Bool.and_eq_true, ih, List.forall_mem_cons]

theorem entriesAreFaithful_iff {entries : List (Node × Node)} :
    entriesAreFaithful entries = true ↔ ∀ e ∈ entries, e.1.keepsWord = true ∧
      (if e.1.isOneOf Reading.recordWords then e.2.everywhere keepsKeys
        else !e.1.isOneOf Reading.words || e.2.isFaithful) = true := by
  induction entries with
  | nil => simp [entriesAreFaithful]
  | cons e rest ih =>
    rw [entriesAreFaithful, Bool.and_eq_true, Bool.and_eq_true, ih, List.forall_mem_cons]

theorem isOneOf_iff {ws : List String} {n : Node} {w : String} (h : n.text = w) :
    n.isOneOf ws = true ↔ w ∈ ws := by
  rw [isOneOf, List.any_eq_true, h]
  constructor
  · rintro ⟨w', hw', heq⟩
    rwa [Text.ofString_injective (eq_of_beq heq)]
  · exact fun hw ↦ ⟨w, hw, beq_self_eq_true _⟩

theorem text_expand_of_isOneOf {k : Node} (hk : k.keepsWord = true)
    (h : k.isOneOf Reading.words = true ∨ k.expand.isOneOf Reading.words = true) :
    k.expand.text = k.text := by
  rw [keepsWord, Bool.or_eq_true, Bool.not_eq_true', Bool.or_eq_false_iff] at hk
  rcases hk with hk | ⟨hk, hk'⟩
  · exact eq_of_beq hk
  · rcases h with h | h
    · rw [hk] at h
      cases h
    · rw [hk'] at h
      cases h

/-- A key that is faithful is the same word before and after. -/
theorem text_expand_eq_iff {k : Node} (hk : k.keepsWord = true) {w : String}
    (hw : w ∈ Reading.words) : k.expand.text = w ↔ k.text = w := by
  constructor
  · intro h
    rw [← text_expand_of_isOneOf hk (.inr ((isOneOf_iff h).2 hw)), h]
  · intro h
    rw [text_expand_of_isOneOf hk (.inl ((isOneOf_iff h).2 hw)), h]

end Yaml.Node

/-! ## What succeeds with aliases -/

/-- If the first computation succeeds then so does the second one, with a related result. -/
def Carries {α β : Type} (R : α → β → Prop) (x : Except Error α) (y : Except Error β) : Prop :=
  ∀ a, x = .ok a → ∃ b, y = .ok b ∧ R a b

section
variable {α β γ δ : Type} {R : α → β → Prop} {S : γ → δ → Prop} {x : Except Error α}
  {y : Except Error β}

theorem carries_refl (x : Except Error α) : Carries Eq x x := fun a h ↦ ⟨a, h, rfl⟩

/-- That the first computation succeeds can be used. -/
theorem Carries.of_ok (h : ∀ a, x = .ok a → Carries R x y) : Carries R x y :=
  fun a ha ↦ h a ha a ha

theorem carries_ok {a : α} {b : β} (h : R a b) : Carries R (.ok a) (.ok b) := by
  rintro _ ⟨⟩
  exact ⟨b, rfl, h⟩

theorem carries_error (e : Error) : Carries R (.error e) y := by
  rintro _ ⟨⟩

theorem Carries.bind {f : α → Except Error γ} {g : β → Except Error δ} (h : Carries R x y)
    (hfg : ∀ a b, R a b → Carries S (f a) (g b)) : Carries S (x >>= f) (y >>= g) := by
  intro c hc
  obtain ⟨a, hx, hf⟩ := Except.bind_eq_ok.1 hc
  obtain ⟨b, hy, hab⟩ := h a hx
  obtain ⟨d, hg, hcd⟩ := hfg a b hab c hf
  exact ⟨d, Except.bind_eq_ok.2 ⟨b, hy, hg⟩, hcd⟩

theorem Carries.bind_eq {y : Except Error α} {f : α → Except Error γ} {g : α → Except Error δ}
    (h : Carries Eq x y) (hfg : ∀ a, Carries S (f a) (g a)) : Carries S (x >>= f) (y >>= g) := by
  refine h.bind fun a b hab ↦ ?_
  rw [← hab]
  exact hfg a

theorem Carries.withinPlace (h : Carries R x y) (place : String) :
    Carries R (MiniJava.withinPlace place x) (MiniJava.withinPlace place y) := by
  intro a ha
  obtain ⟨b, hb, hab⟩ := h a (withinPlace_eq_ok.1 ha)
  exact ⟨b, withinPlace_eq_ok.2 hb, hab⟩

theorem Carries.mono {R' : α → β → Prop} (h : Carries R x y) (hr : ∀ a b, R a b → R' a b) :
    Carries R' x y := by
  intro a ha
  obtain ⟨b, hb, hab⟩ := h a ha
  exact ⟨b, hb, hr a b hab⟩

theorem Carries.mapM {xs : List γ} {f : γ → Except Error α} {g : δ → Except Error β} {u : γ → δ}
    (h : ∀ c ∈ xs, Carries R (f c) (g (u c))) :
    Carries (List.Forall₂ R) (xs.mapM f) ((xs.map u).mapM g) := by
  induction xs with
  | nil => exact carries_ok .nil
  | cons c rest ih =>
    obtain ⟨hc, hrest⟩ := List.forall_mem_cons.1 h
    rw [List.map_cons, List.mapM_cons, List.mapM_cons]
    exact hc.bind fun _ _ hab ↦ (ih hrest).bind fun _ _ habs ↦ carries_ok (.cons hab habs)

end

namespace Reading

open Yaml.Node

variable {n v k : Node} {head : Head}

theorem settle_eq_ok {α : Type} {x : Except Yaml.Halt (α × List Yaml.Mismatch)} {a : α} :
    settle x = .ok a ↔ x = .ok (a, []) := by
  rcases x with (_ | _) | ⟨v, _ | _⟩ <;> simp [settle]

theorem carries_flag (n : Node) : Carries Eq (flag n) (flag n.expand) := by
  have hsettle : Carries Eq (settle n.bool?) (settle n.expand.bool?) := fun value h ↦
    ⟨value, settle_eq_ok.2 (bool?_expand (settle_eq_ok.1 h)), rfl⟩
  exact hsettle.bind_eq fun value ↦ carries_ok rfl

theorem carries_record (s : Yaml.Schema) (h : n.everywhere keepsKeys = true) :
    Carries Eq (record s n) (record s n.expand) := fun r hr ↦
  ⟨r, settle_eq_ok.2 (record?_expand h (settle_eq_ok.1 hr)), rfl⟩

/-! ## Parts -/

variable {entries : List (Node × Node)} {key : String}

theorem exists_of_part? (h : part? key entries = some v) : ∃ k, (k, v) ∈ entries ∧ k.text = key := by
  obtain ⟨e, he, rfl⟩ := Option.map_eq_some_iff.1 h
  have htext : (e.1.text == (key : Text)) = true := by simpa using List.find?_some he
  exact ⟨e.1, List.mem_reverse.1 (List.mem_of_find?_eq_some he), eq_of_beq htext⟩

theorem part?_singleton (key : String) (k v : Node) :
    part? key [(k, v)] = if k.text == (key : Text) then some v else none := by
  rw [part?_cons]
  rfl

theorem isSome_part?_singleton (key : String) (k v : Node) :
    (part? key [(k, v)]).isSome = (k.text == (key : Text)) := by
  rw [part?_singleton]
  cases k.text == (key : Text) <;> rfl

theorem part?_map_expand (h : ∀ e ∈ entries, e.1.keepsWord = true) (hkey : key ∈ words) :
    part? key (expandEntries entries) = (part? key entries).map expand := by
  induction entries with
  | nil => rfl
  | cons e rest ih =>
    obtain ⟨he, hrest⟩ := List.forall_mem_cons.1 h
    have hword : (e.1.expand.text == (key : Text)) = (e.1.text == (key : Text)) :=
      Bool.eq_iff_iff.2 (by simpa using text_expand_eq_iff he hkey)
    rw [expandEntries, part?_cons, part?_cons, ih hrest, hword, Option.map_or]
    split <;> rfl

section
variable {entries : List (Node × Node)} (h : entriesAreFaithful entries = true) {key : String}
include h

theorem part?_expandEntries (hkey : key ∈ words) :
    part? key (expandEntries entries) = (part? key entries).map expand :=
  part?_map_expand (fun e he ↦ (entriesAreFaithful_iff.1 h e he).1) hkey

theorem isFaithful_of_part? (hkey : key ∈ words) (hrecord : key ∉ recordWords)
    (hv : part? key entries = some v) : v.isFaithful = true := by
  obtain ⟨k, hmem, htext⟩ := exists_of_part? hv
  have hfaithful := (entriesAreFaithful_iff.1 h _ hmem).2
  rw [if_neg (mt (isOneOf_iff htext).1 hrecord), (isOneOf_iff htext).2 hkey] at hfaithful
  exact hfaithful

theorem keepsKeys_of_part? (hrecord : key ∈ recordWords) (hv : part? key entries = some v) :
    v.everywhere keepsKeys = true := by
  obtain ⟨k, hmem, htext⟩ := exists_of_part? hv
  have hfaithful := (entriesAreFaithful_iff.1 h _ hmem).2
  rwa [if_pos ((isOneOf_iff htext).2 hrecord)] at hfaithful

section
variable {α : Type} {read : Node → Except Error α}

theorem carries_required (hkey : key ∈ words)
    (hread : ∀ v, part? key entries = some v → Carries Eq (read v) (read v.expand)) (pos : Position) :
    Carries Eq (required pos key ((part? key entries).map read))
      (required pos key ((part? key (expandEntries entries)).map read)) := by
  rw [part?_expandEntries h hkey]
  cases hv : part? key entries with
  | none => exact carries_error _
  | some v => exact hread v hv

theorem carries_optional (hkey : key ∈ words)
    (hread : ∀ v, part? key entries = some v → Carries Eq (read v) (read v.expand)) :
    Carries Eq (optional ((part? key entries).map read))
      (optional ((part? key (expandEntries entries)).map read)) := by
  rw [part?_expandEntries h hkey]
  cases hv : part? key entries with
  | none => exact carries_refl _
  | some v => exact (hread v hv).bind_eq fun _ ↦ carries_ok rfl

/-- An alias is no scalar, and a scalar stands for itself. -/
theorem carries_scalarPart (hkey : key ∈ words) (default : α) (read : Node → Except Error α) :
    Carries Eq (scalarPart default read key entries)
      (scalarPart default read key (expandEntries entries)) := by
  rw [scalarPart, scalarPart, part?_expandEntries h hkey]
  cases hv : part? key entries with
  | none => exact carries_refl _
  | some v =>
    cases v with
    | scalar head text => exact carries_refl _
    | sequence | mapping | aliasOf | enclosing => exact carries_error _

end

end

/-! ## Expressions -/

/-- The node is read as its expansion is, wherever an expression or its parts are wanted. -/
structure ExprsKept (n : Node) : Prop where
  expr : Carries Eq (expr n) (expr n.expand)
  binary : ∀ pos, Carries Eq (binary pos n) (binary pos n.expand)
  unary : ∀ pos, Carries Eq (unary pos n) (unary pos n.expand)
  call : ∀ pos, Carries Eq (call pos n) (call pos n.expand)
  newArray : ∀ pos, Carries Eq (newArray pos n) (newArray pos n.expand)
  index : ∀ pos, Carries Eq (index pos n) (index pos n.expand)
  exprs : Carries Eq (exprs n) (exprs n.expand)

theorem isOneOf_of_string? {w : String} (h : k.text.string? = some w) {ws : List String} (hw : w ∈ ws) :
    k.isOneOf ws = true :=
  (isOneOf_iff (Text.eq_ofString_of_string? h)).2 hw

/-- Only a word is the key of an expression. -/
theorem word_of_expr_eq_ok {e : Expr} (h : expr (.mapping head [(k, v)]) = .ok e) :
    ∃ w : String, k.text = w ∧ w ∈ words ∧ w ∉ recordWords := by
  rw [expr] at h
  split at h
  case h_14 => cases h
  all_goals exact ⟨_, Text.eq_ofString_of_string? ‹k.text.string? = some _›, by decide, by decide⟩

/-- The form of an expression, with its part. -/
theorem carries_form (hk : k.keepsWord = true)
    (hv : k.isOneOf textForms = true → v.expand.text = v.text)
    (hpart : ∀ w : String, k.text = w → w ∈ words → w ∉ recordWords → ExprsKept v) :
    Carries Eq (expr (.mapping head [(k, v)])) (expr (.mapping head [(k.expand, v.expand)])) := by
  refine .of_ok fun e he ↦ ?_
  obtain ⟨w, hw, hword, hrecord⟩ := word_of_expr_eq_ok he
  have h := hpart w hw hword hrecord
  have htext := text_expand_of_isOneOf hk (.inl ((isOneOf_iff hw).2 hword))
  rw [expr, expr, htext]
  split
  · rename_i hform
    rw [hv (isOneOf_of_string? hform (by decide))]
    exact carries_refl _
  · exact ((carries_flag v).withinPlace _).bind_eq fun _ ↦ carries_ok rfl
  · rename_i hform
    rw [hv (isOneOf_of_string? hform (by decide))]
    exact carries_refl _
  · exact carries_refl _
  · exact h.expr.bind_eq fun _ ↦ carries_ok rfl
  · exact h.binary _
  · exact h.unary _
  · exact h.call _
  · rename_i hform
    rw [hv (isOneOf_of_string? hform (by decide))]
    exact carries_refl _
  · exact h.newArray _
  · exact (h.exprs.withinPlace _).bind_eq fun _ ↦ carries_ok rfl
  · exact h.index _
  · exact h.expr.bind_eq fun _ ↦ carries_ok rfl
  · exact carries_error _

section
variable {head : Head} {entries : List (Node × Node)} (h : entriesAreFaithful entries = true)
  (hparts : ∀ key v, key ∈ words → key ∉ recordWords → part? key entries = some v → ExprsKept v)
include h hparts

theorem carries_requiredExpr {key : String} (hkey : key ∈ words) (hrecord : key ∉ recordWords)
    (pos : Position) (place : String) :
    Carries Eq (withinPlace place (required pos key (exprPart? key entries)))
      (withinPlace place (required pos key (exprPart? key (expandEntries entries)))) := by
  rw [exprPart?_eq, exprPart?_eq]
  exact (carries_required h hkey (fun v hv ↦ (hparts key v hkey hrecord hv).expr) pos).withinPlace _

theorem exprsKept_mapping
    (hform : Carries Eq (expr (.mapping head entries)) (expr (.mapping head (expandEntries entries)))) :
    ExprsKept (.mapping head entries) where
  expr := hform
  binary pos :=
    (carries_scalarPart h (by decide) _ _).bind_eq fun _ ↦
      (carries_requiredExpr h hparts (by decide) (by decide) _ _).bind_eq fun _ ↦
      (carries_requiredExpr h hparts (by decide) (by decide) _ _).bind_eq fun _ ↦ carries_ok rfl
  unary pos :=
    (carries_scalarPart h (by decide) _ _).bind_eq fun _ ↦
      (carries_requiredExpr h hparts (by decide) (by decide) _ _).bind_eq fun _ ↦ carries_ok rfl
  call pos := by
    rw [call, expand, call, exprPart?_eq, exprPart?_eq, exprsPart?_eq, exprsPart?_eq]
    refine (carries_scalarPart h (by decide) _ _).bind_eq fun _ ↦
      (Carries.withinPlace ?_ _).bind_eq fun _ ↦ (Carries.withinPlace ?_ _).bind_eq fun _ ↦ carries_ok rfl
    · exact carries_optional h (by decide) fun v hv ↦ (hparts _ v (by decide) (by decide) hv).expr
    · exact carries_optional h (by decide) fun v hv ↦ (hparts _ v (by decide) (by decide) hv).exprs
  newArray pos :=
    (carries_scalarPart h (by decide) _ _).bind_eq fun _ ↦
      (carries_requiredExpr h hparts (by decide) (by decide) _ _).bind_eq fun _ ↦ carries_ok rfl
  index pos :=
    (carries_requiredExpr h hparts (by decide) (by decide) _ _).bind_eq fun _ ↦
      (carries_requiredExpr h hparts (by decide) (by decide) _ _).bind_eq fun _ ↦ carries_ok rfl
  exprs := carries_error _

end

theorem carries_exprList {items : List Node} (h : ∀ n ∈ items, ExprsKept n) :
    Carries Eq (exprList items) (exprList (expandItems items)) := by
  induction items with
  | nil => exact carries_refl _
  | cons n rest ih =>
    obtain ⟨hn, hrest⟩ := List.forall_mem_cons.1 h
    exact hn.expr.bind_eq fun _ ↦ (ih hrest).bind_eq fun _ ↦ carries_ok rfl

/-- **Expressions are read as their expansions are.** -/
theorem exprsKept (h : n.isFaithful = true) : ExprsKept n := by
  induction n using Node.induction with
  | scalar | aliasOf | enclosing =>
    exact ⟨carries_error _, fun _ ↦ carries_error _, fun _ ↦ carries_error _, fun _ ↦ carries_error _,
      fun _ ↦ carries_error _, fun _ ↦ carries_error _, carries_error _⟩
  | sequence head items ih =>
    have hitems : ∀ n ∈ items, ExprsKept n := fun n hn ↦ ih n hn (areFaithful_iff.1 h n hn)
    exact ⟨carries_error _, fun _ ↦ carries_error _, fun _ ↦ carries_error _, fun _ ↦ carries_error _,
      fun _ ↦ carries_error _, fun _ ↦ carries_error _, carries_exprList hitems⟩
  | mapping head entries ih =>
    obtain ⟨htext, hentries⟩ := Bool.and_eq_true_iff.1 h
    have hparts (key : String) (v : Node) (hkey : key ∈ words) (hrecord : key ∉ recordWords)
        (hv : part? key entries = some v) : ExprsKept v := by
      obtain ⟨k, hmem, -⟩ := exists_of_part? hv
      exact (ih _ hmem).2 (isFaithful_of_part? hentries hkey hrecord hv)
    refine exprsKept_mapping hentries hparts ?_
    rcases entries with _ | ⟨⟨k, v⟩, _ | ⟨_, _⟩⟩
    · exact carries_error _
    · refine carries_form (entriesAreFaithful_iff.1 hentries (k, v) (by simp)).1 (fun hk ↦ ?_)
        fun w hw hword hrecord ↦ hparts w v hword hrecord ?_
      · rw [keepsTextForm, hk] at htext
        exact eq_of_beq htext
      · rw [part?_singleton, hw, beq_self_eq_true]
        rfl
    · exact carries_error _

/-- A part that is an expression. -/
theorem carries_exprPart (h : entriesAreFaithful entries = true) (hkey : key ∈ words)
    (hrecord : key ∉ recordWords) (pos : Position) (place : String) :
    Carries Eq (withinPlace place (required pos key (exprPart? key entries)))
      (withinPlace place (required pos key (exprPart? key (expandEntries entries)))) :=
  carries_requiredExpr h (fun _ _ hkey hrecord hv ↦ exprsKept (isFaithful_of_part? h hkey hrecord hv)) hkey
    hrecord pos place

/-! ## Statements -/

section
variable {n : Node} (h : n.isFaithful = true)
include h

theorem carries_assign (pos : Position) : Carries Eq (assign pos n) (assign pos n.expand) := by
  cases n with
  | mapping head entries =>
    have hentries := (Bool.and_eq_true_iff.1 h).2
    exact (carries_scalarPart hentries (by decide) _ _).bind_eq fun _ ↦
      (carries_exprPart hentries (by decide) (by decide) _ _).bind_eq fun _ ↦ carries_ok rfl
  | scalar | sequence | aliasOf | enclosing => exact carries_error _

theorem carries_indexAssign (pos : Position) :
    Carries Eq (indexAssign pos n) (indexAssign pos n.expand) := by
  cases n with
  | mapping head entries =>
    have hentries := (Bool.and_eq_true_iff.1 h).2
    exact (carries_scalarPart hentries (by decide) _ _).bind_eq fun _ ↦
      (carries_exprPart hentries (by decide) (by decide) _ _).bind_eq fun _ ↦
      (carries_exprPart hentries (by decide) (by decide) _ _).bind_eq fun _ ↦ carries_ok rfl
  | scalar | sequence | aliasOf | enclosing => exact carries_error _

/-- The value of a return is left out before and after. -/
theorem carries_value (pos : Position) : Carries Eq
    (if n.isNull then .ok (Stmt.ret pos none)
      else do return .ret pos (some (← withinPlace "return" (expr n))))
    (if n.expand.isNull then .ok (Stmt.ret pos none)
      else do return .ret pos (some (← withinPlace "return" (expr n.expand)))) := by
  have hvalue := ((exprsKept h).expr.withinPlace "return").bind_eq (S := Eq)
    (f := fun e ↦ .ok (Stmt.ret pos (some e))) (g := fun e ↦ .ok (Stmt.ret pos (some e)))
    fun _ ↦ carries_ok rfl
  cases n with
  | scalar => exact carries_refl _
  | aliasOf | enclosing => exact carries_error _
  | sequence | mapping => exact hvalue

end

/-- The node is read as its expansion is, wherever a statement or its parts are wanted. -/
structure StmtsKept (n : Node) : Prop where
  stmt : Carries Eq (stmt n) (stmt n.expand)
  cond : ∀ pos, Carries Eq (cond pos n) (cond pos n.expand)
  loop : ∀ pos, Carries Eq (loop pos n) (loop pos n.expand)
  stmts : Carries Eq (stmts n) (stmts n.expand)

theorem StmtsKept.body (h : StmtsKept n) : Carries Eq (body n) (body n.expand) := by
  cases n with
  | sequence head items => exact h.stmts.bind_eq fun _ ↦ carries_ok rfl
  | mapping => exact h.stmt
  | scalar | aliasOf | enclosing => exact carries_error _

/-- Only a word is the key of a statement. -/
theorem word_of_stmt_eq_ok {s : Stmt} (h : stmt (.mapping head [(k, v)]) = .ok s) :
    ∃ w : String, k.text = w ∧ w ∈ words ∧ w ∉ recordWords := by
  rw [stmt] at h
  split at h
  case h_8 => cases h
  all_goals exact ⟨_, Text.eq_ofString_of_string? ‹k.text.string? = some _›, by decide, by decide⟩

/-- The form of a statement, with its part. -/
theorem carries_stmtForm (hk : k.keepsWord = true)
    (hpart : ∀ w : String, k.text = w → w ∈ words → w ∉ recordWords → v.isFaithful = true ∧ StmtsKept v) :
    Carries Eq (stmt (.mapping head [(k, v)])) (stmt (.mapping head [(k.expand, v.expand)])) := by
  refine .of_ok fun s hs ↦ ?_
  obtain ⟨w, hw, hword, hrecord⟩ := word_of_stmt_eq_ok hs
  obtain ⟨hv, h⟩ := hpart w hw hword hrecord
  have htext := text_expand_of_isOneOf hk (.inl ((isOneOf_iff hw).2 hword))
  rw [stmt, stmt, htext]
  split
  · exact h.stmts.bind_eq fun _ ↦ carries_ok rfl
  · exact h.cond _
  · exact h.loop _
  · exact (exprsKept hv).expr.bind_eq fun _ ↦ carries_ok rfl
  · exact carries_assign hv _
  · exact carries_indexAssign hv _
  · exact carries_value hv _
  · exact carries_error _

theorem carries_stmtList {items : List Node} (h : ∀ n ∈ items, StmtsKept n) :
    Carries Eq (stmtList items) (stmtList (expandItems items)) := by
  induction items with
  | nil => exact carries_refl _
  | cons n rest ih =>
    obtain ⟨hn, hrest⟩ := List.forall_mem_cons.1 h
    exact hn.stmt.bind_eq fun _ ↦ (ih hrest).bind_eq fun _ ↦ carries_ok rfl

section
variable {head : Head} {entries : List (Node × Node)} (h : entriesAreFaithful entries = true)
  (hparts : ∀ key v, key ∈ words → key ∉ recordWords → part? key entries = some v →
    v.isFaithful = true ∧ StmtsKept v)
include h hparts

theorem carries_optionalBody {key : String} (hkey : key ∈ words) (hrecord : key ∉ recordWords)
    (place : String) :
    Carries Eq (withinPlace place (optional (bodyPart? key entries)))
      (withinPlace place (optional (bodyPart? key (expandEntries entries)))) := by
  rw [bodyPart?_eq, bodyPart?_eq]
  exact (carries_optional h hkey fun v hv ↦ (hparts key v hkey hrecord hv).2.body).withinPlace _

theorem stmtsKept_mapping
    (hform : Carries Eq (stmt (.mapping head entries)) (stmt (.mapping head (expandEntries entries)))) :
    StmtsKept (.mapping head entries) where
  stmt := hform
  cond pos :=
    (carries_exprPart h (by decide) (by decide) _ _).bind_eq fun _ ↦
      (carries_optionalBody h hparts (by decide) (by decide) _).bind_eq fun _ ↦
      (carries_optionalBody h hparts (by decide) (by decide) _).bind_eq fun _ ↦ carries_ok rfl
  loop pos :=
    (carries_exprPart h (by decide) (by decide) _ _).bind_eq fun _ ↦
      (carries_optionalBody h hparts (by decide) (by decide) _).bind_eq fun _ ↦ carries_ok rfl
  stmts := carries_error _

end

/-- **Statements are read as their expansions are.** -/
theorem stmtsKept (h : n.isFaithful = true) : StmtsKept n := by
  induction n using Node.induction with
  | scalar | aliasOf | enclosing =>
    exact ⟨carries_error _, fun _ ↦ carries_error _, fun _ ↦ carries_error _, carries_error _⟩
  | sequence head items ih =>
    have hitems : ∀ n ∈ items, StmtsKept n := fun n hn ↦ ih n hn (areFaithful_iff.1 h n hn)
    exact ⟨carries_error _, fun _ ↦ carries_error _, fun _ ↦ carries_error _, carries_stmtList hitems⟩
  | mapping head entries ih =>
    have hentries := (Bool.and_eq_true_iff.1 h).2
    have hparts (key : String) (v : Node) (hkey : key ∈ words) (hrecord : key ∉ recordWords)
        (hv : part? key entries = some v) : v.isFaithful = true ∧ StmtsKept v := by
      have hfaithful := isFaithful_of_part? hentries hkey hrecord hv
      obtain ⟨k, hmem, -⟩ := exists_of_part? hv
      exact ⟨hfaithful, (ih _ hmem).2 hfaithful⟩
    refine stmtsKept_mapping hentries hparts ?_
    rcases entries with _ | ⟨⟨k, v⟩, _ | ⟨_, _⟩⟩
    · exact carries_error _
    · refine carries_stmtForm (entriesAreFaithful_iff.1 hentries (k, v) (by simp)).1
        fun w hw hword hrecord ↦ hparts w v hword hrecord ?_
      rw [part?_singleton, hw, beq_self_eq_true]
      rfl
    · exact carries_error _

end Reading

/-! ## Declarations -/

/-- A variable without its place. -/
def VarDecl.unplaced (d : VarDecl) : VarDecl := { d with pos := ⟨0, 0⟩ }

/-- A method without the places of its variables. -/
def MethodDecl.unplaced (m : MethodDecl) : MethodDecl :=
  { m with params := m.params.map VarDecl.unplaced, locals := m.locals.map VarDecl.unplaced }

/-- A class without the places of its variables. -/
def ClassDecl.unplaced (c : ClassDecl) : ClassDecl :=
  { c with fields := c.fields.map VarDecl.unplaced, methods := c.methods.map MethodDecl.unplaced }

/-- A program without the places of its variables; all other places are kept. -/
def Program.unplaced (p : Program) : Program := { p with cls := p.cls.unplaced }

/-- Two lists are the same element by element. -/
theorem map_eq_map_of_forall₂ {α β : Type} {f : α → β} {as bs : List α}
    (h : List.Forall₂ (fun a b ↦ f b = f a) as bs) : bs.map f = as.map f := by
  rw [← List.forall₂_eq_eq_eq, List.forall₂_map_left_iff, List.forall₂_map_right_iff]
  exact h.flip

namespace Reading

open Yaml.Node

variable {n : Node}

theorem carries_varDecl (h : n.everywhere keepsKeys = true) :
    Carries (fun a b ↦ b.unplaced = a.unplaced) (varDecl n) (varDecl n.expand) := by
  rw [varDecl, varDecl]
  refine ((carries_record varSchema h).withinPlace _).bind_eq fun r ↦ ?_
  dsimp only
  split
  · exact carries_error _
  · exact carries_ok rfl

theorem carries_importDecl (h : n.everywhere keepsKeys = true) :
    Carries Eq (importDecl n) (importDecl n.expand) := by
  cases n with
  | scalar head path => exact carries_refl _
  | mapping head entries =>
    exact ((carries_record importSchema h).withinPlace _).bind_eq fun r ↦ carries_refl _
  | sequence | aliasOf | enclosing => exact carries_error _

section
variable {entries : List (Node × Node)} (h : entriesAreFaithful entries = true)
include h

theorem carries_varDecls {key : String} (hkey : key ∈ words) (hrecord : key ∈ recordWords) :
    Carries (fun as bs ↦ bs.map VarDecl.unplaced = as.map VarDecl.unplaced) (varDecls key entries)
      (varDecls key (expandEntries entries)) := by
  rw [varDecls, varDecls, part?_expandEntries h hkey]
  cases hv : part? key entries with
  | none => exact carries_ok rfl
  | some v =>
    cases v with
    | sequence head items =>
      have hitems := everyItem_iff.1 (Bool.and_eq_true_iff.1 (keepsKeys_of_part? h hrecord hv)).2
      show Carries _ (items.mapM varDecl) ((expandItems items).mapM varDecl)
      rw [expandItems_eq_map]
      exact (Carries.mapM fun n hn ↦ carries_varDecl (hitems n hn)).mono fun _ _ ↦ map_eq_map_of_forall₂
    | scalar | mapping | aliasOf | enclosing => exact carries_error _

theorem carries_importDecls : Carries Eq (importDecls entries) (importDecls (expandEntries entries)) := by
  rw [importDecls, importDecls, part?_expandEntries h (by decide)]
  cases hv : part? "imports" entries with
  | none => exact carries_ok rfl
  | some v =>
    cases v with
    | sequence head items =>
      have hitems := everyItem_iff.1 (Bool.and_eq_true_iff.1 (keepsKeys_of_part? h (by decide) hv)).2
      show Carries _ _ ((expandItems items).mapM fun n ↦ withinPlace "import" (importDecl n))
      rw [expandItems_eq_map, ← List.forall₂_eq_eq_eq]
      exact Carries.mapM fun n hn ↦ (carries_importDecl (hitems n hn)).withinPlace _
    | scalar | mapping | aliasOf | enclosing => exact carries_error _

end

theorem carries_methodDecl (h : n.isFaithful = true) :
    Carries (fun a b ↦ b.unplaced = a.unplaced) (methodDecl n) (methodDecl n.expand) := by
  cases n with
  | mapping head entries =>
    have hentries := (Bool.and_eq_true_iff.1 h).2
    rw [expand, methodDecl, methodDecl, part?_expandEntries hentries (by decide)]
    refine (carries_scalarPart hentries (by decide) _ _).bind_eq fun name ↦
      (carries_scalarPart hentries (by decide) _ _).bind_eq fun isPublic ↦
      (carries_scalarPart hentries (by decide) _ _).bind_eq fun isStatic ↦
      (carries_scalarPart hentries (by decide) _ _).bind_eq fun ret ↦ ?_
    dsimp only
    by_cases hname : name = ""
    · rw [if_pos hname, if_pos hname]
      exact carries_error _
    · rw [if_neg hname, if_neg hname]
      refine ((carries_varDecls hentries (by decide) (by decide)).withinPlace _).bind
        fun params params' hparams ↦
        ((carries_varDecls hentries (by decide) (by decide)).withinPlace _).bind
        fun locals locals' hlocals ↦ ?_
      cases hv : part? "body" entries with
      | none =>
        refine carries_ok ?_
        rw [MethodDecl.unplaced, MethodDecl.unplaced, hparams, hlocals]
      | some v =>
        have hbody := (stmtsKept (isFaithful_of_part? hentries (by decide) (by decide) hv)).stmts
        refine (hbody.withinPlace _).bind_eq fun body ↦ carries_ok ?_
        rw [MethodDecl.unplaced, MethodDecl.unplaced, hparams, hlocals]
  | scalar | sequence | aliasOf | enclosing => exact carries_error _

theorem carries_methodDecls {entries : List (Node × Node)} (h : entriesAreFaithful entries = true) :
    Carries (fun as bs ↦ bs.map MethodDecl.unplaced = as.map MethodDecl.unplaced)
      (methodDecls entries) (methodDecls (expandEntries entries)) := by
  rw [methodDecls, methodDecls, part?_expandEntries h (by decide)]
  cases hv : part? "methods" entries with
  | none => exact carries_ok rfl
  | some v =>
    cases v with
    | sequence head items =>
      have hitems := areFaithful_iff.1 (isFaithful_of_part? h (by decide) (by decide) hv)
      show Carries _ _ ((expandItems items).mapM fun n ↦ withinPlace "method" (methodDecl n))
      rw [expandItems_eq_map]
      refine Carries.mono (Carries.mapM fun n hn ↦ ?_) fun _ _ ↦ map_eq_map_of_forall₂
      exact (carries_methodDecl (hitems n hn)).withinPlace _
    | scalar | mapping | aliasOf | enclosing => exact carries_error _

theorem carries_classDecl (h : n.isFaithful = true) :
    Carries (fun a b ↦ b.unplaced = a.unplaced) (classDecl n) (classDecl n.expand) := by
  cases n with
  | mapping head entries =>
    have hentries := (Bool.and_eq_true_iff.1 h).2
    rw [expand, classDecl, classDecl]
    refine (carries_scalarPart hentries (by decide) _ _).bind_eq fun name ↦
      (carries_scalarPart hentries (by decide) _ _).bind_eq fun super ↦ ?_
    dsimp only
    split
    · exact carries_error _
    · refine ((carries_varDecls hentries (by decide) (by decide)).withinPlace _).bind
        fun fields fields' hfields ↦ (carries_methodDecls hentries).bind
        fun methods methods' hmethods ↦ carries_ok ?_
      rw [ClassDecl.unplaced, ClassDecl.unplaced, hfields, hmethods]
  | scalar | sequence | aliasOf | enclosing => exact carries_error _

theorem carries_program (h : n.isFaithful = true) :
    Carries (fun p q ↦ q.unplaced = p.unplaced) (program n) (program n.expand) := by
  cases n with
  | mapping head entries =>
    have hentries := (Bool.and_eq_true_iff.1 h).2
    rw [expand, program, program, part?_expandEntries hentries (by decide)]
    refine (carries_importDecls hentries).bind_eq fun imports ↦ ?_
    cases hv : part? "class" entries with
    | none => exact carries_error _
    | some v =>
      have hcls := carries_classDecl (isFaithful_of_part? hentries (by decide) (by decide) hv)
      refine (hcls.withinPlace _).bind fun cls cls' hcls ↦ carries_ok ?_
      rw [Program.unplaced, Program.unplaced, hcls]
  | scalar | sequence | aliasOf | enclosing => exact carries_error _

/-! ## What is misread -/

/-- An expression that consists of a text is the same exactly if that text is. -/
theorem expr_textForm_eq_iff {head : Head} {k v : Node} (hform : k.isOneOf textForms = true)
    (hk : k.keepsText = true) :
    expr (Node.mapping head [(k, v)]).expand = expr (.mapping head [(k, v)]) ↔
      v.expand.text = v.text := by
  obtain ⟨w, hw, htext⟩ := List.any_eq_true.1 hform
  have hk' : k.expand.text = k.text := eq_of_beq hk
  show expr (.mapping head [(k.expand, v.expand)]) = _ ↔ _
  rw [expr, expr, hk', eq_of_beq htext, Text.string?_ofString]
  rw [textForms, List.mem_cons, List.mem_cons, List.mem_singleton] at hw
  rcases hw with rfl | rfl | rfl
  · simp
  · simp
  · simp

/-- An entry is found under the same words exactly if its key is faithful. -/
theorem keepsWord_iff {k v : Node} :
    k.keepsWord = true ↔
      ∀ w ∈ words, part? w (expandEntries [(k, v)]) = (part? w [(k, v)]).map expand := by
  constructor
  · intro hk w hw
    exact part?_map_expand (by simpa using hk) hw
  · intro h
    have hiff (w : String) (hw : w ∈ words) : k.expand.text = w ↔ k.text = w := by
      have hpart : part? w [(k.expand, v.expand)] = (part? w [(k, v)]).map expand := h w hw
      have hsome := congrArg Option.isSome hpart
      rw [Option.isSome_map, isSome_part?_singleton, isSome_part?_singleton] at hsome
      rw [← beq_iff_eq, hsome, beq_iff_eq]
    by_cases hword : k.isOneOf words = true ∨ k.expand.isOneOf words = true
    · have htext : k.expand.text = k.text := by
        rcases hword with hword | hword
        · obtain ⟨w, hw, heq⟩ := List.any_eq_true.1 hword
          rw [(hiff w hw).2 (eq_of_beq heq), eq_of_beq heq]
        · obtain ⟨w, hw, heq⟩ := List.any_eq_true.1 hword
          rw [(hiff w hw).1 (eq_of_beq heq), eq_of_beq heq]
      rw [keepsWord, keepsText, htext, beq_self_eq_true, Bool.true_or]
    · rw [not_or, Bool.not_eq_true, Bool.not_eq_true] at hword
      rw [keepsWord, hword.1, hword.2, Bool.or_self, Bool.not_false, Bool.or_true]

/-- **A faithful document is the same program without its aliases**, up to the places of variables.
What faithful asks for is what is misread otherwise: an expression that consists of a text is the same
exactly if the text is, and an entry is found under the same words exactly if its key is faithful. -/
theorem aliases_keep_program (n : Node) :
    n.expand.everywhere (!·.isAlias) = true ∧
    (n.isFaithful = true → ∀ p, program n = .ok p →
      ∃ q, program n.expand = .ok q ∧ q.unplaced = p.unplaced) ∧
    (∀ (head : Head) (k v : Node), k.isOneOf textForms = true → k.keepsText = true →
      (expr (Node.mapping head [(k, v)]).expand = expr (.mapping head [(k, v)]) ↔
        v.expand.text = v.text)) ∧
    ∀ k v : Node, k.keepsWord = true ↔
      ∀ w ∈ words, part? w (expandEntries [(k, v)]) = (part? w [(k, v)]).map expand :=
  ⟨everywhere_expand n, fun h ↦ carries_program h, fun _ _ _ ↦ expr_textForm_eq_iff,
    fun _ _ ↦ keepsWord_iff⟩

/-- The declaration that the aliases `*count` stand for. -/
def countNode : Node :=
  .ofParts ⟨2, 5⟩ [
    ("name", some (.ofText ⟨2, 19⟩ "count")),
    ("type", some (.ofText ⟨2, 32⟩ "int"))]

/-- A document with aliases for a field, for one that is included, for a type, for a boolean and for a
name that is anchored by itself. -/
def counterNode : Node :=
  .ofParts ⟨1, 1⟩ [
    ("variables", some (.ofItems ⟨2, 3⟩ [countNode])),
    ("class", some (.ofParts ⟨4, 3⟩ [
      ("name", some (.ofText ⟨4, 9⟩ "Counter")),
      ("fields", some (.ofItems ⟨6, 5⟩ [
        .aliasOf ⟨6, 7⟩ "count" countNode,
        .mapping ⟨⟨7, 7⟩, "!!map"⟩ [
          (.scalar ⟨⟨7, 8⟩, "!!merge"⟩ "<<", .aliasOf ⟨7, 12⟩ "count" countNode),
          (.ofText ⟨7, 20⟩ "name", .ofText ⟨7, 26⟩ "total")]])),
      ("methods", some (.ofItems ⟨9, 5⟩ [.ofParts ⟨9, 7⟩ [
        ("name", some (.ofText ⟨9, 13⟩ "add")),
        ("params", some (.ofItems ⟨10, 15⟩ [.ofParts ⟨10, 16⟩ [
          ("name", some (.ofText ⟨10, 23⟩ "n")),
          ("type", some (.aliasOf ⟨10, 35⟩ "number" (.ofText ⟨2, 32⟩ "int")))]])),
        ("body", some (.ofItems ⟨12, 9⟩ [
          .ofForm ⟨12, 11⟩ "while" (.ofParts ⟨13, 13⟩ [
            ("cond", some (.ofForm ⟨13, 19⟩ "bool" (.ofBool ⟨13, 26⟩ true)))]),
          .ofForm ⟨14, 11⟩ "if" (.ofParts ⟨15, 13⟩ [
            ("cond", some (.ofForm ⟨15, 19⟩ "bool" (.aliasOf ⟨15, 26⟩ "on" (.ofBool ⟨13, 26⟩ true))))]),
          .ofForm ⟨16, 11⟩ "return"
            (.ofForm ⟨16, 19⟩ "ident" (.aliasOf ⟨16, 27⟩ "n" (.ofText ⟨10, 23⟩ "n")))]))]]))]))]

/-- The fields of `counterNode`; the first one stands where its alias does. -/
def counterFields : List VarDecl :=
  [{ pos := ⟨6, 7⟩, name := "count", type := { name := "int" } },
   { pos := ⟨7, 7⟩, name := "total", type := { name := "int" } }]

theorem counter_without_aliases :
    counterNode.isFaithful = true ∧ ∃ p, program counterNode = .ok p ∧ p.cls.fields = counterFields ∧
      ∃ q, program counterNode.expand = .ok q ∧ q.unplaced = p.unplaced := by
  have hfaithful : counterNode.isFaithful = true := by decide +kernel
  have hread : ((program counterNode).toOption.map fun p ↦ p.cls.fields) = some counterFields := by
    decide +kernel
  cases hp : program counterNode with
  | error e =>
    rw [hp] at hread
    cases hread
  | ok p =>
    rw [hp] at hread
    exact ⟨hfaithful, p, rfl, Option.some.inj hread, (aliases_keep_program _).2.1 hfaithful p hp⟩

/-- A document with an integer, and an alias for it in the place of another one. -/
def fiveNode : Node :=
  .ofParts ⟨1, 1⟩ [("class", some (.ofParts ⟨2, 3⟩ [
    ("name", some (.ofText ⟨2, 9⟩ "Five")),
    ("methods", some (.ofItems ⟨4, 5⟩ [.ofParts ⟨4, 7⟩ [
      ("name", some (.ofText ⟨4, 13⟩ "f")),
      ("ret", some (.ofText ⟨5, 12⟩ "int")),
      ("body", some (.ofItems ⟨7, 9⟩ [
        .ofForm ⟨7, 11⟩ "expr" (.ofForm ⟨7, 17⟩ "int" (.ofText ⟨7, 23⟩ "5")),
        .ofForm ⟨8, 11⟩ "return"
          (.ofForm ⟨8, 19⟩ "int" (.aliasOf ⟨8, 25⟩ "five" (.ofText ⟨7, 23⟩ "5")))]))]]))]))]

/-- The program of `fiveNode`, with the integer that it returns. -/
def fiveProgram (result : Text) : Program :=
  { pos := ⟨1, 1⟩
    cls := {
      pos := ⟨2, 3⟩
      name := "Five"
      methods := [
        { pos := ⟨4, 7⟩
          name := "f"
          ret := { name := "int" }
          body := [
            .expr ⟨7, 11⟩ (.int ⟨7, 17⟩ "5"),
            .ret ⟨8, 11⟩ (some (.int ⟨8, 19⟩ result))] }] } }

/-- The alias of an integer is read as the name of its anchor. -/
theorem aliased_integer_is_misread :
    program fiveNode = .ok (fiveProgram "five") ∧ program fiveNode.expand = .ok (fiveProgram "5") :=
  ⟨rfl, rfl⟩

end Reading

end MiniJava
