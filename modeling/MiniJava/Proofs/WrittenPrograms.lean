import MiniJava.Proofs.LoweredStmt
import MiniJava.Proofs.WrittenRecords
import MiniJava.Source.Reading

/-!
# Programs, written and read

`Program.toNode` writes a program as a YAML document.  A statement or an expression is a mapping with
one entry, whose key names its form.  The parts of a form and of a declaration stand under keys of
their own, and a part that is left out has no entry.  Names, operators and literals are strings, types
are written by `TypeName.text`, and the parts of an imported path are joined by dots.

Reading gives the program back (`Reading.program_toNode`), with the position of each of its parts.  The
programs that can be written are those of `Program.Writable`: what has to have a name has one, dots only
stand between the parts of a path, and the text of each type is read as that type.

For each form there is a lemma about any mapping that has its parts: `Reading.binary_eq_ok` and so
on.  That parts are found when they were written is one fact for all of them,
`Reading.hasParts_partEntries`.  Expressions and statements are then put together by induction.
-/

set_option autoImplicit false

namespace MiniJava

open Yaml (Node FieldValue Record)

namespace Yaml.Node

/-- What stands for nothing. -/
def nothing (pos : Position) : Node := .scalar ⟨pos, "!!null"⟩ ""

/-- A list of nodes. -/
def ofItems (pos : Position) (items : List Node) : Node := .sequence ⟨pos, "!!seq"⟩ items

/-- The entries of those parts that are not left out. -/
def partEntries (pos : Position) (parts : List (String × Option Node)) : List (Node × Node) :=
  parts.filterMap fun part ↦ part.2.map fun n ↦ (.ofText pos part.1, n)

/-- A mapping with some parts. -/
def ofParts (pos : Position) (parts : List (String × Option Node)) : Node :=
  .mapping ⟨pos, "!!map"⟩ (partEntries pos parts)

/-- The form that a key names, with what belongs to it. -/
def ofForm (pos : Position) (key : String) (n : Node) : Node :=
  .mapping ⟨pos, "!!map"⟩ [(.ofText pos key, n)]

end Yaml.Node

/-! ## Writing -/

mutual

/-- An expression as a node. -/
def Expr.toNode : Expr → Node
  | .int pos text => .ofForm pos "int" (.ofText pos text)
  | .bool pos value => .ofForm pos "bool" (.ofBool pos value)
  | .ident pos name => .ofForm pos "ident" (.ofText pos name)
  | .this pos => .ofForm pos "this" (.nothing pos)
  | .paren pos inner => .ofForm pos "paren" inner.toNode
  | .binary pos op left right =>
    .ofForm pos "binary" (.ofParts pos
      [("op", some (.ofText pos op)), ("left", some left.toNode), ("right", some right.toNode)])
  | .unary pos op arg =>
    .ofForm pos "unary" (.ofParts pos [("op", some (.ofText pos op)), ("x", some arg.toNode)])
  | .call pos recv name args =>
    .ofForm pos "call" (.ofParts pos
      [("recv", exprNode? recv), ("name", some (.ofText pos name)),
       ("args", some (.ofItems pos (exprNodes args)))])
  | .new pos cls => .ofForm pos "new" (.ofText pos cls)
  | .newArray pos elem size =>
    .ofForm pos "new_array" (.ofParts pos
      [("type", some (.ofText pos elem.text)), ("size", some size.toNode)])
  | .array pos elems => .ofForm pos "array" (.ofItems pos (exprNodes elems))
  | .index pos base index =>
    .ofForm pos "index" (.ofParts pos [("x", some base.toNode), ("index", some index.toNode)])
  | .length pos arg => .ofForm pos "length" arg.toNode
termination_by structural e => e

/-- An expression as a node, if there is one. -/
def exprNode? : Option Expr → Option Node
  | none => none
  | some e => some e.toNode
termination_by structural e => e

/-- Expressions as nodes. -/
def exprNodes : List Expr → List Node
  | [] => []
  | e :: es => e.toNode :: exprNodes es
termination_by structural es => es

end

mutual

/-- A statement as a node. -/
def Stmt.toNode : Stmt → Node
  | .block pos stmts => .ofForm pos "block" (.ofItems pos (stmtNodes stmts))
  | .cond pos test onTrue onFalse =>
    .ofForm pos "if" (.ofParts pos
      [("cond", some test.toNode), ("then", stmtNode? onTrue), ("else", stmtNode? onFalse)])
  | .loop pos test body =>
    .ofForm pos "while" (.ofParts pos [("cond", some test.toNode), ("body", stmtNode? body)])
  | .expr pos value => .ofForm pos "expr" value.toNode
  | .assign pos name value =>
    .ofForm pos "assign" (.ofParts pos
      [("name", some (.ofText pos name)), ("value", some value.toNode)])
  | .indexAssign pos name index value =>
    .ofForm pos "index_assign" (.ofParts pos
      [("name", some (.ofText pos name)), ("index", some index.toNode),
       ("value", some value.toNode)])
  | .ret pos none => .ofForm pos "return" (.nothing pos)
  | .ret pos (some value) => .ofForm pos "return" value.toNode
termination_by structural s => s

/-- A statement as a node, if there is one. -/
def stmtNode? : Option Stmt → Option Node
  | none => none
  | some s => some s.toNode
termination_by structural s => s

/-- Statements as nodes. -/
def stmtNodes : List Stmt → List Node
  | [] => []
  | s :: ss => s.toNode :: stmtNodes ss
termination_by structural ss => ss

end

/-- The declaration of a variable as a node. -/
def VarDecl.toNode (d : VarDecl) : Node :=
  Record.toNode d.pos ⟨[("name", .text d.name), ("type", .text d.type.text),
    ("public", .flag d.isPublic), ("static", .flag d.isStatic), ("final", .flag d.isFinal)]⟩

/-- The parts of the declaration of a method. -/
def MethodDecl.toParts (m : MethodDecl) : List (String × Option Node) :=
  [("name", some (.ofText m.pos m.name)), ("public", some (.ofBool m.pos m.isPublic)),
   ("static", some (.ofBool m.pos m.isStatic)), ("ret", some (.ofText m.pos m.ret.text)),
   ("params", some (.ofItems m.pos (m.params.map VarDecl.toNode))),
   ("locals", some (.ofItems m.pos (m.locals.map VarDecl.toNode))),
   ("body", some (.ofItems m.pos (stmtNodes m.body)))]

/-- The declaration of a method as a node. -/
def MethodDecl.toNode (m : MethodDecl) : Node := .ofParts m.pos m.toParts

/-- The parts of the declaration of a class. -/
def ClassDecl.toParts (c : ClassDecl) : List (String × Option Node) :=
  [("name", some (.ofText c.pos c.name)), ("extends", some (.ofText c.pos c.super)),
   ("fields", some (.ofItems c.pos (c.fields.map VarDecl.toNode))),
   ("methods", some (.ofItems c.pos (c.methods.map MethodDecl.toNode)))]

/-- The declaration of a class as a node. -/
def ClassDecl.toNode (c : ClassDecl) : Node := .ofParts c.pos c.toParts

/-- The path of an import, its parts divided by dots. -/
def ImportDecl.dotted (i : ImportDecl) : Text := Text.intercalate "." i.path

/-- An import as a node. -/
def ImportDecl.toNode (i : ImportDecl) : Node :=
  Record.toNode i.pos ⟨[("path", .text i.dotted), ("interface", .flag i.isInterface)]⟩

/-- The parts of a program. -/
def Program.toParts (p : Program) : List (String × Option Node) :=
  [("imports", some (.ofItems p.pos (p.imports.map ImportDecl.toNode))),
   ("class", some p.cls.toNode)]

/-- A program as a node. -/
def Program.toNode (p : Program) : Node := .ofParts p.pos p.toParts

/-! ## Type names -/

mutual

/-- The types that an expression names: those of the elements of new arrays. -/
def Expr.typeNames : Expr → List TypeName
  | .int _ _ | .bool _ _ | .ident _ _ | .this _ | .new _ _ => []
  | .paren _ e | .unary _ _ e | .length _ e => e.typeNames
  | .newArray _ elem size => elem :: size.typeNames
  | .binary _ _ x y | .index _ x y => x.typeNames ++ y.typeNames
  | .call _ recv _ args => typeNamesOf? recv ++ typeNamesOfAll args
  | .array _ elems => typeNamesOfAll elems
termination_by structural e => e

/-- The types that an expression names, if there is one. -/
def typeNamesOf? : Option Expr → List TypeName
  | none => []
  | some e => e.typeNames
termination_by structural e => e

/-- The types that expressions name. -/
def typeNamesOfAll : List Expr → List TypeName
  | [] => []
  | e :: es => e.typeNames ++ typeNamesOfAll es
termination_by structural es => es

end

mutual

/-- The types that a statement names. -/
def Stmt.typeNames : Stmt → List TypeName
  | .block _ ss => typeNamesInAll ss
  | .cond _ e yes no => e.typeNames ++ (typeNamesIn? yes ++ typeNamesIn? no)
  | .loop _ e body => e.typeNames ++ typeNamesIn? body
  | .expr _ e | .assign _ _ e => e.typeNames
  | .indexAssign _ _ i e => i.typeNames ++ e.typeNames
  | .ret _ e => typeNamesOf? e
termination_by structural s => s

/-- The types that a statement names, if there is one. -/
def typeNamesIn? : Option Stmt → List TypeName
  | none => []
  | some s => s.typeNames
termination_by structural s => s

/-- The types that statements name. -/
def typeNamesInAll : List Stmt → List TypeName
  | [] => []
  | s :: ss => s.typeNames ++ typeNamesInAll ss
termination_by structural ss => ss

end

theorem typeNamesOf?_eq (e : Option Expr) : typeNamesOf? e = e.toList.flatMap Expr.typeNames := by
  cases e <;> simp [typeNamesOf?]

theorem typeNamesOfAll_eq (es : List Expr) : typeNamesOfAll es = es.flatMap Expr.typeNames := by
  induction es with
  | nil => rfl
  | cons e es ih => rw [typeNamesOfAll, ih, List.flatMap_cons]

theorem typeNamesIn?_eq (s : Option Stmt) : typeNamesIn? s = s.toList.flatMap Stmt.typeNames := by
  cases s <;> simp [typeNamesIn?]

theorem typeNamesInAll_eq (ss : List Stmt) : typeNamesInAll ss = ss.flatMap Stmt.typeNames := by
  induction ss with
  | nil => rfl
  | cons s ss ih => rw [typeNamesInAll, ih, List.flatMap_cons]

/-- An expression names the types that its parts name. -/
theorem Expr.typeNames_subset {e x : Expr} (h : x ∈ e.parts) : x.typeNames ⊆ e.typeNames := by
  intro t ht
  cases e with
  | int _ _ | bool _ _ | ident _ _ | this _ | new _ _ => cases h
  | paren _ e | unary _ _ e | length _ e =>
    obtain rfl := List.mem_singleton.1 h
    exact ht
  | newArray _ elem size =>
    obtain rfl := List.mem_singleton.1 h
    exact List.mem_cons_of_mem _ ht
  | binary _ _ left right | index _ left right =>
    rcases List.mem_pair.1 h with rfl | rfl
    · exact List.mem_append_left _ ht
    · exact List.mem_append_right _ ht
  | call _ recv _ args =>
    rw [typeNames, typeNamesOf?_eq, typeNamesOfAll_eq, ← List.flatMap_append]
    exact List.mem_flatMap.2 ⟨x, h, ht⟩
  | array _ elems =>
    rw [typeNames, typeNamesOfAll_eq]
    exact List.mem_flatMap.2 ⟨x, h, ht⟩

/-- A statement names the types that its parts name. -/
theorem Stmt.typeNames_subset {s x : Stmt} (h : x ∈ s.parts) : x.typeNames ⊆ s.typeNames := by
  intro t ht
  cases s with
  | block _ ss =>
    rw [typeNames, typeNamesInAll_eq]
    exact List.mem_flatMap.2 ⟨x, h, ht⟩
  | cond _ e yes no =>
    rw [typeNames, typeNamesIn?_eq, typeNamesIn?_eq, ← List.flatMap_append]
    exact List.mem_append_right _ (List.mem_flatMap.2 ⟨x, h, ht⟩)
  | loop _ e body =>
    rw [typeNames, typeNamesIn?_eq]
    exact List.mem_append_right _ (List.mem_flatMap.2 ⟨x, h, ht⟩)
  | expr _ _ | assign _ _ _ | indexAssign _ _ _ _ | ret _ _ => cases h

/-- A type name that can be read has a text. -/
theorem TypeName.text_ne_empty {t : TypeName} (h : parse t.text = t) : t.text ≠ "" := by
  intro hempty
  rw [hempty] at h
  have htext : t.text = "void" := by
    rw [← h]
    rfl
  rw [htext] at hempty
  cases hempty

/-- The variable has a name, and the text of its type is read as that type. -/
def VarDecl.Writable (d : VarDecl) : Prop := d.name ≠ "" ∧ TypeName.parse d.type.text = d.type

/-! ## Parts -/

namespace Reading

open Yaml.Node

/-- An entry is found unless one after it has its key. -/
theorem part?_cons (key : String) (e : Node × Node) (entries : List (Node × Node)) :
    part? key (e :: entries) =
      (part? key entries).or (if e.1.text == (key : Text) then some e.2 else none) := by
  rw [part?, part?, List.reverse_cons, List.find?_append, List.find?_singleton, Option.map_or]
  split <;> rfl

/-- What is read under a key is read from the part of that key. -/
theorem eq_map_part? {α : Type} {key : String} {read : Node → α}
    {find : List (Node × Node) → Option α} (hnil : find [] = none)
    (hcons : ∀ k v entries, find ((k, v) :: entries) =
      (find entries).or (if k.text == (key : Text) then some (read v) else none))
    (entries : List (Node × Node)) : find entries = (part? key entries).map read := by
  induction entries with
  | nil => rw [hnil]; rfl
  | cons e entries ih =>
    rw [hcons, ih, part?_cons, Option.map_or]
    cases e.1.text == (key : Text) <;> rfl

theorem exprPart?_eq (key : String) (entries : List (Node × Node)) :
    exprPart? key entries = (part? key entries).map expr := by
  refine eq_map_part? rfl (fun k v entries ↦ ?_) entries
  rw [exprPart?]
  cases exprPart? key entries <;> rfl

theorem exprsPart?_eq (key : String) (entries : List (Node × Node)) :
    exprsPart? key entries = (part? key entries).map exprs := by
  refine eq_map_part? rfl (fun k v entries ↦ ?_) entries
  rw [exprsPart?]
  cases exprsPart? key entries <;> rfl

/-- The body of a conditional or a loop: a list of statements is a block. -/
def body : Node → Except Error Stmt
  | .sequence head items => do return .block head.pos (← stmtList items)
  | n => stmt n

theorem bodyPart?_cons (key : String) (k v : Node) (entries : List (Node × Node)) :
    bodyPart? key ((k, v) :: entries) = match bodyPart? key entries with
      | some r => some r
      | none => if k.text == (key : Text) then some (body v) else none := by
  cases v <;> rfl

theorem bodyPart?_eq (key : String) (entries : List (Node × Node)) :
    bodyPart? key entries = (part? key entries).map body := by
  refine eq_map_part? rfl (fun k v entries ↦ ?_) entries
  rw [bodyPart?_cons]
  cases bodyPart? key entries <;> rfl

theorem part?_partEntries_cons (pos : Position) (key : String) (part : String × Option Node)
    (parts : List (String × Option Node)) :
    part? key (partEntries pos (part :: parts)) =
      (part? key (partEntries pos parts)).or (if part.1 = key then part.2 else none) := by
  obtain ⟨k, _ | n⟩ := part
  · show part? key (partEntries pos parts) = _
    simp
  · show part? key ((.ofText pos k, n) :: partEntries pos parts) = _
    rw [part?_cons, Yaml.Node.text_ofText]
    by_cases h : k = key
    · simp [h]
    · have hk : ((k : Text) == (key : Text)) = false :=
        beq_false_of_ne fun heq ↦ h (Text.ofString_injective heq)
      simp [h, hk]

variable {parts : List (String × Option Node)} {name : Text}

theorem part?_partEntries_of_notMem {pos : Position} {key : String} (h : key ∉ parts.map Prod.fst) :
    part? key (partEntries pos parts) = none := by
  induction parts with
  | nil => rfl
  | cons part parts ih =>
    obtain ⟨hne, h⟩ := not_or.1 (mt List.mem_cons.2 h)
    rw [part?_partEntries_cons, ih h, if_neg (Ne.symm hne), Option.or_none]

/-- A part is found under its key, or nothing is, if the part is left out. -/
theorem part?_partEntries {pos : Position} {key : String} {n : Option Node}
    (hkeys : (parts.map Prod.fst).Nodup) (h : (key, n) ∈ parts) :
    part? key (partEntries pos parts) = n := by
  induction parts with
  | nil => cases h
  | cons part parts ih =>
    obtain ⟨hnew, hkeys⟩ := List.nodup_cons.1 hkeys
    rw [part?_partEntries_cons]
    rcases List.mem_cons.1 h with rfl | h
    · rw [part?_partEntries_of_notMem hnew, if_pos rfl, Option.none_or]
    · have hne : part.1 ≠ key := fun heq ↦ hnew (heq ▸ List.mem_map_of_mem h)
      rw [ih hkeys h, if_neg hne, Option.or_none]

/-- The parts of a mapping under some keys. -/
def HasParts (entries : List (Node × Node)) : List (String × Option Node) → Prop
  | [] => True
  | (key, n) :: parts => part? key entries = n ∧ HasParts entries parts

theorem hasParts_of_forall {entries : List (Node × Node)}
    (h : ∀ part ∈ parts, part? part.1 entries = part.2) : HasParts entries parts := by
  induction parts with
  | nil => trivial
  | cons part parts ih =>
    obtain ⟨hpart, h⟩ := List.forall_mem_cons.1 h
    exact ⟨hpart, ih h⟩

/-- **The parts are found that were written**, if they have different keys. -/
theorem hasParts_partEntries {pos : Position} (hkeys : (parts.map Prod.fst).Nodup) :
    HasParts (partEntries pos parts) parts :=
  hasParts_of_forall fun _ hpart ↦ part?_partEntries hkeys hpart

theorem text_ofText (pos : Position) (t : Text) : text (.ofText pos t) = .ok t := by
  rw [text, Yaml.Node.string?, Yaml.ReadM.outcome, Yaml.readString_ofText rfl]
  rfl

theorem flag_ofBool (pos : Position) (b : Bool) : flag (.ofBool pos b) = .ok b := by
  rw [flag, Yaml.Node.bool?, Yaml.ReadM.outcome, Yaml.readBool_ofBool rfl]
  rfl

variable {key : String} {pos : Position} {entries : List (Node × Node)}

theorem textPart_eq_ok {t : Text} (h : part? key entries = some (.ofText pos t)) :
    textPart key entries = .ok t := by
  rw [textPart, scalarPart, h]
  exact withinPlace_eq_ok.2 (text_ofText pos t)

theorem flagPart_eq_ok {b : Bool} (h : part? key entries = some (.ofBool pos b)) :
    flagPart key entries = .ok b := by
  rw [flagPart, scalarPart, h]
  exact withinPlace_eq_ok.2 (flag_ofBool pos b)

/-! ## Expressions and statements -/

theorem exprList_eq_ok {es : List Expr} (h : ∀ e ∈ es, expr e.toNode = .ok e) :
    exprList (exprNodes es) = .ok es := by
  induction es with
  | nil => rfl
  | cons e es ih =>
    obtain ⟨he, h⟩ := List.forall_mem_cons.1 h
    rw [exprNodes, exprList, he, Except.ok_bind, ih h]
    rfl

theorem stmtList_eq_ok {ss : List Stmt} (h : ∀ s ∈ ss, stmt s.toNode = .ok s) :
    stmtList (stmtNodes ss) = .ok ss := by
  induction ss with
  | nil => rfl
  | cons s ss ih =>
    obtain ⟨hs, h⟩ := List.forall_mem_cons.1 h
    rw [stmtNodes, stmtList, hs, Except.ok_bind, ih h]
    rfl

variable {place : String}

/-- A part that has to be there. -/
theorem required_eq_ok {e : Expr} (h : part? key entries = some e.toNode)
    (he : expr e.toNode = .ok e) :
    withinPlace place (required pos key (exprPart? key entries)) = .ok e := by
  rw [exprPart?_eq, h, Option.map_some, required, he, withinPlace_eq_ok]

theorem optional_eq_ok {e : Option Expr} (h : part? key entries = exprNode? e)
    (he : ∀ x ∈ e, expr x.toNode = .ok x) :
    withinPlace place (optional (exprPart? key entries)) = .ok e := by
  rw [exprPart?_eq, h, withinPlace_eq_ok]
  cases e with
  | none => rfl
  | some x =>
    rw [exprNode?, Option.map_some, optional, he x rfl]
    rfl

theorem body_eq_ok {s : Option Stmt} (h : part? key entries = stmtNode? s)
    (hs : ∀ x ∈ s, stmt x.toNode = .ok x) :
    withinPlace place (optional (bodyPart? key entries)) = .ok s := by
  rw [bodyPart?_eq, h, withinPlace_eq_ok]
  cases s with
  | none => rfl
  | some x =>
    have hbody : body x.toNode = stmt x.toNode := by
      cases x with
      | ret pos value => cases value <;> rfl
      | _ => rfl
    rw [stmtNode?, Option.map_some, optional, hbody, hs x rfl]
    rfl

variable {head : Yaml.Head}

theorem binary_eq_ok {op : Text} {left right : Expr}
    (h : HasParts entries
      [("op", some (.ofText pos op)), ("left", some left.toNode), ("right", some right.toNode)])
    (hl : expr left.toNode = .ok left) (hr : expr right.toNode = .ok right) :
    binary pos (.mapping head entries) = .ok (.binary pos op left right) := by
  obtain ⟨hop, hleft, hright, -⟩ := h
  rw [binary, textPart_eq_ok hop, Except.ok_bind, required_eq_ok hleft hl, Except.ok_bind,
    required_eq_ok hright hr]
  rfl

theorem unary_eq_ok {op : Text} {arg : Expr}
    (h : HasParts entries [("op", some (.ofText pos op)), ("x", some arg.toNode)])
    (ha : expr arg.toNode = .ok arg) :
    unary pos (.mapping head entries) = .ok (.unary pos op arg) := by
  obtain ⟨hop, harg, -⟩ := h
  rw [unary, textPart_eq_ok hop, Except.ok_bind, required_eq_ok harg ha]
  rfl

theorem call_eq_ok {recv : Option Expr} {args : List Expr} (h : HasParts entries
      [("recv", exprNode? recv), ("name", some (.ofText pos name)),
       ("args", some (.ofItems pos (exprNodes args)))]) (hr : ∀ e ∈ recv, expr e.toNode = .ok e)
    (ha : ∀ e ∈ args, expr e.toNode = .ok e) :
    call pos (.mapping head entries) = .ok (.call pos recv name args) := by
  obtain ⟨hrecv, hname, hargs, -⟩ := h
  have hlist : exprs (.ofItems pos (exprNodes args)) = .ok args := exprList_eq_ok ha
  rw [call, textPart_eq_ok hname, Except.ok_bind, optional_eq_ok hrecv hr, Except.ok_bind,
    exprsPart?_eq, hargs, Option.map_some, hlist]
  rfl

theorem newArray_eq_ok {elem : TypeName} {size : Expr}
    (h : HasParts entries [("type", some (.ofText pos elem.text)), ("size", some size.toNode)])
    (helem : TypeName.parse elem.text = elem) (hs : expr size.toNode = .ok size) :
    newArray pos (.mapping head entries) = .ok (.newArray pos elem size) := by
  obtain ⟨htype, hsize, -⟩ := h
  have hint : (if elem.text = "" then "int" else elem.text : Text) = elem.text :=
    if_neg (TypeName.text_ne_empty helem)
  rw [newArray, textPart_eq_ok htype, Except.ok_bind]
  simp only [hint, helem, required_eq_ok hsize hs]
  rfl

theorem index_eq_ok {base i : Expr}
    (h : HasParts entries [("x", some base.toNode), ("index", some i.toNode)])
    (hb : expr base.toNode = .ok base) (hi : expr i.toNode = .ok i) :
    index pos (.mapping head entries) = .ok (.index pos base i) := by
  obtain ⟨hbase, hindex, -⟩ := h
  rw [index, required_eq_ok hbase hb, Except.ok_bind, required_eq_ok hindex hi]
  rfl

theorem assign_eq_ok {value : Expr}
    (h : HasParts entries [("name", some (.ofText pos name)), ("value", some value.toNode)])
    (hv : expr value.toNode = .ok value) :
    assign pos (.mapping head entries) = .ok (.assign pos name value) := by
  obtain ⟨hname, hvalue, -⟩ := h
  rw [assign, textPart_eq_ok hname, Except.ok_bind, required_eq_ok hvalue hv]
  rfl

theorem indexAssign_eq_ok {i value : Expr} (h : HasParts entries
      [("name", some (.ofText pos name)), ("index", some i.toNode), ("value", some value.toNode)])
    (hi : expr i.toNode = .ok i) (hv : expr value.toNode = .ok value) :
    indexAssign pos (.mapping head entries) = .ok (.indexAssign pos name i value) := by
  obtain ⟨hname, hindex, hvalue, -⟩ := h
  rw [indexAssign, textPart_eq_ok hname, Except.ok_bind, required_eq_ok hindex hi, Except.ok_bind,
    required_eq_ok hvalue hv]
  rfl

theorem cond_eq_ok {test : Expr} {yes no : Option Stmt}
    (h : HasParts entries
      [("cond", some test.toNode), ("then", stmtNode? yes), ("else", stmtNode? no)])
    (ht : expr test.toNode = .ok test) (hy : ∀ s ∈ yes, stmt s.toNode = .ok s)
    (hn : ∀ s ∈ no, stmt s.toNode = .ok s) :
    cond pos (.mapping head entries) = .ok (.cond pos test yes no) := by
  obtain ⟨htest, hyes, hno, -⟩ := h
  rw [cond, required_eq_ok htest ht, Except.ok_bind, body_eq_ok hyes hy, Except.ok_bind,
    body_eq_ok hno hn]
  rfl

theorem loop_eq_ok {test : Expr} {b : Option Stmt}
    (h : HasParts entries [("cond", some test.toNode), ("body", stmtNode? b)])
    (ht : expr test.toNode = .ok test) (hb : ∀ s ∈ b, stmt s.toNode = .ok s) :
    loop pos (.mapping head entries) = .ok (.loop pos test b) := by
  obtain ⟨htest, hbody, -⟩ := h
  rw [loop, required_eq_ok htest ht, Except.ok_bind, body_eq_ok hbody hb]
  rfl

theorem expr_toNode {e : Expr} (h : ∀ t ∈ e.typeNames, TypeName.parse t.text = t) :
    expr e.toNode = .ok e := by
  induction e using Expr.induction with
  | h e ih =>
    replace ih : ∀ x ∈ e.parts, expr x.toNode = .ok x :=
      fun x hx ↦ ih x hx fun t ht ↦ h t (Expr.typeNames_subset hx ht)
    cases e with
    | int pos text | ident pos name | this pos | new pos cls => rfl
    | bool pos b =>
      show (do return Expr.bool pos (← withinPlace "bool" (flag (.ofBool pos b)))) = _
      rw [flag_ofBool]
      rfl
    | paren pos e =>
      show (do return Expr.paren pos (← expr e.toNode)) = _
      rw [ih e (by simp)]
      rfl
    | binary pos op left right =>
      exact binary_eq_ok (hasParts_partEntries (by simp)) (ih left (by simp))
        (ih right (by simp))
    | unary pos op arg =>
      exact unary_eq_ok (hasParts_partEntries (by simp)) (ih arg (by simp))
    | call pos recv name args =>
      show call pos (.ofParts pos _) = _
      exact call_eq_ok (hasParts_partEntries (by simp)) (fun e he ↦ ih e (Expr.mem_parts_receiver he))
        fun e he ↦ ih e (Expr.mem_parts_arg he)
    | newArray pos elem size =>
      have helem : TypeName.parse elem.text = elem := h elem (by simp [Expr.typeNames])
      exact newArray_eq_ok (hasParts_partEntries (by simp)) helem (ih size (by simp))
    | array pos elems =>
      have hlist : exprList (exprNodes elems) = .ok elems := exprList_eq_ok ih
      show (do return Expr.array pos (← withinPlace "array literal" (exprList (exprNodes elems)))) = _
      rw [hlist]
      rfl
    | index pos base i =>
      exact index_eq_ok (hasParts_partEntries (by simp)) (ih base (by simp))
        (ih i (by simp))
    | length pos arg =>
      show (do return Expr.length pos (← expr arg.toNode)) = _
      rw [ih arg (by simp)]
      rfl

theorem stmt_toNode {s : Stmt} (h : ∀ t ∈ s.typeNames, TypeName.parse t.text = t) :
    stmt s.toNode = .ok s := by
  induction s using Stmt.induction with
  | h s ih =>
    replace ih : ∀ x ∈ s.parts, stmt x.toNode = .ok x :=
      fun x hx ↦ ih x hx fun t ht ↦ h t (Stmt.typeNames_subset hx ht)
    cases s with
    | block pos ss =>
      have hlist : stmtList (stmtNodes ss) = .ok ss := stmtList_eq_ok ih
      show (do return Stmt.block pos (← stmtList (stmtNodes ss))) = _
      rw [hlist]
      rfl
    | cond pos test yes no =>
      have htest : expr test.toNode = .ok test := expr_toNode (List.forall_mem_append.1 h).1
      exact cond_eq_ok (hasParts_partEntries (by simp)) htest
        (fun x hx ↦ ih x (Stmt.mem_parts_onTrue hx)) fun x hx ↦ ih x (Stmt.mem_parts_onFalse hx)
    | loop pos test body =>
      have htest : expr test.toNode = .ok test := expr_toNode (List.forall_mem_append.1 h).1
      exact loop_eq_ok (hasParts_partEntries (by simp)) htest
        fun x hx ↦ ih x (Stmt.mem_parts_loop hx)
    | expr pos value =>
      show (do return Stmt.expr pos (← expr value.toNode)) = _
      rw [expr_toNode h]
      rfl
    | assign pos name value =>
      exact assign_eq_ok (hasParts_partEntries (by simp)) (expr_toNode h)
    | indexAssign pos name i value =>
      obtain ⟨hi, hv⟩ := List.forall_mem_append.1 h
      exact indexAssign_eq_ok (hasParts_partEntries (by simp)) (expr_toNode hi) (expr_toNode hv)
    | ret pos value =>
      cases value with
      | none => rfl
      | some e =>
        have hnull : e.toNode.isNull = false := by cases e <;> rfl
        show (if e.toNode.isNull then _ else
          (do return Stmt.ret pos (some (← withinPlace "return" (expr e.toNode))))) = _
        rw [hnull, expr_toNode h]
        rfl

/-! ## Declarations -/

theorem varDecl_toNode {d : VarDecl} (h : d.Writable) : varDecl d.toNode = .ok d := by
  obtain ⟨hname, htype⟩ := h
  have hrecord : record varSchema d.toNode =
      .ok ⟨[("final", .flag d.isFinal), ("static", .flag d.isStatic), ("public", .flag d.isPublic),
        ("type", .text d.type.text), ("name", .text d.name)]⟩ := by
    rw [record, VarDecl.toNode, Yaml.record?_toNode]
    · rfl
    · simp
    · simp [Yaml.Schema.Admits, varSchema]
  rw [varDecl, withinPlace_eq_ok.2 hrecord, Except.ok_bind]
  show (if d.name = "" then _ else _) = _
  rw [if_neg hname]
  show Except.ok { d with type := TypeName.parse d.type.text } = _
  rw [htype]

/-- Declarations that are read one by one. -/
theorem mapM_toNode {α : Type} {xs : List α} {write : α → Node} {read : Node → Except Error α}
    (h : ∀ x ∈ xs, read (write x) = .ok x) : (xs.map write).mapM read = .ok xs := by
  rw [Except.mapM_eq_ok, List.forall₂_map_left_iff, List.forall₂_same]
  exact h

theorem varDecls_eq_ok {ds : List VarDecl}
    (h : part? key entries = some (.ofItems pos (ds.map VarDecl.toNode)))
    (hds : ∀ d ∈ ds, d.Writable) : withinPlace place (varDecls key entries) = .ok ds := by
  rw [withinPlace_eq_ok, varDecls, h]
  exact mapM_toNode fun d hd ↦ varDecl_toNode (hds d hd)

theorem methodDecl_eq_ok {m : MethodDecl} (hpos : head.pos = m.pos) (h : HasParts entries m.toParts)
    (hname : m.name ≠ "") (hret : TypeName.parse m.ret.text = m.ret)
    (hvars : ∀ d ∈ m.params ++ m.locals, d.Writable) (hbody : ∀ s ∈ m.body, stmt s.toNode = .ok s) :
    methodDecl (.mapping head entries) = .ok m := by
  obtain ⟨hnamed, hpublic, hstatic, hreturned, hparams, hlocals, hstmts, -⟩ := h
  obtain ⟨hp, hl⟩ := List.forall_mem_append.1 hvars
  have hread : stmts (.ofItems m.pos (stmtNodes m.body)) = .ok m.body := stmtList_eq_ok hbody
  rw [methodDecl, textPart_eq_ok hnamed, Except.ok_bind, flagPart_eq_ok hpublic, Except.ok_bind,
    flagPart_eq_ok hstatic, Except.ok_bind, textPart_eq_ok hreturned, Except.ok_bind]
  simp only [if_neg hname, varDecls_eq_ok hparams hp, varDecls_eq_ok hlocals hl, hstmts, hread, hret,
    hpos, Except.ok_bind]
  rfl

theorem classDecl_eq_ok {c : ClassDecl} (hpos : head.pos = c.pos) (h : HasParts entries c.toParts)
    (hname : c.name ≠ "") (hfields : ∀ d ∈ c.fields, d.Writable)
    (hmethods : ∀ m ∈ c.methods, methodDecl m.toNode = .ok m) :
    classDecl (.mapping head entries) = .ok c := by
  obtain ⟨hnamed, hsuper, hvars, hdecls, -⟩ := h
  have hread : methodDecls entries = .ok c.methods := by
    rw [methodDecls, hdecls]
    exact mapM_toNode fun m hm ↦ withinPlace_eq_ok.2 (hmethods m hm)
  rw [classDecl, textPart_eq_ok hnamed, Except.ok_bind, textPart_eq_ok hsuper, Except.ok_bind]
  simp only [if_neg hname, varDecls_eq_ok hvars hfields, hread, hpos, Except.ok_bind]
  rfl

/-- The parts of a path are found between its dots. -/
theorem splitPath_intercalate {path : List Text} (hfree : ∀ part ∈ path, Sign.char '.' ∉ part.signs)
    (hpath : path ≠ []) : splitPath (Text.intercalate "." path) = path := by
  have hdot : (("." : String) : Text).signs = [.char '.'] := rfl
  have hsplit : (List.intercalate [.char '.'] (path.map Text.signs)).splitOn (.char '.') =
      path.map Text.signs :=
    List.splitOn_intercalate (Sign.char '.') (List.forall_mem_map.2 hfree)
      (mt List.map_eq_nil_iff.1 hpath)
  rw [splitPath, Text.splitOn, Text.intercalate, hdot, hsplit, List.map_map]
  exact List.map_id path

theorem importDecl_toNode {i : ImportDecl} (hfree : ∀ part ∈ i.path, Sign.char '.' ∉ part.signs)
    (hdotted : i.dotted ≠ "") : importDecl i.toNode = .ok i := by
  have hpath : i.path ≠ [] := by
    intro hnil
    rw [ImportDecl.dotted, hnil] at hdotted
    exact hdotted rfl
  have hrecord : record importSchema i.toNode =
      .ok ⟨[("interface", .flag i.isInterface), ("path", .text i.dotted)]⟩ := by
    rw [record, ImportDecl.toNode, Yaml.record?_toNode]
    · rfl
    · simp
    · simp [Yaml.Schema.Admits, importSchema]
  have hread : importDecl i.toNode = importOf i.pos i.dotted i.isInterface := by
    show (withinPlace "decode" (record importSchema i.toNode) >>= fun r ↦
      importOf i.pos (r.text "path") (r.flag "interface")) = _
    rw [hrecord]
    rfl
  rw [hread, importOf, if_neg hdotted, ImportDecl.dotted, splitPath_intercalate hfree hpath]

theorem program_eq_ok {p : Program} (hpos : head.pos = p.pos) (h : HasParts entries p.toParts)
    (himports : ∀ i ∈ p.imports, importDecl i.toNode = .ok i)
    (hcls : classDecl p.cls.toNode = .ok p.cls) : program (.mapping head entries) = .ok p := by
  obtain ⟨hdecls, hdecl, -⟩ := h
  have hread : importDecls entries = .ok p.imports := by
    rw [importDecls, hdecls]
    exact mapM_toNode fun i hi ↦ withinPlace_eq_ok.2 (himports i hi)
  rw [program, hread, Except.ok_bind]
  simp only [hdecl, hcls, hpos]
  rfl

end Reading

/-! ## Programs -/

/-- The variables that a method declares. -/
def MethodDecl.variables (m : MethodDecl) : List VarDecl := m.params ++ m.locals

/-- The variables that a program declares. -/
def Program.variables (p : Program) : List VarDecl :=
  p.cls.fields ++ p.cls.methods.flatMap MethodDecl.variables

/-- The types that a program names. -/
def Program.typeNames (p : Program) : List TypeName :=
  p.variables.map VarDecl.type ++
    p.cls.methods.flatMap fun m ↦ m.ret :: m.body.flatMap Stmt.typeNames

/-- What is asked of a program that is to be written. -/
structure Program.Writable (p : Program) : Prop where
  className : p.cls.name ≠ ""
  methodNames : ∀ m ∈ p.cls.methods, m.name ≠ ""
  variableNames : ∀ d ∈ p.variables, d.name ≠ ""
  /-- Dots only stand between the parts of a path. -/
  importParts : ∀ i ∈ p.imports, ∀ part ∈ i.path, Sign.char '.' ∉ part.signs
  importPaths : ∀ i ∈ p.imports, i.dotted ≠ ""
  /-- The text of every type that is named is read as that type. -/
  typeNames : ∀ t ∈ p.typeNames, TypeName.parse t.text = t

namespace Program.Writable

open Reading

variable {p : Program}

/-- Every declared variable can be written. -/
theorem varDecl (h : p.Writable) {d : VarDecl} (hd : d ∈ p.variables) : d.Writable := by
  have htype : d.type ∈ p.typeNames := List.mem_append_left _ (List.mem_map_of_mem hd)
  exact ⟨h.variableNames d hd, h.typeNames d.type htype⟩

theorem methodDecl_toNode (h : p.Writable) {m : MethodDecl} (hm : m ∈ p.cls.methods) :
    methodDecl m.toNode = .ok m := by
  have hvars : ∀ d ∈ m.params ++ m.locals, d.Writable :=
    fun d hd ↦ h.varDecl (List.mem_append_right _ (List.mem_flatMap.2 ⟨m, hm, hd⟩))
  have htypes : ∀ t ∈ m.ret :: m.body.flatMap Stmt.typeNames, TypeName.parse t.text = t :=
    fun t ht ↦ h.typeNames t (List.mem_append_right _ (List.mem_flatMap.2 ⟨m, hm, ht⟩))
  obtain ⟨hret, hbody⟩ := List.forall_mem_cons.1 htypes
  have hstmts : ∀ s ∈ m.body, stmt s.toNode = .ok s :=
    fun s hs ↦ stmt_toNode fun t ht ↦ hbody t (List.mem_flatMap.2 ⟨s, hs, ht⟩)
  have hkeys : (m.toParts.map Prod.fst).Nodup := by simp [MethodDecl.toParts]
  exact methodDecl_eq_ok rfl (hasParts_partEntries hkeys) (h.methodNames m hm) hret hvars hstmts

theorem classDecl_toNode (h : p.Writable) : classDecl p.cls.toNode = .ok p.cls := by
  have hfields : ∀ d ∈ p.cls.fields, d.Writable :=
    fun d hd ↦ h.varDecl (List.mem_append_left _ hd)
  have hkeys : (p.cls.toParts.map Prod.fst).Nodup := by simp [ClassDecl.toParts]
  exact classDecl_eq_ok rfl (hasParts_partEntries hkeys) h.className hfields
    fun m hm ↦ h.methodDecl_toNode hm

end Program.Writable

/-- **A program that is written is read again**, with all its parts and positions. -/
theorem Reading.program_toNode (p : Program) (h : p.Writable) : program p.toNode = .ok p := by
  have himports : ∀ i ∈ p.imports, importDecl i.toNode = .ok i :=
    fun i hi ↦ importDecl_toNode (h.importParts i hi) (h.importPaths i hi)
  have hkeys : (p.toParts.map Prod.fst).Nodup := by simp [Program.toParts]
  exact program_eq_ok rfl (hasParts_partEntries hkeys) himports h.classDecl_toNode

/-- A program with every form of statement and expression, some of them with parts left out. -/
def gallery : Program :=
  { pos := ⟨1, 1⟩
    imports := [
      { pos := ⟨1, 12⟩, path := ["java", "lang", "Runnable"], isInterface := true },
      { pos := ⟨2, 12⟩, path := ["Base"] }]
    cls := {
      pos := ⟨4, 3⟩
      name := "Gallery"
      super := "Base"
      fields := [
        { pos := ⟨7, 7⟩
          name := "walls"
          type := { name := "int", array := true }
          isFinal := true }]
      methods := [
        { pos := ⟨10, 7⟩
          name := "main"
          isPublic := true
          isStatic := true
          ret := { name := "void" }
          params := [
            { pos := ⟨14, 11⟩
              name := "args"
              type := { name := "String", array := true, varargs := true } }]
          body := [
            .loop ⟨17, 11⟩ (.bool ⟨17, 19⟩ false) none,
            .ret ⟨18, 11⟩ none] },
        { pos := ⟨20, 7⟩
          name := "visit"
          ret := { name := "int" }
          locals := [{ pos := ⟨23, 11⟩, name := "x", type := { name := "Base" } }]
          body := [
            .assign ⟨25, 11⟩ "x" (.new ⟨26, 18⟩ "Base"),
            .indexAssign ⟨27, 11⟩ "walls" (.int ⟨28, 18⟩ "0x10")
              (.length ⟨29, 18⟩ (.newArray ⟨30, 18⟩ { name := "int" } (.int ⟨31, 24⟩ "3"))),
            .cond ⟨32, 11⟩ (.unary ⟨33, 17⟩ "!" (.bool ⟨34, 21⟩ true))
              (some (.block ⟨35, 17⟩ []))
              (some (.cond ⟨36, 17⟩ (.bool ⟨36, 22⟩ true) none none)),
            .loop ⟨37, 11⟩ (.bool ⟨38, 17⟩ false)
              (some (.expr ⟨39, 17⟩ (.call ⟨39, 23⟩ none "visit" []))),
            .ret ⟨40, 11⟩ (some (.binary ⟨41, 13⟩ "+"
              (.call ⟨42, 15⟩ (some (.paren ⟨42, 21⟩ (.this ⟨42, 30⟩))) "sum"
                [.array ⟨43, 20⟩ [.int ⟨43, 24⟩ "1"], .ident ⟨44, 20⟩ "walls"])
              (.index ⟨45, 15⟩ (.ident ⟨45, 20⟩ "walls") (.int ⟨46, 20⟩ "-1"))))] }] } }

theorem gallery_is_read : gallery.Writable ∧ Reading.program gallery.toNode = .ok gallery := by
  have hwritable : gallery.Writable :=
    { className := by decide
      methodNames := by decide
      variableNames := by decide
      importParts := by decide
      importPaths := by decide
      typeNames := by decide +kernel }
  exact ⟨hwritable, Reading.program_toNode gallery hwritable⟩

end MiniJava
