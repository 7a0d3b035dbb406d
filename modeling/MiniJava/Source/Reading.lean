import MiniJava.Error
import MiniJava.Source.Syntax
import MiniJava.Yaml.Stream
import MiniJava.Yaml.Value

/-!
# Reading programs

A program is written as a YAML document: a mapping with the imports and the class.  A statement or
an expression is a mapping with one entry, whose key says which form it has and whose value holds
the parts of it.

* A part is found by the text of its key; of several entries with one key the last one counts, and
  keys that mean nothing are passed over.
* Integers, names and classes are taken as the text of their node, whatever the node is.
* Declarations are read as records, strings and booleans as values; there aliases are followed.

The first fault in the order of reading is reported, with the places on the way to it.
-/

set_option autoImplicit false

namespace MiniJava

open Yaml (Node)

namespace Reading

/-! ## Values -/

/-- What was read of a node, if it fits. -/
def settle {α : Type} : Except Yaml.Halt (α × List Yaml.Mismatch) → Except Error α
  | .error (.malformed fault) => .error { cause := .malformed fault }
  | .error .collectionKey => .error { cause := .collectionKey }
  | .ok (v, []) => .ok v
  | .ok (_, found) => .error { cause := .mismatch found }

/-- A node as a string; the null is an empty one. -/
def text (n : Node) : Except Error Text := do return (← settle n.string?).getD ""

/-- A node as a boolean; the null is false. -/
def flag (n : Node) : Except Error Bool := do return (← settle n.bool?).getD false

/-- A node as a record. -/
def record (s : Yaml.Schema) (n : Node) : Except Error Yaml.Record := settle (n.record? s)

/-- The value of the last entry with a key. -/
def part? (key : String) (entries : List (Node × Node)) : Option Node :=
  (entries.reverse.find? fun e ↦ e.1.text == (key : Text)).map Prod.snd

/-- A scalar part of a mapping; `default` stands for one that is left out. -/
def scalarPart {α : Type} (default : α) (read : Node → Except Error α) (key : String)
    (entries : List (Node × Node)) : Except Error α :=
  match part? key entries with
  | none => .ok default
  | some n =>
    match n with
    | .scalar _ _ => withinPlace key (read n)
    | _ => .error (.source n.pos (.scalar key))

/-- A part that is a string. -/
def textPart (key : String) (entries : List (Node × Node)) : Except Error Text :=
  scalarPart "" text key entries

/-- A part that is a boolean. -/
def flagPart (key : String) (entries : List (Node × Node)) : Except Error Bool :=
  scalarPart false flag key entries

/-- A part that may not be left out. -/
def required {α : Type} (pos : Position) (key : String) :
    Option (Except Error α) → Except Error α
  | some r => r
  | none => .error (.source pos (.part key))

/-- A part that may be left out. -/
def optional {α : Type} : Option (Except Error α) → Except Error (Option α)
  | some r => do return some (← r)
  | none => .ok none

/-! ## Expressions -/

mutual

/-- Reads an expression. -/
def expr : Node → Except Error Expr
  | .mapping head [(k, v)] =>
    match k.text.string? with
    | some "int" => .ok (.int head.pos v.text)
    | some "bool" => do return .bool head.pos (← withinPlace "bool" (flag v))
    | some "ident" => .ok (.ident head.pos v.text)
    | some "this" => .ok (.this head.pos)
    | some "paren" => do return .paren head.pos (← expr v)
    | some "binary" => binary head.pos v
    | some "unary" => unary head.pos v
    | some "call" => call head.pos v
    | some "new" => .ok (.new head.pos v.text)
    | some "new_array" => newArray head.pos v
    | some "array" => do return .array head.pos (← withinPlace "array literal" (exprs v))
    | some "index" => index head.pos v
    | some "length" => do return .length head.pos (← expr v)
    | _ => .error (.source head.pos (.unknownExpression k.text.shown))
  | n => .error (.source n.pos .singleKey)
termination_by structural n => n

/-- Reads the parts of a binary expression. -/
def binary (pos : Position) : Node → Except Error Expr
  | .mapping head entries => do
    let op ← textPart "op" entries
    let left ← withinPlace s!"binary {op}" (required head.pos "left" (exprPart? "left" entries))
    let right ← withinPlace s!"binary {op}" (required head.pos "right" (exprPart? "right" entries))
    return .binary pos op left right
  | n => .error (.source n.pos .mapping)
termination_by structural n => n

/-- Reads the parts of a unary expression. -/
def unary (pos : Position) : Node → Except Error Expr
  | .mapping head entries => do
    let op ← textPart "op" entries
    let arg ← withinPlace s!"unary {op}" (required head.pos "x" (exprPart? "x" entries))
    return .unary pos op arg
  | n => .error (.source n.pos .mapping)
termination_by structural n => n

/-- Reads the parts of a call. -/
def call (pos : Position) : Node → Except Error Expr
  | .mapping _ entries => do
    let name ← textPart "name" entries
    let recv ← withinPlace s!"call {name}" (optional (exprPart? "recv" entries))
    let args ← withinPlace s!"call {name}: args" (optional (exprsPart? "args" entries))
    return .call pos recv name (args.getD [])
  | n => .error (.source n.pos .mapping)
termination_by structural n => n

/-- Reads the parts of an array allocation; its elements are integers if nothing else is said. -/
def newArray (pos : Position) : Node → Except Error Expr
  | .mapping head entries => do
    let elem ← textPart "type" entries
    let elem : Text := if elem = "" then "int" else elem
    let size ← withinPlace "new array" (required head.pos "size" (exprPart? "size" entries))
    return .newArray pos (.parse elem) size
  | n => .error (.source n.pos .mapping)
termination_by structural n => n

/-- Reads the parts of an access to an element. -/
def index (pos : Position) : Node → Except Error Expr
  | .mapping head entries => do
    let base ← withinPlace "index" (required head.pos "x" (exprPart? "x" entries))
    let i ← withinPlace "index" (required head.pos "index" (exprPart? "index" entries))
    return .index pos base i
  | n => .error (.source n.pos .mapping)
termination_by structural n => n

/-- Reads a list of expressions. -/
def exprs : Node → Except Error (List Expr)
  | .sequence _ items => exprList items
  | n => .error (.source n.pos .expressions)
termination_by structural n => n

/-- Reads expressions in order. -/
def exprList : List Node → Except Error (List Expr)
  | [] => .ok []
  | n :: rest => do
    let e ← expr n
    return e :: (← exprList rest)
termination_by structural ns => ns

/-- Reads the expression under a key, if there is one. -/
def exprPart? (key : String) : List (Node × Node) → Option (Except Error Expr)
  | [] => none
  | (k, v) :: rest =>
    match exprPart? key rest with
    | some r => some r
    | none => if k.text == (key : Text) then some (expr v) else none
termination_by structural es => es

/-- Reads the list of expressions under a key, if there is one. -/
def exprsPart? (key : String) : List (Node × Node) → Option (Except Error (List Expr))
  | [] => none
  | (k, v) :: rest =>
    match exprsPart? key rest with
    | some r => some r
    | none => if k.text == (key : Text) then some (exprs v) else none
termination_by structural es => es

end

/-! ## Statements -/

/-- Reads the parts of an assignment. -/
def assign (pos : Position) : Node → Except Error Stmt
  | .mapping head entries => do
    let name ← textPart "name" entries
    let value ←
      withinPlace s!"assign {name}" (required head.pos "value" (exprPart? "value" entries))
    return .assign pos name value
  | n => .error (.source n.pos .mapping)

/-- Reads the parts of an assignment to an element. -/
def indexAssign (pos : Position) : Node → Except Error Stmt
  | .mapping head entries => do
    let name ← textPart "name" entries
    let i ← withinPlace s!"assign {name}" (required head.pos "index" (exprPart? "index" entries))
    let value ←
      withinPlace s!"assign {name}" (required head.pos "value" (exprPart? "value" entries))
    return .indexAssign pos name i value
  | n => .error (.source n.pos .mapping)

mutual

/-- Reads a statement. -/
def stmt : Node → Except Error Stmt
  | .mapping head [(k, v)] =>
    match k.text.string? with
    | some "block" => do return .block head.pos (← stmts v)
    | some "if" => cond head.pos v
    | some "while" => loop head.pos v
    | some "expr" => do return .expr head.pos (← expr v)
    | some "assign" => assign head.pos v
    | some "index_assign" => indexAssign head.pos v
    | some "return" =>
      if v.isNull then .ok (.ret head.pos none)
      else do return .ret head.pos (some (← withinPlace "return" (expr v)))
    | _ => .error (.source head.pos (.unknownStatement k.text.shown))
  | n => .error (.source n.pos .singleKey)
termination_by structural n => n

/-- Reads the parts of a conditional. -/
def cond (pos : Position) : Node → Except Error Stmt
  | .mapping head entries => do
    let test ← withinPlace "if" (required head.pos "cond" (exprPart? "cond" entries))
    let onTrue ← withinPlace "then" (optional (bodyPart? "then" entries))
    let onFalse ← withinPlace "else" (optional (bodyPart? "else" entries))
    return .cond pos test onTrue onFalse
  | n => .error (.source n.pos .mapping)
termination_by structural n => n

/-- Reads the parts of a loop. -/
def loop (pos : Position) : Node → Except Error Stmt
  | .mapping head entries => do
    let test ← withinPlace "while" (required head.pos "cond" (exprPart? "cond" entries))
    let b ← withinPlace "while body" (optional (bodyPart? "body" entries))
    return .loop pos test b
  | n => .error (.source n.pos .mapping)
termination_by structural n => n

/-- Reads a list of statements. -/
def stmts : Node → Except Error (List Stmt)
  | .sequence _ items => stmtList items
  | n => .error (.source n.pos .statements)
termination_by structural n => n

/-- Reads statements in order. -/
def stmtList : List Node → Except Error (List Stmt)
  | [] => .ok []
  | n :: rest => do
    let s ← stmt n
    return s :: (← stmtList rest)
termination_by structural ns => ns

/-- Reads the statement under the last entry with a key; a list of statements is a block. -/
def bodyPart? (key : String) : List (Node × Node) → Option (Except Error Stmt)
  | [] => none
  | (k, v) :: rest =>
    match bodyPart? key rest with
    | some r => some r
    | none =>
      if k.text == (key : Text) then
        match v with
        | .sequence head items => some do return .block head.pos (← stmtList items)
        | v => some (stmt v)
      else none
termination_by structural es => es

end

/-! ## Declarations -/

/-- The fields of a declared variable. -/
def varSchema : Yaml.Schema :=
  { target := "ast.varDeclDoc", texts := ["name", "type"], flags := ["public", "static", "final"] }

/-- The fields of an import that is written as a mapping. -/
def importSchema : Yaml.Schema :=
  { target := "ast.importDoc", texts := ["path"], flags := ["interface"] }

/-- Reads the declaration of a variable. -/
def varDecl (n : Node) : Except Error VarDecl := do
  let r ← withinPlace "decode" (record varSchema n)
  let name := r.text "name"
  if name = "" then throw (.source n.pos .variableName)
  return { pos := n.pos, name, type := .parse (r.text "type"), isPublic := r.flag "public",
           isStatic := r.flag "static", isFinal := r.flag "final" }

/-- Reads the declarations under a key, which may be left out. -/
def varDecls (key : String) (entries : List (Node × Node)) : Except Error (List VarDecl) :=
  match part? key entries with
  | none => .ok []
  | some (.sequence _ items) => items.mapM varDecl
  | some n => .error (.source n.pos .declarations)

/-- Reads the declaration of a method. -/
def methodDecl : Node → Except Error MethodDecl
  | .mapping head entries => do
    let name ← textPart "name" entries
    let isPublic ← flagPart "public" entries
    let isStatic ← flagPart "static" entries
    let ret ← textPart "ret" entries
    if name = "" then throw (.source head.pos .methodName)
    let params ← withinPlace s!"{name}: params" (varDecls "params" entries)
    let locals ← withinPlace s!"{name}: locals" (varDecls "locals" entries)
    let body ← match part? "body" entries with
      | none => pure []
      | some n => withinPlace s!"{name}: body" (stmts n)
    return { pos := head.pos, name, isPublic, isStatic, ret := .parse ret, params, locals, body }
  | n => .error (.source n.pos .mapping)

/-- Reads the methods of a class. -/
def methodDecls (entries : List (Node × Node)) : Except Error (List MethodDecl) :=
  match part? "methods" entries with
  | none => .ok []
  | some (.sequence _ items) => items.mapM fun n ↦ withinPlace "method" (methodDecl n)
  | some n => .error (.source n.pos .methods)

/-- Reads the declaration of a class. -/
def classDecl : Node → Except Error ClassDecl
  | .mapping head entries => do
    let name ← textPart "name" entries
    let super ← textPart "extends" entries
    if name = "" then throw (.source head.pos .className)
    let fields ← withinPlace "fields" (varDecls "fields" entries)
    let methods ← methodDecls entries
    return { pos := head.pos, name, super, fields, methods }
  | n => .error (.source n.pos .mapping)

/-- The parts of a path divided by dots. -/
def splitPath (path : Text) : List Text := path.splitOn '.'

/-- The import of a path. -/
def importOf (pos : Position) (path : Text) (isInterface : Bool) : Except Error ImportDecl :=
  if path = "" then .error (.source pos .emptyImportPath)
  else .ok { pos, path := splitPath path, isInterface }

/-- Reads an import: a path by itself, or a mapping that has one. -/
def importDecl : Node → Except Error ImportDecl
  | .scalar head path => importOf head.pos path false
  | .mapping head entries => do
    let r ← withinPlace "decode" (record importSchema (.mapping head entries))
    importOf head.pos (r.text "path") (r.flag "interface")
  | n => .error (.source n.pos .importPath)

/-- Reads the imports of a program. -/
def importDecls (entries : List (Node × Node)) : Except Error (List ImportDecl) :=
  match part? "imports" entries with
  | none => .ok []
  | some (.sequence _ items) => items.mapM fun n ↦ withinPlace "import" (importDecl n)
  | some n => .error (.source n.pos .imports)

/-- Reads a program. -/
def program : Node → Except Error Program
  | .mapping head entries => do
    let imports ← importDecls entries
    match part? "class" entries with
    | none => throw (.source head.pos .cls)
    | some n =>
      let cls ← withinPlace "class" (classDecl n)
      return { pos := head.pos, imports, cls }
  | n => .error (.source n.pos .mapping)

end Reading

namespace Program

/-- The programs that nodes hold, the first of which is the document of number `n`. -/
def ofNodes : Nat → List Node → Except Error (List Program)
  | _, [] => .ok []
  | n, node :: rest => do
    let p ← withinPlace s!"document {n}" (Reading.program node)
    return p :: (← ofNodes (n + 1) rest)

/-- The programs of a stream of documents.  A fault of the text is found after those of the
documents before it. -/
def ofStream (s : Yaml.Stream) : Except Error (List Program) := do
  let programs ← ofNodes 0 s.documents
  match s.fault with
  | none => return programs
  | some fault => throw { context := ["yaml"], cause := .malformed fault }

/-- The programs of a text. -/
def ofText (text : String) : Except Error (List Program) := ofStream (.ofText text)

/-- The first program of a text, all of which have to be in order. -/
def firstOfText (text : String) : Except Error Program := do
  match ← ofText text with
  | [] => throw { cause := .noProgram }
  | p :: _ => return p

end Program

end MiniJava
