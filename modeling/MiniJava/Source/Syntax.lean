import MiniJava.Source.Position
import MiniJava.Source.TypeName

/-!
# Programs

A program is a class with the classes it imports.  Expressions and statements carry the position
they were written at.

A receiver, the branches of a conditional, the body of a loop and the value of a return may be left
out; nothing else may.  Operators and integer literals are kept as written: whether they mean
anything is decided when they are lowered.
-/

set_option autoImplicit false

namespace MiniJava

/-- An expression. -/
inductive Expr where
  | int (pos : Position) (text : Text)
  | bool (pos : Position) (value : Bool)
  | ident (pos : Position) (name : Text)
  | this (pos : Position)
  | paren (pos : Position) (inner : Expr)
  | binary (pos : Position) (op : Text) (left right : Expr)
  | unary (pos : Position) (op : Text) (arg : Expr)
  | call (pos : Position) (recv : Option Expr) (name : Text) (args : List Expr)
  | new (pos : Position) (cls : Text)
  | newArray (pos : Position) (elem : TypeName) (size : Expr)
  | array (pos : Position) (elems : List Expr)
  | index (pos : Position) (base index : Expr)
  | length (pos : Position) (arg : Expr)
deriving Repr, Inhabited

namespace Expr

/-- Where an expression was written. -/
def pos : Expr → Position
  | int p _ | bool p _ | ident p _ | this p | paren p _ | binary p _ _ _ | unary p _ _
  | call p _ _ _ | new p _ | newArray p _ _ | array p _ | index p _ _ | length p _ => p

/-- The expression inside all parentheses around it. -/
def unparen : Expr → Expr
  | paren _ inner => inner.unparen
  | e => e

end Expr

/-- A statement. -/
inductive Stmt where
  | block (pos : Position) (stmts : List Stmt)
  | cond (pos : Position) (test : Expr) (onTrue onFalse : Option Stmt)
  | loop (pos : Position) (test : Expr) (body : Option Stmt)
  | expr (pos : Position) (value : Expr)
  | assign (pos : Position) (name : Text) (value : Expr)
  | indexAssign (pos : Position) (name : Text) (index value : Expr)
  | ret (pos : Position) (value : Option Expr)
deriving Repr, Inhabited

/-- A declared field, parameter or local. -/
structure VarDecl where
  pos : Position
  name : Text
  type : TypeName
  isPublic : Bool := false
  isStatic : Bool := false
  isFinal : Bool := false
deriving DecidableEq, Repr, Inhabited

/-- A declared method. -/
structure MethodDecl where
  pos : Position
  name : Text
  isPublic : Bool := false
  isStatic : Bool := false
  ret : TypeName
  params : List VarDecl := []
  locals : List VarDecl := []
  body : List Stmt := []
deriving Repr, Inhabited

/-- A declared class; `super` is empty for one that extends nothing. -/
structure ClassDecl where
  pos : Position
  name : Text
  super : Text := ""
  fields : List VarDecl := []
  methods : List MethodDecl := []
deriving Repr, Inhabited

/-- An imported class, by the parts of its path. -/
structure ImportDecl where
  pos : Position
  path : List Text
  isInterface : Bool := false
deriving DecidableEq, Repr, Inhabited

/-- The name that an imported class is referred to by: the last part of its path. -/
def ImportDecl.name (i : ImportDecl) : Text := i.path.getLastD ""

/-- A class and its imports. -/
structure Program where
  pos : Position
  imports : List ImportDecl := []
  cls : ClassDecl
deriving Repr, Inhabited

end MiniJava
