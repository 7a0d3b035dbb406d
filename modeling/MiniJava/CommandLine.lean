import MiniJava.Compilation
import MiniJava.FileTree
import MiniJava.Listing

/-!
# The command line

Two commands work on files: `ir` prints the intermediate code of their classes, `compile` prints
their assembly or writes it to files.  Flags have one hyphen or two, and their values follow an
equals sign or stand in the next argument.  After two hyphens alone there are no more flags.  A flag
that is not given has the value of an environment variable, if there is one.

Everything here is pure: a command is run against any `FileSystem`.
-/

set_option autoImplicit false

namespace MiniJava

/-- What the command line asks for. -/
inductive Command where
  /-- Prints intermediate code, with slots if `registers` says so. -/
  | code (strategy : String) (registers : Bool) (files : List Text)
  /-- Compiles to a directory, or to the output if there is none. -/
  | compile (strategy : String) (out : Text) (files : List Text)
deriving DecidableEq, Repr, Inhabited

namespace Command

/-! ## Arguments -/

/-- Flags with their values, the last one first, and the other arguments. -/
structure Parsed where
  flags : List (String × String) := []
  rest : List String := []
deriving DecidableEq, Repr, Inhabited

/-- The flag that an argument starts with: its name, and its value after an equals sign. -/
def flagOf? (arg : String) : Option (String × Option String) :=
  let body := match arg.toList with
    | '-' :: '-' :: cs => cs
    | '-' :: cs => cs
    | _ => []
  if body.isEmpty then none
  else
    let (name, value) := body.span (· != '=')
    some (String.ofList name, if value.isEmpty then none else some (String.ofList value.tail))

/-- Adds a flag. -/
def Parsed.addFlag (p : Parsed) (flag value : String) : Parsed :=
  { p with flags := (flag, value) :: p.flags }

/-- The error of arguments that make no sense. -/
def usage {α : Type} (text : String) : Except Error α := .error { cause := .usage text }

/-- The error of an argument that is no proper flag. -/
def badFlag {α : Type} (arg reason : String) : Except Error α :=
  usage s!"parse flag: {arg}: {reason}"

/-- Splits arguments into flags and others.  `flag?` gives the proper name of a flag, and whether it
takes a value.  At the first other argument it stops unless `all` says to go on. -/
def split (flag? : String → Option (String × Bool)) (all : Bool) :
    List String → Parsed → Except Error Parsed
  | [], p => .ok p
  | arg :: rest, p =>
    if all && arg == "--" then .ok { p with rest := p.rest ++ rest }
    else match flagOf? arg with
    | none =>
      if all then split flag? all rest { p with rest := p.rest ++ [arg] }
      else .ok { p with rest := p.rest ++ arg :: rest }
    | some (name, value) =>
      match flag? name, value, rest with
      | none, _, _ => badFlag arg "no such flag"
      | some (flag, _), some value, rest => split flag? all rest (p.addFlag flag value)
      | some (flag, false), none, rest => split flag? all rest (p.addFlag flag "true")
      | some (flag, true), none, value :: rest => split flag? all rest (p.addFlag flag value)
      | some (_, true), none, [] => badFlag arg "flag value is required"

/-- The flags of every command, which may also stand before it. -/
def globalFlag? : String → Option (String × Bool)
  | "v" | "verbosity" => some ("verbosity", true)
  | _ => none

/-- The flags of the command that prints intermediate code. -/
def codeFlag? : String → Option (String × Bool)
  | "regs" => some ("regs", false)
  | "regalloc" => some ("regalloc", true)
  | name => globalFlag? name

/-- The flags of the command that compiles. -/
def compileFlag? : String → Option (String × Bool)
  | "regalloc" | "r" => some ("regalloc", true)
  | "out" | "o" => some ("out", true)
  | name => globalFlag? name

/-- The value of a flag, or of the environment variable for it, or a default. -/
def setting (p : Parsed) (env : List (String × String)) (flag name default : String) : String :=
  ((p.flags.lookup flag).or (env.lookup name)).getD default

/-- The spellings of a flag without a value that is set. -/
def setWords : List String := ["1", "t", "T", "true", "TRUE", "True"]

/-- The command that arguments and environment variables ask for. -/
def parse (args : List String) (env : List (String × String)) : Except Error Command := do
  let globals ← split globalFlag? false args {}
  match globals.rest with
  | "ir" :: rest =>
    let p ← withinPlace "ir" (split codeFlag? true rest {})
    return .code (setting p env "regalloc" "JMMC_REGALLOC" "ranges")
      (setWords.contains (setting p [] "regs" "" "false")) (p.rest.map .ofString)
  | "compile" :: rest =>
    let p ← withinPlace "compile" (split compileFlag? true rest {})
    return .compile (setting p env "regalloc" "JMMC_REGALLOC" "ranges")
      (setting p env "out" "JMMC_OUT" "") (p.rest.map .ofString)
  | arg :: _ => usage s!"{arg}: no such command"
  | [] => usage "no command"

/-! ## Running -/

/-- The name of a command. -/
def name : Command → String
  | code _ _ _ => "ir"
  | compile _ _ _ => "compile"

/-- The listing of a unit, with the slots of its variables if `registers` says so. -/
def listing (registers : Bool) (u : CompiledUnit) : Text :=
  if registers then
    Listing.cls u.allocated ++ Text.join (u.allocated.methods.map registerLines)
  else Listing.cls u.code

/-- The programs of a file, which has to be text. -/
def programs (contents : Text) : Except Error (List Program) :=
  match contents.string? with
  | some text => Program.ofText text
  | none => .error
    { context := ["yaml"], cause := .malformed { line := 1, reason := "invalid UTF-8 octet" } }

/-- The units of a file. -/
def compileText (s : Strategy) (contents : Text) : Except Error (List CompiledUnit) := do
  compileAll s (← withinPlace "decode ast" (programs contents))

section

variable {m : Type → Type} [Monad m] (fs : FileSystem m)

/-- Reads a file and compiles it. -/
def compileFile (s : Strategy) (file : Text) : ExceptT Error m (List CompiledUnit) :=
  ExceptT.mk do
    let units := match ← fs.read file with
      | .ok text => compileText s text
      | .error cause => withinPlace "read file" (.error { cause })
    return withinPlace s!"compile {file}" units

/-- Prints a text. -/
def printText (text : Text) : ExceptT Error m Unit := fs.print text

/-- Writes a text to a file. -/
def writeText (path text : Text) : ExceptT Error m Unit := ExceptT.mk do
  match ← fs.write path text with
  | .ok () => return .ok ()
  | .error cause => return withinPlace s!"write {path}" (.error { cause })

/-- Puts the assembly of a unit where it belongs. -/
def putUnit (out : Text) (u : CompiledUnit) : ExceptT Error m Unit :=
  if out = "" then printText fs u.assembly
  else writeText fs (joinPath out (u.name ++ ".j")) u.assembly

/-- The strategy of a name. -/
def strategyOf (s : String) : ExceptT Error m Strategy :=
  ExceptT.mk (pure (withinPlace "regalloc flag" (Strategy.parse s)))

/-- Runs a command.  What it printed and wrote before an error stays. -/
def run : Command → ExceptT Error m Unit
  | code strategy registers files => do
    let s ← strategyOf strategy
    files.forM fun file ↦ do
      (← compileFile fs s file).forM fun u ↦ printText fs (listing registers u)
  | compile strategy out files => do
    let s ← strategyOf strategy
    files.forM fun file ↦ do
      (← compileFile fs s file).forM fun u ↦ putUnit fs out u

/-- How a run ends: with an exit code, and with the message of an error. -/
structure Exit where
  code : Nat := 0
  message : Option String := none
deriving DecidableEq, Repr, Inhabited

/-- The end of a run that failed.  One that broke off has no message. -/
def Exit.ofError (e : Error) : Exit :=
  if e.cause.isBreakdown then { code := 2 }
  else { code := 1, message := some s!"error: {e.message}" }

/-- Runs the command line. -/
def execute (args : List String) (env : List (String × String)) : m Exit := do
  match parse args env with
  | .error e => return .ofError e
  | .ok c =>
    match ← (c.run fs).run with
    | .ok () => return {}
    | .error e => return .ofError (e.within c.name)

end

end Command

end MiniJava
