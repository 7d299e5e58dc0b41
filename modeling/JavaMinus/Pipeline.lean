import JavaMinus.Binding
import JavaMinus.Check.Program
import JavaMinus.Config
import JavaMinus.Lowering.Program
import JavaMinus.Report

/-!
# Compilation

A program is checked, lowered and written as assembly. A program with semantic errors goes no
further than the check; the two later stages can still fail, and then nothing is produced.
-/

namespace JavaMinus

open Tac

/-- Why a program that was accepted has no assembly. -/
inductive CompileError where
  | lowering (cause : LoweringError)
  | representation (cause : Jvm.RepresentationError)
deriving DecidableEq

/-- The wording of the error. -/
def CompileError.message : CompileError → String
  | .lowering cause => "Lowering error: " ++ cause.message
  | .representation cause => "Representation error: " ++ cause.message

/-- What compilation gives. -/
inductive Compiled where
  /-- The program has semantic errors. -/
  | rejected (errors : List CheckError)
  | accepted (unit : ClassUnit) (listing : Option String) (assembly : String)

namespace Compiled

def errors : Compiled → List CheckError
  | .rejected errors => errors
  | .accepted .. => []

def reports (c : Compiled) : List Report := c.errors.map Report.ofCheckError

def unit? : Compiled → Option ClassUnit
  | .rejected _ => none
  | .accepted unit _ _ => some unit

def listing? : Compiled → Option String
  | .rejected _ => none
  | .accepted _ listing _ => listing

def assembly? : Compiled → Option String
  | .rejected _ => none
  | .accepted _ _ assembly => some assembly

end Compiled

/-- The text that compilation puts out: a line for each report, then the assembly, with an empty
line between the two. -/
def renderOutput (reports : List Report) (assembly : Option String) : String :=
  String.join (reports.map fun r => r.text ++ "\n") ++
    match assembly with
    | some text => (if reports.isEmpty then "" else "\n") ++ text
    | none => ""

def Compiled.render (c : Compiled) : String := renderOutput c.reports c.assembly?

/-- The assembly text of a class. -/
def assemble (unit : ClassUnit) (rootClass : String) : Except CompileError String :=
  match unit.classFile rootClass with
  | .ok file => .ok file.text
  | .error e => .error (.representation e)

/-- The class of a program that was accepted. -/
def Program.toUnit (p : Program) (t : SymbolTable) (policy : Policy) :
    Except CompileError ClassUnit :=
  match (p.lower t policy).run {} with
  | .done unit _ _ => .ok unit
  | .failed e _ => .error (.lowering e)

/-- Compile a program against a symbol table. -/
def Program.compileWith (p : Program) (t : SymbolTable) (config : Config) :
    Except CompileError Compiled :=
  match p.check t config.policy with
  | [] => do
    let unit ← p.toUnit t config.policy
    let assembly ← assemble unit config.rootClass
    return .accepted unit (if config.emitListing then some unit.listing else none) assembly
  | errors => .ok (.rejected errors)

/-- Compile a program against the symbol table bound from it. -/
def Program.compile (p : Program) (config : Config) : Except CompileError Compiled :=
  p.compileWith p.symbolTable config

end JavaMinus
