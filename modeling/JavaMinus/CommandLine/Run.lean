import JavaMinus.CommandLine.Arguments
import JavaMinus.Diagnostic.Snippet
import JavaMinus.Document.ConfigFile
import JavaMinus.Document.Diagnostic
import JavaMinus.Document.Syntax
import JavaMinus.Json.Printer
import JavaMinus.Json.Reader
import JavaMinus.Pipeline

/-!
# Runs of the compiler

What a run prints and writes. A run reads files one after another, in any monad that can; the file
it writes comes last and is only named here, with its text.

A run ends with code zero when the program was accepted, with one when it was not or when something
failed, and with two when the arguments are not well formed.
-/

namespace JavaMinus.CommandLine

/-- The name and version of the program. -/
def versionText : String := "jmmc 0.2.0\n"

/-- The end of a run. -/
structure Outcome where
  code : Nat
  stdout : String := ""
  stderr : String := ""
  /-- A path and what is to be written there. -/
  file : Option (String × String) := none
deriving DecidableEq, Inhabited

/-- Read the text of a file, or get the reason why it cannot be read. -/
abbrev Read (m : Type → Type) : Type := String → m (Except String String)

/-- Why a run fails. -/
structure Failure where
  message : String
  cause : Option String := none
deriving DecidableEq, Inhabited

/-- The wording of a failure, the cause below. -/
def Failure.text (f : Failure) : String :=
  "Error: " ++ f.message ++ "\n" ++
    match f.cause with
    | some cause => "\nCaused by:\n    " ++ cause ++ "\n"
    | none => ""

def Failure.unreadable (path reason : String) : Failure := ⟨s!"Failed to read {path}", some reason⟩

def Failure.unwritable (path reason : String) : Failure := ⟨s!"Failed to write {path}", some reason⟩

/-- A run that failed after it printed something. -/
def Outcome.fail (o : Outcome) (f : Failure) : Outcome :=
  { o with code := 1, stderr := o.stderr ++ f.text, file := none }

/-- What follows when the file of a run cannot be written. -/
def Outcome.writeFailed (o : Outcome) (path reason : String) : Outcome :=
  o.fail (.unwritable path reason)

/-- The program in the text of a document. -/
def programOf (path text : String) : Except Failure Program :=
  match (Json.document? text).bind Program.ofJson? with
  | some p => .ok p
  | none => .error ⟨s!"Invalid AST in {path}", none⟩

/-- The configuration of a run. The options of the run stand above those of the file. -/
def Given.apply (g : Given) (c : Config) : Config :=
  { c with
    emitListing := c.emitListing || g.has .emitListing
    policy := if g.has .strict then Policy.strict else c.policy }

/-- The diagnostics of errors, for people. -/
def snippets (errors : List CheckError) (f : SourceFile) : String :=
  String.join (errors.map fun e => (Diagnostic.ofCheckError e 0).render [f])

/-- The diagnostics of errors, for tools. -/
def diagnosticsText (errors : List CheckError) (f : SourceFile) : String :=
  (Json.arr (errors.map fun e => (Diagnostic.ofCheckError e 0).toJson [f])).pretty ++ "\n"

def reportLines (reports : List Report) : String :=
  String.join (reports.map fun r => r.text ++ "\n")

section

variable {m : Type → Type} [Monad m] (read : Read m)

/-- The text of a file that must be readable. -/
def readText (path : String) : ExceptT Failure m String := do
  match ← (read path : m _) with
  | .ok text => return text
  | .error reason => throw (.unreadable path reason)

def readProgram (path : String) : ExceptT Failure m Program := do
  match programOf path (← readText read path) with
  | .ok p => return p
  | .error f => throw f

/-- The configuration file of a run, if it has one. -/
def readConfig (path : Option String) : ExceptT Failure m Config := do
  match path with
  | none => return {}
  | some path =>
    match ← (read path : m _) with
    | .error reason => throw ⟨(ConfigError.unreadable path reason).message, some reason⟩
    | .ok text =>
      match Config.ofText text with
      | .ok c => return c
      | .error e => throw ⟨e.message, none⟩

/-- The source text of a run. Without one, diagnostics point into an empty text. -/
def readSource (i : Invocation) : ExceptT Failure m SourceFile := do
  match i.given.value? .source with
  | some path => return ⟨path, ← readText read path⟩
  | none => return ⟨i.input, ""⟩

/-- Check a program. -/
def runCheck (i : Invocation) : ExceptT Failure m Outcome := do
  let p ← readProgram read i.input
  let errors := p.check p.symbolTable (i.given.apply {}).policy
  let f ← readSource read i
  return {
    code := if errors.isEmpty then 0 else 1
    stdout := reportLines (errors.map Report.ofCheckError)
    stderr := if i.given.has .source then snippets errors f else "" }

/-- What a compilation prints and writes, given the source text. -/
def compileOutcome (i : Invocation) (c : Compiled) (stderr : String) (f : SourceFile) : Outcome :=
  let file := (i.given.value? .output).bind fun path => c.assembly?.map fun text => (path, text)
  let asJson := i.given.has .jsonDiagnostics
  let stdout :=
    if asJson then diagnosticsText c.errors f
    else if i.given.has .output then reportLines c.reports
    else c.render
  let shown := if i.given.has .source && !asJson then snippets c.errors f else ""
  { code := if hasErrors c.reports then 1 else 0, stdout, stderr := stderr ++ shown, file }

/-- Compile a program. -/
def runCompile (i : Invocation) : ExceptT Failure m Outcome := do
  let config := i.given.apply (← readConfig read (i.given.value? .config))
  let p ← readProgram read i.input
  match p.compile config with
  | .error e => throw ⟨s!"Failed to compile {i.input}", some e.message⟩
  | .ok c =>
    let stderr := match c.listing? with
      | some listing => listing ++ "\n"
      | none => ""
    match ← ExceptT.lift (ExceptT.run (readSource read i)) with
    | .ok f => return compileOutcome i c stderr f
    | .error f => return ({ code := 1, stderr } : Outcome).fail f

/-- Do what an invocation asks for. -/
def Invocation.run (i : Invocation) : m Outcome := do
  let outcome ← match i.command with
    | .compile => (runCompile read i).run
    | .check => (runCheck read i).run
  match outcome with
  | .ok o => return o
  | .error f => return ({ code := 1 } : Outcome).fail f

/-- Do what arguments ask for. -/
def run (arguments : List String) : m Outcome :=
  match readInvocation arguments with
  | .ok i => i.run read
  | .error .version => return { code := 0, stdout := versionText }
  | .error .help => return { code := 0 }
  | .error .usage => return { code := 2 }

end

end JavaMinus.CommandLine
