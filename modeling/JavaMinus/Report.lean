import JavaMinus.Check.Error

/-!
# Reports

The one-line form of a diagnostic, which needs no source text:

    ERROR@SEMANTIC, line 4, col 9: condition must be boolean, found int
-/

namespace JavaMinus

/-- How grave a report is. The checker gives errors only; warnings come from tools around it. -/
inductive ReportSeverity where
  | error
  | warning
deriving DecidableEq, Inhabited

/-- The stage of compilation that a report is about. -/
inductive ReportStage where
  | semantic
deriving DecidableEq, Inhabited

/-- A message with its place in the text. -/
structure Report where
  severity : ReportSeverity
  stage : ReportStage := .semantic
  line : UInt32
  column : UInt32
  message : String
deriving DecidableEq, Inhabited

def ReportSeverity.text : ReportSeverity → String
  | .error => "ERROR"
  | .warning => "WARNING"

def ReportStage.text : ReportStage → String
  | .semantic => "SEMANTIC"

namespace Report

/-- The report of a semantic error. -/
def ofCheckError (e : CheckError) : Report where
  severity := .error
  line := e.span.line
  column := e.span.column
  message := e.message

/-- The report stops code generation. -/
def isError (r : Report) : Bool := r.severity == .error

/-- The one-line form. -/
def text (r : Report) : String :=
  s!"{r.severity.text}@{r.stage.text}, line {r.line.toNat}, col {r.column.toNat}: {r.message}"

end Report

/-- Some report stops code generation. -/
def hasErrors (reports : List Report) : Bool := reports.any Report.isError

end JavaMinus
