import JavaMinus.Config
import JavaMinus.Json.Record
import JavaMinus.Report

/-!
# Policies, configurations and reports as documents

Every part of a policy or configuration has its default; every part of a report must be given.
-/

namespace JavaMinus

open Json

namespace Policy

def toJson (p : Policy) : Json :=
  .obj [("lenient_imports", .bool p.lenientImports), ("trust_superclass", .bool p.trustSuperclass)]

def ofJson? (v : Json) : Option Policy := do
  let [lenient, trust] ← v.record? ["lenient_imports", "trust_superclass"] | none
  return {
    lenientImports := ← default? bool? true lenient
    trustSuperclass := ← default? bool? true trust }

end Policy

namespace Config

def toJson (c : Config) : Json :=
  .obj [
    ("compiler", .obj [("emit_ir", .bool c.emitListing), ("root_class", .str c.rootClass)]),
    ("checker", c.policy.toJson)]

/-- The part of a configuration that is about generated code. -/
def compilerPart? (v : Json) : Option (Bool × String) := do
  let [emitListing, rootClass] ← v.record? ["emit_ir", "root_class"] | none
  return (← default? bool? false emitListing, ← default? string? Jvm.defaultRootClass rootClass)

/-- Reading does not look at what the root class is. -/
def ofJson? (v : Json) : Option Config := do
  let [compiler, checker] ← v.record? ["compiler", "checker"] | none
  let (emitListing, rootClass) ← default? compilerPart? (false, Jvm.defaultRootClass) compiler
  return { emitListing, rootClass, policy := ← default? Policy.ofJson? {} checker }

end Config

namespace ReportSeverity

def toJson : ReportSeverity → Json
  | .error => .str "Error"
  | .warning => .str "Warning"

def ofJson? (v : Json) : Option ReportSeverity :=
  match v.word? false with
  | some "Error" => some .error
  | some "Warning" => some .warning
  | _ => none

end ReportSeverity

namespace ReportStage

def toJson : ReportStage → Json
  | .semantic => .str "Semantic"

def ofJson? (v : Json) : Option ReportStage :=
  match v.word? false with
  | some "Semantic" => some .semantic
  | _ => none

end ReportStage

namespace Report

def toJson (r : Report) : Json :=
  .obj [("severity", r.severity.toJson), ("stage", r.stage.toJson), ("line", .ofNat r.line.toNat),
    ("column", .ofNat r.column.toNat), ("message", .str r.message)]

def ofJson? (v : Json) : Option Report := do
  let [severity, stage, line, column, message] ←
    v.record? ["severity", "stage", "line", "column", "message"] | none
  return {
    severity := ← required? ReportSeverity.ofJson? severity
    stage := ← required? ReportStage.ofJson? stage
    line := ← required? uint32? line
    column := ← required? uint32? column
    message := ← required? string? message }

end Report

end JavaMinus
