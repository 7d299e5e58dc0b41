import JavaMinus.Diagnostic
import JavaMinus.Diagnostic.SourceFile
import JavaMinus.Json.Value

/-!
# Diagnostics as documents

The form for tools. A label gives the locations of both its ends, and is left out when its file is
not there.
-/

namespace JavaMinus.Diagnostic

/-- A label in a file. -/
def Label.toJson (label : Label) (f : SourceFile) : Json :=
  let start := f.location label.start
  let stop := f.location label.stop
  .obj [("file", .str f.name), ("start_line", .ofNat start.line),
    ("start_column", .ofNat start.column), ("end_line", .ofNat stop.line),
    ("end_column", .ofNat stop.column), ("message", .str label.message),
    ("style", .str "primary")]

def toJson (d : Diagnostic) (files : List SourceFile) : Json :=
  .obj [("code", .ofOption .str d.code), ("severity", .str d.severity.text),
    ("message", .str d.message),
    ("labels", .arr (d.labels.filterMap fun label => (files[label.file]?).map label.toJson)),
    ("notes", .ofStrings d.notes)]

end JavaMinus.Diagnostic
