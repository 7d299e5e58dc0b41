import JavaMinus.Tac.ClassUnit
import JavaMinus.Text.Lines

/-!
# Listings

The readable form of three-address code: one instruction a line, labels at the margin, methods
moved to the right inside their class.
-/

namespace JavaMinus.Tac

/-- The line of an instruction. -/
def Instr.line (i : Instr) : String :=
  if i.label?.isSome then i.text ++ "\n" else "  " ++ i.text ++ ";\n"

/-- The words in front of a method's name. -/
def modifiers (isPublic isStatic : Bool) : String :=
  (if isPublic then "public " else "") ++ (if isStatic then "static " else "")

/-- The listing of a method. -/
def Method.listing (m : Method) : String :=
  let params := ", ".intercalate (m.params.map Operand.text)
  let head := ".method " ++ modifiers m.isPublic m.isStatic
  head ++ m.name ++ "(" ++ params ++ "):" ++ m.returnTy.text ++ " \x7b\n" ++
    String.join (m.code.map Instr.line) ++ "\x7d\n"

/-- The listing of a class: imports, fields, then methods. -/
def ClassUnit.listing (u : ClassUnit) : String :=
  let imports := u.imports.map fun i => s!"import {i};\n"
  let head := match u.superClass with
    | some c => s!"{u.name} extends {c}"
    | none => u.name
  let fields := u.fields.map fun f => s!"  .field public {f.name}:{f.ty.text};\n"
  let methods := u.methods.map fun m => Text.indent m.listing ++ "\n"
  String.join imports ++ (if u.imports.isEmpty then "" else "\n") ++ head ++ " \x7b\n" ++
    String.join fields ++ (if u.fields.isEmpty then "" else "\n") ++
      String.join methods ++ "\x7d\n"

end JavaMinus.Tac
