import JavaMinus.Json.Record
import JavaMinus.SymbolTable

/-!
# Symbol tables as documents

A type carries its varargs mark among attributes, which may be left out.
-/

namespace JavaMinus

open Json

namespace Ty

def toJson (t : Ty) : Json :=
  .obj [("name", .str t.name), ("is_array", .bool t.isArray),
    ("attributes", .obj [("varargs", .bool t.isVarargs)])]

/-- The varargs mark among the attributes of a type. -/
def attributes? (v : Json) : Option Bool := do
  let [varargs] ← v.record? ["varargs"] | none
  default? bool? false varargs

def ofJson? (v : Json) : Option Ty := do
  let [name, isArray, attributes] ← v.record? ["name", "is_array", "attributes"] | none
  return {
    name := ← required? string? name
    isArray := ← required? bool? isArray
    isVarargs := ← default? attributes? false attributes }

end Ty

namespace Symbol

def toJson (s : Symbol) : Json := .obj [("name", .str s.name), ("type", s.ty.toJson)]

def ofJson? (v : Json) : Option Symbol := do
  let [name, ty] ← v.record? ["name", "type"] | none
  return { name := ← required? string? name, ty := ← required? Ty.ofJson? ty }

end Symbol

namespace Signature

def toJson (m : Signature) : Json :=
  .obj [("name", .str m.name), ("return_type", m.returnType.toJson),
    ("parameters", .arr (m.parameters.map Symbol.toJson)),
    ("locals", .arr (m.locals.map Symbol.toJson)), ("is_static", .bool m.isStatic),
    ("is_public", .bool m.isPublic)]

def ofJson? (v : Json) : Option Signature := do
  let [name, returnType, parameters, locals, isStatic, isPublic] ←
    v.record? ["name", "return_type", "parameters", "locals", "is_static", "is_public"] | none
  return {
    name := ← required? string? name
    returnType := ← required? Ty.ofJson? returnType
    parameters := ← required? (list? Symbol.ofJson?) parameters
    locals := ← required? (list? Symbol.ofJson?) locals
    isStatic := ← default? bool? false isStatic
    isPublic := ← default? bool? false isPublic }

end Signature

namespace SymbolTable

def toJson (t : SymbolTable) : Json :=
  .obj [("class_name", .str t.className), ("super_class", .ofOption .str t.superClass),
    ("imports", .ofStrings t.imports), ("fields", .arr (t.fields.map Symbol.toJson)),
    ("methods", .arr (t.methods.map Signature.toJson))]

def ofJson? (v : Json) : Option SymbolTable := do
  let [className, superClass, imports, fields, methods] ←
    v.record? ["class_name", "super_class", "imports", "fields", "methods"] | none
  return {
    className := ← required? string? className
    superClass := ← optional? string? superClass
    imports := ← default? (list? string?) [] imports
    fields := ← default? (list? Symbol.ofJson?) [] fields
    methods := ← default? (list? Signature.ofJson?) [] methods }

end SymbolTable

end JavaMinus
