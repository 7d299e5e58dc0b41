import JavaMinus.Json.Record
import JavaMinus.Syntax.Program

/-!
# Programs as documents

The document form of the syntax tree. Writing gives every part; reading takes what the rules of
records allow, with every span and most lists optional. The receiver expression has a span and
nothing else, and so the parts of its span are its own parts.

An expression or statement is read whole before its kind is known, so that nothing in it may be
unreadable, not even in a member that means nothing. Reading one descends one level of the tree for
each unit of its first argument, and a tree is never deeper than its document.
-/

namespace JavaMinus

open Json

namespace Span

def toJson (s : Span) : Json :=
  .obj [("start", .ofNat s.start.toNat), ("end", .ofNat s.stop.toNat),
    ("line", .ofNat s.line.toNat), ("column", .ofNat s.column.toNat)]

def ofJson? (v : Json) : Option Span := do
  let [start, stop, line, column] ← v.record? ["start", "end", "line", "column"] | none
  return {
    start := ← default? uint64? 0 start
    stop := ← default? uint64? 0 stop
    line := ← default? uint32? 0 line
    column := ← default? uint32? 0 column }

/-- The span of a node, which may be left out. -/
def part? : Option Json → Option Span := default? ofJson? {}

end Span

namespace TypeWord

def toJson : TypeWord → Json
  | .int => .str "Int"
  | .boolean => .str "Boolean"
  | .void => .str "Void"
  | .string => .str "String"
  | .named name => .obj [("Class", .str name)]

/-- A class is the one word with a part, its name. -/
def ofJson? (inside : Bool) : Json → Option TypeWord
  | .obj [("Class", .str name)] => some (.named name)
  | v =>
    match v.word? inside with
    | some "Int" => some .int
    | some "Boolean" => some .boolean
    | some "Void" => some .void
    | some "String" => some .string
    | _ => none

end TypeWord

namespace TypeRef

def toJson (a : TypeRef) : Json :=
  .obj [("kind", a.word.toJson), ("is_array", .bool a.isArray), ("is_varargs", .bool a.isVarargs),
    ("span", a.span.toJson)]

def ofJson? (inside : Bool) (v : Json) : Option TypeRef := do
  let [word, isArray, isVarargs, span] ← v.record? ["kind", "is_array", "is_varargs", "span"] | none
  return {
    word := ← required? (TypeWord.ofJson? inside) word
    isArray := ← default? bool? false isArray
    isVarargs := ← default? bool? false isVarargs
    span := ← Span.part? span }

end TypeRef

namespace BinaryOp

/-- The name of an operator in documents. -/
def kindName : BinaryOp → String
  | .add => "Add"
  | .sub => "Subtract"
  | .mul => "Multiply"
  | .div => "Divide"
  | .lt => "LessThan"
  | .gt => "GreaterThan"
  | .le => "LessEqual"
  | .ge => "GreaterEqual"
  | .eq => "Equal"
  | .ne => "NotEqual"
  | .and => "And"
  | .or => "Or"

def ofKindName? : String → Option BinaryOp
  | "Add" => some .add
  | "Subtract" => some .sub
  | "Multiply" => some .mul
  | "Divide" => some .div
  | "LessThan" => some .lt
  | "GreaterThan" => some .gt
  | "LessEqual" => some .le
  | "GreaterEqual" => some .ge
  | "Equal" => some .eq
  | "NotEqual" => some .ne
  | "And" => some .and
  | "Or" => some .or
  | _ => none

/-- An operator always stands inside an expression. -/
def ofJson? (v : Json) : Option BinaryOp := (v.word? true).bind ofKindName?

@[simp] theorem ofKindName?_kindName (op : BinaryOp) : ofKindName? op.kindName = some op := by
  cases op <;> rfl

end BinaryOp

namespace Expr

/-- The kinds of expressions in documents, in order. -/
def kinds : List String :=
  ["IntLiteral", "BoolLiteral", "Identifier", "This", "Binary", "Unary", "ArrayLiteral", "Index",
    "NewArray", "NewObject", "Member", "Call", "Parenthesized"]

/-- The kind of an expression in documents. -/
def kindName : Expr → String
  | .intLit .. => "IntLiteral"
  | .boolLit .. => "BoolLiteral"
  | .ident .. => "Identifier"
  | .self _ => "This"
  | .binary .. => "Binary"
  | .not .. => "Unary"
  | .arrayLit .. => "ArrayLiteral"
  | .index .. => "Index"
  | .newArray .. => "NewArray"
  | .newObject .. => "NewObject"
  | .member .. => "Member"
  | .call .. => "Call"
  | .paren .. => "Parenthesized"

mutual
def toJson : Expr → Json
  | .intLit value span =>
    .obj [("kind", .str "IntLiteral"), ("value", .int value.toInt), ("span", span.toJson)]
  | .boolLit value span =>
    .obj [("kind", .str "BoolLiteral"), ("value", .bool value), ("span", span.toJson)]
  | .ident name span =>
    .obj [("kind", .str "Identifier"), ("name", .str name), ("span", span.toJson)]
  | .self span =>
    .obj [("kind", .str "This"), ("start", .ofNat span.start.toNat),
      ("end", .ofNat span.stop.toNat), ("line", .ofNat span.line.toNat),
      ("column", .ofNat span.column.toNat)]
  | .binary op left right span =>
    .obj [("kind", .str "Binary"), ("operator", .str op.kindName), ("left", toJson left),
      ("right", toJson right), ("span", span.toJson)]
  | .not operand span =>
    .obj [("kind", .str "Unary"), ("operator", .str "Not"), ("operand", toJson operand),
      ("span", span.toJson)]
  | .arrayLit elements span =>
    .obj [("kind", .str "ArrayLiteral"), ("elements", .arr (toJsonAll elements)),
      ("span", span.toJson)]
  | .index array place span =>
    .obj [("kind", .str "Index"), ("object", toJson array), ("index", toJson place),
      ("span", span.toJson)]
  | .newArray element length span =>
    .obj [("kind", .str "NewArray"), ("element", element.toJson), ("length", toJson length),
      ("span", span.toJson)]
  | .newObject className span =>
    .obj [("kind", .str "NewObject"), ("class_name", .str className), ("span", span.toJson)]
  | .member object property span =>
    .obj [("kind", .str "Member"), ("object", toJson object), ("property", .str property),
      ("span", span.toJson)]
  | .call receiver method args span =>
    .obj [("kind", .str "Call"), ("receiver", toJson receiver), ("method", .str method),
      ("arguments", .arr (toJsonAll args)), ("span", span.toJson)]
  | .paren inner span =>
    .obj [("kind", .str "Parenthesized"), ("expression", toJson inner), ("span", span.toJson)]
def toJsonAll : List Expr → List Json
  | [] => []
  | e :: es => toJson e :: toJsonAll es
end

/-- The parts of an expression of a kind, given how to read the expressions inside it. -/
def ofParts? (inner? : Json → Option Expr) (kind : String) (parts : Json) : Option Expr := do
  match kind with
  | "IntLiteral" =>
    let [value, span] ← parts.record? ["value", "span"] | none
    return .intLit (← required? int32? value) (← Span.part? span)
  | "BoolLiteral" =>
    let [value, span] ← parts.record? ["value", "span"] | none
    return .boolLit (← required? bool? value) (← Span.part? span)
  | "Identifier" =>
    let [name, span] ← parts.record? ["name", "span"] | none
    return .ident (← required? string? name) (← Span.part? span)
  | "This" => return .self (← Span.ofJson? parts)
  | "Binary" =>
    let [op, left, right, span] ← parts.record? ["operator", "left", "right", "span"] | none
    return .binary (← required? BinaryOp.ofJson? op) (← required? inner? left)
      (← required? inner? right) (← Span.part? span)
  | "Unary" =>
    let [op, operand, span] ← parts.record? ["operator", "operand", "span"] | none
    let "Not" ← required? (word? true) op | none
    return .not (← required? inner? operand) (← Span.part? span)
  | "ArrayLiteral" =>
    let [elements, span] ← parts.record? ["elements", "span"] | none
    return .arrayLit (← required? (list? inner?) elements) (← Span.part? span)
  | "Index" =>
    let [array, place, span] ← parts.record? ["object", "index", "span"] | none
    return .index (← required? inner? array) (← required? inner? place) (← Span.part? span)
  | "NewArray" =>
    let [element, length, span] ← parts.record? ["element", "length", "span"] | none
    return .newArray (← required? (TypeRef.ofJson? true) element) (← required? inner? length)
      (← Span.part? span)
  | "NewObject" =>
    let [className, span] ← parts.record? ["class_name", "span"] | none
    return .newObject (← required? string? className) (← Span.part? span)
  | "Member" =>
    let [object, property, span] ← parts.record? ["object", "property", "span"] | none
    return .member (← required? inner? object) (← required? string? property) (← Span.part? span)
  | "Call" =>
    let [receiver, method, args, span] ←
      parts.record? ["receiver", "method", "arguments", "span"] | none
    return .call (← required? inner? receiver) (← required? string? method)
      (← required? (list? inner?) args) (← Span.part? span)
  | "Parenthesized" =>
    let [inner, span] ← parts.record? ["expression", "span"] | none
    return .paren (← required? inner? inner) (← Span.part? span)
  | _ => none

/-- Read an expression of at most the given depth. -/
def ofJsonWithin? : Nat → Bool → Json → Option Expr
  | 0, _, _ => none
  | depth + 1, inside, v => do
    let (kind, parts) ← v.kinded? inside kinds
    ofParts? (ofJsonWithin? depth true) kind parts

/-- Read an expression; `inside` says that it stands inside a statement or expression, which then
was found to be readable. -/
def ofJson? (inside : Bool) (v : Json) : Option Expr :=
  if inside || v.isReadable then ofJsonWithin? v.depth inside v else none

end Expr

namespace Stmt

/-- The kinds of statements in documents, in order. -/
def kinds : List String :=
  ["Block", "If", "While", "Expression", "Assign", "ArrayAssign", "Return"]

/-- The kind of a statement in documents. -/
def kindName : Stmt → String
  | .block .. => "Block"
  | .branch .. => "If"
  | .loop .. => "While"
  | .expr .. => "Expression"
  | .assign .. => "Assign"
  | .assignElement .. => "ArrayAssign"
  | .ret .. => "Return"

mutual
def toJson : Stmt → Json
  | .block body span =>
    .obj [("kind", .str "Block"), ("statements", .arr (toJsonAll body)), ("span", span.toJson)]
  | .branch condition thenBranch none span =>
    .obj [("kind", .str "If"), ("condition", condition.toJson), ("then_branch", toJson thenBranch),
      ("else_branch", .null), ("span", span.toJson)]
  | .branch condition thenBranch (some elseBranch) span =>
    .obj [("kind", .str "If"), ("condition", condition.toJson), ("then_branch", toJson thenBranch),
      ("else_branch", toJson elseBranch), ("span", span.toJson)]
  | .loop condition body span =>
    .obj [("kind", .str "While"), ("condition", condition.toJson), ("body", toJson body),
      ("span", span.toJson)]
  | .expr e span =>
    .obj [("kind", .str "Expression"), ("expression", e.toJson), ("span", span.toJson)]
  | .assign target value span =>
    .obj [("kind", .str "Assign"), ("target", .str target), ("value", value.toJson),
      ("span", span.toJson)]
  | .assignElement target place value span =>
    .obj [("kind", .str "ArrayAssign"), ("target", .str target), ("index", place.toJson),
      ("value", value.toJson), ("span", span.toJson)]
  | .ret value span =>
    .obj [("kind", .str "Return"), ("value", .ofOption Expr.toJson value), ("span", span.toJson)]
def toJsonAll : List Stmt → List Json
  | [] => []
  | s :: ss => toJson s :: toJsonAll ss
end

/-- The parts of a statement of a kind, given how to read the statements inside it. -/
def ofParts? (inner? : Json → Option Stmt) (kind : String) (parts : Json) : Option Stmt := do
  let expr? := required? (Expr.ofJson? true)
  match kind with
  | "Block" =>
    let [body, span] ← parts.record? ["statements", "span"] | none
    return .block (← required? (list? inner?) body) (← Span.part? span)
  | "If" =>
    let [condition, thenBranch, elseBranch, span] ←
      parts.record? ["condition", "then_branch", "else_branch", "span"] | none
    return .branch (← expr? condition) (← required? inner? thenBranch)
      (← optional? inner? elseBranch) (← Span.part? span)
  | "While" =>
    let [condition, body, span] ← parts.record? ["condition", "body", "span"] | none
    return .loop (← expr? condition) (← required? inner? body) (← Span.part? span)
  | "Expression" =>
    let [e, span] ← parts.record? ["expression", "span"] | none
    return .expr (← expr? e) (← Span.part? span)
  | "Assign" =>
    let [target, value, span] ← parts.record? ["target", "value", "span"] | none
    return .assign (← required? string? target) (← expr? value) (← Span.part? span)
  | "ArrayAssign" =>
    let [target, place, value, span] ← parts.record? ["target", "index", "value", "span"] | none
    return .assignElement (← required? string? target) (← expr? place) (← expr? value)
      (← Span.part? span)
  | "Return" =>
    let [value, span] ← parts.record? ["value", "span"] | none
    return .ret (← optional? (Expr.ofJson? true) value) (← Span.part? span)
  | _ => none

/-- Read a statement of at most the given depth. -/
def ofJsonWithin? : Nat → Bool → Json → Option Stmt
  | 0, _, _ => none
  | depth + 1, inside, v => do
    let (kind, parts) ← v.kinded? inside kinds
    ofParts? (ofJsonWithin? depth true) kind parts

/-- Read a statement that stands inside no other. -/
def ofJson? (v : Json) : Option Stmt :=
  if v.isReadable then ofJsonWithin? v.depth false v else none

end Stmt

namespace VarDecl

def toJson (d : VarDecl) : Json :=
  .obj [("name", .str d.name), ("type", d.typeRef.toJson), ("span", d.span.toJson)]

def ofJson? (v : Json) : Option VarDecl := do
  let [name, typeRef, span] ← v.record? ["name", "type", "span"] | none
  return {
    name := ← required? string? name
    typeRef := ← required? (TypeRef.ofJson? false) typeRef
    span := ← Span.part? span }

end VarDecl

namespace MethodDecl

def toJson (m : MethodDecl) : Json :=
  .obj [("name", .str m.name), ("is_public", .bool m.isPublic), ("is_static", .bool m.isStatic),
    ("return_type", m.returnType.toJson), ("params", .arr (m.params.map VarDecl.toJson)),
    ("locals", .arr (m.locals.map VarDecl.toJson)), ("body", .arr (m.body.map Stmt.toJson)),
    ("span", m.span.toJson)]

def ofJson? (v : Json) : Option MethodDecl := do
  let [name, isPublic, isStatic, returnType, params, locals, body, span] ←
    v.record? ["name", "is_public", "is_static", "return_type", "params", "locals", "body", "span"]
    | none
  return {
    name := ← required? string? name
    isPublic := ← default? bool? false isPublic
    isStatic := ← default? bool? false isStatic
    returnType := ← required? (TypeRef.ofJson? false) returnType
    params := ← default? (list? VarDecl.ofJson?) [] params
    locals := ← default? (list? VarDecl.ofJson?) [] locals
    body := ← default? (list? Stmt.ofJson?) [] body
    span := ← Span.part? span }

end MethodDecl

namespace ClassDecl

def toJson (c : ClassDecl) : Json :=
  .obj [("name", .str c.name), ("extends", .ofOption .str c.superClass),
    ("fields", .arr (c.fields.map VarDecl.toJson)),
    ("methods", .arr (c.methods.map MethodDecl.toJson)), ("span", c.span.toJson)]

def ofJson? (v : Json) : Option ClassDecl := do
  let [name, superClass, fields, methods, span] ←
    v.record? ["name", "extends", "fields", "methods", "span"] | none
  return {
    name := ← required? string? name
    superClass := ← optional? string? superClass
    fields := ← default? (list? VarDecl.ofJson?) [] fields
    methods := ← default? (list? MethodDecl.ofJson?) [] methods
    span := ← Span.part? span }

end ClassDecl

namespace Import

def toJson (i : Import) : Json := .obj [("path", .ofStrings i.path), ("span", i.span.toJson)]

def ofJson? (v : Json) : Option Import := do
  let [path, span] ← v.record? ["path", "span"] | none
  return { path := ← required? (list? string?) path, span := ← Span.part? span }

end Import

namespace Program

def toJson (p : Program) : Json :=
  .obj [("imports", .arr (p.imports.map Import.toJson)), ("class", p.classDecl.toJson)]

def ofJson? (v : Json) : Option Program := do
  let [imports, classDecl] ← v.record? ["imports", "class"] | none
  return {
    imports := ← default? (list? Import.ofJson?) [] imports
    classDecl := ← required? ClassDecl.ofJson? classDecl }

end Program

end JavaMinus
