import JavaMinus.Typing.Call

/-!
# Type inference

The type of an expression in a scope at a site, by structural recursion. Inference stops at the
first error in the order in which the parts are looked at: left before right, receiver before
arguments, and an operand's own error before what its operator says about it. One order is special:
of an equality whose left operand is a call, the right operand is looked at first, since a call of
an unknown method takes its type from the other side.
-/

namespace JavaMinus

namespace Expr

/-- The operand has the type that its operator takes. -/
def checkOperand (op : String) (expected actual : Ty) (span : Span) : Except TypeError Unit :=
  if actual.agrees expected then .ok () else .error (.invalidOperand op expected actual span)

/-- The operand of an arithmetic operator is no array. -/
def checkScalar (op : BinaryOp) (actual : Ty) (span : Span) : Except TypeError Unit :=
  if op.isArithmetic && actual.isArray then .error (.arrayInArithmetic op.symbol span) else .ok ()

/-- The result of an operator that fixes the type of its operands. -/
def fixedOperandType (op : BinaryOp) (left right : Ty) (leftSpan rightSpan : Span) :
    Except TypeError Ty := do
  checkScalar op left leftSpan
  checkScalar op right rightSpan
  checkOperand op.symbol op.operandType left leftSpan
  checkOperand op.symbol op.operandType right rightSpan
  return op.resultType

/-- The result of an equality: one side is assignable to the other. -/
def equalityType (s : Scope) (op : BinaryOp) (left right : Ty) (leftSpan : Span) :
    Except TypeError Ty :=
  if s.assignable left right || s.assignable right left then .ok Ty.boolean
  else .error (.incompatibleOperands op.symbol left right leftSpan)

mutual
/-- The type of an expression at a site. -/
def infer (s : Scope) (site : Site) : Expr → Except TypeError Ty
  | .intLit _ _ => .ok Ty.int
  | .boolLit _ _ => .ok Ty.boolean
  | .ident name span =>
    match s.resolve? name with
    | some v =>
      if v.isField && s.isStatic then .error (.fieldInStatic name span) else .ok v.ty
    | none => .error (.undefinedVariable name span)
  | .self span => if s.isStatic then .error (.selfInStatic span) else .ok s.table.classType
  | .binary op left right _ =>
    if op.isEquality then
      if left.isCall then do
        let r ← infer s .unknown right
        let l ← infer s (.wanting r) left
        equalityType s op l r left.span
      else do
        let l ← infer s .unknown left
        let r ← infer s (.wanting l) right
        equalityType s op l r left.span
    else do
      let l ← infer s (.wanting op.operandType) left
      let r ← infer s (.wanting op.operandType) right
      fixedOperandType op l r left.span right.span
  | .not operand _ => do
    let ty ← infer s (.wanting Ty.boolean) operand
    if ty.isBoolean then return Ty.boolean
    else throw (.invalidOperand "!" Ty.boolean ty operand.span)
  | .arrayLit [] _ => .ok Ty.intArray
  | .arrayLit (first :: rest) span => do
    let element ← infer s .unknown first
    if element.isArray then throw (.nestedArray span)
    checkElements s element rest
    return Ty.array element.name
  | .index array place _ =>
    if array.isCall then .error (.indexOnCallResult array.span)
    else do
      let ty ← infer s .unknown array
      match ty.element? with
      | none => throw (.indexOnNonArray ty array.span)
      | some element =>
        let position ← infer s (.wanting Ty.int) place
        if position.isInt then return element else throw (.indexNotInt position place.span)
  | .newArray element length span =>
    if !length.isIntLiteral then .error (.nonLiteralArrayLength length.span)
    else if element.ty.isArray then .error (.nestedArray span)
    else .ok (Ty.array element.ty.name)
  | .newObject className span =>
    if s.knowsClass className then .ok (Ty.scalar className)
    else .error (.undefinedClass className span)
  | .member object property span =>
    if property != "length" then .error (.unknownProperty property span)
    else do
      let ty ← infer s (.wanting Ty.intArray) object
      if ty.isArray then return Ty.int else throw (.lengthOnNonArray ty object.span)
  | .call receiver method args span => do
    let target ← CallTarget.resolve s receiver (infer s .unknown receiver) method span
    target.checkCount s method args.length span
    let actuals ← inferArgs s target.argumentSite 0 args
    target.checkTypes s method (args.map Expr.span) actuals
    target.valueType site method span
  | .paren inner _ => infer s site inner
/-- Every element has the type of the first; each is compared before the next is looked at. -/
def checkElements (s : Scope) (element : Ty) : List Expr → Except TypeError Unit
  | [] => .ok ()
  | item :: rest => do
    let ty ← infer s (.wanting element) item
    if !ty.agrees element then throw (.mixedArrayLiteral element ty item.span)
    checkElements s element rest
/-- The types of arguments, each at the site of its position. -/
def inferArgs (s : Scope) (site : Nat → Site) (i : Nat) : List Expr → Except TypeError (List Ty)
  | [] => .ok []
  | e :: es => do
    let ty ← infer s (site i) e
    let tys ← inferArgs s site (i + 1) es
    return ty :: tys
end

/-- The target of a call expression's receiver, method name and span. -/
def callTarget (s : Scope) (receiver : Expr) (method : String) (span : Span) :
    Except TypeError CallTarget :=
  CallTarget.resolve s receiver (infer s .unknown receiver) method span

/-- Parentheses do not change the type. -/
theorem infer_unparenthesized (s : Scope) (site : Site) (e : Expr) :
    infer s site e.unparenthesized = infer s site e := by
  fun_induction unparenthesized e with
  | case1 e _ ih => rw [ih, infer]
  | case2 => rfl

end Expr

end JavaMinus
