import JavaMinus.Lowering.Lower
import JavaMinus.Typing.Infer

/-!
# Lowering expressions

The code of an expression leaves its value in an operand. Parts are lowered in the order of their
evaluation, so code is only ever appended.

An array element is left as an operand that is read where it is used. Two rules keep that read in
front of the calls that follow it in the text: an argument is copied into a temporary at once, and
the left operand of an operator is copied when a call stands in the right one.

A step with two or more parts takes their lowering as arguments (`pair`, `callCode`), so that the
recursion in `lower` is over the parts of the expression only.
-/

namespace JavaMinus

open Tac

mutual
/-- A method call stands somewhere in the expression. -/
def Expr.containsCall : Expr → Bool
  | .call .. => true
  | .binary _ l r _ => l.containsCall || r.containsCall
  | .not e _ => e.containsCall
  | .arrayLit es _ => Expr.anyContainsCall es
  | .index a i _ => a.containsCall || i.containsCall
  | .newArray _ n _ => n.containsCall
  | .member e _ _ => e.containsCall
  | .paren e _ => e.containsCall
  | .intLit .. | .boolLit .. | .ident .. | .self _ | .newObject .. => false
/-- A method call stands in one of the expressions. -/
def Expr.anyContainsCall : List Expr → Bool
  | [] => false
  | e :: es => e.containsCall || Expr.anyContainsCall es
end

namespace Lower

/-- The receiver of the current method. -/
def self (s : Scope) : Operand := .self s.table.classType

/-- The element type of an array type. -/
def elementOf (array : Ty) : Lower Ty := ofOption (.notArray array) array.element?

/-- A new temporary, and the instruction that fills it. -/
def intoFresh (ty : Ty) (instr : Operand → Instr) : Lower Operand := do
  let dest ← fresh ty
  emit (instr dest)
  return dest

/-- The value of a variable. A field is read from the receiver. -/
def readVariable (s : Scope) (name : String) : Lower Operand := do
  let v ← ofOption (.unresolvedVariable name) (s.resolve? name)
  if v.isField then intoFresh v.ty fun dest => .fieldRead dest (self s) name v.ty
  else return .var name v.ty

/-- Store values into an array, the first at the given index. -/
def storeAll (array : Operand) (index : Nat) : List Operand → Lower Unit
  | [] => return ()
  | value :: rest => do
    emit (.arrayStore array (.int (Int32.ofNat index)) value)
    storeAll array (index + 1) rest

/-- The largest length of an array. -/
def maxArrayLength : Nat := 2147483647

/-- A new array that holds the given values in order. -/
def packArray (element : Ty) (values : List Operand) : Lower Operand := do
  if values.length > maxArrayLength then fail .literalTooLarge
  let array ← intoFresh (Ty.array element.name) fun dest =>
    .newArray dest (.int (Int32.ofNat values.length)) element
  storeAll array 0 values
  return array

/-- Copy an array element that is used only after `next` when a call stands in `next`. -/
def settleBefore (operand : Operand) (next : Expr) : Lower Operand :=
  if operand.isElement && next.containsCall then
    intoFresh operand.ty fun dest => .assign dest operand
  else return operand

/-- The sites of the operands of an operator, as inference sees them. -/
def operandSites (s : Scope) (op : BinaryOp) (left right : Expr) :
    Except TypeError (Site × Site) :=
  if op.isEquality then
    if left.isCall then return (.wanting (← right.infer s .unknown), .unknown)
    else return (.unknown, .wanting (← left.infer s .unknown))
  else return (.wanting op.operandType, .wanting op.operandType)

/-- The operands of an operator, given the lowering of each at its site. -/
def pair (s : Scope) (op : BinaryOp) (left right : Expr)
    (lowerLeft lowerRight : Site → Lower Operand) : Lower (Operand × Operand) := do
  let (leftSite, rightSite) ← ofTyping (operandSites s op left right)
  let l ← lowerLeft leftSite
  let l ← settleBefore l right
  let r ← lowerRight rightSite
  return (l, r)

/-- Pass arguments for the parameters of a declared method. Those from the varargs parameter on are
packed into a new array, unless an array is passed for the parameter itself. Too few arguments are
left as they are for a trusted superclass, which may overload the method. -/
def packVarargs (s : Scope) (m : Signature) (method : String) (args : List Operand) :
    Lower (List Operand) :=
  match m.varargsParameter? with
  | none => return args
  | some varargs =>
    if m.passesVarargsArray (args.map Operand.ty) then return args
    else if args.length < m.fixedCount then
      if s.trustsSuperclass then return args else fail (.tooFewArguments method)
    else do
      let element ← elementOf varargs.ty
      let packed ← packArray element (args.drop m.fixedCount)
      return args.take m.fixedCount ++ [packed]

/-- How a call on a target finds its method. -/
def callKind (target : CallTarget) : CallKind := if target.isStatic then .static else .virtual

/-- The receiver of a call on a target: a class for a static call, and else the object. -/
def receiver (s : Scope) (target : CallTarget) (object : Lower Operand) : Lower Operand :=
  match target with
  | .importedStatic name => return .ofClass name
  | .declared m => if m.isStatic then return .ofClass s.table.className else object
  | _ => object

/-- A call, given the target and the lowering of its parts. The result is kept only where the site
uses it and the call has one. -/
def callCode (s : Scope) (site : Site) (method : String) (target : Except TypeError CallTarget)
    (object : Lower Operand) (args : (Nat → Site) → Lower (List Operand)) :
    Lower (Option Operand) := do
  let target ← ofTyping target
  let on ← receiver s target object
  let values ← args target.argumentSite
  let values ← match target with
    | .declared m => packVarargs s m method values
    | _ => pure values
  let returnTy := target.resultType site
  if site.consumesValue && !returnTy.isVoid then do
    let dest ← fresh returnTy
    emit (.call (some dest) (callKind target) on method values returnTy)
    return some dest
  else do
    emit (.call none (callKind target) on method values returnTy)
    return none

/-- A new object: its allocation, then its constructor. -/
def allocate (className : String) : Lower Operand := do
  let dest ← fresh (Ty.scalar className)
  emit (.newObject dest className)
  emit (.call none .constructor dest constructorName [] Ty.void)
  return dest

/-- An array element, copied at once where it is an argument. -/
def elementAt (site : Site) (array index : Operand) : Lower Operand := do
  let ty ← elementOf array.ty
  let element := Operand.element array index ty
  if site.isArgument then intoFresh ty fun dest => .assign dest element else return element

end Lower

open Lower

mutual
/-- The code of an expression at a site, and the operand that holds its value. -/
def Expr.lower (s : Scope) (site : Site) : Expr → Lower Operand
  | .intLit value _ => return .int value
  | .boolLit value _ => return .boolean value
  | .ident name _ => readVariable s name
  | .self _ => return Lower.self s
  | .binary op left right _ => do
    let (l, r) ← pair s op left right (fun site => left.lower s site) fun site => right.lower s site
    intoFresh op.resultType fun dest => .binary dest op l r
  | .not operand _ => do
    let value ← operand.lower s (.wanting Ty.boolean)
    intoFresh Ty.boolean fun dest => .not dest value
  | .arrayLit elements span => do
    let ty ← ofTyping ((Expr.arrayLit elements span).infer s site)
    let element ← elementOf ty
    let values ← Expr.lowerAll s (fun _ => .wanting element) 0 elements
    packArray element values
  | .index array place _ => do
    let a ← array.lower s .unknown
    let i ← place.lower s (.wanting Ty.int)
    elementAt site a i
  | .newArray element length _ => do
    let n ← length.lower s (.wanting Ty.int)
    intoFresh (Ty.array element.ty.name) fun dest => .newArray dest n element.ty.plain
  | .newObject className _ => allocate className
  | .member object property _ =>
    if property != "length" then fail (.unknownProperty property)
    else do
      let array ← object.lower s (.wanting Ty.intArray)
      intoFresh Ty.int fun dest => .arrayLength dest array
  | .call receiver method args span => do
    let result ← callCode s site method (receiver.callTarget s method span)
      (receiver.lower s .unknown) fun sites => Expr.lowerAll s sites 0 args
    ofOption (.callWithoutValue method) result
  | .paren inner _ => inner.lower s site
/-- The code of expressions one after another, each at the site of its position. -/
def Expr.lowerAll (s : Scope) (site : Nat → Site) (i : Nat) : List Expr → Lower (List Operand)
  | [] => return []
  | e :: es => do
    let value ← e.lower s (site i)
    let values ← Expr.lowerAll s site (i + 1) es
    return value :: values
end

/-- The code of an expression whose value is dropped: a call gets no temporary for its result. -/
def Expr.lowerDiscarded (s : Scope) (e : Expr) : Lower Unit :=
  match e.unparenthesized with
  | .call receiver method args span => do
    let _ ← callCode s .discarded method (receiver.callTarget s method span)
      (receiver.lower s .unknown) fun sites => Expr.lowerAll s sites 0 args
  | e => do
    let _ ← e.lower s .discarded

/-- A jump to a label that is taken when the condition holds. A relation is tested by the jump; any
other condition is computed first. -/
def Expr.lowerCondition (s : Scope) (condition : Expr) (target : String) : Lower Unit := do
  let test ← match condition.unparenthesized with
    | .binary op left right _ =>
      if op.isRelational then do
        let (l, r) ← pair s op left right (fun site => left.lower s site) fun site =>
          right.lower s site
        pure (Condition.compare op l r)
      else do pure (Condition.truthy (← condition.lower s (.wanting Ty.boolean)))
    | _ => do pure (Condition.truthy (← condition.lower s (.wanting Ty.boolean)))
  emit (.branch test target)

end JavaMinus
