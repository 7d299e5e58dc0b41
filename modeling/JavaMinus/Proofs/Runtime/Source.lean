import JavaMinus.Proofs.Lowering.Calls
import JavaMinus.Proofs.Runtime.ThreeAddress

/-!
# Running source text

What statements and expressions do. Operands are evaluated strictly from left to right, and both of
them, also those of `&&` and `||`: the receiver of a call before its arguments, the array of an
element before the index, and an element's index before the value that is stored. The elements of an
array literal and the arguments for a varargs parameter are evaluated before their array is made. A
variable, a field, an element or the result of a call has a value only if it is one of its type.

An expression has a value in a frame, the locals, parameters and receiver of a method, and leaves the
frame as it is: it changes memory only, by what it allocates and what it calls. A statement changes
both and ends in front of the next one, or returns. Loops are run for a number of rounds, and a
statement that needs more of them has no outcome; so it terminates when it has an outcome for some
number of rounds.

Calls are events that the world answers, as they are for code (`World.calls`). Two calls that are
alike and find the same heap have the same answer; a method that is to answer otherwise the second
time keeps count on the heap.
-/

namespace JavaMinus

open Jvm (InvokeKind elementKind)
open JavaMinus.Runtime Tac

namespace Runtime.World

/-- The heap with another element at an index of an array over a type. -/
def store (w : World) (h : Heap) (element : String) (array index v : Value) : Option Heap :=
  if (Ty.scalar element).admits v then w.setElement h (elementKind element) array index v else none

/-- Store values into an array in order, the first at the given index. -/
def fill (w : World) (h : Heap) (element : String) (array : Value) (index : Nat) :
    List Value → Option Heap
  | [] => some h
  | v :: rest => do
    let h ← w.store h element array (.int (.ofNat index)) v
    fill w h element array (index + 1) rest

end Runtime.World

/-- The class, as the source names it, that a call on a target is looked up in. -/
def CallTarget.className (s : Scope) : CallTarget → String
  | .declared _ | .inherited => s.table.className
  | .importedStatic name => name
  | .importedVirtual ty => ty.name

namespace Source

/-- The values of locals and parameters, and the receiver. -/
structure Frame where
  vars : String → Option Value
  self : Option Nat := none

/-- What statements change. -/
structure State extends Frame where
  memory : Memory := {}

/-- How a statement ends. -/
inductive Outcome where
  | normal
  | returned (value : Option Value)
deriving DecidableEq

/-- What a method returns whose body ends so. -/
def Outcome.value : Outcome → Option Value
  | .normal => none
  | .returned v => v

variable (w : World) (x : Setting) (s : Scope)

namespace Frame

variable (f : Frame)

/-- The receiver. -/
def this : Option Value :=
  (f.self.map fun a => Value.ref (some a)).filter s.table.classType.admits

/-- A field of the class. -/
def fieldKey (name : String) (ty : Ty) : Option FieldKey := do
  let descriptor ← (x.names.descriptor ty).toOption
  return ⟨x.names.qualify s.table.className, name, descriptor⟩

/-- The value of a variable. A field is read from the receiver. -/
def read (h : Heap) (name : String) : Option Value := do
  let v ← s.resolve? name
  if v.isField then do
    let key ← fieldKey x s name v.ty
    (h.getField (← f.this s) key).filter v.ty.admits
  else (f.vars name).filter v.ty.admits

end Frame

/-- A new array over a type that holds the given values in order. -/
def newArrayOf (m : Memory) (element : String) (values : List Value) : Option (Value × Memory) := do
  let (a, heap) ← m.heap.newArray (elementKind element) (x.elementName element)
    (.int (.ofNat values.length))
  let heap ← w.fill heap element (.ref (some a)) 0 values
  return (.ref (some a), { m with heap })

/-- What is passed for the values of arguments of given types: those for a varargs parameter in a new
array. -/
def pass (target : CallTarget) (tys : List Ty) (values : List Value) (m : Memory) :
    Option (List Value × Memory) :=
  match target with
  | .declared sig =>
    match sig.varargsParameter? with
    | none => some (values, m)
    | some varargs =>
      if sig.passesVarargsArray tys || tys.length < sig.fixedCount then some (values, m)
      else do
        let (array, m) ← newArrayOf w x m varargs.ty.name (values.drop sig.fixedCount)
        return (values.take sig.fixedCount ++ [array], m)
  | _ => some (values, m)

/-- How a call on a target finds its method, the class it is looked up in, and the receiver. The
value that a static method is called on is dropped. -/
def receiver (target : CallTarget) (object : Option Value) :
    Option (InvokeKind × String × Option Nat) :=
  if target.isStatic then some (.static, x.names.qualify (target.className s), none)
  else do
    let a ← (← object).address?
    return (.virtual, x.names.qualify (target.className s), some a)

/-- A call at a site, given the evaluation of its parts. It has a result exactly if its type is not
`void`. -/
def call (site : Site) (receiverExpr : Expr) (method : String) (args : List Expr) (span : Span)
    (object : Memory → Option (Value × Memory))
    (values : (Nat → Site) → Memory → Option (List Value × Memory)) (m : Memory) :
    Option (Option Value × Memory) := do
  let target ← (receiverExpr.callTarget s method span).toOption
  let tys ← (Expr.inferArgs s target.argumentSite 0 args).toOption
  let (on, m) ← (if receiverExpr.namesClass s then some (none, m)
    else (object m).map fun (v, m) => (some v, m))
  let (values, m) ← values target.argumentSite m
  let (passed, m) ← pass w x target tys values m
  let (invoke, owner, on) ← receiver x s target on
  let ty := target.resultType site
  let descriptor ← (x.names.methodDescriptor (target.passedTypes tys) ty).toOption
  let (result, m) ← w.invoke ⟨invoke, owner, method, descriptor, on, passed⟩ m
  if result.isSome = !ty.isVoid then some (result, m) else none

/-- The steps of a call in order: the receiver, unless it names a class, the arguments, what is passed
for them, and the call itself. -/
theorem call_eq_some {site : Site} {receiverExpr : Expr} {method : String} {args : List Expr}
    {span : Span} {object : Memory → Option (Value × Memory)}
    {values : (Nat → Site) → Memory → Option (List Value × Memory)} {m m' : Memory}
    {result : Option Value} {target : CallTarget} {tys : List Ty}
    (ht : receiverExpr.callTarget s method span = .ok target)
    (htys : Expr.inferArgs s target.argumentSite 0 args = .ok tys)
    (h : call w x s site receiverExpr method args span object values m = some (result, m')) :
    ∃ on m₁ vs m₂ passed m₃ invoke owner this descriptor,
      (if receiverExpr.namesClass s then some (none, m) else
        (object m).map fun (v, m) => (some v, m)) = some (on, m₁) ∧
      values target.argumentSite m₁ = some (vs, m₂) ∧
      pass w x target tys vs m₂ = some (passed, m₃) ∧
      receiver x s target on = some (invoke, owner, this) ∧
      (x.names.methodDescriptor (target.passedTypes tys) (target.resultType site)).toOption =
        some descriptor ∧
      w.invoke ⟨invoke, owner, method, descriptor, this, passed⟩ m₃ = some (result, m') ∧
      result.isSome = !(target.resultType site).isVoid := by
  unfold call at h
  rw [ht, show (Except.ok target : Except TypeError CallTarget).toOption = some target from rfl,
    Option.bind_eq_bind, Option.bind_some, htys,
    show (Except.ok tys : Except TypeError (List Ty)).toOption = some tys from rfl,
    Option.bind_eq_bind, Option.bind_some] at h
  simp only [Option.bind_eq_bind, Option.bind_eq_some_iff] at h
  obtain ⟨⟨on, m₁⟩, hon, ⟨vs, m₂⟩, hvs, ⟨passed, m₃⟩, hpassed, ⟨invoke, owner, this⟩, hthis,
    descriptor, hdescriptor, ⟨r, m₄⟩, hinvoke, h⟩ := h
  split at h
  · next hvoid =>
    cases h
    exact ⟨on, m₁, vs, m₂, passed, m₃, invoke, owner, this, descriptor, hon, hvs, hpassed, hthis,
      hdescriptor, hinvoke, hvoid⟩
  · cases h

end Source

open Source

mutual
/-- The value of an expression at a site, and memory behind it. -/
def Expr.eval (w : World) (x : Setting) (s : Scope) (f : Frame) (site : Site) :
    Expr → Memory → Option (Value × Memory)
  | .intLit n _, m => some (.int n, m)
  | .boolLit b _, m => some (.ofBool b, m)
  | .ident name _, m => do return (← f.read x s m.heap name, m)
  | .self _, m => do return (← f.this s, m)
  | .binary op left right _, m => do
    let (leftSite, rightSite) ← (Lower.operandSites s op left right).toOption
    let (a, m) ← left.eval w x s f leftSite m
    let (b, m) ← right.eval w x s f rightSite m
    return (← op.apply a b, m)
  | .not operand _, m => do
    let (v, m) ← operand.eval w x s f (.wanting Ty.boolean) m
    return (.ofBool (!(← v.bool?)), m)
  | .arrayLit elements span, m => do
    let ty ← ((Expr.arrayLit elements span).infer s site).toOption
    let (values, m) ← Expr.evalAll w x s f (fun _ => .wanting (Ty.scalar ty.name)) 0 elements m
    newArrayOf w x m ty.name values
  | .index array place _, m => do
    let ty ← (array.infer s .unknown).toOption
    let (a, m) ← array.eval w x s f .unknown m
    let (i, m) ← place.eval w x s f (.wanting Ty.int) m
    let v ← (m.heap.getElement (elementKind ty.name) a i).filter (Ty.scalar ty.name).admits
    return (v, m)
  | .newArray element length _, m => do
    let (n, m) ← length.eval w x s f (.wanting Ty.int) m
    let (a, heap) ← m.heap.newArray (elementKind element.ty.name) (x.elementName element.ty.name) n
    return (.ref (some a), { m with heap })
  | .newObject className _, m => do
    let owner := x.names.qualify className
    let (a, heap) := m.heap.newObject owner
    let (result, m) ← w.invoke ⟨.special, owner, constructorName, "()V", some a, []⟩ { m with heap }
    if result = none ∧ (Ty.scalar className).admits (.ref (some a)) then some (.ref (some a), m)
    else none
  | .member object property _, m => do
    let (a, m) ← object.eval w x s f (.wanting Ty.intArray) m
    if property = "length" then return (← m.heap.arrayLength a, m) else none
  | .call receiver method args span, m => do
    let ty ← ((Expr.call receiver method args span).infer s site).toOption
    let (result, m) ← Source.call w x s site receiver method args span
      (receiver.eval w x s f .unknown) (fun sites => Expr.evalAll w x s f sites 0 args) m
    return (← result.filter ty.admits, m)
  | .paren inner _, m => inner.eval w x s f site m
/-- The values of expressions one after another, each at the site of its position. -/
def Expr.evalAll (w : World) (x : Setting) (s : Scope) (f : Frame) (sites : Nat → Site) (i : Nat) :
    List Expr → Memory → Option (List Value × Memory)
  | [], m => some ([], m)
  | e :: es, m => do
    let (v, m) ← e.eval w x s f (sites i) m
    let (vs, m) ← Expr.evalAll w x s f sites (i + 1) es m
    return (v :: vs, m)
end

/-- Parentheses do not change the value. -/
theorem Expr.eval_unparenthesized (w : World) (x : Setting) (s : Scope) (f : Frame) (site : Site)
    (e : Expr) : e.unparenthesized.eval w x s f site = e.eval w x s f site := by
  fun_induction unparenthesized e with
  | case1 e _ ih =>
    rw [ih]
    rfl
  | case2 => rfl

namespace Source

variable (w : World) (x : Setting) (s : Scope)

namespace State

variable (σ : State)

/-- The value of an expression in a state, and the state behind it. -/
def eval (site : Site) (e : Expr) : Option (Value × State) := do
  let (v, memory) ← e.eval w x s σ.toFrame site σ.memory
  return (v, { σ with memory })

/-- Evaluate an expression whose value, if it has one, is dropped. -/
def discard (e : Expr) : Option State :=
  match e.unparenthesized with
  | .call receiver method args span => do
    let (_, memory) ← Source.call w x s .discarded receiver method args span
      (receiver.eval w x s σ.toFrame .unknown)
      (fun sites => Expr.evalAll w x s σ.toFrame sites 0 args) σ.memory
    return { σ with memory }
  | e => do
    let (_, σ) ← σ.eval w x s .discarded e
    return σ

/-- A condition holds. -/
def test (condition : Expr) : Option (Bool × State) := do
  let (v, σ) ← σ.eval w x s (.wanting Ty.boolean) condition
  return (← v.bool?, σ)

/-- Assign to a variable. A field is written on the receiver. -/
def assign (name : String) (value : Expr) : Option State := do
  let v ← s.resolve? name
  let (u, σ) ← σ.eval w x s (.assigned v.ty) value
  if v.isField then do
    let key ← Frame.fieldKey x s name v.ty
    let heap ← σ.memory.heap.putField (← σ.this s) key u
    return { σ with memory := { σ.memory with heap } }
  else if v.ty.admits u then return { σ with vars := Function.update σ.vars name (some u) }
  else none

/-- Assign to an array element. The array is read before the index. -/
def assignElement (name : String) (index value : Expr) : Option State := do
  let v ← s.resolve? name
  let a ← σ.read x s σ.memory.heap name
  let (i, σ) ← σ.eval w x s (.wanting Ty.int) index
  let (u, σ) ← σ.eval w x s (.assigned (Ty.scalar v.ty.name)) value
  let heap ← w.store σ.memory.heap v.ty.name a i u
  return { σ with memory := { σ.memory with heap } }

/-- Return from the method. -/
def ret (value : Option Expr) : Option (Outcome × State) :=
  match value with
  | none => some (.returned none, σ)
  | some e => do
    let (v, σ) ← σ.eval w x s (.returned s.returnType) e
    if s.returnType.admits v then return (.returned (some v), σ) else none

end State

/-- Go on behind a statement that did not return. -/
def andThen (first : Option (Outcome × State)) (rest : State → Option (Outcome × State)) :
    Option (Outcome × State) := do
  match ← first with
  | (.normal, σ) => rest σ
  | (.returned v, σ) => some (.returned v, σ)

/-- Run a body as long as a test holds, for fewer than the given number of rounds. -/
def iterate (test : State → Option (Bool × State)) (body : State → Option (Outcome × State)) :
    Nat → State → Option (Outcome × State)
  | 0, _ => none
  | rounds + 1, σ => do
    let (holds, σ) ← test σ
    if holds then andThen (body σ) (iterate test body rounds) else some (.normal, σ)

end Source

mutual
/-- The outcome of a statement when no loop runs longer than a number of rounds. -/
def Stmt.exec (w : World) (x : Setting) (s : Scope) (rounds : Nat) :
    Stmt → Source.State → Option (Outcome × Source.State)
  | .block body _, σ => Stmt.execAll w x s rounds body σ
  | .branch condition thenBranch none _, σ => do
    let (holds, σ) ← σ.test w x s condition
    if holds then thenBranch.exec w x s rounds σ else some (.normal, σ)
  | .branch condition thenBranch (some elseBranch) _, σ => do
    let (holds, σ) ← σ.test w x s condition
    if holds then thenBranch.exec w x s rounds σ else elseBranch.exec w x s rounds σ
  | .loop condition body _, σ =>
    iterate (fun σ => σ.test w x s condition) (fun σ => body.exec w x s rounds σ) rounds σ
  | .expr e _, σ => do return (.normal, ← σ.discard w x s e)
  | .assign name value _, σ => do return (.normal, ← σ.assign w x s name value)
  | .assignElement name index value _, σ => do
    return (.normal, ← σ.assignElement w x s name index value)
  | .ret value _, σ => σ.ret w x s value
/-- The outcome of statements one after another. -/
def Stmt.execAll (w : World) (x : Setting) (s : Scope) (rounds : Nat) :
    List Stmt → Source.State → Option (Outcome × Source.State)
  | [], σ => some (.normal, σ)
  | stmt :: rest, σ =>
    andThen (stmt.exec w x s rounds σ) fun σ => Stmt.execAll w x s rounds rest σ
end

end JavaMinus
