import JavaMinus.Scope
import JavaMinus.Syntax.Expr
import JavaMinus.Typing.Error
import JavaMinus.Typing.Site

/-!
# Calls

What a method call is bound to, decided by its receiver:

- `this`, the name of the class, and every value of the class reach the class's own methods;
- a name that is no variable but an import is a class, and the call is static;
- a value of an imported class or of the superclass takes any method.

The classification needs the receiver's type, which it is given as the outcome of inference. Nothing
here recurses into expressions, so inference can be defined from it by structural recursion.
-/

namespace JavaMinus

/-- What a method call is bound to. -/
inductive CallTarget where
  /-- A method that the class declares. -/
  | declared (signature : Signature)
  /-- A method of the class that only the superclass can declare. -/
  | inherited
  /-- A static method of an imported class. -/
  | importedStatic (className : String)
  /-- A method of a value whose class is imported or is the superclass. -/
  | importedVirtual (receiver : Ty)
deriving DecidableEq, Inhabited

namespace Signature

/-- The type that an argument, counted from zero, is wanted with. From the varargs parameter on it
is the element type; beyond the parameters there is none. -/
def parameterType? (m : Signature) (index : Nat) : Option Ty :=
  match m.varargsParameter? with
  | some varargs =>
    if m.parameters.length ≤ index + 1 then varargs.ty.element?
    else m.parameters[index]?.map fun p => p.ty.plain
  | none => m.parameters[index]?.map fun p => p.ty.plain

/-- The arguments pass an array for the varargs parameter itself: one for each parameter, the last
of them of its type. -/
def passesVarargsArray (m : Signature) (arguments : List Ty) : Bool :=
  match m.varargsParameter?, arguments.getLast? with
  | some varargs, some last => arguments.length == m.parameters.length && last.agrees varargs.ty
  | _, _ => false

/-- The number of arguments fits: exactly the parameters, or at least those in front of a varargs
parameter. -/
def acceptsCount (m : Signature) (count : Nat) : Bool :=
  if m.varargsParameter?.isSome then m.parameters.length ≤ count + 1
  else count == m.parameters.length

/-- The number of parameters that take exactly one argument each. -/
def fixedCount (m : Signature) : Nat :=
  if m.varargsParameter?.isSome then m.parameters.length - 1 else m.parameters.length

end Signature

/-- The method reached by calling a name on the class itself. -/
def Scope.ownMethod (s : Scope) (method : String) (span : Span) : Except TypeError CallTarget :=
  match s.table.method? method with
  | some m => .ok (.declared m)
  | none => if s.trustsSuperclass then .ok .inherited else .error (.undefinedMethod method span)

namespace CallTarget

/-- The target of a call on a value of a type. An array takes no method. -/
def onValue (s : Scope) (receiver : Ty) (method : String) (span : Span) :
    Except TypeError CallTarget :=
  if receiver.isArray then .error (.invalidReceiver method receiver span)
  else if receiver.name == s.table.className then s.ownMethod method span
  else if s.table.isImported receiver.name || s.table.isSuper receiver.name then
    .ok (.importedVirtual receiver)
  else .error (.invalidReceiver method receiver span)

/-- The target of a call on a name that is no variable. An import wins over the class itself, and
through its own name the class offers its static methods only. -/
def onClassName (s : Scope) (name : String) (nameSpan : Span) (method : String) (span : Span) :
    Except TypeError CallTarget :=
  if s.table.isImported name then .ok (.importedStatic name)
  else if name == s.table.className then
    match s.ownMethod method span with
    | .ok (.declared m) =>
      if m.isStatic then .ok (.declared m)
      else .error (.invalidReceiver method s.table.classType span)
    | .ok _ => .error (.invalidReceiver method s.table.classType span)
    | .error e => .error e
  else .error (.undefinedVariable name nameSpan)

/-- The target of a call, given the outcome of inference on its receiver. -/
def resolve (s : Scope) (receiver : Expr) (receiverType : Except TypeError Ty) (method : String)
    (span : Span) : Except TypeError CallTarget :=
  match receiver.unparenthesized with
  | .self selfSpan =>
    if s.isStatic then .error (.selfInStatic selfSpan) else s.ownMethod method span
  | .ident name nameSpan =>
    if (s.resolve? name).isNone then onClassName s name nameSpan method span
    else receiverType.bind fun ty => onValue s ty method span
  | _ => receiverType.bind fun ty => onValue s ty method span

/-- The method is declared in the class, so that its arguments can be checked. -/
def isDeclared : CallTarget → Bool
  | .declared _ => true
  | _ => false

/-- The call has no receiver object. -/
def isStatic : CallTarget → Bool
  | .declared m => m.isStatic
  | .importedStatic _ => true
  | _ => false

/-- The type of the call at a site. Where the method is not declared here, the site decides, and
a site that expects nothing gets nothing. -/
def resultType (site : Site) : CallTarget → Ty
  | .declared m => m.returnType.plain
  | _ => (site.expected?.map Ty.plain).getD Ty.void

/-- The site of an argument, counted from zero. -/
def argumentSite : CallTarget → Nat → Site
  | .declared m, index => .argument (m.parameterType? index)
  | _, _ => .argument none

/-- The number of arguments is wrong for a declared method. A trusted superclass may overload the
method, so then every number is right. -/
def checkCount (s : Scope) (method : String) (count : Nat) (span : Span) :
    CallTarget → Except TypeError Unit
  | .declared m =>
    if s.trustsSuperclass || m.acceptsCount count then .ok ()
    else .error (.argumentCountMismatch method m.fixedCount count m.varargsParameter?.isSome span)
  | _ => .ok ()

/-- The first argument that does not fit the parameter it is passed for. -/
def misfit (s : Scope) (m : Signature) (method : String) (direct : Bool) :
    Nat → List (Span × Ty) → Except TypeError Unit
  | _, [] => .ok ()
  | i, (span, actual) :: rest =>
    match m.parameterType? i with
    | none => misfit s m method direct (i + 1) rest
    | some expected =>
      if m.varargsParameter?.isSome && m.parameters.length ≤ i + 1 && direct then
        misfit s m method direct (i + 1) rest
      else if s.assignable expected actual then misfit s m method direct (i + 1) rest
      else .error (.argumentTypeMismatch method (i + 1) expected actual span)

/-- The arguments fit the parameters of a declared method; an array passed for the varargs parameter
itself fits. A trusted superclass may overload the method, so then all arguments fit. -/
def checkTypes (s : Scope) (method : String) (spans : List Span) (actuals : List Ty) :
    CallTarget → Except TypeError Unit
  | .declared m =>
    if s.trustsSuperclass then .ok ()
    else misfit s m method (m.passesVarargsArray actuals) 0 (spans.zip actuals)
  | _ => .ok ()

/-- The type of the call, refused where the site uses a value and the call has none. -/
def valueType (site : Site) (method : String) (span : Span) (target : CallTarget) :
    Except TypeError Ty :=
  if site.consumesValue && (target.resultType site).isVoid then
    .error (if target.isDeclared then .voidValue method span else .unresolvedCallType method span)
  else .ok (target.resultType site)

end CallTarget

end JavaMinus
