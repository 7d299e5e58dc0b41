import JavaMinus.Policy
import JavaMinus.SymbolTable

/-!
# Scopes

A scope is all that an expression's meaning depends on besides the expression: the symbol table of
the class, the method it stands in, and the policy. It is passed along and never changed, so the
meaning of a name does not depend on the order in which nodes are visited.
-/

namespace JavaMinus

/-- Where a variable is declared. -/
inductive Origin where
  | localVariable
  | parameter
  | field
deriving DecidableEq, Inhabited

/-- A variable that a name stands for. -/
structure Variable where
  symbol : Symbol
  origin : Origin
deriving DecidableEq, Inhabited

namespace Variable

/-- The variable is a field of the class. -/
def isField (v : Variable) : Bool := v.origin == .field

/-- The type of the variable's value. -/
def ty (v : Variable) : Ty := v.symbol.ty.plain

end Variable

/-- The class, method and policy that an expression is read in. -/
structure Scope where
  table : SymbolTable
  method : Signature
  policy : Policy := {}

namespace Scope

/-- The current method is static. -/
def isStatic (s : Scope) : Bool := s.method.isStatic

/-- The declared return type of the current method. -/
def returnType (s : Scope) : Ty := s.method.returnType.plain

/-- The variable of a name: a local hides a parameter, and both hide a field. -/
def resolve? (s : Scope) (name : String) : Option Variable :=
  match s.method.local? name with
  | some symbol => some ⟨symbol, .localVariable⟩
  | none =>
    match s.method.parameter? name with
    | some symbol => some ⟨symbol, .parameter⟩
    | none => (s.table.field? name).map fun symbol => ⟨symbol, .field⟩

/-- A class that may be allocated: the class itself, its superclass, or an import. -/
def knowsClass (s : Scope) (name : String) : Bool :=
  name == s.table.className || s.table.isSuper name || s.table.isImported name

/-- A value may be stored where the target type is expected: the types agree, or they have one
shape and either the class is stored as its superclass or, under a lenient policy, both names are
imported. -/
def assignable (s : Scope) (target value : Ty) : Bool :=
  target.agrees value ||
    (target.isArray == value.isArray &&
      ((value.name == s.table.className && s.table.isSuper target.name) ||
        (s.policy.lenientImports && s.table.isImported target.name &&
          s.table.isImported value.name)))

/-- The superclass may declare any method: the class has one, and the policy trusts it. -/
def trustsSuperclass (s : Scope) : Bool := s.table.superClass.isSome && s.policy.trustSuperclass

@[simp] theorem assignable_self (s : Scope) (t : Ty) : s.assignable t t = true := by
  simp [assignable]

end Scope

end JavaMinus
