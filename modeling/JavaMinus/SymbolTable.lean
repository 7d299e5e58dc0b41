import JavaMinus.Ty

/-!
# The symbol table

What the rest of the compiler knows of one class: its name, superclass and imports, and the
declared names with their types. A table is built once and only read afterwards. Every lookup takes
the first declaration of a name; repeated declarations stay in the table, and reporting them is the
checker's work.
-/

namespace JavaMinus

/-- A field, parameter or local variable with its declared type. -/
structure Symbol where
  name : String
  ty : Ty
deriving DecidableEq, Inhabited

namespace Symbol

/-- The written form, type first: `int[] a`. -/
def text (s : Symbol) : String := s.ty.text ++ " " ++ s.name

end Symbol

/-- The first symbol of a name. -/
def lookupSymbol (name : String) (symbols : List Symbol) : Option Symbol :=
  symbols.find? fun s => s.name == name

/-- The name of the method that a program starts at. -/
def entryPoint : String := "main"

/-- What is declared of one method. -/
structure Signature where
  name : String
  returnType : Ty
  parameters : List Symbol := []
  locals : List Symbol := []
  isStatic : Bool := false
  isPublic : Bool := false
deriving DecidableEq, Inhabited

namespace Signature

/-- A program starts at the static method of that name. -/
def isEntryPoint (m : Signature) : Bool := m.name == entryPoint && m.isStatic

/-- The last parameter, when it is marked varargs. -/
def varargsParameter? (m : Signature) : Option Symbol :=
  m.parameters.getLast?.filter fun p => p.ty.isVarargs

/-- The first local variable of a name. -/
def local? (m : Signature) (name : String) : Option Symbol := lookupSymbol name m.locals

/-- The first parameter of a name. -/
def parameter? (m : Signature) (name : String) : Option Symbol := lookupSymbol name m.parameters

def addParameter (m : Signature) (s : Symbol) : Signature :=
  { m with parameters := m.parameters ++ [s] }

def addLocal (m : Signature) (s : Symbol) : Signature := { m with locals := m.locals ++ [s] }

end Signature

/-- The last segment of a dotted name: `List` of `java.util.List`. -/
def simpleName (dotted : String) : String :=
  String.ofList (dotted.toList.reverse.takeWhile (· != '.')).reverse

/-- The declared names of one class. -/
structure SymbolTable where
  className : String
  superClass : Option String := none
  /-- Dotted names, in source order. -/
  imports : List String := []
  fields : List Symbol := []
  methods : List Signature := []
deriving DecidableEq, Inhabited

namespace SymbolTable

def addImport (t : SymbolTable) (dotted : String) : SymbolTable :=
  { t with imports := t.imports ++ [dotted] }

def addField (t : SymbolTable) (s : Symbol) : SymbolTable := { t with fields := t.fields ++ [s] }

def addMethod (t : SymbolTable) (m : Signature) : SymbolTable :=
  { t with methods := t.methods ++ [m] }

/-- The class itself as a type. -/
def classType (t : SymbolTable) : Ty := Ty.scalar t.className

/-- The first method of a name. -/
def method? (t : SymbolTable) (name : String) : Option Signature :=
  t.methods.find? fun m => m.name == name

/-- The method declared at a position, when it has the given name; otherwise the first method of
that name. The position tells methods of one name apart, and the name is the fallback for a table
that lists them in another order. -/
def methodAt? (t : SymbolTable) (index : Nat) (name : String) : Option Signature :=
  (t.methods[index]?.filter fun m => m.name == name).or (t.method? name)

/-- The first field of a name. -/
def field? (t : SymbolTable) (name : String) : Option Symbol := lookupSymbol name t.fields

/-- The declared superclass has the given name. -/
def isSuper (t : SymbolTable) (name : String) : Bool := t.superClass == some name

/-- Some import has the given name as its last segment. -/
def isImported (t : SymbolTable) (name : String) : Bool :=
  t.imports.any fun i => simpleName i == name

theorem method?_name {t : SymbolTable} {name : String} {m : Signature}
    (h : t.method? name = some m) : m.name = name := by
  simpa using List.find?_some h

end SymbolTable

end JavaMinus
