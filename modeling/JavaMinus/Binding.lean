import JavaMinus.Syntax.Program

/-!
# Binding

The symbol table of a program: one entry for each declaration, in the order of declaration.
Repeated names are kept as declared; the checker reports them.
-/

namespace JavaMinus

/-- The symbol that a declaration introduces. -/
def VarDecl.symbol (d : VarDecl) : Symbol := { name := d.name, ty := d.typeRef.ty }

/-- The signature that a method declares. -/
def MethodDecl.signature (m : MethodDecl) : Signature where
  name := m.name
  returnType := m.returnType.ty
  parameters := m.params.map VarDecl.symbol
  locals := m.locals.map VarDecl.symbol
  isStatic := m.isStatic
  isPublic := m.isPublic

/-- The symbol table of a program. -/
def Program.symbolTable (p : Program) : SymbolTable where
  className := p.classDecl.name
  superClass := p.classDecl.superClass
  imports := p.imports.map Import.qualifiedName
  fields := p.classDecl.fields.map VarDecl.symbol
  methods := p.classDecl.methods.map MethodDecl.signature

/-- In the table bound from a program, the method at a position is the one declared there. -/
theorem Program.methodAt?_symbolTable {p : Program} {i : Nat} {m : MethodDecl}
    (h : p.classDecl.methods[i]? = some m) :
    p.symbolTable.methodAt? i m.name = some m.signature := by
  simp [SymbolTable.methodAt?, symbolTable, h, MethodDecl.signature]

end JavaMinus
