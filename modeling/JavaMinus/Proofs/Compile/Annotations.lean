import JavaMinus.Proofs.Jvm.Represents
import JavaMinus.Proofs.Lowering.Program

/-!
# Types written in a program

`Program.annotations` are the types that a program writes for its fields, parameters and variables
and for the arrays it allocates: all but the results of methods. The checker asks nothing of them and
nothing of the names of classes. A program in which only results are `void`
(`Program.IsVoidFree`), and in which no class that it knows is named like a primitive type
(`Program.NamesClasses`), is one whose scopes represent everything (`Program.representable_scopeOf`).
-/

namespace JavaMinus

/-- The element type that an array allocation writes. -/
def Expr.allocated? : Expr → Option TypeRef
  | .newArray element _ _ => some element
  | _ => none

/-- The element types that the array allocations in statements write, at any depth. -/
def Stmt.allocated (body : List Stmt) : List TypeRef :=
  (Stmt.nodesAll body).flatMap fun stmt => (Expr.nodesAll stmt.expressions).filterMap Expr.allocated?

/-- The types that a program writes, other than the results of its methods. -/
def Program.annotations (p : Program) : List TypeRef :=
  p.classDecl.fields.map VarDecl.typeRef ++ p.classDecl.methods.flatMap fun m =>
    m.params.map VarDecl.typeRef ++ m.locals.map VarDecl.typeRef ++ Stmt.allocated m.body

/-- `void` is written for scalar results only. -/
structure Program.IsVoidFree (p : Program) : Prop where
  annotations : ∀ a ∈ p.annotations, a.ty.isVoid = false
  results : ∀ m ∈ p.classDecl.methods, m.returnType.ty.hasDescriptor = true

/-- No class that the program knows, itself, its superclass or an import, is named like a primitive
type. -/
structure Program.NamesClasses (p : Program) : Prop where
  self : (Ty.scalar p.classDecl.name).hasPrimitiveName = false
  super : ∀ name, p.classDecl.superClass = some name → (Ty.scalar name).hasPrimitiveName = false
  imports : ∀ i ∈ p.imports, (Ty.scalar (simpleName i.qualifiedName)).hasPrimitiveName = false

/-- No class that the program knows is named `void`. -/
structure Program.KnowsNoVoid (p : Program) : Prop where
  self : p.classDecl.name ≠ "void"
  super : ∀ name, p.classDecl.superClass = some name → name ≠ "void"
  imports : ∀ i ∈ p.imports, simpleName i.qualifiedName ≠ "void"

variable {p : Program} {policy : Policy} {m : MethodDecl}

namespace Program

/-- A class that a program knows is named by no primitive type. -/
theorem NamesClasses.of_known (h : p.NamesClasses) {name : String}
    (hk : name = p.symbolTable.className ∨ p.symbolTable.isImported name = true ∨
      p.symbolTable.isSuper name = true) : (Ty.scalar name).hasPrimitiveName = false := by
  rcases hk with rfl | hi | hs
  · exact h.self
  · obtain ⟨dotted, hd, hname⟩ := List.any_eq_true.mp hi
    obtain ⟨i, hmem, rfl⟩ := List.mem_map.mp hd
    rw [← beq_iff_eq.mp hname]
    exact h.imports i hmem
  · exact h.super name (by simpa [SymbolTable.isSuper, symbolTable] using hs)

theorem ne_void_of_not_hasPrimitiveName {name : String}
    (h : (Ty.scalar name).hasPrimitiveName = false) : name ≠ "void" := by
  rintro rfl
  cases h

theorem NamesClasses.knowsNoVoid (h : p.NamesClasses) : p.KnowsNoVoid where
  self := ne_void_of_not_hasPrimitiveName h.self
  super name hname := ne_void_of_not_hasPrimitiveName (h.super name hname)
  imports i hi := ne_void_of_not_hasPrimitiveName (h.imports i hi)

theorem KnowsNoVoid.of_known (h : p.KnowsNoVoid) {name : String}
    (hk : (p.scopeOf policy m).knowsClass name = true) : name ≠ "void" := by
  simp only [Scope.knowsClass, Bool.or_eq_true, beq_iff_eq] at hk
  rcases hk with (hself | hsuper) | himport
  · rw [hself]
    exact h.self
  · exact h.super name (beq_iff_eq.mp hsuper)
  · obtain ⟨dotted, hd, hname⟩ := List.any_eq_true.mp himport
    obtain ⟨i, hmem, rfl⟩ := List.mem_map.mp hd
    rw [← beq_iff_eq.mp hname]
    exact h.imports i hmem

/-- The declarations of a method are annotations of the program. -/
theorem mem_annotations_of_mem_params {d : VarDecl} (hm : m ∈ p.classDecl.methods)
    (hd : d ∈ m.params ++ m.locals) : d.typeRef ∈ p.annotations := by
  refine List.mem_append_right _ (List.mem_flatMap.mpr ⟨m, hm, List.mem_append_left _ ?_⟩)
  rw [← List.map_append]
  exact List.mem_map_of_mem hd

theorem mem_annotations_of_mem_fields {d : VarDecl} (hd : d ∈ p.classDecl.fields) :
    d.typeRef ∈ p.annotations :=
  List.mem_append_left _ (List.mem_map_of_mem hd)

/-- A symbol that a name resolves to is declared in the method or is a field. -/
theorem mem_annotations_of_resolve {name : String} {v : Variable} (hm : m ∈ p.classDecl.methods)
    (h : (p.scopeOf policy m).resolve? name = some v) : ∃ a ∈ p.annotations, v.symbol.ty = a.ty := by
  have found : ∀ {symbol : Symbol} {decls : List VarDecl},
      lookupSymbol name (decls.map VarDecl.symbol) = some symbol →
      ∃ d ∈ decls, symbol = d.symbol := by
    intro symbol decls h
    obtain ⟨d, hd, rfl⟩ := List.mem_map.mp (List.mem_of_find?_eq_some h)
    exact ⟨d, hd, rfl⟩
  unfold Scope.resolve? at h
  split at h
  · next symbol hs =>
    cases h
    obtain ⟨d, hd, rfl⟩ := found hs
    exact ⟨_, mem_annotations_of_mem_params hm (List.mem_append_right _ hd), rfl⟩
  · split at h
    · next symbol hs =>
      cases h
      obtain ⟨d, hd, rfl⟩ := found hs
      exact ⟨_, mem_annotations_of_mem_params hm (List.mem_append_left _ hd), rfl⟩
    · obtain ⟨symbol, hs, rfl⟩ := Option.map_eq_some_iff.mp h
      obtain ⟨d, hd, rfl⟩ := found hs
      exact ⟨_, mem_annotations_of_mem_fields hd, rfl⟩

theorem IsVoidFree.ne_void (h : p.IsVoidFree) {a : TypeRef} (ha : a ∈ p.annotations) :
    a.ty.name ≠ "void" := by
  have := h.annotations a ha
  simpa [Ty.isVoid] using this

/-- In the scopes of a `void`-free program that knows no class `void` no type of a value is named
`void`. -/
theorem names_of_knowsNoVoid (hv : p.IsVoidFree) (hc : p.KnowsNoVoid)
    (hm : m ∈ p.classDecl.methods) : (p.scopeOf policy m).Names (· ≠ "void") where
  int := by decide
  boolean := by decide
  self := hc.self
  declared name v h := by
    obtain ⟨a, ha, hty⟩ := mem_annotations_of_resolve hm h
    have hname : v.ty.name = a.ty.name := by rw [← hty]; rfl
    rw [hname]
    exact hv.ne_void ha
  known className h := hc.of_known h
  returned name m h hvoid := by simpa [Ty.isVoid] using hvoid
  parameter name signature h q hq := by
    obtain ⟨d, hd, rfl⟩ := List.mem_map.mp (SymbolTable.mem_of_method? h)
    obtain ⟨v, hmem, rfl⟩ := List.mem_map.mp hq
    exact hv.ne_void (mem_annotations_of_mem_params hd (List.mem_append_left _ hmem))
  result hvoid := by simpa [Ty.isVoid] using hvoid

theorem names_scopeOf (hv : p.IsVoidFree) (hc : p.NamesClasses) (hm : m ∈ p.classDecl.methods) :
    (p.scopeOf policy m).Names (· ≠ "void") :=
  names_of_knowsNoVoid hv hc.knowsNoVoid hm

/-- The scopes of a `void`-free program represent everything. -/
theorem representable_scopeOf (hv : p.IsVoidFree) (hc : p.NamesClasses)
    (hm : m ∈ p.classDecl.methods) : (p.scopeOf policy m).Representable where
  names := names_scopeOf hv hc hm
  receives ty h := by
    have := hc.of_known h.2
    simp only [Ty.isReference, h.1, Bool.false_or, Bool.not_eq_true']
    exact this
  returned signature h := by
    obtain ⟨d, hd, rfl⟩ := List.mem_map.mp h
    exact hv.results d hd
  result := hv.results m hm

/-- The statements of a `void`-free program allocate no array of `void`. -/
theorem allocates_of_isVoidFree (hv : p.IsVoidFree) (hm : m ∈ p.classDecl.methods) :
    ∀ stmt ∈ m.body, stmt.Allocates (· ≠ "void") := by
  intro stmt hs inner hi e he element length span hn
  refine hv.ne_void (List.mem_append_right _ (List.mem_flatMap.mpr ⟨m, hm,
    List.mem_append_right _ (List.mem_flatMap.mpr ⟨inner, Stmt.mem_nodesAll hs hi, ?_⟩)⟩))
  exact List.mem_filterMap.mpr ⟨_, Expr.mem_nodesAll he hn, rfl⟩

end Program

end JavaMinus
