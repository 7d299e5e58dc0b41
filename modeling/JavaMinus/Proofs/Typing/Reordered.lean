import Mathlib.Data.List.Nodup
import JavaMinus.Proofs.Lowering.Program
import JavaMinus.Proofs.Typing.Lookups
import JavaMinus.Syntax.Build

/-!
# The order of declarations

A program whose methods, fields and imports have different names may declare them in any order, and a
method whose parameters and locals have different names may declare its locals in any order
(`Program.Reordered`). What is reported is grouped by the declaration that it is reported of
(`Program.errorBlocks`), and the groups do not depend on the order: each declaration keeps its errors,
and the groups come in the order of the declarations (`Program.check_of_reordered`).

A first-match search by name finds the same in any order where names are different (`find?_of_perm`).
That is all that typing asks of a table (`Scope.Answers`).
-/

namespace JavaMinus

/-! ## Searches by name -/

section
variable {α κ : Type} [BEq κ] [LawfulBEq κ] {key : α → κ}

/-- Where keys are different, what is found does not depend on the order. -/
theorem find?_of_perm {xs ys : List α} (perm : xs.Perm ys) (unique : (xs.map key).Nodup) (k : κ) :
    (xs.find? fun x => key x == k) = ys.find? fun x => key x == k := by
  induction perm with
  | nil => rfl
  | cons x _ ih =>
    rw [List.find?_cons, List.find?_cons, ih (List.nodup_cons.mp unique).2]
  | swap x y rest =>
    have apart : key y ≠ key x := fun same => by
      rw [List.map_cons, List.map_cons, same] at unique
      exact (List.nodup_cons.mp unique).1 List.mem_cons_self
    rw [List.find?_cons, List.find?_cons, List.find?_cons, List.find?_cons]
    cases hx : key x == k with
    | false => rfl
    | true =>
      have hy : (key y == k) = false := by
        rw [beq_iff_eq] at hx
        rw [beq_eq_false_iff_ne, ← hx]
        exact apart
      rw [hy]
  | trans first _ ih ih' => rw [ih unique, ih' ((first.map key).nodup_iff.mp unique)]

/-- Where keys are different, a key finds what has it. -/
theorem find?_of_mem {xs : List α} (unique : (xs.map key).Nodup) {x : α} (hx : x ∈ xs) :
    (xs.find? fun y => key y == key x) = some x := by
  obtain ⟨pre, post, rfl⟩ := List.append_of_mem hx
  rw [find?_of_perm List.perm_middle unique]
  exact List.find?_cons_of_pos (beq_self_eq_true _)

end

/-- Symbols with different names are found in any order. -/
theorem lookupSymbol_of_perm {ds es : List VarDecl} (perm : ds.Perm es)
    (unique : (ds.map VarDecl.name).Nodup) (name : String) :
    lookupSymbol name (ds.map VarDecl.symbol) = lookupSymbol name (es.map VarDecl.symbol) :=
  find?_of_perm (perm.map VarDecl.symbol) (by rw [List.map_map]; exact unique) name

/-! ## Another order -/

/-- A method that declares its locals in another order, where parameters and locals have different
names and no local is varargs. -/
inductive MethodDecl.Reordered : MethodDecl → MethodDecl → Prop
  | same (m : MethodDecl) : Reordered m m
  | locals {m : MethodDecl} {locals : List VarDecl} (perm : m.locals.Perm locals)
      (unique : ((m.params ++ m.locals).map VarDecl.name).Nodup)
      (fixed : ∀ d ∈ m.locals, d.typeRef.isVarargs = false) : Reordered m { m with locals }

/-- A program that declares its imports, fields and methods in another order, and the locals of its
methods too. -/
structure Program.Reordered (p q : Program) : Prop where
  imports : p.imports.Perm q.imports
  className : p.classDecl.name = q.classDecl.name
  superClass : p.classDecl.superClass = q.classDecl.superClass
  fields : p.classDecl.fields.Perm q.classDecl.fields
  methods : ∃ moved, p.classDecl.methods.Perm moved ∧
    List.Forall₂ MethodDecl.Reordered moved q.classDecl.methods

/-- Imports have different last segments, fields different names and methods different names. -/
structure Program.NamesApart (p : Program) : Prop where
  imports : (p.imports.map Import.simpleName).Nodup
  fields : (p.classDecl.fields.map VarDecl.name).Nodup
  methods : (p.classDecl.methods.map MethodDecl.name).Nodup

/-! ## Errors by declaration -/

/-- What errors are reported of. -/
inductive Declared where
  | importOf (name : String)
  | field (name : String)
  | method (name : String)
deriving DecidableEq

/-- The errors that one declaration receives. -/
abbrev ErrorBlock : Type := Declared × List CheckError

def importBlocks : List String → List Import → List ErrorBlock
  | _, [] => []
  | seen, i :: rest =>
    (.importOf i.simpleName, checkImports seen [i]) :: importBlocks (i.simpleName :: seen) rest

def fieldBlocks : List String → List VarDecl → List ErrorBlock
  | _, [] => []
  | seen, f :: rest => (.field f.name, checkFields seen [f]) :: fieldBlocks (f.name :: seen) rest

def methodBlocks (t : SymbolTable) (policy : Policy) :
    Nat → List String → List MethodDecl → List ErrorBlock
  | _, _, [] => []
  | index, seen, m :: rest =>
    (.method m.name, checkMethods t policy index seen [m]) ::
      methodBlocks t policy (index + 1) (m.name :: seen) rest

namespace Program

/-- The declarations of a program, in order. -/
def declared (p : Program) : List Declared :=
  p.imports.map (fun i => .importOf i.simpleName) ++
    p.classDecl.fields.map (fun f => .field f.name) ++
      p.classDecl.methods.map fun m => .method m.name

/-- The errors of a program against the table bound from it, grouped by declaration. -/
def errorBlocks (p : Program) (policy : Policy) : List ErrorBlock :=
  importBlocks [] p.imports ++ fieldBlocks [] p.classDecl.fields ++
    methodBlocks p.symbolTable policy 0 [] p.classDecl.methods

/-- The errors that a declaration receives. -/
def errorsOf (p : Program) (policy : Policy) (d : Declared) : List CheckError :=
  (((p.errorBlocks policy).find? fun block => block.1 == d).map Prod.snd).getD []

end Program

theorem checkImports_eq_flatMap : ∀ (seen : List String) (is : List Import),
    checkImports seen is = (importBlocks seen is).flatMap Prod.snd
  | _, [] => rfl
  | seen, i :: rest => by
    rw [checkImports, importBlocks, List.flatMap_cons, ← checkImports_eq_flatMap _ rest, checkImports,
      checkImports, List.append_nil]

theorem checkFields_eq_flatMap : ∀ (seen : List String) (fs : List VarDecl),
    checkFields seen fs = (fieldBlocks seen fs).flatMap Prod.snd
  | _, [] => rfl
  | seen, f :: rest => by
    rw [checkFields, fieldBlocks, List.flatMap_cons, ← checkFields_eq_flatMap _ rest, checkFields,
      checkFields, List.append_nil]

theorem checkMethods_eq_flatMap (t : SymbolTable) (policy : Policy) :
    ∀ (index : Nat) (seen : List String) (ms : List MethodDecl),
      checkMethods t policy index seen ms = (methodBlocks t policy index seen ms).flatMap Prod.snd
  | _, _, [] => rfl
  | index, seen, m :: rest => by
    rw [checkMethods, methodBlocks, List.flatMap_cons, ← checkMethods_eq_flatMap t policy _ _ rest,
      checkMethods, checkMethods, List.append_nil]

/-- What is reported of a program are its blocks, one after another. -/
theorem Program.check_eq_flatMap (p : Program) (policy : Policy) :
    p.check p.symbolTable policy = (p.errorBlocks policy).flatMap Prod.snd := by
  rw [check, errorBlocks, List.flatMap_append, List.flatMap_append, checkImports_eq_flatMap,
    checkFields_eq_flatMap, checkMethods_eq_flatMap]

/-! ## Where names are different

Then no declaration repeats a name, so the errors of each depend on nothing that stands before it. -/

/-- The first of the names that are still to come was not seen before. -/
theorem notMem_of_nodup_append {seen rest : List String} {name : String}
    (h : (seen ++ name :: rest).Nodup) : name ∉ seen ∧ ((name :: seen) ++ rest).Nodup :=
  have moved := List.perm_middle.nodup_iff.mp h
  ⟨fun hmem => (List.nodup_cons.mp moved).1 (List.mem_append_left _ hmem), moved⟩

theorem importBlocks_of_nodup : ∀ (seen : List String) (is : List Import),
    (seen ++ is.map Import.simpleName).Nodup →
      importBlocks seen is = is.map fun i => (.importOf i.simpleName, [])
  | _, [], _ => rfl
  | seen, i :: rest, h => by
    obtain ⟨fresh, h⟩ := notMem_of_nodup_append h
    rw [importBlocks, importBlocks_of_nodup _ rest h, checkImports, if_neg fresh]
    rfl

/-- What is reported of a field that no field before it has the name of. -/
def VarDecl.fieldErrors (f : VarDecl) : List CheckError :=
  if f.typeRef.isVarargs then [.varargsVariable f.name f.span] else []

theorem fieldBlocks_of_nodup : ∀ (seen : List String) (fs : List VarDecl),
    (seen ++ fs.map VarDecl.name).Nodup →
      fieldBlocks seen fs = fs.map fun f => (.field f.name, f.fieldErrors)
  | _, [], _ => rfl
  | seen, f :: rest, h => by
    obtain ⟨fresh, h⟩ := notMem_of_nodup_append h
    rw [fieldBlocks, fieldBlocks_of_nodup _ rest h, checkFields, if_neg fresh, checkFields,
      List.append_nil]
    rfl

/-- What is reported of a method that no method before it has the name of. -/
def Program.methodErrors (p : Program) (policy : Policy) (m : MethodDecl) : List CheckError :=
  m.checkSignature ++ m.checkReturns ++ (p.scopeOf policy m).checkStmts m.body

variable {p q : Program} {policy : Policy}

theorem methodBlocks_of_nodup : ∀ (rest pre : List MethodDecl) (seen : List String),
    p.classDecl.methods = pre ++ rest → (seen ++ rest.map MethodDecl.name).Nodup →
      methodBlocks p.symbolTable policy pre.length seen rest =
        rest.map fun m => (.method m.name, p.methodErrors policy m)
  | [], _, _, _, _ => rfl
  | m :: rest, pre, seen, hp, h => by
    obtain ⟨fresh, h⟩ := notMem_of_nodup_append h
    have hat : p.symbolTable.methodAt? pre.length m.name = some m.signature :=
      Program.methodAt?_symbolTable (by rw [hp, List.getElem?_append_right (Nat.le_refl _)]; simp)
    have tail := methodBlocks_of_nodup rest (pre ++ [m]) _ (by rw [hp]; simp) h
    rw [List.length_append, List.length_singleton] at tail
    rw [methodBlocks, tail, checkMethods, if_neg fresh, checkMethods, List.append_nil,
      List.nil_append, MethodDecl.check, MethodDecl.checkBody, hat]
    rfl

theorem Program.errorBlocks_of_apart (h : p.NamesApart) (policy : Policy) :
    p.errorBlocks policy = p.imports.map (fun i => (.importOf i.simpleName, [])) ++
      p.classDecl.fields.map (fun f => (.field f.name, f.fieldErrors)) ++
        p.classDecl.methods.map fun m => (.method m.name, p.methodErrors policy m) := by
  rw [errorBlocks, importBlocks_of_nodup [] _ h.imports, fieldBlocks_of_nodup [] _ h.fields]
  exact congrArg _ (methodBlocks_of_nodup p.classDecl.methods [] [] rfl h.methods)

/-- Each block is of a declaration of its own. -/
theorem Program.map_fst_errorBlocks (h : p.NamesApart) (policy : Policy) :
    (p.errorBlocks policy).map Prod.fst = p.declared := by
  rw [errorBlocks_of_apart h, declared]
  simp only [List.map_append, List.map_map, Function.comp_def]

theorem Program.nodup_declared (h : p.NamesApart) : p.declared.Nodup := by
  have imports := List.Nodup.map (fun _ _ => Declared.importOf.inj) h.imports
  have fields := List.Nodup.map (fun _ _ => Declared.field.inj) h.fields
  have methods := List.Nodup.map (fun _ _ => Declared.method.inj) h.methods
  rw [List.map_map] at imports fields methods
  refine List.nodup_append'.mpr ⟨List.nodup_append'.mpr ⟨imports, fields, ?_⟩, methods, ?_⟩
  · simp [List.Disjoint]
  · simp only [List.Disjoint, List.mem_append, List.mem_map]
    rintro d (⟨i, -, rfl⟩ | ⟨f, -, rfl⟩) ⟨m, -, hm⟩ <;> cases hm

/-- What is reported are the errors of each declaration, in the order of the declarations. -/
theorem Program.check_eq_of_apart (h : p.NamesApart) (policy : Policy) :
    p.check p.symbolTable policy = p.declared.flatMap (p.errorsOf policy) := by
  have unique : ((p.errorBlocks policy).map Prod.fst).Nodup := by
    rw [map_fst_errorBlocks h]
    exact nodup_declared h
  rw [check_eq_flatMap, ← map_fst_errorBlocks h policy, List.flatMap_map]
  refine List.flatMap_congr fun block hb => ?_
  rw [errorsOf, find?_of_mem unique hb]
  rfl

/-! ## What the order does not change -/

theorem checkLocals_of_nodup {method : String} : ∀ (seen : List String) (ds : List VarDecl),
    (seen ++ ds.map VarDecl.name).Nodup → (∀ d ∈ ds, d.typeRef.isVarargs = false) →
      checkLocals method seen ds = []
  | _, [], _, _ => rfl
  | seen, d :: rest, h, fixed => by
    obtain ⟨fresh, h⟩ := notMem_of_nodup_append h
    obtain ⟨first, fixed⟩ := List.forall_mem_cons.mp fixed
    rw [checkLocals, checkFresh, first, if_neg fresh, checkLocals_of_nodup _ rest h fixed]
    rfl

namespace MethodDecl.Reordered

variable {m m' : MethodDecl}

theorem name (h : Reordered m m') : m'.name = m.name := by
  cases h <;> rfl

theorem head (h : Reordered m m') : m.signature.head = m'.signature.head := by
  cases h <;> rfl

theorem body (h : Reordered m m') : m'.body = m.body := by
  cases h <;> rfl

theorem checkReturns (h : Reordered m m') : m'.checkReturns = m.checkReturns := by
  cases h <;> rfl

theorem checkSignature (h : Reordered m m') : m'.checkSignature = m.checkSignature := by
  cases h with
  | same => rfl
  | @locals locals perm unique fixed =>
    have seen (ds : List VarDecl) (h : ((m.params ++ ds).map VarDecl.name).Nodup) :
        ((m.params.map VarDecl.name).reverse ++ ds.map VarDecl.name).Nodup :=
      ((List.reverse_perm _).append_right _).nodup_iff.mpr (by rw [← List.map_append]; exact h)
    have unique' : ((m.params ++ locals).map VarDecl.name).Nodup :=
      ((perm.append_left m.params).map VarDecl.name).nodup_iff.mp unique
    rw [MethodDecl.checkSignature, MethodDecl.checkSignature,
      checkLocals_of_nodup _ _ (seen _ unique) fixed,
      checkLocals_of_nodup _ _ (seen _ unique') fun d hd => fixed d (perm.mem_iff.mpr hd)]

theorem local? (h : Reordered m m') (name : String) :
    m.signature.local? name = m'.signature.local? name := by
  cases h with
  | same => rfl
  | locals perm unique =>
    rw [List.map_append] at unique
    exact lookupSymbol_of_perm perm (List.nodup_append'.mp unique).2.1 name

theorem parameter? (h : Reordered m m') (name : String) :
    m.signature.parameter? name = m'.signature.parameter? name := by
  cases h <;> rfl

end MethodDecl.Reordered

namespace Program.Reordered

/-- A call finds the method of a name in any order. -/
theorem method? (h : p.Reordered q) (apart : p.NamesApart) (name : String) :
    (p.symbolTable.method? name).map Signature.head =
      (q.symbolTable.method? name).map Signature.head := by
  obtain ⟨moved, perm, each⟩ := h.methods
  have first : p.symbolTable.method? name =
      (moved.map MethodDecl.signature).find? fun m => m.name == name :=
    find?_of_perm (perm.map MethodDecl.signature) (by rw [List.map_map]; exact apart.methods) name
  rw [first]
  show _ = ((q.classDecl.methods.map MethodDecl.signature).find? fun m => m.name == name).map _
  clear first perm h
  generalize q.classDecl.methods = ms at each
  induction each with
  | nil => rfl
  | @cons m m' _ _ hm _ ih =>
    have named : m'.signature.name = m.signature.name := hm.name
    rw [List.map_cons, List.map_cons, List.find?_cons, List.find?_cons, named]
    split
    · exact congrArg some hm.head
    · exact ih

/-- The scopes of a method answer alike. -/
theorem scopeOf (h : p.Reordered q) (apart : p.NamesApart) (policy : Policy) {m m' : MethodDecl}
    (hm : m.Reordered m') : (p.scopeOf policy m).Answers (q.scopeOf policy m') where
  policy := rfl
  className := h.className
  superClass := h.superClass
  method := hm.head
  resolve? name := by
    have field : p.symbolTable.field? name = q.symbolTable.field? name :=
      lookupSymbol_of_perm h.fields apart.fields name
    have hmethod : (p.scopeOf policy m).method = m.signature := rfl
    have htable : (p.scopeOf policy m).table = p.symbolTable := rfl
    rw [Scope.resolve?, hmethod, htable, hm.local?, hm.parameter?, field]
    rfl
  isImported name := (h.imports.map Import.qualifiedName).any_eq
  method? := h.method? apart

/-- A method receives the same errors. -/
theorem methodErrors (h : p.Reordered q) (apart : p.NamesApart) (policy : Policy)
    {m m' : MethodDecl} (hm : m.Reordered m') :
    q.methodErrors policy m' = p.methodErrors policy m := by
  rw [Program.methodErrors, Program.methodErrors, hm.checkSignature, hm.checkReturns, hm.body,
    Scope.checkStmts_of_answers (h.scopeOf apart policy hm)]

theorem namesApart (h : p.Reordered q) (apart : p.NamesApart) : q.NamesApart := by
  obtain ⟨moved, perm, each⟩ := h.methods
  refine ⟨(h.imports.map _).nodup_iff.mp apart.imports, (h.fields.map _).nodup_iff.mp apart.fields, ?_⟩
  have names : q.classDecl.methods.map MethodDecl.name = moved.map MethodDecl.name := by
    clear perm h
    generalize q.classDecl.methods = ms at each
    induction each with
    | nil => rfl
    | cons hm _ ih => rw [List.map_cons, List.map_cons, hm.name, ih]
  rw [names]
  exact (perm.map MethodDecl.name).nodup_iff.mp apart.methods

/-- The blocks are the same up to their order. -/
theorem errorBlocks (h : p.Reordered q) (apart : p.NamesApart) (policy : Policy) :
    (p.errorBlocks policy).Perm (q.errorBlocks policy) := by
  rw [errorBlocks_of_apart apart, errorBlocks_of_apart (h.namesApart apart)]
  obtain ⟨moved, perm, each⟩ := h.methods
  have methods : q.classDecl.methods.map (fun m => (Declared.method m.name, q.methodErrors policy m)) =
      moved.map fun m => (.method m.name, p.methodErrors policy m) := by
    have reported {m m' : MethodDecl} (hm : m.Reordered m') := h.methodErrors apart policy hm
    clear perm h
    generalize q.classDecl.methods = ms at each
    induction each with
    | nil => rfl
    | cons hm _ ih => rw [List.map_cons, List.map_cons, hm.name, reported hm, ih]
  rw [methods]
  exact ((h.imports.map _).append (h.fields.map _)).append (perm.map _)

end Program.Reordered

/-- The errors of a program whose names are different do not depend on the order of declarations.
Each declaration receives the same errors, and the errors of the program are those of its
declarations, in their order. -/
theorem Program.check_of_reordered (h : p.Reordered q) (apart : p.NamesApart) (policy : Policy) :
    (p.errorBlocks policy).Perm (q.errorBlocks policy) ∧
      (∀ d, q.errorsOf policy d = p.errorsOf policy d) ∧
      p.check p.symbolTable policy = p.declared.flatMap (p.errorsOf policy) ∧
      q.check q.symbolTable policy = q.declared.flatMap (p.errorsOf policy) := by
  have blocks := h.errorBlocks apart policy
  have unique : ((p.errorBlocks policy).map Prod.fst).Nodup := by
    rw [map_fst_errorBlocks apart]
    exact nodup_declared apart
  have same (d : Declared) : q.errorsOf policy d = p.errorsOf policy d := by
    rw [errorsOf, errorsOf, find?_of_perm blocks unique d]
  refine ⟨blocks, same, check_eq_of_apart apart policy, ?_⟩
  rw [check_eq_of_apart (h.namesApart apart)]
  exact List.flatMap_congr fun d _ => same d

/-- Two methods that have errors, two imports, two fields and two locals, each in some order. -/
def Program.ledger (order : ∀ {α : Type}, List α → List α) : Program where
  imports := order [{ path := ["io", "Printer"] }, { path := ["util", "Clock"] }]
  classDecl := {
    name := "Ledger"
    fields := order [Build.var "rows" (.array .int), Build.var "broken" (.varargs .int)]
    methods := order [
      { name := "total"
        returnType := .scalar .int
        params := [Build.var "from" (.scalar .int)]
        locals := order [Build.var "sum" (.scalar .int), Build.var "done" (.scalar .boolean)]
        body := [
          Build.assign "sum" (Build.ident "done"),
          Build.loop (Build.ident "from") (Build.exprStmt (Build.selfCall "print" [])),
          Build.ret (Build.ident "sum")] },
      { name := "print"
        returnType := .scalar .void
        body := [Build.exprStmt (Build.selfCall "total" [Build.boolean true])] }] }

/-- In the reversed order the class has the same errors, those of its first method last. -/
theorem Program.check_of_reordered_ledger :
    let p := ledger id
    let q := ledger List.reverse
    q.declared = [.importOf "Clock", .importOf "Printer", .field "broken", .field "rows",
        .method "print", .method "total"] ∧
      (∀ d, q.errorsOf .strict d = p.errorsOf .strict d) ∧
      p.errorsOf .strict (.method "total") =
        [.assignMismatch "sum" Ty.int Ty.boolean {}, .invalidCondition Ty.int {}] ∧
      q.check q.symbolTable .strict = q.declared.flatMap (p.errorsOf .strict) ∧
      (q.declared.flatMap (p.errorsOf .strict)).length = 4 := by
  intro p q
  have locals : MethodDecl.Reordered p.classDecl.methods[0] q.classDecl.methods[1] :=
    .locals (List.reverse_perm _).symm (by decide) (by decide)
  have reordered : p.Reordered q := {
    imports := (List.reverse_perm _).symm
    className := rfl
    superClass := rfl
    fields := (List.reverse_perm _).symm
    methods := ⟨[p.classDecl.methods[1], p.classDecl.methods[0]], (List.reverse_perm _).symm,
      .cons (.same _) (.cons locals .nil)⟩ }
  have apart : p.NamesApart := ⟨by decide, by decide, by decide⟩
  obtain ⟨-, same, -, all⟩ := check_of_reordered reordered apart .strict
  exact ⟨rfl, same, by decide, all, by decide⟩

end JavaMinus
