import Mathlib.Data.List.Forall2
import JavaMinus.Proofs.Compile.Linked
import JavaMinus.Proofs.Jvm.Qualified

/-!
# The classes that imported methods are invoked on

A class name is looked up twice. The check of a call looks among the imports before it takes the name
for the class itself; assembly takes it for the class itself or for the built-in `String` before it
looks among the imports. For all other names the lookups agree: a call that is checked as one of an
imported class is invoked on the path of an import with that last segment, and on no other class
(`Program.owners_of_compile`).

They do not agree in a class that imports another one of its own name. What is checked as a call of a
static method of the import is invoked on the class itself, which may have no such method
(`Program.owners_of_compile_shape`).
-/

namespace JavaMinus

open Tac Jvm Lower

variable {s : Scope}

/-! ## Imported names -/

/-- The name of the imported class whose method is called. -/
def CallTarget.importedName? (t : SymbolTable) : CallTarget → Option String
  | .importedStatic name => some name
  | .importedVirtual ty => if t.isImported ty.name then some ty.name else none
  | _ => none

theorem CallTarget.importedName?_importedVirtual {t : SymbolTable} {ty : Ty} {name : String} :
    (CallTarget.importedVirtual ty).importedName? t = some name ↔
      t.isImported ty.name = true ∧ ty.name = name := by
  rw [importedName?, Option.ite_none_right_eq_some, Option.some.injEq]

/-- A method of an imported class is called where there is an import of its name. -/
theorem CallTarget.isImported_of_importedName? {receiver : Expr} {method name : String} {span : Span}
    {target : CallTarget} (h : receiver.callTarget s method span = .ok target)
    (hn : target.importedName? s.table = some name) : s.table.isImported name = true := by
  have own (h : s.ownMethod method span = .ok target) : s.table.isImported name = true := by
    rcases s.cases_of_ownMethod h with ⟨m, -, rfl⟩ | rfl <;> cases hn
  rcases cases_of_resolve h with ⟨-, -, -, h⟩ | ⟨name', nameSpan, -, -, h⟩ | ⟨ty, -, h⟩
  · exact own h
  · rcases cases_of_onClassName h with ⟨himported, rfl⟩ | ⟨m, -, -, rfl⟩ <;> cases hn
    exact himported
  · obtain ⟨-, ⟨-, h⟩ | ⟨-, rfl⟩⟩ := cases_of_onValue h
    · exact own h
    · obtain ⟨himported, rfl⟩ := importedName?_importedVirtual.mp hn
      exact himported

namespace Jvm

theorem slashed_of_dotFree {dotted : String} (h : '.' ∉ dotted.toList) : slashed dotted = dotted := by
  have same : ∀ c ∈ dotted.toList, (if c = '.' then '/' else c) = id c := fun c hc =>
    if_neg fun (hdot : c = '.') => h (hdot ▸ hc)
  exact String.toList_inj.mp
    ((toList_slashed dotted).trans ((List.map_congr_left same).trans (List.map_id _)))

/-- A path without slashes is spelled for an import without dots. -/
theorem dotFree_of_slashed {dotted : String} (h : '/' ∉ (slashed dotted).toList) :
    '.' ∉ dotted.toList := by
  rw [toList_slashed] at h
  exact fun hdot => h (List.mem_map.mpr ⟨'.', hdot, rfl⟩)

namespace ClassNames

variable {n : ClassNames} {name owner : String}

/-- The class that methods of an imported class are invoked on, by the last segment of its import. It is
that import, unless the name is that of the class itself or of the built-in class of strings. -/
structure OwnedBy (n : ClassNames) (name owner : String) : Prop where
  imported : name ≠ n.className → (name = "String" → "java.lang.String" ∈ n.imports) →
    ∃ i ∈ n.imports, simpleName i = name ∧ owner = slashed i
  other : name ≠ n.className → '/' ∉ n.className.toList → owner ≠ n.className
  self : name = n.className → owner = n.className
  builtin : name ≠ n.className → name = "String" → owner = "java/lang/String"

theorem slashed_string : slashed "java.lang.String" = "java/lang/String" :=
  String.toList_inj.mp ((toList_slashed _).trans (by decide))

/-- An imported name is qualified to the class that owns the methods. -/
theorem ownedBy_qualify (h : ∃ i ∈ n.imports, simpleName i = name) :
    n.OwnedBy name (n.qualify name) := by
  have builtin (other : name ≠ n.className) (string : name = "String") :
      n.qualify name = "java/lang/String" := by
    rw [qualify, if_neg (by simpa using other), if_pos (by simpa using string)]
  have dotFree : '.' ∉ name.toList := by
    obtain ⟨i, -, rfl⟩ := h
    exact dotFree_simpleName i
  refine ⟨fun other string => ?_, fun other plain heq => ?_, fun self => ?_, builtin⟩
  · by_cases hstring : name = "String"
    · refine ⟨_, string hstring, ?_, (builtin other hstring).trans slashed_string.symm⟩
      rw [hstring]
      decide
    · obtain ⟨i, hi, hqualify⟩ := qualify_eq_slashed other hstring dotFree h
      exact ⟨i, hi.mem, hi.segment, hqualify⟩
  · by_cases hstring : name = "String"
    · rw [← heq, builtin other hstring] at plain
      exact plain (by decide)
    · obtain ⟨i, hi, hqualify⟩ := qualify_eq_slashed other hstring dotFree h
      rw [← heq, hqualify] at plain
      have hi' := dotFree_of_slashed plain
      rw [slashed_of_dotFree hi', ← simpleName_of_dotFree hi', hi.segment] at hqualify
      exact other (hqualify.symm.trans heq)
  · rw [qualify, if_pos (by simpa using self), self]

end ClassNames

end Jvm

/-! ## Invocations -/

/-- How a call expression of the source is invoked. A method of an imported class is invoked on the class
that the name stands for in assembly, statically where the call is on the name. -/
inductive Expr.Owned (s : Scope) (names : ClassNames) : Expr → Jvm.Instr → Prop
  | imported {receiver : Expr} {method : String} {args : List Expr} {span : Span} {target : CallTarget}
      {name owner descriptor : String} {argCount : Nat} {returns : Bool}
      (target_ : receiver.callTarget s method span = .ok target)
      (name_ : target.importedName? s.table = some name) (owner_ : names.OwnedBy name owner) :
      Owned s names (.call receiver method args span)
        (.invoke (if target.isStatic then .static else .virtual) owner method descriptor argCount
          returns)
  | other {receiver : Expr} {method : String} {args : List Expr} {span : Span} {target : CallTarget}
      (target_ : receiver.callTarget s method span = .ok target)
      (other_ : target.importedName? s.table = none) (i : Jvm.Instr) :
      Owned s names (.call receiver method args span) i

/-- A method of an imported class is invoked on what the name of the class is qualified to. -/
theorem receives_of_madeOnImport {x : MethodContext} {target : CallTarget} {name : String}
    {on : Operand} {invoke : InvokeKind} {owner : String} {object : List Jvm.Instr}
    (hn : target.importedName? s.table = some name) (hm : target.MadeOnImport on)
    (h : x.Receives (callKind target) on invoke owner object) :
    invoke = (if target.isStatic then .static else .virtual) ∧ owner = x.names.qualify name := by
  cases target with
  | importedStatic name' =>
    cases hn
    obtain rfl := hm
    cases h
    exact ⟨rfl, rfl⟩
  | importedVirtual ty =>
    obtain rfl := hm
    obtain ⟨-, rfl⟩ := CallTarget.importedName?_importedVirtual.mp hn
    cases h
    exact ⟨rfl, rfl⟩
  | _ => cases hn

/-- The instruction of a call expression is selected to an invocation on the class that the expression
names. -/
theorem Expr.LowersOn.owned {x : MethodContext} {e : Expr} {i : Tac.Instr} {j : Jvm.Instr}
    (himports : x.names.imports = s.table.imports) (hi : e.LowersOn s i) (hj : x.Invokes i j) :
    e.Owned s x.names j := by
  cases hi with
  | @intro receiver method args span target dest on values ty target_ on_ =>
    cases hn : target.importedName? s.table with
    | none => exact .other target_ hn j
    | some name =>
      obtain ⟨hreceives, -⟩ := hj
      obtain ⟨rfl, rfl⟩ := receives_of_madeOnImport hn on_ hreceives
      have himported := CallTarget.isImported_of_importedName? target_ hn
      obtain ⟨i, hi, hsegment⟩ := List.any_eq_true.mp himported
      exact .imported target_ hn
        (ClassNames.ownedBy_qualify ⟨i, himports ▸ hi, beq_iff_eq.mp hsegment⟩)

namespace Program

/-- **Imported methods are invoked on imports.** Every method call in the assembly of an accepted
program stands for a call expression, in order. If the expression is checked as a call of a method of
an imported class, the invocation names the path of an import with that last segment, unless the name is
that of the class itself or of `String`. -/
theorem owners_of_compile (p : Program) (config : Config) {unit : ClassUnit} {listing : Option String}
    {assembly : String} (h : p.compile config = .ok (.accepted unit listing assembly)) :
    ∃ file constructor blocks, unit.classFile config.rootClass = .ok file ∧ assembly = file.text ∧
      file.methods = constructor :: blocks ∧ unit.classNames.className = p.classDecl.name ∧
      unit.classNames.imports = p.symbolTable.imports ∧
      List.Forall₂ (fun d b => b.name = d.name ∧
        List.Forall₂ (Expr.Owned (p.scopeOf config.policy d) unit.classNames)
          (Stmt.keptCalls (p.scopeOf config.policy d) d.body) (b.code.filter Instr.isMethodCall))
        p.classDecl.methods blocks := by
  obtain ⟨hcheck, hunit, file, hfile, rfl⟩ := parts_of_compile h
  obtain ⟨methods, rfl, hmethods⟩ := methods_of_toUnit hunit
  obtain ⟨constructor, blocks, -, hfileMethods, hblocks⟩ := blocks_of_classFile hfile
  refine ⟨file, constructor, blocks, hfile, rfl, hfileMethods, rfl, rfl, ?_⟩
  refine forall₂_comp ?_ ((List.forall₂_and_left _ _).mpr ⟨fun d hd => hd, hmethods⟩) hblocks
  rintro d m b ⟨hd, c, code, c', hm⟩ hb
  obtain ⟨-, -, -, slots, hcode⟩ := ClassUnit.methodBlock_eq_ok hb
  have owned (e : Expr) (i : Tac.Instr) (j : Jvm.Instr) (hi : e.Becomes (p.scopeOf config.policy d) i)
      (hj : ((p.unitOf methods).context config.rootClass m slots).Invokes i j) :
      e.Owned (p.scopeOf config.policy d) (p.unitOf methods).classNames j :=
    hi.lowersOn.owned rfl hj
  exact ⟨(declares_of_methodBlock hm hb).name,
    forall₂_comp owned (becomes_of_check hcheck hd hm) (MethodContext.select_invokes hcode)⟩

/-- A class of shapes that leaves the drawing to another class of that name. -/
def shaping : Program where
  imports := [{ path := ["draw", "Shape"] }, { path := ["util", "Log"] }]
  classDecl := {
    name := "Shape"
    methods := [
      { name := "paint", returnType := .scalar .void,
        body := [Build.exprStmt (Build.call (Build.ident "Shape") "fill" []),
          Build.exprStmt (Build.call (Build.ident "Log") "note" [])] }] }

def shapingUnit : ClassUnit :=
  shaping.unitOf [
    { name := "paint", isPublic := false, isStatic := false, params := [], returnTy := Ty.void,
      code := [.call none .static (.ofClass "Shape") "fill" [] Ty.void,
        .call none .static (.ofClass "Log") "note" [] Ty.void, .ret none] }]

def shapingFile : ClassFile where
  name := "Shape"
  superClass := defaultRootClass
  fields := []
  methods := [
    { name := constructorName, descriptor := "()V", isPublic := true, isStatic := false,
      maxStack := 1, maxLocals := 1,
      code := [.load .ref 0, .invoke .special defaultRootClass constructorName "()V" 0 false, .ret none] },
    { name := "paint", descriptor := "()V", isPublic := false, isStatic := false,
      maxStack := 0, maxLocals := 1,
      code := [.invoke .static "Shape" "fill" "()V" 0 false,
        .invoke .static "util/Log" "note" "()V" 0 false, .ret none] }]

theorem qualify_log : shapingUnit.classNames.qualify "Log" = "util/Log" := by
  have segment : simpleName "util.Log" = "Log" := by decide
  have nodup : (shapingUnit.classNames.imports.map simpleName).Nodup := by decide
  have path : slashed "util.Log" = "util/Log" :=
    String.toList_inj.mp ((toList_slashed _).trans (by decide))
  rw [← segment, ← path]
  exact ClassNames.qualify_simpleName nodup (by decide) (by decide) (by decide)

theorem classFile_shaping : shapingUnit.classFile defaultRootClass = .ok shapingFile := by
  have hcode (slots : SlotTable) :
      (shapingUnit.context defaultRootClass shapingUnit.methods[1] slots).select
        shapingUnit.methods[1].code = .ok shapingFile.methods[1].code := by
    have static := MethodContext.Receives.static (x := shapingUnit.context defaultRootClass
      shapingUnit.methods[1] slots) "Log" (Ty.scalar "Log")
    rw [show (shapingUnit.context defaultRootClass shapingUnit.methods[1] slots).names.qualify "Log" =
      "util/Log" from qualify_log] at static
    exact MethodContext.select_eq_ok.mpr ⟨_, .cons (.call (.static "Shape" _) .nil rfl (by decide) .nothing)
      (.cons (.call static .nil rfl (by decide) .nothing) (.cons .retNone (.nil _))), rfl⟩
  have hblock : shapingUnit.methodBlock defaultRootClass shapingUnit.methods[1] =
      .ok shapingFile.methods[1] :=
    bind_eq_ok.mpr ⟨⟨∅, 1⟩, rfl, bind_eq_ok.mpr ⟨_, hcode _, rfl⟩⟩
  rw [ClassUnit.classFile, show shapingUnit.methods = [shapingUnit.methods[0],
    shapingUnit.methods[1]] from rfl, List.mapM_cons, List.mapM_cons, hblock]
  rfl

theorem compile_shaping : shaping.compile {} = .ok (.accepted shapingUnit none shapingFile.text) := by
  have accepted : shaping.check shaping.symbolTable {} = [] := by decide
  have lowered : shaping.toUnit shaping.symbolTable {} = .ok shapingUnit := rfl
  have assembled : assemble shapingUnit defaultRootClass = .ok shapingFile.text := by
    rw [assemble, classFile_shaping]
  rw [compile_eq {} accepted]
  exact bind_eq_ok.mpr ⟨_, lowered, bind_eq_ok.mpr ⟨_, assembled, rfl⟩⟩

/-- Both calls are checked as calls of imported classes. That of the other class of shapes is invoked on
the class itself, which does not have the method. -/
theorem owners_of_compile_shape :
    shaping.compile {} = .ok (.accepted shapingUnit none shapingFile.text) ∧
    shaping.symbolTable.imports = ["draw.Shape", "util.Log"] ∧
    shaping.symbolTable.methods.map Signature.name = ["paint"] ∧
    (Build.ident "Shape").callTarget (shaping.scopeOf {} shaping.classDecl.methods[0]) "fill" {} =
      .ok (.importedStatic "Shape") ∧
    shapingFile.methods.flatMap (fun b => b.code.filter Jvm.Instr.isMethodCall) =
      [.invoke .static "Shape" "fill" "()V" 0 false, .invoke .static "util/Log" "note" "()V" 0 false] ∧
    List.Forall₂ (fun d b => b.name = d.name ∧
        List.Forall₂ (Expr.Owned (shaping.scopeOf {} d) shapingUnit.classNames)
          (Stmt.keptCalls (shaping.scopeOf {} d) d.body) (b.code.filter Instr.isMethodCall))
      shaping.classDecl.methods [shapingFile.methods[1]] := by
  refine ⟨compile_shaping, by decide, by decide, by decide, rfl, ?_⟩
  obtain ⟨file, constructor, blocks, hfile, -, hmethods, -, -, howned⟩ :=
    owners_of_compile shaping {} compile_shaping
  obtain rfl := Except.ok.inj (classFile_shaping.symm.trans hfile)
  obtain ⟨-, rfl⟩ := List.cons.inj hmethods
  exact howned

end Program

end JavaMinus
