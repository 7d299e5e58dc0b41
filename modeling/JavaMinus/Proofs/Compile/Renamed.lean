import JavaMinus.Pipeline
import JavaMinus.Proofs.Jvm.Renamed
import JavaMinus.Proofs.Lowering.Program
import JavaMinus.Proofs.Lowering.Renamed
import JavaMinus.Proofs.Typing.Declarations
import JavaMinus.Syntax.Build

/-!
# Names of variables do not reach the assembly

A program whose methods have other names for their parameters and locals (`Program.Renamed`) receives
errors of the same codes, and is compiled to the same assembly, or to none either. For that a renaming
has to keep different names different and to keep whatever the method mentions without declaring it: a
field, an import or the class (`MethodDecl.Renaming`). What may be done to the variables of an accepted
method follows: any names do that are different, are not among the names of the method and are not
`length` (`Program.assembly_of_renameVariables`).
-/

namespace JavaMinus

open Tac Lower

/-! ## Renamings of a program -/

/-- A renaming for a method. What the body mentions and the method does not declare is kept, and no
parameter gets or loses the one name that parameters must not have. -/
structure MethodDecl.Renaming (m : MethodDecl) (f : String → String) : Prop where
  injective : Function.Injective f
  keeps : ∀ x ∈ Stmt.namesAll m.body, x ∉ m.variables → f x = x
  length : ∀ d ∈ m.params, f d.name = "length" ↔ d.name = "length"

/-- A method with other names for its variables. -/
def MethodDecl.Renamed (m m' : MethodDecl) : Prop := ∃ f, m.Renaming f ∧ m' = m.rename f

theorem MethodDecl.Renamed.refl (m : MethodDecl) : m.Renamed m :=
  ⟨id, ⟨Function.injective_id, fun _ _ _ => rfl, fun _ _ => Iff.rfl⟩, m.rename_id.symm⟩

/-- A program whose methods have other names for their variables. -/
structure Program.Renamed (p q : Program) : Prop where
  imports : q.imports = p.imports
  className : q.classDecl.name = p.classDecl.name
  superClass : q.classDecl.superClass = p.classDecl.superClass
  fields : q.classDecl.fields = p.classDecl.fields
  methods : List.Forall₂ MethodDecl.Renamed p.classDecl.methods q.classDecl.methods

variable {p q : Program} {policy : Policy} {m : MethodDecl} {f : String → String}

/-! ## Scopes -/

theorem lookupSymbol_rename (hf : Function.Injective f) (name : String) (symbols : List Symbol) :
    lookupSymbol (f name) (symbols.map (Symbol.rename f)) =
      (lookupSymbol name symbols).map (Symbol.rename f) := by
  rw [lookupSymbol, lookupSymbol, List.find?_map]
  refine congrArg (fun p => (symbols.find? p).map _) (funext fun s => ?_)
  rw [Function.comp_apply, Symbol.rename, Bool.eq_iff_iff, beq_iff_eq, beq_iff_eq, hf.eq_iff]

theorem exists_lookupSymbol {d : VarDecl} {ds : List VarDecl} (hd : d ∈ ds) :
    ∃ s, lookupSymbol d.name (ds.map VarDecl.symbol) = some s :=
  Option.isSome_iff_exists.mp
    (List.find?_isSome.mpr ⟨d.symbol, List.mem_map_of_mem hd, beq_self_eq_true d.name⟩)

/-- A name that the method declares is not a field to its body. -/
theorem Program.exists_resolve?_variable (p : Program) (policy : Policy) {x : String}
    (hx : x ∈ m.variables) :
    ∃ v, (p.scopeOf policy m).resolve? x = some v ∧ v.isField = false := by
  have hmethod : (p.scopeOf policy m).method = m.signature := rfl
  rw [Scope.resolve?, hmethod]
  obtain ⟨d, hd, rfl⟩ := List.mem_map.mp hx
  cases hl : m.signature.local? d.name with
  | some s => exact ⟨_, rfl, rfl⟩
  | none =>
    rcases List.mem_append.mp hd with hd | hd
    · obtain ⟨s, hs⟩ := exists_lookupSymbol hd
      rw [show m.signature.parameter? d.name = some s from hs]
      exact ⟨_, rfl, rfl⟩
    · obtain ⟨s, hs⟩ := exists_lookupSymbol hd
      rw [show m.signature.local? d.name = some s from hs] at hl
      cases hl

theorem MethodDecl.Renaming.scopeKeeps (h : m.Renaming f) (p : Program) (policy : Policy) {x : String}
    (hx : x ∈ Stmt.namesAll m.body) : (p.scopeOf policy m).Keeps f x := by
  refine fun hfield => h.keeps x hx fun hvar => ?_
  obtain ⟨v, hv, hlocal⟩ := p.exists_resolve?_variable policy hvar
  rw [hv] at hfield
  exact Bool.noConfusion (hlocal.symm.trans hfield)

theorem SymbolTable.map_shape_method? (t : SymbolTable) (name : String) :
    (t.method? name).map Signature.shape =
      (t.methods.map Signature.shape).find? fun m => m.name == name := by
  rw [method?, List.find?_map]
  rfl

namespace Program.Renamed

/-- Calls find methods of the same shapes. -/
theorem method? (h : p.Renamed q) (name : String) :
    (q.symbolTable.method? name).map Signature.shape =
      (p.symbolTable.method? name).map Signature.shape := by
  have shapes : p.symbolTable.methods.map Signature.shape =
      q.symbolTable.methods.map Signature.shape := by
    refine List.forall₂_eq_eq_eq ▸ ?_
    simp only [Program.symbolTable, List.forall₂_map_left_iff, List.forall₂_map_right_iff]
    refine h.methods.imp ?_
    rintro m _ ⟨f, -, rfl⟩
    rw [m.signature_rename, Signature.shape_rename]
  rw [SymbolTable.map_shape_method?, SymbolTable.map_shape_method?, shapes]

/-- The scopes of a method answer alike. -/
theorem scopeOf (h : p.Renamed q) (policy : Policy) (hm : m.Renaming f) :
    (p.scopeOf policy m).Renamed f (q.scopeOf policy (m.rename f)) where
  policy := rfl
  className := h.className
  superClass := h.superClass
  method := by
    show (m.rename f).signature.shape = m.signature.shape
    rw [m.signature_rename, Signature.shape_rename]
  isImported name := by
    show (q.imports.map _).any _ = (p.imports.map _).any _
    rw [h.imports]
  method? := h.method?
  resolve? x hx := by
    have hlocal : (m.rename f).signature.local? (f x) =
        (m.signature.local? x).map (Symbol.rename f) := by
      rw [m.signature_rename]
      exact lookupSymbol_rename hm.injective x _
    have hparameter : (m.rename f).signature.parameter? (f x) =
        (m.signature.parameter? x).map (Symbol.rename f) := by
      rw [m.signature_rename]
      exact lookupSymbol_rename hm.injective x _
    have hfield (name : String) : q.symbolTable.field? name = p.symbolTable.field? name := by
      show lookupSymbol name (q.classDecl.fields.map _) = lookupSymbol name (p.classDecl.fields.map _)
      rw [h.fields]
    have hmethod : (p.scopeOf policy m).method = m.signature := rfl
    have hmethod' : (q.scopeOf policy (m.rename f)).method = (m.rename f).signature := rfl
    have htable : (p.scopeOf policy m).table = p.symbolTable := rfl
    have htable' : (q.scopeOf policy (m.rename f)).table = q.symbolTable := rfl
    unfold Scope.Keeps at hx
    rw [Scope.resolve?, hmethod, htable] at hx
    rw [Scope.resolve?, hmethod', htable', hlocal, hparameter, hfield, Scope.resolve?, hmethod, htable]
    cases hl : m.signature.local? x with
    | some s => rfl
    | none =>
      cases hp : m.signature.parameter? x with
      | some s => rfl
      | none =>
        rw [hl, hp] at hx
        -- What is neither a local nor a parameter is kept, so the same field is looked up.
        have kept : f x = x := hx (by cases p.symbolTable.field? x <;> rfl)
        rw [kept]
        rfl

end Program.Renamed

/-! ## Errors -/

theorem checkFresh_rename (hf : Function.Injective f) (method : String) (seen : List String)
    (d : VarDecl) : (checkFresh method (seen.map f) (d.rename f)).map CheckError.code =
      (checkFresh method seen d).map CheckError.code := by
  unfold checkFresh
  have same : (d.rename f).name ∈ seen.map f ↔ d.name ∈ seen := List.mem_map_of_injective hf
  simp only [same]
  split <;> rfl

theorem checkParams_rename (hf : Function.Injective f) (method : String) :
    ∀ (ps : List VarDecl) (seen : List String),
      (∀ d ∈ ps, f d.name = "length" ↔ d.name = "length") →
        (checkParams method (seen.map f) (ps.map (VarDecl.rename f))).map CheckError.code =
          (checkParams method seen ps).map CheckError.code
  | [], _, _ => rfl
  | d :: rest, seen, h => by
    obtain ⟨first, h⟩ := List.forall_mem_cons.mp h
    have tail := checkParams_rename hf method rest (d.name :: seen) h
    have reserved : ((d.rename f).name == "length") = (d.name == "length") := by
      rw [Bool.eq_iff_iff, beq_iff_eq, beq_iff_eq]
      exact first
    rw [List.map_cons] at tail
    rw [List.map_cons, checkParams, checkParams, List.isEmpty_map, reserved]
    simp only [List.map_append, apply_ite (List.map CheckError.code), checkFresh_rename hf]
    rw [← tail]
    rfl

theorem checkLocals_rename (hf : Function.Injective f) (method : String) :
    ∀ (ds : List VarDecl) (seen : List String),
      (checkLocals method (seen.map f) (ds.map (VarDecl.rename f))).map CheckError.code =
        (checkLocals method seen ds).map CheckError.code
  | [], _ => rfl
  | d :: rest, seen => by
    have tail := checkLocals_rename hf method rest (d.name :: seen)
    rw [List.map_cons] at tail
    rw [List.map_cons, checkLocals, checkLocals]
    simp only [List.map_append, apply_ite (List.map CheckError.code), checkFresh_rename hf]
    rw [← tail]
    rfl

namespace MethodDecl

theorem checkSignature_rename (h : m.Renaming f) :
    (m.rename f).checkSignature.map CheckError.code = m.checkSignature.map CheckError.code := by
  have params := checkParams_rename h.injective m.name m.params [] h.length
  have locals := checkLocals_rename h.injective m.name m.locals (m.params.map VarDecl.name).reverse
  rw [List.map_reverse, ← map_name_rename] at locals
  rw [checkSignature, checkSignature, List.map_append, List.map_append, List.map_append,
    List.map_append, ← params, ← locals]
  rfl

theorem endsWithReturn_rename (m : MethodDecl) (f : String → String) :
    (m.rename f).endsWithReturn = m.endsWithReturn := by
  show (Stmt.renameAll f m.body).getLast?.any Stmt.isReturn = m.body.getLast?.any Stmt.isReturn
  rw [Stmt.renameAll_eq_map, List.getLast?_map]
  cases m.body.getLast? with
  | none => rfl
  | some stmt => exact stmt.isReturn_rename

theorem checkReturns_rename (m : MethodDecl) (f : String → String) :
    (m.rename f).checkReturns.map CheckError.code = m.checkReturns.map CheckError.code := by
  have count : Stmt.returnCount (m.rename f).body = Stmt.returnCount m.body :=
    Stmt.returnCount_renameAll m.body
  have fits : (m.rename f).returnCountFits = m.returnCountFits := by
    unfold returnCountFits
    rw [count]
    rfl
  unfold checkReturns
  rw [fits, count, m.endsWithReturn_rename]
  split
  · rfl
  · split <;> rfl

end MethodDecl

theorem getElem?_of_drop {α : Type} {l rest : List α} {i : Nat} {a : α} (h : l.drop i = a :: rest) :
    l[i]? = some a ∧ l.drop (i + 1) = rest := by
  refine ⟨?_, ?_⟩
  · rw [← List.head?_drop, h, List.head?_cons]
  · rw [← List.tail_drop, h, List.tail_cons]

namespace Program.Renamed

/-- The errors of a method have the same codes. -/
theorem check_method (h : p.Renamed q) (policy : Policy) (hm : m.Renaming f) {index : Nat}
    (hp : p.classDecl.methods[index]? = some m) (hq : q.classDecl.methods[index]? = some (m.rename f)) :
    ((m.rename f).check q.symbolTable policy index).map CheckError.code =
      (m.check p.symbolTable policy index).map CheckError.code := by
  have body := Scope.checkStmts_rename (h.scopeOf policy hm) m.body fun x hx =>
    hm.scopeKeeps p policy hx
  rw [MethodDecl.check, MethodDecl.check, MethodDecl.checkBody, MethodDecl.checkBody,
    methodAt?_symbolTable hp, methodAt?_symbolTable hq]
  simp only [List.map_append]
  rw [MethodDecl.checkSignature_rename hm, m.checkReturns_rename]
  exact congrArg _ body

theorem checkMethods (h : p.Renamed q) (policy : Policy) {ms ms' : List MethodDecl}
    (each : List.Forall₂ MethodDecl.Renamed ms ms') : ∀ (index : Nat) (seen : List String),
      p.classDecl.methods.drop index = ms → q.classDecl.methods.drop index = ms' →
        (JavaMinus.checkMethods q.symbolTable policy index seen ms').map CheckError.code =
          (JavaMinus.checkMethods p.symbolTable policy index seen ms).map CheckError.code := by
  induction each with
  | nil => exact fun _ _ _ _ => rfl
  | @cons m _ _ _ first _ ih =>
    intro index seen hp hq
    obtain ⟨f, hm, rfl⟩ := first
    obtain ⟨hp, hp'⟩ := getElem?_of_drop hp
    obtain ⟨hq, hq'⟩ := getElem?_of_drop hq
    have tail := ih (index + 1) (m.name :: seen) hp' hq'
    rw [JavaMinus.checkMethods, JavaMinus.checkMethods]
    simp only [List.map_append, h.check_method policy hm hp hq]
    rw [← tail]
    rfl

/-- The errors of a program have the same codes under other names. -/
theorem check (h : p.Renamed q) (policy : Policy) :
    (q.check q.symbolTable policy).map CheckError.code =
      (p.check p.symbolTable policy).map CheckError.code := by
  rw [Program.check, Program.check, h.imports, h.fields]
  simp only [List.map_append]
  exact congrArg _ (h.checkMethods policy h.methods 0 [] rfl rfl)

theorem check_eq_nil (h : p.Renamed q) (policy : Policy) :
    q.check q.symbolTable policy = [] ↔ p.check p.symbolTable policy = [] := by
  rw [← List.map_eq_nil_iff (f := CheckError.code), h.check policy, List.map_eq_nil_iff]

/-! ## Code -/

theorem lowerMethods (h : p.Renamed q) (policy : Policy) {ms ms' : List MethodDecl}
    (each : List.Forall₂ MethodDecl.Renamed ms ms') : ∀ index : Nat,
      p.classDecl.methods.drop index = ms → q.classDecl.methods.drop index = ms' →
        Lower.Renamed id (List.Forall₂ Method.Renamed)
          (JavaMinus.lowerMethods p.symbolTable policy index ms)
          (JavaMinus.lowerMethods q.symbolTable policy index ms') := by
  induction each with
  | nil => exact fun _ _ _ => renamed_pure .nil
  | @cons m _ _ _ first _ ih =>
    intro index hp hq
    obtain ⟨f, hm, rfl⟩ := first
    obtain ⟨hp, hp'⟩ := getElem?_of_drop hp
    obtain ⟨hq, hq'⟩ := getElem?_of_drop hq
    have scope := h.scopeOf policy hm
    rw [JavaMinus.lowerMethods, JavaMinus.lowerMethods, methodAt?_symbolTable hp,
      methodAt?_symbolTable hq, ofOption_some, ofOption_some, pure_bind, pure_bind]
    unfold Program.scopeOf at scope
    rw [m.signature_rename] at scope ⊢
    refine .bind_map (m.lower_rename scope fun x hx => hm.scopeKeeps p policy hx) fun method => ?_
    refine .bind (ih (index + 1) hp' hq') fun _ _ rest => renamed_pure ?_
    exact .cons ⟨f, hm.injective, rfl⟩ rest

theorem lower (h : p.Renamed q) (policy : Policy) :
    Lower.Renamed id ClassUnit.Renamed (p.lower p.symbolTable policy)
      (q.lower q.symbolTable policy) := by
  unfold Program.lower
  refine .bind_map (g := id) (fun c => .done rfl [] {}) fun _ => ?_
  refine .bind (h.lowerMethods policy h.methods 0 rfl rfl) fun _ _ methods => renamed_pure ?_
  refine ⟨h.className, h.superClass, ?_, ?_, .cons ?_ methods⟩
  · exact congrArg (List.map Import.qualifiedName) h.imports
  · show (q.classDecl.fields.map _).map _ = (p.classDecl.fields.map _).map _
    rw [h.fields]
  · rw [h.className]
    exact Method.renamed_constructor _

end Program.Renamed

/-! ## Assembly -/

/-- The assembly of a program that has one. -/
def Program.assembly? (p : Program) (config : Config) : Option String :=
  (p.compile config).toOption.bind Compiled.assembly?

theorem toOption_assemble (u : ClassUnit) (root : String) :
    (assemble u root).toOption = (u.classFile root).toOption.map Jvm.ClassFile.text := by
  unfold assemble
  cases u.classFile root <;> rfl

/-- The assembly of an accepted program is that of its class. -/
theorem Program.assembly?_of_check {config : Config} (h : p.check p.symbolTable config.policy = []) :
    p.assembly? config = (p.toUnit p.symbolTable config.policy).toOption.bind fun u =>
      (assemble u config.rootClass).toOption := by
  unfold assembly? compile compileWith
  rw [h]
  cases p.toUnit p.symbolTable config.policy with
  | error e => rfl
  | ok u =>
    show (assemble u config.rootClass >>= fun text => Except.ok (Compiled.accepted u
      (if config.emitListing then some u.listing else none) text)).toOption.bind Compiled.assembly? =
        (assemble u config.rootClass).toOption
    cases assemble u config.rootClass <;> rfl

theorem Program.assembly?_of_errors {config : Config}
    (h : p.check p.symbolTable config.policy ≠ []) : p.assembly? config = none := by
  unfold assembly? compile compileWith
  split
  · next hnil => exact absurd hnil h
  · rfl

/-- A program has the same assembly under other names, or none either. -/
theorem Program.Renamed.assembly (h : p.Renamed q) (config : Config) :
    q.assembly? config = p.assembly? config := by
  by_cases hp : p.check p.symbolTable config.policy = []
  · have lowered := h.lower config.policy {}
    rw [assembly?_of_check hp, assembly?_of_check ((h.check_eq_nil _).mpr hp)]
    unfold toUnit
    generalize (p.lower p.symbolTable config.policy).run {} = here at lowered ⊢
    generalize (q.lower q.symbolTable config.policy).run {} = there at lowered ⊢
    cases lowered with
    | failed => rfl
    | done unit =>
      show (assemble _ config.rootClass).toOption = (assemble _ config.rootClass).toOption
      rw [toOption_assemble, toOption_assemble, unit.classFile config.rootClass]
  · rw [assembly?_of_errors hp, assembly?_of_errors (mt (h.check_eq_nil _).mp hp)]

/-! ## Fresh names for the variables of one method -/

/-- A renaming of variables that takes the new names back. -/
def exchange (r : String → String) (names : List String) (x : String) : String :=
  if x ∈ names then r x else (names.find? fun d => r d == x).getD x

section
variable {r : String → String} {names : List String}

theorem exchange_of_mem {x : String} (hx : x ∈ names) : exchange r names x = r x :=
  if_pos hx

/-- What is neither a variable nor a new name stays. -/
theorem exchange_of_notMem {x : String} (hx : x ∉ names) (new : ∀ d ∈ names, r d ≠ x) :
    exchange r names x = x := by
  have none : (names.find? fun d => r d == x) = none :=
    List.find?_eq_none.mpr fun d hd heq => new d hd (beq_iff_eq.mp heq)
  rw [exchange, if_neg hx, none, Option.getD_none]

/-- New names are exchanged with the old ones, so different names stay different. -/
theorem exchange_injective (inj : ∀ x ∈ names, ∀ y ∈ names, r x = r y → x = y)
    (fresh : ∀ x ∈ names, r x ∉ names) : Function.Injective (exchange r names) := by
  refine Function.Involutive.injective fun x => ?_
  by_cases hx : x ∈ names
  · have found : (names.find? fun d => r d == r x) = some x := by
      obtain ⟨d, hd⟩ : ∃ d, (names.find? fun d => r d == r x) = some d :=
        Option.isSome_iff_exists.mp (List.find?_isSome.mpr ⟨x, hx, beq_self_eq_true _⟩)
      have same : r d = r x := by simpa using List.find?_some hd
      rw [hd, inj d (List.mem_of_find?_eq_some hd) x hx same]
    rw [exchange_of_mem hx, exchange, if_neg (fresh x hx), found, Option.getD_some]
  · cases hfound : names.find? fun d => r d == x with
    | none =>
      have stays : exchange r names x = x := by
        rw [exchange, if_neg hx, hfound, Option.getD_none]
      rw [stays, stays]
    | some d =>
      have taken : exchange r names x = d := by
        rw [exchange, if_neg hx, hfound, Option.getD_some]
      rw [taken, exchange_of_mem (List.mem_of_find?_eq_some hfound)]
      simpa using List.find?_some hfound

end

/-- Variables may get different names that the method does not have. -/
theorem MethodDecl.renamed_renameVariables {r : String → String}
    (inj : ∀ x ∈ m.variables, ∀ y ∈ m.variables, r x = r y → x = y)
    (fresh : ∀ x ∈ m.variables, r x ∉ m.names)
    (length : ∀ d ∈ m.params, r d.name = "length" ↔ d.name = "length") :
    m.Renamed (m.renameVariables r) := by
  have kept (x : String) (hx : x ∈ m.names) (hv : x ∉ m.variables) : exchange r m.variables x = x :=
    exchange_of_notMem hv fun d hd heq => fresh d hd (heq ▸ hx)
  refine ⟨exchange r m.variables, ⟨?_, ?_, ?_⟩, rename_congr fun x hx => ?_⟩
  · exact exchange_injective inj fun x hx hv => fresh x hx (List.mem_append_left _ hv)
  · exact fun x hx => kept x (List.mem_append_right _ hx)
  · intro d hd
    have hv : d.name ∈ m.variables := List.mem_map_of_mem (List.mem_append_left _ hd)
    rw [exchange_of_mem hv]
    exact length d hd
  · split
    · next hv => exact (exchange_of_mem hv).symm
    · next hv => exact (kept x hx hv).symm

/-- A program with other names for the parameters and locals of the method at a position. -/
def Program.renameVariables (i : Nat) (r : String → String) (p : Program) : Program :=
  { p with classDecl := { p.classDecl with
      methods := p.classDecl.methods.modify i (MethodDecl.renameVariables r) } }

theorem forall₂_modify {α : Type} {R : α → α → Prop} (refl : ∀ a, R a a) (g : α → α) :
    ∀ (l : List α) (i : Nat), (∀ a, l[i]? = some a → R a (g a)) → List.Forall₂ R l (l.modify i g)
  | [], _, _ => by
    rw [List.modify_nil]
    exact .nil
  | a :: l, 0, h => by
    rw [List.modify_zero_cons]
    exact .cons (h a rfl) (List.forall₂_same.mpr fun b _ => refl b)
  | a :: l, i + 1, h => by
    rw [List.modify_succ_cons]
    exact .cons (refl a) (forall₂_modify refl g l i h)

namespace Program

/-- **The names of variables do not reach the assembly.** The parameters and locals of any method of an
accepted program may get other names, as long as these are different, are not `length`, and are not
among the names that the method declares or mentions. The program with these names is accepted too, and
its assembly is the same text; when the program cannot be compiled for another reason, neither can it. -/
theorem assembly_of_renameVariables {config : Config} (h : p.check p.symbolTable config.policy = [])
    {i : Nat} (hm : p.classDecl.methods[i]? = some m) {r : String → String}
    (inj : ∀ x ∈ m.variables, ∀ y ∈ m.variables, r x = r y → x = y)
    (fresh : ∀ x ∈ m.variables, r x ∉ m.names ∧ r x ≠ "length") :
    let q := p.renameVariables i r
    q.check q.symbolTable config.policy = [] ∧ q.assembly? config = p.assembly? config := by
  have accepted := (p.check_method h (List.mem_of_getElem? hm)).1
  have unreserved := ne_length_of_checkParams
    (List.append_eq_nil_iff.mp (List.append_eq_nil_iff.mp accepted).1).2
  have length (d : VarDecl) (hd : d ∈ m.params) : r d.name = "length" ↔ d.name = "length" :=
    have hv : d.name ∈ m.variables := List.mem_map_of_mem (List.mem_append_left _ hd)
    iff_of_false (fresh d.name hv).2 (unreserved d hd)
  have renamed : p.Renamed (p.renameVariables i r) := by
    refine ⟨rfl, rfl, rfl, rfl, forall₂_modify MethodDecl.Renamed.refl _ _ i fun m' hm' => ?_⟩
    obtain rfl : m = m' := Option.some.inj (hm.symm.trans hm')
    exact MethodDecl.renamed_renameVariables inj (fun x hx => (fresh x hx).1) length
  exact ⟨(renamed.check_eq_nil _).mpr h, renamed.assembly config⟩

/-- A method with a local that hides a field, and a call on an import. -/
def meter : Program where
  imports := [{ path := ["io", "Log"] }]
  classDecl := {
    name := "Meter"
    fields := [Build.var "total" (.scalar .int), Build.var "limit" (.scalar .int)]
    methods := [{
      name := "add"
      returnType := .scalar .int
      params := [Build.var "amount" (.scalar .int)]
      locals := [Build.var "total" (.scalar .int)]
      body := [
        Build.assign "total" (Build.binary .add (Build.ident "amount") (Build.int 1)),
        Build.exprStmt (Build.call (Build.ident "Log") "put" [Build.ident "total"]),
        Build.ret (Build.ident "total")] }] }

/-- New names, one of them that of a field which the method does not mention. -/
def meterNames (x : String) : String := if x = "total" then "limit" else "step"

/-- Then the other field is hidden, which the method does not see. -/
theorem assembly_of_renameVariables_meter :
    let q := meter.renameVariables 0 meterNames
    meter.check meter.symbolTable {} = [] ∧
      q.classDecl.methods.map MethodDecl.variables = [["step", "limit"]] ∧
      q.check q.symbolTable {} = [] ∧
      ∀ config : Config, config.policy = {} → q.assembly? config = meter.assembly? config := by
  intro q
  have accepted : meter.check meter.symbolTable {} = [] := by decide
  have renamed (config : Config) (h : config.policy = {}) :
      q.check q.symbolTable config.policy = [] ∧ q.assembly? config = meter.assembly? config :=
    assembly_of_renameVariables (h ▸ accepted) (i := 0) rfl (r := meterNames) (by decide) (by decide)
  exact ⟨accepted, rfl, (renamed {} rfl).1, fun config h => (renamed config h).2⟩

end Program

end JavaMinus
