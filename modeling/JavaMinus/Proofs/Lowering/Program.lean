import Mathlib.Data.List.Forall2
import JavaMinus.Pipeline
import JavaMinus.Proofs.Lowering.Accepted
import JavaMinus.Proofs.Lowering.Returns
import JavaMinus.Proofs.Tac.Labels

/-!
# Accepted programs have typed units

A program without semantic errors is lowered to typed methods (`Program.lower_of_check`). One thing
can be missing besides room in an array: the checker lets the entry point do without a return
whatever its return type is, and lowering has nothing to return there when the type is not `void`.
`MethodDecl.Returns` is what lowering needs and the checker does not ask for.
-/

namespace JavaMinus

open Tac Lower

/-- A method of typed code. -/
structure Tac.Method.Typed (s : Scope) (temps : List Ty) (m : Method) : Prop where
  isStatic : m.isStatic = s.isStatic
  returnTy : m.returnTy = s.returnType
  params : m.params = s.method.parameters.map fun p => .var p.name p.ty.plain
  code : Code.Typed s temps m.code
  ends : m.endsWithReturn = true

/-- The method ends with a return, or it has no value to return. -/
def MethodDecl.Returns (m : MethodDecl) : Prop :=
  m.returnType.ty.isVoid = true ∨ m.endsWithReturn = true

instance (m : MethodDecl) : Decidable m.Returns :=
  inferInstanceAs (Decidable (_ ∨ _))

/-- The scope in which the statements of a method of a program are read. -/
def Program.scopeOf (p : Program) (policy : Policy) (m : MethodDecl) : Scope :=
  ⟨p.symbolTable, m.signature, policy⟩

/-- The methods of a program are lowered to these methods, the code of each typed in its own scope. -/
def Program.TypedMethods (p : Program) (policy : Policy) (temps : List Ty) :
    List MethodDecl → List Method → Prop :=
  List.Forall₂ fun d m => m.Typed (p.scopeOf policy d) temps ∧ m.name = d.name

variable {names : String → Prop} {s : Scope} {p : Program} {policy : Policy}

/-! ## Methods -/

theorem Tac.Method.Typed.mono {temps more : List Ty} {m : Method} (h : m.Typed s temps)
    (hw : temps <+: more) : m.Typed s more :=
  { h with code := h.code.mono hw }

/-- Without a return in its statements a method has none in its code. -/
theorem endsWithReturn_eq_false {code : List Instr} (h : code.countP Instr.isReturn = 0) :
    code.getLast?.any Instr.isReturn = false := by
  rw [List.countP_eq_zero] at h
  cases hl : code.getLast? with
  | none => rfl
  | some i => exact Bool.eq_false_iff.mpr (h i (List.mem_of_getLast? hl))

/-- A method that the checker accepts and that does not return has no returns at all, and is an entry
point. -/
theorem MethodDecl.returnCount_of_not_returns {m : MethodDecl} (h : m.checkReturns = [])
    (hr : ¬ m.Returns) : Stmt.returnCount m.body = 0 ∧ m.isEntryPoint = true := by
  obtain ⟨hvoid, hends⟩ := not_or.mp hr
  simp only [Bool.not_eq_true] at hvoid hends
  unfold checkReturns returnCountFits returnOptional at h
  rw [hvoid, hends] at h
  split at h
  · cases h
  · next hfits =>
    split at h
    · cases h
    · next hone =>
      simp_all

/-- The code of a method is what it was extended by. -/
@[simp] theorem Scope.code_extend (s : Scope) (code : List Instr) :
    (s.emptyMethod.extend code).code = code :=
  Method.extend_code _ _

/-- A method with code is closed by what its code ends with. -/
theorem closeMethod_extend (s : Scope) (code : List Instr) :
    closeMethod (s.emptyMethod.extend code) =
      if code.getLast?.any Instr.isReturn then pure (s.emptyMethod.extend code)
      else if s.returnType.isVoid then pure (s.emptyMethod.extend (code ++ [.ret none]))
      else fail (.missingReturn s.method.name) := by
  simp only [closeMethod, Method.endsWithReturn, Scope.code_extend, Method.extend_returnTy,
    Method.extend_name, Method.extend_append]
  rfl

/-- Typed code that ends with a return makes a typed method. -/
theorem Tac.Method.typed_extend {temps : List Ty} {code : List Instr} (h : Code.Typed s temps code)
    (hlast : code.getLast?.any Instr.isReturn = true) :
    (s.emptyMethod.extend code).Typed s temps where
  isStatic := extend_isStatic _ _
  returnTy := extend_returnTy _ _
  params := extend_params _ _
  code := by rwa [Scope.code_extend]
  ends := by rwa [endsWithReturn, Scope.code_extend]

section
variable {m : MethodDecl} {temps : List Ty}

/-- What is asked of an accepted method: its statements and returns are accepted, and the names of
types in it have the property. -/
structure MethodDecl.Accepted (names : String → Prop) (s : Scope) (m : MethodDecl) : Prop where
  scope : s.Names names
  varargs : s.table.VarargsAreArrays
  allocates : ∀ stmt ∈ m.body, stmt.Allocates names
  body : s.checkStmts m.body = []
  returns : m.checkReturns = []
  result : s.returnType.isVoid = m.returnType.ty.isVoid

/-- An accepted method is lowered to a typed one, or an array of it is too large, or it is an entry
point that does not return. -/
theorem MethodDecl.Accepted.lower_method {signature : Signature} {t : SymbolTable}
    (ha : m.Accepted names ⟨t, signature, policy⟩) (ht : ∀ ty ∈ temps, names ty.name) {c : Counters}
    (hc : c.temps = temps.length) :
    match (m.lower t policy signature).run c with
    | .done method code c' => m.Returns ∧ code = [] ∧ ∃ more, temps <+: more ∧
        c'.temps = more.length ∧ (∀ ty ∈ more, names ty.name) ∧
          method.Typed ⟨t, signature, policy⟩ more ∧ method.name = signature.name
    | .failed e _ => e = .literalTooLarge ∨
        (¬ m.Returns ∧ m.isEntryPoint = true ∧ e = .missingReturn signature.name) := by
  have hmeets : (Stmt.lowerAll ⟨t, signature, policy⟩ m.body).Meets names
      ⟨t, signature, policy⟩ temps fun _ _ => True :=
    Stmt.lowerAll_meets ha.scope ha.varargs m.body ha.allocates ha.body
  have hbody := hmeets ht c hc
  unfold MethodDecl.lower
  rw [run_bind]
  cases hrun : (Stmt.lowerAll ⟨t, signature, policy⟩ m.body).run c with
  | failed e c' =>
    rw [hrun] at hbody
    rw [show (codeOf (Stmt.lowerAll ⟨t, signature, policy⟩ m.body)).run c = .failed e c' by
      simp only [codeOf, hrun]]
    exact .inl hbody
  | done a code c' =>
    rw [hrun] at hbody
    obtain ⟨more, hp, hl, hn, -, htyped⟩ := hbody
    rw [show (codeOf (Stmt.lowerAll ⟨t, signature, policy⟩ m.body)).run c = .done code [] c' by
      simp only [codeOf, hrun]]
    dsimp only
    rw [closeMethod_extend]
    by_cases hlast : code.getLast?.any Instr.isReturn = true
    · rw [if_pos hlast]
      have hret : m.Returns := by
        by_contra hnot
        obtain ⟨hzero, -⟩ := returnCount_of_not_returns ha.returns hnot
        rw [endsWithReturn_eq_false (by rw [Stmt.lowerAll_returns _ _ _ _ _ hrun, hzero])] at hlast
        cases hlast
      exact ⟨hret, rfl, more, hp, hl, hn, Method.typed_extend htyped hlast, Method.extend_name _ _⟩
    · rw [if_neg hlast]
      by_cases hvoid : Scope.returnType ⟨t, signature, policy⟩ |>.isVoid
      · rw [if_pos hvoid]
        refine ⟨.inl (by rw [← ha.result]; exact hvoid), rfl, more, hp, hl, hn,
          Method.typed_extend (htyped.append (.instr (.retNone ?_) .nil)) ?_, Method.extend_name _ _⟩
        · rw [Scope.returns, if_pos hvoid]
          rfl
        · simp [Instr.isReturn]
      · rw [if_neg hvoid]
        have hnot : ¬ m.Returns := by
          rintro (h | h)
          · rw [← ha.result] at h
            exact hvoid h
          · exact hlast (Stmt.lowerAll_endsWithReturn hrun h)
        exact .inr ⟨hnot, (returnCount_of_not_returns ha.returns hnot).2, rfl⟩

/-- A method is given the code of its statements, and a return at its end where they have none. -/
theorem MethodDecl.lower_eq_done {t : SymbolTable} {signature : Signature} {c c' : Counters}
    {method : Method} {code : List Instr}
    (h : (m.lower t policy signature).run c = .done method code c') :
    ∃ body closing, (Stmt.lowerAll ⟨t, signature, policy⟩ m.body).run c = .done () body c' ∧
      method = (Scope.emptyMethod ⟨t, signature, policy⟩).extend (body ++ closing) ∧
      ((closing = [] ∧ body.getLast?.any Instr.isReturn = true) ∨
        (closing = [.ret none] ∧ body.getLast?.any Instr.isReturn = false ∧
          (Scope.returnType ⟨t, signature, policy⟩).isVoid = true)) := by
  unfold lower at h
  obtain ⟨body, _, _, _, hbody, hclosed, -⟩ := run_bind_eq_done.mp h
  unfold codeOf at hbody
  dsimp only at hbody
  split at hbody
  · cases hbody
  · next hrun =>
    cases hbody
    rw [closeMethod_extend] at hclosed
    split at hclosed
    · next hlast =>
      cases hclosed
      exact ⟨_, [], hrun, by rw [List.append_nil], .inl ⟨rfl, hlast⟩⟩
    · next hlast =>
      split at hclosed
      · next hvoid =>
        cases hclosed
        exact ⟨_, [.ret none], hrun, rfl, .inr ⟨rfl, Bool.eq_false_iff.mpr hlast, hvoid⟩⟩
      · cases hclosed

/-- The label map of a lowered method is right, as it was filled while the code came in. -/
theorem MethodDecl.indexed_of_lower {t : SymbolTable} {signature : Signature} {c c' : Counters}
    {method : Method} {code : List Instr}
    (h : (m.lower t policy signature).run c = .done method code c') : method.Indexed := by
  obtain ⟨body, closing, -, rfl, -⟩ := lower_eq_done h
  exact (Method.indexed_of_nil rfl rfl).extend _

/-- Methods are lowered one by one, each from the counters that the one before it left. -/
theorem lowerMethods_eq_done : ∀ (rest pre : List MethodDecl) {c c' : Counters}
    {methods : List Method} {code : List Instr}, p.classDecl.methods = pre ++ rest →
    (lowerMethods p.symbolTable policy pre.length rest).run c = .done methods code c' →
    List.Forall₂ (fun d m => ∃ c code c',
      (d.lower p.symbolTable policy d.signature).run c = .done m code c') rest methods
  | [], _, _, _, _, _, _, h => by
    cases h
    exact .nil
  | d :: rest, pre, _, _, _, _, hp, h => by
    have hsig : p.symbolTable.methodAt? pre.length d.name = some d.signature :=
      Program.methodAt?_symbolTable (by rw [hp, List.getElem?_append_right (Nat.le_refl _)]; simp)
    rw [lowerMethods, hsig] at h
    obtain ⟨_, _, _, _, hs, hfirst, -⟩ := run_bind_eq_done.mp h
    cases hs
    obtain ⟨m, _, _, _, hm, hrest, -⟩ := run_bind_eq_done.mp hfirst
    obtain ⟨ms, _, _, _, hms, hdone, -⟩ := run_bind_eq_done.mp hrest
    cases hdone
    rw [← List.length_singleton (a := d), ← List.length_append] at hms
    exact .cons ⟨_, _, _, hm⟩ (lowerMethods_eq_done rest (pre ++ [d]) (by rw [hp]; simp) hms)

/-- A relation that chains the codes of methods holds of the methods of a class, and so does what holds
of each of them. The table and the position are any. -/
theorem lowerMethods_chained {t : SymbolTable} {P : Method → Prop}
    {R : Counters → List Instr → Counters → Prop} (nil : ∀ c, R c [] c)
    (append : ∀ {c c₁ c₂ code rest}, R c code c₁ → R c₁ rest c₂ → R c (code ++ rest) c₂)
    (each : ∀ {d : MethodDecl} {signature : Signature} {c m code c'},
      (d.lower t policy signature).run c = .done m code c' → R c m.code c' ∧ P m) :
    ∀ (ds : List MethodDecl) (k : Nat) {c c' : Counters} {methods : List Method} {code : List Instr},
      (lowerMethods t policy k ds).run c = .done methods code c' →
        R c (methods.flatMap Method.code) c' ∧ ∀ m ∈ methods, P m
  | [], _, _, _, _, _, h => by
    cases h
    exact ⟨nil _, List.forall_mem_nil _⟩
  | d :: ds, k, _, _, _, _, h => by
    rw [lowerMethods] at h
    obtain ⟨signature, _, _, _, hs, hfirst, -⟩ := run_bind_eq_done.mp h
    obtain ⟨m, _, _, _, hm, hrest, -⟩ := run_bind_eq_done.mp hfirst
    obtain ⟨ms, _, _, _, hms, hdone, -⟩ := run_bind_eq_done.mp hrest
    obtain ⟨-, -, rfl⟩ := run_ofOption_eq_done hs
    cases hdone
    obtain ⟨here, hp⟩ := each hm
    obtain ⟨there, hps⟩ := lowerMethods_chained nil append each ds (k + 1) hms
    exact ⟨append here there, List.forall_mem_cons.mpr ⟨hp, hps⟩⟩

/-- Accepted methods are lowered to typed ones, or an array is too large, or one of them is an entry
point that does not return. -/
theorem lowerMethods_of_accepted : ∀ (rest pre : List MethodDecl) {temps : List Ty} {c : Counters},
    p.classDecl.methods = pre ++ rest → (∀ m ∈ rest, m.Accepted names (p.scopeOf policy m)) →
    (∀ ty ∈ temps, names ty.name) → c.temps = temps.length →
    match (lowerMethods p.symbolTable policy pre.length rest).run c with
    | .done methods code c' => code = [] ∧ (∀ m ∈ rest, m.Returns) ∧ ∃ more, temps <+: more ∧
        c'.temps = more.length ∧ (∀ ty ∈ more, names ty.name) ∧
          p.TypedMethods policy more rest methods
    | .failed e _ => e = .literalTooLarge ∨
        ∃ m ∈ rest, ¬ m.Returns ∧ m.isEntryPoint = true ∧ e = .missingReturn m.name
  | [], _, temps, c, _, _, ht, hc => by
    exact ⟨rfl, by simp, temps, List.prefix_rfl, hc, ht, .nil⟩
  | m :: rest, pre, temps, c, hp, ha, ht, hc => by
    obtain ⟨hm, hrest⟩ := List.forall_mem_cons.mp ha
    have hsig : p.symbolTable.methodAt? pre.length m.name = some m.signature :=
      Program.methodAt?_symbolTable (by rw [hp, List.getElem?_append_right (Nat.le_refl _)]; simp)
    have hfirst := hm.lower_method ht hc
    rw [lowerMethods, hsig, run_bind]
    dsimp only [ofOption, done]
    rw [run_bind]
    revert hfirst
    cases (m.lower p.symbolTable policy m.signature).run c with
    | failed e c' =>
      rintro (he | ⟨hret, hentry, he⟩)
      · exact .inl he
      · exact .inr ⟨m, List.mem_cons_self, hret, hentry, he⟩
    | done method code c' =>
      rintro ⟨hret, rfl, more, hpre, hlen, hn, htyped, hname⟩
      have hrec := lowerMethods_of_accepted rest (pre ++ [m]) (by rw [hp]; simp) hrest hn hlen
      rw [List.length_append, List.length_singleton] at hrec
      dsimp only
      rw [run_bind]
      revert hrec
      cases (lowerMethods p.symbolTable policy (pre.length + 1) rest).run c' with
      | failed e c'' =>
        rintro (he | ⟨d, hd, h⟩)
        · exact .inl he
        · exact .inr ⟨d, List.mem_cons_of_mem _ hd, h⟩
      | done methods code c'' =>
        rintro ⟨rfl, hrets, most, hpre', hlen', hn', hall⟩
        exact ⟨rfl, List.forall_mem_cons.mpr ⟨hret, hrets⟩, most, hpre.trans hpre', hlen', hn',
          .cons ⟨htyped.mono hpre', hname⟩ hall⟩

end

/-! ## Programs -/

/-- The class of a program with the given methods. -/
def Program.unitOf (p : Program) (methods : List Method) : ClassUnit where
  name := p.classDecl.name
  superClass := p.classDecl.superClass
  imports := p.symbolTable.imports
  fields := p.symbolTable.fields.map fun f => { f with ty := f.ty.plain }
  methods := Method.constructor (Ty.scalar p.classDecl.name) :: methods

/-- Nothing is reported of any method of an accepted list. -/
theorem check_of_checkMethods : ∀ (rest pre : List MethodDecl) {seen : List String},
    p.classDecl.methods = pre ++ rest →
    checkMethods p.symbolTable policy pre.length seen rest = [] →
    ∀ m ∈ rest, m.checkSignature = [] ∧ m.checkReturns = [] ∧
      (p.scopeOf policy m).checkStmts m.body = []
  | [], _, _, _, _ => by simp
  | m :: rest, pre, seen, hp, h => by
    rw [checkMethods] at h
    obtain ⟨h, hrest⟩ := List.append_eq_nil_iff.mp h
    obtain ⟨-, h⟩ := List.append_eq_nil_iff.mp h
    obtain ⟨h, hbody⟩ := List.append_eq_nil_iff.mp h
    obtain ⟨hsig, hret⟩ := List.append_eq_nil_iff.mp h
    have hat : p.symbolTable.methodAt? pre.length m.name = some m.signature :=
      Program.methodAt?_symbolTable (by rw [hp, List.getElem?_append_right (Nat.le_refl _)]; simp)
    rw [MethodDecl.checkBody, hat] at hbody
    refine List.forall_mem_cons.mpr ⟨⟨hsig, hret, hbody⟩, ?_⟩
    exact check_of_checkMethods rest (pre ++ [m]) (by rw [hp]; simp) (by simpa using hrest)

theorem Program.check_method {m : MethodDecl} (h : p.check p.symbolTable policy = [])
    (hm : m ∈ p.classDecl.methods) : m.checkSignature = [] ∧ m.checkReturns = [] ∧
      (p.scopeOf policy m).checkStmts m.body = [] :=
  check_of_checkMethods p.classDecl.methods [] rfl (List.append_eq_nil_iff.mp h).2 m hm

/-- The methods of a program without errors are accepted. -/
theorem Program.accepted_of_check (h : p.check p.symbolTable policy = [])
    (hn : ∀ m ∈ p.classDecl.methods, (p.scopeOf policy m).Names names ∧
      ∀ stmt ∈ m.body, stmt.Allocates names) :
    ∀ m ∈ p.classDecl.methods, m.Accepted names (p.scopeOf policy m) := fun m hm =>
  have hc := p.check_method h hm
  ⟨(hn m hm).1, p.varargsAreArrays, (hn m hm).2, hc.2.2, hc.2.1, rfl⟩

/-- A program without errors is lowered to typed methods, or an array of it is too large, or it has
an entry point that does not return. -/
theorem Program.toUnit_of_accepted
    (ha : ∀ m ∈ p.classDecl.methods, m.Accepted names (p.scopeOf policy m)) :
    match p.toUnit p.symbolTable policy with
    | .ok unit => (∀ m ∈ p.classDecl.methods, m.Returns) ∧ ∃ temps methods,
        (∀ ty ∈ temps, names ty.name) ∧ p.TypedMethods policy temps p.classDecl.methods methods ∧
          unit = p.unitOf methods
    | .error e => e = .lowering .literalTooLarge ∨ ∃ m ∈ p.classDecl.methods,
        ¬ m.Returns ∧ m.isEntryPoint = true ∧ e = .lowering (.missingReturn m.name) := by
  have none : ∀ ty ∈ ([] : List Ty), names ty.name := by simp
  have h := lowerMethods_of_accepted p.classDecl.methods [] (c := {}) rfl ha none rfl
  unfold Program.toUnit Program.lower
  rw [run_bind]
  dsimp only [reset]
  rw [run_bind]
  revert h
  cases (lowerMethods p.symbolTable policy 0 p.classDecl.methods).run {} with
  | failed e c =>
    rintro (rfl | ⟨m, hm, hret, hentry, rfl⟩)
    · exact .inl rfl
    · exact .inr ⟨m, hm, hret, hentry, rfl⟩
  | done methods code c =>
    rintro ⟨-, hret, temps, -, -, hn, hall⟩
    exact ⟨hret, temps, methods, hn, hall, rfl⟩

/-- A program that is lowered is its constructor and its methods, counted from nothing. -/
theorem Program.lower_eq_done {t : SymbolTable} {c c' : Counters} {unit : ClassUnit}
    {code : List Instr} (h : (p.lower t policy).run c = .done unit code c') :
    ∃ methods written, (lowerMethods t policy 0 p.classDecl.methods).run {} = .done methods written c' ∧
      unit.methods = Method.constructor (Ty.scalar p.classDecl.name) :: methods := by
  obtain ⟨_, _, _, _, hreset, hmethods, -⟩ := run_bind_eq_done.mp h
  obtain ⟨methods, written, _, _, hlowered, hdone, -⟩ := run_bind_eq_done.mp hmethods
  cases hreset
  cases hdone
  exact ⟨methods, written, hlowered, rfl⟩

/-- The methods of a program that is lowered are lowered one by one. -/
theorem Program.methods_of_toUnit {unit : ClassUnit} (h : p.toUnit p.symbolTable policy = .ok unit) :
    ∃ methods, unit = p.unitOf methods ∧ List.Forall₂ (fun d m => ∃ c code c',
      (d.lower p.symbolTable policy d.signature).run c = .done m code c')
        p.classDecl.methods methods := by
  unfold toUnit at h
  split at h
  · next unit' _ _ hrun =>
    cases h
    obtain ⟨_, _, _, _, -, hmethods, -⟩ := run_bind_eq_done.mp hrun
    obtain ⟨methods, _, _, _, hlowered, hdone, -⟩ := run_bind_eq_done.mp hmethods
    cases hdone
    exact ⟨methods, rfl, lowerMethods_eq_done p.classDecl.methods [] rfl hlowered⟩
  · cases h

end JavaMinus
