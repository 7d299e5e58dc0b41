import JavaMinus.Proofs.Compile.Annotations
import JavaMinus.Proofs.Compile.Preserved

/-!
# One return, at the end

The checker counts the returns of a method at any depth and looks at its last statement; lowering
looks at the last instruction, and adds a return where a `void` method has none. Together they leave
one return in every method, behind everything else, so no run comes behind the code
(`Program.returns_of_check`). Where no type of a value is named `void`, the return has a value exactly
if the method promises one. A class named `void` breaks that: its objects are returned from `void`
methods (`Program.returns_void_objects`).
-/

namespace JavaMinus

open Tac Lower JavaMinus.Runtime

/-- Code that returns at its end, and nowhere else. -/
def Tac.ReturnsLast (code : List Instr) : Prop :=
  ∃ front value, code = front ++ [.ret value] ∧ ∀ i ∈ front, i.isReturn = false

/-- A method returns a value exactly if it promises a result of this type that is not `void`. -/
def Tac.Method.ReturnsFor (ty : Ty) (m : Method) : Prop :=
  ∀ value, .ret value ∈ m.code → (value.isSome = true ↔ ty.isVoid = false)

/-- What the methods of the class of a program promise: the constructor nothing, and the others what
they declare. -/
def Program.results (p : Program) : List Ty :=
  Ty.void :: p.classDecl.methods.map fun m => m.returnType.ty

/-! ## The number of returns -/

namespace Tac.ReturnsLast

variable {code : List Instr}

theorem endsWithReturn {m : Method} (h : ReturnsLast m.code) : m.endsWithReturn = true := by
  obtain ⟨front, value, hcode, -⟩ := h
  rw [Method.endsWithReturn, hcode, List.getLast?_concat]
  rfl

/-- Code that ends with a return and has no other one. -/
theorem of_countP (hlast : code.getLast?.any Instr.isReturn = true)
    (hcount : code.countP Instr.isReturn ≤ 1) : ReturnsLast code := by
  obtain ⟨i, hi, hret⟩ := (Option.any_eq_true _ _).mp hlast
  obtain ⟨front, rfl⟩ := List.getLast?_eq_some_iff.mp hi
  obtain ⟨value, rfl⟩ : ∃ value, i = .ret value := by
    cases i <;> first | exact ⟨_, rfl⟩ | cases hret
  have hone : List.countP Instr.isReturn [.ret value] = 1 := rfl
  rw [List.countP_append, hone] at hcount
  have hnone : front.countP Instr.isReturn = 0 := by omega
  exact ⟨front, value, rfl, fun i hi => Bool.eq_false_iff.mpr (List.countP_eq_zero.mp hnone i hi)⟩

/-- A return behind code without returns. -/
theorem of_countP_eq_zero (h : code.countP Instr.isReturn = 0) (value : Option Operand) :
    ReturnsLast (code ++ [.ret value]) :=
  ⟨code, value, rfl, fun i hi => Bool.eq_false_iff.mpr (List.countP_eq_zero.mp h i hi)⟩

end Tac.ReturnsLast

/-- An accepted method has one return at most, and that one comes last. -/
theorem MethodDecl.returnCount_of_checkReturns {m : MethodDecl} (h : m.checkReturns = []) :
    Stmt.returnCount m.body ≤ 1 ∧ (Stmt.returnCount m.body = 1 → m.endsWithReturn = true) := by
  unfold checkReturns at h
  split at h
  · cases h
  · next hfits =>
    split at h
    · cases h
    · next hlast =>
      simp only [returnCountFits, Bool.not_eq_true', Bool.not_eq_false, Bool.or_eq_true,
        Bool.and_eq_true, beq_iff_eq] at hfits
      simp only [Bool.and_eq_true, beq_iff_eq, Bool.not_eq_true', not_and, Bool.not_eq_false] at hlast
      exact ⟨by omega, hlast⟩

/-- The code of an accepted method returns at its end, and nowhere else. -/
theorem MethodDecl.returnsLast_of_lower {d : MethodDecl} {t : SymbolTable} {policy : Policy}
    {signature : Signature} {c c' : Counters} {m : Method} {code : List Instr}
    (hr : d.checkReturns = []) (h : (d.lower t policy signature).run c = .done m code c') :
    ReturnsLast m.code := by
  obtain ⟨body, closing, hbody, rfl, hclosing⟩ := lower_eq_done h
  obtain ⟨hone, hends⟩ := returnCount_of_checkReturns hr
  have hcount := Stmt.lowerAll_returns _ _ _ _ _ hbody
  rw [Scope.code_extend]
  rcases hclosing with ⟨rfl, hlast⟩ | ⟨rfl, hopen, -⟩
  · have hle : body.countP Instr.isReturn ≤ 1 := by omega
    rw [List.append_nil]
    exact .of_countP hlast hle
  · refine .of_countP_eq_zero ?_ none
    by_contra hsome
    -- the one return would be the last statement, and so the last instruction
    have hlast := Stmt.lowerAll_endsWithReturn hbody (hends (by omega))
    rw [hopen] at hlast
    cases hlast

/-! ## The value of the return -/

/-- A return in typed code is typed. -/
theorem Tac.Code.Typed.ret {s : Scope} {temps : List Ty} {code : List Instr}
    (h : Code.Typed s temps code) {value : Option Operand} (hm : .ret value ∈ code) :
    Instr.Typed s temps (.ret value) := by
  induction h with
  | nil => cases hm
  | instr head _ ih =>
    rcases List.mem_cons.mp hm with rfl | hm
    · exact head
    · exact ih hm
  | allocation _ _ _ ih =>
    rcases List.mem_cons.mp hm with h | hm
    · cases h
    · rcases List.mem_cons.mp hm with h | hm
      · cases h
      · exact ih hm

/-- Nothing but `void` itself is assigned from `void` where no class has that name. -/
theorem Scope.Names.isVoid_of_assignable {s : Scope} (hs : s.Names (· ≠ "void")) {target : Ty}
    (h : s.assignable target Ty.void = true) : target.isVoid = true := by
  have unknown : s.knowsClass "void" ≠ true := fun hk => hs.known "void" hk rfl
  simp only [assignable, Ty.agrees, Bool.or_eq_true, Bool.and_eq_true, beq_iff_eq] at h
  rcases h with ⟨hname, -⟩ | ⟨-, ⟨hself, -⟩ | ⟨-, himport⟩⟩
  · rw [Ty.isVoid, hname]
    rfl
  · exact absurd hself.symm hs.self
  · refine absurd ?_ unknown
    simp only [knowsClass, Bool.or_eq_true]
    exact .inr himport

/-- A typed method returns a value exactly if its result is not `void`. -/
theorem Tac.Method.Typed.returnsFor {s : Scope} {temps : List Ty} {m : Method}
    (h : m.Typed s temps) (hs : s.Names (· ≠ "void")) (ht : ∀ ty ∈ temps, ty.name ≠ "void") :
    m.ReturnsFor s.returnType := by
  intro value hm
  have returns := h.code.ret hm
  generalize hi : Instr.ret value = i at returns
  cases returns with
  | retNone returns =>
    cases hi
    have hvoid : s.returnType.isVoid = true := by
      rw [Scope.returns] at returns
      split at returns
      · assumption
      · exact hs.isVoid_of_assignable returns
    simp [hvoid]
  | @ret operand returns value_ =>
    cases hi
    have hname : operand.ty.name ≠ "void" := value_.name hs ht
    have hresult : s.returnType.isVoid = false := by
      rw [Scope.returns] at returns
      split at returns
      · exact absurd (beq_iff_eq.mp returns) hname
      · next hresult => exact Bool.eq_false_iff.mpr hresult
    simp [hresult]
  | _ => cases hi

/-! ## Programs -/

theorem Tac.Method.returnsLast_constructor (self : Ty) : ReturnsLast (constructor self).code :=
  ⟨[.call none .constructor (.self self) constructorName [] Ty.void], none, rfl, by simp [Instr.isReturn]⟩

theorem Tac.Method.returnsFor_constructor (self : Ty) : (constructor self).ReturnsFor Ty.void := by
  intro value hm
  obtain rfl : value = none := by simpa [constructor] using hm
  exact iff_of_false (by decide) (by decide)

namespace Program

variable {p : Program} {policy : Policy}

/-- **One return, at the end.** Every method of an accepted program that is lowered, the constructor
included, returns at its end and nowhere else, and no run of it comes behind its code. Where only
results are `void` and no class that the program knows is named so, the return has a value exactly if
the method promises one. -/
theorem returns_of_check (h : p.check p.symbolTable policy = []) {unit : ClassUnit}
    (hu : p.toUnit p.symbolTable policy = .ok unit) :
    (∀ m ∈ unit.methods, ReturnsLast m.code ∧ ∀ (w : World) (x : Setting) {t : State} {d : Nat × State},
      (m.machine w x).Steps (0, t) d → d.1 < m.code.length) ∧
    (p.IsVoidFree → p.KnowsNoVoid → List.Forall₂ Method.ReturnsFor p.results unit.methods) := by
  constructor
  · have last : ∀ m ∈ unit.methods, ReturnsLast m.code ∧ m.Indexed := by
      obtain ⟨methods, rfl, hall⟩ := methods_of_toUnit hu
      refine List.forall_mem_cons.mpr
        ⟨⟨Method.returnsLast_constructor _, Method.indexed_constructor _⟩, fun m hm => ?_⟩
      obtain ⟨i, hi, rfl⟩ := List.getElem_of_mem hm
      have hd : i < p.classDecl.methods.length := hall.length_eq ▸ hi
      obtain ⟨c, code, c', hrun⟩ := hall.get hd hi
      exact ⟨MethodDecl.returnsLast_of_lower (p.check_method h (List.get_mem _ _)).2.1 hrun,
        MethodDecl.indexed_of_lower hrun⟩
    intro m hm
    obtain ⟨returns, indexed⟩ := last m hm
    exact ⟨returns, fun w x _ _ hsteps => indexed.lt_length_of_steps returns.endsWithReturn hsteps⟩
  · intro hv hk
    have lowered := toUnit_of_accepted (accepted_of_check (p := p) h fun m hm =>
      ⟨names_of_knowsNoVoid hv hk hm, allocates_of_isVoidFree hv hm⟩)
    rw [hu] at lowered
    obtain ⟨-, temps, methods, ht, htyped, rfl⟩ := lowered
    have declared := (List.forall₂_and_left _ _).mpr ⟨fun _ hd => hd, htyped⟩
    refine .cons (Method.returnsFor_constructor _) (List.forall₂_map_left_iff.mpr ?_)
    exact declared.imp fun d m hm =>
      hm.2.1.returnsFor (names_of_knowsNoVoid hv hk hm.1) ht

/-- A program with a `void` method that has no return, one that has, and a method with a result. -/
def tally : Program where
  classDecl := {
    name := "Tally"
    fields := [⟨"count", .scalar .int, {}⟩]
    methods := [
      { name := "raise", returnType := .scalar .void, params := [⟨"to", .scalar .int, {}⟩]
        body := [Build.loop (Build.binary .lt (Build.ident "count") (Build.ident "to"))
          (Build.assign "count" (Build.binary .add (Build.ident "count") (Build.int 1)))] },
      { name := "clear", returnType := .scalar .void
        body := [Build.assign "count" (Build.int 0), Build.retVoid] },
      { name := "read", returnType := .scalar .int, body := [Build.ret (Build.ident "count")] }] }

/-- All of its four methods return once. -/
theorem returns_of_check_tally : tally.check tally.symbolTable {} = [] ∧ tally.IsVoidFree ∧
    tally.KnowsNoVoid ∧ ∃ unit, tally.toUnit tally.symbolTable {} = .ok unit ∧
      unit.methods.length = 4 ∧
      (∀ m ∈ unit.methods, ReturnsLast m.code ∧
        ∀ (w : World) (x : Setting) {t : State} {d : Nat × State},
          (m.machine w x).Steps (0, t) d → d.1 < m.code.length) ∧
      List.Forall₂ Method.ReturnsFor tally.results unit.methods := by
  have accepted : tally.check tally.symbolTable {} = [] := by decide
  have voidFree : tally.IsVoidFree := ⟨by decide, by decide⟩
  have known : tally.KnowsNoVoid := ⟨by decide, fun name h => (by cases h), by decide⟩
  obtain ⟨unit, hu, hlength⟩ : ∃ unit, tally.toUnit tally.symbolTable {} = .ok unit ∧
      unit.methods.length = 4 := ⟨_, rfl, rfl⟩
  obtain ⟨last, values⟩ := returns_of_check accepted hu
  exact ⟨accepted, voidFree, known, unit, hu, hlength, last, values voidFree known⟩

/-- A class with one method, which is `void` and returns a value. -/
def returning (imports : List String) (superClass : Option String) (name : String) (value : Expr) :
    Program where
  imports := imports.map fun i => { path := [i] }
  classDecl := {
    name, superClass
    methods := [{ name := "get", returnType := .scalar .void, body := [Build.ret value] }] }

/-- A method that returns a value promises one. -/
theorem not_returnsFor_void {m : Method} {value : Operand} (h : .ret (some value) ∈ m.code) :
    ¬ m.ReturnsFor Ty.void := fun hm => by cases (hm _ h).mp rfl

/-- The program is accepted, only its results are `void`, and a return of it disagrees with what its
method promises. -/
def Misreturns (p : Program) : Prop :=
  p.check p.symbolTable {} = [] ∧ p.IsVoidFree ∧ ∃ unit, p.toUnit p.symbolTable {} = .ok unit ∧
    ¬ List.Forall₂ Method.ReturnsFor p.results unit.methods

/-- Where the class, its superclass or an import is named `void`, its objects are values that a `void`
method is accepted to return, and then the return has one. -/
theorem returns_void_objects : (returning [] none "void" Build.self).Misreturns ∧
    (returning [] (some "void") "Maker" (Build.newObject "void")).Misreturns ∧
    (returning ["void"] none "Maker" (Build.newObject "void")).Misreturns := by
  have second {ctor m : Method} {a b : Ty} (h : List.Forall₂ Method.ReturnsFor [a, b] [ctor, m]) :
      m.ReturnsFor b := (List.forall₂_cons.mp (List.forall₂_cons.mp h).2).1
  refine ⟨⟨by decide, ⟨by decide, by decide⟩, _, rfl, fun h => ?_⟩,
    ⟨by decide, ⟨by decide, by decide⟩, _, rfl, fun h => ?_⟩,
    ⟨by decide +kernel, ⟨by decide, by decide⟩, _, rfl, fun h => ?_⟩⟩
  · exact not_returnsFor_void (List.mem_singleton_self _) (second h)
  · exact not_returnsFor_void (.tail _ (.tail _ (List.mem_singleton_self _))) (second h)
  · exact not_returnsFor_void (.tail _ (.tail _ (List.mem_singleton_self _))) (second h)

end Program

end JavaMinus
