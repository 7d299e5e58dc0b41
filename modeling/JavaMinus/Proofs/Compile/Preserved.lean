import Mathlib.Data.List.Forall2
import JavaMinus.Proofs.Lowering.Executes
import JavaMinus.Proofs.Lowering.Program
import JavaMinus.Syntax.Build

/-!
# Lowered methods do what their bodies say

Where the body of a method ends without an exception, its code, started at the first instruction on
the same variables, receiver and memory, returns the same value and leaves the same variables and
memory (`MethodDecl.runsTo_of_lower`). This needs that array elements are read in order. In a body
without method calls no call comes in between, and what may come in between is a constructor: lowering
takes an allocation for no call, so an element in front of it is read behind it, and is another one if
the constructor writes it (`Program.runs_of_first_differ`). Where the constructors that run while an
element waits leave the arrays as they are, the body and its code agree (`Program.runsTo_of_toUnit`).

A body that does not return falls into the return that closes the code. Where the code is not closed
so, its last instruction is a return already, and control cannot fall out of it.
-/

namespace JavaMinus

open Tac Lower JavaMinus.Runtime

variable {w : World} {x : Setting} {p : Program} {policy : Policy}

namespace Tac.Method

variable {m : Method}

/-- A label map that is right says where each label stands, if none stands twice. -/
theorem Indexed.placed_machine (hi : m.Indexed) (once : (labelsOf m.code).Nodup) :
    Placed (m.machine w x) := by
  rintro before name ⟨after, hcode⟩
  refine (hi.labelIndex?_eq_some once).mpr ?_
  show (m.machine w x).code[before.length]? = _
  rw [← hcode, List.append_assoc, List.getElem?_append_right (Nat.le_refl _)]
  simp

/-- No run of code that ends with a return comes behind it. -/
theorem Indexed.lt_length_of_steps (indexed : m.Indexed) (h : m.endsWithReturn = true) {t : State} {d : Nat × State}
    (hs : (m.machine w x).Steps (0, t) d) : d.1 < m.code.length := by
  obtain ⟨i, hlast, hi⟩ : ∃ i, m.code.getLast? = some i ∧ i.isReturn = true := by
    rwa [endsWithReturn, Option.any_eq_true] at h
  refine Machine.lt_length_of_steps (m := m.machine w x) hlast (fun s s' hact => ?_) (fun _ _ hk => ?_)
    ?_ hs
  · cases i with
    | ret value =>
      cases value with
      | none => cases hact
      | some o =>
        simp only [machine, Instr.act, Option.bind_eq_bind, Option.bind_eq_some_iff] at hact
        obtain ⟨v, -, hact⟩ := hact
        split at hact <;> cases hact
    | _ => cases hi
  · exact (List.getElem?_eq_some_iff.mp (indexed.labelIndex?_placed hk)).1
  · exact List.length_pos_of_mem (List.mem_of_getLast? hlast)

end Tac.Method

namespace MethodDecl

/-- No expression in the body of the method contains a method call. -/
def IsCallFree (m : MethodDecl) : Prop :=
  ∀ stmt ∈ Stmt.nodesAll m.body, ∀ e ∈ stmt.expressions, e.containsCall = false

instance (m : MethodDecl) : Decidable m.IsCallFree :=
  inferInstanceAs (Decidable (∀ stmt ∈ Stmt.nodesAll m.body, ∀ e ∈ stmt.expressions, _ = _))

/-- The classes of the objects that the method allocates while an array element waits to be read. -/
def lateNews (m : MethodDecl) : List String := Stmt.lateNewsAll m.body

/-- The statements of a method without calls are in order, if the constructors that run while an
element waits leave the arrays as they are. -/
theorem IsCallFree.ordered {d : MethodDecl} (hd : d.IsCallFree) {s : Scope}
    (hn : ∀ className ∈ d.lateNews, w.ConstructorKeepsArrays (x.names.qualify className)) :
    ∀ stmt ∈ d.body, stmt.Ordered w x s := fun stmt hs => {
  calls := fun inner hi => Stmt.inOrderAll_of_not_containsCall hd inner (Stmt.mem_nodesAll hs hi)
  news := fun className hc => by
    obtain ⟨inner, hi, hc⟩ := List.mem_flatMap.mp hc
    exact hn className (List.mem_flatMap.mpr ⟨inner, Stmt.mem_nodesAll hs hi, hc⟩) }

/-- **The code of a method does what its body says**, if the statements of the body are in order. -/
theorem runsTo_of_lower {d : MethodDecl} {table : SymbolTable} {signature : Signature}
    (hva : table.VarargsAreArrays) (hc : Scope.checkStmts ⟨table, signature, policy⟩ d.body = [])
    (ho : ∀ stmt ∈ d.body, stmt.Ordered w x ⟨table, signature, policy⟩) {c c' : Counters}
    {m : Method} {code : List Instr} (hl : (d.lower table policy signature).run c = .done m code c')
    (hx : x.returnTy = m.returnTy) {rounds : Nat} {t : State} {o : Source.Outcome}
    {σ : Source.State}
    (h : Stmt.execAll w x ⟨table, signature, policy⟩ rounds d.body t.source = some (o, σ)) :
    ∃ t', t'.source = σ ∧ (m.machine w x).RunsTo (0, t) o.value t' := by
  obtain ⟨body, closing, hbody, hm, hclosing⟩ := lower_eq_done hl
  have hcode : m.code = body ++ closing := by rw [hm, Scope.code_extend]
  have hresult : x.returnTy = Scope.returnType ⟨table, signature, policy⟩ := by
    rw [hx, hm, Method.extend_returnTy]
    rfl
  have indexed := indexed_of_lower hl
  -- no label stands in what closes the code
  have once : (labelsOf m.code).Nodup := by
    have hnone : labelsOf closing = [] := by
      rcases hclosing with ⟨rfl, -⟩ | ⟨rfl, -⟩ <;> rfl
    rw [hcode, labelsOf_append, hnone, List.append_nil]
    exact Stmt.labels_nodup_of_lowerAll hbody
  have hprefix : [] ++ body <+: (m.machine w x).code := ⟨closing, hcode.symm⟩
  obtain ⟨t', hσ, hdoes⟩ := Stmt.lowerAll_does hva rfl (indexed.placed_machine once) hresult rounds
    d.body hc ho c c' [] body t o σ hbody hprefix h
  refine ⟨t', hσ, ?_⟩
  cases o with
  | returned v => exact hdoes
  | normal =>
    rcases hclosing with ⟨rfl, hlast⟩ | ⟨rfl, -⟩
    · rw [List.append_nil] at hcode
      rw [← hcode] at hlast
      rw [← hcode] at hdoes
      exact absurd (indexed.lt_length_of_steps hlast hdoes) (Nat.lt_irrefl _)
    · have here : m.code[body.length]? = some (.ret none) := by simp [hcode]
      exact ⟨_, hdoes, .intro here rfl⟩

end MethodDecl

namespace Program

/-- **Lowering keeps what methods without calls do.** Where the body of such a method of an accepted
program ends, the code that it is lowered to, run from its first instruction on the same variables,
receiver and memory, returns the same value and leaves the same variables and memory. The constructors
that run while an array element waits to be read leave the arrays as they are; the others, and all of
them if none does, may do what they like. -/
theorem runsTo_of_toUnit (h : p.check p.symbolTable policy = []) {unit : ClassUnit}
    (hu : p.toUnit p.symbolTable policy = .ok unit) :
    ∃ methods, unit = p.unitOf methods ∧ List.Forall₂ (fun d m => d.IsCallFree →
      (∀ className ∈ d.lateNews, w.ConstructorKeepsArrays (unit.classNames.qualify className)) →
      ∀ (root : String) (rounds : Nat) (t : State) (o : Source.Outcome) (σ : Source.State),
        Stmt.execAll w (unit.setting root m) (p.scopeOf policy d) rounds d.body t.source =
          some (o, σ) →
        ∃ t', t'.source = σ ∧ (m.machine w (unit.setting root m)).RunsTo (0, t) o.value t')
      p.classDecl.methods methods := by
  obtain ⟨methods, hunit, hall⟩ := methods_of_toUnit hu
  refine ⟨methods, hunit, List.forall₂_iff_get.mpr ⟨hall.length_eq, fun i hi hi' => ?_⟩⟩
  obtain ⟨c, code, c', hl⟩ := hall.get hi hi'
  intro hfree hn root rounds t o σ hexec
  exact MethodDecl.runsTo_of_lower p.varargsAreArrays (p.check_method h (List.get_mem _ _)).2.2
    (hfree.ordered hn) hl rfl hexec

/-- The element of a row at the index. -/
def place : Expr := Build.index (Build.ident "row") (Build.ident "i")

/-- A method that puts a new part into every place of a row where there is another one, and counts
the places. -/
def renewing : MethodDecl where
  name := "renew"
  returnType := .scalar .int
  params := [Build.var "row" (.array (.named "Part"))]
  locals := [Build.var "i" (.scalar .int), Build.var "count" (.scalar .int)]
  body := [
    Build.assign "i" (Build.int 0),
    Build.assign "count" (Build.int 0),
    Build.loop (Build.binary .lt (Build.ident "i") (Build.length (Build.ident "row"))) (Build.block [
      Build.branch (Build.binary .ne place (Build.newObject "Part"))
        (Build.block [
          Build.assignElement "row" (Build.ident "i") (Build.newObject "Part"),
          Build.assign "count" (Build.binary .add (Build.ident "count") (Build.int 1))])
        (Build.block []),
      Build.assign "i" (Build.binary .add (Build.ident "i") (Build.int 1))]),
    Build.ret (Build.ident "count")]

/-- A method that compares the first part of a row with a new one. -/
def first : MethodDecl where
  name := "first"
  returnType := .scalar .boolean
  params := [Build.var "row" (.array (.named "Part"))]
  body := [Build.ret
    (Build.binary .eq (Build.index (Build.ident "row") (Build.int 0)) (Build.newObject "Part"))]

/-- A class with both methods. The class of the parts is imported. -/
def shelf : Program where
  imports := [{ path := ["Part"] }]
  classDecl := { name := "Shelf", methods := [first, renewing] }

/-- A state in front of a method, with a row of two places. -/
def shelfState : State where
  vars := Function.update (fun _ => none) (.var "row") (some (.ref (some 0)))
  memory := { heap := ⟨[.array ⟨.ref, "Part", [.ref none, .ref none]⟩]⟩ }

/-- Classes whose constructors make another object beside the one that they are called on. -/
def doubling : World where
  takes _ _ _ := true
  calls _ h := some (none, (h.newObject "Part").2)

/-- Two places are filled with new parts, each behind one that is compared and one that its
constructor made. -/
theorem runsTo_of_toUnit_renewing : shelf.check shelf.symbolTable {} = [] ∧ renewing.IsCallFree ∧
    renewing.lateNews = ["Part"] ∧ (∀ owner, doubling.ConstructorKeepsArrays owner) ∧
    ∃ unit m t', shelf.toUnit shelf.symbolTable {} = .ok unit ∧ unit.methods[2]? = some m ∧
      t'.memory.heap.cells[0]? = some (.array ⟨.ref, "Part", [.ref (some 3), .ref (some 7)]⟩) ∧
      (m.machine doubling (unit.setting Jvm.defaultRootClass m)).RunsTo (0, shelfState)
        (some (.int 2)) t' := by
  have accepted : shelf.check shelf.symbolTable {} = [] := by decide +kernel
  have free : renewing.IsCallFree := by decide
  have keeps (owner : String) : doubling.ConstructorKeepsArrays owner := by
    rintro call h _ _ - - ⟨⟩
    exact h.keeps_allocate _
  obtain ⟨unit, lowered⟩ : ∃ unit, shelf.toUnit shelf.symbolTable {} = .ok unit := ⟨_, rfl⟩
  obtain ⟨methods, hunit, hall⟩ := runsTo_of_toUnit accepted lowered (w := doubling)
  obtain _ | ⟨-, _ | @⟨_, m, _, _, hm, -⟩⟩ := hall
  obtain ⟨t', hσ, hrun⟩ := hm free (fun _ _ => keeps _) Jvm.defaultRootClass 5 shelfState _ _ rfl
  refine ⟨accepted, free, rfl, keeps, unit, m, t', lowered, by rw [hunit]; rfl, ?_, hrun⟩
  exact congrArg (fun σ => σ.memory.heap.cells[0]?) hσ

/-- Classes whose constructors put the object that they are called on into both places of a row. -/
def placing : World where
  takes _ _ _ := true
  calls call h :=
    some (none, h.set 0 (.array ⟨.ref, "Part", [.ref call.receiver, .ref call.receiver]⟩))

/-- The code of the comparison reads the element behind the allocation. -/
def firstCode : List Instr := [
  .newObject (.temp 0 (Ty.scalar "Part")) "Part",
  .call none .constructor (.temp 0 (Ty.scalar "Part")) constructorName [] Ty.void,
  .binary (.temp 1 Ty.boolean) .eq
    (.element (.var "row" (Ty.array "Part")) (.int 0) (Ty.scalar "Part")) (.temp 0 (Ty.scalar "Part")),
  .ret (some (.temp 1 Ty.boolean))]

/-- The method knows this. -/
def firstSetting : Setting where
  names := (shelf.unitOf []).classNames
  superClass := Jvm.defaultRootClass
  returnTy := Ty.boolean

/-- The constructor has written the element when it is read: the source compares an empty place with the
new part, and the code compares the part with itself. -/
theorem runs_of_first_differ : shelf.check shelf.symbolTable {} = [] ∧ first.IsCallFree ∧
    ∃ unit m, shelf.toUnit shelf.symbolTable {} = .ok unit ∧ unit.methods[1]? = some m ∧
      (∃ σ, Stmt.execAll placing (unit.setting Jvm.defaultRootClass m) (shelf.scopeOf {} first) 0
        first.body shelfState.source = some (.returned (some (.ofBool false)), σ)) ∧
      (∃ t', (m.machine placing (unit.setting Jvm.defaultRootClass m)).RunsTo (0, shelfState)
        (some (.ofBool true)) t') ∧
      ¬ ∃ t', (m.machine placing (unit.setting Jvm.defaultRootClass m)).RunsTo (0, shelfState)
        (some (.ofBool false)) t' := by
  have accepted : shelf.check shelf.symbolTable {} = [] := by decide +kernel
  have free : first.IsCallFree := by decide
  obtain ⟨unit, m, lowered, hm, hcode, hx⟩ : ∃ unit m, shelf.toUnit shelf.symbolTable {} = .ok unit ∧
      unit.methods[1]? = some m ∧ m.code = firstCode ∧
      unit.setting Jvm.defaultRootClass m = firstSetting := ⟨_, _, rfl, rfl, rfl, rfl⟩
  obtain ⟨t', runs⟩ : ∃ t', (m.machine placing firstSetting).RunsTo (0, shelfState)
      (some (.ofBool true)) t' := by
    obtain ⟨t', steps, result⟩ : ∃ t',
        Machine.runAll (Instr.act placing firstSetting) firstCode.dropLast shelfState = some t' ∧
        t'.eval (.temp 1 Ty.boolean) = some (.ofBool true) := ⟨_, rfl, rfl⟩
    have returns : Instr.act placing firstSetting (.ret (some (.temp 1 Ty.boolean))) t' =
        some (.ret (some (.ofBool true)) t') := by
      simp only [Instr.act, result, Option.bind_eq_bind, Option.bind_some]
      rfl
    have cut : (m.machine placing firstSetting).code =
        [] ++ (firstCode.dropLast ++ [.ret (some (.temp 1 Ty.boolean))]) ++ [] := hcode
    exact ⟨t', Machine.does_of_runAll cut steps returns⟩
  refine ⟨accepted, free, unit, m, lowered, hm, ?_, ?_, ?_⟩
  · rw [hx]
    exact ⟨_, rfl⟩
  · rw [hx]
    exact ⟨t', runs⟩
  · rw [hx]
    rintro ⟨u, other⟩
    have := (runs.unique other).1
    revert this
    decide

end Program

end JavaMinus
