import JavaMinus.Proofs.Lowering.Executes
import JavaMinus.Proofs.Lowering.Program
import JavaMinus.Syntax.Build

/-!
# Array elements and the calls behind them

The code of a single statement makes the calls that the statement makes, on the same receivers and
with the same arguments, stores the same values and returns the same value, whatever the methods do
that are called (`Program.lower_does_of_check`). For operands and arguments nothing more is needed:
an element there is copied before a call behind it. The elements of an array literal, the receiver of
a call and the index of an assignment to an element are not guarded, so there the expressions have to
be in order (`Stmt.InOrder`); one that is not shows the difference (`Program.elements_of_pairing`).
Constructors are no calls to lowering, so in front of an allocation an element waits in operands too,
and constructors that run meanwhile have to leave the arrays as they are.
-/

namespace JavaMinus

open Tac Lower JavaMinus.Runtime

variable {w : World} {x : Setting} {p : Program} {policy : Policy}

namespace Program

/-- **The code of a single statement** of an accepted program does what the statement does, whatever
the methods do that it calls, if its expressions are in order. Of constructors only those are asked
to leave the arrays as they are that run while an array element waits to be read. -/
theorem lower_does_of_check (h : p.check p.symbolTable policy = []) {m : MethodDecl}
    (hm : m ∈ p.classDecl.methods) {stmt : Stmt} (hin : stmt ∈ Stmt.nodesAll m.body)
    (hs : stmt.isSimple = true) (ho : stmt.InOrder (p.scopeOf policy m))
    (hn : ∀ className ∈ stmt.lateNews, w.ConstructorKeepsArrays (x.names.qualify className))
    (hx : x.returnTy = (p.scopeOf policy m).returnType)
    {M : Machine Instr State} (hM : M.act = Instr.act w x) (rounds : Nat) :
    (stmt.lower (p.scopeOf policy m)).Does M fun σ =>
      stmt.exec w x (p.scopeOf policy m) rounds σ :=
  Stmt.lower_does_of_isSimple p.varargsAreArrays hM hx rounds hs
    (Scope.checkStmts_of_mem_nodesAll m.body (p.check_method h hm).2.2 stmt hin) ⟨ho, hn⟩

/-- The first element of an array, and a call that assigns to it. -/
def element : Expr := Build.index (Build.ident "a") (Build.int 0)
def overwrite : Expr := Build.selfCall "clear" [Build.ident "a"]

/-- A method of the array and of an array of objects. -/
def onArray (name : String) (returnType : TypeRef) (body : List Stmt) : MethodDecl where
  name
  returnType
  params := [Build.var "a" (.array .int), Build.var "rows" (.array (.named "Row"))]
  body

/-- An element is read in front of the call as an operand, and one in front of an allocation. -/
def comparison : Stmt :=
  Build.ret (Build.binary .eq (Build.binary .lt element overwrite)
    (Build.binary .ne (Build.index (Build.ident "rows") (Build.int 0)) (Build.newObject "Row")))

def comparing : MethodDecl := onArray "compare" (.scalar .boolean) [comparison]

/-- The element is read in front of the call as an element of a literal. -/
def pairing : MethodDecl :=
  onArray "pair" (.array .int) [Build.ret (Build.arrayLit [element, overwrite])]

def readers : Program where
  classDecl := {
    name := "Row"
    methods := [
      { name := "clear", returnType := .scalar .int, params := [Build.var "a" (.array .int)]
        body := [Build.assignElement "a" (Build.int 0) (Build.int 7), Build.ret (Build.int 1)] },
      comparing, pairing] }

/-- Calls assign 7 to the element at the first address, and return 1. Constructors allocate. -/
def overwriting : World where
  takes _ _ _ := true
  calls call h :=
    if call.kind = .special then some (none, (h.newObject "Log").2)
    else some (some (.int 1), h.set 0 (.array ⟨.int, "int", [.int 7]⟩))

/-- A method of the class knows this. -/
def readerSetting (m : MethodDecl) : Setting where
  names := (readers.unitOf []).classNames
  superClass := Jvm.defaultRootClass
  returnTy := (readers.scopeOf {} m).returnType

/-- An array with one element, zero, an object of the class, and an array with the object in it. -/
def readerState : State where
  vars := Function.update (Function.update (fun _ => none) (.var "a") (some (.ref (some 0))))
    (.var "rows") (some (.ref (some 2)))
  self := some 1
  memory := { heap := ⟨[.array ⟨.int, "int", [.int 0]⟩, .object "Row" FieldKey.initial,
    .array ⟨.ref, "Row", [.ref (some 1)]⟩]⟩ }

/-- Code without labels in a method of the class. -/
def readerMachine (m : MethodDecl) (code : List Instr) : Machine Instr State :=
  ⟨code, fun _ => none, Instr.act overwriting (readerSetting m)⟩

/-- The operand is the zero that was there before the call, and the other one is the object that was
there before the allocation. -/
theorem lower_does_of_check_comparing : readers.check readers.symbolTable {} = [] ∧
    comparison.lateNews = ["Row"] ∧
    ∃ code c t', (comparison.lower (readers.scopeOf {} comparing)).run {} = .done () code c ∧
      (readerMachine comparing code).RunsTo (0, readerState) (some (.ofBool true)) t' := by
  have accepted : readers.check readers.symbolTable {} = [] := by decide
  have keeps (owner : String) : overwriting.ConstructorKeepsArrays owner := by
    intro call h h' result hkind _ hcall
    simp only [overwriting, hkind, if_true] at hcall
    cases hcall
    exact h.keeps_allocate _
  obtain ⟨code, c, lowered⟩ : ∃ code c,
      (comparison.lower (readers.scopeOf {} comparing)).run {} = .done () code c := ⟨_, _, rfl⟩
  have ordered : comparison.InOrder (readers.scopeOf {} comparing) := by decide
  have hdoes := lower_does_of_check accepted (m := comparing) (by simp [readers]) List.mem_cons_self
    rfl ordered (fun _ _ => keeps _) (x := readerSetting comparing) rfl
    (M := readerMachine comparing code) rfl 0
  obtain ⟨t', -, hrun⟩ := hdoes {} _ [] _ readerState _ _ lowered List.prefix_rfl rfl
  exact ⟨accepted, rfl, code, c, t', lowered, hrun⟩

/-- The code of the literal reads the element when it is stored. -/
def pairingCode : List Instr := [
  .call (some (.temp 0 Ty.int)) .virtual (.self (Ty.scalar "Row")) "clear" [.var "a" Ty.intArray] Ty.int,
  .newArray (.temp 1 Ty.intArray) (.int 2) Ty.int,
  .arrayStore (.temp 1 Ty.intArray) (.int 0) (.element (.var "a" Ty.intArray) (.int 0) Ty.int),
  .arrayStore (.temp 1 Ty.intArray) (.int 1) (.temp 0 Ty.int),
  .ret (some (.temp 1 Ty.intArray))]

/-- The element of the literal is the seven that the call behind it has written. -/
theorem elements_of_pairing : readers.check readers.symbolTable {} = [] ∧
    ∃ c σ t', (Stmt.lower (readers.scopeOf {} pairing)
        (Build.ret (Build.arrayLit [element, overwrite]))).run {} = .done () pairingCode c ∧
      Stmt.exec overwriting (readerSetting pairing) (readers.scopeOf {} pairing) 0
          (Build.ret (Build.arrayLit [element, overwrite])) readerState.source =
        some (.returned (some (.ref (some 3))), σ) ∧
      (σ.memory.heap.array? (.ref (some 3))).map (fun (_, e) => e.values) = some [.int 0, .int 1] ∧
      (readerMachine pairing pairingCode).RunsTo (0, readerState) (some (.ref (some 3))) t' ∧
      (t'.memory.heap.array? (.ref (some 3))).map (fun (_, e) => e.values) =
        some [.int 7, .int 1] := by
  have accepted : readers.check readers.symbolTable {} = [] := by decide
  obtain ⟨t', stores, result, values⟩ : ∃ t',
      Machine.runAll (readerMachine pairing pairingCode).act pairingCode.dropLast readerState = some t' ∧
      t'.eval (.temp 1 Ty.intArray) = some (.ref (some 3)) ∧
      (t'.memory.heap.array? (.ref (some 3))).map (fun (_, e) => e.values) =
        some [.int 7, .int 1] := ⟨_, rfl, rfl, rfl⟩
  have returns : (readerMachine pairing pairingCode).act (.ret (some (.temp 1 Ty.intArray))) t' =
      some (.ret (some (.ref (some 3))) t') := by
    simp only [readerMachine, Instr.act, result, Option.bind_eq_bind, Option.bind_some]
    rfl
  have code : (readerMachine pairing pairingCode).code =
      [] ++ (pairingCode.dropLast ++ [.ret (some (.temp 1 Ty.intArray))]) ++ [] := rfl
  exact ⟨accepted, _, _, t', rfl, rfl, rfl, Machine.does_of_runAll code stores returns, values⟩

end Program

end JavaMinus
