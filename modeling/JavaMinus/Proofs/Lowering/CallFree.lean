import JavaMinus.Proofs.Lowering.Spared
import JavaMinus.Proofs.Typing.ReadOrder
import JavaMinus.Binding
import JavaMinus.Syntax.Build

/-!
# Expressions without calls

Lowering delays the read of an array element past the code of another expression when no call stands in
that expression (`Expr.containsCall`). The code of such an expression is without calls
(`Tac.CallFree`), and an expression with a call in it calls a method (`Expr.run_of_containsCall`).
`Lower.Calls` is the judgment that follows the recursion of `containsCall` through lowering.

The guard looks at calls alone. An allocation runs a constructor, and that may change what was there:
`Expr.run_of_not_containsCall_changes` allocates an object whose constructor writes a field.
-/

namespace JavaMinus

open Tac Lower
open JavaMinus.Runtime

namespace Lower

/-- Where `calls` holds the computation writes a method call, and where not, code without any that
allocates objects of the given classes. -/
def Calls {α : Type} (calls : Bool) (classes : List String) (x : Lower α) : Prop :=
  ∀ c a code c', x.run c = .done a code c' →
    (calls = false → CallFree classes c.temps code c'.temps) ∧
      (calls = true → ∃ i ∈ code, i.isMethodCall = true)

variable {α β : Type} {b b' : Bool} {classes more : List String} {x : Lower α} {f : α → Lower β}

/-- A sequence calls a method where one of its parts does. -/
theorem Calls.bind (hx : x.Calls b classes) (hf : ∀ a, (f a).Calls b' more) :
    (x >>= f).Calls (b || b') (classes ++ more) := by
  intro c a code c' h
  obtain ⟨v, code₁, c₁, code₂, h₁, h₂, rfl⟩ := run_bind_eq_done.mp h
  obtain ⟨free₁, calls₁⟩ := hx _ _ _ _ h₁
  obtain ⟨free₂, calls₂⟩ := hf v _ _ _ _ h₂
  refine ⟨fun hnot => ?_, fun hcalls => ?_⟩
  · obtain ⟨hb, hb'⟩ := Bool.or_eq_false_iff.mp hnot
    exact .append (free₁ hb) (free₂ hb')
  · rcases Bool.or_eq_true_iff.mp hcalls with hb | hb'
    · obtain ⟨i, hi, hcall⟩ := calls₁ hb
      exact ⟨i, List.mem_append_left _ hi, hcall⟩
    · obtain ⟨i, hi, hcall⟩ := calls₂ hb'
      exact ⟨i, List.mem_append_right _ hi, hcall⟩

/-- What comes last calls a method, whatever comes before it. -/
theorem calls_last (hf : ∀ a, (f a).Calls true classes) : (x >>= f).Calls true classes := by
  intro c a code c' h
  obtain ⟨v, code₁, c₁, code₂, h₁, h₂, rfl⟩ := run_bind_eq_done.mp h
  obtain ⟨i, hi, hcall⟩ := (hf v _ _ _ _ h₂).2 rfl
  exact ⟨nofun, fun _ => ⟨i, List.mem_append_right _ hi, hcall⟩⟩

theorem Calls.thenQuiet (hx : x.Calls b classes) (hf : ∀ a, (f a).Calls false []) :
    (x >>= f).Calls b classes :=
  Bool.or_false b ▸ List.append_nil classes ▸ hx.bind hf

theorem Calls.afterQuiet (hx : x.Calls false []) (hf : ∀ a, (f a).Calls b classes) :
    (x >>= f).Calls b classes :=
  Bool.false_or b ▸ hx.bind hf

theorem calls_pure (a : α) : (pure a : Lower α).Calls false [] := by
  intro c v code c' h
  cases h
  exact ⟨fun _ => .nil _, nofun⟩

theorem calls_fail (e : LoweringError) : (fail e : Lower α).Calls b classes := by
  intro c a code c' h
  cases h

theorem calls_ofTyping (o : Except TypeError α) : (ofTyping o).Calls false [] := by
  cases o with
  | ok a => exact calls_pure a
  | error e => exact calls_fail _

theorem calls_ofOption (e : LoweringError) (o : Option α) : (ofOption e o).Calls false [] := by
  cases o with
  | some a => exact calls_pure a
  | none => exact calls_fail e

theorem calls_intoFresh {ty : Ty} {i : Operand → Instr} (dest : ∀ d, (i d).dest? = some d)
    (computes : ∀ d, (i d).computes = true) : (intoFresh ty i).Calls false [] := by
  intro c a code c' h
  cases h
  exact ⟨fun _ => .compute (dest _) (computes _), nofun⟩

theorem calls_readVariable (s : Scope) (name : String) : (readVariable s name).Calls false [] := by
  unfold readVariable
  refine (calls_ofOption _ _).afterQuiet fun v => ?_
  split
  · exact calls_intoFresh (fun _ => rfl) fun _ => rfl
  · exact calls_pure _

/-- Storing values into an array is stores into that array. -/
theorem stores_of_storeAll {array : Operand} : ∀ {values : List Operand} {index : Nat}
    {c c' : Counters} {code : List Instr}, (storeAll array index values).run c = .done () code c' →
      c' = c ∧ ∀ i ∈ code, ∃ index value, i = .arrayStore array index value
  | [], _, _, _, _, h => by
    cases h
    exact ⟨rfl, List.forall_mem_nil _⟩
  | value :: rest, index, _, _, _, h => by
    obtain ⟨_, _, _, _, hfirst, hrest, rfl⟩ := run_bind_eq_done.mp h
    cases hfirst
    obtain ⟨rfl, hstores⟩ := stores_of_storeAll hrest
    exact ⟨rfl, List.forall_mem_cons.mpr ⟨⟨_, value, rfl⟩, hstores⟩⟩

theorem calls_packArray (element : Ty) (values : List Operand) :
    (packArray element values).Calls false [] := by
  have packs : (do
      let array ← intoFresh (Ty.array element.name) fun dest =>
        .newArray dest (.int (Int32.ofNat values.length)) element
      storeAll array 0 values
      return array : Lower Operand).Calls false [] := by
    intro c a code c' h
    obtain ⟨_, _, _, _, hnew, hrest, rfl⟩ := run_bind_eq_done.mp h
    cases hnew
    obtain ⟨_, stores, _, _, hstore, hdone, rfl⟩ := run_bind_eq_done.mp hrest
    cases hdone
    obtain ⟨rfl, own⟩ := stores_of_storeAll hstore
    rw [← List.append_nil stores] at own
    exact ⟨fun _ => .pack own, nofun⟩
  unfold packArray
  split
  · exact (calls_fail _).afterQuiet fun _ => packs
  · exact packs

theorem calls_settleBefore (operand : Operand) (next : Expr) :
    (settleBefore operand next).Calls false [] := by
  unfold settleBefore
  split
  · exact calls_intoFresh (fun _ => rfl) fun _ => rfl
  · exact calls_pure _

theorem calls_elementAt (site : Site) (array index : Operand) :
    (elementAt site array index).Calls false [] := by
  unfold elementAt
  refine (calls_ofOption _ _).afterQuiet fun ty => ?_
  dsimp only
  split
  · exact calls_intoFresh (fun _ => rfl) fun _ => rfl
  · exact calls_pure _

theorem calls_allocate (className : String) : (allocate className).Calls false [className] := by
  intro c a code c' h
  cases h
  exact ⟨fun _ => .allocate _ _ className, nofun⟩

theorem calls_pair {s : Scope} {op : BinaryOp} {left right : Expr}
    {lowerLeft lowerRight : Site → Lower Operand} (hl : ∀ site, (lowerLeft site).Calls b classes)
    (hr : ∀ site, (lowerRight site).Calls b' more) :
    (pair s op left right lowerLeft lowerRight).Calls (b || b') (classes ++ more) := by
  unfold pair
  refine (calls_ofTyping _).afterQuiet fun sites => ?_
  refine (hl _).bind fun l => ?_
  exact (calls_settleBefore l right).afterQuiet fun l => (hr _).thenQuiet fun r => calls_pure _

/-- The call comes last, behind the code of its receiver and its arguments. -/
theorem calls_callCode {s : Scope} {site : Site} {method : String}
    {target : Except TypeError CallTarget} {object : Lower Operand}
    {args : (Nat → Site) → Lower (List Operand)} :
    (callCode s site method target object args).Calls true classes := by
  have emits (d : Option Operand) (target : CallTarget) (on : Operand) (values : List Operand)
      (ty : Ty) : (emit (.call d (callKind target) on method values ty)).Calls true classes := by
    intro c a code c' h
    cases h
    refine ⟨nofun, fun _ => ⟨_, List.mem_cons_self, ?_⟩⟩
    unfold callKind
    split <;> rfl
  have invokes (target : CallTarget) (on : Operand) (values : List Operand) :
      (invoke site method target on values).Calls true classes := by
    unfold invoke
    split
    · exact calls_last fun _ => (emits _ target on values _).thenQuiet fun _ => calls_pure _
    · exact (emits _ target on values _).thenQuiet fun _ => calls_pure _
  rw [callCode_eq]
  exact calls_last fun target => calls_last fun on => calls_last fun _ => calls_last fun passed =>
    invokes target on passed

end Lower

mutual
/-- The code of an expression calls a method exactly if a call stands in the expression. If none does, it
allocates the objects that the expression does. -/
theorem Expr.lower_calls (s : Scope) : ∀ (e : Expr) (site : Site),
    (e.lower s site).Calls e.containsCall e.news
  | .intLit .., _ => calls_pure _
  | .boolLit .., _ => calls_pure _
  | .ident name _, _ => calls_readVariable s name
  | .self _, _ => calls_pure _
  | .binary op left right _, _ => by
    rw [containsCall, news_binary]
    exact (calls_pair (fun site => lower_calls s left site) fun site =>
      lower_calls s right site).thenQuiet fun _ => calls_intoFresh (fun _ => rfl) fun _ => rfl
  | .not operand _, _ => by
    rw [containsCall, news_not]
    exact (lower_calls s operand _).thenQuiet fun _ => calls_intoFresh (fun _ => rfl) fun _ => rfl
  | .arrayLit elements _, _ => by
    rw [containsCall, news_arrayLit]
    refine (calls_ofTyping _).afterQuiet fun ty => (calls_ofOption _ _).afterQuiet fun element => ?_
    exact (lowerAll_calls s elements _ 0).thenQuiet fun values => calls_packArray element values
  | .index array place _, site => by
    rw [containsCall, news_index]
    exact (lower_calls s array _).bind fun a => (lower_calls s place _).thenQuiet fun i =>
      calls_elementAt site a i
  | .newArray _ length _, _ => by
    rw [containsCall, news_newArray]
    exact (lower_calls s length _).thenQuiet fun _ => calls_intoFresh (fun _ => rfl) fun _ => rfl
  | .newObject className _, _ => by
    rw [containsCall, news_newObject]
    exact calls_allocate className
  | .member object property _, _ => by
    rw [containsCall, news_member]
    unfold lower
    split
    · exact calls_fail _
    · exact (lower_calls s object _).thenQuiet fun _ => calls_intoFresh (fun _ => rfl) fun _ => rfl
  | .call .., _ => calls_callCode.thenQuiet fun _ => calls_ofOption _ _
  | .paren inner _, site => by
    rw [containsCall, news_paren]
    exact lower_calls s inner site
/-- So does the code of expressions one after another. -/
theorem Expr.lowerAll_calls (s : Scope) : ∀ (es : List Expr) (sites : Nat → Site) (i : Nat),
    (Expr.lowerAll s sites i es).Calls (Expr.anyContainsCall es) (es.flatMap news)
  | [], _, _ => calls_pure _
  | e :: es, sites, i => by
    rw [anyContainsCall, List.flatMap_cons]
    exact (lower_calls s e _).bind fun _ =>
      (lowerAll_calls s es sites (i + 1)).thenQuiet fun _ => calls_pure _
end

/-- **What stands in an expression decides what its code does.** Where no call stands in it, control runs
straight through its code, which writes no field, calls nothing but the constructors of the objects that
the expression allocates, each directly behind the allocation, and stores into no array but one that it
has allocated itself. So, however far it is run, the variables and the receiver are as they were, and so
is every object and array that these constructors leave as it is, which is all that was there if the
expression allocates no object. Where a call stands in it, its code calls a method. The expression need
not be accepted. -/
theorem Expr.run_of_containsCall {s : Scope} {site : Site} {e : Expr} {c c' : Counters} {o : Operand}
    {code : List Instr} (h : (e.lower s site).run c = .done o code c') :
    (e.containsCall = false →
      (∀ i ∈ code, i.isStraight = true ∧ ∀ object name ty value, i ≠ .fieldWrite object name ty value) ∧
      CallsConstructorsOnly code ∧ code.filterMap Instr.newClass? = e.news ∧
      StoresIntoOwnArrays c.temps code ∧
      ∀ (w : World) (x : Setting) (t t' : State) (ran : List Instr), ran <+: code →
        Machine.runAll (Instr.act w x) ran t = some t' →
          State.Keeps c.temps (fun a => e.news = [] ∨ CallsSpare w x a ran t) t t') ∧
    (e.containsCall = true → ∃ i ∈ code, i.isMethodCall = true) := by
  obtain ⟨free, calls⟩ := e.lower_calls s site c o code c' h
  refine ⟨fun hnot => ?_, calls⟩
  have free := free hnot
  refine ⟨fun i hi => ⟨Instr.isStraight_of_isQuiet (free.isQuiet i hi), ?_⟩,
    free.callsConstructorsOnly, free.filterMap_newClass?, free.storesIntoOwnArrays,
    fun w x t t' ran hp hr => (free.run_keeps hp hr).mono fun a hspared => ?_⟩
  · rintro object name ty value rfl
    exact free.ne_fieldWrite object name ty value hi
  · refine hspared.elim (fun hnone => ?_) id
    rw [hnone] at free
    exact callsSpare_of_forall t fun i hi => free.isCall_eq_false i (hp.subset hi)

/-- A class with a field, a method that reads it, and a method that takes a number. -/
def gauge : Program where
  imports := [{ path := ["Meter"] }]
  classDecl := {
    name := "Gauge"
    fields := [⟨"level", .scalar .int, {}⟩]
    methods := [
      { name := "read"
        returnType := .scalar .int
        body := [Build.ret (Build.ident "level")] },
      { name := "fill"
        returnType := .scalar .int
        params := [⟨"n", .scalar .int, {}⟩]
        body := [Build.ret (Build.int 0)] }] }

/-- The scope of the second method. -/
def gaugeScope : Scope where
  table := gauge.symbolTable
  method := { name := "fill", returnType := Ty.int, parameters := [⟨"n", Ty.int⟩] }

/-- The methods know this of the class. -/
def gaugeSetting : Setting := ⟨⟨"Gauge", ["Meter"]⟩, "java/lang/Object", Ty.int⟩

/-- A gauge with a level of 3 and a meter, in a call with the number 5. -/
def gaugeState : State where
  vars := fun key => if key = .var "n" then some (.int 5) else none
  self := some 0
  memory := { heap := ⟨[.object "Gauge" fun _ => .int 3, .object "Meter" fun _ => .int 3]⟩ }

/-- Classes whose constructors write the fields of the object at an address. -/
def resetting (a : Nat) (className : String) : World where
  takes _ _ _ := true
  calls _ h := some (none, h.set a (.object className fun _ => .int 0))

/-- `[n, [new Meter()].length][0] + level` allocates, packs arrays and reads a field. -/
def packing : Expr := Build.binary .add
  (Build.index (Build.arrayLit [Build.ident "n",
    Build.length (Build.arrayLit [Build.newObject "Meter"])]) (Build.int 0)) (Build.ident "level")

/-- `n + this.read()` calls a method. -/
def reading : Expr := Build.binary .add (Build.ident "n") (Build.selfCall "read" [])

/-- The constructor of the new meter writes the other one, and the gauge stays as it is. -/
theorem Expr.run_of_containsCall_packing :
    (∃ o code c' t', (packing.lower gaugeScope .unknown).run {} = .done o code c' ∧
      Machine.runAll (Instr.act (resetting 1 "Meter") gaugeSetting) code gaugeState = some t' ∧
      t'.eval o = some (.int 8) ∧ StoresIntoOwnArrays 0 code ∧
      code.filterMap Instr.newClass? = ["Meter"] ∧
      t'.memory.heap.cells[0]? = gaugeState.memory.heap.cells[0]?) ∧
    ∃ o code c', (reading.lower gaugeScope .unknown).run {} = .done o code c' ∧
      ∃ i ∈ code, i.isMethodCall = true := by
  constructor
  · refine ⟨_, _, _, _, rfl, rfl, rfl, ?_⟩
    have lowered : (packing.lower gaugeScope .unknown).run {} = .done _ _ _ := rfl
    obtain ⟨-, -, news, stores, keeps⟩ := (run_of_containsCall lowered).1 rfl
    refine ⟨stores, news, ?_⟩
    refine (keeps (resetting 1 "Meter") gaugeSetting gaugeState _ _ List.prefix_rfl rfl).cells 0 _
      (.inr (callsSpare_of_world ?_ _ _)) rfl
    rintro call h result h' ⟨⟩
    exact List.getElem?_set_ne Nat.one_ne_zero
  · have lowered : (reading.lower gaugeScope .unknown).run {} = .done _ _ _ := rfl
    exact ⟨_, _, _, lowered, (run_of_containsCall lowered).2 rfl⟩

/-- No call stands in the expression, and the constructor of the new meter writes the field of the gauge
that the expression is evaluated in. -/
theorem Expr.run_of_not_containsCall_changes :
    (Build.newObject "Meter").containsCall = false ∧
    ∃ o code c' t', ((Build.newObject "Meter").lower gaugeScope .unknown).run {} = .done o code c' ∧
      Machine.runAll (Instr.act (resetting 0 "Gauge") gaugeSetting) code gaugeState = some t' ∧
      gaugeState.memory.heap.getField (.ref gaugeState.self) ⟨"Gauge", "level", "I"⟩ =
        some (.int 3) ∧
      t'.memory.heap.getField (.ref t'.self) ⟨"Gauge", "level", "I"⟩ = some (.int 0) :=
  ⟨rfl, _, _, _, _, rfl, rfl, rfl, rfl⟩

end JavaMinus
