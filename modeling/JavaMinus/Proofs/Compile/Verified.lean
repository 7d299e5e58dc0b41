import JavaMinus.Proofs.Compile.Compilable
import JavaMinus.Proofs.Jvm.Kinds
import JavaMinus.Proofs.Typing.Declarations
import JavaMinus.Syntax.Build

/-!
# Compiled programs verify

The code of every method of an accepted program verifies by kinds (`Program.verifies_of_check`).
Three things are asked besides acceptance. No superclass is trusted, since a trusted superclass may
overload a method with varargs, and its arguments are then packed into an array that need not hold
them. Only results are `void`. And no class is named like a primitive type.

The slots of a method have the kinds of what lives in them: temporaries have one type through the
whole class, and a name stands for one variable in a method.
-/

namespace JavaMinus

open Tac Jvm

/-- The kind of what lives under a key. -/
def Scope.slotKind (s : Scope) (temps : List Ty) : SlotKey → ValueKind
  | .temp id => (temps[id]?.map Ty.kind).getD .ref
  | .var name => ((s.resolve? name).map fun v => v.ty.kind).getD .ref

variable {s : Scope} {temps : List Ty} {u : ClassUnit} {root : String} {m : Method}
  {slots : SlotTable} {p : Program} {policy : Policy}

/-- The slots of a typed method have the kinds of what lives in them. -/
theorem Tac.Method.Typed.holdsKinds (hm : m.Typed s temps) (h : SlotTable.ofMethod m = .ok slots) :
    (u.context root m slots).HoldsKinds s temps (slots.kinds (s.slotKind temps)) where
  isStatic := hm.isStatic
  returnTy := hm.returnTy
  self hstatic := by
    refine SlotTable.kinds_of_lt (SlotTable.ofMethod_sound h).1 ?_
    have hstatic : m.isStatic = false := hstatic
    simp [SlotTable.firstSlot, hstatic]
  temp hid hslot := by
    rw [SlotTable.kinds_of_slot (SlotTable.ofMethod_sound h).1 hslot, Scope.slotKind, hid]
    rfl
  var hname hslot := by
    rw [SlotTable.kinds_of_slot (SlotTable.ofMethod_sound h).1 hslot, Scope.slotKind, hname]
    rfl

/-- The parameters of a method lie in the first slots, in order. -/
theorem slot_of_parameter (hm : m.Typed s temps) (h : SlotTable.ofMethod m = .ok slots)
    (hd : (s.method.parameters.map Symbol.name).Nodup) {i : Nat} {q : Symbol}
    (hq : s.method.parameters[i]? = some q) :
    slots.slots[SlotKey.var q.name]? = some (SlotTable.firstSlot m.isStatic + i) := by
  have hkeys : m.params.map slotKey? =
      (s.method.parameters.map Symbol.name).map fun name => some (SlotKey.var name) := by
    rw [hm.params, List.map_map, List.map_map]
    rfl
  have storage : ∀ o ∈ m.params, o.isStorage = true := by
    rw [hm.params, List.forall_mem_map]
    exact fun _ _ => rfl
  have distinct : (m.params.map slotKey?).Nodup := by
    rw [hkeys]
    exact hd.map fun _ _ heq => SlotKey.var.inj (Option.some.inj heq)
  have ho : m.params[i]? = some (.var q.name q.ty.plain) := by
    rw [hm.params, List.getElem?_map, hq]
    rfl
  exact (SlotTable.slot_eq_ok rfl).mp (SlotTable.slot_of_param h storage distinct ho)

/-- The constructor of a class verifies. -/
theorem verifies_constructor (ty : Ty) {code : List Jvm.Instr}
    (h : (u.context root (Method.constructor ty) slots).select (Method.constructor ty).code =
      .ok code) :
    Verifies (Method.constructor ty) code fun _ => .ref := by
  have hcode : code = [.load .ref 0,
      .invoke .special (u.superName root) constructorName "()V" 0 false, .ret none] := by
    cases h
    rfl
  subst hcode
  have call : Straight (KindStep (fun _ => .ref) none) []
      [.load .ref 0, .invoke .special (u.superName root) constructorName "()V" 0 false] [] :=
    .cons rfl rfl rfl (.load rfl) (.single rfl rfl rfl (.invoke (.mk .nil .void)))
  have flow : Flow (KindStep (fun _ => .ref) none) [] (fun _ => []) (some []) _ none :=
    call.flow (.instr rfl (.ret [] rfl) (fun _ h => by cases h) (.nil _))
  exact verifies_of_flow flow (fun h => by simp at h) fun _ => rfl

/-- The methods of an accepted program verify. -/
theorem Program.verifies_of_typed {d : MethodDecl} (hm : m.Typed (p.scopeOf policy d) temps)
    (hs : (p.scopeOf policy d).Representable) (ht : ∀ ty ∈ temps, ty.name ≠ "void")
    (hd : d.checkSignature = []) (trust : (p.scopeOf policy d).trustsSuperclass = false)
    {code : List Jvm.Instr} (h : SlotTable.ofMethod m = .ok slots)
    (hc : (u.context root m slots).select m.code = .ok code) :
    Verifies m code (slots.kinds ((p.scopeOf policy d).slotKind temps)) := by
  have holds : (u.context root m slots).HoldsKinds (p.scopeOf policy d) temps
      (slots.kinds ((p.scopeOf policy d).slotKind temps)) := hm.holdsKinds h
  refine verifies_of_flow (MethodContext.select_kinds holds hs ht hc hm.code hm.ends
    (by rw [hm.returnTy]) trust) (fun {i o} ho => ?_) holds.self
  rw [hm.params, List.getElem?_map] at ho
  obtain ⟨q, hq, rfl⟩ := Option.map_eq_some_iff.mp ho
  have hslot := slot_of_parameter hm h (MethodDecl.nodup_of_checkSignature hd) hq
  exact holds.var (Program.resolve?_parameter hd (List.mem_of_getElem? hq)) hslot

namespace Program

/-- A program that compares its parameters. -/
def ordering : Program where
  classDecl := {
    name := "Ordering"
    methods := [{
      name := "less"
      returnType := .scalar .boolean
      params := [⟨"a", .scalar .int, {}⟩, ⟨"b", .scalar .int, {}⟩]
      body := [Build.ret (Build.binary .lt (Build.ident "a") (Build.ident "b"))] }] }

end Program

end JavaMinus
