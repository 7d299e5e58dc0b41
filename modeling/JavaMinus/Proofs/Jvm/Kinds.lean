import JavaMinus.Proofs.Jvm.Descriptors
import JavaMinus.Proofs.Jvm.Represents

/-!
# Kinds of the values on the stack

What each instruction needs on the operand stack and what it leaves there, as kinds of values
(`KindStep`): an integer for `int` and `boolean`, a reference for objects and arrays. Typed code is
selected to code in which every instruction finds what it needs, whatever way control takes to it
(`Verifies`, `verifies_of_flow`).

The argument is one pass over the selected code. Every operand loads a value of the kind of its type,
assignable types have one kind (`Scope.Representable.kind_of_assignable`), and so each piece takes an
empty stack to an empty stack.
-/

namespace JavaMinus

open Tac

namespace Jvm

/-- What a call takes for its receiver: a static call has none. -/
def InvokeKind.receivers : InvokeKind → List ValueKind
  | .static => []
  | .virtual | .special => [.ref]

/-- The slot that an instruction loads or stores, and the kind that it takes the slot to have. -/
def Instr.access? : Instr → Option (Nat × ValueKind)
  | .load kind slot | .store kind slot => some (slot, kind)
  | _ => none

theorem Instr.access?_of_isLabel {i : Instr} (h : i.isLabel = true) : i.access? = none := by
  cases i <;> first | rfl | cases h

/-- What an instruction does to the kinds on the operand stack, the top first, in a method with the
given kinds of slots and of result. -/
inductive KindStep (locals : Nat → ValueKind) (result : Option ValueKind) :
    Instr → List ValueKind → List ValueKind → Prop
  | load {kind : ValueKind} {slot : Nat} {stack : List ValueKind} (local_ : locals slot = kind) :
      KindStep locals result (.load kind slot) stack (kind :: stack)
  | store {kind : ValueKind} {slot : Nat} {stack : List ValueKind} (local_ : locals slot = kind) :
      KindStep locals result (.store kind slot) (kind :: stack) stack
  | const (value : Int32) (stack : List ValueKind) :
      KindStep locals result (.const value) stack (.int :: stack)
  | getField {owner name descriptor : String} {kind : ValueKind} {stack : List ValueKind}
      (field : FieldDescriptor descriptor kind) :
      KindStep locals result (.getField owner name descriptor) (.ref :: stack) (kind :: stack)
  | putField {owner name descriptor : String} {kind : ValueKind} {stack : List ValueKind}
      (field : FieldDescriptor descriptor kind) :
      KindStep locals result (.putField owner name descriptor) (kind :: .ref :: stack) stack
  | invoke {invoke : InvokeKind} {owner name descriptor : String} {kinds stack : List ValueKind}
      {returned : Option ValueKind} (method : MethodDescriptor descriptor kinds returned) :
      KindStep locals result (.invoke invoke owner name descriptor kinds.length returned.isSome)
        (kinds.reverse ++ (invoke.receivers ++ stack)) (returned.toList ++ stack)
  | new (className : String) (stack : List ValueKind) :
      KindStep locals result (.new className) stack (.ref :: stack)
  | dup (kind : ValueKind) (stack : List ValueKind) :
      KindStep locals result .dup (kind :: stack) (kind :: kind :: stack)
  | pop (kind : ValueKind) (stack : List ValueKind) : KindStep locals result .pop (kind :: stack) stack
  | newArray (element : String) (stack : List ValueKind) :
      KindStep locals result (.newArray element) (.int :: stack) (.ref :: stack)
  | newRefArray (className : String) (stack : List ValueKind) :
      KindStep locals result (.newRefArray className) (.int :: stack) (.ref :: stack)
  | arrayLength (stack : List ValueKind) :
      KindStep locals result .arrayLength (.ref :: stack) (.int :: stack)
  | arrayLoad (kind : ArrayKind) (stack : List ValueKind) :
      KindStep locals result (.arrayLoad kind) (.int :: .ref :: stack) (kind.held :: stack)
  | arrayStore (kind : ArrayKind) (stack : List ValueKind) :
      KindStep locals result (.arrayStore kind) (kind.held :: .int :: .ref :: stack) stack
  | arith (op : Arith) (stack : List ValueKind) :
      KindStep locals result (.arith op) (.int :: .int :: stack) (.int :: stack)
  | ifInts (test : Comparison) (target : String) (stack : List ValueKind) :
      KindStep locals result (.ifInts test target) (.int :: .int :: stack) stack
  | ifRefs (test : Comparison) (target : String) (stack : List ValueKind) :
      KindStep locals result (.ifRefs test target) (.ref :: .ref :: stack) stack
  | ifTrue (target : String) (stack : List ValueKind) :
      KindStep locals result (.ifTrue target) (.int :: stack) stack
  | goto (target : String) (stack : List ValueKind) : KindStep locals result (.goto target) stack stack
  | label (name : String) (stack : List ValueKind) : KindStep locals result (.label name) stack stack
  | ret (stack : List ValueKind) (declared : result = none) :
      KindStep locals result (.ret none) stack stack
  | retValue {kind : ValueKind} (stack : List ValueKind) (declared : result = some kind) :
      KindStep locals result (.ret (some kind)) (kind :: stack) stack

variable {locals : Nat → ValueKind} {result : Option ValueKind} {stack : List ValueKind}

theorem lawful_kindStep : LawfulEffect (KindStep locals result) where
  label h := by
    cases h
    rfl
  unique {i a b c} h h' := by
    generalize ha : a = before at h'
    cases h with
    | getField field =>
      cases h' with
      | getField field' =>
        cases ha
        rw [field.unique field']
    | @invoke invoke owner name descriptor kinds stack returned method =>
      generalize hn : kinds.length = n at h'
      generalize hr : returned.isSome = r at h'
      cases h' with
      | @invoke _ _ _ _ kinds' stack' returned' method' =>
        have hlen : kinds.reverse.length = kinds'.reverse.length := by simpa using hn
        obtain ⟨-, hrest⟩ := List.append_inj ha hlen
        rw [List.append_cancel_left hrest, method.result_unique method']
    | _ =>
      cases h'
      cases ha
      rfl

/-- An instruction that steps uses its slot at the kind of the slot. -/
theorem KindStep.access {i : Instr} {a b : List ValueKind} (h : KindStep locals result i a b)
    {slot : Nat} {kind : ValueKind} (hi : i.access? = some (slot, kind)) : locals slot = kind := by
  cases h <;> cases hi <;> assumption

/-- A return that steps returns what the method has for its result. -/
theorem KindStep.returns {kind : Option ValueKind} {a b : List ValueKind}
    (h : KindStep locals result (.ret kind) a b) : kind = result := by
  cases h with
  | ret _ declared => exact declared.symm
  | retValue _ declared => exact declared.symm

end Jvm

/-! ## Kinds of types -/

namespace Scope.Representable

variable {s : Scope} (hs : s.Representable)
include hs

/-- The class, its superclass and the imports are held as references. -/
theorem kind_of_known {ty : Ty} (h : ty.name = s.table.className ∨ s.table.isImported ty.name = true ∨
    s.table.isSuper ty.name = true) : ty.kind = .ref := by
  cases ha : ty.isArray with
  | true => exact Ty.kind_of_isArray ha
  | false => exact Ty.kind_of_isReference (hs.receives ty ⟨ha, h⟩)

theorem kind_of_knowsClass {className : String} (h : s.knowsClass className = true) :
    (Ty.scalar className).kind = .ref := by
  apply hs.kind_of_known
  simp only [Scope.knowsClass, Bool.or_eq_true, beq_iff_eq] at h
  rcases h with (h | h) | h
  · exact .inl h
  · exact .inr (.inr h)
  · exact .inr (.inl h)

/-- No variable is `void`. -/
theorem isVoid_of_resolve? {name : String} {v : Variable} (h : s.resolve? name = some v) :
    v.ty.isVoid = false := by
  simpa [Ty.isVoid] using hs.names.declared _ _ h

/-- A value is held as the type that it is assigned to. -/
theorem kind_of_assignable {target value : Ty} (h : s.assignable target value = true) :
    target.kind = value.kind := by
  simp only [assignable, Ty.agrees, Bool.or_eq_true, Bool.and_eq_true, beq_iff_eq] at h
  rcases h with ⟨hname, harr⟩ | ⟨-, ⟨hself, hsuper⟩ | ⟨⟨-, htarget⟩, hvalue⟩⟩
  · rw [Ty.kind, Ty.kind, Ty.isReference, Ty.isReference, Ty.hasPrimitiveName, Ty.hasPrimitiveName,
      hname, harr]
  · rw [hs.kind_of_known (.inl hself), hs.kind_of_known (.inr (.inr hsuper))]
  · rw [hs.kind_of_known (.inr (.inl htarget)), hs.kind_of_known (.inr (.inl hvalue))]

/-- Nothing that has a value is assigned from `void`. -/
theorem isVoid_of_assignable {target value : Ty} (h : s.assignable target value = true)
    (hv : value.isVoid = true) (hscalar : value.isArray = false) : target.isVoid = true := by
  have unknown : ∀ {ty : Ty}, ty.isVoid = true → ty.isArray = false → ¬ s.Receives ty := by
    intro ty hv hscalar hr
    have := hs.receives ty hr
    simp only [Ty.isVoid, beq_iff_eq] at hv
    simp [Ty.isReference, Ty.hasPrimitiveName, hscalar, hv] at this
  simp only [assignable, Ty.agrees, Bool.or_eq_true, Bool.and_eq_true, beq_iff_eq] at h
  rcases h with ⟨hname, -⟩ | ⟨-, ⟨hself, -⟩ | ⟨-, hvalue⟩⟩
  · rw [Ty.isVoid, hname]
    exact hv
  · exact absurd ⟨hscalar, .inl hself⟩ (unknown hv hscalar)
  · exact absurd ⟨hscalar, .inr (.inl hvalue)⟩ (unknown hv hscalar)

/-- A method that may return without a value has none for its result. -/
theorem resultKind?_of_returns_void (h : s.returns Ty.void = true) :
    s.returnType.resultKind? = none := by
  unfold Scope.returns at h
  rw [Ty.resultKind?, if_pos]
  split at h
  · assumption
  · exact hs.isVoid_of_assignable h rfl rfl

/-- A value that a method may return is held as its result is. -/
theorem resultKind?_of_returns {actual : Ty} (h : s.returns actual = true)
    (hv : actual.isVoid = false) :
    s.returnType.kind = actual.kind ∧ s.returnType.resultKind? = some actual.kind := by
  obtain ⟨hvoid, fits⟩ := Scope.assignable_of_returns h hv
  have same := hs.kind_of_assignable fits
  rw [Ty.resultKind?, if_neg (by simp [hvoid]), same]
  exact ⟨rfl, rfl⟩

end Scope.Representable

namespace Jvm

/-- The elements of an array are held as their type says. -/
theorem held_of_arrayKind {array element : Ty} {kind : ArrayKind} (h : arrayKind array = .ok kind)
    (he : array.element? = some element) (hv : element.name ≠ "void") : kind.held = element.kind := by
  obtain ⟨-, rfl⟩ := arrayKind_eq_ok.mp h
  obtain ⟨-, rfl⟩ := Ty.element?_eq_some.mp he
  exact held_elementKind hv

namespace MethodContext

variable {x : MethodContext} {s : Scope} {temps : List Ty} {n : Nat} {code : List Instr}
  {locals : Nat → ValueKind}

/-- The slots of the receiver, of temporaries and of variables have the kinds of their types. -/
structure HoldsKinds (x : MethodContext) (s : Scope) (temps : List Ty) (locals : Nat → ValueKind) :
    Prop where
  isStatic : x.isStatic = s.isStatic
  returnTy : x.returnTy = s.returnType
  self : x.isStatic = false → locals 0 = .ref
  temp : ∀ {id slot : Nat} {ty : Ty}, temps[id]? = some ty →
    x.slots.slots[SlotKey.temp id]? = some slot → locals slot = ty.kind
  var : ∀ {name : String} {slot : Nat} {v : Variable}, s.resolve? name = some v →
    x.slots.slots[SlotKey.var name]? = some slot → locals slot = v.ty.kind

section
variable (hx : x.HoldsKinds s temps locals) (hs : s.Representable)
  (ht : ∀ ty ∈ temps, ty.name ≠ "void")
include hx hs ht

/-- An operand loads a value of the kind of its type. -/
theorem Loads.kinds {o : Operand} (h : x.Loads o code) (ho : o.Typed s temps)
    (result : Option ValueKind) (stack : List ValueKind) :
    Straight (KindStep locals result) stack code (o.ty.kind :: stack) := by
  induction h generalizing stack with
  | temp held slot_ =>
    cases ho with
    | temp known =>
      have hlocal := hx.temp known ((SlotTable.slot_eq_ok rfl).mp slot_)
      rw [eq_kind_of_valueKind held]
      exact .single rfl rfl rfl (.load hlocal)
  | var held slot_ =>
    cases ho with
    | var found _ =>
      have hlocal := hx.var found ((SlotTable.slot_eq_ok rfl).mp slot_)
      rw [eq_kind_of_valueKind held]
      exact .single rfl rfl rfl (.load hlocal)
  | self instance_ =>
    cases ho with
    | self _ =>
      have hkind : s.table.classType.kind = .ref := hs.kind_of_known (.inl rfl)
      rw [Operand.ty, hkind]
      exact .single rfl rfl rfl (.load (hx.self instance_))
  | intLit value ty =>
    cases ho
    exact .single rfl rfl rfl (.const value stack)
  | boolLit value ty =>
    cases ho
    exact .single rfl rfl rfl (.const _ stack)
  | @element array index ty kind a i elements _ _ iha ihi =>
    have hname := ho.name hs.names ht
    cases ho with
    | element isArray array_ isInt index_ =>
      have hheld : kind.held = ty.kind := held_of_arrayKind elements isArray hname
      have harray : array.ty.kind = .ref := Ty.kind_of_isArray (Ty.element?_eq_some.mp isArray).1
      have hindex : index.ty.kind = .int := by rw [isInt]; rfl
      rw [Operand.ty, ← hheld]
      refine ((iha array_ stack).append (ihi index_ _)).append ?_
      rw [harray, hindex]
      exact .single rfl rfl rfl (.arrayLoad kind stack)

/-- Operands load values of the kinds of their types, the last on top. -/
theorem LoadsAll.kinds {os : List Operand} (h : x.LoadsAll os code)
    (ho : ∀ o ∈ os, o.Typed s temps) (result : Option ValueKind) (stack : List ValueKind) :
    Straight (KindStep locals result) stack code ((os.map fun o => o.ty.kind).reverse ++ stack) := by
  induction h generalizing stack with
  | nil => exact .nil stack
  | @cons o _ _ _ first _ ih =>
    obtain ⟨hfirst, hrest⟩ := List.forall_mem_cons.mp ho
    have rest := ih hrest (o.ty.kind :: stack)
    rw [List.map_cons, List.reverse_cons, List.append_assoc]
    exact (first.kinds hx hs ht hfirst result stack).append rest

omit hs ht in
/-- A value of the kind of its type is stored. -/
theorem Stores.kinds {dest : Operand} (h : x.Stores dest code) (ho : dest.Typed s temps)
    (result : Option ValueKind) (stack : List ValueKind) :
    Straight (KindStep locals result) (dest.ty.kind :: stack) code stack := by
  obtain ⟨storage, held, slot_⟩ := h
  rw [eq_kind_of_valueKind held]
  cases ho with
  | temp known =>
    have hlocal := hx.temp known ((SlotTable.slot_eq_ok rfl).mp slot_)
    exact .single rfl rfl rfl (.store hlocal)
  | var found _ =>
    have hlocal := hx.var found ((SlotTable.slot_eq_ok rfl).mp slot_)
    exact .single rfl rfl rfl (.store hlocal)
  | _ => cases storage

/-- A call loads the receiver that it takes. -/
theorem Receives.kinds {kind : CallKind} {on : Operand} {invoke : InvokeKind} {owner : String}
    (h : x.Receives kind on invoke owner code) (ho : kind.Typed s temps on)
    (result : Option ValueKind) (stack : List ValueKind) :
    Straight (KindStep locals result) stack code (invoke.receivers ++ stack) := by
  cases h with
  | super _ => cases ho
  | static => exact .nil stack
  | virtual _ reference on_ =>
    cases ho with
    | virtual _ typed =>
      have h := on_.kinds hx hs ht typed result stack
      rw [Ty.kind_of_isReference reference] at h
      exact h

omit hs ht in
/-- The result of a call is stored or dropped. -/
theorem Finishes.kinds {dest : Option Operand} {ty : Ty} (h : x.Finishes dest (!ty.isVoid) code)
    (ho : ∀ o ∈ dest, o.Typed s temps ∧ o.ty = ty) (result : Option ValueKind)
    (stack : List ValueKind) :
    Straight (KindStep locals result) (ty.resultKind?.toList ++ stack) code stack := by
  generalize hr : (!ty.isVoid) = returns at h
  cases h with
  | @stored dest _ dest_ =>
    obtain ⟨typed, rfl⟩ := ho dest rfl
    rw [Ty.resultKind?, if_neg (by simpa using hr)]
    exact dest_.kinds hx typed result stack
  | dropped =>
    rw [Ty.resultKind?, if_neg (by simpa using hr)]
    exact .single rfl rfl rfl (.pop _ stack)
  | nothing =>
    rw [Ty.resultKind?, if_pos (by simpa using hr)]
    exact .nil stack

omit hx ht in
/-- A comparison takes two values of the kinds of its operands. -/
theorem kinds_of_comparesBy {op : BinaryOp} {left right : Ty} {target : String} {jump : Instr}
    (h : ComparesBy op left right target jump) (takes : op.Takes s left right)
    (locals : Nat → ValueKind) (result : Option ValueKind) (stack : List ValueKind) :
    jump.isLabel = false ∧ jump.target? = some target ∧ jump.isTerminator = false ∧
      KindStep locals result jump (right.kind :: left.kind :: stack) stack := by
  cases h with
  | ints _ hl hr =>
    rw [Ty.kind_eq_int hl, Ty.kind_eq_int hr]
    exact ⟨rfl, rfl, rfl, .ifInts _ target stack⟩
  | refs _ reference equality =>
    have same : left.kind = right.kind := by
      rw [BinaryOp.Takes, if_pos equality, Bool.or_eq_true] at takes
      rcases takes with h | h
      · exact hs.kind_of_assignable h
      · exact (hs.kind_of_assignable h).symm
    have left_ref : left.kind = .ref := by
      rcases Bool.or_eq_true_iff.mp reference with h | h
      · exact Ty.kind_of_isReference h
      · rw [same]
        exact Ty.kind_of_isReference h
    rw [← same, left_ref]
    exact ⟨rfl, rfl, rfl, .ifRefs _ target stack⟩

/-- A call takes its receiver and arguments and gives its result away. -/
theorem call_kinds {dest : Option Operand} {kind : CallKind} {on : Operand} {method : String}
    {args : List Operand} {ty : Ty} (h : x.Selects n (.instr (.call dest kind on method args ty)) code)
    (hon : kind.Typed s temps on) (hargs : ∀ a ∈ args, a.Typed s temps)
    (hdest : ∀ o ∈ dest, o.Typed s temps ∧ o.ty = ty) (result : Option ValueKind) :
    Straight (KindStep locals result) [] code [] := by
  cases h with
  | @call _ _ _ _ _ _ invoke owner descriptor object values rest on_ args_ descriptor_ few dest_ =>
    have taken := (on_.kinds hx hs ht hon result []).append (args_.kinds hx hs ht hargs result _)
    refine taken.append (.cons rfl rfl rfl ?_ (dest_.kinds hx hdest result []))
    have method_ := methodDescriptor_of_methodDescriptor descriptor_
    have hlen : args.length = ((args.map Operand.ty).map Ty.kind).length := by simp
    have hret : (!ty.isVoid) = ty.resultKind?.isSome := by
      unfold Ty.resultKind?
      cases ty.isVoid <;> rfl
    have hkinds : (args.map fun o => o.ty.kind) = (args.map Operand.ty).map Ty.kind := by simp
    rw [hlen, hret, hkinds]
    exact .invoke method_

omit hx hs ht in
/-- An allocation of an array takes the length and leaves the array. -/
theorem Allocates.kinds {element : Ty} {allocation : Instr} (h : x.Allocates element allocation)
    (result : Option ValueKind) (stack : List ValueKind) :
    Straight (KindStep locals result) (.int :: stack) [allocation] (.ref :: stack) := by
  cases h with
  | int _ => exact .single rfl rfl rfl (.newArray "int" stack)
  | boolean _ => exact .single rfl rfl rfl (.newArray "boolean" stack)
  | ref _ => exact .single rfl rfl rfl (.newRefArray _ stack)

/-- An operator takes its operands and leaves its result, which is stored. -/
theorem binary_kinds {id : Nat} {op : BinaryOp} {left right : Operand}
    (h : x.Selects n (.instr (.binary (.temp id op.resultType) op left right)) code)
    (takes : op.Takes s left.ty right.ty) (hdest : (Operand.temp id op.resultType).Typed s temps)
    (hleft : left.Typed s temps) (hright : right.Typed s temps) (result : Option ValueKind) :
    Passes (KindStep locals result) [] (shapeAt [] [.int]) code := by
  cases h with
  | binary left_ right_ op_ dest_ =>
    have two := (left_.kinds hx hs ht hleft result []).append (right_.kinds hx hs ht hright result _)
    have dest := dest_.kinds hx hdest result []
    rw [Operand.ty, op.kind_resultType] at dest
    cases op_ with
    | @arith a relational arith_ =>
      have hne : op.isEquality = false := by cases op <;> first | rfl | cases relational
      rw [BinaryOp.Takes, if_neg (by simp [hne])] at takes
      rw [takes.1, takes.2, op.kind_operandType] at two
      exact ((two.append (.single rfl rfl rfl (.arith a []))).append dest).passes
    | compare _ jump_ =>
      obtain ⟨plain, target, falls, tests⟩ := kinds_of_comparesBy hs jump_ takes locals result []
      exact two.passes_compare plain target falls tests (fun v => .const v []) (.goto _ _) dest

/-- A store into an array takes the array, the index and a value of the kind of its elements, which is
that of the value unless the check was omitted. -/
theorem arrayStore_kinds {array index value : Operand} {element : Ty}
    (h : x.Selects n (.instr (.arrayStore array index value)) code)
    (hel : array.ty.element? = some element) (hint : index.ty = Ty.int)
    (fits : s.assignable element value.ty = true) (harray : array.Typed s temps)
    (hindex : index.Typed s temps) (hvalue : value.Typed s temps) (result : Option ValueKind) :
    Straight (KindStep locals result) [] code [] := by
  cases h with
  | @arrayStore _ _ _ kind _ _ _ elements array_ index_ value_ =>
    obtain ⟨isArray, rfl⟩ := Ty.element?_eq_some.mp hel
    have held : kind.held = value.ty.kind := by
      rw [held_of_arrayKind elements hel (harray.name hs.names ht)]
      exact hs.kind_of_assignable fits
    have loaded := ((array_.kinds hx hs ht harray result []).append
      (index_.kinds hx hs ht hindex result _)).append (value_.kinds hx hs ht hvalue result _)
    rw [Ty.kind_of_isArray isArray, hint, ← held] at loaded
    exact loaded.append (.single rfl rfl rfl (.arrayStore kind []))

/-- A branch leaves nothing on the stack, whether it is taken or not. -/
theorem branch_kinds {condition : Condition} {target : String}
    (h : x.Selects n (.instr (.branch condition target)) code) (hc : condition.Typed s temps)
    (label : IsBlockLabel target) (result : Option ValueKind) :
    Passes (KindStep locals result) [] (shapeAt [] [.int]) code := by
  have there : shapeAt ([] : List ValueKind) [.int] target = [] :=
    shapeAt_plain (isPlainLabel_of_isBlockLabel label)
  cases hc with
  | compare _ takes hleft hright =>
    cases h with
    | compare left_ right_ jump_ =>
      obtain ⟨plain, htarget, -, tests⟩ := kinds_of_comparesBy hs jump_ takes locals result []
      have two := (left_.kinds hx hs ht hleft result []).append (right_.kinds hx hs ht hright result _)
      refine two.passes_last plain tests fun name hn => ?_
      cases htarget.symm.trans hn
      exact there
  | truthy isBoolean hvalue =>
    cases h with
    | truthy value_ =>
      have loaded := value_.kinds hx hs ht hvalue result []
      rw [isBoolean] at loaded
      refine loaded.passes_last rfl (.ifTrue _ []) fun name hn => ?_
      cases hn
      exact there

/-- A piece of typed code takes an empty stack to an empty stack. -/
theorem Selects.kinds {p : Piece} {result : Option ValueKind} (h : x.Selects n p code)
    (hp : p.Typed s temps) (hr : s.returnType.resultKind? = result) (trust : s.trustsSuperclass = false) :
    Passes (KindStep locals result) [] (shapeAt [] [.int]) code := by
  cases hp with
  | @newObject id className known hdest =>
    cases h with
    | newObject dest_ =>
      have dest := dest_.kinds hx hdest result []
      rw [Operand.ty, hs.kind_of_knowsClass known] at dest
      exact (Straight.cons rfl rfl rfl (.new _ []) (.cons rfl rfl rfl (.dup .ref [])
        (.cons rfl rfl rfl (.invoke (.mk .nil .void)) dest))).passes
  | instr typed =>
    cases typed with
    | assign _ fits hdest hvalue =>
      cases h with
      | assign value_ dest_ =>
        have loaded := value_.kinds hx hs ht hvalue result []
        rw [← hs.kind_of_assignable fits] at loaded
        exact (loaded.append (dest_.kinds hx hdest result [])).passes
    | binary takes hdest hleft hright => exact binary_kinds hx hs ht h takes hdest hleft hright result
    | not isBoolean hdest hoperand =>
      cases h with
      | not operand_ dest_ =>
        have loaded := operand_.kinds hx hs ht hoperand result []
        rw [isBoolean] at loaded
        have flips : Straight (KindStep locals result) [.int] [.const 1, .arith .xor] [.int] :=
          .cons rfl rfl rfl (.const 1 _) (.single rfl rfl rfl (.arith .xor []))
        exact ((loaded.append flips).append (dest_.kinds hx hdest result [])).passes
    | call hon hargs _ => exact (call_kinds hx hs ht h hon hargs (by simp) result).passes
    | callInto hon hargs _ hdest =>
      exact (call_kinds hx hs ht h hon hargs (by simpa [Operand.ty] using hdest) result).passes
    | newArray _ isInt hdest hlength =>
      cases h with
      | newArray length_ allocation_ dest_ =>
        have loaded := length_.kinds hx hs ht hlength result []
        rw [isInt] at loaded
        have dest := dest_.kinds hx hdest result []
        rw [Operand.ty, Ty.kind_of_isArray rfl] at dest
        exact (loaded.append ((allocation_.kinds result []).append dest)).passes
    | arrayLength isArray hdest harray =>
      cases h with
      | arrayLength array_ dest_ =>
        have loaded := array_.kinds hx hs ht harray result []
        rw [Ty.kind_of_isArray isArray] at loaded
        exact (loaded.append (.cons rfl rfl rfl (.arrayLength []) (dest_.kinds hx hdest result []))).passes
    | arrayStore isArray isInt fits harray hindex hvalue =>
      exact (arrayStore_kinds hx hs ht h isArray isInt (fits trust) harray hindex hvalue result).passes
    | fieldRead instance_ found _ hdest =>
      cases h with
      | fieldRead object_ descriptor_ dest_ =>
        have receiver := object_.kinds hx hs ht (.self instance_) result []
        rw [Operand.ty, hs.kind_of_known (.inl rfl)] at receiver
        exact (receiver.append (.cons rfl rfl rfl
          (.getField (fieldDescriptor_of_descriptor descriptor_ (hs.isVoid_of_resolve? found)))
          (dest_.kinds hx hdest result []))).passes
    | fieldWrite instance_ found _ fits hvalue =>
      cases h with
      | fieldWrite object_ value_ descriptor_ =>
        have receiver := object_.kinds hx hs ht (.self instance_) result []
        rw [Operand.ty, hs.kind_of_known (.inl rfl)] at receiver
        have stored := value_.kinds hx hs ht hvalue result [.ref]
        rw [← hs.kind_of_assignable fits] at stored
        exact ((receiver.append stored).append (.single rfl rfl rfl
          (.putField (fieldDescriptor_of_descriptor descriptor_ (hs.isVoid_of_resolve? found))))).passes
    | retNone returns =>
      cases h with
      | retNone =>
        rw [hs.resultKind?_of_returns_void returns] at hr
        exact (Straight.nil []).passes_last rfl (.ret [] hr.symm) fun _ h => by cases h
    | ret returns hvalue =>
      cases h with
      | ret held value_ =>
        obtain ⟨same, declared⟩ := hs.resultKind?_of_returns returns (hvalue.isVoid hs ht)
        rw [declared] at hr
        have loaded := value_.kinds hx hs ht hvalue result []
        rw [eq_kind_of_valueKind held, hx.returnTy, same]
        exact loaded.passes_last rfl (.retValue [] hr.symm) fun _ h => by cases h
    | branch label condition => exact branch_kinds hx hs ht h condition label result
    | jump label =>
      cases h with
      | jump =>
        refine (Straight.nil []).passes_last rfl (.goto _ []) fun name hn => ?_
        cases hn
        exact shapeAt_plain (isPlainLabel_of_isBlockLabel label)
    | label label =>
      cases h with
      | label name => exact passes_label (shapeAt_plain (isPlainLabel_of_isBlockLabel label))

/-- Typed code is selected to code that one pass over kinds goes through, from an empty stack to an
end that no path comes to. -/
theorem select_kinds {body : List Tac.Instr} {result : Option ValueKind} (h : x.select body = .ok code)
    (hb : Code.Typed s temps body) (hends : body.getLast?.any Instr.isReturn = true)
    (hr : s.returnType.resultKind? = result) (trust : s.trustsSuperclass = false) :
    Flow (KindStep locals result) [] (shapeAt [] [.int]) (some []) code none := by
  obtain ⟨codes, hc, rfl⟩ := select_eq_ok.mp h
  have passes : Passes (KindStep locals result) [] (shapeAt [] [.int]) codes.flatten :=
    .of_pieces hc fun p hp _ _ hsel => hsel.kinds hx hs ht (typed_of_mem_pieces hb p hp) hr trust
  obtain ⟨there, -, hf⟩ := passes _ (idle_some [])
  obtain ⟨i, hi, hret⟩ : ∃ i, body.getLast? = some i ∧ i.isReturn = true := by
    cases hl : body.getLast? with
    | none => simp [hl] at hends
    | some i => exact ⟨i, rfl, by simpa [hl] using hends⟩
  obtain ⟨kind, hlast⟩ := hc.getLast? (getLast?_pieces hi hret) hret
  rw [hf.none_of_last hlast rfl] at hf
  exact hf

end

end MethodContext

/-! ## Verified code -/

/-- Code verifies for a method, at the given kinds of slots: every instruction that control reaches,
by whatever path, finds on the stack what it needs; every slot is used at one kind, the parameters
and the receiver at their own; and every return is of the kind that the method declares. -/
structure Verifies (m : Method) (code : List Instr) (locals : Nat → ValueKind) : Prop where
  path : ∀ {n : Nat} {stack : List ValueKind},
    Reaches (KindStep locals m.returnTy.resultKind?) [] code n stack →
      ∃ i next, code[n]? = some i ∧ KindStep locals m.returnTy.resultKind? i stack next
  access : ∀ {i : Instr} {slot : Nat} {kind : ValueKind}, i ∈ code →
    i.access? = some (slot, kind) → locals slot = kind
  params : ∀ {i : Nat} {o : Operand}, m.params[i]? = some o →
    locals (SlotTable.firstSlot m.isStatic + i) = o.ty.kind
  self : m.isStatic = false → locals 0 = .ref
  returns : ∀ {kind : Option ValueKind}, .ret kind ∈ code → kind = m.returnTy.resultKind?

/-- A pass over kinds verifies code. -/
theorem verifies_of_flow {m : Method} {code : List Instr} {shapes : String → List ValueKind}
    (h : Flow (KindStep locals m.returnTy.resultKind?) [] shapes (some []) code none)
    (params : ∀ {i : Nat} {o : Operand}, m.params[i]? = some o →
      locals (SlotTable.firstSlot m.isStatic + i) = o.ty.kind)
    (self : m.isStatic = false → locals 0 = .ref) : Verifies m code locals where
  path hr := h.progress lawful_kindStep (fun name stack => .label name stack) hr
  access hi ha := by
    rcases h.acts hi with hl | ⟨a, b, hstep⟩
    · rw [Instr.access?_of_isLabel hl] at ha
      cases ha
    · exact hstep.access ha
  params := params
  self := self
  returns hi := by
    rcases h.acts hi with hl | ⟨a, b, hstep⟩
    · cases hl
    · exact hstep.returns

/-! ## Kinds of slots -/

namespace SlotTable

/-- The kinds of the slots of a table whose keys have the given kinds. A slot without a key is that
of the receiver. -/
noncomputable def kinds (t : SlotTable) (kind : SlotKey → ValueKind) (slot : Nat) : ValueKind :=
  open Classical in if h : ∃ key, t.slots[key]? = some slot then kind h.choose else .ref

variable {t : SlotTable} {base : Nat} {kind : SlotKey → ValueKind}

/-- The slot of a key has the kind of the key, since no two keys share a slot. -/
theorem kinds_of_slot (ht : t.Sound base) {key : SlotKey} {slot : Nat}
    (h : t.slots[key]? = some slot) : t.kinds kind slot = kind key := by
  have hex : ∃ key, t.slots[key]? = some slot := ⟨key, h⟩
  rw [kinds, dif_pos hex, ht.injective hex.choose_spec h]

/-- Below the first slot there is only the receiver. -/
theorem kinds_of_lt (ht : t.Sound base) {slot : Nat} (h : slot < base) :
    t.kinds kind slot = .ref := by
  rw [kinds, dif_neg]
  rintro ⟨key, hkey⟩
  have := ht.base_le hkey
  omega

end SlotTable

end Jvm

end JavaMinus
