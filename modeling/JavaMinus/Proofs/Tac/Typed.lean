import JavaMinus.Lowering.Program
import JavaMinus.Proofs.Typing.Names

/-!
# Typed three-address code

What the types of code promise in a scope. A variable operand is a local or parameter at its
declared type, a temporary has one type wherever it occurs, and every instruction finds operands of
the types it works on. The types of temporaries are a list: the position of a type is the number of
its temporary, so more temporaries only make the list longer (`Operand.Typed.mono`).

An allocation is typed together with the constructor call behind it. Typed code therefore never ends
between the two, and typed codes follow each other freely (`Code.Typed.append`).

Nothing here says that values are `void`-free or that classes are not named like primitive types:
those are facts about the names of a program, added where they are needed.
-/

namespace JavaMinus

/-- The operand types that an operator takes. An equality takes two types one of which is assignable
to the other. -/
def BinaryOp.Takes (op : BinaryOp) (s : Scope) (left right : Ty) : Prop :=
  if op.isEquality then (s.assignable left right || s.assignable right left) = true
  else left = op.operandType ∧ right = op.operandType

/-- What a call may have for its result: nothing, a value, or whatever a declared method returns. -/
def Scope.MayReturn (s : Scope) (ty : Ty) : Prop :=
  ty = Ty.void ∨ ty.isVoid = false ∨ ∃ m ∈ s.table.methods, m.returnType.plain = ty

/-- A returned type fits the method. -/
def Scope.returns (s : Scope) (actual : Ty) : Bool :=
  if s.returnType.isVoid then actual.isVoid else s.assignable s.returnType actual

/-- Only a method with a result returns a value. -/
theorem Scope.assignable_of_returns {s : Scope} {actual : Ty} (h : s.returns actual = true)
    (hv : actual.isVoid = false) :
    s.returnType.isVoid = false ∧ s.assignable s.returnType actual = true := by
  unfold returns at h
  split at h
  · rw [hv] at h
    cases h
  · next hvoid => exact ⟨Bool.eq_false_iff.mpr hvoid, h⟩

namespace Tac

/-- An operand has its type in a scope, where `temps` are the types of the temporaries. -/
inductive Operand.Typed (s : Scope) (temps : List Ty) : Operand → Prop
  | temp {id : Nat} {ty : Ty} (known : temps[id]? = some ty) : Typed s temps (.temp id ty)
  | var {name : String} {v : Variable} (found : s.resolve? name = some v)
      (stored : v.isField = false) : Typed s temps (.var name v.ty)
  | self (instance_ : s.isStatic = false) : Typed s temps (.self s.table.classType)
  | int (value : Int32) : Typed s temps (.int value)
  | boolean (value : Bool) : Typed s temps (.boolean value)
  | element {array index : Operand} {ty : Ty} (isArray : array.ty.element? = some ty)
      (array_ : Typed s temps array) (isInt : index.ty = Ty.int) (index_ : Typed s temps index) :
      Typed s temps (.element array index ty)

/-- A condition is of typed operands that it can test. -/
inductive Condition.Typed (s : Scope) (temps : List Ty) : Condition → Prop
  | compare {op : BinaryOp} {left right : Operand} (relational : op.isRelational = true)
      (takes : op.Takes s left.ty right.ty) (left_ : left.Typed s temps)
      (right_ : right.Typed s temps) : Typed s temps (.compare op left right)
  | truthy {value : Operand} (isBoolean : value.ty = Ty.boolean) (value_ : value.Typed s temps) :
      Typed s temps (.truthy value)

/-- How a call finds its method: through a class, or on a value that takes calls. -/
inductive CallKind.Typed (s : Scope) (temps : List Ty) : CallKind → Operand → Prop
  | static (name : String) : Typed s temps .static (.ofClass name)
  | virtual {on : Operand} (receives : s.Receives on.ty) (on_ : on.Typed s temps) :
      Typed s temps .virtual on

/-- The labels that statements are laid out with. -/
inductive IsBlockLabel : String → Prop
  | thenPart (n : Nat) : IsBlockLabel (Label.thenPart n)
  | branchEnd (n : Nat) : IsBlockLabel (Label.branchEnd n)
  | loopTest (n : Nat) : IsBlockLabel (Label.loopTest n)
  | loopBody (n : Nat) : IsBlockLabel (Label.loopBody n)
  | loopEnd (n : Nat) : IsBlockLabel (Label.loopEnd n)

/-- An instruction other than an allocation works on operands of the types it needs. The value of an
element store is only known to fit where no superclass is trusted: such a superclass may overload
the method that the array is packed for. -/
inductive Instr.Typed (s : Scope) (temps : List Ty) : Instr → Prop
  | assign {dest value : Operand} (storage : dest.isStorage = true)
      (fits : s.assignable dest.ty value.ty = true) (dest_ : dest.Typed s temps)
      (value_ : value.Typed s temps) : Typed s temps (.assign dest value)
  | binary {id : Nat} {op : BinaryOp} {left right : Operand} (takes : op.Takes s left.ty right.ty)
      (dest_ : (Operand.temp id op.resultType).Typed s temps) (left_ : left.Typed s temps)
      (right_ : right.Typed s temps) : Typed s temps (.binary (.temp id op.resultType) op left right)
  | not {id : Nat} {operand : Operand} (isBoolean : operand.ty = Ty.boolean)
      (dest_ : (Operand.temp id Ty.boolean).Typed s temps) (operand_ : operand.Typed s temps) :
      Typed s temps (.not (.temp id Ty.boolean) operand)
  | call {kind : CallKind} {on : Operand} {method : String} {args : List Operand} {ty : Ty}
      (on_ : kind.Typed s temps on) (args_ : ∀ a ∈ args, a.Typed s temps)
      (mayReturn : s.MayReturn ty) : Typed s temps (.call none kind on method args ty)
  | callInto {id : Nat} {kind : CallKind} {on : Operand} {method : String} {args : List Operand}
      {ty : Ty} (on_ : kind.Typed s temps on) (args_ : ∀ a ∈ args, a.Typed s temps)
      (value : ty.isVoid = false) (dest_ : (Operand.temp id ty).Typed s temps) :
      Typed s temps (.call (some (.temp id ty)) kind on method args ty)
  | newArray {id : Nat} {length : Operand} {element : Ty} (scalar : element.isArray = false)
      (isInt : length.ty = Ty.int)
      (dest_ : (Operand.temp id (Ty.array element.name)).Typed s temps)
      (length_ : length.Typed s temps) :
      Typed s temps (.newArray (.temp id (Ty.array element.name)) length element)
  | arrayLength {id : Nat} {array : Operand} (isArray : array.ty.isArray = true)
      (dest_ : (Operand.temp id Ty.int).Typed s temps) (array_ : array.Typed s temps) :
      Typed s temps (.arrayLength (.temp id Ty.int) array)
  | arrayStore {array index value : Operand} {element : Ty}
      (isArray : array.ty.element? = some element) (isInt : index.ty = Ty.int)
      (fits : s.trustsSuperclass = false → s.assignable element value.ty = true)
      (array_ : array.Typed s temps) (index_ : index.Typed s temps) (value_ : value.Typed s temps) :
      Typed s temps (.arrayStore array index value)
  | fieldRead {id : Nat} {name : String} {v : Variable} (instance_ : s.isStatic = false)
      (found : s.resolve? name = some v) (isField : v.isField = true)
      (dest_ : (Operand.temp id v.ty).Typed s temps) :
      Typed s temps (.fieldRead (.temp id v.ty) (.self s.table.classType) name v.ty)
  | fieldWrite {name : String} {v : Variable} {value : Operand} (instance_ : s.isStatic = false)
      (found : s.resolve? name = some v) (isField : v.isField = true)
      (fits : s.assignable v.ty value.ty = true) (value_ : value.Typed s temps) :
      Typed s temps (.fieldWrite (.self s.table.classType) name v.ty value)
  | retNone (returns : s.returns Ty.void = true) : Typed s temps (.ret none)
  | ret {value : Operand} (returns : s.returns value.ty = true) (value_ : value.Typed s temps) :
      Typed s temps (.ret (some value))
  | branch {condition : Condition} {target : String} (label : IsBlockLabel target)
      (condition_ : condition.Typed s temps) : Typed s temps (.branch condition target)
  | jump {target : String} (label : IsBlockLabel target) : Typed s temps (.jump target)
  | label {name : String} (label : IsBlockLabel name) : Typed s temps (.label name)

/-- Code in which every instruction is typed, and every allocation is followed by the constructor
call on the object it makes. -/
inductive Code.Typed (s : Scope) (temps : List Ty) : List Instr → Prop
  | nil : Typed s temps []
  | instr {i : Instr} {rest : List Instr} (head : i.Typed s temps) (tail : Typed s temps rest) :
      Typed s temps (i :: rest)
  | allocation {id : Nat} {className : String} {rest : List Instr}
      (known : s.knowsClass className = true)
      (dest_ : (Operand.temp id (Ty.scalar className)).Typed s temps) (tail : Typed s temps rest) :
      Typed s temps (.newObject (.temp id (Ty.scalar className)) className ::
        .call none .constructor (.temp id (Ty.scalar className)) constructorName [] Ty.void :: rest)

variable {s : Scope} {temps more : List Ty}

/-! ## More temporaries -/

theorem Operand.Typed.mono {o : Operand} (h : o.Typed s temps) (hw : temps <+: more) :
    o.Typed s more := by
  induction h with
  | temp known =>
    obtain ⟨rest, rfl⟩ := hw
    exact .temp (by rw [List.getElem?_append_left (List.getElem?_eq_some_iff.mp known).1, known])
  | var found stored => exact .var found stored
  | self h => exact .self h
  | int v => exact .int v
  | boolean v => exact .boolean v
  | element isArray _ isInt _ iha ihi => exact .element isArray iha isInt ihi

theorem Condition.Typed.mono {c : Condition} (h : c.Typed s temps) (hw : temps <+: more) :
    c.Typed s more := by
  cases h with
  | compare hr ht hl hr' => exact .compare hr ht (hl.mono hw) (hr'.mono hw)
  | truthy hb hv => exact .truthy hb (hv.mono hw)

theorem CallKind.Typed.mono {k : CallKind} {on : Operand} (h : k.Typed s temps on)
    (hw : temps <+: more) : k.Typed s more on := by
  cases h with
  | static name => exact .static name
  | virtual hr ho => exact .virtual hr (ho.mono hw)

theorem Instr.Typed.mono {i : Instr} (h : i.Typed s temps) (hw : temps <+: more) :
    i.Typed s more := by
  cases h with
  | assign hs hf hd hv => exact .assign hs hf (hd.mono hw) (hv.mono hw)
  | binary ht hd hl hr => exact .binary ht (hd.mono hw) (hl.mono hw) (hr.mono hw)
  | not hb hd ho => exact .not hb (hd.mono hw) (ho.mono hw)
  | call ho ha hr => exact .call (ho.mono hw) (fun a h => (ha a h).mono hw) hr
  | callInto ho ha hv hd =>
    exact .callInto (ho.mono hw) (fun a h => (ha a h).mono hw) hv (hd.mono hw)
  | newArray he hi hd hl => exact .newArray he hi (hd.mono hw) (hl.mono hw)
  | arrayLength ha hd h => exact .arrayLength ha (hd.mono hw) (h.mono hw)
  | arrayStore ha hi hf h₁ h₂ h₃ => exact .arrayStore ha hi hf (h₁.mono hw) (h₂.mono hw) (h₃.mono hw)
  | fieldRead hs hf hi hd => exact .fieldRead hs hf hi (hd.mono hw)
  | fieldWrite hs hf hi ha hv => exact .fieldWrite hs hf hi ha (hv.mono hw)
  | retNone hr => exact .retNone hr
  | ret hr hv => exact .ret hr (hv.mono hw)
  | branch hl hc => exact .branch hl (hc.mono hw)
  | jump hl => exact .jump hl
  | label hl => exact .label hl

theorem Code.Typed.mono {code : List Instr} (h : Code.Typed s temps code) (hw : temps <+: more) :
    Code.Typed s more code := by
  induction h with
  | nil => exact .nil
  | instr head _ ih => exact .instr (head.mono hw) ih
  | allocation known dest _ ih => exact .allocation known (dest.mono hw) ih

/-- Typed codes follow each other. -/
theorem Code.Typed.append {code rest : List Instr} (h : Code.Typed s temps code)
    (hr : Code.Typed s temps rest) : Code.Typed s temps (code ++ rest) := by
  induction h with
  | nil => exact hr
  | instr head _ ih => exact .instr head ih
  | allocation known dest _ ih => exact .allocation known dest ih

/-! ## Operands -/

/-- A call is on a typed operand, or on a class where it is static. -/
theorem CallKind.Typed.operand {kind : CallKind} {on : Operand} (h : kind.Typed s temps on) :
    on.Typed s temps ∨ ∃ name, on = .ofClass name := by
  cases h with
  | static name => exact .inr ⟨name, rfl⟩
  | virtual _ on_ => exact .inl on_

theorem Condition.Typed.operands {c : Condition} (h : c.Typed s temps) :
    ∀ o ∈ c.operands, o.Typed s temps := by
  cases h with
  | compare _ _ left_ right_ => simp [Condition.operands, left_, right_]
  | truthy _ value_ => simp [Condition.operands, value_]

/-- The operands of a typed instruction are typed, but for the class that a static call is on. -/
theorem Instr.Typed.operands {i : Instr} (h : i.Typed s temps) :
    ∀ o ∈ i.operands, o.Typed s temps ∨ ∃ name, o = .ofClass name := by
  have called {kind : CallKind} {on : Operand} {args : List Operand} (on_ : kind.Typed s temps on)
      (args_ : ∀ a ∈ args, a.Typed s temps) :
      ∀ o ∈ on :: args, o.Typed s temps ∨ ∃ name, o = .ofClass name :=
    List.forall_mem_cons.mpr ⟨on_.operand, fun a ha => .inl (args_ a ha)⟩
  cases h with
  | call on_ args_ _ => exact called on_ args_
  | callInto on_ args_ _ dest_ => exact List.forall_mem_cons.mpr ⟨.inl dest_, called on_ args_⟩
  | branch _ condition_ => exact fun o ho => .inl (condition_.operands o ho)
  | fieldRead instance_ _ _ dest_ =>
    simp [Instr.operands, dest?, sources, dest_, Operand.Typed.self instance_]
  | fieldWrite instance_ _ _ _ value_ =>
    simp [Instr.operands, dest?, sources, value_, Operand.Typed.self instance_]
  | _ => simp_all [Instr.operands, dest?, sources]

theorem Code.Typed.operands {code : List Instr} (h : Code.Typed s temps code) :
    ∀ i ∈ code, ∀ o ∈ i.operands, o.Typed s temps ∨ ∃ name, o = .ofClass name := by
  induction h with
  | nil => exact List.forall_mem_nil _
  | instr head _ ih => exact List.forall_mem_cons.mpr ⟨head.operands, ih⟩
  | allocation _ dest_ _ ih =>
    refine List.forall_mem_cons.mpr ⟨?_, List.forall_mem_cons.mpr ⟨?_, ih⟩⟩ <;>
      exact List.forall_mem_singleton.mpr (.inl dest_)

end Tac

end JavaMinus
