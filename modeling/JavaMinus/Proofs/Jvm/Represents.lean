import JavaMinus.Jvm.Assembly
import JavaMinus.Proofs.Jvm.Held
import JavaMinus.Proofs.Jvm.Pieces
import JavaMinus.Proofs.Jvm.Slots
import JavaMinus.Proofs.Tac.Typed

/-!
# What can be represented

The stack machine has no value of type `void`, no descriptor for an array of `void`, and calls
methods on objects only. `Tac.Instr.isRepresentable` says that an instruction keeps to that. For
typed code this is the whole difference between code that has an assembly and code that has none:
selected code was representable (`representable_of_selects`), and typed representable code is
selected unless a call has too many arguments (`select_of_representable`).

Where `void` names no type of a scope and no class is named like a primitive type, everything typed
is representable (`Tac.Code.Typed.representable`).
-/

namespace JavaMinus

namespace Ty

/-- The type has values: every type but the scalar `void`. -/
def hasValues (t : Ty) : Bool := !t.isVoid || t.isArray

/-- The type has a descriptor: every type but an array of `void`. -/
def hasDescriptor (t : Ty) : Bool := !t.isVoid || !t.isArray

theorem hasValues_of_not_isVoid {t : Ty} (h : t.isVoid = false) : t.hasValues = true := by
  simp [hasValues, h]

theorem hasDescriptor_of_not_isVoid {t : Ty} (h : t.isVoid = false) : t.hasDescriptor = true := by
  simp [hasDescriptor, h]

end Ty

namespace Tac

/-- The operand has a value that the machine can hold. -/
def Operand.isRepresentable : Operand → Bool
  | .temp _ ty | .var _ ty => ty.hasValues
  | .element array index _ => array.isRepresentable && index.isRepresentable
  | _ => true

/-- What an instruction of a method with the given return type names has a descriptor, and a method
is called on an object. -/
def Instr.isNameable (returnTy : Ty) : Instr → Bool
  | .call _ kind on _ args ty =>
    args.all (fun a => !a.ty.isVoid) && ty.hasDescriptor && (kind != .virtual || on.ty.isReference)
  | .newArray _ _ element => !element.isVoid
  | .fieldRead _ _ _ ty | .fieldWrite _ _ ty _ => ty.hasDescriptor
  | .ret (some _) => returnTy.hasValues
  | _ => true

/-- An instruction of a method with the given return type works on values that the machine can hold,
and names nothing that the machine has no name for. -/
def Instr.isRepresentable (returnTy : Ty) (i : Instr) : Bool :=
  i.operands.all Operand.isRepresentable && i.isNameable returnTy

/-- A method has a descriptor and representable code. -/
def Method.isRepresentable (m : Method) : Bool :=
  m.params.all (fun p => !p.ty.isVoid) && m.returnTy.hasDescriptor &&
    m.code.all (Instr.isRepresentable m.returnTy)

/-- A class has descriptors for its fields and representable methods. -/
def ClassUnit.isRepresentable (u : ClassUnit) : Bool :=
  u.fields.all (fun f => f.ty.hasDescriptor) && u.methods.all Method.isRepresentable

end Tac

namespace Jvm

open Tac

theorem valueKind_eq_ok {ty : Ty} {kind : ValueKind} : valueKind ty = .ok kind ↔
    ty.hasValues = true ∧ kind = if ty.isReference then .ref else .int := by
  unfold valueKind Ty.hasValues
  cases ty.isVoid <;> cases ty.isArray <;> simp only [Bool.not_true, Bool.not_false, Bool.and_true,
    Bool.and_false, Bool.or_true, Bool.or_false, if_true, if_false, Bool.false_eq_true, true_and,
    false_and, reduceCtorEq, Except.ok.injEq] <;> exact eq_comm

namespace ClassNames

variable {n : ClassNames}

theorem descriptor_isOk {ty : Ty} : (∃ d, n.descriptor ty = .ok d) ↔ ty.hasDescriptor = true := by
  unfold descriptor Ty.hasDescriptor
  cases ty.isVoid <;> cases ty.isArray <;> simp

theorem paramDescriptor_isOk {ty : Ty} :
    (∃ d, n.paramDescriptor ty = .ok d) ↔ ty.isVoid = false := by
  unfold paramDescriptor descriptor
  cases ty.isVoid <;> cases ty.isArray <;> simp

theorem mapM_paramDescriptor_isOk {params : List Ty} :
    (∃ ds, params.mapM n.paramDescriptor = .ok ds) ↔ ∀ p ∈ params, p.isVoid = false := by
  induction params with
  | nil => simp [pure, Except.pure]
  | cons p rest ih =>
    rw [List.mapM_cons, List.forall_mem_cons, ← ih, ← paramDescriptor_isOk (n := n)]
    constructor
    · rintro ⟨_, h⟩
      obtain ⟨d, hd, h⟩ := bind_eq_ok.mp h
      obtain ⟨ds, hds, -⟩ := bind_eq_ok.mp h
      exact ⟨⟨d, hd⟩, ds, hds⟩
    · rintro ⟨⟨d, hd⟩, ds, hds⟩
      exact ⟨d :: ds, bind_eq_ok.mpr ⟨d, hd, bind_eq_ok.mpr ⟨ds, hds, rfl⟩⟩⟩

theorem methodDescriptor_isOk {params : List Ty} {returnTy : Ty} :
    (∃ d, n.methodDescriptor params returnTy = .ok d) ↔
      (∀ p ∈ params, p.isVoid = false) ∧ returnTy.hasDescriptor = true := by
  rw [← mapM_paramDescriptor_isOk (n := n), ← descriptor_isOk (n := n)]
  constructor
  · rintro ⟨_, h⟩
    obtain ⟨ds, hds, h⟩ := bind_eq_ok.mp h
    obtain ⟨d, hd, -⟩ := bind_eq_ok.mp h
    exact ⟨⟨ds, hds⟩, d, hd⟩
  · rintro ⟨⟨ds, hds⟩, d, hd⟩
    exact ⟨_, bind_eq_ok.mpr ⟨ds, hds, bind_eq_ok.mpr ⟨d, hd, rfl⟩⟩⟩

end ClassNames

namespace MethodContext

variable {x : MethodContext} {n : Nat} {code : List Instr} {s : Scope} {temps : List Ty}

/-! ## Selected code was representable -/

theorem Loads.representable {o : Operand} (h : x.Loads o code) : o.isRepresentable = true := by
  induction h with
  | temp held _ => exact (valueKind_eq_ok.mp held).1
  | var held _ => exact (valueKind_eq_ok.mp held).1
  | element _ _ _ iha ihi => rw [Operand.isRepresentable, iha, ihi]; rfl
  | _ => rfl

theorem LoadsAll.representable {os : List Operand} (h : x.LoadsAll os code) :
    ∀ o ∈ os, o.isRepresentable = true := by
  induction h with
  | nil => simp
  | cons first _ ih => exact List.forall_mem_cons.mpr ⟨first.representable, ih⟩

theorem Stores.representable {dest : Operand} (h : x.Stores dest code) :
    dest.isRepresentable = true := by
  obtain ⟨storage, held, -⟩ := h
  cases dest <;> first | exact (valueKind_eq_ok.mp held).1 | cases storage

theorem Receives.representable {kind : CallKind} {on : Operand} {invoke : InvokeKind}
    {owner : String} (h : x.Receives kind on invoke owner code) :
    on.isRepresentable = true ∧ (kind != .virtual || on.ty.isReference) = true := by
  cases h with
  | super h => exact ⟨rfl, rfl⟩
  | static => exact ⟨rfl, rfl⟩
  | virtual _ reference h => exact ⟨h.representable, by rw [reference, Bool.or_true]⟩

theorem Finishes.representable {dest : Option Operand} {returns : Bool}
    (h : x.Finishes dest returns code) : ∀ o ∈ dest, o.isRepresentable = true := by
  cases h with
  | stored h =>
    intro o ho
    cases ho
    exact h.representable
  | _ => simp

/-- The operands of a selected instruction have values that the machine can hold. -/
theorem Selects.operands_representable {i : Tac.Instr} (h : x.Selects n (.instr i) code) :
    ∀ o ∈ i.operands, o.isRepresentable = true := by
  cases h with
  | assign hv hs => simp [Instr.operands, Instr.dest?, Instr.sources, hv.representable,
      hs.representable]
  | binary hl hr _ hs => simp [Instr.operands, Instr.dest?, Instr.sources, hl.representable,
      hr.representable, hs.representable]
  | not hv hs => simp [Instr.operands, Instr.dest?, Instr.sources, hv.representable,
      hs.representable]
  | call ho ha _ _ hf =>
    intro o hmem
    simp only [Instr.operands, Instr.dest?, Instr.sources, List.mem_append, List.mem_cons,
      Option.mem_toList] at hmem
    rcases hmem with hmem | rfl | hmem
    · exact hf.representable o hmem
    · exact ho.representable.1
    · exact ha.representable o hmem
  | newArray hl _ hs => simp [Instr.operands, Instr.dest?, Instr.sources, hl.representable,
      hs.representable]
  | arrayLength ha hs => simp [Instr.operands, Instr.dest?, Instr.sources, ha.representable,
      hs.representable]
  | arrayStore _ ha hi hv => simp [Instr.operands, Instr.dest?, Instr.sources, ha.representable,
      hi.representable, hv.representable]
  | fieldRead ho _ hs => simp [Instr.operands, Instr.dest?, Instr.sources, ho.representable,
      hs.representable]
  | fieldWrite ho hv _ => simp [Instr.operands, Instr.dest?, Instr.sources, ho.representable,
      hv.representable]
  | ret _ hv => simp [Instr.operands, Instr.dest?, Instr.sources, hv.representable]
  | compare hl hr _ => simp [Instr.operands, Instr.dest?, Instr.sources, Condition.operands,
      hl.representable, hr.representable]
  | truthy hv => simp [Instr.operands, Instr.dest?, Instr.sources, Condition.operands,
      hv.representable]
  | _ => simp [Instr.operands, Instr.dest?, Instr.sources]

/-- What a selected instruction names has a descriptor. -/
theorem Selects.nameable {i : Tac.Instr} (h : x.Selects n (.instr i) code) :
    i.isNameable x.returnTy = true := by
  cases h with
  | call ho _ hd _ _ =>
    obtain ⟨hargs, hret⟩ := ClassNames.methodDescriptor_isOk.mp ⟨_, hd⟩
    simp only [Instr.isNameable, Bool.and_eq_true, List.all_eq_true, Bool.not_eq_true']
    exact ⟨⟨fun a h => hargs _ (List.mem_map_of_mem h), hret⟩, ho.representable.2⟩
  | newArray _ ha _ =>
    cases ha with
    | int named => simp [Instr.isNameable, Ty.isVoid, named]
    | boolean named => simp [Instr.isNameable, Ty.isVoid, named]
    | ref named =>
      simp only [Ty.hasPrimitiveName, Bool.or_eq_false_iff] at named
      simp [Instr.isNameable, Ty.isVoid, named.2]
  | fieldRead _ hd _ => exact ClassNames.descriptor_isOk.mp ⟨_, hd⟩
  | fieldWrite _ _ hd => exact ClassNames.descriptor_isOk.mp ⟨_, hd⟩
  | ret held _ => exact (valueKind_eq_ok.mp held).1
  | _ => rfl

/-- What is selected for an instruction shows that the instruction is representable. -/
theorem representable_of_selects {i : Tac.Instr} (h : x.Selects n (.instr i) code) :
    i.isRepresentable x.returnTy = true := by
  rw [Instr.isRepresentable, Bool.and_eq_true, List.all_eq_true]
  exact ⟨h.operands_representable, h.nameable⟩

/-! ## Typed representable code is selected -/

/-- The context of a method of a scope, with slots for the given keys. -/
structure Serves (x : MethodContext) (s : Scope) (keys : List SlotKey) : Prop where
  isStatic : x.isStatic = s.isStatic
  returnTy : x.returnTy = s.returnType
  slot : ∀ key ∈ keys, ∃ n, x.slots.slots[key]? = some n

variable {keys : List SlotKey}

theorem Serves.loads (hx : x.Serves s keys) {o : Operand} (ht : o.Typed s temps)
    (hr : o.isRepresentable = true) (hk : ∀ key ∈ slotKeys o, key ∈ keys) :
    ∃ code, x.Loads o code := by
  induction ht with
  | @temp id ty known =>
    obtain ⟨slot, hs⟩ := hx.slot (.temp id) (hk _ (by simp [slotKeys]))
    exact ⟨_, .temp (valueKind_eq_ok.mpr ⟨hr, rfl⟩) ((SlotTable.slot_eq_ok rfl).mpr hs)⟩
  | @var name v found stored =>
    obtain ⟨slot, hs⟩ := hx.slot (.var name) (hk _ (by simp [slotKeys]))
    exact ⟨_, .var (valueKind_eq_ok.mpr ⟨hr, rfl⟩) ((SlotTable.slot_eq_ok rfl).mpr hs)⟩
  | self instance_ => exact ⟨_, .self (hx.isStatic.trans instance_)⟩
  | int value => exact ⟨_, .intLit value _⟩
  | boolean value => exact ⟨_, .boolLit value _⟩
  | element isArray _ _ _ iha ihi =>
    rw [Operand.isRepresentable, Bool.and_eq_true] at hr
    obtain ⟨a, ha⟩ := iha hr.1 fun key h => hk key (List.mem_append_left _ h)
    obtain ⟨i, hi⟩ := ihi hr.2 fun key h => hk key (List.mem_append_right _ h)
    exact ⟨_, .element (arrayKind_of_isArray (Ty.element?_eq_some.mp isArray).1) ha hi⟩

theorem Serves.loadsAll (hx : x.Serves s keys) {os : List Operand} (ht : ∀ o ∈ os, o.Typed s temps)
    (hr : ∀ o ∈ os, o.isRepresentable = true) (hk : ∀ o ∈ os, ∀ key ∈ slotKeys o, key ∈ keys) :
    ∃ code, x.LoadsAll os code := by
  induction os with
  | nil => exact ⟨[], .nil⟩
  | cons o rest ih =>
    obtain ⟨ht, htr⟩ := List.forall_mem_cons.mp ht
    obtain ⟨hr, hrr⟩ := List.forall_mem_cons.mp hr
    obtain ⟨hk, hkr⟩ := List.forall_mem_cons.mp hk
    obtain ⟨first, hf⟩ := hx.loads ht hr hk
    obtain ⟨more, hm⟩ := ih htr hrr hkr
    exact ⟨first ++ more, .cons hf hm⟩

theorem Serves.stores (hx : x.Serves s keys) {dest : Operand} (hs : dest.isStorage = true)
    (hr : dest.isRepresentable = true) (hk : ∀ key ∈ slotKeys dest, key ∈ keys) :
    ∃ code, x.Stores dest code := by
  cases dest with
  | temp id ty =>
    obtain ⟨slot, h⟩ := hx.slot (.temp id) (hk _ (by simp [slotKeys]))
    exact ⟨_, .intro hs (valueKind_eq_ok.mpr ⟨hr, rfl⟩) ((SlotTable.slot_eq_ok rfl).mpr h)⟩
  | var name ty =>
    obtain ⟨slot, h⟩ := hx.slot (.var name) (hk _ (by simp [slotKeys]))
    exact ⟨_, .intro hs (valueKind_eq_ok.mpr ⟨hr, rfl⟩) ((SlotTable.slot_eq_ok rfl).mpr h)⟩
  | _ => cases hs

/-- The operands that a comparison takes can be compared. -/
theorem comparesBy_of_takes {op : BinaryOp} {left right : Ty} (hrel : op.isRelational = true)
    (h : op.Takes s left right) (target : String) :
    ∃ jump, ComparesBy op left right target jump := by
  obtain ⟨test, ht⟩ : ∃ test, comparison op = .ok test := by
    cases op <;> first | exact ⟨_, rfl⟩ | cases hrel
  cases heq : op.isEquality with
  | true =>
    cases hr : left.isReference || right.isReference with
    | true => exact ⟨_, .refs ht hr heq⟩
    | false =>
      obtain ⟨hl, hr⟩ := Bool.or_eq_false_iff.mp hr
      exact ⟨_, .ints ht hl hr⟩
  | false =>
    rw [BinaryOp.Takes, if_neg (by simp [heq])] at h
    obtain ⟨rfl, rfl⟩ := h
    have hint : op.operandType = Ty.int := by
      cases op <;> first | rfl | cases hrel
    rw [hint]
    exact ⟨_, .ints ht rfl rfl⟩

theorem operates_of_takes {op : BinaryOp} {left right : Ty} (h : op.Takes s left right) (n : Nat) :
    ∃ code, Operates n op left right code := by
  cases hrel : op.isRelational with
  | true =>
    obtain ⟨jump, hj⟩ := comparesBy_of_takes hrel h (whenTrue n)
    exact ⟨_, .compare hrel hj⟩
  | false =>
    obtain ⟨a, ha⟩ : ∃ a, arithmetic op = .ok a := by
      cases op <;> first | exact ⟨_, rfl⟩ | cases hrel
    exact ⟨_, .arith hrel ha⟩

theorem Serves.receives (hx : x.Serves s keys) {kind : CallKind} {on : Operand}
    (ht : kind.Typed s temps on) (hr : on.isRepresentable = true)
    (href : (kind != .virtual || on.ty.isReference) = true)
    (hk : ∀ key ∈ slotKeys on, key ∈ keys) :
    ∃ invoke owner code, x.Receives kind on invoke owner code := by
  cases ht with
  | static name => exact ⟨_, _, _, .static name _⟩
  | virtual receives on_ =>
    obtain ⟨code, hc⟩ := hx.loads on_ hr hk
    exact ⟨_, _, _, .virtual receives.1 (by simpa using href) hc⟩

/-- A call of which everything is there but room for the arguments. -/
theorem call_tooMany {dest : Option Operand} {kind : CallKind} {on : Operand} {method : String}
    {args : List Operand} {ty : Ty} {invoke : InvokeKind} {owner descriptor : String}
    {object values : List Instr} (ho : x.Receives kind on invoke owner object)
    (ha : x.LoadsAll args values)
    (hd : x.names.methodDescriptor (args.map Operand.ty) ty = .ok descriptor)
    (many : wordLimit < args.length) :
    x.piece n (.instr (.call dest kind on method args ty)) = .error .tooManyArguments := by
  simp only [piece, instr, call, receiver_eq_ok.mpr ho, loadAll_eq_ok.mpr ha, hd]
  exact if_pos many

/-- A call whose result is taken is selected, unless it passes too many arguments. -/
theorem Serves.selects_call (hx : x.Serves s keys) {dest : Option Operand} {kind : CallKind}
    {on : Operand} {method : String} {args : List Operand} {ty : Ty} (hon : kind.Typed s temps on)
    (hargs : ∀ a ∈ args, a.Typed s temps) (hr : ∀ o ∈ on :: args, o.isRepresentable = true)
    (hname : (Tac.Instr.call dest kind on method args ty).isNameable x.returnTy = true)
    (hk : ∀ o ∈ on :: args, ∀ key ∈ slotKeys o, key ∈ keys)
    (hrest : ∃ code, x.Finishes dest (!ty.isVoid) code) (n : Nat) :
    (∃ code, x.Selects n (.instr (.call dest kind on method args ty)) code) ∨
      x.piece n (.instr (.call dest kind on method args ty)) = .error .tooManyArguments := by
  obtain ⟨rest, hrest⟩ := hrest
  obtain ⟨hron, hrargs⟩ := List.forall_mem_cons.mp hr
  obtain ⟨hkon, hkargs⟩ := List.forall_mem_cons.mp hk
  simp only [Instr.isNameable, Bool.and_eq_true, List.all_eq_true, Bool.not_eq_true'] at hname
  obtain ⟨⟨hvoid, hret⟩, href⟩ := hname
  obtain ⟨invoke, owner, object, ho⟩ := hx.receives hon hron href hkon
  obtain ⟨values, ha⟩ := hx.loadsAll hargs hrargs hkargs
  obtain ⟨descriptor, hd⟩ : ∃ d, x.names.methodDescriptor (args.map Operand.ty) ty = .ok d :=
    ClassNames.methodDescriptor_isOk.mpr ⟨by simpa using hvoid, hret⟩
  by_cases many : wordLimit < args.length
  · exact .inr (call_tooMany ho ha hd many)
  · exact .inl ⟨_, .call ho ha hd (by omega) hrest⟩

/-- There are arrays of everything but `void`. -/
theorem exists_allocates {element : Ty} (h : element.isVoid = false) :
    ∃ allocation, x.Allocates element allocation := by
  by_cases hint : element.name = "int"
  · exact ⟨_, .int hint⟩
  · by_cases hb : element.name = "boolean"
    · exact ⟨_, .boolean hb⟩
    · refine ⟨_, .ref ?_⟩
      simp_all [Ty.hasPrimitiveName, Ty.isVoid]

/-- A typed representable instruction is selected, unless it passes too many arguments. -/
theorem Serves.selects (hx : x.Serves s keys) {i : Tac.Instr} (ht : i.Typed s temps)
    (hr : i.isRepresentable x.returnTy = true)
    (hk : ∀ o ∈ i.operands, ∀ key ∈ slotKeys o, key ∈ keys) (n : Nat) :
    (∃ code, x.Selects n (.instr i) code) ∨ x.piece n (.instr i) = .error .tooManyArguments := by
  rw [Instr.isRepresentable, Bool.and_eq_true, List.all_eq_true] at hr
  obtain ⟨hr, hname⟩ := hr
  have source : ∀ {o : Operand}, o ∈ i.sources → o ∈ i.operands := List.mem_append_right _
  have loads : ∀ {o : Operand}, o ∈ i.sources → o.Typed s temps → ∃ code, x.Loads o code :=
    fun hm ht => hx.loads ht (hr _ (source hm)) (hk _ (source hm))
  have stores : ∀ {o : Operand}, o ∈ i.operands → o.isStorage = true → ∃ code, x.Stores o code :=
    fun hm hs => hx.stores hs (hr _ hm) (hk _ hm)
  cases ht with
  | assign storage _ _ hv =>
    obtain ⟨v, hv⟩ := loads (by simp [Instr.sources]) hv
    obtain ⟨s, hs⟩ := stores List.mem_cons_self storage
    exact .inl ⟨_, .assign hv hs⟩
  | binary takes _ hl hright =>
    obtain ⟨l, hl⟩ := loads (by simp [Instr.sources]) hl
    obtain ⟨r, hright⟩ := loads (by simp [Instr.sources]) hright
    obtain ⟨o, ho⟩ := operates_of_takes takes n
    obtain ⟨s, hs⟩ := stores List.mem_cons_self rfl
    exact .inl ⟨_, .binary hl hright ho hs⟩
  | not _ _ hv =>
    obtain ⟨v, hv⟩ := loads (by simp [Instr.sources]) hv
    obtain ⟨s, hs⟩ := stores List.mem_cons_self rfl
    exact .inl ⟨_, .not hv hs⟩
  | @call kind on method args ty hon hargs _ =>
    refine hx.selects_call hon hargs (fun o h => hr o (source h)) hname
      (fun o h => hk o (source h)) ?_ n
    cases (!ty.isVoid) with
    | true => exact ⟨_, .dropped⟩
    | false => exact ⟨_, .nothing⟩
  | callInto hon hargs value _ =>
    obtain ⟨s, hs⟩ := stores List.mem_cons_self rfl
    exact hx.selects_call hon hargs (fun o h => hr o (source h)) hname (fun o h => hk o (source h))
      ⟨s, by rw [value]; exact .stored hs⟩ n
  | @newArray id length element _ _ _ hl =>
    obtain ⟨v, hl⟩ := loads (by simp [Instr.sources]) hl
    obtain ⟨s, hs⟩ := stores List.mem_cons_self rfl
    obtain ⟨a, ha⟩ : ∃ a, x.Allocates element a :=
      exists_allocates (by simpa [Instr.isNameable] using hname)
    exact .inl ⟨_, .newArray hl ha hs⟩
  | arrayLength _ _ ha =>
    obtain ⟨v, ha⟩ := loads (by simp [Instr.sources]) ha
    obtain ⟨s, hs⟩ := stores List.mem_cons_self rfl
    exact .inl ⟨_, .arrayLength ha hs⟩
  | arrayStore isArray _ _ ha hi hv =>
    obtain ⟨a, ha⟩ := loads (by simp [Instr.sources]) ha
    obtain ⟨i, hi⟩ := loads (by simp [Instr.sources]) hi
    obtain ⟨v, hv⟩ := loads (by simp [Instr.sources]) hv
    exact .inl ⟨_, .arrayStore (arrayKind_of_isArray (Ty.element?_eq_some.mp isArray).1) ha hi hv⟩
  | fieldRead instance_ _ _ _ =>
    have self : (Operand.self s.table.classType).Typed s temps := .self instance_
    obtain ⟨o, ho⟩ := loads (by simp [Instr.sources]) self
    obtain ⟨s, hs⟩ := stores List.mem_cons_self rfl
    obtain ⟨d, hd⟩ := ClassNames.descriptor_isOk.mpr hname
    exact .inl ⟨_, .fieldRead ho hd hs⟩
  | fieldWrite instance_ _ _ _ hv =>
    have self : (Operand.self s.table.classType).Typed s temps := .self instance_
    obtain ⟨o, ho⟩ := loads (by simp [Instr.sources]) self
    obtain ⟨v, hv⟩ := loads (by simp [Instr.sources]) hv
    obtain ⟨d, hd⟩ := ClassNames.descriptor_isOk.mpr hname
    exact .inl ⟨_, .fieldWrite ho hv hd⟩
  | retNone _ => exact .inl ⟨_, .retNone⟩
  | ret _ hv =>
    obtain ⟨v, hv⟩ := loads (by simp [Instr.sources]) hv
    exact .inl ⟨_, .ret (valueKind_eq_ok.mpr ⟨hname, rfl⟩) hv⟩
  | branch _ hc =>
    cases hc with
    | compare hrel takes hl hright =>
      obtain ⟨l, hl⟩ := loads (by simp [Instr.sources, Condition.operands]) hl
      obtain ⟨r, hright⟩ := loads (by simp [Instr.sources, Condition.operands]) hright
      obtain ⟨jump, hj⟩ := comparesBy_of_takes hrel takes _
      exact .inl ⟨_, .compare hl hright hj⟩
    | truthy _ hv =>
      obtain ⟨v, hv⟩ := loads (by simp [Instr.sources, Condition.operands]) hv
      exact .inl ⟨_, .truthy hv⟩
  | jump _ => exact .inl ⟨_, .jump _⟩
  | label _ => exact .inl ⟨_, .label _⟩

end MethodContext

/-! ## Typed bodies -/

/-- A piece of typed code: a typed instruction, or the allocation of a known class. -/
inductive Piece.Typed (s : Scope) (temps : List Ty) : Piece → Prop
  | instr {i : Tac.Instr} (typed : i.Typed s temps) : Typed s temps (.instr i)
  | newObject {id : Nat} {className : String} (known : s.knowsClass className = true)
      (dest_ : (Operand.temp id (Ty.scalar className)).Typed s temps) :
      Typed s temps (.newObject (.temp id (Ty.scalar className)) className)

/-- The operands that a piece mentions. -/
def Piece.operands : Piece → List Operand
  | .instr i => i.operands
  | .newObject dest _ => [dest]

variable {s : Scope} {temps : List Ty}

theorem pieces_cons_of_typed {i : Tac.Instr} (h : i.Typed s temps) (rest : List Tac.Instr) :
    pieces (i :: rest) = .instr i :: pieces rest := by
  cases rest with
  | nil => cases h <;> rfl
  | cons j rest => cases h <;> rfl

theorem pieces_allocation (dest : Operand) (className : String) (rest : List Tac.Instr) :
    pieces (.newObject dest className ::
      .call none .constructor dest constructorName [] Ty.void :: rest) =
        .newObject dest className :: pieces rest := by
  rw [pieces, if_pos (by simp [initialises])]

/-- The pieces of typed code are typed. -/
theorem typed_of_mem_pieces {code : List Tac.Instr} (h : Code.Typed s temps code) :
    ∀ p ∈ pieces code, p.Typed s temps := by
  induction h with
  | nil => simp [pieces]
  | instr head _ ih =>
    rw [pieces_cons_of_typed head, List.forall_mem_cons]
    exact ⟨.instr head, ih⟩
  | allocation known dest_ _ ih =>
    rw [pieces_allocation, List.forall_mem_cons]
    exact ⟨.newObject known dest_, ih⟩

/-- A piece mentions operands of the code only. -/
theorem operands_of_mem_pieces {code : List Tac.Instr} {p : Piece} (h : p ∈ pieces code) :
    ∀ o ∈ p.operands, ∃ i ∈ code, o ∈ i.operands := by
  intro o ho
  fun_induction pieces code with
  | case1 => cases h
  | case2 i =>
    obtain rfl : p = .instr i := by simpa using h
    exact ⟨i, List.mem_cons_self, ho⟩
  | case3 dest className i rest _ ih =>
    rcases List.mem_cons.mp h with rfl | h
    · exact ⟨.newObject dest className, List.mem_cons_self, List.mem_append_left _ ho⟩
    · obtain ⟨j, hj, hoj⟩ := ih h
      exact ⟨j, List.mem_cons_of_mem _ (List.mem_cons_of_mem _ hj), hoj⟩
  | case4 dest className i rest _ ih =>
    rcases List.mem_cons.mp h with rfl | h
    · exact ⟨_, List.mem_cons_self, ho⟩
    · obtain ⟨j, hj, hoj⟩ := ih h
      exact ⟨j, List.mem_cons_of_mem _ hj, hoj⟩
  | case5 i j rest _ ih =>
    rcases List.mem_cons.mp h with rfl | h
    · exact ⟨_, List.mem_cons_self, ho⟩
    · obtain ⟨k, hk, hok⟩ := ih h
      exact ⟨k, List.mem_cons_of_mem _ hk, hok⟩

theorem newObject_mem_of_mem_pieces {code : List Tac.Instr} {dest : Operand} {className : String}
    (h : .newObject dest className ∈ pieces code) : .newObject dest className ∈ code := by
  fun_induction pieces code with
  | case1 => cases h
  | case2 i => simp at h
  | case3 d c i rest _ ih =>
    rcases List.mem_cons.mp h with h | h
    · cases h
      exact List.mem_cons_self
    · exact List.mem_cons_of_mem _ (List.mem_cons_of_mem _ (ih h))
  | case4 d c i rest _ ih =>
    rcases List.mem_cons.mp h with h | h
    · cases h
    · exact List.mem_cons_of_mem _ (ih h)
  | case5 i j rest _ ih =>
    rcases List.mem_cons.mp h with h | h
    · cases h
    · exact List.mem_cons_of_mem _ (ih h)

namespace MethodContext

variable {x : MethodContext} {keys : List SlotKey}

theorem selectPieces_of_pieces {ps : List Piece} (hp : ∀ p ∈ ps, ∀ n, (∃ code, x.Selects n p code) ∨
    x.piece n p = .error .tooManyArguments) (n : Nat) :
    (∃ codes, x.selectPieces n ps = .ok codes) ∨
      x.selectPieces n ps = .error .tooManyArguments := by
  induction ps generalizing n with
  | nil => exact .inl ⟨[], rfl⟩
  | cons p rest ih =>
    obtain ⟨hp, hrest⟩ := List.forall_mem_cons.mp hp
    rcases hp n with ⟨code, hc⟩ | he
    · rcases ih hrest (n + p.comparisons) with ⟨codes, hcs⟩ | he
      · exact .inl ⟨code :: codes, by rw [selectPieces, piece_eq_ok.mpr hc, hcs]; rfl⟩
      · exact .inr (by rw [selectPieces, piece_eq_ok.mpr hc, he]; rfl)
    · exact .inr (by rw [selectPieces, he]; rfl)

/-- Typed representable code is selected, unless a call passes too many arguments. -/
theorem select_of_representable {code : List Tac.Instr} (hx : x.Serves s keys)
    (ht : Code.Typed s temps code) (hr : ∀ i ∈ code, i.isRepresentable x.returnTy = true)
    (hk : ∀ i ∈ code, ∀ o ∈ i.operands, ∀ key ∈ slotKeys o, key ∈ keys) :
    (∃ out, x.select code = .ok out) ∨ x.select code = .error .tooManyArguments := by
  have hp : ∀ p ∈ pieces code, ∀ n, (∃ out, x.Selects n p out) ∨
      x.piece n p = .error .tooManyArguments := by
    intro p hp n
    have hkeys : ∀ o ∈ p.operands, ∀ key ∈ slotKeys o, key ∈ keys := by
      intro o ho
      obtain ⟨i, hi, hio⟩ := operands_of_mem_pieces hp o ho
      exact hk i hi o hio
    cases typed_of_mem_pieces ht p hp with
    | instr typed => exact hx.selects typed (hr _ (mem_pieces hp)) hkeys n
    | @newObject id className known dest_ =>
      have hr := hr _ (newObject_mem_of_mem_pieces hp)
      rw [Instr.isRepresentable, Bool.and_eq_true, List.all_eq_true] at hr
      obtain ⟨out, ho⟩ := hx.stores rfl (hr.1 _ (List.mem_append_left _ List.mem_cons_self))
        (hkeys _ List.mem_cons_self)
      exact .inl ⟨_, .newObject ho⟩
  unfold select
  rcases selectPieces_of_pieces hp 0 with ⟨codes, hc⟩ | he
  · exact .inl ⟨codes.flatten, bind_eq_ok.mpr ⟨codes, hc, rfl⟩⟩
  · exact .inr (by rw [he]; rfl)

/-- Code that is selected was representable; of an allocation, the object. -/
theorem representable_of_select {code : List Tac.Instr} {out : List Instr}
    (h : x.select code = .ok out) (ht : Code.Typed s temps code) :
    ∀ i ∈ code, i.isRepresentable x.returnTy = true := by
  obtain ⟨codes, hc, -⟩ := select_eq_ok.mp h
  clear h
  generalize 0 = n at hc
  induction ht generalizing n codes with
  | nil => simp
  | instr head _ ih =>
    rw [pieces_cons_of_typed head] at hc
    cases hc with
    | cons first rest =>
      exact List.forall_mem_cons.mpr ⟨representable_of_selects first, ih _ _ rest⟩
  | allocation known dest_ _ ih =>
    rw [pieces_allocation] at hc
    cases hc with
    | cons first rest =>
      cases first with
      | newObject hs =>
        refine List.forall_mem_cons.mpr ⟨?_, List.forall_mem_cons.mpr ⟨?_, ih _ _ rest⟩⟩
        · simpa [Instr.isRepresentable, Instr.operands, Instr.dest?, Instr.sources, Instr.isNameable]
            using hs.representable
        · have hv : Ty.void.hasDescriptor = true := rfl
          simpa [Instr.isRepresentable, Instr.operands, Instr.dest?, Instr.sources,
            Instr.isNameable, hv] using hs.representable

end MethodContext

end Jvm

/-! ## Where nothing is `void` -/

/-- The name of no type of a scope is `void`, and no class that calls go to is named like a primitive
type. -/
structure Scope.Representable (s : Scope) : Prop where
  names : s.Names (· ≠ "void")
  receives : ∀ ty, s.Receives ty → ty.isReference = true
  returned : ∀ m ∈ s.table.methods, m.returnType.hasDescriptor = true
  result : s.returnType.hasDescriptor = true

namespace Tac

variable {s : Scope} {temps : List Ty}

/-- The type of a typed operand has a name of a property that all names of the scope have. -/
theorem Operand.Typed.name {names : String → Prop} {o : Operand} (h : o.Typed s temps)
    (hn : s.Names names) (ht : ∀ ty ∈ temps, names ty.name) : names o.ty.name := by
  induction h with
  | temp known => exact ht _ (List.mem_of_getElem? known)
  | var found _ => exact hn.declared _ _ found
  | self _ => exact hn.self
  | int _ => exact hn.int
  | boolean _ => exact hn.boolean
  | element isArray _ _ _ iha _ =>
    obtain ⟨-, rfl⟩ := Ty.element?_eq_some.mp isArray
    exact iha

section
variable (hs : s.Representable) (ht : ∀ ty ∈ temps, ty.name ≠ "void")
include hs ht

theorem Operand.Typed.isVoid {o : Operand} (h : o.Typed s temps) : o.ty.isVoid = false := by
  have := h.name hs.names ht
  simpa [Ty.isVoid] using this

theorem Operand.Typed.representable {o : Operand} (h : o.Typed s temps) :
    o.isRepresentable = true := by
  induction h with
  | temp known => exact Ty.hasValues_of_not_isVoid ((Operand.Typed.temp known).isVoid hs ht)
  | var found stored =>
    exact Ty.hasValues_of_not_isVoid ((Operand.Typed.var found stored).isVoid hs ht)
  | element _ _ _ _ iha ihi => rw [isRepresentable, iha, ihi]; rfl
  | _ => rfl

omit ht in
theorem CallKind.Typed.receives {kind : CallKind} {on : Operand} (h : kind.Typed s temps on) :
    (kind != .virtual || on.ty.isReference) = true := by
  cases h with
  | static name => rfl
  | virtual receives _ => rw [hs.receives _ receives, Bool.or_true]

theorem Instr.Typed.representable {i : Instr} (h : i.Typed s temps) :
    i.isRepresentable s.returnType = true := by
  have operands : ∀ o ∈ i.operands, o.isRepresentable = true := by
    intro o ho
    rcases h.operands o ho with ho | ⟨name, rfl⟩
    · exact ho.representable hs ht
    · rfl
  have returns {ty : Ty} (hr : s.MayReturn ty) : ty.hasDescriptor = true := by
    rcases hr with rfl | hv | ⟨m, hm, rfl⟩
    · rfl
    · exact Ty.hasDescriptor_of_not_isVoid hv
    · exact hs.returned m hm
  have arguments {args : List Operand} (ha : ∀ a ∈ args, a.Typed s temps) :
      ∀ a ∈ args, a.ty.isVoid = false := fun a h => (ha a h).isVoid hs ht
  have field {name : String} {v : Variable} (found : s.resolve? name = some v) :
      v.ty.hasDescriptor = true :=
    Ty.hasDescriptor_of_not_isVoid (by simpa [Ty.isVoid] using hs.names.declared _ _ found)
  rw [isRepresentable, Bool.and_eq_true, List.all_eq_true]
  refine ⟨operands, ?_⟩
  cases h with
  | call hon hargs hret =>
    simp only [isNameable, Bool.and_eq_true, List.all_eq_true, Bool.not_eq_true']
    exact ⟨⟨arguments hargs, returns hret⟩, hon.receives hs⟩
  | callInto hon hargs value hd =>
    simp only [isNameable, Bool.and_eq_true, List.all_eq_true, Bool.not_eq_true']
    exact ⟨⟨arguments hargs, Ty.hasDescriptor_of_not_isVoid value⟩, hon.receives hs⟩
  | @newArray id length element _ _ hd hl =>
    have hvoid : element.isVoid = false := hd.isVoid hs ht
    rw [isNameable, hvoid]
    rfl
  | fieldRead _ found => exact field found
  | fieldWrite _ found => exact field found
  | ret hret hv =>
    obtain ⟨hvoid, -⟩ := Scope.assignable_of_returns hret (hv.isVoid hs ht)
    exact Ty.hasValues_of_not_isVoid hvoid
  | _ => rfl

/-- Typed code is representable where nothing is `void`. -/
theorem Code.Typed.representable {code : List Instr} (h : Code.Typed s temps code) :
    ∀ i ∈ code, i.isRepresentable s.returnType = true := by
  induction h with
  | nil => simp
  | instr head _ ih => exact List.forall_mem_cons.mpr ⟨head.representable hs ht, ih⟩
  | allocation _ dest_ _ ih =>
    have hd := dest_.representable hs ht
    have hv : Ty.void.hasDescriptor = true := rfl
    refine List.forall_mem_cons.mpr ⟨?_, List.forall_mem_cons.mpr ⟨?_, ih⟩⟩
    · simp [Instr.isRepresentable, Instr.operands, Instr.dest?, Instr.sources, Instr.isNameable, hd]
    · simp [Instr.isRepresentable, Instr.operands, Instr.dest?, Instr.sources, Instr.isNameable, hd,
        hv]

end

end Tac

end JavaMinus
