import Mathlib.Logic.ExistsUnique
import JavaMinus.Proofs.Jvm.Aligns

/-!
# What selected code can hold

What an instruction of selected code can be (`Selects.emits`): it moves a value to or from the slot of
an operand, it jumps where its piece jumps, it is the invocation that its piece spells, or it does none
of these. A property of all instructions of selected code is a case analysis over `Emits`, and does not
go through selection again.

The jumps of a comparison go to its own two labels, and those of other pieces where the three-address
instruction goes. So where a body places every label that it jumps to, the selected code does
(`MethodContext.jumps_of_select`).
-/

namespace JavaMinus.Jvm

open Tac

/-- The slot that the instruction reads or writes. -/
def Instr.slot? : Instr → Option Nat
  | .load _ slot | .store _ slot => some slot
  | _ => none

/-- The instruction calls a method or a constructor. -/
def Instr.isInvoke : Instr → Bool
  | .invoke .. => true
  | _ => false

/-- The labels that a piece jumps to, after `n` comparisons. -/
def Piece.targets (n : Nat) : Piece → List String
  | .instr i => if needsLabels i then comparisonLabels n else i.target?.toList
  | .newObject .. => []

namespace MethodContext

variable {x : MethodContext} {n : Nat} {code : List Instr}

/-- The invocation in the code of a piece. That of a call is spelled from the types of its arguments and
its result; the constructor behind an allocation takes no arguments and leaves nothing. -/
inductive Spells (x : MethodContext) : Piece → Instr → Prop
  | call {dest : Option Operand} {kind : CallKind} {on : Operand} {method : String}
      {args : List Operand} {ty : Ty} {invoke : InvokeKind} {owner descriptor : String}
      (descriptor_ : x.names.methodDescriptor (args.map Operand.ty) ty = .ok descriptor) :
      Spells x (.instr (.call dest kind on method args ty))
        (.invoke invoke owner method descriptor args.length (!ty.isVoid))
  | newObject {dest : Operand} {className : String} : Spells x (.newObject dest className)
      (.invoke .special (x.names.qualify className) constructorName "()V" 0 false)

/-- What the code of a piece is made of, after `n` comparisons. -/
inductive Emits (x : MethodContext) (n : Nat) (p : Piece) : Instr → Prop
  | load {o : Operand} {kind : ValueKind} {slot : Nat} (slot_ : x.slots.slot o = .ok slot) :
      Emits x n p (.load kind slot)
  | self (instance_ : x.isStatic = false) : Emits x n p (.load .ref 0)
  | store {o : Operand} {kind : ValueKind} {slot : Nat} (slot_ : x.slots.slot o = .ok slot) :
      Emits x n p (.store kind slot)
  | jump {i : Instr} (slot_ : i.slot? = none) (silent : i.isInvoke = false)
      (targets_ : ∀ name, i.target? = some name → name ∈ p.targets n) : Emits x n p i
  | invoke {kind : InvokeKind} {owner name descriptor : String} {argCount : Nat} {returns : Bool}
      (spells_ : x.Spells p (.invoke kind owner name descriptor argCount returns)) :
      Emits x n p (.invoke kind owner name descriptor argCount returns)
  | other {i : Instr} (slot_ : i.slot? = none) (silent : i.isInvoke = false)
      (target_ : i.target? = none) : Emits x n p i

/-- The code is made of what the code of a piece is made of. -/
def EmitsAll (x : MethodContext) (n : Nat) (p : Piece) (code : List Instr) : Prop :=
  ∀ i ∈ code, x.Emits n p i

variable {p : Piece} {rest : List Instr}

theorem emitsAll_nil : x.EmitsAll n p [] := List.forall_mem_nil _

theorem EmitsAll.append (h : x.EmitsAll n p code) (hr : x.EmitsAll n p rest) :
    x.EmitsAll n p (code ++ rest) :=
  List.forall_mem_append.mpr ⟨h, hr⟩

theorem Emits.cons {i : Instr} (h : x.Emits n p i) (hr : x.EmitsAll n p rest) :
    x.EmitsAll n p (i :: rest) :=
  List.forall_mem_cons.mpr ⟨h, hr⟩

theorem Emits.single {i : Instr} (h : x.Emits n p i) : x.EmitsAll n p [i] := h.cons emitsAll_nil

/-! ## Parts of selected code -/

theorem Loads.emits {o : Operand} (h : x.Loads o code) : x.EmitsAll n p code := by
  induction h with
  | temp _ slot_ => exact (Emits.load slot_).single
  | var _ slot_ => exact (Emits.load slot_).single
  | self instance_ => exact (Emits.self instance_).single
  | intLit => exact (Emits.other rfl rfl rfl).single
  | boolLit => exact (Emits.other rfl rfl rfl).single
  | element _ _ _ iha ihi => exact (iha.append ihi).append (Emits.other rfl rfl rfl).single

theorem LoadsAll.emits {os : List Operand} (h : x.LoadsAll os code) : x.EmitsAll n p code := by
  induction h with
  | nil => exact emitsAll_nil
  | cons first _ ih => exact first.emits.append ih

theorem Stores.emits {dest : Operand} (h : x.Stores dest code) : x.EmitsAll n p code := by
  obtain ⟨-, -, slot_⟩ := h
  exact (Emits.store slot_).single

theorem Receives.emits {kind : CallKind} {on : Operand} {invoke : InvokeKind} {owner : String}
    (h : x.Receives kind on invoke owner code) : x.EmitsAll n p code := by
  cases h with
  | super self_ => exact self_.emits
  | static => exact emitsAll_nil
  | virtual _ _ on_ => exact on_.emits

theorem Finishes.emits {dest : Option Operand} {returns : Bool} (h : x.Finishes dest returns code) :
    x.EmitsAll n p code := by
  cases h with
  | stored dest_ => exact dest_.emits
  | dropped => exact (Emits.other rfl rfl rfl).single
  | nothing => exact emitsAll_nil

theorem emits_of_comparesBy {op : BinaryOp} {left right : Ty} {target : String} {i : Instr}
    (h : ComparesBy op left right target i) (ht : target ∈ p.targets n) : x.Emits n p i := by
  refine .jump (by cases h <;> rfl) (by cases h <;> rfl) fun name hname => ?_
  cases h <;> cases hname <;> exact ht

/-! ## Pieces -/

/-- The code of a piece is made of its loads and stores, its jumps and what is neither. -/
theorem Selects.emits (h : x.Selects n p code) : x.EmitsAll n p code := by
  cases h with
  | assign value_ dest_ => exact value_.emits.append dest_.emits
  | @binary dest left right op l r o s left_ right_ op_ dest_ =>
    refine ((left_.emits.append right_.emits).append ?_).append dest_.emits
    cases op_ with
    | arith => exact (Emits.other rfl rfl rfl).single
    | compare relational jump_ =>
      have own (name : String) (h : name ∈ comparisonLabels n) :
          name ∈ (Piece.instr (.binary dest op left right)).targets n := by
        rw [Piece.targets, needsLabels, if_pos relational]
        exact h
      refine (emits_of_comparesBy jump_ (own _ (by simp [comparisonLabels]))).cons
        ((Emits.other rfl rfl rfl).cons ((Emits.jump rfl rfl fun name hname => ?_).cons ((Emits.other rfl rfl rfl).cons
          ((Emits.other rfl rfl rfl).cons (Emits.other rfl rfl rfl).single))))
      cases hname
      exact own _ (by simp [comparisonLabels])
  | not operand_ dest_ =>
    exact (operand_.emits.append ((Emits.other rfl rfl rfl).cons (Emits.other rfl rfl rfl).single)).append
      dest_.emits
  | call on_ args_ descriptor_ _ dest_ =>
    exact (on_.emits.append args_.emits).append ((Emits.invoke (.call descriptor_)).cons dest_.emits)
  | newArray length_ allocation_ dest_ =>
    refine length_.emits.append (Emits.cons ?_ dest_.emits)
    cases allocation_ <;> exact .other rfl rfl rfl
  | arrayLength array_ dest_ => exact array_.emits.append ((Emits.other rfl rfl rfl).cons dest_.emits)
  | arrayStore _ array_ index_ value_ =>
    exact ((array_.emits.append index_.emits).append value_.emits).append (Emits.other rfl rfl rfl).single
  | fieldRead object_ _ dest_ =>
    exact object_.emits.append ((Emits.other rfl rfl rfl).cons dest_.emits)
  | fieldWrite object_ value_ _ =>
    exact (object_.emits.append value_.emits).append (Emits.other rfl rfl rfl).single
  | retNone => exact (Emits.other rfl rfl rfl).single
  | ret _ value_ => exact value_.emits.append (Emits.other rfl rfl rfl).single
  | compare left_ right_ jump_ =>
    exact (left_.emits.append right_.emits).append
      (emits_of_comparesBy jump_ (by simp [Piece.targets, needsLabels, Tac.Instr.target?])).single
  | truthy value_ =>
    refine value_.emits.append (Emits.jump rfl rfl fun name hname => ?_).single
    cases hname
    simp [Piece.targets, needsLabels, Tac.Instr.target?]
  | jump target =>
    refine (Emits.jump rfl rfl fun name hname => ?_).single
    cases hname
    simp [Piece.targets, needsLabels, Tac.Instr.target?]
  | label name => exact (Emits.other rfl rfl rfl).single
  | newObject dest_ =>
    exact (Emits.other rfl rfl rfl).cons ((Emits.other rfl rfl rfl).cons
      ((Emits.invoke .newObject).cons dest_.emits))

theorem SelectsAll.emits {ps : List Piece} {codes : List (List Instr)} (h : x.SelectsAll n ps codes) :
    ∀ i ∈ codes.flatten, ∃ n, ∃ p ∈ ps, x.Emits n p i := by
  induction h with
  | nil => simp
  | cons head _ ih =>
    intro i hi
    rcases List.mem_append.mp (List.flatten_cons ▸ hi) with hi | hi
    · exact ⟨_, _, List.mem_cons_self, head.emits i hi⟩
    · obtain ⟨n, p, hp, he⟩ := ih i hi
      exact ⟨n, p, List.mem_cons_of_mem _ hp, he⟩

/-- An invocation in selected code is spelled by a piece of the body. -/
theorem spells_of_select {body : List Tac.Instr} (h : x.select body = .ok code) {kind : InvokeKind}
    {owner name descriptor : String} {argCount : Nat} {returns : Bool}
    (hi : .invoke kind owner name descriptor argCount returns ∈ code) :
    ∃ p ∈ pieces body, x.Spells p (.invoke kind owner name descriptor argCount returns) := by
  obtain ⟨codes, hcodes, rfl⟩ := select_eq_ok.mp h
  obtain ⟨n, p, hp, he⟩ := hcodes.emits _ hi
  cases he with
  | invoke spells_ => exact ⟨p, hp, spells_⟩
  | jump _ silent _ => cases silent
  | other _ silent _ => cases silent

/-- A jump in the code of a piece goes where the piece jumps. -/
theorem Emits.target {i : Instr} (h : x.Emits n p i) {name : String} (ht : i.target? = some name) :
    name ∈ p.targets n := by
  cases h with
  | jump _ _ targets_ => exact targets_ name ht
  | other _ _ target_ =>
    rw [target_] at ht
    cases ht
  | _ => cases ht

/-! ## Jumps of bodies -/

/-- Code jumps to the labels of its comparisons, or where its body jumps. -/
theorem Aligns.target {body : List Tac.Instr} (h : x.Aligns n body code) {i : Instr} (hi : i ∈ code)
    {name : String} (ht : i.target? = some name) :
    name ∈ labelsOf code ∨ ∃ j ∈ body, j.target? = some name := by
  induction h with
  | nil => cases hi
  | @instr n j body code rest here behind ih =>
    rw [labelsOf_append, List.mem_append]
    rcases List.mem_append.mp hi with hi | hi
    · have hmem := (here.emits i hi).target ht
      rw [Piece.targets] at hmem
      split at hmem
      · next needs =>
        rw [here.labels, Piece.labels, if_pos needs]
        exact .inl (.inl hmem)
      · exact .inr ⟨j, List.mem_cons_self, by simpa using hmem⟩
    · rcases ih hi with h | ⟨j, hj, h⟩
      · exact .inl (.inr h)
      · exact .inr ⟨j, List.mem_cons_of_mem _ hj, h⟩
  | @allocation n dest className j body code rest here init behind ih =>
    rw [labelsOf_append, List.mem_append]
    rcases List.mem_append.mp hi with hi | hi
    · cases (here.emits i hi).target ht
    · rcases ih hi with h | ⟨j, hj, h⟩
      · exact .inl (.inr h)
      · exact .inr ⟨j, List.mem_cons_of_mem _ (List.mem_cons_of_mem _ hj), h⟩

/-- Code has the labels of its body. -/
theorem Aligns.labels_subset {body : List Tac.Instr} (h : x.Aligns n body code) :
    Tac.labelsOf body ⊆ labelsOf code := by
  intro name hname
  obtain ⟨i, hi, hlabel⟩ := List.mem_filterMap.mp hname
  obtain ⟨k, hk⟩ := List.mem_iff_getElem?.mp hi
  rw [Tac.Instr.label?_eq_some.mp hlabel] at hk
  obtain ⟨l, -, hl, -⟩ := h.at_label hk
  exact List.mem_filterMap.mpr ⟨_, List.mem_of_getElem? hl, rfl⟩

theorem label?_eq_some {i : Instr} {name : String} : i.label? = some name ↔ i = .label name := by
  cases i <;> simp [Instr.label?]

/-- Where a body places every label that it jumps to, none of them twice and none that is one of a
comparison, every jump of the selected code has exactly one place to go to. -/
theorem jumps_of_select {body : List Tac.Instr} (once : (Tac.labelsOf body).Nodup)
    (plain : ∀ name ∈ Tac.labelsOf body, ∀ k, name ∉ comparisonLabels k)
    (jumps : ∀ i ∈ body, ∀ name, i.target? = some name → name ∈ Tac.labelsOf body)
    (h : x.select body = .ok code) :
    ∀ i ∈ code, ∀ name, i.target? = some name → ∃! k : Nat, code[k]? = some (.label name) := by
  intro i hi name ht
  obtain ⟨codes, hcodes, rfl⟩ := select_eq_ok.mp h
  have aligns := aligns_of_selectsAll hcodes
  have hmem : name ∈ labelsOf codes.flatten := by
    rcases aligns.target hi ht with h | ⟨j, hj, h⟩
    · exact h
    · exact aligns.labels_subset (jumps j hj name h)
  obtain ⟨j, hj, hlabel⟩ := List.mem_filterMap.mp hmem
  obtain ⟨k, hk⟩ := List.mem_iff_getElem?.mp hj
  rw [label?_eq_some.mp hlabel] at hk
  exact ⟨k, hk, fun l hl => index_unique (aligns.labels_nodup once plain) hl hk rfl rfl⟩

end MethodContext

end JavaMinus.Jvm
