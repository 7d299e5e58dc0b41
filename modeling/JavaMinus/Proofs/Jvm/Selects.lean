import JavaMinus.Jvm.Select
import JavaMinus.Proofs.Typing.Sites

/-!
# What selection selects

Instruction selection as relations: which code pushes an operand (`Loads`), which pops into one
(`Stores`), and which stands for a piece of three-address code (`Selects`), each with the conditions
under which it does. The relations hold exactly when the functions succeed with that code, so what
is proved of selected code is a case analysis over `Selects` and never unfolds selection, and to show
that selection succeeds is to give a derivation.
-/

namespace JavaMinus.Jvm

open Tac

/-- The jump of a comparison: references are compared for equality only. -/
inductive ComparesBy (op : BinaryOp) (left right : Ty) (target : String) : Instr → Prop
  | ints {test : Comparison} (test_ : comparison op = .ok test) (left_ : left.isReference = false)
      (right_ : right.isReference = false) : ComparesBy op left right target (.ifInts test target)
  | refs {test : Comparison} (test_ : comparison op = .ok test)
      (reference : (left.isReference || right.isReference) = true) (equality : op.isEquality = true) :
      ComparesBy op left right target (.ifRefs test target)

theorem compareJump_eq_ok {op : BinaryOp} {left right : Ty} {target : String} {i : Instr} :
    compareJump op left right target = .ok i ↔ ComparesBy op left right target i := by
  unfold compareJump
  constructor
  · intro h
    obtain ⟨test, ht, h⟩ := bind_eq_ok.mp h
    split at h
    · next hr =>
      split at h
      · next he =>
        cases h
        exact .refs ht hr he
      · cases h
    · next hr =>
      cases h
      obtain ⟨hl, hr⟩ : left.isReference = false ∧ right.isReference = false := by simpa using hr
      exact .ints ht hl hr
  · rintro (⟨ht, hl, hr⟩ | ⟨ht, hr, he⟩)
    · rw [ht, hl, hr]
      rfl
    · rw [ht, hr, he]
      rfl

/-- The instruction moves one value between the stack, the slots and an array. -/
def Instr.isPlain : Instr → Bool
  | .load .. | .store .. | .const _ | .arrayLoad _ | .pop => true
  | _ => false

namespace MethodContext

variable {x : MethodContext} {n : Nat} {code : List Instr}

/-- Code that pushes the value of an operand. -/
inductive Loads (x : MethodContext) : Operand → List Instr → Prop
  | temp {id : Nat} {ty : Ty} {kind : ValueKind} {slot : Nat} (held : valueKind ty = .ok kind)
      (slot_ : x.slots.slot (.temp id ty) = .ok slot) : Loads x (.temp id ty) [.load kind slot]
  | var {name : String} {ty : Ty} {kind : ValueKind} {slot : Nat} (held : valueKind ty = .ok kind)
      (slot_ : x.slots.slot (.var name ty) = .ok slot) : Loads x (.var name ty) [.load kind slot]
  | self {ty : Ty} (instance_ : x.isStatic = false) : Loads x (.self ty) [.load .ref 0]
  | intLit (value : Int32) (ty : Ty) : Loads x (.intLit value ty) [.const value]
  | boolLit (value : Bool) (ty : Ty) :
      Loads x (.boolLit value ty) [.const (if value then 1 else 0)]
  | element {array index : Operand} {ty : Ty} {kind : ArrayKind} {a i : List Instr}
      (elements : arrayKind array.ty = .ok kind) (array_ : Loads x array a)
      (index_ : Loads x index i) : Loads x (.element array index ty) (a ++ i ++ [.arrayLoad kind])

/-- Code that pushes the values of operands in order. -/
inductive LoadsAll (x : MethodContext) : List Operand → List Instr → Prop
  | nil : LoadsAll x [] []
  | cons {o : Operand} {os : List Operand} {first rest : List Instr} (first_ : x.Loads o first)
      (rest_ : LoadsAll x os rest) : LoadsAll x (o :: os) (first ++ rest)

/-- Code that pops the top of the stack into an operand. -/
inductive Stores (x : MethodContext) (dest : Operand) : List Instr → Prop
  | intro {kind : ValueKind} {slot : Nat} (storage : dest.isStorage = true)
      (held : valueKind dest.ty = .ok kind) (slot_ : x.slots.slot dest = .ok slot) :
      Stores x dest [.store kind slot]

/-- How a call finds its method, the class it is looked up in, and code that pushes the receiver. -/
inductive Receives (x : MethodContext) : CallKind → Operand → InvokeKind → String → List Instr → Prop
  | super {ty : Ty} {object : List Instr} (self_ : x.Loads (.self ty) object) :
      Receives x .constructor (.self ty) .special x.superClass object
  | static (name : String) (ty : Ty) :
      Receives x .static (.classRef name ty) .static (x.names.qualify name) []
  | virtual {on : Operand} {object : List Instr} (scalar : on.ty.isArray = false)
      (reference : on.ty.isReference = true) (on_ : x.Loads on object) :
      Receives x .virtual on .virtual (x.names.qualify on.ty.name) object

/-- What is done with the result of a call: it is stored, or dropped where nothing wants it. -/
inductive Finishes (x : MethodContext) : Option Operand → Bool → List Instr → Prop
  | stored {dest : Operand} {rest : List Instr} (dest_ : x.Stores dest rest) :
      Finishes x (some dest) true rest
  | dropped : Finishes x none true [.pop]
  | nothing : Finishes x none false []

/-- The code of an operator behind its operands: an operation, or a comparison that leaves one or
zero. -/
inductive Operates (n : Nat) (op : BinaryOp) (left right : Ty) : List Instr → Prop
  | arith {a : Arith} (relational : op.isRelational = false) (arith_ : arithmetic op = .ok a) :
      Operates n op left right [.arith a]
  | compare {jump : Instr} (relational : op.isRelational = true)
      (jump_ : ComparesBy op left right (whenTrue n) jump) :
      Operates n op left right [jump, .const 0, .goto (whenDone n), .label (whenTrue n), .const 1,
        .label (whenDone n)]

/-- The allocation of an array of a type. -/
inductive Allocates (x : MethodContext) (element : Ty) : Instr → Prop
  | int (named : element.name = "int") : Allocates x element (.newArray "int")
  | boolean (named : element.name = "boolean") : Allocates x element (.newArray "boolean")
  | ref (named : element.hasPrimitiveName = false) :
      Allocates x element (.newRefArray (x.names.qualify element.name))

/-- The code of a piece, after `n` comparisons. -/
inductive Selects (x : MethodContext) (n : Nat) : Piece → List Instr → Prop
  | assign {dest value : Operand} {v s : List Instr} (value_ : x.Loads value v)
      (dest_ : x.Stores dest s) : Selects x n (.instr (.assign dest value)) (v ++ s)
  | binary {dest left right : Operand} {op : BinaryOp} {l r o s : List Instr}
      (left_ : x.Loads left l) (right_ : x.Loads right r)
      (op_ : Operates n op left.ty right.ty o) (dest_ : x.Stores dest s) :
      Selects x n (.instr (.binary dest op left right)) (l ++ r ++ o ++ s)
  | not {dest operand : Operand} {v s : List Instr} (operand_ : x.Loads operand v)
      (dest_ : x.Stores dest s) :
      Selects x n (.instr (.not dest operand)) (v ++ [.const 1, .arith .xor] ++ s)
  | call {dest : Option Operand} {kind : CallKind} {on : Operand} {method : String}
      {args : List Operand} {ty : Ty} {invoke : InvokeKind} {owner descriptor : String}
      {object values rest : List Instr} (on_ : x.Receives kind on invoke owner object)
      (args_ : x.LoadsAll args values)
      (descriptor_ : x.names.methodDescriptor (args.map Operand.ty) ty = .ok descriptor)
      (few : args.length ≤ wordLimit) (dest_ : x.Finishes dest (!ty.isVoid) rest) :
      Selects x n (.instr (.call dest kind on method args ty)) (object ++ values ++
        .invoke invoke owner method descriptor args.length (!ty.isVoid) :: rest)
  | newArray {dest length : Operand} {element : Ty} {v s : List Instr} {allocation : Instr}
      (length_ : x.Loads length v) (allocation_ : x.Allocates element allocation)
      (dest_ : x.Stores dest s) :
      Selects x n (.instr (.newArray dest length element)) (v ++ allocation :: s)
  | arrayLength {dest array : Operand} {v s : List Instr} (array_ : x.Loads array v)
      (dest_ : x.Stores dest s) :
      Selects x n (.instr (.arrayLength dest array)) (v ++ .arrayLength :: s)
  | arrayStore {array index value : Operand} {kind : ArrayKind} {a i v : List Instr}
      (elements : arrayKind array.ty = .ok kind) (array_ : x.Loads array a)
      (index_ : x.Loads index i) (value_ : x.Loads value v) :
      Selects x n (.instr (.arrayStore array index value)) (a ++ i ++ v ++ [.arrayStore kind])
  | fieldRead {dest object : Operand} {field descriptor : String} {ty : Ty} {o s : List Instr}
      (object_ : x.Loads object o) (descriptor_ : x.names.descriptor ty = .ok descriptor)
      (dest_ : x.Stores dest s) :
      Selects x n (.instr (.fieldRead dest object field ty))
        (o ++ .getField (x.names.qualify object.ty.name) field descriptor :: s)
  | fieldWrite {object value : Operand} {field descriptor : String} {ty : Ty} {o v : List Instr}
      (object_ : x.Loads object o) (value_ : x.Loads value v)
      (descriptor_ : x.names.descriptor ty = .ok descriptor) :
      Selects x n (.instr (.fieldWrite object field ty value))
        (o ++ v ++ [.putField (x.names.qualify object.ty.name) field descriptor])
  | retNone : Selects x n (.instr (.ret none)) [.ret none]
  | ret {value : Operand} {kind : ValueKind} {v : List Instr} (held : valueKind x.returnTy = .ok kind)
      (value_ : x.Loads value v) : Selects x n (.instr (.ret (some value))) (v ++ [.ret (some kind)])
  | compare {op : BinaryOp} {left right : Operand} {target : String} {l r : List Instr} {jump : Instr}
      (left_ : x.Loads left l) (right_ : x.Loads right r)
      (jump_ : ComparesBy op left.ty right.ty target jump) :
      Selects x n (.instr (.branch (.compare op left right) target)) (l ++ r ++ [jump])
  | truthy {value : Operand} {target : String} {v : List Instr} (value_ : x.Loads value v) :
      Selects x n (.instr (.branch (.truthy value) target)) (v ++ [.ifTrue target])
  | jump (target : String) : Selects x n (.instr (.jump target)) [.goto target]
  | label (name : String) : Selects x n (.instr (.label name)) [.label name]
  | newObject {dest : Operand} {className : String} {s : List Instr} (dest_ : x.Stores dest s) :
      Selects x n (.newObject dest className) (.new (x.names.qualify className) :: .dup ::
        .invoke .special (x.names.qualify className) constructorName "()V" 0 false :: s)

theorem load_eq_ok {o : Operand} : x.load o = .ok code ↔ x.Loads o code := by
  constructor
  · intro h
    induction o generalizing code with
    | temp id ty =>
      obtain ⟨kind, hk, h⟩ := bind_eq_ok.mp h
      obtain ⟨slot, hs, h⟩ := bind_eq_ok.mp h
      cases h
      exact .temp hk hs
    | var name ty =>
      obtain ⟨kind, hk, h⟩ := bind_eq_ok.mp h
      obtain ⟨slot, hs, h⟩ := bind_eq_ok.mp h
      cases h
      exact .var hk hs
    | self ty =>
      rw [load] at h
      split at h
      · cases h
      · next hs =>
        cases h
        exact .self (by simpa using hs)
    | classRef name ty => cases h
    | intLit value ty => cases h; exact .intLit value ty
    | boolLit value ty => cases h; exact .boolLit value ty
    | element array index ty iha ihi =>
      obtain ⟨kind, hk, h⟩ := bind_eq_ok.mp h
      obtain ⟨a, ha, h⟩ := bind_eq_ok.mp h
      obtain ⟨i, hi, h⟩ := bind_eq_ok.mp h
      cases h
      exact .element hk (iha ha) (ihi hi)
  · intro h
    induction h with
    | temp hk hs => exact bind_eq_ok.mpr ⟨_, hk, bind_eq_ok.mpr ⟨_, hs, rfl⟩⟩
    | var hk hs => exact bind_eq_ok.mpr ⟨_, hk, bind_eq_ok.mpr ⟨_, hs, rfl⟩⟩
    | self hs => rw [load, hs]; rfl
    | intLit value ty => rfl
    | boolLit value ty => rfl
    | element hk _ _ iha ihi => rw [load, hk, iha, ihi]; rfl

theorem loadAll_eq_ok {os : List Operand} : x.loadAll os = .ok code ↔ x.LoadsAll os code := by
  unfold loadAll
  constructor
  · intro h
    induction os generalizing code with
    | nil => cases h; exact .nil
    | cons o os ih =>
      rw [List.mapM_cons] at h
      obtain ⟨codes, hc, h⟩ := bind_eq_ok.mp h
      obtain ⟨first, hf, hc⟩ := bind_eq_ok.mp hc
      obtain ⟨rest, hr, hc⟩ := bind_eq_ok.mp hc
      cases hc
      cases h
      rw [List.flatten_cons]
      exact .cons (load_eq_ok.mp hf) (ih (by rw [hr]; rfl))
  · intro h
    induction h with
    | nil => rfl
    | cons hf _ ih =>
      obtain ⟨rest, hr, ih⟩ := bind_eq_ok.mp ih
      cases ih
      rw [List.mapM_cons, load_eq_ok.mpr hf, hr]
      rfl

theorem store_eq_ok {dest : Operand} : x.store dest = .ok code ↔ x.Stores dest code := by
  unfold store
  constructor
  · intro h
    split at h
    · cases h
    · next hs =>
      obtain ⟨kind, hk, h⟩ := bind_eq_ok.mp h
      obtain ⟨slot, hslot, h⟩ := bind_eq_ok.mp h
      cases h
      exact .intro (by simpa using hs) hk hslot
  · rintro ⟨hs, hk, hslot⟩
    rw [hs, hk, hslot]
    rfl

theorem receiver_eq_ok {kind : CallKind} {on : Operand} {method : String} {invoke : InvokeKind}
    {owner : String} {object : List Instr} :
    x.receiver kind on method = .ok (invoke, owner, object) ↔
      x.Receives kind on invoke owner object := by
  unfold receiver
  constructor
  · intro h
    split at h
    · obtain ⟨object, ho, h⟩ := bind_eq_ok.mp h
      cases h
      exact .super (load_eq_ok.mp ho)
    · cases h
    · cases h
      exact .static _ _
    · cases h
    · split at h
      · cases h
      · next hr =>
        obtain ⟨object, ho, h⟩ := bind_eq_ok.mp h
        cases h
        obtain ⟨ha, hr⟩ : on.ty.isArray = false ∧ on.ty.isReference = true := by simpa using hr
        exact .virtual ha hr (load_eq_ok.mp ho)
  · rintro (ho | _ | ⟨ha, hr, ho⟩)
    · exact bind_eq_ok.mpr ⟨object, load_eq_ok.mpr ho, rfl⟩
    · rfl
    · rw [ha, hr, load_eq_ok.mpr ho]
      rfl

theorem result_eq_ok {dest : Option Operand} {method : String} {returns : Bool} :
    x.result dest method returns = .ok code ↔ x.Finishes dest returns code := by
  unfold result
  constructor
  · intro h
    cases dest with
    | none => cases returns <;> cases h <;> constructor
    | some dest =>
      cases returns with
      | false => cases h
      | true => exact .stored (store_eq_ok.mp h)
  · rintro (h | _ | _)
    · exact store_eq_ok.mpr h
    · rfl
    · rfl

theorem newArray_eq_ok {element : Ty} {i : Instr} :
    x.newArray element = .ok i ↔ x.Allocates element i := by
  unfold newArray
  constructor
  · intro h
    split at h
    · next hint => cases h; exact .int (by simpa using hint)
    · next hint =>
      split at h
      · next hb => cases h; exact .boolean (by simpa using hb)
      · next hb =>
        split at h
        · cases h
        · next hv =>
          cases h
          exact .ref (by simp_all [Ty.hasPrimitiveName])
  · rintro (h | h | h)
    · rw [h]; rfl
    · rw [h]; rfl
    · simp_all [Ty.hasPrimitiveName]

theorem operation_eq_ok {op : BinaryOp} {left right : Ty} :
    (if op.isRelational then comparisonValue n op left right
      else do pure [.arith (← arithmetic op)]) = Except.ok code ↔ Operates n op left right code := by
  constructor
  · intro h
    split at h
    · next hrel =>
      obtain ⟨jump, hj, h⟩ := bind_eq_ok.mp h
      cases h
      exact .compare hrel (compareJump_eq_ok.mp hj)
    · next hrel =>
      obtain ⟨a, ha, h⟩ := bind_eq_ok.mp h
      cases h
      exact .arith (by simpa using hrel) ha
  · rintro (⟨hrel, ha⟩ | ⟨hrel, hj⟩)
    · rw [hrel, ha]
      rfl
    · rw [hrel, if_pos rfl, comparisonValue, compareJump_eq_ok.mpr hj]
      rfl

/-- What selection gives for a piece is code of the piece. -/
theorem selects_of_eq_ok {p : Piece} (h : x.piece n p = .ok code) : x.Selects n p code := by
  cases p with
  | newObject dest className =>
    obtain ⟨s, hs, h⟩ := bind_eq_ok.mp h
    cases h
    exact .newObject (store_eq_ok.mp hs)
  | instr i =>
    cases i with
    | assign dest value =>
      obtain ⟨v, hv, h⟩ := bind_eq_ok.mp h
      obtain ⟨s, hs, h⟩ := bind_eq_ok.mp h
      cases h
      exact .assign (load_eq_ok.mp hv) (store_eq_ok.mp hs)
    | binary dest op left right =>
      rw [piece, instr] at h
      obtain ⟨l, hl, h⟩ := bind_eq_ok.mp h
      obtain ⟨r, hr, h⟩ := bind_eq_ok.mp h
      obtain ⟨o, ho, s, hs, h⟩ : ∃ o, Operates n op left.ty right.ty o ∧
          ∃ s, x.store dest = .ok s ∧ l ++ r ++ o ++ s = code := by
        split at h
        · next hrel =>
          obtain ⟨o, ho, h⟩ := bind_eq_ok.mp h
          obtain ⟨s, hs, h⟩ := bind_eq_ok.mp h
          cases h
          exact ⟨o, operation_eq_ok.mp (by rw [if_pos hrel]; exact ho), s, hs, rfl⟩
        · next hrel =>
          obtain ⟨a, ha, h⟩ := bind_eq_ok.mp h
          obtain ⟨o, ho, h⟩ := bind_eq_ok.mp h
          obtain ⟨s, hs, h⟩ := bind_eq_ok.mp h
          cases ho
          cases h
          exact ⟨_, .arith (by simpa using hrel) ha, s, hs, rfl⟩
      subst h
      exact .binary (load_eq_ok.mp hl) (load_eq_ok.mp hr) ho (store_eq_ok.mp hs)
    | not dest operand =>
      obtain ⟨v, hv, h⟩ := bind_eq_ok.mp h
      obtain ⟨s, hs, h⟩ := bind_eq_ok.mp h
      cases h
      exact .not (load_eq_ok.mp hv) (store_eq_ok.mp hs)
    | call dest kind on method args ty =>
      rw [piece, instr, call] at h
      obtain ⟨⟨invoke, owner, object⟩, ho, h⟩ := bind_eq_ok.mp h
      obtain ⟨values, hv, h⟩ := bind_eq_ok.mp h
      obtain ⟨descriptor, hd, h⟩ := bind_eq_ok.mp h
      dsimp only at h
      split at h
      · cases h
      · next hlen =>
        obtain ⟨rest, hr, h⟩ := bind_eq_ok.mp h
        cases h
        exact .call (receiver_eq_ok.mp ho) (loadAll_eq_ok.mp hv) hd (by omega)
          (result_eq_ok.mp hr)
    | newObject dest className => cases h
    | newArray dest length element =>
      obtain ⟨v, hv, h⟩ := bind_eq_ok.mp h
      obtain ⟨allocation, ha, h⟩ := bind_eq_ok.mp h
      obtain ⟨s, hs, h⟩ := bind_eq_ok.mp h
      cases h
      exact .newArray (load_eq_ok.mp hv) (newArray_eq_ok.mp ha) (store_eq_ok.mp hs)
    | arrayLength dest array =>
      obtain ⟨v, hv, h⟩ := bind_eq_ok.mp h
      obtain ⟨s, hs, h⟩ := bind_eq_ok.mp h
      cases h
      exact .arrayLength (load_eq_ok.mp hv) (store_eq_ok.mp hs)
    | arrayStore array index value =>
      obtain ⟨kind, hk, h⟩ := bind_eq_ok.mp h
      obtain ⟨a, ha, h⟩ := bind_eq_ok.mp h
      obtain ⟨i, hi, h⟩ := bind_eq_ok.mp h
      obtain ⟨v, hv, h⟩ := bind_eq_ok.mp h
      cases h
      exact .arrayStore hk (load_eq_ok.mp ha) (load_eq_ok.mp hi) (load_eq_ok.mp hv)
    | fieldRead dest object field ty =>
      obtain ⟨o, ho, h⟩ := bind_eq_ok.mp h
      obtain ⟨d, hd, h⟩ := bind_eq_ok.mp h
      obtain ⟨s, hs, h⟩ := bind_eq_ok.mp h
      cases h
      exact .fieldRead (load_eq_ok.mp ho) hd (store_eq_ok.mp hs)
    | fieldWrite object field ty value =>
      obtain ⟨o, ho, h⟩ := bind_eq_ok.mp h
      obtain ⟨v, hv, h⟩ := bind_eq_ok.mp h
      obtain ⟨d, hd, h⟩ := bind_eq_ok.mp h
      cases h
      exact .fieldWrite (load_eq_ok.mp ho) (load_eq_ok.mp hv) hd
    | ret value =>
      cases value with
      | none => cases h; exact .retNone
      | some value =>
        obtain ⟨kind, hk, h⟩ := bind_eq_ok.mp h
        obtain ⟨v, hv, h⟩ := bind_eq_ok.mp h
        cases h
        exact .ret hk (load_eq_ok.mp hv)
    | branch condition target =>
      cases condition with
      | compare op left right =>
        obtain ⟨l, hl, h⟩ := bind_eq_ok.mp h
        obtain ⟨r, hr, h⟩ := bind_eq_ok.mp h
        obtain ⟨jump, hj, h⟩ := bind_eq_ok.mp h
        cases h
        exact .compare (load_eq_ok.mp hl) (load_eq_ok.mp hr) (compareJump_eq_ok.mp hj)
      | truthy value =>
        obtain ⟨v, hv, h⟩ := bind_eq_ok.mp h
        cases h
        exact .truthy (load_eq_ok.mp hv)
    | jump target => cases h; exact .jump target
    | label name => cases h; exact .label name

/-- Selection gives all code of a piece. -/
theorem eq_ok_of_selects {p : Piece} (h : x.Selects n p code) : x.piece n p = .ok code := by
  cases h with
  | assign hv hs => simp only [piece, instr, load_eq_ok.mpr hv, store_eq_ok.mpr hs]; rfl
  | binary hl hr ho hs =>
    refine bind_eq_ok.mpr ⟨_, load_eq_ok.mpr hl, bind_eq_ok.mpr ⟨_, load_eq_ok.mpr hr, ?_⟩⟩
    cases ho with
    | arith hrel ha => rw [hrel, ha, store_eq_ok.mpr hs]; rfl
    | compare hrel hj =>
      rw [hrel, if_pos rfl, comparisonValue, compareJump_eq_ok.mpr hj, store_eq_ok.mpr hs]
      rfl
  | not hv hs => simp only [piece, instr, load_eq_ok.mpr hv, store_eq_ok.mpr hs]; rfl
  | call ho ha hd few hr =>
    refine bind_eq_ok.mpr ⟨_, receiver_eq_ok.mpr ho, bind_eq_ok.mpr ⟨_, loadAll_eq_ok.mpr ha,
      bind_eq_ok.mpr ⟨_, hd, ?_⟩⟩⟩
    dsimp only
    rw [if_neg (Nat.not_lt.mpr few)]
    exact bind_eq_ok.mpr ⟨_, result_eq_ok.mpr hr, rfl⟩
  | newArray hv ha hs =>
    simp only [piece, instr, load_eq_ok.mpr hv, newArray_eq_ok.mpr ha, store_eq_ok.mpr hs]; rfl
  | arrayLength hv hs => simp only [piece, instr, load_eq_ok.mpr hv, store_eq_ok.mpr hs]; rfl
  | arrayStore hk ha hi hv =>
    simp only [piece, instr, hk, load_eq_ok.mpr ha, load_eq_ok.mpr hi, load_eq_ok.mpr hv]; rfl
  | fieldRead ho hd hs =>
    simp only [piece, instr, load_eq_ok.mpr ho, hd, store_eq_ok.mpr hs]; rfl
  | fieldWrite ho hv hd => simp only [piece, instr, load_eq_ok.mpr ho, load_eq_ok.mpr hv, hd]; rfl
  | retNone => rfl
  | ret hk hv => simp only [piece, instr, hk, load_eq_ok.mpr hv]; rfl
  | compare hl hr hj =>
    simp only [piece, instr, load_eq_ok.mpr hl, load_eq_ok.mpr hr, compareJump_eq_ok.mpr hj]; rfl
  | truthy hv => simp only [piece, instr, load_eq_ok.mpr hv]; rfl
  | jump target => rfl
  | label name => rfl
  | newObject hs => simp only [piece, newObject, store_eq_ok.mpr hs]; rfl

/-- A piece is selected exactly by its code. -/
theorem piece_eq_ok {p : Piece} : x.piece n p = .ok code ↔ x.Selects n p code :=
  ⟨selects_of_eq_ok, eq_ok_of_selects⟩

/-- The code of each piece, the first after `n` comparisons. -/
inductive SelectsAll (x : MethodContext) : Nat → List Piece → List (List Instr) → Prop
  | nil (n : Nat) : SelectsAll x n [] []
  | cons {n : Nat} {p : Piece} {rest : List Piece} {code : List Instr} {codes : List (List Instr)}
      (head : x.Selects n p code) (tail : SelectsAll x (n + p.comparisons) rest codes) :
      SelectsAll x n (p :: rest) (code :: codes)

theorem selectPieces_eq_ok {ps : List Piece} {codes : List (List Instr)} :
    x.selectPieces n ps = .ok codes ↔ x.SelectsAll n ps codes := by
  constructor
  · intro h
    induction ps generalizing n codes with
    | nil => cases h; exact .nil n
    | cons p rest ih =>
      obtain ⟨code, hc, h⟩ := bind_eq_ok.mp h
      obtain ⟨codes, hr, h⟩ := bind_eq_ok.mp h
      cases h
      exact .cons (piece_eq_ok.mp hc) (ih hr)
  · intro h
    induction h with
    | nil n => rfl
    | cons hc _ ih => rw [selectPieces, piece_eq_ok.mpr hc, ih]; rfl

/-- The code of a body is the code of its pieces in order. -/
theorem select_eq_ok {body : List Tac.Instr} :
    x.select body = .ok code ↔ ∃ codes, x.SelectsAll 0 (pieces body) codes ∧ code = codes.flatten := by
  unfold select
  constructor
  · intro h
    obtain ⟨codes, hc, h⟩ := bind_eq_ok.mp h
    cases h
    exact ⟨codes, selectPieces_eq_ok.mp hc, rfl⟩
  · rintro ⟨codes, hc, rfl⟩
    exact bind_eq_ok.mpr ⟨codes, selectPieces_eq_ok.mpr hc, rfl⟩

/-! ## Plain code -/

theorem Loads.plain {o : Operand} (h : x.Loads o code) : ∀ i ∈ code, i.isPlain = true := by
  induction h with
  | element _ _ _ iha ihi =>
    exact List.forall_mem_append.mpr
      ⟨List.forall_mem_append.mpr ⟨iha, ihi⟩, fun _ hi => by rw [List.mem_singleton.mp hi]; rfl⟩
  | _ => exact fun _ hi => by rw [List.mem_singleton.mp hi]; rfl

theorem LoadsAll.plain {os : List Operand} (h : x.LoadsAll os code) :
    ∀ i ∈ code, i.isPlain = true := by
  induction h with
  | nil => simp
  | cons first _ ih => exact List.forall_mem_append.mpr ⟨first.plain, ih⟩

theorem Stores.plain {dest : Operand} (h : x.Stores dest code) : ∀ i ∈ code, i.isPlain = true := by
  cases h
  exact fun _ hi => by rw [List.mem_singleton.mp hi]; rfl

theorem Receives.plain {kind : CallKind} {on : Operand} {invoke : InvokeKind} {owner : String}
    (h : x.Receives kind on invoke owner code) : ∀ i ∈ code, i.isPlain = true := by
  cases h with
  | super self_ => exact self_.plain
  | static => simp
  | virtual _ _ on_ => exact on_.plain

theorem Finishes.plain {dest : Option Operand} {returns : Bool} (h : x.Finishes dest returns code) :
    ∀ i ∈ code, i.isPlain = true := by
  cases h with
  | stored dest_ => exact dest_.plain
  | dropped => exact fun _ hi => by rw [List.mem_singleton.mp hi]; rfl
  | nothing => exact List.forall_mem_nil _

end MethodContext

end JavaMinus.Jvm
