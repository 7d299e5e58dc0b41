import Mathlib.Data.List.Forall2
import JavaMinus.Jvm.Assembly
import JavaMinus.Proofs.Tac.Renamed

/-!
# Assembly does not depend on the names of variables

Slots are given to keys in the order in which code mentions them, and instructions use the slots. Code
with other names for its variables mentions other keys in the same order, so it gets the same slots
(`SlotTable.Renamed`), as long as different variables stay different. Then it is selected to the same
instructions, or stopped as well (`Result.Same`): a method has one block, and a class one assembly,
whatever its variables are called (`ClassUnit.Renamed.classFile`).
-/

namespace JavaMinus.Jvm

open Tac

/-! ## Outcomes -/

namespace Result

variable {α β : Type}

/-- Two outcomes with one value, or without any. The errors may name different operands. -/
def Same (r r' : Result α) : Prop := r'.toOption = r.toOption

theorem Same.refl (r : Result α) : Same r r := rfl

theorem same_error (e e' : RepresentationError) : Same (.error e : Result α) (.error e') := rfl

theorem Same.bind {r r' : Result α} {k k' : α → Result β} (h : Same r r')
    (hk : ∀ a, Same (k a) (k' a)) : Same (r >>= k) (r' >>= k') := by
  cases r with
  | error e =>
    cases r' with
    | error e' => exact same_error e e'
    | ok a' => cases h
  | ok a =>
    cases r' with
    | error e' => cases h
    | ok a' =>
      obtain rfl : a' = a := Option.some.inj h
      exact hk a'

/-- One value after the other. -/
theorem same_mapM {γ δ : Type} {k : γ → Result α} {k' : δ → Result α} {xs : List γ} {ys : List δ}
    (h : List.Forall₂ (fun x y => Same (k x) (k' y)) xs ys) : Same (xs.mapM k) (ys.mapM k') := by
  induction h with
  | nil => exact .refl _
  | cons first _ ih =>
    rw [List.mapM_cons, List.mapM_cons]
    exact first.bind fun _ => ih.bind fun _ => .refl _

end Result

open Result

/-! ## Slots -/

/-- A key with another name for its variable. -/
def SlotKey.rename (f : String → String) : SlotKey → SlotKey
  | .temp id => .temp id
  | .var x => .var (f x)

variable {f : String → String}

theorem SlotKey.rename_inj (hf : Function.Injective f) : Function.Injective (SlotKey.rename f) := by
  intro key key' h
  cases key with
  | temp id =>
    cases key' with
    | temp id' => exact h
    | var _ => cases h
  | var x =>
    cases key' with
    | temp _ => cases h
    | var y => exact congrArg SlotKey.var (hf (SlotKey.var.inj h))

theorem slotKey?_rename (o : Operand) : slotKey? (o.rename f) = (slotKey? o).map (SlotKey.rename f) := by
  cases o <;> rfl

theorem slotKeys_rename (o : Operand) : slotKeys (o.rename f) = (slotKeys o).map (SlotKey.rename f) := by
  induction o with
  | element a i ty iha ihi => rw [Operand.rename, slotKeys, slotKeys, iha, ihi, List.map_append]
  | _ => rfl

theorem keysOf_rename (m : Method) :
    SlotTable.keysOf (m.rename f) = (SlotTable.keysOf m).map (SlotKey.rename f) := by
  have keys (os : List Operand) : (os.map (Operand.rename f)).flatMap slotKeys =
      (os.flatMap slotKeys).map (SlotKey.rename f) := by
    rw [List.flatMap_map, List.map_flatMap]
    exact List.flatMap_congr fun o _ => slotKeys_rename o
  have code : (m.code.map (Instr.rename f)).flatMap (fun i => i.operands.flatMap slotKeys) =
      (m.code.flatMap fun i => i.operands.flatMap slotKeys).map (SlotKey.rename f) := by
    rw [List.flatMap_map, List.map_flatMap]
    refine List.flatMap_congr fun i _ => ?_
    rw [i.operands_rename, keys]
  rw [SlotTable.keysOf, SlotTable.keysOf, Method.rename, keys, code, List.map_append]

namespace SlotTable

/-- The second table gives to renamed keys what the first gives to the keys. -/
structure Renamed (f : String → String) (t t' : SlotTable) : Prop where
  slots : ∀ key : SlotKey, t'.slots[key.rename f]? = t.slots[key]?
  limit : t'.limit = t.limit

variable {t t' : SlotTable}

theorem Renamed.contains (h : t.Renamed f t') (key : SlotKey) :
    t'.slots.contains (key.rename f) = t.slots.contains key := by
  rw [Std.HashMap.contains_eq_isSome_getElem?, Std.HashMap.contains_eq_isSome_getElem?, h.slots]

/-- Two tables that go on as one. -/
theorem Renamed.allocate (hf : Function.Injective f) (h : t.Renamed f t') (key : SlotKey) :
    (∃ e, t.allocate key = .error e ∧ t'.allocate (key.rename f) = .error e) ∨
      ∃ u u', t.allocate key = .ok u ∧ t'.allocate (key.rename f) = .ok u' ∧ u.Renamed f u' := by
  unfold SlotTable.allocate
  rw [h.contains, h.limit]
  split
  · exact .inr ⟨t, t', rfl, rfl, h⟩
  · split
    · refine .inr ⟨_, _, rfl, rfl, fun key' => ?_, rfl⟩
      have same : (key.rename f == key'.rename f) = (key == key') := by
        rw [Bool.eq_iff_iff, beq_iff_eq, beq_iff_eq, (SlotKey.rename_inj hf).eq_iff]
      rw [Std.HashMap.getElem?_insert, Std.HashMap.getElem?_insert, same, h.slots]
    · exact .inl ⟨_, rfl, rfl⟩

theorem Renamed.allocateAll (hf : Function.Injective f) : ∀ {keys : List SlotKey} {t t' : SlotTable},
    t.Renamed f t' →
      (∃ e, t.allocateAll keys = .error e ∧
        t'.allocateAll (keys.map (SlotKey.rename f)) = .error e) ∨
      ∃ u u', t.allocateAll keys = .ok u ∧ t'.allocateAll (keys.map (SlotKey.rename f)) = .ok u' ∧
        u.Renamed f u'
  | [], t, t', h => .inr ⟨t, t', rfl, rfl, h⟩
  | key :: rest, t, t', h => by
    rw [List.map_cons, SlotTable.allocateAll, SlotTable.allocateAll]
    rcases h.allocate hf key with ⟨e, he, he'⟩ | ⟨u, u', hu, hu', hnext⟩
    · exact .inl ⟨e, by rw [he], by rw [he']⟩
    · rw [hu, hu']
      exact allocateAll hf hnext

/-- A method gets the same slots under other names. -/
theorem ofMethod_rename (hf : Function.Injective f) (m : Method) :
    (∃ e, ofMethod m = .error e ∧ ofMethod (m.rename f) = .error e) ∨
      ∃ u u', ofMethod m = .ok u ∧ ofMethod (m.rename f) = .ok u' ∧ u.Renamed f u' := by
  rw [ofMethod, ofMethod, keysOf_rename]
  exact Renamed.allocateAll hf ⟨fun key => by simp, rfl⟩

theorem Renamed.slot (h : t.Renamed f t') (o : Operand) : Same (t.slot o) (t'.slot (o.rename f)) := by
  unfold SlotTable.slot
  rw [slotKey?_rename]
  cases slotKey? o with
  | none => exact same_error _ _
  | some key =>
    rw [Option.map_some, Option.bind_some, Option.bind_some, h.slots]
    cases t.slots[key]? with
    | none => exact same_error _ _
    | some n => exact .refl _

end SlotTable

/-! ## Selection -/

namespace MethodContext

variable {x : MethodContext} {t' : SlotTable}

theorem same_load (h : x.slots.Renamed f t') (o : Operand) :
    Same (x.load o) ({ x with slots := t' }.load (o.rename f)) := by
  induction o with
  | temp id ty =>
    exact (Same.refl (valueKind ty)).bind fun _ => (h.slot (.temp id ty)).bind fun _ => .refl _
  | var name ty =>
    exact (Same.refl (valueKind ty)).bind fun _ => (h.slot (.var name ty)).bind fun _ => .refl _
  | element array index ty iha ihi =>
    rw [Operand.rename, load, load, array.ty_rename]
    exact (Same.refl _).bind fun _ => iha.bind fun _ => ihi.bind fun _ => .refl _
  | _ => exact .refl _

theorem same_loadAll (h : x.slots.Renamed f t') (os : List Operand) :
    Same (x.loadAll os) ({ x with slots := t' }.loadAll (os.map (Operand.rename f))) := by
  unfold loadAll
  refine .bind (same_mapM ?_) fun _ => .refl _
  exact List.forall₂_map_right_iff.mpr (List.forall₂_same.mpr fun o _ => same_load h o)

theorem same_store (h : x.slots.Renamed f t') (o : Operand) :
    Same (x.store o) ({ x with slots := t' }.store (o.rename f)) := by
  unfold store
  rw [o.isStorage_rename, o.ty_rename]
  split
  · exact same_error _ _
  · exact (Same.refl _).bind fun _ => (h.slot o).bind fun _ => .refl _

theorem same_receiver (h : x.slots.Renamed f t') (kind : CallKind) (on : Operand) (method : String) :
    Same (x.receiver kind on method) ({ x with slots := t' }.receiver kind (on.rename f) method) := by
  cases kind with
  | constructor =>
    cases on with
    | self ty => exact (same_load h (.self ty)).bind fun _ => .refl _
    | _ => exact same_error _ _
  | static => cases on <;> first | exact same_error _ _ | exact .refl _
  | virtual =>
    show Same (if on.ty.isArray || !on.ty.isReference then _ else _)
      (if (on.rename f).ty.isArray || !(on.rename f).ty.isReference then _ else _)
    rw [on.ty_rename]
    split
    · exact same_error _ _
    · exact (same_load h on).bind fun _ => .refl _

theorem same_result (h : x.slots.Renamed f t') (dest : Option Operand) (method : String)
    (returnsValue : Bool) : Same (x.result dest method returnsValue)
      ({ x with slots := t' }.result (dest.map (Operand.rename f)) method returnsValue) := by
  cases dest with
  | none => exact .refl _
  | some dest =>
    unfold result
    dsimp only [Option.map_some]
    split
    · exact same_store h dest
    · exact same_error _ _

theorem same_call (h : x.slots.Renamed f t') (dest : Option Operand) (kind : CallKind) (on : Operand)
    (method : String) (args : List Operand) (returnTy : Ty) :
    Same (x.call dest kind on method args returnTy)
      ({ x with slots := t' }.call (dest.map (Operand.rename f)) kind (on.rename f) method
        (args.map (Operand.rename f)) returnTy) := by
  unfold call
  rw [Operand.map_ty_rename, List.length_map]
  refine .bind (same_receiver h kind on method) fun ⟨invoke, owner, object⟩ => ?_
  refine .bind (same_loadAll h args) fun values => .bind (.refl _) fun descriptor => ?_
  dsimp only
  split
  · exact .refl _
  · exact .bind (same_result h dest method _) fun _ => .refl _

theorem same_instr (h : x.slots.Renamed f t') (n : Nat) (i : Tac.Instr) :
    Same (x.instr n i) ({ x with slots := t' }.instr n (i.rename f)) := by
  cases i with
  | assign dest value =>
    exact (same_load h value).bind fun _ => (same_store h dest).bind fun _ => .refl _
  | binary dest op left right =>
    rw [Instr.rename, instr, instr, left.ty_rename, right.ty_rename]
    refine (same_load h left).bind fun _ => (same_load h right).bind fun _ => ?_
    dsimp only
    split
    · exact (Same.refl _).bind fun _ => (same_store h dest).bind fun _ => .refl _
    · refine (Same.refl _).bind fun _ => (Same.refl _).bind fun _ => ?_
      exact (same_store h dest).bind fun _ => .refl _
  | not dest operand =>
    exact (same_load h operand).bind fun _ => (same_store h dest).bind fun _ => .refl _
  | call dest kind on method args returnTy => exact same_call h dest kind on method args returnTy
  | newObject dest className => exact .refl _
  | newArray dest length element =>
    refine (same_load h length).bind fun _ => (Same.refl _).bind fun _ => ?_
    exact (same_store h dest).bind fun _ => .refl _
  | arrayLength dest array =>
    exact (same_load h array).bind fun _ => (same_store h dest).bind fun _ => .refl _
  | arrayStore array index value =>
    rw [Instr.rename, instr, instr, array.ty_rename]
    refine (Same.refl _).bind fun _ => (same_load h array).bind fun _ => ?_
    exact (same_load h index).bind fun _ => (same_load h value).bind fun _ => .refl _
  | fieldRead dest object field ty =>
    rw [Instr.rename, instr, instr, object.ty_rename]
    refine (same_load h object).bind fun _ => (Same.refl _).bind fun _ => ?_
    exact (same_store h dest).bind fun _ => .refl _
  | fieldWrite object field ty value =>
    rw [Instr.rename, instr, instr, object.ty_rename]
    refine (same_load h object).bind fun _ => (same_load h value).bind fun _ => ?_
    exact (Same.refl _).bind fun _ => .refl _
  | ret value =>
    cases value with
    | none => exact .refl _
    | some value => exact (Same.refl _).bind fun _ => (same_load h value).bind fun _ => .refl _
  | branch condition target =>
    cases condition with
    | compare op left right =>
      rw [Instr.rename, Condition.rename, instr, instr, left.ty_rename, right.ty_rename]
      exact (same_load h left).bind fun _ => (same_load h right).bind fun _ => .refl _
    | truthy value => exact (same_load h value).bind fun _ => .refl _
  | jump target => exact .refl _
  | label name => exact .refl _

end MethodContext

/-! ## Pieces -/

/-- A piece with other names for variables. -/
def Piece.rename (f : String → String) : Piece → Piece
  | .instr i => .instr (i.rename f)
  | .newObject dest className => .newObject (dest.rename f) className

theorem Piece.comparisons_rename (p : Piece) : (p.rename f).comparisons = p.comparisons := by
  cases p with
  | instr i => cases i <;> rfl
  | newObject dest className => rfl

theorem initialises_rename (hf : Function.Injective f) (dest : Operand) (i : Tac.Instr) :
    initialises (dest.rename f) (i.rename f) = initialises dest i := by
  cases i with
  | call result kind on method args returnTy =>
    cases kind with
    | constructor => exact on.agrees_rename hf dest
    | _ => rfl
  | _ => rfl

/-- The same allocations go together with their constructors. -/
theorem pieces_rename (hf : Function.Injective f) (code : List Tac.Instr) :
    pieces (code.map (Instr.rename f)) = (pieces code).map (Piece.rename f) := by
  induction code using pieces.induct with
  | case1 => rfl
  | case2 i => cases i <;> rfl
  | case3 dest className i rest h ih =>
    rw [List.map_cons, List.map_cons, Instr.rename, pieces, pieces, initialises_rename hf, if_pos h,
      if_pos h, ih, List.map_cons, Piece.rename]
  | case4 dest className i rest h ih =>
    rw [List.map_cons, List.map_cons, Instr.rename, pieces, pieces, initialises_rename hf, if_neg h,
      if_neg h, ← List.map_cons, ih, List.map_cons, Piece.rename, Instr.rename]
  | case5 i j rest h ih =>
    rw [List.map_cons] at ih
    cases i <;> first | exact absurd rfl (h _ _) | exact congrArg (List.cons _) ih

namespace MethodContext

variable {x : MethodContext} {t' : SlotTable}

theorem same_piece (h : x.slots.Renamed f t') (n : Nat) (p : Piece) :
    Same (x.piece n p) ({ x with slots := t' }.piece n (p.rename f)) := by
  cases p with
  | instr i => exact same_instr h n i
  | newObject dest className => exact (same_store h dest).bind fun _ => .refl _

theorem same_selectPieces (h : x.slots.Renamed f t') : ∀ (ps : List Piece) (n : Nat),
    Same (x.selectPieces n ps) ({ x with slots := t' }.selectPieces n (ps.map (Piece.rename f)))
  | [], _ => .refl _
  | p :: rest, n => by
    rw [List.map_cons, selectPieces, selectPieces, p.comparisons_rename]
    exact (same_piece h n p).bind fun _ =>
      (same_selectPieces h rest (n + p.comparisons)).bind fun _ => .refl _

/-- A body is selected to the same instructions under other names. -/
theorem same_select (hf : Function.Injective f) (h : x.slots.Renamed f t') (code : List Tac.Instr) :
    Same (x.select code) ({ x with slots := t' }.select (code.map (Instr.rename f))) := by
  rw [select, select, pieces_rename hf]
  exact (same_selectPieces h (pieces code) 0).bind fun _ => .refl _

end MethodContext

end JavaMinus.Jvm

/-! ## Classes -/

namespace JavaMinus.Tac.ClassUnit

open Jvm Jvm.Result

/-- A method has one block, whatever its variables are called. -/
theorem same_methodBlock (u : ClassUnit) (root : String) {m m' : Method} (h : m.Renamed m') :
    Same (u.methodBlock root m) (u.methodBlock root m') := by
  obtain ⟨f, hf, rfl⟩ := h
  unfold methodBlock
  rcases SlotTable.ofMethod_rename hf m with ⟨e, he, he'⟩ | ⟨slots, slots', hs, hs', hslots⟩
  · rw [he, he']
    exact same_error e e
  · have params : (m.rename f).params.map Operand.ty = m.params.map Operand.ty :=
      Operand.map_ty_rename m.params
    rw [hs, hs', params]
    dsimp only [bind, Except.bind]
    rw [hslots.limit]
    refine .bind (MethodContext.same_select (x := u.context root m slots) hf hslots m.code) fun _ => ?_
    exact .refl _

theorem Renamed.classFile {u u' : ClassUnit} (h : u.Renamed u') (root : String) :
    Same (u.classFile root) (u'.classFile root) := by
  have blocks : u'.methodBlock root = u.methodBlock root := by
    unfold methodBlock context superName classNames
    rw [h.name, h.imports, h.superClass]
  have entry : u'.fieldEntry = u.fieldEntry := by
    unfold fieldEntry classNames
    rw [h.name, h.imports]
  have super : u'.superName root = u.superName root := by
    unfold superName classNames
    rw [h.name, h.imports, h.superClass]
  unfold ClassUnit.classFile
  rw [blocks, entry, super, h.name, h.fields]
  refine .bind (.refl _) fun _ => .bind (same_mapM ?_) fun _ => .refl _
  exact h.methods.imp fun _ _ hm => u.same_methodBlock root hm

end JavaMinus.Tac.ClassUnit
