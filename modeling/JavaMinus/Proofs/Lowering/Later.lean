import Mathlib.Data.List.Forall2
import JavaMinus.Proofs.Runtime.Source

/-!
# Operands keep their values

An element operand is read where it is used, and not where it was lowered. In between runs the code
of other expressions. It fills temporaries of its own and allocates, and what it calls may write
arrays; but it writes no variable and no earlier temporary, and where nothing is called no array that
was there before (`Tac.State.Later`). So an operand keeps its value if it is no element, or if no
array is written (`Has.later`).

An allocation runs a constructor. Constructors belong to other classes, and what they do is open: that
of a class may leave the arrays that there are as they are (`World.ConstructorKeepsArrays`), or not.
-/

namespace JavaMinus

open Tac
open Jvm (SlotKey)

namespace Runtime

/-- Every array of a heap is in the other one, with the same elements. -/
def Heap.Keeps (h h' : Heap) : Prop :=
  ∀ (a : Nat) (e : Elements), h.cells[a]? = some (.array e) → h'.cells[a]? = some (.array e)

/-- The constructors of a class leave the arrays that there are as they are. -/
def World.ConstructorKeepsArrays (w : World) (owner : String) : Prop :=
  ∀ (call : Invocation) (h h' : Heap) (result : Option Value), call.kind = .special →
    call.owner = owner → w.calls call h = some (result, h') → h.Keeps h'

namespace Heap

variable {h h' h'' : Heap}

theorem Keeps.refl (h : Heap) : h.Keeps h := fun _ _ he => he

theorem Keeps.trans (hk : h.Keeps h') (hk' : h'.Keeps h'') : h.Keeps h'' :=
  fun a e he => hk' a e (hk a e he)

/-- What is new lies behind what was there. -/
theorem keeps_of_cells (hc : h.cells <+: h'.cells) : h.Keeps h' := by
  intro a e he
  obtain ⟨hlt, -⟩ := List.getElem?_eq_some_iff.mp he
  obtain ⟨rest, hrest⟩ := hc
  rw [← hrest, List.getElem?_append_left hlt]
  exact he

/-- What is allocated is new. -/
theorem keeps_allocate (h : Heap) (cell : Cell) : h.Keeps (h.allocate cell).2 :=
  keeps_of_cells (List.prefix_append _ _)

/-- A cell that was not there before is set. -/
theorem Keeps.set (hk : h.Keeps h') {a : Nat} (ha : h.cells.length ≤ a) (cell : Cell) :
    h.Keeps (h'.set a cell) := by
  intro b e he
  have hlt : b < h.cells.length := (List.getElem?_eq_some_iff.mp he).1
  have hne : a ≠ b := by omega
  show (h'.cells.set a cell)[b]? = some (.array e)
  rw [List.getElem?_set_ne hne]
  exact hk b e he

theorem Keeps.array? (hk : h.Keeps h') {v : Value} {r : Nat × Elements}
    (hr : h.array? v = some r) : h'.array? v = some r := by
  simp only [Heap.array?, Option.bind_eq_bind, Option.bind_eq_some_iff] at hr ⊢
  obtain ⟨a, ha, cell, hcell, hr⟩ := hr
  cases cell with
  | object className fields => cases hr
  | array e => exact ⟨a, ha, .array e, hk a e hcell, hr⟩

theorem Keeps.getElement (hk : h.Keeps h') {kind : Jvm.ArrayKind} {array index v : Value}
    (hv : h.getElement kind array index = some v) : h'.getElement kind array index = some v := by
  simp only [Heap.getElement, Option.bind_eq_bind, Option.bind_eq_some_iff] at hv ⊢
  obtain ⟨r, hr, hv⟩ := hv
  exact ⟨r, hk.array? hr, hv⟩

/-- An array is allocated behind all other cells. -/
theorem cells_newArray {kind : Jvm.ArrayKind} {element : String} {length : Value} {a : Nat}
    (hn : h.newArray kind element length = some (a, h')) :
    a = h.cells.length ∧ h.cells <+: h'.cells := by
  simp only [Heap.newArray, Option.bind_eq_bind, Option.bind_eq_some_iff] at hn
  obtain ⟨n, -, hn⟩ := hn
  split at hn
  · cases hn
    exact ⟨rfl, List.prefix_append _ _⟩
  · cases hn

theorem keeps_newArray {kind : Jvm.ArrayKind} {element : String} {length : Value} {a : Nat}
    (hn : h.newArray kind element length = some (a, h')) : a = h.cells.length ∧ h.Keeps h' :=
  ⟨(cells_newArray hn).1, keeps_of_cells (cells_newArray hn).2⟩

end Heap

/-- Setting an element of an array sets its cell. -/
theorem World.eq_set_of_setElement {w : World} {h h' : Heap} {kind : Jvm.ArrayKind} {a : Nat}
    {index v : Value} (hs : w.setElement h kind (.ref (some a)) index v = some h') :
    ∃ cell, h' = h.set a cell := by
  simp only [World.setElement, Option.bind_eq_bind, Option.bind_eq_some_iff] at hs
  obtain ⟨⟨b, e⟩, hb, i, -, hs⟩ := hs
  have hab : a = b := by
    simp only [Heap.array?, Option.bind_eq_bind, Option.bind_eq_some_iff,
      Value.address?_eq_some] at hb
    obtain ⟨a', ha', cell, -, hb⟩ := hb
    cases ha'
    cases cell <;> cases hb
    rfl
  subst hab
  split at hs
  · cases hs
    exact ⟨_, rfl⟩
  · cases hs

/-- Setting an element of an array that was not there before. -/
theorem World.keeps_setElement {w : World} {h₀ h h' : Heap} {kind : Jvm.ArrayKind} {a : Nat}
    {index v : Value} (hk : h₀.Keeps h) (ha : h₀.cells.length ≤ a)
    (hs : w.setElement h kind (.ref (some a)) index v = some h') : h₀.Keeps h' := by
  obtain ⟨cell, rfl⟩ := eq_set_of_setElement hs
  exact hk.set ha cell

theorem World.ConstructorKeepsArrays.invoke {w : World} {call : Invocation}
    (hw : w.ConstructorKeepsArrays call.owner) (hcall : call.kind = .special) {m m' : Memory}
    {result : Option Value} (h : w.invoke call m = some (result, m')) : m.heap.Keeps m'.heap := by
  simp only [World.invoke, Option.bind_eq_bind, Option.bind_eq_some_iff] at h
  obtain ⟨⟨r, heap⟩, hr, h⟩ := h
  cases h
  exact hw call m.heap heap r hcall rfl hr

end Runtime

open JavaMinus.Runtime

namespace Tac

/-- The temporaries in an operand are numbered below a bound. -/
def Operand.Below (n : Nat) : Operand → Prop
  | .temp id _ => id < n
  | .element array index _ => array.Below n ∧ index.Below n
  | _ => True

theorem Operand.Below.mono {n k : Nat} {o : Operand} (h : o.Below n) (hn : n ≤ k) : o.Below k := by
  induction o with
  | temp id ty => exact Nat.lt_of_lt_of_le h hn
  | element array index ty iha ihi => exact ⟨iha h.1, ihi h.2⟩
  | _ => trivial

namespace State

/-- The frame of the source that the state holds. -/
def frame (t : State) : Source.Frame := ⟨fun name => t.vars (.var name), t.self⟩

/-- The state of the source that the state holds. Temporaries are not part of it. -/
def source (t : State) : Source.State := { toFrame := t.frame, memory := t.memory }

/-- After `n` temporaries were drawn in the first state, code that draws its own ones and writes no
variable has come to the second state, where `k` are drawn. Unless `writes` holds, it has written no
array that was there. -/
structure Later (writes : Prop) (n : Nat) (t : State) (k : Nat) (t' : State) : Prop where
  le : n ≤ k
  frame : t'.frame = t.frame
  temps : ∀ id < n, t'.vars (.temp id) = t.vars (.temp id)
  arrays : ¬ writes → t.memory.heap.Keeps t'.memory.heap

variable {writes writes' : Prop} {n k l : Nat} {t t' t'' : State} {o : Operand} {v : Value}

theorem Later.refl (writes : Prop) (n : Nat) (t : State) : Later writes n t n t :=
  ⟨Nat.le_refl n, rfl, fun _ _ => rfl, fun _ => .refl _⟩

theorem Later.trans (h : Later writes n t k t') (h' : Later writes' k t' l t'') :
    Later (writes ∨ writes') n t l t'' where
  le := Nat.le_trans h.le h'.le
  frame := h'.frame.trans h.frame
  temps id hid := (h'.temps id (Nat.lt_of_lt_of_le hid h.le)).trans (h.temps id hid)
  arrays hnot := by
    obtain ⟨hn, hn'⟩ := not_or.mp hnot
    exact (h.arrays hn).trans (h'.arrays hn')

theorem Later.mono (h : Later writes n t k t') (hw : writes → writes') : Later writes' n t k t' where
  le := h.le
  frame := h.frame
  temps := h.temps
  arrays hnot := h.arrays fun hwrites => hnot (hw hwrites)

theorem Later.vars (h : Later calls n t k t') (name : String) :
    t'.vars (.var name) = t.vars (.var name) :=
  congrFun (congrArg Source.Frame.vars h.frame) name

theorem Later.self (h : Later calls n t k t') : t'.self = t.self :=
  congrArg Source.Frame.self h.frame

/-- A temporary is filled, and memory changes. -/
def fill (t : State) (n : Nat) (v : Value) (memory : Memory) : State :=
  { t with vars := Function.update t.vars (.temp n) (some v), memory }

theorem frame_fill (t : State) (n : Nat) (v : Value) (memory : Memory) :
    (t.fill n v memory).frame = t.frame := by
  have hvars (name : String) : (t.fill n v memory).vars (.var name) = t.vars (.var name) := by
    have hne : SlotKey.var name ≠ .temp n := nofun
    exact Function.update_of_ne hne (some v) t.vars
  simp only [frame, hvars]
  rfl

theorem later_fill (n : Nat) (t : State) (v : Value) {memory : Memory}
    (hk : ¬ writes → t.memory.heap.Keeps memory.heap) :
    Later writes n t (n + 1) (t.fill n v memory) where
  le := Nat.le_succ n
  frame := t.frame_fill n v memory
  temps id hid := by
    have hne : SlotKey.temp id ≠ .temp n := fun h => by cases h; omega
    exact Function.update_of_ne hne (some v) t.vars
  arrays := hk

/-- Memory changes alone. -/
theorem later_memory (n : Nat) (t : State) {memory : Memory}
    (hk : ¬ writes → t.memory.heap.Keeps memory.heap) :
    Later writes n t n { t with memory } :=
  ⟨Nat.le_refl n, rfl, fun _ _ => rfl, hk⟩

theorem eval_fill {ty : Ty} {memory : Memory} (h : ty.admits v = true) :
    (t.fill n v memory).eval (.temp n ty) = some v := by
  show (Function.update t.vars (SlotKey.temp n) (some v) (.temp n)).filter ty.admits = some v
  rw [Function.update_self]
  exact Option.filter_eq_some_iff.mpr ⟨rfl, h⟩

/-- A fresh temporary takes a value of its type. -/
theorem write_temp {ty : Ty} {memory : Memory} (h : ty.admits v = true) :
    ({ t with memory } : State).write (.temp n ty) v = some (t.fill n v memory) := by
  simp only [write, Jvm.slotKey?, Operand.ty, h, if_true, Option.bind_eq_bind, Option.bind_some, fill]

/-- An operand whose temporaries are drawn has a value. -/
structure Has (n : Nat) (t : State) (o : Operand) (v : Value) : Prop where
  below : o.Below n
  value : t.eval o = some v

/-- An operand keeps its value while no array is written, and an operand that is no element keeps it in
any case. -/
theorem Has.later (h : Has n t o v) (hl : Later writes n t k t')
    (hw : writes → o.isElement = false) : Has k t' o v := by
  refine ⟨h.below.mono hl.le, ?_⟩
  obtain ⟨below, value⟩ := h
  induction o generalizing v with
  | temp id ty =>
    rw [eval, hl.temps id below]
    exact value
  | var name ty =>
    rw [eval, hl.vars]
    exact value
  | self ty =>
    rw [eval, hl.self]
    exact value
  | element array index ty iha ihi =>
    have quiet : ¬ writes := fun h => by cases hw h
    have none (o : Operand) : writes → o.isElement = false := fun h => (quiet h).elim
    simp only [eval, Option.bind_eq_bind, Option.bind_eq_some_iff] at value ⊢
    obtain ⟨a, ha, i, hi, hv⟩ := value
    obtain ⟨hget, hadmits⟩ := Option.filter_eq_some_iff.mp hv
    exact ⟨a, iha (none array) below.1 ha, i, ihi (none index) below.2 hi,
      Option.filter_eq_some_iff.mpr ⟨(hl.arrays quiet).getElement hget, hadmits⟩⟩
  | _ => exact value

theorem has_fill {ty : Ty} {memory : Memory} (h : ty.admits v = true) :
    Has (n + 1) (t.fill n v memory) (.temp n ty) v :=
  ⟨Nat.lt_succ_self n, eval_fill h⟩

/-- Operands and their values in order. -/
def HasAll (n : Nat) (t : State) : List Operand → List Value → Prop := List.Forall₂ (Has n t)

theorem HasAll.later {os : List Operand} {vs : List Value} (h : HasAll n t os vs)
    (hl : Later writes n t k t') (hw : writes → ∀ o ∈ os, o.isElement = false) :
    HasAll k t' os vs := by
  induction h with
  | nil => exact .nil
  | cons first _ ih =>
    exact .cons (first.later hl fun h => hw h _ List.mem_cons_self)
      (ih fun h o ho => hw h o (List.mem_cons_of_mem _ ho))

theorem HasAll.evalAll {os : List Operand} {vs : List Value} (h : HasAll n t os vs) :
    t.evalAll os = some vs := by
  induction h with
  | nil => rfl
  | cons first _ ih =>
    rw [State.evalAll, first.value, ih]
    rfl

end State

end Tac

end JavaMinus
