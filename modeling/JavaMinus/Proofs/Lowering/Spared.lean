import JavaMinus.Proofs.Lowering.Always
import JavaMinus.Proofs.Lowering.Later

/-!
# What code without calls changes

The code of an expression without method calls only computes into temporaries that it draws itself,
allocates objects, and packs arrays that it has just allocated (`Tac.CallFree`). It writes no variable
and no field, it stores into no array that was there before, and control runs straight through it.

A new object is initialised by its constructor, which is code of another class. So what was there stays
as it is unless a constructor changes it in the run (`Tac.CallsSpare`, `Tac.CallFree.run_keeps`).
-/

namespace JavaMinus

open Tac
open JavaMinus.Runtime

namespace Tac

/-- The instruction gives its destination a value, and changes nothing else that there is. -/
def Instr.computes : Instr → Bool
  | .assign .. | .binary .. | .not .. | .newArray .. | .arrayLength .. | .fieldRead .. => true
  | _ => false

/-- Code that calls no method, allocates objects of the given classes, and draws the temporaries from
`n` to `k`. It is made of instructions that compute one of them, of objects that are allocated and
initialised, and of arrays that are allocated and filled. -/
inductive CallFree : List String → Nat → List Instr → Nat → Prop
  | nil (n : Nat) : CallFree [] n [] n
  | compute {n : Nat} {i : Instr} {ty : Ty} (dest : i.dest? = some (.temp n ty))
      (computes : i.computes = true) : CallFree [] n [i] (n + 1)
  | allocate (n : Nat) (ty : Ty) (className : String) : CallFree [className] n
      [.newObject (.temp n ty) className,
        .call none .constructor (.temp n ty) constructorName [] Ty.void] (n + 1)
  | pack {n : Nat} {ty element : Ty} {length : Operand} {stores : List Instr}
      (own : ∀ i ∈ stores, ∃ index value, i = .arrayStore (.temp n ty) index value) :
      CallFree [] n (.newArray (.temp n ty) length element :: stores) (n + 1)
  | append {classes more : List String} {n k l : Nat} {code rest : List Instr}
      (first : CallFree classes n code k) (next : CallFree more k rest l) :
      CallFree (classes ++ more) n (code ++ rest) l

/-- The class of the object that an instruction allocates. -/
def Instr.newClass? : Instr → Option String
  | .newObject _ className => some className
  | _ => none

/-- Every call of the code is of the constructor of an object that the instruction in front of it
allocates. -/
def CallsConstructorsOnly (code : List Instr) : Prop :=
  ∀ (j : Nat) dest kind on method args ty, code[j]? = some (.call dest kind on method args ty) →
    kind = .constructor ∧ args = [] ∧
      ∃ m className, j = m + 1 ∧ code[m]? = some (.newObject on className)

/-- Every store of the code is into an array that the code has allocated in front of it, into a temporary
that is numbered `n` or above. -/
def StoresIntoOwnArrays (n : Nat) (code : List Instr) : Prop :=
  ∀ (j : Nat) array index value, code[j]? = some (Instr.arrayStore array index value) →
    ∃ id ty, array = .temp id ty ∧ n ≤ id ∧
      ∃ m length element, m < j ∧ code[m]? = some (Instr.newArray array length element)

/-- An instruction of two codes in a row is one of the first or one of the second. -/
theorem cases_getElem?_append {code rest : List Instr} {j : Nat} {i : Instr}
    (h : (code ++ rest)[j]? = some i) :
    code[j]? = some i ∨ ∃ m, j = code.length + m ∧ rest[m]? = some i := by
  rcases Nat.lt_or_ge j code.length with hj | hj
  · exact .inl (List.getElem?_append_left hj ▸ h)
  · rw [List.getElem?_append_right hj] at h
    exact .inr ⟨j - code.length, by omega, h⟩

theorem CallsConstructorsOnly.append {code rest : List Instr} (h : CallsConstructorsOnly code)
    (h' : CallsConstructorsOnly rest) : CallsConstructorsOnly (code ++ rest) := by
  intro j dest kind on method args ty hi
  rcases cases_getElem?_append hi with here | ⟨i, rfl, here⟩
  · obtain ⟨hkind, hargs, m, className, hm, hnew⟩ := h _ _ _ _ _ _ _ here
    have hlt := (List.getElem?_eq_some_iff.mp hnew).1
    exact ⟨hkind, hargs, m, className, hm, by rw [List.getElem?_append_left hlt, hnew]⟩
  · obtain ⟨hkind, hargs, m, className, rfl, hnew⟩ := h' _ _ _ _ _ _ _ here
    refine ⟨hkind, hargs, code.length + m, className, rfl, ?_⟩
    rw [List.getElem?_append_right (Nat.le_add_right _ _), Nat.add_sub_cancel_left, hnew]

/-- What the second code allocates lies behind the first one, in temporaries that are numbered above. -/
theorem StoresIntoOwnArrays.append {n k : Nat} {code rest : List Instr}
    (h : StoresIntoOwnArrays n code) (h' : StoresIntoOwnArrays k rest) (hn : n ≤ k) :
    StoresIntoOwnArrays n (code ++ rest) := by
  intro j array index value hi
  rcases cases_getElem?_append hi with here | ⟨i, rfl, here⟩
  · obtain ⟨id, ty, harray, hid, m, length, element, hm, hnew⟩ := h _ _ _ _ here
    have hlt := (List.getElem?_eq_some_iff.mp hnew).1
    exact ⟨id, ty, harray, hid, m, length, element, hm, by rw [List.getElem?_append_left hlt, hnew]⟩
  · obtain ⟨id, ty, harray, hid, m, length, element, hm, hnew⟩ := h' _ _ _ _ here
    refine ⟨id, ty, harray, Nat.le_trans hn hid, code.length + m, length, element, by omega, ?_⟩
    rw [List.getElem?_append_right (Nat.le_add_right _ _), Nat.add_sub_cancel_left, hnew]

namespace CallFree

variable {classes : List String} {n k : Nat} {code : List Instr}

theorem le (h : CallFree classes n code k) : n ≤ k := by
  induction h with
  | nil => exact Nat.le_refl _
  | append _ _ first next => exact Nat.le_trans first next
  | _ => exact Nat.le_succ _

/-- Control runs straight through, and no method is called. -/
theorem isQuiet (h : CallFree classes n code k) : ∀ i ∈ code, i.isQuiet = true := by
  induction h with
  | nil => exact List.forall_mem_nil _
  | @compute _ i _ _ computes =>
    refine List.forall_mem_singleton.mpr ?_
    cases i <;> first | rfl | cases computes
  | allocate => exact List.forall_mem_cons.mpr ⟨rfl, List.forall_mem_singleton.mpr rfl⟩
  | pack own =>
    refine List.forall_mem_cons.mpr ⟨rfl, fun i hi => ?_⟩
    obtain ⟨_, _, rfl⟩ := own i hi
    rfl
  | append _ _ first next => exact List.forall_mem_append.mpr ⟨first, next⟩

/-- The objects that are allocated are of the given classes, in this order. -/
theorem filterMap_newClass? (h : CallFree classes n code k) :
    code.filterMap Instr.newClass? = classes := by
  induction h with
  | nil => rfl
  | @compute _ i _ _ computes =>
    cases i <;> first | rfl | cases computes
  | allocate => rfl
  | pack own =>
    refine List.filterMap_eq_nil_iff.mpr (List.forall_mem_cons.mpr ⟨rfl, fun i hi => ?_⟩)
    obtain ⟨_, _, rfl⟩ := own i hi
    rfl
  | append _ _ first next => rw [List.filterMap_append, first, next]

/-- No field is written. -/
theorem ne_fieldWrite (h : CallFree classes n code k) :
    ∀ object name ty value, Instr.fieldWrite object name ty value ∉ code := by
  intro object name ty value
  induction h with
  | nil => exact List.not_mem_nil
  | compute _ computes =>
    intro hi
    cases List.mem_singleton.mp hi
    cases computes
  | allocate => simp
  | pack own =>
    intro hi
    rcases List.mem_cons.mp hi with hi | hi
    · cases hi
    · obtain ⟨_, _, hi⟩ := own _ hi
      cases hi
  | append _ _ first next => exact fun hi => (List.mem_append.mp hi).elim first next

theorem callsConstructorsOnly (h : CallFree classes n code k) : CallsConstructorsOnly code := by
  induction h with
  | nil => exact fun _ _ _ _ _ _ _ hi => by cases hi
  | compute _ computes =>
    intro j dest kind on method args ty hi
    cases List.mem_singleton.mp (List.mem_of_getElem? hi)
    cases computes
  | allocate n ty className =>
    rintro (_ | _ | j) dest kind on method args ty hi
    · cases hi
    · cases hi
      exact ⟨rfl, rfl, 0, className, rfl, rfl⟩
    · cases hi
  | pack own =>
    intro j dest kind on method args ty hi
    rcases List.mem_cons.mp (List.mem_of_getElem? hi) with hi | hi
    · cases hi
    · obtain ⟨_, _, hi⟩ := own _ hi
      cases hi
  | append _ _ first next => exact first.append next

theorem storesIntoOwnArrays (h : CallFree classes n code k) : StoresIntoOwnArrays n code := by
  induction h with
  | nil => exact fun _ _ _ _ hi => by cases hi
  | compute _ computes =>
    intro j array index value hi
    cases List.mem_singleton.mp (List.mem_of_getElem? hi)
    cases computes
  | allocate => rintro (_ | _ | j) array index value hi <;> cases hi
  | @pack n ty element length stores own =>
    rintro (_ | j) array index value hi
    · cases hi
    · obtain ⟨_, _, hstore⟩ := own _ (List.mem_of_getElem? hi)
      cases hstore
      exact ⟨n, ty, rfl, Nat.le_refl n, 0, length, element, Nat.succ_pos j, rfl⟩
  | append hfirst _ first next => exact first.append next hfirst.le

end CallFree

end Tac

/-! ## Running it -/

/-- What is behind the first cells takes no place of theirs. -/
theorem Runtime.getElem?_of_prefix {cells cells' : List Cell} (h : cells <+: cells') {a : Nat}
    {cell : Cell} (hc : cells[a]? = some cell) : cells'[a]? = some cell := by
  obtain ⟨hlt, -⟩ := List.getElem?_eq_some_iff.mp hc
  obtain ⟨rest, rfl⟩ := h
  rw [List.getElem?_append_left hlt, hc]

/-- A store into an array behind the first cells leaves them as they are. -/
theorem Runtime.World.cells_setElement {w : World} {cells : List Cell} {h h' : Heap}
    {kind : Jvm.ArrayKind} {a : Nat} {index v : Value} (hp : cells <+: h.cells)
    (ha : cells.length ≤ a) (hs : w.setElement h kind (.ref (some a)) index v = some h') :
    cells <+: h'.cells := by
  obtain ⟨cell, rfl⟩ := World.eq_set_of_setElement hs
  obtain ⟨rest, hrest⟩ := hp
  refine ⟨rest.set (a - cells.length) cell, ?_⟩
  rw [Heap.set, ← hrest, List.set_append_right _ _ ha]

namespace Tac

/-- The instruction calls a method or a constructor. -/
def Instr.isCall : Instr → Bool
  | .call .. => true
  | _ => false

/-- However far the code is run from the state, its calls leave what lies at the address as it is. -/
def CallsSpare (w : World) (x : Setting) (a : Nat) : List Instr → State → Prop
  | [], _ => True
  | i :: rest, t => ∀ t', i.act w x t = some (.next t') →
      (i.isCall = true → t'.memory.heap.cells[a]? = t.memory.heap.cells[a]?) ∧
        CallsSpare w x a rest t'

/-- The second state has the variables, the receiver and the first `n` temporaries of the first, and
what lies at the spared addresses there. -/
structure State.Keeps (n : Nat) (spared : Nat → Prop) (t t' : State) : Prop where
  frame : t'.frame = t.frame
  temps : ∀ id < n, t'.vars (.temp id) = t.vars (.temp id)
  cells : ∀ a cell, spared a → t.memory.heap.cells[a]? = some cell →
    t'.memory.heap.cells[a]? = some cell

namespace State

variable {n k : Nat} {spared spared' : Nat → Prop} {t t' t'' : State}

theorem Keeps.refl (n : Nat) (spared : Nat → Prop) (t : State) : Keeps n spared t t :=
  ⟨rfl, fun _ _ => rfl, fun _ _ _ h => h⟩

theorem Keeps.trans (h : Keeps n spared t t') (h' : Keeps k spared t' t'') (hn : n ≤ k) :
    Keeps n spared t t'' where
  frame := h'.frame.trans h.frame
  temps id hid := (h'.temps id (Nat.lt_of_lt_of_le hid hn)).trans (h.temps id hid)
  cells a cell ha hc := h'.cells a cell ha (h.cells a cell ha hc)

/-- Sparing less is easier. -/
theorem Keeps.mono (h : Keeps n spared t t') (hs : ∀ a, spared' a → spared a) :
    Keeps n spared' t t' :=
  ⟨h.frame, h.temps, fun a cell ha => h.cells a cell (hs a ha)⟩

/-- A temporary is filled, and memory changes at addresses that are not spared. -/
theorem keeps_fill {v : Value} {memory : Memory}
    (h : ∀ a cell, spared a → t.memory.heap.cells[a]? = some cell →
      memory.heap.cells[a]? = some cell) : Keeps n spared t (t.fill n v memory) where
  frame := t.frame_fill n v memory
  temps := (later_fill n t v fun hnot => (hnot trivial).elim : Later True n t (n + 1) _).temps
  cells := h

/-- So it is when memory changes afterwards, where what was there stays. -/
theorem keeps_of_fill {v : Value} {memory : Memory} (hv : t'.vars = (t.fill n v memory).vars)
    (hs : t'.self = (t.fill n v memory).self)
    (hc : ∀ a cell, spared a → t.memory.heap.cells[a]? = some cell →
      t'.memory.heap.cells[a]? = some cell) : Keeps n spared t t' := by
  obtain ⟨vars, self, after⟩ := t'
  subst hv hs
  exact keeps_fill hc

/-- A write into a temporary fills it. -/
theorem eq_fill_of_write {ty : Ty} {v : Value} {memory : Memory}
    (h : ({ t with memory } : State).write (.temp n ty) v = some t') : t' = t.fill n v memory := by
  simp only [write, Jvm.slotKey?, Option.bind_eq_bind, Option.bind_some] at h
  split at h
  · cases h
    rfl
  · cases h

end State

variable {w : World} {x : Setting} {n k : Nat} {spared : Nat → Prop} {t t' : State}

/-- An array is allocated behind everything else, and a temporary refers to it. -/
theorem Instr.act_newArray {ty element : Ty} {length : Operand}
    (h : (Instr.newArray (.temp n ty) length element).act w x t = some (.next t')) :
    ∃ a memory, t.memory.heap.cells.length ≤ a ∧ t.memory.heap.cells <+: memory.heap.cells ∧
      t' = t.fill n (.ref (some a)) memory := by
  simp only [act, Option.bind_eq_bind, Option.bind_eq_some_iff] at h
  obtain ⟨length, -, ⟨a, heap⟩, hnew, u, hu, ⟨⟩⟩ := h
  obtain ⟨rfl, hcells⟩ := Heap.cells_newArray hnew
  exact ⟨_, { t.memory with heap }, Nat.le_refl _, hcells, State.eq_fill_of_write hu⟩

/-- An object is allocated behind everything else, and a temporary refers to it. -/
theorem Instr.act_newObject {ty : Ty} {className : String}
    (h : (Instr.newObject (.temp n ty) className).act w x t = some (.next t')) :
    ∃ a memory, t.memory.heap.cells.length ≤ a ∧ t.memory.heap.cells <+: memory.heap.cells ∧
      t' = t.fill n (.ref (some a)) memory := by
  simp only [act, Option.bind_eq_bind, Option.bind_eq_some_iff] at h
  obtain ⟨u, hu, ⟨⟩⟩ := h
  exact ⟨_, { t.memory with heap := (t.memory.heap.newObject _).2 }, Nat.le_refl _,
    List.prefix_append _ _, State.eq_fill_of_write hu⟩

/-- The call of a constructor changes memory alone. -/
theorem Instr.act_constructor {on : Operand} {method : String}
    (h : (Instr.call none .constructor on method [] Ty.void).act w x t = some (.next t')) :
    t'.vars = t.vars ∧ t'.self = t.self := by
  simp only [act, State.call, Option.bind_eq_bind, Option.bind_eq_some_iff] at h
  obtain ⟨u, ⟨_, -, values, -, descriptor, -, ⟨result, memory⟩, -, hfinish⟩, ⟨⟩⟩ := h
  simp only [State.finish] at hfinish
  split at hfinish
  · cases hfinish
    exact ⟨rfl, rfl⟩
  · cases hfinish

/-- Computing a temporary fills it, and allocates at most. -/
theorem Instr.keeps_of_computes {i : Instr} {ty : Ty} (hd : i.dest? = some (.temp n ty))
    (hc : i.computes = true) (h : i.act w x t = some (.next t')) : State.Keeps n spared t t' := by
  have filled {v : Value} (hw : t.write (.temp n ty) v = some t') : State.Keeps n spared t t' := by
    obtain rfl : t' = t.fill n v t.memory := State.eq_fill_of_write hw
    exact State.keeps_fill fun _ _ _ h => h
  cases i with
  | assign =>
    cases hd
    simp only [act, Option.bind_eq_bind, Option.bind_eq_some_iff] at h
    obtain ⟨v, -, u, hu, ⟨⟩⟩ := h
    exact filled hu
  | binary =>
    cases hd
    simp only [act, Option.bind_eq_bind, Option.bind_eq_some_iff] at h
    obtain ⟨l, -, r, -, v, -, u, hu, ⟨⟩⟩ := h
    exact filled hu
  | not =>
    cases hd
    simp only [act, Option.bind_eq_bind, Option.bind_eq_some_iff] at h
    obtain ⟨v, -, b, -, u, hu, ⟨⟩⟩ := h
    exact filled hu
  | newArray =>
    cases hd
    obtain ⟨a, memory, -, hcells, rfl⟩ := act_newArray h
    exact State.keeps_fill fun _ _ _ => getElem?_of_prefix hcells
  | arrayLength =>
    cases hd
    simp only [act, Option.bind_eq_bind, Option.bind_eq_some_iff] at h
    obtain ⟨a, -, v, -, u, hu, ⟨⟩⟩ := h
    exact filled hu
  | fieldRead =>
    cases hd
    simp only [act, Option.bind_eq_bind, Option.bind_eq_some_iff] at h
    obtain ⟨key, -, o, -, v, -, u, hu, ⟨⟩⟩ := h
    exact filled hu
  | _ => cases hc

/-- A run of some of the stores into an array that was not there before leaves what was there. -/
theorem keeps_of_stores {ty : Ty} {cells : List Cell} {a : Nat} (ha : cells.length ≤ a) :
    ∀ {stores : List Instr} {t t' : State},
      (∀ i ∈ stores, ∃ index value, i = .arrayStore (.temp n ty) index value) →
      t.vars (.temp n) = some (.ref (some a)) → cells <+: t.memory.heap.cells →
      Machine.runAll (Instr.act w x) stores t = some t' →
        t'.vars = t.vars ∧ t'.self = t.self ∧ cells <+: t'.memory.heap.cells
  | [], _, _, _, _, hcells, h => by
    cases h
    exact ⟨rfl, rfl, hcells⟩
  | i :: rest, t, t', own, hv, hcells, h => by
    obtain ⟨⟨index, value, rfl⟩, ownRest⟩ := List.forall_mem_cons.mp own
    obtain ⟨u, hu, hrest⟩ := Machine.runAll_cons_eq_some.mp h
    obtain ⟨heap, hset, rfl⟩ : ∃ heap, cells <+: heap.cells ∧ u = t.setHeap heap := by
      simp only [Instr.act, Option.bind_eq_bind, Option.bind_eq_some_iff] at hu
      obtain ⟨array, harray, j, -, v, -, hu⟩ := hu
      split at hu
      · simp only [Option.bind_eq_some_iff] at hu
        obtain ⟨heap, hheap, ⟨⟩⟩ := hu
        obtain ⟨hvalue, -⟩ := Option.filter_eq_some_iff.mp harray
        rw [hv] at hvalue
        cases hvalue
        exact ⟨heap, World.cells_setElement hcells ha hheap, rfl⟩
      · cases hu
    exact keeps_of_stores (t := t.setHeap heap) ha ownRest hv hset hrest

/-- The first part of a run is spared by its calls, and the rest behind it. -/
theorem callsSpare_append {a : Nat} : ∀ {code rest : List Instr} {t u : State},
    Machine.runAll (Instr.act w x) code t = some u → CallsSpare w x a (code ++ rest) t →
      CallsSpare w x a code t ∧ CallsSpare w x a rest u
  | [], _, _, _, h, hs => by
    cases h
    exact ⟨trivial, hs⟩
  | i :: code, rest, t, u, h, hs => by
    obtain ⟨t₁, hi, hcode⟩ := Machine.runAll_cons_eq_some.mp h
    obtain ⟨-, hs₁⟩ := hs t₁ hi
    refine ⟨fun t' hi' => ⟨(hs t' hi').1, ?_⟩, (callsSpare_append hcode hs₁).2⟩
    rw [hi] at hi'
    cases hi'
    exact (callsSpare_append hcode hs₁).1

/-- Ending a call leaves memory as it is. -/
theorem State.memory_of_finish {dest : Option Operand} {ty : Ty} {result : Option Value}
    (h : t.finish dest ty result = some t') : t'.memory = t.memory := by
  unfold finish at h
  split at h
  · split at h
    · cases h
    · simp only [write, Option.bind_eq_bind, Option.bind_eq_some_iff] at h
      obtain ⟨key, -, h⟩ := h
      split at h
      · cases h
        rfl
      · cases h
  · cases h
  · split at h
    · cases h
      rfl
    · cases h

/-- A call leaves the heap that the world answers. -/
theorem Instr.cells_of_isCall {i : Instr} (hi : i.isCall = true)
    (h : i.act w x t = some (.next t')) : ∃ call result heap,
      w.calls call t.memory.heap = some (result, heap) ∧ t'.memory.heap = heap := by
  cases i with
  | call dest kind on method args ty =>
    simp only [act, State.call, Option.bind_eq_bind, Option.bind_eq_some_iff] at h
    obtain ⟨u, ⟨⟨_, owner, object⟩, -, values, -, descriptor, -, ⟨result, memory⟩, hinvoke, hfinish⟩,
      ⟨⟩⟩ := h
    simp only [World.invoke, Option.bind_eq_bind, Option.bind_eq_some_iff] at hinvoke
    obtain ⟨⟨_, heap⟩, hcall, ⟨⟩⟩ := hinvoke
    refine ⟨_, _, heap, hcall, ?_⟩
    rw [State.memory_of_finish hfinish]
  | _ => cases hi

/-- Calls spare an address if nothing that is called writes there. -/
theorem callsSpare_of_world {a : Nat} (hw : ∀ call h result h', w.calls call h = some (result, h') →
    h'.cells[a]? = h.cells[a]?) : ∀ (code : List Instr) (t : State), CallsSpare w x a code t
  | [], _ => trivial
  | i :: code, t => by
    refine fun t' hact => ⟨fun hi => ?_, callsSpare_of_world hw code t'⟩
    obtain ⟨call, result, heap, hcall, rfl⟩ := Instr.cells_of_isCall hi hact
    exact hw call _ result _ hcall

/-- Code that calls nothing spares every address. -/
theorem callsSpare_of_forall {a : Nat} : ∀ {code : List Instr} (t : State),
    (∀ i ∈ code, i.isCall = false) → CallsSpare w x a code t
  | [], _, _ => trivial
  | i :: code, t, h => by
    obtain ⟨hi, hcode⟩ := List.forall_mem_cons.mp h
    refine fun t' _ => ⟨fun hcall => ?_, callsSpare_of_forall t' hcode⟩
    rw [hi] at hcall
    cases hcall

/-- Code that allocates no objects calls no constructor. -/
theorem CallFree.isCall_eq_false {code : List Instr} (h : CallFree [] n code k) :
    ∀ i ∈ code, i.isCall = false := by
  intro i hi
  cases i with
  | call dest kind on method args ty =>
    obtain ⟨j, hj⟩ := List.mem_iff_getElem?.mp hi
    obtain ⟨-, -, m, className, -, hnew⟩ := h.callsConstructorsOnly j dest kind on method args ty hj
    have allocated : className ∈ code.filterMap Instr.newClass? :=
      List.mem_filterMap.mpr ⟨_, List.mem_of_getElem? hnew, rfl⟩
    rw [h.filterMap_newClass?] at allocated
    exact absurd allocated List.not_mem_nil
  | _ => rfl

/-- Of code that is run up to some place nothing is run, or the first instruction and some of the
others. -/
theorem cases_of_run_prefix {i : Instr} {rest ran : List Instr} (hp : ran <+: i :: rest)
    (hr : Machine.runAll (Instr.act w x) ran t = some t') :
    (ran = [] ∧ t' = t) ∨ ∃ more u, ran = i :: more ∧ more <+: rest ∧
      i.act w x t = some (.next u) ∧ Machine.runAll (Instr.act w x) more u = some t' := by
  rcases List.prefix_cons_iff.mp hp with rfl | ⟨more, rfl, hmore⟩
  · cases hr
    exact .inl ⟨rfl, rfl⟩
  · obtain ⟨u, hu, hr⟩ := Machine.runAll_cons_eq_some.mp hr
    exact .inr ⟨more, u, rfl, hmore, hu, hr⟩

/-- An object is allocated, and its constructor is run or not. -/
theorem keeps_of_allocate {ty : Ty} {className method : String} {ran : List Instr}
    (hp : ran <+: [.newObject (.temp n ty) className,
      .call none .constructor (.temp n ty) method [] Ty.void])
    (hr : Machine.runAll (Instr.act w x) ran t = some t') :
    State.Keeps n (fun a => CallsSpare w x a ran t) t t' := by
  obtain ⟨rfl, rfl⟩ | ⟨call, u, rfl, hcall, hu, hr⟩ := cases_of_run_prefix hp hr
  · exact .refl _ _ _
  have spares (a : Nat) (hs : CallsSpare w x a (.newObject (.temp n ty) className :: call) t) :
      CallsSpare w x a call u := (hs u hu).2
  obtain ⟨_, memory, -, hcells, rfl⟩ := Instr.act_newObject hu
  obtain ⟨rfl, rfl⟩ | ⟨none, u, rfl, hnone, hu, hr⟩ := cases_of_run_prefix hcall hr
  · exact State.keeps_fill fun _ _ _ => getElem?_of_prefix hcells
  · cases List.prefix_nil.mp hnone
    cases hr
    obtain ⟨hvars, hself⟩ := Instr.act_constructor hu
    refine State.keeps_of_fill hvars hself fun a cell hs hcell => ?_
    rw [(spares a hs t' hu).1 rfl]
    exact getElem?_of_prefix hcells hcell

/-- An array is allocated, and some of the stores into it are run. -/
theorem keeps_of_pack {ty element : Ty} {length : Operand} {stores ran : List Instr}
    (own : ∀ i ∈ stores, ∃ index value, i = .arrayStore (.temp n ty) index value)
    (hp : ran <+: .newArray (.temp n ty) length element :: stores)
    (hr : Machine.runAll (Instr.act w x) ran t = some t') : State.Keeps n spared t t' := by
  obtain ⟨rfl, rfl⟩ | ⟨ran, u, rfl, hran, hu, hr⟩ := cases_of_run_prefix hp hr
  · exact .refl _ _ _
  obtain ⟨a, memory, ha, hcells, rfl⟩ := Instr.act_newArray hu
  have filled : (t.fill n (.ref (some a)) memory).vars (.temp n) = some (.ref (some a)) :=
    Function.update_self _ _ _
  obtain ⟨hvars, hself, hcells⟩ :=
    keeps_of_stores ha (fun i hi => own i (hran.subset hi)) filled hcells hr
  exact State.keeps_of_fill hvars hself fun _ _ _ => getElem?_of_prefix hcells

/-- **Code without calls changes nothing but by constructors.** However far such code is run, the
variables, the receiver and the temporaries of other code are as they were in front of it, and so is
every object and array that the constructors leave as it is. -/
theorem CallFree.run_keeps {classes : List String} {code ran : List Instr}
    (h : CallFree classes n code k) (hp : ran <+: code)
    (hr : Machine.runAll (Instr.act w x) ran t = some t') :
    State.Keeps n (fun a => CallsSpare w x a ran t) t t' := by
  -- a run may stop inside a piece: in front of a constructor, or between two stores
  induction h generalizing ran t t' with
  | nil =>
    cases List.prefix_nil.mp hp
    cases hr
    exact .refl _ _ _
  | compute dest computes =>
    obtain ⟨rfl, rfl⟩ | ⟨none, u, rfl, hnone, hu, hr⟩ := cases_of_run_prefix hp hr
    · exact .refl _ _ _
    · cases List.prefix_nil.mp hnone
      cases hr
      exact Instr.keeps_of_computes dest computes hu
  | allocate n ty className => exact keeps_of_allocate hp hr
  | pack own => exact keeps_of_pack own hp hr
  | @append _ _ _ _ _ code rest hfirst _ first next =>
    rcases List.prefix_or_prefix_of_prefix hp (List.prefix_append code rest) with hp | ⟨more, rfl⟩
    · exact first hp hr
    · obtain ⟨u, hu, hr⟩ := Machine.runAll_append_eq_some.mp hr
      have hmore : more <+: rest := (List.prefix_append_right_inj code).mp hp
      have spares (a : Nat) (hs : CallsSpare w x a (code ++ more) t) := callsSpare_append hu hs
      have keepsFirst := (first List.prefix_rfl hu).mono fun a hs => (spares a hs).1
      have keepsNext := (next hmore hr).mono fun a hs => (spares a hs).2
      exact keepsFirst.trans keepsNext hfirst.le

end Tac

end JavaMinus
