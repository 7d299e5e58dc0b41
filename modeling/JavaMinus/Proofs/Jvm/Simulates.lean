import JavaMinus.Proofs.Jvm.Executes

/-!
# One piece at a time

The code of a piece does what the piece does (`Selects.does`): from a state that mirrors the state in
front of the instruction, with an empty stack, it passes control in the same way and leaves a state
that mirrors the one behind the instruction, again with an empty stack. An allocation and the
constructor call behind it are one piece, and take two steps of three-address code
(`does_newObject`).
-/

namespace JavaMinus.Jvm

open JavaMinus.Runtime Tac Machine

namespace MethodContext

variable {x : MethodContext} {w : World} {s s' : Tac.State} {t : State} {code rest : List Instr}
  {n : Nat}

/-- The state with another memory. -/
theorem Mirrors.setMemory (h : x.Mirrors s t) (memory : Memory) :
    x.Mirrors { s with memory } { t with memory } :=
  ⟨h.slot, h.self, rfl⟩

theorem toOption_eq_some {α : Type} {r : Result α} {a : α} : r.toOption = some a ↔ r = .ok a := by
  cases r <;> simp [Except.toOption]

/-! ## Calls -/

/-- The receiver of a call is found as its instruction says, and pushed. -/
theorem Receives.runs {kind : CallKind} {on : Operand} {invoke found : InvokeKind}
    {owner class_ : String} {object : Option Nat} (h : x.Receives kind on invoke owner code)
    (hm : x.Mirrors s t) (hr : s.receiver x.setting kind on = some (found, class_, object)) :
    found = invoke ∧ class_ = owner ∧ ∃ objects,
      runAll (Instr.act w) code t = some (t.setStack (objects ++ t.stack)) ∧
        ∀ stack, State.receiver invoke (objects ++ stack) = some (object, stack) := by
  cases h with
  | super self_ =>
    simp only [Tac.State.receiver, Option.bind_eq_bind, Option.bind_eq_some_iff,
      Value.address?_eq_some] at hr
    obtain ⟨v, hv, a, rfl, hr⟩ := hr
    cases hr
    exact ⟨rfl, rfl, [.ref (some a)], self_.runs hm hv, fun _ => rfl⟩
  | static =>
    cases hr
    exact ⟨rfl, rfl, [], rfl, fun _ => rfl⟩
  | virtual _ _ on_ =>
    simp only [Tac.State.receiver, Option.bind_eq_bind, Option.bind_eq_some_iff,
      Value.address?_eq_some] at hr
    obtain ⟨v, hv, a, rfl, hr⟩ := hr
    cases hr
    exact ⟨rfl, rfl, [.ref (some a)], on_.runs hm hv, fun _ => rfl⟩

/-- The result of a call is stored or dropped. -/
theorem Finishes.runs {dest : Option Operand} {ty : Ty} {result : Option Value}
    (h : x.Finishes dest (!ty.isVoid) code) (hm : x.Mirrors s t)
    (hs : x.slots.Sound (SlotTable.firstSlot x.isStatic))
    (hf : s.finish dest ty result = some s') :
    result.isSome = (!ty.isVoid) ∧ ∃ t', runAll (Instr.act w) code (t.setStack result.toList) =
      some t' ∧ x.Rests s' t' := by
  generalize hret : (!ty.isVoid) = returns at h
  cases h with
  | stored dest_ =>
    cases result with
    | none => cases hf
    | some v =>
      have hnot : ¬ ty.isVoid = true := by simpa using hret
      rw [Tac.State.finish, if_neg hnot] at hf
      obtain ⟨t', hrun, hm', hempty⟩ := dest_.runs (w := w) hm hs hf []
      exact ⟨rfl, t', hrun, hm', hempty⟩
  | dropped =>
    cases result with
    | none => simp [Tac.State.finish, hret] at hf
    | some v =>
      have hsame : s = s' := by simpa [Tac.State.finish, hret] using hf
      subst hsame
      exact ⟨rfl, t.setStack [], rfl, hm.setStack [], rfl⟩
  | nothing =>
    cases result with
    | some v => simp [Tac.State.finish, hret] at hf
    | none =>
      have hsame : s = s' := by simpa [Tac.State.finish, hret] using hf
      subst hsame
      exact ⟨rfl, t.setStack [], rfl, hm.setStack [], rfl⟩

/-- The values and the receiver of a call are where it takes them. -/
theorem State.invoke_eq {t : State} {invoke : InvokeKind} (owner name descriptor : String)
    {values objects : List Value} {object : Option Nat} {result : Option Value} {memory : Memory}
    (hstack : t.stack = values.reverse ++ objects)
    (hobject : State.receiver invoke objects = some (object, []))
    (hcall : w.invoke ⟨invoke, owner, name, descriptor, object, values⟩ t.memory =
      some (result, memory)) :
    t.invoke w invoke owner name descriptor values.length result.isSome =
      some ({ t with memory }.setStack result.toList) := by
  have htake : t.stack.take values.length = values.reverse := by
    rw [hstack, ← List.length_reverse]
    exact List.take_left
  have hdrop : t.stack.drop values.length = objects := by
    rw [hstack, ← List.length_reverse]
    exact List.drop_left
  have hlen : ¬ t.stack.length < values.length := by
    rw [hstack, List.length_append, List.length_reverse]
    omega
  rw [State.invoke, if_neg hlen, hdrop, hobject, htake, List.reverse_reverse]
  simp [hcall, State.setStack]

/-- The code of a call makes the call. -/
theorem Selects.call_runs {dest : Option Operand} {kind : CallKind} {on : Operand} {method : String}
    {args : List Operand} {ty : Ty} (h : x.Selects n (.instr (.call dest kind on method args ty)) code)
    (hs : x.slots.Sound (SlotTable.firstSlot x.isStatic)) (hm : x.Rests s t)
    (hc : s.call w x.setting dest kind on method args ty = some s') :
    ∃ t', runAll (Instr.act w) code t = some t' ∧ x.Rests s' t' := by
  cases h with
  | @call _ _ _ _ _ _ invoke owner descriptor object values rest on_ args_ descriptor_ few dest_ =>
    simp only [Tac.State.call, Option.bind_eq_bind, Option.bind_eq_some_iff, toOption_eq_some] at hc
    obtain ⟨⟨found, class_, address⟩, hr, vs, hvs, d, hd, ⟨result, memory⟩, hcall, hf⟩ := hc
    obtain ⟨rfl, rfl, objects, hon, hobject⟩ := on_.runs (w := w) hm.toMirrors hr
    have hd' : x.names.methodDescriptor (args.map Operand.ty) ty = .ok d := hd
    rw [descriptor_] at hd'
    cases hd'
    obtain ⟨hsome, t', hrest, ht'⟩ := dest_.runs (w := w) (hm.toMirrors.setMemory memory) hs hf
    refine ⟨t', ?_, ht'⟩
    rw [hm.empty] at hon
    rw [List.append_assoc, runAll_append hon,
      runAll_append (args_.runs (hm.toMirrors.setStack _) hvs), runAll]
    rw [← hm.memory] at hcall
    have hinvoke := State.invoke_eq class_ method descriptor (t := (t.setStack (objects ++ [])).setStack
      (vs.reverse ++ (t.setStack (objects ++ [])).stack)) rfl (hobject []) hcall
    rw [Tac.State.evalAll_length hvs, hsome] at hinvoke
    rw [Instr.act, hinvoke]
    exact hrest

/-! ## Pieces -/

/-- Nothing is lost of an element that an array may have. -/
theorem keeps_of_admits {name : String} {v : Value} (h : (Ty.scalar name).admits v = true) :
    (elementKind name).keeps v = v := by
  unfold elementKind
  split
  · rfl
  · split
    · next hb =>
      subst hb
      cases v with
      | ref a => rfl
      | int n =>
        have hn : n = 0 ∨ n = 1 := by
          simpa [Ty.admits, Ty.scalar, Ty.isInt, Ty.isBoolean] using h
        rcases hn with rfl | rfl <;> rfl
    · rfl

/-- Between pieces there is nothing on the stack to drop. -/
theorem Rests.setStack_nil (hm : x.Rests s t) : t.setStack [] = t := by
  cases t
  exact congrArg (State.mk _ · _) hm.empty.symm

/-- The code of an operand in front of everything else leaves its value alone on the stack. -/
theorem Loads.runs_first {o : Operand} {v : Value} (h : x.Loads o code) (hm : x.Rests s t)
    (hv : s.eval o = some v) : runAll (Instr.act w) code t = some (t.setStack [v]) := by
  rw [h.runs hm.toMirrors hv, hm.empty]

/-- The code of two operands leaves their values, that of the second on top. -/
theorem Loads.runs_second {left right : Operand} {u v : Value} (hl : x.Loads left code)
    (hr : x.Loads right rest) (hm : x.Rests s t) (hu : s.eval left = some u)
    (hv : s.eval right = some v) :
    runAll (Instr.act w) (code ++ rest) t = some (t.setStack [v, u]) := by
  rw [runAll_append (hl.runs_first hm hu), hr.runs (hm.toMirrors.setStack _) hv]
  rfl

/-- Code that leaves one value, and code that stores it. -/
theorem Stores.runs_behind {dest : Operand} {v : Value} {u : State} (h : x.Stores dest rest)
    (hs : x.slots.Sound (SlotTable.firstSlot x.isStatic))
    (hrun : runAll (Instr.act w) code t = some (u.setStack [v])) (hm : x.Mirrors s u)
    (hw : s.write dest v = some s') :
    ∃ t', runAll (Instr.act w) (code ++ rest) t = some t' ∧ x.Rests s' t' := by
  obtain ⟨t', hrest, hm', hempty⟩ := h.runs (w := w) hm hs hw []
  exact ⟨t', by rw [runAll_append hrun, hrest], hm', hempty⟩

/-- Code, an instruction that makes one value of all that it leaves, and code that stores it. -/
theorem Stores.runs_behind_instr {dest : Operand} {v : Value} {u r : State} {i : Instr}
    (h : x.Stores dest rest) (hs : x.slots.Sound (SlotTable.firstSlot x.isStatic))
    (hrun : runAll (Instr.act w) code t = some u)
    (hi : i.act w u = some (.next (r.setStack [v]))) (hm : x.Mirrors s r)
    (hw : s.write dest v = some s') :
    ∃ t', runAll (Instr.act w) (code ++ i :: rest) t = some t' ∧ x.Rests s' t' := by
  rw [← List.singleton_append, ← List.append_assoc]
  refine h.runs_behind hs ?_ hm hw
  rw [runAll_append hrun, runAll_cons hi]
  rfl

/-- An instruction goes on to the next one, and straight code does what it does. -/
def GoesOn (x : MethodContext) (w : World) (code : List Instr) (t : State) (a : Action Tac.State) :
    Prop :=
  ∃ s' t', a = .next s' ∧ runAll (Instr.act w) code t = some t' ∧ x.Rests s' t'

theorem goesOn_next (h : ∃ t', runAll (Instr.act w) code t = some t' ∧ x.Rests s' t') :
    x.GoesOn w code t (.next s') := by
  obtain ⟨t', hrun, ht'⟩ := h
  exact ⟨s', t', rfl, hrun, ht'⟩

/-! ### Arrays -/

variable {a : Action Tac.State}

/-- An allocation of an array takes the length, and leaves the array that three-address code
allocates. -/
theorem Allocates.act_eq {element : Ty} {allocation : Instr} {length : Value} {address : Nat}
    {heap : Heap} (h : x.Allocates element allocation)
    (hnew : t.memory.heap.newArray (elementKind element.name) (x.setting.elementName element.name)
      length = some (address, heap)) :
    allocation.act w (t.setStack [length]) =
      some (.next ((t.setHeap heap).setStack [.ref (some address)])) := by
  cases h with
  | int named =>
    rw [named] at hnew
    simp [Instr.act, State.push, State.pop, State.setStack, State.setHeap, show t.memory.heap.newArray
      (elementKind "int") "int" length = some (address, heap) from hnew]
  | boolean named =>
    rw [named] at hnew
    simp [Instr.act, State.push, State.pop, State.setStack, State.setHeap, show t.memory.heap.newArray
      (elementKind "boolean") "boolean" length = some (address, heap) from hnew]
  | ref named =>
    have href : elementKind element.name = .ref := elementKind_of_class named
    have hname : x.setting.elementName element.name = x.names.qualify element.name := by
      rw [Setting.elementName, href]
      rfl
    rw [href, hname] at hnew
    simp [Instr.act, State.push, State.pop, State.setStack, State.setHeap, hnew]

theorem Selects.goesOn_newArray {dest length : Operand} {element : Ty}
    (h : x.Selects n (.instr (.newArray dest length element)) code)
    (hs : x.slots.Sound (SlotTable.firstSlot x.isStatic)) (hm : x.Rests s t)
    (ha : (Tac.Instr.newArray dest length element).act w x.setting s = some a) :
    x.GoesOn w code t a := by
  cases h with
  | newArray length_ allocation_ dest_ =>
    simp only [Tac.Instr.act, Option.bind_eq_bind, Option.bind_eq_some_iff] at ha
    obtain ⟨v, hv, ⟨address, heap⟩, hnew, s', hw, ha⟩ := ha
    cases ha
    rw [← hm.memory] at hnew
    exact goesOn_next (dest_.runs_behind_instr hs (length_.runs_first hm hv)
      (allocation_.act_eq hnew) (hm.toMirrors.setHeap heap) hw)

theorem Selects.goesOn_arrayLength {dest array : Operand}
    (h : x.Selects n (.instr (.arrayLength dest array)) code)
    (hs : x.slots.Sound (SlotTable.firstSlot x.isStatic)) (hm : x.Rests s t)
    (ha : (Tac.Instr.arrayLength dest array).act w x.setting s = some a) :
    x.GoesOn w code t a := by
  cases h with
  | arrayLength array_ dest_ =>
    simp only [Tac.Instr.act, Option.bind_eq_bind, Option.bind_eq_some_iff] at ha
    obtain ⟨av, hav, v, hlen, s', hw, ha⟩ := ha
    cases ha
    rw [← hm.memory] at hlen
    refine goesOn_next (dest_.runs_behind_instr hs (array_.runs_first hm hav) (r := t) ?_
      hm.toMirrors hw)
    simp [Instr.act, State.push, State.pop, State.setStack, hlen]

/-- An element that an array may have is stored as it is. -/
theorem Selects.goesOn_arrayStore {array index value : Operand}
    (h : x.Selects n (.instr (.arrayStore array index value)) code) (hm : x.Rests s t)
    (ha : (Tac.Instr.arrayStore array index value).act w x.setting s = some a) :
    x.GoesOn w code t a := by
  cases h with
  | arrayStore elements array_ index_ value_ =>
    obtain ⟨-, rfl⟩ := arrayKind_eq_ok.mp elements
    simp only [Tac.Instr.act, Option.bind_eq_bind, Option.bind_eq_some_iff] at ha
    obtain ⟨av, hav, iv, hiv, v, hv, ha⟩ := ha
    split at ha
    · next hadmits =>
      simp only [Option.bind_eq_some_iff] at ha
      obtain ⟨heap, hset, ha⟩ := ha
      cases ha
      rw [← hm.memory, ← keeps_of_admits hadmits] at hset
      refine goesOn_next ⟨(t.setStack []).setHeap heap, ?_, (hm.toMirrors.setStack []).setHeap heap, rfl⟩
      rw [List.append_assoc, runAll_append (array_.runs_second index_ hm hav hiv),
        runAll_append (value_.runs (hm.toMirrors.setStack _) hv), runAll_cons]
      · rfl
      · simp [Instr.act, State.pop, State.setStack, hset]
    · cases ha

/-! ### Fields -/

/-- A field is found under the name that its descriptor gives it. -/
theorem fieldKey_eq_some {object : Operand} {field descriptor : String} {ty : Ty} {key : FieldKey}
    (hd : x.names.descriptor ty = .ok descriptor)
    (h : Tac.State.fieldKey x.setting object field ty = some key) :
    key = ⟨x.names.qualify object.ty.name, field, descriptor⟩ := by
  simp only [Tac.State.fieldKey, Option.bind_eq_bind, Option.bind_eq_some_iff, toOption_eq_some] at h
  obtain ⟨d, hd', h⟩ := h
  cases hd.symm.trans hd'
  exact (Option.some.inj h).symm

theorem Selects.goesOn_fieldRead {dest object : Operand} {field : String} {ty : Ty}
    (h : x.Selects n (.instr (.fieldRead dest object field ty)) code)
    (hs : x.slots.Sound (SlotTable.firstSlot x.isStatic)) (hm : x.Rests s t)
    (ha : (Tac.Instr.fieldRead dest object field ty).act w x.setting s = some a) :
    x.GoesOn w code t a := by
  cases h with
  | fieldRead object_ descriptor_ dest_ =>
    simp only [Tac.Instr.act, Option.bind_eq_bind, Option.bind_eq_some_iff] at ha
    obtain ⟨key, hkey, ov, hov, v, hget, s', hw, ha⟩ := ha
    cases ha
    rw [← hm.memory, fieldKey_eq_some descriptor_ hkey] at hget
    refine goesOn_next (dest_.runs_behind_instr hs (object_.runs_first hm hov) (r := t) ?_
      hm.toMirrors hw)
    simp [Instr.act, State.push, State.pop, State.setStack, hget]

theorem Selects.goesOn_fieldWrite {object value : Operand} {field : String} {ty : Ty}
    (h : x.Selects n (.instr (.fieldWrite object field ty value)) code) (hm : x.Rests s t)
    (ha : (Tac.Instr.fieldWrite object field ty value).act w x.setting s = some a) :
    x.GoesOn w code t a := by
  cases h with
  | fieldWrite object_ value_ descriptor_ =>
    simp only [Tac.Instr.act, Option.bind_eq_bind, Option.bind_eq_some_iff] at ha
    obtain ⟨key, hkey, ov, hov, v, hv, heap, hput, ha⟩ := ha
    cases ha
    rw [← hm.memory, fieldKey_eq_some descriptor_ hkey] at hput
    refine goesOn_next ⟨(t.setStack []).setHeap heap, ?_, (hm.toMirrors.setStack []).setHeap heap, rfl⟩
    rw [runAll_append (object_.runs_second value_ hm hov hv), runAll_cons]
    · rfl
    · simp [Instr.act, State.pop, State.setStack, hput]

/-! ### All instructions -/

section
variable {M : Machine Instr State} {before after : List Instr}

/-- Straight code, a comparison of what it leaves, and code that takes the result. -/
theorem steps_through_compare {jump : Instr} {b : Bool} {t' u v : State} (hact : M.act = Instr.act w)
    (hcode : M.code = before ++ (code ++ [jump, .const 0, .goto (whenDone n), .label (whenTrue n),
      .const 1, .label (whenDone n)] ++ rest) ++ after)
    (hplace : ∀ k name, (code ++ [jump, .const 0, .goto (whenDone n), .label (whenTrue n), .const 1,
      .label (whenDone n)] ++ rest)[k]? = some (.label name) →
        M.place? name = some (before.length + k))
    (hrun : runAll (Instr.act w) code t = some u)
    (hjump : jump.act w u = some ((v.setStack []).branch b (whenTrue n)))
    (hrest : runAll M.act rest (v.setStack [.ofBool b]) = some t') :
    M.Steps (before.length, t) (before.length + (code ++ [jump, .const 0, .goto (whenDone n),
      .label (whenTrue n), .const 1, .label (whenDone n)] ++ rest).length, t') := by
  generalize hblock : [jump, .const 0, .goto (whenDone n), .label (whenTrue n), .const 1,
    .label (whenDone n)] = block at hcode hplace ⊢
  have six : block.length = 6 := by rw [← hblock]; rfl
  have place : ∀ k name, block[k]? = some (.label name) →
      M.place? name = some ((before ++ code).length + k) := by
    intro k name hk
    rw [hplace (code.length + k) name, List.length_append, Nat.add_assoc]
    rw [List.append_assoc, List.getElem?_append_right (Nat.le_add_right _ _),
      Nat.add_sub_cancel_left, List.getElem?_append_left (List.getElem?_eq_some_iff.mp hk).1]
    exact hk
  have hfirst : M.code = before ++ code ++ (block ++ rest ++ after) := by rw [hcode]; simp
  have hcompare : M.code = (before ++ code) ++ block ++ (rest ++ after) := by rw [hcode]; simp
  have hlast : M.code = (before ++ code ++ block) ++ rest ++ after := by rw [hcode]; simp
  rw [← hact] at hrun
  have first := steps_of_runAll hfirst hrun
  have second := steps_compare hact (by rw [hblock]; exact hcompare)
    (place 3 _ (by rw [← hblock]; rfl)) (place 5 _ (by rw [← hblock]; rfl)) u hjump
  have third := steps_of_runAll hlast hrest
  rw [List.length_append] at second
  rw [List.length_append, List.length_append, six] at third
  rw [List.length_append, List.length_append, six, ← Nat.add_assoc, ← Nat.add_assoc]
  exact (first.trans second).trans third

/-- A branch that is taken in both codes, or in neither. -/
theorem like_branch (hm : x.Rests s t) (b : Bool) (target : String) :
    Action.Like x.Rests (if b then .jump target s else .next s) (t.branch b target) := by
  cases b with
  | true => exact .jump target hm
  | false => exact .next hm

/-- The code of an instruction does what the instruction does. -/
theorem Selects.does {i : Tac.Instr} {a : Action Tac.State} (h : x.Selects n (.instr i) code)
    (hs : x.slots.Sound (SlotTable.firstSlot x.isStatic)) (hm : x.Rests s t)
    (ha : i.act w x.setting s = some a) (hact : M.act = Instr.act w)
    (hcode : M.code = before ++ code ++ after)
    (hplace : ∀ k name, code[k]? = some (.label name) → M.place? name = some (before.length + k)) :
    ∃ b, a.Like x.Rests b ∧ M.Does (before.length, t) (before.length + code.length) b := by
  have straight : x.GoesOn w code t a →
      ∃ b, a.Like x.Rests b ∧ M.Does (before.length, t) (before.length + code.length) b := by
    rintro ⟨s', t', rfl, hrun, ht'⟩
    rw [← hact] at hrun
    exact ⟨.next t', .next ht', steps_of_runAll hcode hrun⟩
  have whole := h
  cases h with
  | assign value_ dest_ =>
    simp only [Tac.Instr.act, Option.bind_eq_bind, Option.bind_eq_some_iff] at ha
    obtain ⟨v, hv, s', hw, ha⟩ := ha
    cases ha
    exact straight (goesOn_next (dest_.runs_behind hs (value_.runs_first hm hv) hm.toMirrors hw))
  | @binary dest left right op l r o rest left_ right_ op_ dest_ =>
    simp only [Tac.Instr.act, Option.bind_eq_bind, Option.bind_eq_some_iff] at ha
    obtain ⟨lv, hlv, rv, hrv, v, hv, s', hw, ha⟩ := ha
    cases ha
    have hloads := left_.runs_second (w := w) right_ hm hlv hrv
    cases op_ with
    | arith _ arith_ =>
      obtain ⟨m, k, j, rfl, rfl, hj, rfl⟩ := apply_of_arithmetic arith_ hv
      refine straight (goesOn_next (dest_.runs_behind hs ?_ hm.toMirrors hw))
      rw [runAll_append hloads, runAll_cons (t := t.setStack [.int j])]
      · rfl
      · simp [Instr.act, State.push, State.pop, Value.int?, State.setStack, hj]
    | @compare jump _ jump_ =>
      obtain ⟨b, rfl, hjump⟩ := act_compare (w := w) (t := t) jump_ []
        (Tac.State.admits_of_eval hlv) (Tac.State.admits_of_eval hrv) hv
      obtain ⟨t', hrest, hm', hempty⟩ := dest_.runs (w := w) hm.toMirrors hs hw []
      rw [← hact] at hrest
      exact ⟨.next t', .next ⟨hm', hempty⟩, steps_through_compare hact hcode hplace hloads hjump hrest⟩
  | not operand_ dest_ =>
    simp only [Tac.Instr.act, Option.bind_eq_bind, Option.bind_eq_some_iff,
      Value.bool?_eq_some] at ha
    obtain ⟨v, hv, b, rfl, s', hw, ha⟩ := ha
    cases ha
    refine straight (goesOn_next (dest_.runs_behind hs ?_ hm.toMirrors hw))
    rw [runAll_append (operand_.runs_first hm hv)]
    cases b <;> rfl
  | call =>
    simp only [Tac.Instr.act, Option.bind_eq_bind, Option.bind_eq_some_iff] at ha
    obtain ⟨s', hc, ha⟩ := ha
    cases ha
    exact straight (goesOn_next (whole.call_runs hs hm hc))
  | newArray => exact straight (whole.goesOn_newArray hs hm ha)
  | arrayLength => exact straight (whole.goesOn_arrayLength hs hm ha)
  | arrayStore => exact straight (whole.goesOn_arrayStore hm ha)
  | fieldRead => exact straight (whole.goesOn_fieldRead hs hm ha)
  | fieldWrite => exact straight (whole.goesOn_fieldWrite hm ha)
  | retNone =>
    cases ha
    exact ⟨_, .ret none ⟨hm.toMirrors.setStack [], rfl⟩, does_of_act hcode (by rw [hact]; rfl)⟩
  | @ret value kind v held value_ =>
    simp only [Tac.Instr.act, Option.bind_eq_bind, Option.bind_eq_some_iff] at ha
    obtain ⟨vv, hvv, ha⟩ := ha
    split at ha
    · next hadmits =>
      cases ha
      have hrun := value_.runs_first (w := w) hm hvv
      rw [← hact] at hrun
      have hkind : vv.kind = kind :=
        (Ty.kind_of_admits hadmits).trans (eq_kind_of_valueKind held).symm
      refine ⟨_, .ret (some vv) ⟨hm.toMirrors.setStack [], rfl⟩, does_of_runAll hcode hrun ?_⟩
      rw [hact]
      simp [Instr.act, State.pop, State.setStack, hkind]
    · cases ha
  | @compare op left right target l r jump left_ right_ jump_ =>
    simp only [Tac.Instr.act, Tac.State.test, Option.bind_eq_bind, Option.bind_eq_some_iff] at ha
    obtain ⟨b, ⟨lv, hlv, rv, hrv, v, hv, hb⟩, ha⟩ := ha
    cases ha
    obtain ⟨holds, rfl, hjump⟩ := act_compare (w := w) (t := t) jump_ [] (Tac.State.admits_of_eval hlv)
      (Tac.State.admits_of_eval hrv) hv
    rw [Value.bool?_ofBool] at hb
    cases hb
    have hloads := left_.runs_second (w := w) right_ hm hlv hrv
    rw [hm.setStack_nil] at hjump
    rw [← hact] at hloads hjump
    exact ⟨_, like_branch hm _ target, does_of_runAll hcode hloads hjump⟩
  | @truthy value target v value_ =>
    simp only [Tac.Instr.act, Tac.State.test, Option.bind_eq_bind, Option.bind_eq_some_iff,
      Value.bool?_eq_some] at ha
    obtain ⟨b, ⟨vv, hvv, rfl⟩, ha⟩ := ha
    cases ha
    have hrun := value_.runs_first (w := w) hm hvv
    have hjump : (Instr.ifTrue target).act w (t.setStack [.ofBool b]) =
        some (t.branch b target) := by
      rw [← hm.setStack_nil]
      cases b <;> rfl
    rw [← hact] at hrun hjump
    exact ⟨_, like_branch hm b target, does_of_runAll hcode hrun hjump⟩
  | jump target =>
    cases ha
    exact ⟨_, .jump target hm, does_of_act hcode (by rw [hact]; rfl)⟩
  | label name =>
    cases ha
    exact ⟨_, .next hm, does_of_act hcode (by rw [hact]; rfl)⟩

end

/-! ## Allocations -/

/-- A variable that is written holds the value, and nothing else changes. -/
theorem write_eq_some {dest : Operand} {v : Value} (hw : s.write dest v = some s') :
    ∃ key, slotKey? dest = some key ∧ s' = { s with vars := Function.update s.vars key (some v) } := by
  simp only [Tac.State.write, Option.bind_eq_bind, Option.bind_eq_some_iff] at hw
  obtain ⟨key, hkey, hw⟩ := hw
  split at hw
  · cases hw
    exact ⟨key, hkey, rfl⟩
  · cases hw

/-- What is written does not depend on memory. -/
theorem write_setMemory {dest : Operand} {v : Value} (hw : s.write dest v = some s')
    (memory : Memory) : { s with memory }.write dest v = some { s' with memory } := by
  simp only [Tac.State.write, Option.bind_eq_bind, Option.bind_eq_some_iff] at hw ⊢
  obtain ⟨key, hkey, hw⟩ := hw
  split at hw
  · next hadmits =>
    cases hw
    exact ⟨key, hkey, if_pos hadmits⟩
  · cases hw

/-- An operand that agrees with the one that was written names the same variable. -/
theorem eval_of_agrees {dest on : Operand} {v u : Value} (hw : s.write dest v = some s')
    (hagrees : on.agrees dest = true) (hu : s'.eval on = some u) : u = v := by
  obtain ⟨key, hkey, rfl⟩ := write_eq_some hw
  have same : ∀ ty : Ty, (Function.update s.vars key (some v) key).filter ty.admits = some u →
      u = v := by
    intro ty h
    rw [Function.update_self] at h
    exact (Option.some.inj (Option.filter_eq_some_iff.mp h).1).symm
  cases dest with
  | temp id ty =>
    cases hkey
    cases on with
    | temp id' ty' =>
      obtain ⟨rfl, -⟩ : id' = id ∧ ty'.agrees ty = true := by simpa [Operand.agrees] using hagrees
      exact same ty' hu
    | _ => cases hagrees
  | var name ty =>
    cases hkey
    cases on with
    | var name' ty' =>
      obtain ⟨rfl, -⟩ : name' = name ∧ ty'.agrees ty = true := by
        simpa [Operand.agrees] using hagrees
      exact same ty' hu
    | _ => cases hagrees
  | _ => cases hkey

/-- A constructor call on the variable of a new object is made on the object, in its class. -/
theorem receiver_of_newObject {y : Setting} {dest on : Operand} {className owner : String}
    {address : Nat} {heap : Heap} {found : InvokeKind} {object : Option Nat}
    (hnew : s.memory.heap.newObject className = (address, heap))
    (hw : (s.setHeap heap).write dest (.ref (some address)) = some s')
    (hagrees : on.agrees dest = true)
    (hr : s'.receiver y .constructor on = some (found, owner, object)) :
    found = .special ∧ owner = className ∧ object = some address := by
  have hcell : s'.memory.heap.object? (.ref (some address)) =
      some (address, className, FieldKey.initial) := by
    obtain ⟨key, -, rfl⟩ := write_eq_some hw
    cases hnew
    simp [Heap.object?, Value.address?, Tac.State.setHeap]
  -- Only a temporary or variable agrees with one, so the receiver is not the method's own.
  have hself : ∀ ty, on ≠ .self ty := by
    rintro ty rfl
    obtain ⟨key, hkey, -⟩ := write_eq_some hw
    cases dest <;> first | cases hagrees | cases hkey
  have hr' : ∃ v, s'.eval on = some v ∧ ∃ a name fields,
      s'.memory.heap.object? v = some (a, name, fields) ∧
        (InvokeKind.special, name, some a) = (found, owner, object) := by
    cases on with
    | self ty => exact absurd rfl (hself ty)
    | _ =>
      simp only [Tac.State.receiver, Option.bind_eq_bind, Option.bind_eq_some_iff] at hr
      obtain ⟨v, hv, ⟨a, name, fields⟩, hobject, hr⟩ := hr
      exact ⟨v, hv, a, name, fields, hobject, Option.some.inj hr⟩
  obtain ⟨v, hv, a, name, fields, hobject, hr⟩ := hr'
  cases eval_of_agrees hw hagrees hv
  rw [hcell] at hobject
  cases hobject
  cases hr
  exact ⟨rfl, rfl, rfl⟩

/-- The descriptor of a constructor without arguments. -/
theorem descriptor_of_constructor {names : ClassNames} {ty : Ty} {d : String}
    (hvoid : ty.isVoid = true) (h : names.methodDescriptor [] ty = .ok d) : d = "()V" := by
  have hname : ty.name = "void" := by simpa [Ty.isVoid] using hvoid
  rw [ClassNames.methodDescriptor, List.mapM_nil] at h
  obtain ⟨params, hparams, h⟩ := bind_eq_ok.mp h
  obtain ⟨result, hresult, h⟩ := bind_eq_ok.mp h
  cases hparams
  cases h
  rw [ClassNames.descriptor, hvoid] at hresult
  split at hresult
  · cases hresult
  · cases hresult
    rw [ClassNames.scalarDescriptor, hname]
    rfl

/-- The code of an allocation allocates the object, initialises it and stores it. -/
theorem newObject_runs {dest on : Operand} {dest' : Option Operand} {className : String} {ty : Ty}
    {s₁ : Tac.State} (h : x.Selects n (.newObject dest className) code)
    (hs : x.slots.Sound (SlotTable.firstSlot x.isStatic)) (hm : x.Rests s t)
    (hagrees : on.agrees dest = true) (hvoid : ty.isVoid = true)
    (ha : (Tac.Instr.newObject dest className).act w x.setting s = some (.next s₁))
    (hc : s₁.call w x.setting dest' .constructor on constructorName [] ty = some s') :
    ∃ t', runAll (Instr.act w) code t = some t' ∧ x.Rests s' t' := by
  cases h with
  | @newObject _ _ rest dest_ =>
    generalize hnew : s.memory.heap.newObject (x.names.qualify className) = new
    obtain ⟨address, heap⟩ := new
    have hnew' : s.memory.heap.newObject (x.setting.names.qualify className) = (address, heap) := hnew
    simp only [Tac.Instr.act, hnew', Option.bind_eq_bind, Option.bind_eq_some_iff] at ha
    obtain ⟨s₂, hw, ha⟩ := ha
    cases ha
    simp only [Tac.State.call, Option.bind_eq_bind, Option.bind_eq_some_iff, toOption_eq_some] at hc
    obtain ⟨⟨found, owner, object⟩, hr, vs, hvs, d, hd, ⟨result, memory⟩, hcall, hf⟩ := hc
    obtain ⟨rfl, rfl, rfl⟩ := receiver_of_newObject hnew hw hagrees hr
    cases hvs
    cases descriptor_of_constructor hvoid hd
    obtain ⟨rfl, rfl⟩ : result = none ∧ s' = { s₁ with memory } := by
      cases dest' with
      | some dest' => cases result <;> simp [Tac.State.finish, hvoid] at hf
      | none =>
        rw [Tac.State.finish, hvoid] at hf
        split at hf
        · next hnone =>
          cases hf
          exact ⟨by simpa using hnone, rfl⟩
        · cases hf
    obtain ⟨t', hrest, hm', hempty⟩ := dest_.runs (w := w) (hm.toMirrors.setMemory memory) hs
      (write_setMemory hw memory) []
    refine ⟨t', ?_, hm', hempty⟩
    rw [runAll_cons (t := (t.setStack [.ref (some address)]).setHeap heap),
      runAll_cons (t := (t.setStack [.ref (some address), .ref (some address)]).setHeap heap),
      runAll_cons (t := { t with memory }.setStack [.ref (some address)])]
    · exact hrest
    · have hmemory : s₁.memory = ((t.setStack []).setHeap heap).memory := by
        obtain ⟨key, -, rfl⟩ := write_eq_some hw
        exact ((hm.toMirrors.setStack []).setHeap heap).memory.symm
      have hcall' : w.invoke ⟨.special, x.names.qualify className, constructorName, "()V",
          some address, []⟩ ((t.setStack []).setHeap heap).memory = some (none, memory) := by
        rw [← hmemory]
        exact hcall
      simp [Instr.act, State.invoke, State.setStack, State.setHeap, State.receiver] at hcall' ⊢
      simp [hcall']
    · rfl
    · rw [← hm.memory] at hnew
      simp [Instr.act, State.push, hnew, hm.empty]

end MethodContext

end JavaMinus.Jvm
