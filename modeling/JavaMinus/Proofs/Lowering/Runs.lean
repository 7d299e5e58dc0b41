import JavaMinus.Proofs.Lowering.Later

/-!
# Running what lowering writes

`Lower.Runs` says where the code that a computation writes comes to when it is run from a state, and
what is true there of what the computation yields. A sequence is run part by part (`Runs.bind`), and
each of the steps that lowering is made of has a rule: a variable is read, an operand is copied, an
array is packed, an object is allocated. None of these steps calls a method, so an operand keeps its value
through all of them, unless it is an element and the constructor of an object writes arrays.
-/

namespace JavaMinus

open Tac Lower
open JavaMinus.Runtime
open Jvm (elementKind)

variable {w : World} {x : Setting} {s : Scope} {writes : Prop} {c : Counters} {t : State}

/-- The mark of varargs is not part of what a type is. -/
theorem Ty.admits_plain (ty : Ty) (v : Value) : ty.plain.admits v = ty.admits v := by
  cases v <;> rfl

theorem Ty.admits_ofBool (b : Bool) : Ty.boolean.admits (.ofBool b) = true := by
  cases b <;> rfl

/-- The result of an operator is of its result type. -/
theorem BinaryOp.admits_of_apply {op : BinaryOp} {a b v : Value} (h : op.apply a b = some v) :
    op.resultType.admits v = true := by
  unfold apply apply.ints apply.truths at h
  split at h
  case h_4 =>
    -- a division has a result unless the divisor is zero
    simp only [Option.bind_eq_bind, Option.bind_eq_some_iff] at h
    obtain ⟨i, -, j, -, h⟩ := h
    split at h
    · cases h
    · cases h
      rfl
  case h_9 | h_10 =>
    split at h
    · cases h
      exact Ty.admits_ofBool _
    · cases h
  all_goals
    simp only [Option.bind_eq_bind, Option.bind_eq_some_iff] at h
    obtain ⟨i, -, j, -, h⟩ := h
    cases h
    first
      | exact Ty.admits_ofBool _
      | rfl

namespace Lower

/-! ## Running computations -/

/-- Run from a state, what the computation writes comes to a state that is later, and what it yields
satisfies a property there. The property is also told how many temporaries are drawn. -/
def Runs {α : Type} (w : World) (x : Setting) (writes : Prop) (y : Lower α) (c : Counters) (t : State)
    (Q : α → Nat → State → Prop) : Prop :=
  ∀ a code c', y.run c = .done a code c' → ∃ t', Machine.runAll (Instr.act w x) code t = some t' ∧
    State.Later writes c.temps t c'.temps t' ∧ Q a c'.temps t'

/-- The operand has a value, and memory is as given. -/
def Gives (m : Memory) (v : Value) (o : Operand) (n : Nat) (t : State) : Prop :=
  t.memory = m ∧ State.Has n t o v

/-- The operands have values, and memory is as given. -/
def GivesAll (m : Memory) (vs : List Value) (os : List Operand) (n : Nat) (t : State) : Prop :=
  t.memory = m ∧ State.HasAll n t os vs

section Rules

variable {α β : Type} {y : Lower α} {f : α → Lower β} {P : α → Nat → State → Prop}
  {Q : β → Nat → State → Prop}

/-- The parts of a sequence are run one after the other. If the first one writes, the whole does. -/
theorem Runs.bind {part : Prop} (hy : y.Runs w x part c t P) (hpart : part → writes)
    (hf : ∀ a code c' t', y.run c = .done a code c' → State.Later part c.temps t c'.temps t' →
      P a c'.temps t' → (f a).Runs w x writes c' t' Q) :
    (y >>= f).Runs w x writes c t Q := by
  intro b code c' h
  obtain ⟨a, code₁, c₁, code₂, h₁, h₂, rfl⟩ := run_bind_eq_done.mp h
  obtain ⟨t₁, hrun₁, hl₁, hP⟩ := hy a code₁ c₁ h₁
  obtain ⟨t₂, hrun₂, hl₂, hQ⟩ := hf a code₁ c₁ t₁ h₁ hl₁ hP b code₂ c' h₂
  refine ⟨t₂, (Machine.runAll_append hrun₁).trans hrun₂, (hl₁.trans hl₂).mono fun h => ?_, hQ⟩
  exact h.elim hpart id

theorem Runs.mono {part : Prop} {P' : α → Nat → State → Prop} (hy : y.Runs w x part c t P)
    (hpart : part → writes) (h : ∀ a n t', P a n t' → P' a n t') :
    y.Runs w x writes c t P' := by
  intro a code c' hrun
  obtain ⟨t', hrun', hl, hP⟩ := hy a code c' hrun
  exact ⟨t', hrun', hl.mono hpart, h a _ t' hP⟩

/-- Writing nothing is less than may be done. -/
theorem Runs.quiet (h : y.Runs w x False c t P) : y.Runs w x writes c t P :=
  h.mono nofun fun _ _ _ h => h

/-- What leaves the arrays as they are does not count as writing. -/
theorem Runs.of_later
    (h : y.Runs w x True c t fun a n t' => State.Later False c.temps t n t' ∧ P a n t') :
    y.Runs w x False c t P := by
  intro a code c' hrun
  obtain ⟨t', hrun', -, hl, hP⟩ := h a code c' hrun
  exact ⟨t', hrun', hl, hP⟩

theorem runs_pure {a : α} (h : P a c.temps t) : (pure a : Lower α).Runs w x writes c t P := by
  intro b code c' hrun
  cases hrun
  exact ⟨t, rfl, .refl writes c.temps t, h⟩

theorem runs_fail (e : LoweringError) : (fail e : Lower α).Runs w x writes c t P := by
  intro a code c' hrun
  cases hrun

theorem runs_emit {i : Instr} {t' : State} {P : Unit → Nat → State → Prop}
    (hact : i.act w x t = some (.next t')) (hl : State.Later writes c.temps t c.temps t')
    (h : P () c.temps t') : (emit i).Runs w x writes c t P := by
  intro a code c' hrun
  cases hrun
  exact ⟨t', by rw [Machine.runAll_cons hact]; rfl, hl, h⟩

end Rules

/-! ## The parts of expressions -/

/-- A fresh temporary is filled with a value of its type, by an instruction that writes the value. -/
theorem runs_intoFresh {ty : Ty} {instr : Operand → Instr} {v : Value} {memory : Memory}
    (hv : ty.admits v = true)
    (hact : ∀ dest t', ({ t with memory } : State).write dest v = some t' →
      (instr dest).act w x t = some (.next t'))
    (hk : t.memory.heap.Keeps memory.heap) :
    (intoFresh ty instr).Runs w x False c t fun o n t' =>
      Gives memory v o n t' ∧ o.isElement = false := by
  intro o code c' hrun
  cases hrun
  have hv : ty.plain.admits v = true := (ty.admits_plain v).trans hv
  have hfill := hact (.temp c.temps ty.plain) _ (State.write_temp hv)
  exact ⟨_, by rw [List.nil_append, List.append_nil, Machine.runAll_cons hfill]; rfl,
    State.later_fill c.temps t v fun _ => hk, ⟨rfl, State.has_fill hv⟩, rfl⟩

theorem runs_fresh {ty : Ty} {instr : Operand → Instr} {v : Value} {memory : Memory}
    (hv : ty.admits v = true)
    (hact : ∀ dest t', ({ t with memory } : State).write dest v = some t' →
      (instr dest).act w x t = some (.next t'))
    (hk : t.memory.heap.Keeps memory.heap) :
    (intoFresh ty instr).Runs w x writes c t (Gives memory v) :=
  (runs_intoFresh hv hact hk).mono nofun fun _ _ _ h => h.1

/-- A variable has the value that the frame or the receiver's field has. -/
theorem runs_readVariable {name : String} {v : Value}
    (h : t.frame.read x s t.memory.heap name = some v) :
    (readVariable s name).Runs w x False c t (Gives t.memory v) := by
  simp only [Source.Frame.read, Option.bind_eq_bind, Option.bind_eq_some_iff] at h
  obtain ⟨u, hu, h⟩ := h
  unfold readVariable
  rw [hu, ofOption_some, pure_bind]
  split at h
  · next hfield =>
    rw [if_pos hfield]
    simp only [Option.bind_eq_some_iff] at h
    obtain ⟨key, hkey, this, hthis, h⟩ := h
    obtain ⟨hv, hadmits⟩ := Option.filter_eq_some_iff.mp h
    have hkey : State.fieldKey x (self s) name u.ty = some key := hkey
    have hthis : t.eval (self s) = some this := hthis
    have hact (dest : Operand) (t' : State) (hwrite : t.write dest v = some t') :
        (Instr.fieldRead dest (self s) name u.ty).act w x t = some (.next t') := by
      simp only [Instr.act, hkey, hthis, hv, hwrite, Option.bind_eq_bind, Option.bind_some,
        Option.pure_def]
    exact runs_fresh hadmits hact (.refl _)
  · next hfield =>
    rw [if_neg hfield]
    exact runs_pure ⟨rfl, trivial, h⟩

/-- An operand is copied. -/
theorem runs_copy {ty : Ty} {o : Operand} {v : Value} (hv : ty.admits v = true)
    (h : t.eval o = some v) :
    (intoFresh ty fun dest => .assign dest o).Runs w x False c t fun o n t' =>
      Gives t.memory v o n t' ∧ o.isElement = false := by
  have hact (dest : Operand) (t' : State) (hwrite : t.write dest v = some t') :
      (Instr.assign dest o).act w x t = some (.next t') := by
    simp only [Instr.act, h, hwrite, Option.bind_eq_bind, Option.bind_some, Option.pure_def]
  exact runs_intoFresh hv hact (.refl _)

/-- An operand is left to be read late only if it was an element and no call follows. -/
theorem runs_settleBefore {o : Operand} {v : Value} {next : Expr} (h : State.Has c.temps t o v) :
    (settleBefore o next).Runs w x False c t fun settled n t' => Gives t.memory v settled n t' ∧
      (settled.isElement = true → o.isElement = true ∧ next.containsCall = false) := by
  unfold settleBefore
  split
  · refine (runs_copy (State.admits_of_eval h.value) h.value).mono id fun _ _ _ h => ⟨h.1, fun hel => ?_⟩
    rw [h.2] at hel
    cases hel
  · next hkeep =>
    refine runs_pure ⟨⟨rfl, h⟩, fun hel => ⟨hel, ?_⟩⟩
    rw [hel, Bool.true_and] at hkeep
    exact Bool.eq_false_iff.mpr hkeep

/-- An element has the value that stands in the array. -/
theorem runs_elementAt {site : Site} {array index : Operand} {a i v : Value}
    (ha : State.Has c.temps t array a) (hi : State.Has c.temps t index i)
    (hv : (t.memory.heap.getElement (elementKind array.ty.name) a i).filter
      (Ty.scalar array.ty.name).admits = some v) :
    (elementAt site array index).Runs w x False c t (Gives t.memory v) := by
  unfold elementAt elementOf
  cases hel : array.ty.element? with
  | none => exact runs_fail _
  | some ty =>
    obtain ⟨-, rfl⟩ := Ty.element?_eq_some.mp hel
    have helement : t.eval (.element array index (Ty.scalar array.ty.name)) = some v := by
      simp only [State.eval, ha.value, hi.value, Option.bind_eq_bind, Option.bind_some, hv]
    rw [ofOption_some, pure_bind]
    dsimp only
    split
    · exact (runs_copy (State.admits_of_eval helement) helement).mono id fun _ _ _ h => h.1
    · exact runs_pure ⟨rfl, ⟨ha.below, hi.below⟩, helement⟩

/-- Operands are stored into an array that was allocated after they were computed. -/
theorem runs_storeAll {n : Nat} {t₀ : State} {slot a : Nat} {ty : Ty}
    (hnew : t₀.memory.heap.cells.length ≤ a) {os : List Operand} {vs : List Value}
    (h : State.HasAll n t₀ os vs) : ∀ {i : Nat} {t : State} {heap : Heap},
      t.eval (.temp slot ty) = some (.ref (some a)) → State.Later False n t₀ c.temps t →
      w.fill t.memory.heap ty.name (.ref (some a)) i vs = some heap →
      (storeAll (.temp slot ty) i os).Runs w x True c t fun _ k t' =>
        State.Later False n t₀ k t' ∧ t' = t.setHeap heap := by
  induction h with
  | nil =>
    intro i t heap _ hl hfill
    cases hfill
    exact runs_pure ⟨hl, rfl⟩
  | @cons o v os vs hfirst _ ih =>
    intro i t heap ha hl hfill
    simp only [World.fill, World.store, Option.bind_eq_bind, Option.bind_eq_some_iff] at hfill
    obtain ⟨next, hstore, hfill⟩ := hfill
    split at hstore
    · next hadmits =>
      have hv : t.eval o = some v := (hfirst.later hl nofun).value
      have hi : t.eval (.int (Int32.ofNat i)) = some (.int (.ofNat i)) := rfl
      have hact : (Instr.arrayStore (.temp slot ty) (.int (Int32.ofNat i)) o).act w x t =
          some (.next (t.setHeap next)) := by
        have hadmits : (Ty.scalar (Operand.temp slot ty).ty.name).admits v = true := hadmits
        have hstore : w.setElement t.memory.heap (elementKind (Operand.temp slot ty).ty.name)
          (.ref (some a)) (.int (.ofNat i)) v = some next := hstore
        simp only [Instr.act, ha, hi, hv, hadmits, hstore, Option.bind_eq_bind, Option.bind_some,
          Option.pure_def, if_true]
      have hlater : State.Later False n t₀ c.temps (t.setHeap next) :=
        ⟨hl.le, hl.frame, hl.temps, fun _ => World.keeps_setElement (hl.arrays id) hnew hstore⟩
      refine Runs.bind (P := fun _ k t' => k = c.temps ∧ t' = t.setHeap next)
        (runs_emit hact (State.later_memory c.temps t fun h => (h trivial).elim) ⟨rfl, rfl⟩) id ?_
      rintro _ code c' _ hrun - ⟨-, rfl⟩
      cases hrun
      exact ih (t := t.setHeap next) ha hlater hfill
    · cases hstore

/-- Operands are packed into a new array. -/
theorem runs_packArray {element : Ty} {os : List Operand} {vs : List Value} {v : Value} {m : Memory}
    (h : State.HasAll c.temps t os vs)
    (hnew : Source.newArrayOf w x t.memory element.name vs = some (v, m)) :
    (packArray element os).Runs w x False c t (Gives m v) := by
  simp only [Source.newArrayOf, Option.bind_eq_bind, Option.bind_eq_some_iff] at hnew
  obtain ⟨⟨a, heap⟩, halloc, filled, hfill, hnew⟩ := hnew
  cases hnew
  obtain ⟨ha, hkeeps⟩ := Heap.keeps_newArray halloc
  have packs : (do
      let array ← intoFresh (Ty.array element.name) fun dest =>
        .newArray dest (.int (Int32.ofNat os.length)) element
      storeAll array 0 os
      return array : Lower Operand).Runs w x False c t
        (Gives { t.memory with heap := filled } (.ref (some a))) := by
    refine Runs.of_later ?_
    have hlength : t.eval (.int (Int32.ofNat os.length)) = some (.int (.ofNat vs.length)) := by
      rw [h.length_eq]
      rfl
    have hact (dest : Operand) (t' : State)
        (hwrite : (t.setHeap heap).write dest (.ref (some a)) = some t') :
        (Instr.newArray dest (.int (Int32.ofNat os.length)) element).act w x t = some (.next t') := by
      simp only [Instr.act, hlength, halloc, hwrite, Option.bind_eq_bind, Option.bind_some,
        Option.pure_def]
    refine Runs.bind (runs_intoFresh rfl hact hkeeps) nofun ?_
    rintro array code c₁ t₁ hrun hl ⟨⟨hm, harray⟩, -⟩
    cases hrun
    have hfill : w.fill t₁.memory.heap element.name (.ref (some a)) 0 vs = some filled := by
      rw [hm]
      exact hfill
    refine Runs.bind (runs_storeAll (Nat.le_of_eq ha.symm) h harray.value hl hfill) id ?_
    rintro _ code c₂ _ - stored ⟨hl, rfl⟩
    refine runs_pure ⟨hl, ?_, harray.below.mono stored.le, harray.value⟩
    show { t₁.memory with heap := filled } = _
    rw [hm]
  unfold packArray
  split
  · exact runs_fail _
  · exact packs

/-- What is passed for arguments are the values that are passed for theirs. -/
theorem runs_pass {target : CallTarget} {method : String} {os : List Operand} {vs passed : List Value}
    {m : Memory} (h : State.HasAll c.temps t os vs)
    (hp : Source.pass w x target (os.map Operand.ty) vs t.memory = some (passed, m)) :
    (pass s target method os).Runs w x False c t (GivesAll m passed) := by
  have same (hp : some (vs, t.memory) = some (passed, m)) :
      (pure os : Lower (List Operand)).Runs w x False c t (GivesAll m passed) := by
    cases hp
    exact runs_pure ⟨rfl, h⟩
  cases target with
  | declared sig =>
    change (packVarargs s sig method os).Runs w x False c t (GivesAll m passed)
    unfold packVarargs
    unfold Source.pass at hp
    dsimp only at hp
    cases hv : sig.varargsParameter? with
    | none =>
      rw [hv] at hp
      exact same hp
    | some varargs =>
      rw [hv] at hp
      dsimp only at hp ⊢
      rw [List.length_map] at hp
      split
      · next hdirect =>
        rw [hdirect, Bool.true_or, if_pos rfl] at hp
        exact same hp
      · next hdirect =>
        split
        · next hfew =>
          rw [if_pos (by simp [hfew])] at hp
          split
          · exact same hp
          · exact runs_fail _
        · next hfew =>
          rw [if_neg (by simpa [hdirect] using hfew)] at hp
          simp only [Option.bind_eq_bind, Option.bind_eq_some_iff] at hp
          obtain ⟨⟨array, m'⟩, harray, hp⟩ := hp
          cases hp
          unfold elementOf
          cases hel : varargs.ty.element? with
          | none => exact runs_fail _
          | some element =>
            obtain ⟨-, rfl⟩ := Ty.element?_eq_some.mp hel
            rw [ofOption_some, pure_bind]
            refine Runs.bind (runs_packArray (List.forall₂_drop sig.fixedCount h) harray) nofun ?_
            rintro packed code c' t' - hl ⟨hm, hpacked⟩
            have hfixed : State.HasAll c.temps t (os.take sig.fixedCount) (vs.take sig.fixedCount) :=
              List.forall₂_take sig.fixedCount h
            exact runs_pure ⟨hm, List.rel_append (hfixed.later hl fun h => by cases h)
              (.cons hpacked .nil)⟩
  | _ => exact same hp

/-- An object that was just allocated. -/
theorem object?_newObject (h : Heap) (className : String) :
    (h.newObject className).2.object? (.ref (some (h.newObject className).1)) =
      some ((h.newObject className).1, className, FieldKey.initial) := by
  simp [Heap.newObject, Heap.allocate, Heap.object?, Value.address?]

/-- An object is allocated, and its constructor runs, which may write arrays. -/
theorem runs_allocate {className : String} {v : Value} {m : Memory} {f : Source.Frame} {site : Site}
    {span : Span} (h : (Expr.newObject className span).eval w x s f site t.memory = some (v, m)) :
    (allocate className).Runs w x (¬ w.ConstructorKeepsArrays (x.names.qualify className)) c t
      (Gives m v) := by
  simp only [Expr.eval, Option.bind_eq_bind, Option.bind_eq_some_iff] at h
  obtain ⟨⟨result, m'⟩, hcall, h⟩ := h
  split at h
  · next hdone =>
    obtain ⟨rfl, hadmits⟩ := hdone
    cases h
    intro o code c' hrun
    cases hrun
    let object := t.memory.heap.newObject (x.names.qualify className)
    let allocated := t.fill c.temps (.ref (some object.1)) { t.memory with heap := object.2 }
    have hobject : allocated.eval (.temp c.temps (Ty.scalar className)) = some (.ref (some object.1)) :=
      State.eval_fill hadmits
    have hnew : (Instr.newObject (.temp c.temps (Ty.scalar className)) className).act w x t =
        some (.next allocated) := by
      have hwrite : (t.setHeap object.2).write (.temp c.temps (Ty.scalar className))
        (.ref (some object.1)) = some allocated := State.write_temp hadmits
      simp only [Instr.act, object, hwrite, Option.bind_eq_bind, Option.bind_some, Option.pure_def]
    have hconstruct : (Instr.call none .constructor (.temp c.temps (Ty.scalar className))
        constructorName [] Ty.void).act w x allocated = some (.next { allocated with memory := m' }) := by
      have hreceiver : allocated.receiver x .constructor (.temp c.temps (Ty.scalar className)) =
          some (.special, x.names.qualify className, some object.1) := by
        simp only [State.receiver, hobject, Option.bind_eq_bind, Option.bind_some]
        exact congrArg (Option.bind · _) (object?_newObject _ _)
      have hdescriptor : (x.names.methodDescriptor [] Ty.void).toOption = some "()V" := rfl
      have hcall : w.invoke ⟨.special, x.names.qualify className, constructorName, "()V",
        some object.1, []⟩ allocated.memory = some (none, m') := hcall
      simp only [Instr.act, State.call, hreceiver, State.evalAll, List.map_nil, hdescriptor, hcall,
        Option.bind_eq_bind, Option.bind_some, Option.pure_def]
      rfl
    have hkeeps (hw : w.ConstructorKeepsArrays (x.names.qualify className)) :
        t.memory.heap.Keeps m'.heap :=
      (t.memory.heap.keeps_allocate _).trans (hw.invoke rfl hcall)
    refine ⟨t.fill c.temps (.ref (some object.1)) m', ?_,
      State.later_fill c.temps t _ fun h => hkeeps (not_not.mp h), rfl, State.has_fill hadmits⟩
    exact (Machine.runAll_cons hnew).trans ((Machine.runAll_cons hconstruct).trans rfl)
  · cases h

end Lower

end JavaMinus
