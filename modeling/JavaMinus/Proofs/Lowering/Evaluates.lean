import JavaMinus.Proofs.Lowering.Runs
import JavaMinus.Proofs.Typing.ReadOrder

/-!
# The code of an expression gives its value

Where an expression has a value in the frame and memory of a state, its code runs from that state to
one with the memory behind the expression, and the operand that lowering yields has the value there
(`Expr.lower_evaluates`). The expression has to be in order (`Expr.Ordered`), since an element that is
read too late may have another value: no call may stand between the place of an element and its
reading, and the constructors that run in between have to leave the arrays as they are.

Between two parts an operand keeps its value as long as no array is written (`Expr.MayWrite`) or it is
no element; and it is an element only where an element stands in the text that is no argument
(`Expr.isIndex_of_isElement`).
-/

namespace JavaMinus

open Tac Lower
open JavaMinus.Runtime
open Jvm (elementKind)

variable {w : World} {x : Setting} {s : Scope} {writes : Prop} {c : Counters} {t : State}

/-! ## Expressions that write arrays -/

namespace Expr

/-- Evaluating the expression itself may write arrays that there are: it is a call, or an allocation
with a constructor that does not leave them as they are. -/
def Writes (w : World) (x : Setting) : Expr → Prop
  | .call .. => True
  | .newObject className _ => ¬ w.ConstructorKeepsArrays (x.names.qualify className)
  | _ => False

/-- Evaluating the expression may write arrays that there are. -/
def MayWrite (w : World) (x : Setting) (e : Expr) : Prop := ∃ n ∈ e.nodes, n.Writes w x

/-- Evaluating one of the expressions may write arrays that there are. -/
def MayWriteAny (w : World) (x : Setting) (es : List Expr) : Prop := ∃ e ∈ es, e.MayWrite w x

/-- An expression is evaluated in order: no part of it reads an array element too late for a call, and
the constructors that run while an element waits leave the arrays as they are. -/
structure Ordered (w : World) (x : Setting) (s : Scope) (e : Expr) : Prop where
  calls : e.InOrder s
  news : ∀ className ∈ e.lateNews, w.ConstructorKeepsArrays (x.names.qualify className)

/-- What a part writes the whole writes. -/
theorem MayWrite.of_part {e part : Expr} (hp : ∀ n ∈ part.nodes, n ∈ e.nodes)
    (h : part.MayWrite w x) : e.MayWrite w x := by
  obtain ⟨n, hn, hw⟩ := h
  exact ⟨n, hp n hn, hw⟩

/-- Without calls, and with constructors that leave the arrays as they are, no array is written. -/
theorem not_mayWrite {e : Expr} (hcall : e.containsCall = false)
    (hnews : ∀ className ∈ e.news, w.ConstructorKeepsArrays (x.names.qualify className)) :
    ¬ e.MayWrite w x := by
  rintro ⟨n, hn, hw⟩
  cases n with
  | call =>
    have := containsCall_of_mem_nodes e hcall _ hn
    cases this
  | newObject className span => exact hw (hnews className (List.mem_filterMap.mpr ⟨_, hn, rfl⟩))
  | _ => exact hw

theorem not_mayWriteAny {es : List Expr} (hcall : anyContainsCall es = false)
    (hnews : ∀ e ∈ es, ∀ className ∈ e.news, w.ConstructorKeepsArrays (x.names.qualify className)) :
    ¬ MayWriteAny w x es := by
  rintro ⟨e, he, hw⟩
  exact not_mayWrite (containsCall_of_mem_nodesAll es hcall e (mem_nodesAll he e.mem_nodes_self))
    (hnews e he) hw

namespace Ordered

variable {e inner : Expr}

/-- A part of an expression in order is in order. -/
theorem part (h : e.Ordered w x s) (hp : ∀ n ∈ inner.nodes, n ∈ e.nodes) : inner.Ordered w x s :=
  ⟨h.calls.part hp, fun className hc => h.news className (lateNews_subset (fun n => hp n) hc)⟩

theorem unparenthesized (h : e.Ordered w x s) : e.unparenthesized.Ordered w x s :=
  h.part fun _ => mem_nodes_unparenthesized

/-- The constructors in a part that overtakes an element leave the arrays as they are. -/
theorem overtaking (h : e.Ordered w x s) (hp : inner ∈ e.overtaking) :
    ∀ className ∈ inner.news, w.ConstructorKeepsArrays (x.names.qualify className) :=
  fun className hc => h.news className
    (List.mem_flatMap.mpr ⟨e, e.mem_nodes_self, List.mem_flatMap.mpr ⟨inner, hp, hc⟩⟩)

end Ordered

end Expr

/-! ## Expressions that give their value -/

/-- Only an array element that is no argument is left to be read where it is used. -/
theorem Expr.isIndex_of_isElement : ∀ (e : Expr) {site : Site} {o : Operand} {code : List Instr}
    {c c' : Counters}, (e.lower s site).run c = .done o code c' → o.isElement = true →
      e.isIndex = true ∧ site.isArgument = false
  | .intLit .., _, _, _, _, _, h, ho | .boolLit .., _, _, _, _, _, h, ho
  | .self _, _, _, _, _, _, h, ho | .newObject .., _, _, _, _, _, h, ho => by
    cases h
    cases ho
  | .ident .., _, _, _, _, _, h, ho => by
    rw [lower] at h
    obtain ⟨v, _, _, _, -, h, -⟩ := run_bind_eq_done.mp h
    split at h
    · cases h
      cases ho
    · cases h
      cases ho
  | .binary .., _, _, _, _, _, h, ho | .not .., _, _, _, _, _, h, ho
  | .newArray .., _, _, _, _, _, h, ho => by
    rw [lower] at h
    obtain ⟨_, _, _, _, -, h, -⟩ := run_bind_eq_done.mp h
    cases h
    cases ho
  | .arrayLit .., _, _, _, _, _, h, ho => by
    rw [lower] at h
    obtain ⟨_, _, _, _, -, h, -⟩ := run_bind_eq_done.mp h
    obtain ⟨_, _, _, _, -, h, -⟩ := run_bind_eq_done.mp h
    obtain ⟨_, _, _, _, -, h, -⟩ := run_bind_eq_done.mp h
    obtain ⟨-, rfl, -⟩ := packArray_eq_done h
    cases ho
  | .index .., site, _, _, _, _, h, ho => by
    rw [lower] at h
    obtain ⟨_, _, _, _, -, h, -⟩ := run_bind_eq_done.mp h
    obtain ⟨_, _, _, _, -, h, -⟩ := run_bind_eq_done.mp h
    obtain ⟨_, _, _, _, -, h, -⟩ := run_bind_eq_done.mp h
    split at h
    · cases h
      cases ho
    · next harg => exact ⟨rfl, Bool.eq_false_iff.mpr harg⟩
  | .member .., _, _, _, _, _, h, ho => by
    rw [lower] at h
    split at h
    · cases h
    · obtain ⟨_, _, _, _, -, h, -⟩ := run_bind_eq_done.mp h
      cases h
      cases ho
  | .call receiver method args span, _, _, _, _, _, h, ho => by
    rw [lower] at h
    obtain ⟨r, _, _, _, hcall, h, -⟩ := run_bind_eq_done.mp h
    cases ht : receiver.callTarget s method span with
    | error e =>
      rw [ht] at hcall
      cases hcall
    | ok target =>
      rw [ht] at hcall
      obtain ⟨_, _, _, _, _, _, _, _, _, -, -, -, -, hr⟩ := callCode_eq_done.mp hcall
      split at hr
      · rw [hr.1] at h
        cases h
        cases ho
      · rw [hr.1] at h
        cases h
  | .paren inner _, _, _, _, _, _, h, ho => isIndex_of_isElement inner h ho

/-- From every state in which the expression has a value at a site, its code gives the value. -/
def Expr.Evaluates (w : World) (x : Setting) (s : Scope) (site : Site) (e : Expr) : Prop :=
  ∀ (c : Counters) (t : State) (v : Value) (m : Memory),
    e.eval w x s t.frame site t.memory = some (v, m) →
    (e.lower s site).Runs w x (e.MayWrite w x) c t (Gives m v)

/-- From every state in which the expressions have values, their code gives the values. -/
def Expr.EvaluatesAll (w : World) (x : Setting) (s : Scope) (sites : Nat → Site) (i : Nat)
    (es : List Expr) : Prop :=
  ∀ (c : Counters) (t : State) (vs : List Value) (m : Memory),
    Expr.evalAll w x s t.frame sites i es t.memory = some (vs, m) →
    (Expr.lowerAll s sites i es).Runs w x (Expr.MayWriteAny w x es) c t (GivesAll m vs)

namespace Lower

/-- Both operands of an operator have their values when both were computed. -/
theorem runs_pair {op : BinaryOp} {left right : Expr} {span : Span} {ls rs : Site} {a b : Value}
    {m₁ m : Memory} (hsites : operandSites s op left right = .ok (ls, rs))
    (ho : (Expr.binary op left right span).Ordered w x s) (hl : left.Evaluates w x s ls)
    (hr : right.Evaluates w x s rs) (ha : left.eval w x s t.frame ls t.memory = some (a, m₁))
    (hb : right.eval w x s t.frame rs m₁ = some (b, m)) :
    (pair s op left right (fun site => left.lower s site) fun site => right.lower s site).Runs w x
      ((Expr.binary op left right span).MayWrite w x) c t fun p n t' =>
        t'.memory = m ∧ State.Has n t' p.1 a ∧ State.Has n t' p.2 b := by
  unfold pair
  rw [hsites, ofTyping_ok, pure_bind]
  refine Runs.bind (hl c t a m₁ ha) (.of_part fun n hn => by simp [Expr.nodes, hn]) ?_
  rintro operand code c₁ t₁ hrun hl₁ ⟨rfl, hhas⟩
  refine Runs.bind (runs_settleBefore hhas) nofun ?_
  rintro l code c₂ t₂ - hl₂ ⟨⟨hm, hhas⟩, hwaits⟩
  rw [← hm, ← hl₁.frame, ← hl₂.frame] at hb
  refine Runs.bind (hr c₂ t₂ b m hb) (.of_part fun n hn => by simp [Expr.nodes, hn]) ?_
  rintro r code c₃ t₃ - hl₃ ⟨hm, hright⟩
  refine runs_pure ⟨hm, hhas.later hl₃ fun hwrites => Bool.eq_false_iff.mpr fun hel => ?_, hright⟩
  -- an element waits only in front of an operand without calls
  obtain ⟨hel, hcall⟩ := hwaits hel
  have overtakes : right ∈ (Expr.binary op left right span).overtaking := by
    simp [Expr.overtaking, (left.isIndex_of_isElement hrun hel).1, hcall]
  exact Expr.not_mayWrite hcall (ho.overtaking overtakes) hwrites

end Lower

/-! ## Calls -/

namespace CallTarget

/-- The class that a call on a value is looked up in is that of the value. -/
theorem className_of_callTarget {receiver : Expr} {method : String} {span : Span}
    {target : CallTarget} (h : receiver.callTarget s method span = .ok target)
    (hs : target.isStatic = false) :
    ∃ ty, receiver.infer s .unknown = .ok ty ∧ ty.name = target.className s := by
  obtain ⟨ty, hty, h⟩ := onValue_of_callTarget h hs
  obtain ⟨-, ⟨hn, h⟩ | ⟨-, rfl⟩⟩ := cases_of_onValue h
  · rcases s.cases_of_ownMethod h with ⟨m, -, rfl⟩ | rfl <;> exact ⟨ty, hty, hn⟩
  · exact ⟨ty, hty, rfl⟩

/-- A receiver that names a class is that of a static call. -/
theorem isStatic_of_namesClass {receiver : Expr} {method : String} {span : Span}
    {target : CallTarget} (h : receiver.callTarget s method span = .ok target)
    (hn : receiver.namesClass s = true) : target.isStatic = true := by
  cases hs : target.isStatic with
  | true => rfl
  | false =>
    obtain ⟨ty, hty, -⟩ := onValue_of_callTarget h hs
    obtain ⟨name, nameSpan, herr⟩ := Expr.infer_of_namesClass hn .unknown
    rw [herr] at hty
    cases hty

end CallTarget

/-- Evaluating a passive expression leaves memory as it is. -/
theorem Expr.eval_of_isPassive {f : Source.Frame} : ∀ (e : Expr) {site : Site} {v : Value}
    {m m' : Memory}, e.isPassive = true → e.eval w x s f site m = some (v, m') → m' = m
  | .intLit .., _, _, _, _, _, h | .boolLit .., _, _, _, _, _, h => by
    cases h
    rfl
  | .ident .., _, _, _, _, _, h | .self _, _, _, _, _, _, h => by
    simp only [eval, Option.bind_eq_bind, Option.bind_eq_some_iff] at h
    obtain ⟨_, -, h⟩ := h
    cases h
    rfl
  | .binary _ left right _, _, _, _, _, hp, h => by
    rw [isPassive, Bool.and_eq_true] at hp
    simp only [eval, Option.bind_eq_bind, Option.bind_eq_some_iff] at h
    obtain ⟨_, -, ⟨a, m₁⟩, ha, ⟨b, m₂⟩, hb, _, -, h⟩ := h
    cases h
    exact (eval_of_isPassive right hp.2 hb).trans (eval_of_isPassive left hp.1 ha)
  | .not operand _, _, _, _, _, hp, h => by
    simp only [eval, Option.bind_eq_bind, Option.bind_eq_some_iff] at h
    obtain ⟨⟨a, m₁⟩, ha, _, -, h⟩ := h
    cases h
    exact eval_of_isPassive operand hp ha
  | .index array place _, _, _, _, _, hp, h => by
    rw [isPassive, Bool.and_eq_true] at hp
    simp only [eval, Option.bind_eq_bind, Option.bind_eq_some_iff] at h
    obtain ⟨_, -, ⟨a, m₁⟩, ha, ⟨i, m₂⟩, hi, _, -, h⟩ := h
    cases h
    exact (eval_of_isPassive place hp.2 hi).trans (eval_of_isPassive array hp.1 ha)
  | .member object _ _, _, _, _, _, hp, h => by
    simp only [eval, Option.bind_eq_bind, Option.bind_eq_some_iff] at h
    obtain ⟨⟨a, m₁⟩, ha, h⟩ := h
    split at h
    · obtain ⟨_, -, h⟩ := Option.bind_eq_some_iff.mp h
      cases h
      exact eval_of_isPassive object hp ha
    · cases h
  | .paren inner _, _, _, _, _, hp, h => eval_of_isPassive inner hp h
  | .arrayLit .., _, _, _, _, hp, _ | .newArray .., _, _, _, _, hp, _
  | .newObject .., _, _, _, _, hp, _ | .call .., _, _, _, _, hp, _ => by cases hp

namespace Lower

/-- The operand is what a call on a target is made on: the class that a static call is looked up in,
and for another call an operand of such a class that has the value of the receiver. -/
def Receives (s : Scope) (target : CallTarget) (object : Option Value) (on : Operand) (n : Nat)
    (t : State) : Prop :=
  if target.isStatic then on = .ofClass (target.className s)
  else on.ty.name = target.className s ∧ ∃ v, object = some v ∧ State.Has n t on v

variable {target : CallTarget} {object : Option Value} {on : Operand}

theorem Receives.later {n k : Nat} {t' : State} (h : Receives s target object on n t)
    (hl : State.Later writes n t k t') (hw : writes → on.isElement = false) :
    Receives s target object on k t' := by
  unfold Receives at h ⊢
  split at h
  · next hs =>
    rw [if_pos hs]
    exact h
  · next hs =>
    obtain ⟨hname, v, hv, hhas⟩ := h
    rw [if_neg hs]
    exact ⟨hname, v, hv, hhas.later hl hw⟩

/-- The call is made on the receiver that it is made on in the source. -/
theorem Receives.receiver {n : Nat} {r : Jvm.InvokeKind × String × Option Nat}
    (h : Receives s target object on n t) (hr : Source.receiver x s target object = some r) :
    t.receiver x (callKind target) on = some r := by
  unfold Receives at h
  unfold Source.receiver at hr
  unfold callKind
  split at h
  · next hs =>
    rw [if_pos hs] at hr ⊢
    rw [h]
    exact hr
  · next hs =>
    obtain ⟨hname, v, rfl, hhas⟩ := h
    rw [if_neg hs] at hr ⊢
    simp only [State.receiver, hhas.value, hname]
    exact hr

/-- The receiver of a call that is not static is evaluated, and for a static one nothing is done,
which makes no difference to a name and to a passive receiver. -/
theorem runs_receiver (hva : s.table.VarargsAreArrays) {receiver : Expr} {method : String}
    {args : List Expr} {span : Span} {m : Memory}
    (ht : receiver.callTarget s method span = .ok target)
    (ho : (Expr.call receiver method args span).Ordered w x s)
    (hreceiver : ∀ ty, receiver.infer s .unknown = .ok ty → receiver.Evaluates w x s .unknown)
    (h : (if receiver.namesClass s then some (none, t.memory) else
      (receiver.eval w x s t.frame .unknown t.memory).map fun (v, m) => (some v, m)) =
        some (object, m)) :
    (Lower.receiver s target (receiver.lower s .unknown)).Runs w x True c t fun on n t' =>
      t'.memory = m ∧ Receives s target object on n t' ∧
        (Expr.MayWriteAny w x args → on.isElement = false) := by
  have horder := ho.calls.self
  simp only [Expr.readsInOrder, ht] at horder
  cases hs : target.isStatic with
  | true =>
    have hm : t.memory = m := by
      rw [hs, if_pos rfl] at horder
      split at h
      · cases h
        rfl
      · next hname =>
        obtain ⟨⟨v, m'⟩, hv, h⟩ := Option.map_eq_some_iff.mp h
        cases h
        rw [Bool.eq_false_iff.mpr hname, Bool.false_or] at horder
        exact (receiver.eval_of_isPassive horder hv).symm
    have hclass : Lower.receiver s target (receiver.lower s .unknown) =
        pure (.ofClass (target.className s)) := by
      cases target with
      | declared m => exact if_pos hs
      | importedStatic name => rfl
      | inherited => cases hs
      | importedVirtual ty => cases hs
    rw [hclass]
    refine runs_pure ⟨hm, ?_, fun _ => rfl⟩
    unfold Receives
    rw [if_pos hs]
  | false =>
    rw [hs, if_neg Bool.false_ne_true] at horder
    have hname : receiver.namesClass s = false := by
      cases hn : receiver.namesClass s with
      | false => rfl
      | true => rw [CallTarget.isStatic_of_namesClass ht hn] at hs; cases hs
    rw [hname, if_neg Bool.false_ne_true] at h
    obtain ⟨⟨v, m'⟩, hv, h⟩ := Option.map_eq_some_iff.mp h
    cases h
    obtain ⟨ty, hty, hclass⟩ := CallTarget.className_of_callTarget ht hs
    rw [receiver_of_not_isStatic hs]
    intro on code c' hrun
    obtain ⟨t', hrun', hl, hm, hhas⟩ := hreceiver ty hty c t v m hv on code c' hrun
    refine ⟨t', hrun', hl.mono fun _ => trivial, hm, ?_, fun hwrites => Bool.eq_false_iff.mpr fun hel => ?_⟩
    · unfold Receives
      rw [hs, if_neg Bool.false_ne_true, Expr.ty_of_lower hva (.inl rfl) hty hrun]
      exact ⟨hclass, v, rfl, hhas⟩
    · have hindex := (receiver.isIndex_of_isElement hrun hel).1
      rw [hindex, Bool.true_and, Bool.not_eq_true'] at horder
      have overtakes : ∀ e ∈ args, e ∈ (Expr.call receiver method args span).overtaking := by
        intro e he
        simpa [Expr.overtaking, hindex] using he
      exact Expr.not_mayWriteAny horder (fun e he => ho.overtaking (overtakes e he)) hwrites

/-- A call is made with the receiver and the arguments that it is made with in the source, and its
result, if the site keeps it, is that of the source. -/
theorem runs_callCode (hva : s.table.VarargsAreArrays) {site : Site} {receiver : Expr}
    {method : String} {args : List Expr} {span : Span} {tys : List Ty} {result : Option Value}
    {m : Memory} (ht : receiver.callTarget s method span = .ok target)
    (htys : Expr.inferArgs s target.argumentSite 0 args = .ok tys)
    (ho : (Expr.call receiver method args span).Ordered w x s)
    (hreceiver : ∀ ty, receiver.infer s .unknown = .ok ty → receiver.Evaluates w x s .unknown)
    (hargs : Expr.EvaluatesAll w x s target.argumentSite 0 args)
    (hresult : site.consumesValue = true → ∀ v, result = some v →
      (target.resultType site).admits v = true)
    (h : Source.call w x s site receiver method args span (receiver.eval w x s t.frame .unknown)
      (fun sites => Expr.evalAll w x s t.frame sites 0 args) t.memory = some (result, m)) :
    (callCode s site method (receiver.callTarget s method span) (receiver.lower s .unknown)
      fun sites => Expr.lowerAll s sites 0 args).Runs w x True c t fun r n t' =>
        t'.memory = m ∧ ∀ o, r = some o → ∃ v, result = some v ∧ State.Has n t' o v := by
  intro r code c' hrun
  rw [ht] at hrun
  obtain ⟨on, code₁, c₁, values, code₂, c₂, passed, code₃, c₃, hon, hvalues, hpassed, rfl, hr⟩ :=
    callCode_eq_done.mp hrun
  obtain ⟨object, m₁, vs, m₂, us, m₃, invoke, owner, this, descriptor, hobject, hvs, hus, hthis,
    hdescriptor, hinvoke, hvoid⟩ := Source.call_eq_some w x s ht htys h
  -- the parts are run one after the other, and what they leave is kept by those that follow
  obtain ⟨t₁, hrun₁, hl₁, rfl, hreceives, hsettled⟩ :=
    runs_receiver hva ht ho hreceiver hobject on code₁ c₁ hon
  rw [← hl₁.frame] at hvs
  obtain ⟨t₂, hrun₂, hl₂, rfl, hall⟩ := hargs c₁ t₁ vs m₂ hvs values code₂ c₂ hvalues
  rw [← Expr.types_of_lowerAll hva target.consumesValue_argumentSite htys hvalues] at hus hdescriptor
  obtain ⟨t₃, hrun₃, hl₃, rfl, hpass⟩ := runs_pass hall hus passed code₃ c₃ hpassed
  rw [← types_of_pass hpassed] at hdescriptor
  have hmade : t₃.receiver x (callKind target) on = some (invoke, owner, this) :=
    ((hreceives.later hl₂ hsettled).later hl₃ nofun).receiver hthis
  have hact (t' : State) (hfinish : State.finish { t₃ with memory := m } r (target.resultType site)
      result = some t') : (Instr.call r (callKind target) on method passed
        (target.resultType site)).act w x t₃ = some (.next t') := by
    simp only [Instr.act, State.call, hmade, hpass.evalAll, hdescriptor, hinvoke, hfinish,
      Option.bind_eq_bind, Option.bind_some, Option.pure_def]
  have hlater : State.Later True c.temps t c₃.temps t₃ := (hl₁.trans (hl₂.trans hl₃)).mono fun _ => trivial
  suffices hcall : ∃ t', State.finish { t₃ with memory := m } r (target.resultType site) result =
      some t' ∧ State.Later True c₃.temps t₃ c'.temps t' ∧ t'.memory = m ∧
        ∀ o, r = some o → ∃ v, result = some v ∧ State.Has c'.temps t' o v by
    obtain ⟨t', hfinish, hl, hm, hr⟩ := hcall
    refine ⟨t', ?_, (hlater.trans hl).mono fun _ => trivial, hm, hr⟩
    rw [Machine.runAll_append hrun₁, Machine.runAll_append hrun₂, Machine.runAll_append hrun₃,
      Machine.runAll_cons (hact t' hfinish)]
    rfl
  split at hr
  · next hkeep =>
    obtain ⟨rfl, rfl⟩ := hr
    rw [Bool.and_eq_true, Bool.not_eq_true'] at hkeep
    obtain ⟨v, rfl⟩ : ∃ v, result = some v :=
      Option.isSome_iff_exists.mp (by rw [hvoid, hkeep.2]; rfl)
    have hadmits := hresult hkeep.1 v rfl
    refine ⟨t₃.fill c₃.temps v m, ?_, State.later_fill c₃.temps t₃ v fun h => (h trivial).elim, rfl,
      fun o ho => ?_⟩
    · rw [State.finish, hkeep.2, if_neg Bool.false_ne_true]
      exact State.write_temp hadmits
    · cases ho
      exact ⟨v, rfl, State.has_fill hadmits⟩
  · obtain ⟨rfl, rfl⟩ := hr
    exact ⟨{ t₃ with memory := m }, if_pos hvoid, State.later_memory _ t₃ fun h => (h trivial).elim, rfl,
      fun o ho => by cases ho⟩

end Lower

/-! ## All expressions -/

namespace Expr

/-- An array is not an element. -/
theorem isIndex_eq_false_of_isArray {e : Expr} {site : Site} {ty : Ty} (h : e.infer s site = .ok ty)
    (ha : ty.isArray = true) : e.isIndex = false := by
  unfold isIndex
  split
  · next array place span he =>
    rw [← infer_unparenthesized, he] at h
    obtain ⟨a, i, -, hel, -, -⟩ := parts_index h
    obtain ⟨-, rfl⟩ := Ty.element?_eq_some.mp hel
    cases ha
  · rfl

/-! ### One form at a time

Each form gives its value where its parts give theirs. -/

theorem evaluates_binary {op : BinaryOp} {left right : Expr} {span : Span} {site ls rs : Site}
    (hsites : operandSites s op left right = .ok (ls, rs))
    (ho : (Expr.binary op left right span).Ordered w x s) (hleft : left.Evaluates w x s ls)
    (hright : right.Evaluates w x s rs) : (Expr.binary op left right span).Evaluates w x s site := by
  intro c t v m h
  simp only [eval, hsites, Except.toOption, Option.bind_eq_bind, Option.bind_some,
    Option.bind_eq_some_iff] at h
  obtain ⟨⟨a, m₁⟩, ha, ⟨b, m₂⟩, hb, u, hu, h⟩ := h
  cases h
  refine Runs.bind (runs_pair hsites ho hleft hright ha hb) id ?_
  rintro ⟨l, r⟩ code c₁ t₁ - - ⟨rfl, hl, hr⟩
  have hact (dest : Operand) (t' : State) (hwrite : t₁.write dest v = some t') :
      (Instr.binary dest op l r).act w x t₁ = some (.next t') := by
    simp only [Instr.act, hl.value, hr.value, hu, hwrite, Option.bind_eq_bind, Option.bind_some,
      Option.pure_def]
  exact runs_fresh (BinaryOp.admits_of_apply hu) hact (.refl _)

theorem evaluates_not {operand : Expr} {span : Span} {site : Site}
    (hoperand : operand.Evaluates w x s (.wanting Ty.boolean)) :
    (Expr.not operand span).Evaluates w x s site := by
  intro c t v m h
  simp only [eval, Option.bind_eq_bind, Option.bind_eq_some_iff] at h
  obtain ⟨⟨a, m₁⟩, ha, b, hb, h⟩ := h
  cases h
  refine Runs.bind (hoperand c t a m₁ ha) (.of_part fun n hn => by simp [nodes, hn]) ?_
  rintro o code c₁ t₁ - - ⟨rfl, ho⟩
  have hact (dest : Operand) (t' : State) (hwrite : t₁.write dest (.ofBool (!b)) = some t') :
      (Instr.not dest o).act w x t₁ = some (.next t') := by
    simp only [Instr.act, ho.value, hb, hwrite, Option.bind_eq_bind, Option.bind_some,
      Option.pure_def]
  exact runs_fresh (Ty.admits_ofBool _) hact (.refl _)

theorem evaluates_arrayLit {elements : List Expr} {span : Span} {site : Site} {ty : Ty}
    (hty : (Expr.arrayLit elements span).infer s site = .ok ty)
    (helements : EvaluatesAll w x s (fun _ => .wanting (Ty.scalar ty.name)) 0 elements) :
    (Expr.arrayLit elements span).Evaluates w x s site := by
  intro c t v m h
  simp only [eval, hty, Except.toOption, Option.bind_eq_bind, Option.bind_some,
    Option.bind_eq_some_iff] at h
  obtain ⟨⟨vs, m₁⟩, hvs, h⟩ := h
  rw [lower, hty, ofTyping_ok, Lower.pure_bind]
  unfold elementOf
  cases hel : ty.element? with
  | none => exact runs_fail _
  | some element =>
    obtain ⟨-, rfl⟩ := Ty.element?_eq_some.mp hel
    rw [ofOption_some, Lower.pure_bind]
    refine Runs.bind (helements c t vs m₁ hvs) ?_ ?_
    · rintro ⟨e, he, hw⟩
      exact hw.of_part fun n hn => by simp [nodes, mem_nodesAll he hn]
    · rintro os code c₁ t₁ - - ⟨rfl, hos⟩
      exact Runs.quiet (runs_packArray hos h)

/-- The array is settled, as no array is an element, so the index may call. -/
theorem evaluates_index (hva : s.table.VarargsAreArrays) {array place : Expr} {span : Span}
    {site : Site} {ty element : Ty} (hty : array.infer s .unknown = .ok ty)
    (hel : ty.element? = some element) (harray : array.Evaluates w x s .unknown)
    (hplace : place.Evaluates w x s (.wanting Ty.int)) :
    (Expr.index array place span).Evaluates w x s site := by
  intro c t v m h
  simp only [eval, hty, Except.toOption, Option.bind_eq_bind, Option.bind_some,
    Option.bind_eq_some_iff] at h
  obtain ⟨⟨a, m₁⟩, ha, ⟨i, m₂⟩, hi, u, hu, h⟩ := h
  cases h
  refine Runs.bind (harray c t a m₁ ha) (.of_part fun n hn => by simp [nodes, hn]) ?_
  rintro o code c₁ t₁ hrun hl₁ ⟨rfl, ho⟩
  rw [← hl₁.frame] at hi
  refine Runs.bind (hplace c₁ t₁ i m₂ hi) (.of_part fun n hn => by simp [nodes, hn]) ?_
  rintro p code c₂ t₂ - hl₂ ⟨rfl, hp⟩
  rw [← ty_of_lower hva (.inl rfl) hty hrun] at hu
  have hsettled : o.isElement = false := by
    cases hoe : o.isElement with
    | false => rfl
    | true =>
      have hindex := (array.isIndex_of_isElement hrun hoe).1
      rw [isIndex_eq_false_of_isArray hty (Ty.element?_eq_some.mp hel).1] at hindex
      cases hindex
  exact (runs_elementAt (ho.later hl₂ fun _ => hsettled) hp hu).quiet

theorem evaluates_newArray {element : TypeRef} {length : Expr} {span : Span} {site : Site}
    (hlength : length.Evaluates w x s (.wanting Ty.int)) :
    (Expr.newArray element length span).Evaluates w x s site := by
  intro c t v m h
  simp only [eval, Option.bind_eq_bind, Option.bind_eq_some_iff] at h
  obtain ⟨⟨n, m₁⟩, hn, ⟨a, heap⟩, halloc, h⟩ := h
  cases h
  refine Runs.bind (hlength c t n m₁ hn) (.of_part fun n hn => by simp [nodes, hn]) ?_
  rintro o code c₁ t₁ - - ⟨rfl, ho⟩
  obtain ⟨-, hkeeps⟩ := Heap.keeps_newArray halloc
  have halloc : t₁.memory.heap.newArray (elementKind element.ty.plain.name)
    (x.elementName element.ty.plain.name) n = some (a, heap) := halloc
  have hact (dest : Operand) (t' : State)
      (hwrite : (t₁.setHeap heap).write dest (.ref (some a)) = some t') :
      (Instr.newArray dest o element.ty.plain).act w x t₁ = some (.next t') := by
    simp only [Instr.act, ho.value, halloc, hwrite, Option.bind_eq_bind, Option.bind_some,
      Option.pure_def]
  exact runs_fresh rfl hact hkeeps

theorem evaluates_length {object : Expr} {span : Span} {site : Site}
    (hobject : object.Evaluates w x s (.wanting Ty.intArray)) :
    (Expr.member object "length" span).Evaluates w x s site := by
  intro c t v m h
  simp only [eval, if_true, Option.bind_eq_bind, Option.bind_eq_some_iff] at h
  obtain ⟨⟨a, m₁⟩, ha, u, hu, h⟩ := h
  cases h
  rw [lower, if_neg (by simp)]
  refine Runs.bind (hobject c t a m₁ ha) (.of_part fun n hn => by simp [nodes, hn]) ?_
  rintro o code c₁ t₁ - - ⟨rfl, ho⟩
  have hadmits : Ty.int.admits v = true := by
    simp only [Heap.arrayLength, Option.bind_eq_bind, Option.bind_eq_some_iff] at hu
    obtain ⟨_, -, hu⟩ := hu
    cases hu
    rfl
  have hact (dest : Operand) (t' : State) (hwrite : t₁.write dest v = some t') :
      (Instr.arrayLength dest o).act w x t₁ = some (.next t') := by
    simp only [Instr.act, ho.value, hu, hwrite, Option.bind_eq_bind, Option.bind_some,
      Option.pure_def]
  exact runs_fresh hadmits hact (.refl _)

/-- A call whose value is used gives one, of the type that is inferred for the call. -/
theorem evaluates_call (hva : s.table.VarargsAreArrays) {receiver : Expr} {method : String}
    {args : List Expr} {span : Span} {site : Site} {ty : Ty} {target : CallTarget} {tys : List Ty}
    (hty : (Expr.call receiver method args span).infer s site = .ok ty)
    (ht : receiver.callTarget s method span = .ok target)
    (htys : inferArgs s target.argumentSite 0 args = .ok tys)
    (hv : target.valueType site method span = .ok ty)
    (ho : (Expr.call receiver method args span).Ordered w x s)
    (hreceiver : ∀ ty, receiver.infer s .unknown = .ok ty → receiver.Evaluates w x s .unknown)
    (hargs : EvaluatesAll w x s target.argumentSite 0 args) :
    (Expr.call receiver method args span).Evaluates w x s site := by
  intro c t v m h
  simp only [eval, hty, Except.toOption, Option.bind_eq_bind, Option.bind_some,
    Option.bind_eq_some_iff] at h
  obtain ⟨⟨result, m₁⟩, hcall, u, hu, h⟩ := h
  cases h
  obtain ⟨rfl, hadmits⟩ := Option.filter_eq_some_iff.mp hu
  have hresult : (target.resultType site).admits v = true := by
    rw [(CallTarget.resultType_of_valueType hv).1]
    exact hadmits
  refine Runs.bind (runs_callCode hva ht htys ho hreceiver hargs (fun _ _ h => ?_) hcall)
    (fun _ => ⟨_, mem_nodes_self _, trivial⟩) ?_
  · cases h
    exact hresult
  · rintro r code c₁ t₁ - - ⟨rfl, hr⟩
    cases r with
    | none => exact runs_fail _
    | some o =>
      obtain ⟨_, h, ho⟩ := hr o rfl
      cases h
      exact runs_pure ⟨rfl, ho⟩

/-- Behind an argument anything may stand, and behind an element of a literal that is an array access
nothing that writes arrays. -/
theorem evaluatesAll_cons {e : Expr} {es : List Expr} {sites : Nat → Site} {i : Nat}
    (hel : (∀ j, (sites j).isArgument = true) ∨ (e.isIndex = true → ¬ MayWriteAny w x es))
    (hfirst : e.Evaluates w x s (sites i)) (hrest : EvaluatesAll w x s sites (i + 1) es) :
    EvaluatesAll w x s sites i (e :: es) := by
  intro c t vs m h
  simp only [evalAll, Option.bind_eq_bind, Option.bind_eq_some_iff] at h
  obtain ⟨⟨v, m₁⟩, hv, ⟨us, m₂⟩, hus, h⟩ := h
  cases h
  refine Runs.bind (hfirst c t v m₁ hv) (fun h => ⟨e, List.mem_cons_self, h⟩) ?_
  rintro o code c₁ t₁ hrun hl₁ ⟨rfl, ho⟩
  rw [← hl₁.frame] at hus
  refine Runs.bind (hrest c₁ t₁ us m₂ hus)
    (fun ⟨e', he', h⟩ => ⟨e', List.mem_cons_of_mem _ he', h⟩) ?_
  rintro os code c₂ t₂ - hl₂ ⟨rfl, hos⟩
  refine runs_pure ⟨rfl, .cons (ho.later hl₂ fun hwrites => Bool.eq_false_iff.mpr fun hoe => ?_) hos⟩
  obtain ⟨hindex, harg⟩ := e.isIndex_of_isElement hrun hoe
  rcases hel with hel | hel
  · rw [hel i] at harg
    cases harg
  · exact hel hindex hwrites

/-- The elements of a literal are in order: no call stands behind one that is an array access, and the
constructors behind it leave the arrays as they are. -/
def ElementsOrdered (w : World) (x : Setting) (es : List Expr) : Prop :=
  elementsInOrder es = true ∧
    ∀ e ∈ behindElement es, ∀ className ∈ e.news, w.ConstructorKeepsArrays (x.names.qualify className)

/-- Behind an element that is an array access nothing writes arrays. -/
theorem ElementsOrdered.head {e : Expr} {es : List Expr} (h : ElementsOrdered w x (e :: es))
    (hindex : e.isIndex = true) : ¬ MayWriteAny w x es := by
  obtain ⟨hcalls, hnews⟩ := h
  rw [elementsInOrder, hindex, Bool.true_and, Bool.and_eq_true, Bool.not_eq_true'] at hcalls
  rw [behindElement, if_pos hindex] at hnews
  exact not_mayWriteAny hcalls.1 hnews

theorem ElementsOrdered.tail {e : Expr} {es : List Expr} (h : ElementsOrdered w x (e :: es)) :
    ElementsOrdered w x es :=
  ⟨(Bool.and_eq_true_iff.mp h.1).2, fun e' he' => h.2 e' (behindElement_subset_cons e es he')⟩

/-! ### Every expression -/

mutual
/-- **The code of an accepted expression gives its value**, if the expression is in order. -/
theorem lower_evaluates (hva : s.table.VarargsAreArrays) :
    ∀ (e : Expr) {site : Site} {ty : Ty}, (site.consumesValue = true ∨ e.isCall = false) →
      e.infer s site = .ok ty → e.Ordered w x s → e.Evaluates w x s site
  | .intLit .., _, _, _, _, _ => by
    intro c t v m h
    cases h
    exact runs_pure ⟨rfl, trivial, rfl⟩
  | .boolLit b _, _, _, _, _, _ => by
    intro c t v m h
    cases h
    exact runs_pure ⟨rfl, trivial, Option.filter_eq_some_iff.mpr ⟨rfl, Ty.admits_ofBool b⟩⟩
  | .ident name _, _, _, _, _, _ => by
    intro c t v m h
    simp only [eval, Option.bind_eq_bind, Option.bind_eq_some_iff] at h
    obtain ⟨u, hu, h⟩ := h
    cases h
    exact (runs_readVariable hu).quiet
  | .self _, _, _, _, _, _ => by
    intro c t v m h
    simp only [eval, Option.bind_eq_bind, Option.bind_eq_some_iff] at h
    obtain ⟨u, hu, h⟩ := h
    cases h
    exact runs_pure ⟨rfl, trivial, hu⟩
  | .binary op left right _, _, _, _, hty, ho => by
    obtain ⟨ls, rs, l, r, hsites, hl, hr⟩ := infer_operands hty
    obtain ⟨hls, hrs⟩ := consumesValue_of_operandSites hsites
    exact evaluates_binary hsites ho
      (lower_evaluates hva left (.inl hls) hl (ho.part fun n hn => by simp [nodes, hn]))
      (lower_evaluates hva right (.inl hrs) hr (ho.part fun n hn => by simp [nodes, hn]))
  | .not operand _, _, _, _, hty, ho => by
    obtain ⟨-, ty, hty, -⟩ := parts_not hty
    exact evaluates_not (lower_evaluates hva operand (.inl rfl) hty
      (ho.part fun n hn => by simp [nodes, hn]))
  | .arrayLit elements span, site, ty, _, hty, ho => by
    obtain ⟨tys, htys⟩ := infer_elements hty
    exact evaluates_arrayLit hty (lowerAll_evaluates hva elements (fun _ => rfl) htys
      (fun e he => ho.part fun n hn => by simp [nodes, mem_nodesAll he hn])
      (.inr ⟨ho.calls.self, fun _ => ho.overtaking⟩))
  | .index array place _, site, _, _, hty, ho => by
    obtain ⟨a, i, ha, hel, hi, -⟩ := parts_index hty
    exact evaluates_index hva ha hel
      (lower_evaluates hva array (.inl rfl) ha (ho.part fun n hn => by simp [nodes, hn]))
      (lower_evaluates hva place (.inl rfl) hi (ho.part fun n hn => by simp [nodes, hn]))
  | .newArray element length _, _, _, _, hty, ho =>
    evaluates_newArray (lower_evaluates hva length (.inl rfl)
      (infer_of_isIntLiteral (parts_newArray hty).1 _) (ho.part fun n hn => by simp [nodes, hn]))
  | .newObject className _, _, _, _, _, _ => fun _ _ _ _ h =>
    (runs_allocate h).mono (fun hw => ⟨_, mem_nodes_self _, hw⟩) fun _ _ _ h => h
  | .member object property _, _, _, _, hty, ho => by
    obtain ⟨rfl, -, a, ha, -⟩ := parts_member hty
    exact evaluates_length (lower_evaluates hva object (.inl rfl) ha
      (ho.part fun n hn => by simp [nodes, hn]))
  | .call receiver method args span, site, ty, _, hty, ho => by
    obtain ⟨target, tys, ht, -, htys, -, hv⟩ := parts_call hty
    exact evaluates_call hva hty ht htys hv ho
      (fun _ hty => lower_evaluates hva receiver (.inl rfl) hty
        (ho.part fun n hn => by simp [nodes, hn]))
      (lowerAll_evaluates hva args target.consumesValue_argumentSite htys
        (fun e he => ho.part fun n hn => by simp [nodes, mem_nodesAll he hn])
        (.inl fun j => by cases target <;> rfl))
  | .paren inner _, _, _, hc, hty, ho => by
    rw [infer] at hty
    have hinner := lower_evaluates hva inner hc hty (ho.part fun n hn => by simp [nodes, hn])
    exact fun c t v m h => (hinner c t v m h).mono (.of_part fun n hn => by simp [nodes, hn])
      fun _ _ _ h => h
/-- So does that of several expressions, if they are arguments or in order. -/
theorem lowerAll_evaluates (hva : s.table.VarargsAreArrays) :
    ∀ (es : List Expr) {sites : Nat → Site} {i : Nat} {tys : List Ty},
      (∀ j, (sites j).consumesValue = true) → inferArgs s sites i es = .ok tys →
      (∀ e ∈ es, e.Ordered w x s) →
      ((∀ j, (sites j).isArgument = true) ∨ ElementsOrdered w x es) →
      EvaluatesAll w x s sites i es
  | [], _, _, _, _, _, _, _ => by
    intro c t vs m h
    cases h
    exact runs_pure ⟨rfl, .nil⟩
  | e :: es, sites, i, _, hs, htys, ho, hel => by
    obtain ⟨ty, tys, hty, htys, -⟩ := parts_args htys
    exact evaluatesAll_cons (hel.imp_right fun h => h.head)
      (lower_evaluates hva e (.inl (hs i)) hty (ho e List.mem_cons_self))
      (lowerAll_evaluates hva es hs htys (fun e he => ho e (List.mem_cons_of_mem _ he))
        (hel.imp_right fun h => h.tail))
end

end Expr

end JavaMinus
