import JavaMinus.Proofs.Lowering.Evaluates
import JavaMinus.Proofs.Lowering.Labels

/-!
# The code of a statement does what the statement does

Wherever the code of a statement stands in the code of a machine, running it from a state that holds
the source's state comes to one that holds the source's state behind the statement, in front of the
next instruction, or returns what the statement returns (`Lower.Does`). Temporaries are not part of
what is held: no statement reads one that another has drawn.

The code of a statement that contains no other is straight, up to the return at its end. A branch and
a loop jump, so for them every label has to stand in one place (`Tac.Placed`). A loop is followed
round by round: each round starts in front of its label, with the state that the round before left.
-/

namespace JavaMinus

open Tac Lower
open JavaMinus.Runtime
open Jvm (SlotKey elementKind)

variable {w : World} {x : Setting} {s : Scope} {M : Machine Instr State} {c : Counters} {t t' : State}

/-- What the code of a statement with an outcome does, and the state it leaves. -/
def Source.Outcome.action {σ : Type} (state : σ) : Source.Outcome → Action σ
  | .normal => .next state
  | .returned v => .ret v state

namespace Tac

/-- A state with the frame of another one and other memory. -/
theorem State.source_eq {memory : Memory} (hf : t'.frame = t.frame) (hm : t'.memory = memory) :
    t'.source = { t.source with memory } := by
  rw [source, hf, hm]
  rfl

/-- A variable is assigned. -/
theorem State.source_write_var (t : State) (name : String) {ty : Ty} {v : Value}
    (h : ty.admits v = true) :
    ∃ t', t.write (.var name ty) v = some t' ∧
      t'.source = { t.source with vars := Function.update t.source.vars name (some v) } := by
  refine ⟨{ t with vars := Function.update t.vars (.var name) (some v) }, ?_, ?_⟩
  · simp only [write, Jvm.slotKey?, Operand.ty, h, if_true, Option.bind_eq_bind, Option.bind_some]
  · have hvars : (fun other => Function.update t.vars (.var name) (some v) (.var other)) =
        Function.update (fun other => t.vars (.var other)) name (some v) :=
      Function.update_comp_eq_of_injective t.vars (fun _ _ h => SlotKey.var.inj h) name (some v)
    simp only [source, frame, hvars]

end Tac

namespace Lower

/-- Wherever in the code of the machine the computation's code stands, it does what is done in the
source. -/
def Does (M : Machine Instr State) (y : Lower Unit)
    (run : Source.State → Option (Source.Outcome × Source.State)) : Prop :=
  ∀ (c c' : Counters) (before code : List Instr) (t : State) (o : Source.Outcome)
    (σ : Source.State), y.run c = .done () code c' → before ++ code <+: M.code →
    run t.source = some (o, σ) →
    ∃ t', t'.source = σ ∧ M.Does (before.length, t) (before ++ code).length (o.action t')

/-- Wherever in the code of the machine the computation's code stands, it jumps to the target if the
test holds in the source. -/
def Tests (M : Machine Instr State) (y : String → Lower Unit)
    (test : Source.State → Option (Bool × Source.State)) : Prop :=
  ∀ (target : String) (c c' : Counters) (before code : List Instr) (t : State) (holds : Bool)
    (σ : Source.State), (y target).run c = .done () code c' → before ++ code <+: M.code →
    test t.source = some (holds, σ) →
    ∃ t', t'.source = σ ∧ M.Does (before.length, t) (before ++ code).length
      (if holds then .jump target t' else .next t')

/-! ## Statements without statements in them -/

/-- The code of an expression that has a value in the state of the source. -/
theorem runs_eval (hva : s.table.VarargsAreArrays) {e : Expr}
    {site : Site} {ty : Ty} (hs : site.consumesValue = true ∨ e.isCall = false)
    (hty : e.infer s site = .ok ty) (ho : e.Ordered w x s) {v : Value} {σ σ' : Source.State}
    (h : σ.eval w x s site e = some (v, σ')) :
    ∃ m, σ' = { σ with memory := m } ∧ ∀ (c : Counters) (t : State), t.source = σ →
      (e.lower s site).Runs w x (e.MayWrite w x) c t (Gives m v) := by
  simp only [Source.State.eval, Option.bind_eq_bind, Option.bind_eq_some_iff] at h
  obtain ⟨⟨u, m⟩, hu, h⟩ := h
  cases h
  refine ⟨m, rfl, fun c t ht => ?_⟩
  subst ht
  exact e.lower_evaluates hva hs hty ho c t _ m hu

section Simple
variable (hM : M.act = Instr.act w x)
include hM

/-- Straight code comes to its end. -/
theorem steps_of_runs {α : Type} {writes : Prop} {y : Lower α} {Q : α → Nat → State → Prop}
    (h : y.Runs w x writes c t Q) {a : α} {c' : Counters} {before code : List Instr}
    (hrun : y.run c = .done a code c') (hcode : before ++ code <+: M.code) :
    ∃ t', t'.frame = t.frame ∧ Q a c'.temps t' ∧
      M.Steps (before.length, t) ((before ++ code).length, t') := by
  obtain ⟨after, hcode⟩ := hcode
  obtain ⟨t', hrun', hl, hQ⟩ := h a code c' hrun
  rw [← hM] at hrun'
  refine ⟨t', hl.frame, hQ, ?_⟩
  rw [List.length_append]
  exact Machine.steps_of_runAll hcode.symm hrun'

/-- Behind straight code an instruction does what it does. -/
theorem does_of_runs {α : Type} {writes : Prop} {y : Lower α} {Q : α → Nat → State → Prop}
    {i : α → Instr} (h : y.Runs w x writes c t Q) {c' : Counters} {before code : List Instr}
    (hrun : (y >>= fun a => emit (i a)).run c = .done () code c')
    (hcode : before ++ code <+: M.code) :
    ∃ a n t', t'.frame = t.frame ∧ Q a n t' ∧ ∀ action, (i a).act w x t' = some action →
      M.Does (before.length, t) (before ++ code).length action := by
  obtain ⟨after, hcode⟩ := hcode
  obtain ⟨a, code₁, c₁, code₂, h₁, h₂, rfl⟩ := run_bind_eq_done.mp hrun
  obtain ⟨t', hrun', hl, hQ⟩ := h a code₁ c₁ h₁
  cases h₂
  refine ⟨a, _, t', hl.frame, hQ, fun action hact => ?_⟩
  rw [← hM] at hrun' hact
  rw [List.length_append]
  exact Machine.does_of_runAll hcode.symm hrun' hact

/-- An assignment. -/
theorem does_assign (hva : s.table.VarargsAreArrays) {name : String}
    {value : Expr} {span : Span} (hc : s.checkAssign name value span = []) (ho : value.Ordered w x s) :
    (assign s name value).Does M fun σ => do return (.normal, ← σ.assign w x s name value) := by
  intro c c' before code t o σ hrun hcode h
  obtain ⟨_, htarget, hc⟩ := Scope.orReport_eq_nil.mp hc
  obtain ⟨v, hv, -, rfl⟩ := Scope.targetType_eq_ok htarget
  obtain ⟨ty, hty, -⟩ := Scope.checkStored_eq_nil hc
  simp only [Source.State.assign, hv, Option.bind_eq_bind, Option.bind_some,
    Option.bind_eq_some_iff] at h
  obtain ⟨_, ⟨⟨u, σ₁⟩, hu, h⟩, hσ⟩ := h
  cases hσ
  obtain ⟨m, rfl, hvalue⟩ := runs_eval hva (.inl rfl) hty ho hu
  unfold assign target at hrun
  rw [hv, ofOption_some, pure_bind] at hrun
  split at h
  · next hfield =>
    rw [hfield] at hrun
    simp only [if_true] at hrun
    obtain ⟨operand, n, t₁, hframe, ⟨hm, hoperand⟩, hdoes⟩ := does_of_runs hM (hvalue c t rfl) hrun hcode
    simp only [Option.bind_eq_some_iff] at h
    obtain ⟨key, hkey, this, hthis, heap, hheap, h⟩ := h
    cases h
    refine ⟨t₁.setHeap heap, ?_, hdoes _ ?_⟩
    · exact State.source_eq hframe (by rw [← hm]; rfl)
    · have hkey : State.fieldKey x (self s) name v.ty = some key := hkey
      have hthis : t₁.eval (self s) = some this := by
        rw [← hthis]
        show t₁.frame.this s = t.frame.this s
        rw [hframe]
      have hheap : t₁.memory.heap.putField this key u = some heap := by
        rw [hm]
        exact hheap
      simp only [Instr.act, hkey, hthis, hoperand.value, hheap, Option.bind_eq_bind, Option.bind_some,
        Option.pure_def]
      rfl
  · next hfield =>
    rw [Bool.eq_false_iff.mpr hfield] at hrun
    simp only [Bool.false_eq_true, if_false] at hrun
    obtain ⟨operand, n, t₁, hframe, ⟨hm, hoperand⟩, hdoes⟩ := does_of_runs hM (hvalue c t rfl) hrun hcode
    split at h
    · next hadmits =>
      cases h
      obtain ⟨t', hwrite, hsource⟩ := t₁.source_write_var name hadmits
      refine ⟨t', ?_, hdoes _ ?_⟩
      · rw [hsource, State.source_eq hframe hm]
      · simp only [Instr.act, hoperand.value, hwrite, Option.bind_eq_bind, Option.bind_some,
          Option.pure_def]
        rfl
    · cases h

/-- An assignment to an array element. -/
theorem does_assignElement (hva : s.table.VarargsAreArrays)
    {name : String} {index value : Expr} {span : Span}
    (hc : s.checkAssignElement name index value span = []) (hi : index.Ordered w x s)
    (hu : value.Ordered w x s) (ho : index.isIndex = true → ¬ value.MayWrite w x) :
    (assignElement s name index value).Does M fun σ => do
      return (.normal, ← σ.assignElement w x s name index value) := by
  intro c c' before code t o σ hrun hcode h
  obtain ⟨v, element, ty, hv, -, hel, hindex, hvalue, -⟩ := Scope.checkAssignElement_eq_nil hc
  simp only [Source.State.assignElement, hv, Option.bind_eq_bind, Option.bind_some,
    Option.bind_eq_some_iff] at h
  obtain ⟨_, ⟨a, ha, ⟨i, σ₁⟩, hieval, ⟨u, σ₂⟩, hueval, heap, hheap, h⟩, hσ⟩ := h
  cases h
  cases hσ
  obtain ⟨-, rfl⟩ := Ty.element?_eq_some.mp hel
  obtain ⟨m₁, rfl, hindexRuns⟩ := runs_eval hva (.inl rfl) hindex hi hieval
  obtain ⟨m₂, rfl, hvalueRuns⟩ := runs_eval hva (.inl rfl) hvalue hu hueval
  -- the array is computed, and is no element
  have stores (c : Counters) (t₁ : State) (array : Operand) (hframe : t₁.frame = t.frame)
      (harray : Gives t.memory a array c.temps t₁) (hname : array.ty.name = v.ty.name)
      (helement : array.isElement = false) : (do
        let i ← index.lower s (.wanting Ty.int)
        let operand ← value.lower s (.assigned (Ty.scalar v.ty.name))
        emit (.arrayStore array i operand) : Lower Unit).Runs w x True c t₁ fun _ _ t' =>
          t'.memory = { m₂ with heap } := by
    refine Runs.bind (hindexRuns c t₁ (State.source_eq hframe harray.1)) (fun _ => trivial) ?_
    rintro i code c₂ t₂ hrun hl₁ ⟨hm₁, hi⟩
    have ht₂ : t₂.source = { t.source with memory := m₁ } :=
      State.source_eq (hl₁.frame.trans hframe) hm₁
    refine Runs.bind (hvalueRuns c₂ t₂ ht₂) (fun _ => trivial) ?_
    rintro operand code c₃ t₃ - hl₂ ⟨rfl, hoperand⟩
    have hi₃ := hi.later hl₂ fun hwrites => Bool.eq_false_iff.mpr fun hel =>
      ho (index.isIndex_of_isElement hrun hel).1 hwrites
    have harray₃ := ((harray.2.later hl₁ fun _ => helement).later hl₂ fun _ => helement).value
    unfold World.store at hheap
    split at hheap
    · next hadmits =>
      have hact : (Instr.arrayStore array i operand).act w x t₃ = some (.next (t₃.setHeap heap)) := by
        simp only [Instr.act, harray₃, hi₃.value, hoperand.value, hname, hadmits, hheap, if_true,
          Option.bind_eq_bind, Option.bind_some, Option.pure_def]
      exact runs_emit hact (State.later_memory c₃.temps t₃ fun h => (h trivial).elim) rfl
    · cases hheap
  have hread : (readVariable s name).Runs w x False c t (Gives t.memory a) := runs_readVariable ha
  unfold readVariable at hread
  rw [hv, ofOption_some, pure_bind] at hread
  have hruns : (assignElement s name index value).Runs w x True c t fun _ _ t' =>
      t'.memory = { m₂ with heap } := by
    unfold assignElement target
    rw [hv, ofOption_some, pure_bind, hel, ofOption_some, pure_bind]
    split at hread
    · next hfield =>
      rw [if_pos hfield]
      refine Runs.bind hread False.elim fun array code c₁ t₁ hrun hl harray => ?_
      cases hrun
      exact stores _ t₁ _ hl.frame harray rfl rfl
    · next hfield =>
      rw [if_neg hfield]
      refine Runs.bind hread False.elim fun array code c₁ t₁ hrun hl harray => ?_
      cases hrun
      exact stores _ t₁ _ hl.frame harray rfl rfl
  obtain ⟨t', hframe, hm, hsteps⟩ := steps_of_runs hM hruns hrun hcode
  exact ⟨t', State.source_eq hframe hm, hsteps⟩

/-- A return. -/
theorem does_ret (hva : s.table.VarargsAreArrays)
    (hx : x.returnTy = s.returnType) {value : Option Expr}
    (hc : ∀ e, value = some e → ∃ ty, e.infer s (.returned s.returnType) = .ok ty)
    (ho : ∀ e, value = some e → e.Ordered w x s) :
    (ret s value).Does M fun σ => σ.ret w x s value := by
  intro c c' before code t o σ hrun hcode h
  cases value with
  | none =>
    cases h
    cases hrun
    refine ⟨t, rfl, ?_⟩
    rw [List.length_append]
    obtain ⟨after, hcode⟩ := hcode
    exact Machine.does_of_act hcode.symm (by rw [hM]; rfl)
  | some e =>
    obtain ⟨ty, hty⟩ := hc e rfl
    simp only [Source.State.ret, Option.bind_eq_bind, Option.bind_eq_some_iff] at h
    obtain ⟨⟨v, σ₁⟩, hv, h⟩ := h
    split at h
    · next hadmits =>
      cases h
      obtain ⟨m, rfl, hvalue⟩ := runs_eval hva (.inl rfl) hty (ho e rfl) hv
      obtain ⟨operand, n, t₁, hframe, ⟨hm, hoperand⟩, hdoes⟩ :=
        does_of_runs hM (hvalue c t rfl) hrun hcode
      refine ⟨t₁, State.source_eq hframe hm, hdoes _ ?_⟩
      rw [← hx] at hadmits
      simp only [Instr.act, hoperand.value, hadmits, if_true, Option.bind_eq_bind, Option.bind_some,
        Option.pure_def]
      rfl
    · cases h

/-- An expression whose value is dropped. -/
theorem does_discarded (hva : s.table.VarargsAreArrays) {e : Expr}
    {ty : Ty} (hty : e.infer s .discarded = .ok ty) (ho : e.Ordered w x s) :
    (e.lowerDiscarded s).Does M fun σ => do return (.normal, ← σ.discard w x s e) := by
  intro c c' before code t o σ hrun hcode h
  simp only [Option.bind_eq_bind, Option.bind_eq_some_iff] at h
  obtain ⟨_, h, hσ⟩ := h
  cases hσ
  rw [← Expr.infer_unparenthesized] at hty
  have ho := ho.unparenthesized
  suffices hruns : ∃ m, σ = { t.source with memory := m } ∧
      (e.lowerDiscarded s).Runs w x True c t fun _ _ t' => t'.memory = m by
    obtain ⟨m, rfl, hruns⟩ := hruns
    obtain ⟨t', hframe, hm, hsteps⟩ := steps_of_runs hM hruns hrun hcode
    exact ⟨t', State.source_eq hframe hm, hsteps⟩
  unfold Source.State.discard at h
  split at h
  · next receiver method args span he =>
    simp only [Option.bind_eq_bind, Option.bind_eq_some_iff] at h
    obtain ⟨⟨result, m⟩, hcall, h⟩ := h
    cases h
    unfold Expr.lowerDiscarded
    rw [he] at hty ho ⊢
    obtain ⟨target, tys, ht, -, htys, -, -⟩ := Expr.parts_call hty
    have hreceiver : ∀ ty, receiver.infer s .unknown = .ok ty → receiver.Evaluates w x s .unknown :=
      fun _ hty => receiver.lower_evaluates hva (.inl rfl) hty
        (ho.part fun n hn => by simp [Expr.nodes, hn])
    have hargs : Expr.EvaluatesAll w x s target.argumentSite 0 args :=
      Expr.lowerAll_evaluates hva args target.consumesValue_argumentSite htys
        (fun e he => ho.part fun n hn => by simp [Expr.nodes, Expr.mem_nodesAll he hn])
        (.inl fun j => by cases target <;> rfl)
    refine ⟨m, rfl, Runs.bind (runs_callCode hva ht htys ho hreceiver hargs
      (fun hused => Bool.noConfusion hused) hcall) id ?_⟩
    rintro r code c₁ t₁ - - ⟨hm, -⟩
    exact runs_pure hm
  · next e' hcall =>
    simp only [Option.bind_eq_bind, Option.bind_eq_some_iff] at h
    obtain ⟨⟨v, σ₁⟩, hv, h⟩ := h
    cases h
    have hnot : e.unparenthesized.isCall = false := by
      unfold Expr.isCall
      rw [Expr.unparenthesized_unparenthesized]
      split
      · next he => exact (hcall _ _ _ _ he).elim
      · rfl
    obtain ⟨m, rfl, hvalue⟩ := runs_eval hva (.inr hnot) hty ho hv
    refine ⟨m, rfl, ?_⟩
    unfold Expr.lowerDiscarded
    split
    · next he => exact (hcall _ _ _ _ he).elim
    · refine Runs.bind (hvalue c t rfl) (fun _ => trivial) ?_
      rintro operand code c₁ t₁ - - ⟨hm, -⟩
      exact runs_pure hm

/-- A condition. A relation is tested by the jump, with both operands computed before it. -/
theorem tests_lowerCondition (hva : s.table.VarargsAreArrays)
    {e : Expr} {ty : Ty} (hty : e.infer s (.wanting Ty.boolean) = .ok ty) (ho : e.Ordered w x s) :
    Tests M (fun target => e.lowerCondition s target) fun σ => σ.test w x s e := by
  intro target c c' before code t holds σ hrun hcode h
  simp only [Source.State.test, Option.bind_eq_bind, Option.bind_eq_some_iff] at h
  obtain ⟨⟨v, σ₁⟩, hv, b, hb, h⟩ := h
  cases h
  -- the jump goes by what its condition says
  have jumps {test : Condition} {t' : State} (htest : t'.test test = some holds) :
      (Instr.branch test target).act w x t' =
        some (if holds then .jump target t' else .next t') := by
    simp only [Instr.act, htest, Option.bind_eq_bind, Option.bind_some, Option.pure_def]
  have truthy (hrun : (do
      let o ← e.lower s (.wanting Ty.boolean)
      let test ← pure (Condition.truthy o)
      emit (.branch test target) : Lower Unit).run c = .done () code c') :
      ∃ t', t'.source = σ₁ ∧ M.Does (before.length, t) (before ++ code).length
        (if holds then .jump target t' else .next t') := by
    obtain ⟨m, rfl, hvalue⟩ := runs_eval hva (.inl rfl) hty ho hv
    obtain ⟨o, n, t₁, hframe, ⟨hm, ho⟩, hdoes⟩ := does_of_runs hM (hvalue c t rfl)
      (i := fun o => .branch (.truthy o) target) hrun hcode
    refine ⟨t₁, State.source_eq hframe hm, hdoes _ (jumps ?_)⟩
    simp only [State.test, ho.value, hb, Option.bind_eq_bind, Option.bind_some]
  unfold Expr.lowerCondition at hrun
  split at hrun
  · next op left right span he =>
    split at hrun
    · rw [← Expr.infer_unparenthesized, he] at hty
      obtain ⟨ls, rs, l, r, hsites, hl, hr⟩ := Expr.infer_operands hty
      obtain ⟨hls, hrs⟩ := consumesValue_of_operandSites hsites
      have ho := ho.unparenthesized
      rw [he] at ho
      have hleft : left.Evaluates w x s ls := left.lower_evaluates hva (.inl hls) hl
        (ho.part fun n hn => by simp [Expr.nodes, hn])
      have hright : right.Evaluates w x s rs := right.lower_evaluates hva (.inl hrs) hr
        (ho.part fun n hn => by simp [Expr.nodes, hn])
      simp only [Source.State.eval, Option.bind_eq_bind, Option.bind_eq_some_iff] at hv
      obtain ⟨⟨u, m⟩, hu, hv⟩ := hv
      cases hv
      rw [← Expr.eval_unparenthesized, he] at hu
      simp only [Expr.eval, hsites, Except.toOption, Option.bind_eq_bind, Option.bind_some,
        Option.bind_eq_some_iff] at hu
      obtain ⟨⟨a, m₁⟩, ha, ⟨d, m₂⟩, hd, u, happly, hu⟩ := hu
      cases hu
      have hrun : (pair s op left right (fun site => left.lower s site) (fun site =>
          right.lower s site) >>= fun p => emit (.branch (.compare op p.1 p.2) target)).run c =
            .done () code c' := hrun
      obtain ⟨p, n, t₁, hframe, ⟨hm, hp, hq⟩, hdoes⟩ :=
        does_of_runs hM (runs_pair hsites ho hleft hright ha hd) hrun hcode
      refine ⟨t₁, State.source_eq hframe hm, hdoes _ (jumps ?_)⟩
      simp only [State.test, hp.value, hq.value, happly, hb, Option.bind_eq_bind, Option.bind_some]
    · exact truthy hrun
  · exact truthy hrun

end Simple

/-! ## Statements with statements in them -/

/-- Every label that stands in the code is where it stands. -/
def Placed (M : Machine Instr State) : Prop :=
  ∀ {before : List Instr} {name : String}, before ++ [.label name] <+: M.code →
    M.place? name = some before.length

variable {f g : Source.State → Option (Source.Outcome × Source.State)}

theorem does_pure : (pure () : Lower Unit).Does M fun σ => some (.normal, σ) := by
  intro c c' before code t o σ hrun _ h
  cases hrun
  cases h
  refine ⟨t, rfl, ?_⟩
  rw [List.append_nil]
  exact .refl

/-- What is behind a statement is done unless the statement returns. -/
theorem does_seq {y z : Lower Unit} (hy : y.Does M f) (hz : z.Does M g) :
    (y >>= fun _ => z).Does M fun σ => Source.andThen (f σ) g := by
  intro c c' before code t o σ hrun hcode h
  obtain ⟨_, code₁, c₁, code₂, h₁, h₂, rfl⟩ := run_bind_eq_done.mp hrun
  rw [← List.append_assoc] at hcode ⊢
  simp only [Source.andThen, Option.bind_eq_bind, Option.bind_eq_some_iff] at h
  obtain ⟨⟨first, σ₁⟩, hfirst, h⟩ := h
  obtain ⟨t₁, rfl, hdoes⟩ :=
    hy c c₁ before code₁ t first σ₁ h₁ ((List.prefix_append _ code₂).trans hcode) hfirst
  cases first with
  | normal =>
    obtain ⟨t₂, hσ, hdoes₂⟩ := hz c₁ c' _ code₂ t₁ o σ h₂ hcode h
    exact ⟨t₂, hσ, hdoes₂.of_steps hdoes⟩
  | returned v =>
    cases h
    exact ⟨t₁, rfl, hdoes⟩

/-- Behind a part that did not return control passes on. -/
theorem does_of_next {p : Nat × State} {k l : Nat} {o : Source.Outcome}
    (h : M.Does p k (o.action t)) (hs : M.Steps (k, t) (l, t)) : M.Does p l (o.action t) := by
  cases o with
  | normal => exact Relation.ReflTransGen.trans h hs
  | returned v => exact h

section Jumps
variable (hM : M.act = Instr.act w x)
include hM

/-- A label is passed. -/
theorem steps_label {before : List Instr} {name : String} (hcode : before ++ [.label name] <+: M.code)
    (t : State) : M.Steps (before.length, t) ((before ++ [Instr.label name]).length, t) := by
  obtain ⟨after, hcode⟩ := hcode
  rw [List.length_append]
  exact Machine.does_of_act (a := .next t) hcode.symm (by rw [hM]; rfl)

/-- A jump goes to its label. -/
theorem steps_jump (hP : Placed M) {before before' : List Instr} {name : String}
    (hcode : before ++ [.jump name] <+: M.code) (hlabel : before' ++ [.label name] <+: M.code)
    (t : State) : M.Steps (before.length, t) (before'.length, t) := by
  obtain ⟨after, hcode⟩ := hcode
  exact Machine.does_of_act (a := .jump name t) hcode.symm (by rw [hM]; rfl) _ (hP hlabel)

/-- A branch does its then part where the condition holds, and else its else part. -/
theorem does_branch (hP : Placed M) {condition : Expr} {thenPart elsePart : Lower Unit}
    {test : Source.State → Option (Bool × Source.State)}
    (hc : Tests M (fun target => condition.lowerCondition s target) test)
    (ht : thenPart.Does M f) (he : elsePart.Does M g) :
    (branch s condition thenPart elsePart).Does M (fun σ => do
      let (holds, σ) ← test σ
      if holds then f σ else g σ) := by
  intro c c' before code t o σ hrun hcode h
  obtain ⟨c₀, tests, c₁, elses, c₂, thens, -, htests, helses, hthens, rfl⟩ := branch_eq_done hrun
  simp only [Option.bind_eq_bind, Option.bind_eq_some_iff] at h
  obtain ⟨⟨holds, σ₁⟩, htest, h⟩ := h
  simp only [← List.append_assoc] at hcode ⊢
  -- the code of each part ends in front of the next one
  have inThen := (List.prefix_append _ _).trans hcode
  have inLabel := (List.prefix_append _ _).trans inThen
  have inJump := (List.prefix_append _ _).trans inLabel
  have inElse := (List.prefix_append _ _).trans inJump
  have inTest := (List.prefix_append _ _).trans inElse
  obtain ⟨t₁, rfl, tested⟩ := hc _ c₀ c₁ before tests t holds σ₁ htests inTest htest
  cases holds with
  | true =>
    have atThen := (tested _ (hP inLabel)).trans (steps_label hM inLabel t₁)
    obtain ⟨t₂, hσ, done⟩ := ht c₂ c' _ thens t₁ o σ hthens inThen h
    exact ⟨t₂, hσ, does_of_next (done.of_steps atThen) (steps_label hM hcode t₂)⟩
  | false =>
    obtain ⟨t₂, hσ, done⟩ := he c₁ c₂ _ elses t₁ o σ helses inElse h
    have atEnd := (steps_jump hM hP inJump hcode t₂).trans (steps_label hM hcode t₂)
    exact ⟨t₂, hσ, does_of_next (done.of_steps tested) atEnd⟩

/-- A loop does its body as long as its condition holds. -/
theorem does_loop (hP : Placed M) {condition : Expr} {body : Lower Unit}
    {test : Source.State → Option (Bool × Source.State)}
    (hc : Tests M (fun target => condition.lowerCondition s target) test) (hb : body.Does M f)
    (rounds : Nat) : (loop s condition body).Does M (Source.iterate test f rounds) := by
  intro c c' before code t o σ hrun hcode h
  obtain ⟨c₀, tests, c₁, inner, -, htests, hinner, rfl⟩ := loop_eq_done hrun
  simp only [← List.append_assoc] at hcode ⊢
  have inBack := (List.prefix_append _ _).trans hcode
  have inBody := (List.prefix_append _ _).trans inBack
  have inLabel := (List.prefix_append _ _).trans inBody
  have inExit := (List.prefix_append _ _).trans inLabel
  have inTest := (List.prefix_append _ _).trans inExit
  have inTop := (List.prefix_append _ _).trans inTest
  -- every round starts in front of the label of the test
  induction rounds generalizing t with
  | zero => cases h
  | succ rounds ih =>
    simp only [Source.iterate, Option.bind_eq_bind, Option.bind_eq_some_iff] at h
    obtain ⟨⟨holds, σ₁⟩, htest, h⟩ := h
    obtain ⟨t₁, rfl, tested⟩ := hc _ c₀ c₁ _ tests t holds σ₁ htests inTest htest
    have tested := tested.of_steps (steps_label hM inTop t)
    cases holds with
    | true =>
      have atBody := (tested _ (hP inLabel)).trans (steps_label hM inLabel t₁)
      simp only [if_true, Source.andThen, Option.bind_eq_bind, Option.bind_eq_some_iff] at h
      obtain ⟨⟨first, σ₂⟩, hfirst, h⟩ := h
      obtain ⟨t₂, rfl, done⟩ := hb c₁ c' _ inner t₁ first σ₂ hinner inBody hfirst
      have done := done.of_steps atBody
      cases first with
      | normal =>
        obtain ⟨t₃, hσ, again⟩ := ih t₂ h
        exact ⟨t₃, hσ, again.of_steps (Relation.ReflTransGen.trans done (steps_jump hM hP inBack inTop t₂))⟩
      | returned v =>
        cases h
        exact ⟨t₂, rfl, done⟩
    | false =>
      cases h
      exact ⟨t₁, rfl, Relation.ReflTransGen.trans tested
        ((steps_jump hM hP inExit hcode t₁).trans (steps_label hM hcode t₁))⟩

end Jumps

end Lower

namespace Stmt

/-- The statement contains no other statement. -/
def isSimple : Stmt → Bool
  | .expr .. | .assign .. | .assignElement .. | .ret .. => true
  | .block .. | .branch .. | .loop .. => false

/-- A statement is executed in order: no part of it reads an array element too late for a call, and the
constructors that run while an element waits leave the arrays as they are. -/
structure Ordered (w : World) (x : Setting) (s : Scope) (stmt : Stmt) : Prop where
  calls : stmt.InOrder s
  news : ∀ className ∈ stmt.lateNews, w.ConstructorKeepsArrays (x.names.qualify className)

namespace Ordered

variable {stmt inner : Stmt} {e : Expr}

/-- A statement inside one in order is in order. -/
theorem part (h : stmt.Ordered w x s) (hp : ∀ i ∈ inner.nodes, i ∈ stmt.nodes) :
    inner.Ordered w x s where
  calls i hi := h.calls i (hp i hi)
  news className hc := by
    obtain ⟨i, hi, hc⟩ := List.mem_flatMap.mp hc
    exact h.news className (List.mem_flatMap.mpr ⟨i, hp i hi, hc⟩)

/-- The expressions of a statement in order are in order. -/
theorem expression (h : stmt.Ordered w x s) (he : e ∈ stmt.expressions) : e.Ordered w x s where
  calls := h.calls.expression he
  news className hc := h.news className (List.mem_flatMap.mpr ⟨stmt, stmt.mem_nodes_self,
    List.mem_append_right _ (List.mem_flatMap.mpr ⟨e, he, hc⟩)⟩)

/-- An index that is an element is followed by a value that writes no arrays. -/
theorem not_mayWrite_value {name : String} {index value : Expr} {span : Span}
    (h : (Stmt.assignElement name index value span).Ordered w x s) (hindex : index.isIndex = true) :
    ¬ value.MayWrite w x := by
  have hreads := (h.calls _ (mem_nodes_self _)).1
  rw [readsInOrder, hindex, Bool.true_and, Bool.not_eq_true'] at hreads
  refine Expr.not_mayWrite hreads fun className hc => h.news className ?_
  refine List.mem_flatMap.mpr ⟨_, mem_nodes_self _, List.mem_append_left _ ?_⟩
  exact List.mem_flatMap.mpr ⟨value, by simp [overtaking, hindex], hc⟩

end Ordered

/-- **The code of a simple statement does what the statement does**, if the statement is in order. -/
theorem lower_does_of_isSimple (hva : s.table.VarargsAreArrays)
    (hM : M.act = Instr.act w x) (hx : x.returnTy = s.returnType) (rounds : Nat) {stmt : Stmt}
    (hs : stmt.isSimple = true) (hc : s.checkStmt stmt = []) (ho : stmt.Ordered w x s) :
    (stmt.lower s).Does M fun σ => stmt.exec w x s rounds σ := by
  cases stmt with
  | expr e span =>
    rw [Scope.checkStmt] at hc
    obtain ⟨ty, hty, -⟩ := Scope.orReport_eq_nil.mp hc
    exact does_discarded hM hva hty (ho.expression List.mem_cons_self)
  | assign name value span =>
    rw [Scope.checkStmt] at hc
    exact does_assign hM hva hc (ho.expression List.mem_cons_self)
  | assignElement name index value span =>
    rw [Scope.checkStmt] at hc
    exact does_assignElement hM hva hc (ho.expression List.mem_cons_self)
      (ho.expression (List.mem_cons_of_mem _ List.mem_cons_self)) ho.not_mayWrite_value
  | ret value span =>
    refine does_ret hM hva hx ?_ ?_
    · rintro e rfl
      rw [Scope.checkStmt] at hc
      obtain ⟨ty, hty, -⟩ := Scope.orReport_eq_nil.mp hc
      exact ⟨ty, hty⟩
    · rintro e rfl
      exact ho.expression List.mem_cons_self
  | block | branch | loop => cases hs

mutual
/-- **The code of a statement does what the statement does**, if the statement is in order. -/
theorem lower_does (hva : s.table.VarargsAreArrays)
    (hM : M.act = Instr.act w x) (hP : Placed M) (hx : x.returnTy = s.returnType) (rounds : Nat) :
    ∀ stmt : Stmt, s.checkStmt stmt = [] → stmt.Ordered w x s →
      (stmt.lower s).Does M fun σ => stmt.exec w x s rounds σ
  | .block body _, hc, ho => by
    rw [Scope.checkStmt] at hc
    rw [lower]
    exact lowerAll_does hva hM hP hx rounds body hc fun inner hi =>
      ho.part fun i hin => by simp [nodes, mem_nodesAll hi hin]
  | .branch condition thenBranch none _, hc, ho => by
    rw [Scope.checkStmt] at hc
    obtain ⟨hcond, hthen⟩ := List.append_eq_nil_iff.mp hc
    obtain ⟨ty, hty, -⟩ := Scope.checkCondition_eq_nil hcond
    rw [lower]
    exact does_branch hM hP
      (tests_lowerCondition hM hva hty (ho.expression List.mem_cons_self))
      (lower_does hva hM hP hx rounds thenBranch hthen (ho.part fun i hi => by simp [nodes, hi]))
      does_pure
  | .branch condition thenBranch (some elseBranch) _, hc, ho => by
    rw [Scope.checkStmt] at hc
    obtain ⟨hc, helse⟩ := List.append_eq_nil_iff.mp hc
    obtain ⟨hcond, hthen⟩ := List.append_eq_nil_iff.mp hc
    obtain ⟨ty, hty, -⟩ := Scope.checkCondition_eq_nil hcond
    rw [lower]
    exact does_branch hM hP
      (tests_lowerCondition hM hva hty (ho.expression List.mem_cons_self))
      (lower_does hva hM hP hx rounds thenBranch hthen (ho.part fun i hi => by simp [nodes, hi]))
      (lower_does hva hM hP hx rounds elseBranch helse (ho.part fun i hi => by simp [nodes, hi]))
  | .loop condition body _, hc, ho => by
    rw [Scope.checkStmt] at hc
    obtain ⟨hcond, hbody⟩ := List.append_eq_nil_iff.mp hc
    obtain ⟨ty, hty, -⟩ := Scope.checkCondition_eq_nil hcond
    rw [lower]
    exact does_loop hM hP
      (tests_lowerCondition hM hva hty (ho.expression List.mem_cons_self))
      (lower_does hva hM hP hx rounds body hbody (ho.part fun i hi => by simp [nodes, hi])) rounds
  | .expr .., hc, ho | .assign .., hc, ho | .assignElement .., hc, ho | .ret .., hc, ho =>
    lower_does_of_isSimple hva hM hx rounds rfl hc ho
theorem lowerAll_does (hva : s.table.VarargsAreArrays)
    (hM : M.act = Instr.act w x) (hP : Placed M) (hx : x.returnTy = s.returnType) (rounds : Nat) :
    ∀ body : List Stmt, s.checkStmts body = [] → (∀ stmt ∈ body, stmt.Ordered w x s) →
      (lowerAll s body).Does M fun σ => execAll w x s rounds body σ
  | [], _, _ => does_pure
  | stmt :: rest, hc, ho => by
    rw [Scope.checkStmts] at hc
    obtain ⟨hstmt, hrest⟩ := List.append_eq_nil_iff.mp hc
    rw [lowerAll]
    exact does_seq (lower_does hva hM hP hx rounds stmt hstmt (ho stmt List.mem_cons_self))
      (lowerAll_does hva hM hP hx rounds rest hrest fun inner hi =>
        ho inner (List.mem_cons_of_mem _ hi))
end

end Stmt

end JavaMinus
