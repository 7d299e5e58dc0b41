import JavaMinus.Proofs.Lowering.CallCode
import JavaMinus.Proofs.Lowering.Expr

/-!
# Accepted calls have typed code

A call lowers its receiver, where it has one, then its arguments, packs what is passed for a varargs
parameter, and keeps the result where the site uses it. What checking found out about the target,
the number and the types of the arguments is exactly what these steps need
(`Lower.meets_callCode`); with it the main theorem of expression lowering goes through
(`Expr.lower_meets`).
-/

namespace JavaMinus

open Tac

namespace CallTarget

/-- An accepted argument is assignable to the type it is wanted with, unless an array is passed for
the varargs parameter itself, which is the last one. -/
theorem assignable_of_misfit {s : Scope} {m : Signature} {method : String} {direct : Bool} :
    ∀ {arguments : List (Span × Ty)} {i : Nat}, misfit s m method direct i arguments = .ok () →
      ∀ {k : Nat} {span : Span} {actual expected : Ty}, arguments[k]? = some (span, actual) →
        m.parameterType? (i + k) = some expected →
        (direct = true ∧ m.parameters.length ≤ i + k + 1) ∨ s.assignable expected actual = true
  | [], _, _, _, _, _, _, hk, _ => by simp at hk
  | (span, actual) :: rest, i, h, k, span', actual', expected, hk, he => by
    have tail : misfit s m method direct (i + 1) rest = .ok () ∧
        ∀ expected, m.parameterType? i = some expected →
          (direct = true ∧ m.parameters.length ≤ i + 1) ∨ s.assignable expected actual = true := by
      rw [misfit] at h
      split at h
      · next hnone => exact ⟨h, fun _ h' => by rw [hnone] at h'; cases h'⟩
      · next expected hsome =>
        split at h
        · next hd =>
          simp only [Bool.and_eq_true, decide_eq_true_eq] at hd
          exact ⟨h, fun _ _ => .inl ⟨hd.2, hd.1.2⟩⟩
        · split at h
          · next ha =>
            refine ⟨h, fun expected' h' => .inr ?_⟩
            rw [hsome] at h'
            cases h'
            exact ha
          · cases h
    cases k with
    | zero =>
      cases hk
      exact tail.2 expected he
    | succ k =>
      rw [show i + (k + 1) = i + 1 + k by omega] at he ⊢
      exact assignable_of_misfit tail.1 hk he

end CallTarget

namespace Signature

/-- Enough arguments are passed to fill the parameters in front of a varargs parameter. -/
theorem fixedCount_le_of_acceptsCount {m : Signature} {count : Nat}
    (h : m.acceptsCount count = true) : m.fixedCount ≤ count := by
  unfold acceptsCount at h
  unfold fixedCount
  split at h
  · next hv =>
    rw [if_pos hv]
    have := of_decide_eq_true h
    omega
  · next hv =>
    rw [if_neg hv]
    have : count = m.parameters.length := by simpa using h
    omega

/-- From the varargs parameter on, arguments are wanted with its element type. -/
theorem parameterType?_of_varargs {m : Signature} {varargs : Symbol} {i : Nat}
    (hv : m.varargsParameter? = some varargs) (hi : m.fixedCount ≤ i) :
    m.parameterType? i = varargs.ty.element? := by
  have hle : m.parameters.length ≤ i + 1 := by
    unfold fixedCount at hi
    rw [hv] at hi
    simp only [Option.isSome_some, if_true] at hi
    omega
  unfold parameterType?
  rw [hv]
  simp only [hle, if_true]

end Signature

/-- From the varargs parameter on, accepted arguments are assignable to its element type. -/
theorem CallTarget.assignable_of_trailing {s : Scope} {m : Signature} {method : String}
    {spans : List Span} {actuals : List Ty} {varargs : Symbol}
    (hv : m.varargsParameter? = some varargs) (harray : varargs.ty.isArray = true)
    (trust : s.trustsSuperclass = false) (hlen : spans.length = actuals.length)
    (hm : (CallTarget.declared m).checkTypes s method spans actuals = .ok ())
    (hdirect : m.passesVarargsArray actuals = false) :
    ∀ ty ∈ actuals.drop m.fixedCount, s.assignable (Ty.scalar varargs.ty.name) ty = true := by
  intro ty hmem
  obtain ⟨k, hk⟩ := List.mem_iff_getElem?.mp hmem
  rw [List.getElem?_drop] at hk
  have hlt : m.fixedCount + k < spans.length := by
    rw [hlen]
    exact (List.getElem?_eq_some_iff.mp hk).1
  have hpair : (spans.zip actuals)[m.fixedCount + k]? = some (spans[m.fixedCount + k], ty) := by
    rw [List.getElem?_zip_eq_some]
    exact ⟨List.getElem?_eq_getElem hlt, hk⟩
  have hwant : m.parameterType? (0 + (m.fixedCount + k)) = some (Ty.scalar varargs.ty.name) := by
    rw [Signature.parameterType?_of_varargs hv (by omega)]
    exact Ty.element?_eq_some.mpr ⟨harray, rfl⟩
  rw [CallTarget.checkTypes, if_neg (by simp [trust])] at hm
  rcases CallTarget.assignable_of_misfit hm hpair hwant with hd | ha
  · rw [hdirect] at hd
    cases hd.1
  · exact ha

namespace Lower

variable {names : String → Prop} {s : Scope} {temps : List Ty}

/-- Packing for an accepted call yields typed arguments. -/
theorem meets_packVarargs {m : Signature} {method : String} {span : Span} {spans : List Span}
    {actuals : List Ty} {args : List Operand}
    (hva : ∀ p, m.varargsParameter? = some p → p.ty.isArray = true)
    (hn : ∀ p ∈ m.parameters, names p.ty.name) (hlen : spans.length = actuals.length)
    (hc : (CallTarget.declared m).checkCount s method spans.length span = .ok ())
    (hm : (CallTarget.declared m).checkTypes s method spans actuals = .ok ())
    (h : HoldsAll s actuals temps args) :
    (packVarargs s m method args).Meets names s temps fun more os =>
      ∀ o ∈ os, o.Typed s more := by
  obtain ⟨hargs, hty⟩ := h
  have hargsLen : args.length = actuals.length := by rw [← hty, List.length_map]
  unfold packVarargs
  split
  · exact meets_pure fun _ => hargs
  · next varargs hv =>
    split
    · exact meets_pure fun _ => hargs
    · next hdirect =>
      split
      · next hfew =>
        split
        · exact meets_pure fun _ => hargs
        · next htrust =>
          -- without trust the number of arguments was checked
          have hacc : m.acceptsCount args.length = true := by
            rw [CallTarget.checkCount, hlen, ← hargsLen] at hc
            split at hc
            · next ha => simpa [htrust] using ha
            · cases hc
          have := Signature.fixedCount_le_of_acceptsCount hacc
          omega
      · have hel : varargs.ty.element? = some (Ty.scalar varargs.ty.name) :=
          Ty.element?_eq_some.mpr ⟨hva varargs hv, rfl⟩
        have hlast : varargs ∈ m.parameters :=
          List.mem_of_getLast? (Option.filter_eq_some_iff.mp hv).1
        have hfit : ∀ v ∈ args.drop m.fixedCount, v.Typed s temps ∧
            (s.trustsSuperclass = false →
              s.assignable (Ty.scalar varargs.ty.name) v.ty = true) := by
          intro v hmem
          refine ⟨hargs v (List.mem_of_mem_drop hmem), fun htrust => ?_⟩
          refine CallTarget.assignable_of_trailing hv (hva varargs hv) htrust hlen hm
            (by rw [← hty]; exact Bool.eq_false_iff.mpr hdirect) v.ty ?_
          rw [← hty, ← List.map_drop]
          exact List.mem_map_of_mem hmem
        refine Meets.bind (meets_ofOption hel (Q := fun more a => a = Ty.scalar varargs.ty.name ∧
          temps <+: more) fun _ => ⟨rfl, List.prefix_rfl⟩) ?_
        rintro more _ - - ⟨rfl, hp⟩
        refine Meets.bind (meets_packArray rfl (hn varargs hlast) rfl
          fun v hv => ⟨(hfit v hv).1.mono hp, (hfit v hv).2⟩) ?_
        intro most packed hp' _ hpacked
        refine meets_pure fun _ o ho => ?_
        rcases List.mem_append.mp ho with ho | ho
        · exact (hargs o (List.mem_of_mem_take ho)).mono (hp.trans hp')
        · rw [List.mem_singleton.mp ho]
          exact hpacked.1

/-- The receiver of an accepted call: a class for a static call, and else an object that takes
calls. -/
theorem meets_receiver {receiver : Expr} {method : String} {span : Span} {target : CallTarget}
    {object : Lower Operand} (ht : receiver.callTarget s method span = .ok target)
    (hobject : ∀ temps ty, receiver.infer s .unknown = .ok ty →
      object.Meets names s temps (Holds s ty)) :
    (Lower.receiver s target object).Meets names s temps fun more on =>
      (callKind target).Typed s more on := by
  cases hst : target.isStatic with
  | true =>
    have hkind : callKind target = .static := by rw [callKind, hst]; rfl
    rw [hkind]
    cases target with
    | declared m =>
      have hms : m.isStatic = true := hst
      rw [Lower.receiver, if_pos hms]
      exact meets_pure fun _ => .static s.table.className
    | importedStatic c => exact meets_pure fun _ => .static c
    | inherited => cases hst
    | importedVirtual t => cases hst
  | false =>
    obtain ⟨t, htype, hreceives⟩ := CallTarget.receives_of_callTarget ht hst
    have hkind : callKind target = .virtual := by rw [callKind, hst]; rfl
    have hobj : Lower.receiver s target object = object := by
      cases target with
      | declared m =>
        have hms : m.isStatic = false := hst
        rw [Lower.receiver, if_neg (by simp [hms])]
      | importedStatic c => cases hst
      | inherited => rfl
      | importedVirtual t => rfl
    rw [hkind, hobj]
    refine (hobject temps t htype).mono fun most o _ _ ho => ?_
    obtain ⟨ho, rfl⟩ := ho
    exact .virtual hreceives ho

/-- The call itself is typed, and its result has the type of the call. -/
theorem meets_invoke {site : Site} {method : String} {target : CallTarget} {on : Operand}
    {values : List Operand} {ty : Ty} (hty : target.resultType site = ty)
    (hname : ty.isVoid = false → names ty.name)
    (hvalue : site.consumesValue = true → ty.isVoid = false)
    (hmay : site.consumesValue = false → s.MayReturn ty) (hon : (callKind target).Typed s temps on)
    (hvalues : ∀ v ∈ values, v.Typed s temps) :
    (invoke site method target on values).Meets names s temps
      fun more r => site.consumesValue = true → ∃ o, r = some o ∧ Holds s ty more o := by
  have hplain : ty.plain = ty := by rw [← hty, CallTarget.resultType_plain]
  unfold invoke
  rw [hty]
  split
  · next hkeep =>
    simp only [Bool.and_eq_true, Bool.not_eq_true'] at hkeep
    refine Meets.bind (meets_fresh (hname hkeep.2) (Q := fun more o => (∃ id, o = .temp id ty) ∧
      o.Typed s more ∧ (∀ v ∈ values, v.Typed s more) ∧ (callKind target).Typed s more on)
      fun more id hp _ htemp => ?_) ?_
    · rw [hplain] at htemp ⊢
      exact ⟨⟨id, rfl⟩, htemp, fun v hv => (hvalues v hv).mono hp, hon.mono hp⟩
    · rintro more _ - - ⟨⟨id, rfl⟩, htemp, hvalues, hon⟩
      refine Meets.bind (meets_emit (.callInto hon hvalues hkeep.2 htemp)
        (Q := fun more _ => (Operand.temp id ty).Typed s more) fun _ => htemp) ?_
      intro more _ _ _ htemp
      exact meets_pure fun _ _ => ⟨_, rfl, htemp, rfl⟩
  · next hdrop =>
    have hnot : site.consumesValue = false := by
      cases hcs : site.consumesValue with
      | false => rfl
      | true => exact absurd (by rw [hcs, hvalue hcs]; rfl) hdrop
    refine Meets.bind (meets_emit (.call hon hvalues (hmay hnot)) (Q := fun _ _ => True)
      fun _ => trivial) ?_
    intro more _ _ _ _
    exact meets_pure fun _ hcs => by rw [hnot] at hcs; cases hcs

/-- A dropped call has a result that calls may have. -/
theorem mayReturn_of_discarded {receiver : Expr} {method : String} {span : Span}
    {target : CallTarget} {site : Site} (ht : receiver.callTarget s method span = .ok target)
    (hs : site.consumesValue = false) : s.MayReturn (target.resultType site) := by
  cases site with
  | discarded =>
    cases target with
    | declared m =>
      exact .inr (.inr ⟨m, SymbolTable.mem_of_method? (CallTarget.method?_of_resolve ht), rfl⟩)
    | _ => exact .inl rfl
  | _ => cases hs

/-- The code of an accepted call is typed, and its result is kept where the site uses it. -/
theorem meets_callCode {site : Site} {receiver : Expr} {method : String} {span : Span}
    {target : CallTarget} {spans : List Span} {actuals : List Ty} {ty : Ty}
    {object : Lower Operand} {args : (Nat → Site) → Lower (List Operand)}
    (hn : s.Names names) (hva : s.table.VarargsAreArrays) (hs : site.Names names)
    (ht : receiver.callTarget s method span = .ok target) (hlen : spans.length = actuals.length)
    (hc : target.checkCount s method spans.length span = .ok ())
    (hm : target.checkTypes s method spans actuals = .ok ())
    (hv : target.valueType site method span = .ok ty)
    (hobject : ∀ temps ty, receiver.infer s .unknown = .ok ty →
      object.Meets names s temps (Holds s ty))
    (hargs : ∀ temps, (args target.argumentSite).Meets names s temps (HoldsAll s actuals)) :
    (callCode s site method (receiver.callTarget s method span) object args).Meets names s temps
      fun more r => site.consumesValue = true → ∃ o, r = some o ∧ Holds s ty more o := by
  obtain ⟨hresult, hvalue⟩ := CallTarget.resultType_of_valueType hv
  have hname : ty.isVoid = false → names ty.name := by
    rw [← hresult]
    exact CallTarget.resultType_name hn hs ht
  have hmay : site.consumesValue = false → s.MayReturn ty := by
    rw [← hresult]
    exact mayReturn_of_discarded ht
  rw [callCode_eq]
  refine Meets.bind (meets_ofTyping ht (Q := fun _ a => target = a) fun _ => rfl) ?_
  rintro more _ - - rfl
  refine Meets.bind (meets_receiver ht hobject) fun more on _ _ hon => ?_
  refine Meets.bind (hargs more) fun more values hp _ hvalues => ?_
  have hon := hon.mono hp
  have passes : (pass s target method values).Meets names s more
      fun most os => more <+: most ∧ ∀ v ∈ os, v.Typed s most := by
    cases target with
    | declared m =>
      have hfound := CallTarget.method?_of_resolve ht
      exact (meets_packVarargs (hva m (SymbolTable.mem_of_method? hfound))
        (hn.parameter method m hfound) hlen hc hm hvalues).mono fun most os hp _ h => ⟨hp, h⟩
    | _ => exact meets_pure fun _ => ⟨List.prefix_rfl, hvalues.1⟩
  refine Meets.bind passes ?_
  rintro most passed - - ⟨hp, hpassed⟩
  exact meets_invoke hresult hname hvalue hmay (hon.mono hp) hpassed

end Lower

end JavaMinus
