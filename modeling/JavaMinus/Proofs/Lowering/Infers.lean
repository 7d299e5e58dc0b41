import JavaMinus.Proofs.Lowering.Call

/-!
# Inference and lowering agree

The main theorem of expression lowering: an expression that has a type at a site can be lowered
there, and the operand that holds its value has that type (`Expr.lower_meets`). The induction is over
expressions and argument lists together, as both functions are defined.

Two variants follow for the places where an expression is not lowered for its value alone: a
statement that drops the value (`Expr.lowerDiscarded_meets`), and a condition that becomes a jump
(`Expr.lowerCondition_meets`).
-/

namespace JavaMinus

open Tac Lower

variable {names : String → Prop} {s : Scope} {temps : List Ty}

/-- An expression can be lowered wherever inference types it, to an operand of that type. -/
def Expr.LowersWell (names : String → Prop) (s : Scope) (e : Expr) : Prop :=
  ∀ {temps : List Ty} {site : Site} {ty : Ty}, site.Names names →
    site.consumesValue = true ∨ e.isCall = false → e.infer s site = .ok ty →
    (e.lower s site).Meets names s temps (Holds s ty)

/-- Expressions can be lowered wherever inference types them and their values are used, to operands of
those types. -/
def Expr.AllLowerWell (names : String → Prop) (s : Scope) (es : List Expr) : Prop :=
  ∀ {temps : List Ty} {sites : Nat → Site} {i : Nat} {tys : List Ty},
    (∀ j, (sites j).consumesValue = true ∧ (sites j).Names names) →
    inferArgs s sites i es = .ok tys → (lowerAll s sites i es).Meets names s temps (HoldsAll s tys)

theorem Expr.Allocates.call {receiver : Expr} {method : String} {args : List Expr} {span : Span}
    (h : (Expr.call receiver method args span).Allocates names) :
    receiver.Allocates names ∧ ∀ e ∈ args, e.Allocates names := by
  refine ⟨h.part fun x hx => by simp [nodes, hx], fun e he => h.part fun x hx => ?_⟩
  simp only [nodes, List.mem_cons, List.mem_append]
  exact .inr (.inr (mem_nodesAll he hx))

/-- The sites that lowering finds for two operands are those at which inference typed them. -/
theorem Lower.meets_operands (hn : s.Names names) {op : BinaryOp} {left right : Expr} {span : Span}
    {site : Site} {ty : Ty} (hl : left.LowersWell names s) (hr : right.LowersWell names s)
    (hal : left.Allocates names) (har : right.Allocates names)
    (h : (Expr.binary op left right span).infer s site = .ok ty) :
    (pair s op left right (fun site => left.lower s site) fun site => right.lower s site).Meets
      names s temps fun more p =>
        p.1.Typed s more ∧ p.2.Typed s more ∧ op.Takes s p.1.ty p.2.ty := by
  have value : ∀ {site}, site.consumesValue = true ∨ left.isCall = false →
      ∀ {t}, left.infer s site = .ok t → site.Names names → names t.name :=
    fun hc _ h hs => Expr.infer_name hn hs hal hc h
  cases hop : op.isEquality with
  | true =>
    obtain ⟨-, l, r, ha, h⟩ := Expr.parts_equality hop h
    split at h
    · next hcall =>
      obtain ⟨hir, hil⟩ := h
      have hnr : (Site.wanting r).Names names :=
        Site.names_wanting fun _ => Expr.infer_name hn Site.names_unknown har (.inl rfl) hir
      have hsites : operandSites s op left right = .ok (.wanting r, .unknown) := by
        rw [operandSites, if_pos hop, if_pos hcall, hir]
        rfl
      refine (meets_pair hsites (value (.inl rfl) hil hnr) (fun _ => hl hnr (.inl rfl) hil)
        (Expr.infer_plain hil) fun _ => hr Site.names_unknown (.inl rfl) hir).mono ?_
      rintro more p - - ⟨⟨hp, hpt⟩, hq, hqt⟩
      exact ⟨hp, hq, by rw [BinaryOp.Takes, if_pos hop, hpt, hqt]; exact ha⟩
    · next hcall =>
      obtain ⟨hil, hir⟩ := h
      have hnl : (Site.wanting l).Names names :=
        Site.names_wanting fun _ => value (.inl rfl) hil Site.names_unknown
      have hsites : operandSites s op left right = .ok (.unknown, .wanting l) := by
        rw [operandSites, if_pos hop, if_neg hcall, hil]
        rfl
      refine (meets_pair hsites (value (.inl rfl) hil Site.names_unknown)
        (fun _ => hl Site.names_unknown (.inl rfl) hil) (Expr.infer_plain hil)
        fun _ => hr hnl (.inl rfl) hir).mono ?_
      rintro more p - - ⟨⟨hp, hpt⟩, hq, hqt⟩
      exact ⟨hp, hq, by rw [BinaryOp.Takes, if_pos hop, hpt, hqt]; exact ha⟩
  | false =>
    obtain ⟨-, l, r, hil, hir, hla, hra⟩ := Expr.parts_binary hop h
    have hname : names op.operandType.name := by
      rw [BinaryOp.operandType]
      split
      · exact hn.boolean
      · exact hn.int
    have hplain : op.operandType.plain = op.operandType := by
      rw [BinaryOp.operandType]
      split <;> rfl
    have hns : (Site.wanting op.operandType).Names names := Site.names_wanting fun _ => hname
    have hsites : operandSites s op left right =
        .ok (.wanting op.operandType, .wanting op.operandType) := by
      rw [operandSites, if_neg (by simp [hop])]
      rfl
    have hlt := Ty.eq_of_agrees hla (Expr.infer_plain hil) hplain
    have hrt := Ty.eq_of_agrees hra (Expr.infer_plain hir) hplain
    subst hlt
    refine (meets_pair hsites hname (fun _ => hl hns (.inl rfl) hil) hplain
      fun _ => hr hns (.inl rfl) hir).mono ?_
    rintro more p - - ⟨⟨hp, hpt⟩, hq, hqt⟩
    exact ⟨hp, hq, by rw [BinaryOp.Takes, if_neg (by simp [hop])]; exact ⟨hpt, hqt.trans hrt⟩⟩

/-- The types of arguments are as many as the arguments. -/
theorem Expr.length_of_inferArgs {sites : Nat → Site} :
    ∀ {es : List Expr} {i : Nat} {tys : List Ty}, inferArgs s sites i es = .ok tys →
      tys.length = es.length
  | [], _, _, h => by rw [inferArgs] at h; cases h; rfl
  | _ :: _, _, _, h => by
    obtain ⟨t, ts, -, hts, rfl⟩ := parts_args h
    rw [List.length_cons, List.length_cons, length_of_inferArgs hts]

/-- Every argument site uses its value, and expects the type of a parameter if any. -/
theorem CallTarget.argumentSite_names (hn : s.Names names) {receiver : Expr} {method : String}
    {span : Span} {target : CallTarget} (ht : receiver.callTarget s method span = .ok target)
    (i : Nat) : (target.argumentSite i).consumesValue = true ∧
      (target.argumentSite i).Names names := by
  cases target with
  | declared m =>
    refine ⟨rfl, fun ty hty _ => ?_⟩
    obtain ⟨p, hp, hname⟩ := Signature.mem_of_parameterType? hty
    rw [← hname]
    exact hn.parameter method m (method?_of_resolve ht) p hp
  | _ => exact ⟨rfl, fun _ hty => by cases hty⟩

/-- An operator has its result type, whichever way its operands are typed. -/
theorem Expr.type_of_binary {op : BinaryOp} {left right : Expr} {span : Span} {site : Site} {ty : Ty}
    (h : (Expr.binary op left right span).infer s site = .ok ty) : ty = op.resultType := by
  cases hop : op.isEquality with
  | true =>
    rw [(parts_equality hop h).1]
    cases op <;> first | rfl | cases hop
  | false => exact (parts_binary hop h).1

/-- An array literal is inferred as an array of scalars, and its items as what it holds. -/
theorem Expr.parts_literal {elements : List Expr} {span : Span} {site : Site} {ty : Ty}
    (h : (Expr.arrayLit elements span).infer s site = .ok ty) :
    ∃ element, element.isArray = false ∧ element.plain = element ∧ ty = Ty.array element.name ∧
      inferArgs s (fun _ => .wanting element) 0 elements = .ok (elements.map fun _ => element) := by
  cases elements with
  | nil =>
    rw [infer] at h
    cases h
    exact ⟨Ty.int, rfl, rfl, rfl, by rw [inferArgs]; rfl⟩
  | cons first rest =>
    obtain ⟨element, hf, hscalar, hrest, rfl⟩ := parts_arrayLit h
    refine ⟨element, hscalar, infer_plain hf, rfl, ?_⟩
    rw [inferArgs, infer_of_unknown hf, inferArgs_of_checkElements (infer_plain hf) hrest]
    rfl

/-- An expression accepted only as a literal length is one at every site. -/
theorem Expr.infer_of_isIntLiteral {e : Expr} (h : e.isIntLiteral = true) (site : Site) :
    e.infer s site = .ok Ty.int := by
  rw [← infer_unparenthesized]
  unfold isIntLiteral at h
  split at h
  · next value span he => rw [he, infer]
  · cases h

/-! ## One form at a time

Each form is lowered well where its parts are. -/

namespace Expr

variable (hn : s.Names names)
include hn

theorem lowersWell_binary {op : BinaryOp} {left right : Expr} {span : Span}
    (ha : (Expr.binary op left right span).Allocates names) (hl : left.LowersWell names s)
    (hr : right.LowersWell names s) : (Expr.binary op left right span).LowersWell names s := by
  intro temps site ty hs hc h
  have hal : left.Allocates names := ha.part fun x hx => by simp [nodes, hx]
  have har : right.Allocates names := ha.part fun x hx => by simp [nodes, hx]
  have hname := infer_name hn hs ha (.inr rfl) h
  cases type_of_binary h
  have hplain : op.resultType.plain = op.resultType := infer_plain h
  refine Meets.bind (meets_operands hn hl hr hal har h) ?_
  rintro more ⟨l, r⟩ - - ⟨hl, hr, htakes⟩
  refine (meets_intoFresh hname fun most id hp ht => ?_).mono fun most o _ _ ho =>
    ⟨ho.1, ho.2.trans hplain⟩
  rw [hplain] at ht ⊢
  exact .binary htakes ht (hl.mono hp) (hr.mono hp)

theorem lowersWell_not {operand : Expr} {span : Span} (ho : operand.LowersWell names s) :
    (Expr.not operand span).LowersWell names s := by
  intro temps site ty _ _ h
  obtain ⟨rfl, t, ht, hb⟩ := parts_not h
  cases Ty.eq_boolean_of_isBoolean hb (infer_plain ht)
  refine Meets.bind (ho (Site.names_wanting fun _ => hn.boolean) (.inl rfl) ht) ?_
  rintro more value - - ⟨hv, hvt⟩
  exact meets_intoFresh hn.boolean fun most id hp hd => .not hvt hd (hv.mono hp)

theorem lowersWell_arrayLit {elements : List Expr} {span : Span}
    (ha : (Expr.arrayLit elements span).Allocates names) (hes : AllLowerWell names s elements) :
    (Expr.arrayLit elements span).LowersWell names s := by
  intro temps site ty hs hc h
  obtain ⟨element, hscalar, hplain, rfl, hitems⟩ := parts_literal h
  have hname : names (Ty.array element.name).name := infer_name hn hs ha (.inr rfl) h
  have hel : (Ty.array element.name).element? = some element :=
    congrArg some (Ty.scalar_name hscalar hplain)
  refine Meets.bind (meets_ofTyping h (Q := fun _ a => a = Ty.array element.name) fun _ => rfl) ?_
  rintro more _ - - rfl
  refine Meets.bind (meets_ofOption hel (Q := fun _ a => element = a) fun _ => rfl) ?_
  rintro more _ - - rfl
  refine Meets.bind (hes (fun _ => ⟨rfl, Site.names_wanting fun _ => hname⟩) hitems) ?_
  rintro more values - - ⟨hv, htys⟩
  refine meets_packArray hscalar hname hplain fun v hm => ⟨hv v hm, fun _ => ?_⟩
  have hty : v.ty ∈ elements.map fun _ => element := by
    rw [← htys]
    exact List.mem_map_of_mem hm
  obtain ⟨-, -, hty⟩ := List.mem_map.mp hty
  rw [← hty]
  exact s.assignable_self _

theorem lowersWell_index {array place : Expr} {span : Span}
    (ha : (Expr.index array place span).Allocates names) (harray : array.LowersWell names s)
    (hplace : place.LowersWell names s) : (Expr.index array place span).LowersWell names s := by
  intro temps site ty hs hc h
  have hname := infer_name hn hs ha (.inr rfl) h
  obtain ⟨a, i, hia, hel, hii, hint⟩ := parts_index h
  cases Ty.eq_int_of_isInt hint (infer_plain hii)
  refine Meets.bind (harray Site.names_unknown (.inl rfl) hia) ?_
  rintro more o - - ⟨ho, hot⟩
  refine Meets.bind (hplace (Site.names_wanting fun _ => hn.int) (.inl rfl) hii) ?_
  intro most p hp _ hpl
  exact meets_elementAt hname (hot ▸ hel) (ho.mono hp) hpl

theorem lowersWell_newArray {element : TypeRef} {length : Expr} {span : Span}
    (hname : names element.ty.name) (hl : length.LowersWell names s) :
    (Expr.newArray element length span).LowersWell names s := by
  intro temps site ty _ _ h
  obtain ⟨hlit, hscalar, rfl⟩ := parts_newArray h
  have hscalar : element.ty.plain.isArray = false := hscalar
  refine Meets.bind (hl (Site.names_wanting fun _ => hn.int) (.inl rfl)
    (infer_of_isIntLiteral hlit _)) ?_
  rintro more n - - ⟨hnt, hni⟩
  exact meets_intoFresh hname fun most id hp hd => .newArray hscalar hni hd (hnt.mono hp)

theorem lowersWell_member {object : Expr} {property : String} {span : Span}
    (ho : object.LowersWell names s) : (Expr.member object property span).LowersWell names s := by
  intro temps site ty _ _ h
  obtain ⟨rfl, rfl, a, hia, harr⟩ := parts_member h
  rw [lower, if_neg (by simp)]
  refine Meets.bind (ho (Site.names_wanting fun _ => hn.int) (.inl rfl) hia) ?_
  rintro more o - - ⟨ho, rfl⟩
  exact meets_intoFresh hn.int fun most id hp hd => .arrayLength harr hd (ho.mono hp)

/-- The code of an accepted call is typed, and its result is kept where the site uses it. -/
theorem meets_call (hva : s.table.VarargsAreArrays) {receiver : Expr} {method : String}
    {args : List Expr} {span : Span} {site : Site} {ty : Ty} (hs : site.Names names)
    (h : (Expr.call receiver method args span).infer s site = .ok ty)
    (hr : receiver.LowersWell names s) (hes : AllLowerWell names s args) :
    (callCode s site method (receiver.callTarget s method span) (receiver.lower s .unknown)
      fun sites => lowerAll s sites 0 args).Meets names s temps
        fun more r => site.consumesValue = true → ∃ o, r = some o ∧ Holds s ty more o := by
  obtain ⟨target, actuals, ht, hcount, hargs, hm, hv⟩ := parts_call h
  have hlen : (args.map Expr.span).length = actuals.length := by
    rw [List.length_map, length_of_inferArgs hargs]
  exact meets_callCode hn hva hs ht hlen (by rw [List.length_map]; exact hcount) hm hv
    (fun _ _ hobject => hr Site.names_unknown (.inl rfl) hobject)
    fun _ => hes (CallTarget.argumentSite_names hn ht) hargs

theorem lowersWell_call (hva : s.table.VarargsAreArrays) {receiver : Expr} {method : String}
    {args : List Expr} {span : Span} (hr : receiver.LowersWell names s)
    (hes : AllLowerWell names s args) : (Expr.call receiver method args span).LowersWell names s := by
  intro temps site ty hs hc h
  have hcs : site.consumesValue = true := hc.resolve_right (by simp [isCall, unparenthesized])
  refine Meets.bind (meets_call hn hva hs h hr hes) ?_
  intro more r _ _ hr
  obtain ⟨o, rfl, ho⟩ := hr hcs
  exact meets_pure fun _ => ho

omit hn in
theorem allLowerWell_nil : AllLowerWell names s [] := by
  intro temps sites i tys _ h
  rw [inferArgs] at h
  cases h
  exact meets_pure fun _ => ⟨by simp, rfl⟩

omit hn in
theorem allLowerWell_cons {e : Expr} {es : List Expr} (he : e.LowersWell names s)
    (hes : AllLowerWell names s es) : AllLowerWell names s (e :: es) := by
  intro temps sites i tys hs h
  obtain ⟨t, ts, ht, hts, rfl⟩ := parts_args h
  obtain ⟨hc, hns⟩ := hs i
  refine Meets.bind (he hns (.inl hc) ht) ?_
  intro more o _ _ ho
  refine Meets.bind (hes hs hts) ?_
  intro most os hp _ hos
  have ho := ho.mono hp
  refine meets_pure fun _ => ⟨?_, by rw [List.map_cons, ho.2, hos.2]⟩
  intro x hx
  rcases List.mem_cons.mp hx with rfl | hx
  · exact ho.1
  · exact hos.1 x hx

end Expr

/-! ## Every expression -/

mutual
/-- An expression is lowered at every site at which it has a type, to an operand of that type. -/
theorem Expr.lower_meets (hn : s.Names names) (hva : s.table.VarargsAreArrays) :
    (e : Expr) → e.Allocates names → e.LowersWell names s
  | .intLit value _, _ => fun _ _ h => by
    rw [infer] at h
    cases h
    exact meets_pure fun _ => ⟨.int value, rfl⟩
  | .boolLit value _, _ => fun _ _ h => by
    rw [infer] at h
    cases h
    exact meets_pure fun _ => ⟨.boolean value, rfl⟩
  | .ident name _, _ => fun _ _ h => by
    obtain ⟨v, hv, hf, rfl⟩ := parts_ident h
    exact meets_readVariable hv hf (hn.declared name v hv)
  | .self _, _ => fun _ _ h => by
    obtain ⟨hs, rfl⟩ := parts_self h
    exact meets_pure fun _ => ⟨.self hs, rfl⟩
  | .binary _ left right _, ha =>
    lowersWell_binary hn ha (lower_meets hn hva left (ha.part fun x hx => by simp [nodes, hx]))
      (lower_meets hn hva right (ha.part fun x hx => by simp [nodes, hx]))
  | .not operand _, ha =>
    lowersWell_not hn (lower_meets hn hva operand (ha.part fun x hx => by simp [nodes, hx]))
  | .arrayLit elements _, ha =>
    lowersWell_arrayLit hn ha (lowerAll_meets hn hva elements fun e he => ha.part fun x hx => by
      simp only [nodes, List.mem_cons]
      exact .inr (mem_nodesAll he hx))
  | .index array place _, ha =>
    lowersWell_index hn ha (lower_meets hn hva array (ha.part fun x hx => by simp [nodes, hx]))
      (lower_meets hn hva place (ha.part fun x hx => by simp [nodes, hx]))
  | .newArray element length span, ha =>
    lowersWell_newArray hn (ha element length span (by simp [nodes]))
      (lower_meets hn hva length (ha.part fun x hx => by simp [nodes, hx]))
  | .newObject className _, _ => fun _ _ h => by
    obtain ⟨hk, rfl⟩ := parts_newObject h
    exact meets_allocate hk (hn.known className hk)
  | .member object _ _, ha =>
    lowersWell_member hn (lower_meets hn hva object (ha.part fun x hx => by simp [nodes, hx]))
  | .call receiver _ args _, ha =>
    lowersWell_call hn hva (lower_meets hn hva receiver ha.call.1)
      (lowerAll_meets hn hva args ha.call.2)
  | .paren inner _, ha => fun hs hc h => by
    have hai : inner.Allocates names := ha.part fun x hx => by simp [nodes, hx]
    rw [infer] at h
    exact lower_meets hn hva inner hai hs hc h
/-- Arguments are lowered at the sites at which they have types, to operands of those types. -/
theorem Expr.lowerAll_meets (hn : s.Names names) (hva : s.table.VarargsAreArrays) :
    (es : List Expr) → (∀ e ∈ es, e.Allocates names) → AllLowerWell names s es
  | [], _ => allLowerWell_nil
  | e :: es, ha =>
    allLowerWell_cons (lower_meets hn hva e (ha e List.mem_cons_self))
      (lowerAll_meets hn hva es fun e he => ha e (List.mem_cons_of_mem _ he))
end

/-- An expression whose value is dropped is lowered whenever it has a type. -/
theorem Expr.lowerDiscarded_meets (hn : s.Names names) (hva : s.table.VarargsAreArrays) {e : Expr}
    {ty : Ty} (ha : e.Allocates names) (h : e.infer s .discarded = .ok ty) :
    (e.lowerDiscarded s).Meets names s temps fun _ _ => True := by
  have ha : e.unparenthesized.Allocates names := ha.part (fun x hx => mem_nodes_unparenthesized hx)
  rw [← infer_unparenthesized] at h
  unfold lowerDiscarded
  split
  · next receiver method args span he =>
    rw [he] at h ha
    refine Meets.bind (meets_call hn hva Site.names_discarded h
      (lower_meets hn hva receiver ha.call.1) (lowerAll_meets hn hva args ha.call.2)) ?_
    intro _ _ _ _ _
    exact meets_pure fun _ => trivial
  · next hnot =>
    have hcall : e.unparenthesized.isCall = false := by
      unfold isCall
      rw [unparenthesized_unparenthesized]
      split
      · next he => exact absurd he (hnot _ _ _ _)
      · rfl
    refine Meets.bind (lower_meets hn hva e.unparenthesized ha Site.names_discarded
      (.inr hcall) h) ?_
    intro _ _ _ _ _
    exact meets_pure fun _ => trivial

/-- An accepted condition becomes a typed jump. -/
theorem Expr.lowerCondition_meets (hn : s.Names names) (hva : s.table.VarargsAreArrays) {e : Expr}
    {ty : Ty} {target : String} (ha : e.Allocates names)
    (h : e.infer s (.wanting Ty.boolean) = .ok ty) (hb : ty.isBoolean = true)
    (hlabel : IsBlockLabel target) :
    (e.lowerCondition s target).Meets names s temps fun _ _ => True := by
  cases Ty.eq_boolean_of_isBoolean hb (infer_plain h)
  have truthy : ∀ {temps}, (e.lower s (.wanting Ty.boolean)).Meets names s temps
      (Holds s Ty.boolean) :=
    lower_meets hn hva e ha (Site.names_wanting fun _ => hn.boolean) (.inl rfl) h
  have jump : ∀ {test : Condition} {temps : List Ty}, test.Typed s temps →
      (emit (.branch test target)).Meets names s temps fun _ _ => True :=
    fun ht => meets_emit (.branch hlabel ht) fun _ => trivial
  have value : ∀ {temps : List Ty}, (do
      let o ← e.lower s (.wanting Ty.boolean)
      let test ← pure (Condition.truthy o)
      emit (.branch test target) : Lower Unit).Meets names s temps fun _ _ => True := by
    intro temps
    refine Meets.bind truthy fun more o _ _ ho => ?_
    refine Meets.bind (meets_pure (Q := fun more test => test.Typed s more)
      fun _ => .truthy ho.2 ho.1) fun more test _ _ ht => jump ht
  unfold lowerCondition
  split
  · next op left right span he =>
    split
    · next hrel =>
      have hab : (Expr.binary op left right span).Allocates names :=
        he ▸ ha.part fun x hx => mem_nodes_unparenthesized hx
      have hal : left.Allocates names := hab.part fun x hx => by simp [nodes, hx]
      have har : right.Allocates names := hab.part fun x hx => by simp [nodes, hx]
      rw [← infer_unparenthesized, he] at h
      refine Meets.bind (meets_operands hn (lower_meets hn hva left hal)
        (lower_meets hn hva right har) hal har h) ?_
      rintro more ⟨l, r⟩ - - ⟨hl, hr, htakes⟩
      exact Meets.bind (meets_pure (Q := fun more test => test.Typed s more)
        fun _ => .compare hrel htakes hl hr) fun more test _ _ ht => jump ht
    · exact value
  · exact value

end JavaMinus
