import JavaMinus.Typing.Infer

/-!
# What a site can change

A site decides the type of one kind of expression only: a call of a method that the class does not
declare. So an expression that has a type where nothing is expected has that type everywhere
(`Expr.infer_of_unknown`), and an expression that is no call has one type at all sites
(`Expr.infer_site`). An inferred type never carries the varargs mark (`Expr.infer_plain`).

The inversion lemmas say what an accepted expression owes to its parts, one for each form that has
parts; the proofs about lowering read them instead of unfolding inference.
-/

namespace JavaMinus

/-- A sequence yields a value exactly when its parts do. -/
theorem bind_eq_ok {ε α β : Type} {x : Except ε α} {f : α → Except ε β} {b : β} :
    (x >>= f) = .ok b ↔ ∃ a, x = .ok a ∧ f a = .ok b := by
  cases x <;> simp [bind, Except.bind]

namespace CallTarget

/-- A call that has a type where nothing is expected is of a declared method. -/
theorem isDeclared_of_valueType_unknown {target : CallTarget} {method : String} {span : Span}
    {ty : Ty} (h : target.valueType .unknown method span = .ok ty) : target.isDeclared = true := by
  cases target with
  | declared m => rfl
  | _ => simp [valueType, Site.unknown, Site.consumesValue, resultType, Site.expected?, Ty.void,
      Ty.scalar, Ty.isVoid] at h

/-- The result type of a declared method does not depend on the site. -/
theorem resultType_of_isDeclared {target : CallTarget} (h : target.isDeclared = true)
    (site site' : Site) : target.resultType site = target.resultType site' := by
  cases target with
  | declared m => rfl
  | _ => cases h

/-- The type of a call is the result type of its target. -/
theorem resultType_of_valueType {target : CallTarget} {site : Site} {method : String}
    {span : Span} {ty : Ty} (h : target.valueType site method span = .ok ty) :
    target.resultType site = ty ∧ (site.consumesValue = true → ty.isVoid = false) := by
  unfold valueType at h
  split at h
  · cases h
  · next hv =>
    cases h
    refine ⟨rfl, fun hc => ?_⟩
    simpa [hc] using hv

/-- A call that has a type where nothing is expected has it at every site. -/
theorem valueType_of_unknown {target : CallTarget} {method : String} {span : Span} {ty : Ty}
    (h : target.valueType .unknown method span = .ok ty) (site : Site) :
    target.valueType site method span = .ok ty := by
  have hd := isDeclared_of_valueType_unknown h
  obtain ⟨hr, hv⟩ := resultType_of_valueType h
  have hs : target.resultType site = ty := (resultType_of_isDeclared hd site .unknown).trans hr
  simp [valueType, hs, hv rfl]

/-- A result type has no varargs mark. -/
theorem resultType_plain (target : CallTarget) (site : Site) :
    (target.resultType site).plain = target.resultType site := by
  cases target with
  | declared m => rfl
  | _ =>
    simp only [resultType]
    cases site.expected? <;> rfl

end CallTarget

namespace Expr

variable {s : Scope} {site : Site} {ty : Ty}

/-! ## Parts of accepted expressions -/

theorem parts_ident {name : String} {span : Span} (h : infer s site (.ident name span) = .ok ty) :
    ∃ v, s.resolve? name = some v ∧ (v.isField = true → s.isStatic = false) ∧ v.ty = ty := by
  rw [infer] at h
  split at h
  · next v hv =>
    split at h
    · cases h
    · next hf =>
      cases h
      exact ⟨v, hv, by simpa using hf, rfl⟩
  · cases h

theorem parts_self {span : Span} (h : infer s site (.self span) = .ok ty) :
    s.isStatic = false ∧ s.table.classType = ty := by
  rw [infer] at h
  split at h
  · cases h
  · next hs =>
    cases h
    exact ⟨by simpa using hs, rfl⟩

/-- The operands of an equality have types at the sites that lowering gives them, and one is
assignable to the other. -/
theorem parts_equality {op : BinaryOp} {left right : Expr} {span : Span}
    (hop : op.isEquality = true) (h : infer s site (.binary op left right span) = .ok ty) :
    ty = Ty.boolean ∧ ∃ l r,
      (s.assignable l r || s.assignable r l) = true ∧
      if left.isCall then infer s .unknown right = .ok r ∧ infer s (.wanting r) left = .ok l
      else infer s .unknown left = .ok l ∧ infer s (.wanting l) right = .ok r := by
  rw [infer, if_pos hop] at h
  split at h
  · next hc =>
    obtain ⟨r, hr, h⟩ := bind_eq_ok.mp h
    obtain ⟨l, hl, h⟩ := bind_eq_ok.mp h
    rw [equalityType] at h
    split at h
    · next ha =>
      cases h
      exact ⟨rfl, l, r, ha, by rw [if_pos hc]; exact ⟨hr, hl⟩⟩
    · cases h
  · next hc =>
    obtain ⟨l, hl, h⟩ := bind_eq_ok.mp h
    obtain ⟨r, hr, h⟩ := bind_eq_ok.mp h
    rw [equalityType] at h
    split at h
    · next ha =>
      cases h
      exact ⟨rfl, l, r, ha, by rw [if_neg hc]; exact ⟨hl, hr⟩⟩
    · cases h

theorem agrees_of_checkOperand {op : String} {expected actual : Ty} {span : Span}
    (h : checkOperand op expected actual span = .ok ()) : actual.agrees expected = true := by
  rw [checkOperand] at h
  split at h
  · next ha => exact ha
  · cases h

/-- The operands of any other operator have the type that the operator takes. -/
theorem parts_binary {op : BinaryOp} {left right : Expr} {span : Span}
    (hop : op.isEquality = false) (h : infer s site (.binary op left right span) = .ok ty) :
    ty = op.resultType ∧ ∃ l r, infer s (.wanting op.operandType) left = .ok l ∧
      infer s (.wanting op.operandType) right = .ok r ∧
      l.agrees op.operandType = true ∧ r.agrees op.operandType = true := by
  rw [infer, if_neg (by simp [hop])] at h
  obtain ⟨l, hl, h⟩ := bind_eq_ok.mp h
  obtain ⟨r, hr, h⟩ := bind_eq_ok.mp h
  rw [fixedOperandType] at h
  obtain ⟨_, -, h⟩ := bind_eq_ok.mp h
  obtain ⟨_, -, h⟩ := bind_eq_ok.mp h
  obtain ⟨_, hla, h⟩ := bind_eq_ok.mp h
  obtain ⟨_, hra, h⟩ := bind_eq_ok.mp h
  cases h
  exact ⟨rfl, l, r, hl, hr, agrees_of_checkOperand hla, agrees_of_checkOperand hra⟩

theorem parts_not {e : Expr} {span : Span} (h : infer s site (.not e span) = .ok ty) :
    ty = Ty.boolean ∧ ∃ t, infer s (.wanting Ty.boolean) e = .ok t ∧ t.isBoolean = true := by
  rw [infer] at h
  obtain ⟨t, ht, h⟩ := bind_eq_ok.mp h
  split at h
  · next hb =>
    cases h
    exact ⟨rfl, t, ht, hb⟩
  · cases h

theorem parts_arrayLit {first : Expr} {rest : List Expr} {span : Span}
    (h : infer s site (.arrayLit (first :: rest) span) = .ok ty) :
    ∃ element, infer s .unknown first = .ok element ∧ element.isArray = false ∧
      checkElements s element rest = .ok () ∧ ty = Ty.array element.name := by
  rw [infer] at h
  obtain ⟨element, he, h⟩ := bind_eq_ok.mp h
  split at h
  · cases h
  · next ha =>
    obtain ⟨_, hrest, h⟩ := bind_eq_ok.mp h
    cases h
    exact ⟨element, he, by simpa using ha, hrest, rfl⟩

theorem parts_index {array place : Expr} {span : Span}
    (h : infer s site (.index array place span) = .ok ty) :
    ∃ a i, infer s .unknown array = .ok a ∧ a.element? = some ty ∧
      infer s (.wanting Ty.int) place = .ok i ∧ i.isInt = true := by
  rw [infer] at h
  split at h
  · cases h
  · obtain ⟨a, ha, h⟩ := bind_eq_ok.mp h
    split at h
    · cases h
    · next element he =>
      obtain ⟨i, hi, h⟩ := bind_eq_ok.mp h
      split at h
      · next hint =>
        cases h
        exact ⟨a, i, ha, he, hi, hint⟩
      · cases h

theorem parts_newArray {element : TypeRef} {length : Expr} {span : Span}
    (h : infer s site (.newArray element length span) = .ok ty) :
    length.isIntLiteral = true ∧ element.ty.isArray = false ∧ ty = Ty.array element.ty.name := by
  rw [infer] at h
  split at h
  · cases h
  · next hl =>
    split at h
    · cases h
    · next ha =>
      cases h
      exact ⟨by simpa using hl, by simpa using ha, rfl⟩

theorem parts_newObject {className : String} {span : Span}
    (h : infer s site (.newObject className span) = .ok ty) :
    s.knowsClass className = true ∧ ty = Ty.scalar className := by
  rw [infer] at h
  split at h
  · next hk =>
    cases h
    exact ⟨hk, rfl⟩
  · cases h

theorem parts_member {object : Expr} {property : String} {span : Span}
    (h : infer s site (.member object property span) = .ok ty) :
    property = "length" ∧ ty = Ty.int ∧
      ∃ a, infer s (.wanting Ty.intArray) object = .ok a ∧ a.isArray = true := by
  rw [infer] at h
  split at h
  · cases h
  · next hp =>
    obtain ⟨a, ha, h⟩ := bind_eq_ok.mp h
    split at h
    · next harr =>
      cases h
      exact ⟨by simpa using hp, rfl, a, ha, harr⟩
    · cases h

/-- An accepted call has a target, and arguments that the target takes. -/
theorem parts_call {receiver : Expr} {method : String} {args : List Expr} {span : Span}
    (h : infer s site (.call receiver method args span) = .ok ty) :
    ∃ target actuals, receiver.callTarget s method span = .ok target ∧
      target.checkCount s method args.length span = .ok () ∧
      inferArgs s target.argumentSite 0 args = .ok actuals ∧
      target.checkTypes s method (args.map Expr.span) actuals = .ok () ∧
      target.valueType site method span = .ok ty := by
  rw [infer] at h
  obtain ⟨target, ht, h⟩ := bind_eq_ok.mp h
  obtain ⟨_, hc, h⟩ := bind_eq_ok.mp h
  obtain ⟨actuals, ha, h⟩ := bind_eq_ok.mp h
  obtain ⟨_, hm, h⟩ := bind_eq_ok.mp h
  exact ⟨target, actuals, ht, hc, ha, hm, h⟩

theorem parts_args {sites : Nat → Site} {i : Nat} {e : Expr} {es : List Expr} {tys : List Ty}
    (h : inferArgs s sites i (e :: es) = .ok tys) :
    ∃ t ts, infer s (sites i) e = .ok t ∧ inferArgs s sites (i + 1) es = .ok ts ∧
      tys = t :: ts := by
  rw [inferArgs] at h
  obtain ⟨t, ht, h⟩ := bind_eq_ok.mp h
  obtain ⟨ts, hts, h⟩ := bind_eq_ok.mp h
  cases h
  exact ⟨t, ts, ht, hts, rfl⟩

/-! ## Sites -/

/-- Only a call looks at its site. -/
theorem infer_site {e : Expr} (h : e.isCall = false) (site site' : Site) :
    infer s site e = infer s site' e := by
  match e with
  | .call .. => cases h
  | .paren inner _ =>
    have hi : inner.isCall = false := h
    rw [infer, infer, infer_site hi site site']
  | .intLit .. | .boolLit .. | .ident .. | .self _ | .binary .. | .not .. | .index .. | .newArray ..
  | .newObject .. | .member .. => rw [infer, infer]
  | .arrayLit [] _ => rw [infer, infer]
  | .arrayLit (_ :: _) _ => rw [infer, infer]

/-- A type that an expression has where nothing is expected it has at every site. -/
theorem infer_of_unknown {e : Expr} (h : infer s .unknown e = .ok ty) (site : Site) :
    infer s site e = .ok ty := by
  match e with
  | .call receiver method args span =>
    obtain ⟨target, actuals, ht, hc, ha, hm, hv⟩ := parts_call h
    have ht' : CallTarget.resolve s receiver (infer s .unknown receiver) method span =
        .ok target := ht
    rw [infer, ht']
    simp only [bind, Except.bind, hc, ha, hm]
    exact CallTarget.valueType_of_unknown hv site
  | .paren inner _ =>
    rw [infer] at h ⊢
    exact infer_of_unknown h site
  | .intLit .. | .boolLit .. | .ident .. | .self _ | .binary .. | .not .. | .index .. | .newArray ..
  | .newObject .. | .member .. | .arrayLit .. => exact (infer_site rfl site .unknown).trans h

/-- An inferred type has no varargs mark. -/
theorem infer_plain {e : Expr} (h : infer s site e = .ok ty) : ty.plain = ty := by
  match e with
  | .intLit .. => rw [infer] at h; cases h; rfl
  | .boolLit .. => rw [infer] at h; cases h; rfl
  | .ident .. =>
    obtain ⟨v, -, -, rfl⟩ := parts_ident h
    rfl
  | .self _ =>
    obtain ⟨-, rfl⟩ := parts_self h
    rfl
  | .binary op .. =>
    cases hop : op.isEquality with
    | true => rw [(parts_equality hop h).1]; rfl
    | false =>
      rw [(parts_binary hop h).1, BinaryOp.resultType]
      split <;> rfl
  | .not .. => rw [(parts_not h).1]; rfl
  | .arrayLit [] _ => rw [infer] at h; cases h; rfl
  | .arrayLit (_ :: _) _ =>
    obtain ⟨element, -, -, -, rfl⟩ := parts_arrayLit h
    rfl
  | .index .. =>
    obtain ⟨a, -, -, he, -⟩ := parts_index h
    obtain ⟨-, rfl⟩ := Ty.element?_eq_some.mp he
    rfl
  | .newArray .. => rw [(parts_newArray h).2.2]; rfl
  | .newObject .. => rw [(parts_newObject h).2]; rfl
  | .member .. => rw [(parts_member h).2.1]; rfl
  | .call .. =>
    obtain ⟨target, -, -, -, -, -, hv⟩ := parts_call h
    rw [← (CallTarget.resultType_of_valueType hv).1]
    exact target.resultType_plain site
  | .paren inner _ =>
    rw [infer] at h
    exact infer_plain h

end Expr

end JavaMinus
