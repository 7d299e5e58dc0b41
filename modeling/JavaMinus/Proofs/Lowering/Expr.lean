import JavaMinus.Proofs.Lowering.Meets

/-!
# Accepted expressions have typed code

An expression that has a type at a site can be lowered at that site, its code is typed, and the
operand that holds its value has exactly the inferred type (`Expr.lower_meets`). Inference and
lowering walk the expression separately and find the sites of its parts separately; the lemmas of
this module say, construct by construct, that they find the same ones.

The one failure left is an array of more elements than its length can say.
-/

namespace JavaMinus

open Tac

/-- Types that agree and have no varargs mark are equal. -/
theorem Ty.eq_of_agrees {t u : Ty} (h : t.agrees u = true) (ht : t.plain = t) (hu : u.plain = u) :
    t = u := by
  rw [← ht, ← hu]
  exact Ty.agrees_iff.mp h

theorem Ty.eq_int_of_isInt {t : Ty} (h : t.isInt = true) (ht : t.plain = t) : t = Ty.int := by
  rw [isInt] at h
  refine Ty.eq_of_agrees ?_ ht rfl
  simp_all [agrees, int, scalar]

theorem Ty.eq_boolean_of_isBoolean {t : Ty} (h : t.isBoolean = true) (ht : t.plain = t) :
    t = Ty.boolean := by
  rw [isBoolean] at h
  refine Ty.eq_of_agrees ?_ ht rfl
  simp_all [agrees, boolean, scalar]

/-- A scalar without varargs mark is the scalar of its name. -/
theorem Ty.scalar_name {t : Ty} (ha : t.isArray = false) (ht : t.plain = t) :
    Ty.scalar t.name = t := by
  rw [← ht]
  cases t
  simp_all [plain, scalar]

namespace Expr

/-- The items of an accepted array literal have the element type where that type is wanted. -/
theorem inferArgs_of_checkElements {s : Scope} {element : Ty} (he : element.plain = element) :
    ∀ {items : List Expr} {i : Nat}, checkElements s element items = .ok () →
      inferArgs s (fun _ => .wanting element) i items = .ok (items.map fun _ => element)
  | [], _, _ => by rw [inferArgs]; rfl
  | item :: rest, i, h => by
    rw [checkElements] at h
    obtain ⟨t, ht, h⟩ := bind_eq_ok.mp h
    split at h
    · cases h
    · next ha =>
      have hte : t = element := Ty.eq_of_agrees (by simpa using ha) (infer_plain ht) he
      rw [inferArgs, ht, inferArgs_of_checkElements he h, hte]
      rfl

end Expr

namespace Lower

variable {names : String → Prop} {s : Scope} {temps : List Ty}

/-- An operand of a type, as a property of what lowering yields. -/
def Holds (s : Scope) (ty : Ty) (temps : List Ty) (o : Operand) : Prop :=
  o.Typed s temps ∧ o.ty = ty

/-- Operands of types, position by position. -/
def HoldsAll (s : Scope) (tys : List Ty) (temps : List Ty) (os : List Operand) : Prop :=
  (∀ o ∈ os, o.Typed s temps) ∧ os.map Operand.ty = tys

theorem Holds.mono {ty : Ty} {more : List Ty} {o : Operand} (h : Holds s ty temps o)
    (hp : temps <+: more) : Holds s ty more o :=
  ⟨h.1.mono hp, h.2⟩

theorem HoldsAll.mono {tys : List Ty} {more : List Ty} {os : List Operand}
    (h : HoldsAll s tys temps os) (hp : temps <+: more) : HoldsAll s tys more os :=
  ⟨fun o ho => (h.1 o ho).mono hp, h.2⟩

theorem meets_readVariable {name : String} {v : Variable} (hv : s.resolve? name = some v)
    (hf : v.isField = true → s.isStatic = false) (hn : names v.ty.name) :
    (readVariable s name).Meets names s temps (Holds s v.ty) := by
  unfold readVariable
  refine Meets.bind (meets_ofOption hv (Q := fun _ a => a = v) fun _ => rfl) ?_
  rintro more a - - rfl
  cases hfield : a.isField with
  | false => exact meets_pure fun _ => ⟨.var hv hfield, rfl⟩
  | true =>
    refine (meets_intoFresh hn ?_).mono fun more o _ _ h => h
    intro more id _ ht
    exact .fieldRead (hf hfield) hv hfield ht

/-- Storing values of fitting types into an array of typed code. -/
theorem meets_storeAll {array : Operand} {element : Ty} (ha : array.ty.element? = some element) :
    ∀ {values : List Operand} {index : Nat} {temps : List Ty}, array.Typed s temps →
      (∀ v ∈ values, v.Typed s temps ∧
        (s.trustsSuperclass = false → s.assignable element v.ty = true)) →
      (storeAll array index values).Meets names s temps fun more _ => array.Typed s more
  | [], _, _, harr, _ => meets_pure fun _ => harr
  | value :: rest, index, temps, harr, hvs => by
    obtain ⟨hv, hfit⟩ := hvs value List.mem_cons_self
    refine Meets.bind (meets_emit (Q := fun _ _ => True)
      (.arrayStore ha rfl hfit harr (.int _) hv) fun _ => trivial) ?_
    intro more _ hp _ _
    refine meets_storeAll ha (harr.mono hp) fun v hm => ?_
    exact ⟨(hvs v (List.mem_cons_of_mem _ hm)).1.mono hp, (hvs v (List.mem_cons_of_mem _ hm)).2⟩

/-- A packed array has the array type over its element type. -/
theorem meets_packArray {element : Ty} {values : List Operand} (hs : element.isArray = false)
    (hn : names element.name) (he : element.plain = element)
    (hvs : ∀ v ∈ values, v.Typed s temps ∧
      (s.trustsSuperclass = false → s.assignable element v.ty = true)) :
    (packArray element values).Meets names s temps (Holds s (Ty.array element.name)) := by
  unfold packArray
  split
  · exact Meets.bind (meets_fail (Q := fun _ _ => False)) fun _ _ _ _ h => h.elim
  · refine Meets.bind (meets_intoFresh hn fun most id _ ht => .newArray hs rfl ht (.int _)) ?_
    rintro most array hp - ⟨harr, hty⟩
    have hel : array.ty.element? = some element := by
      rw [hty]
      exact congrArg some (Ty.scalar_name hs he)
    refine Meets.bind (meets_storeAll hel harr fun v hm => ?_) ?_
    · exact ⟨(hvs v hm).1.mono hp, (hvs v hm).2⟩
    · intro last _ _ _ harr
      exact meets_pure fun _ => ⟨harr, hty⟩

theorem meets_settleBefore {operand : Operand} {next : Expr} {ty : Ty} (hn : names ty.name)
    (hty : ty.plain = ty) (h : Holds s ty temps operand) :
    (settleBefore operand next).Meets names s temps (Holds s ty) := by
  obtain ⟨ho, rfl⟩ := h
  unfold settleBefore
  split
  · refine (meets_intoFresh hn fun more id hp ht => ?_).mono fun more o _ _ h => ?_
    · exact .assign rfl (by rw [show (Operand.temp id operand.ty.plain).ty = operand.ty from hty,
        Scope.assignable_self]) ht (ho.mono hp)
    · exact ⟨h.1, h.2.trans hty⟩
  · exact meets_pure fun _ => ⟨ho, rfl⟩

theorem meets_elementAt {site : Site} {array index : Operand} {ty : Ty} (hn : names ty.name)
    (ha : array.ty.element? = some ty) (harr : array.Typed s temps)
    (hi : Holds s Ty.int temps index) :
    (elementAt site array index).Meets names s temps (Holds s ty) := by
  unfold elementAt
  refine Meets.bind (meets_ofOption ha (Q := fun more a => a = ty ∧ array.Typed s more ∧
    Holds s Ty.int more index) fun _ => ⟨rfl, harr, hi⟩) ?_
  rintro more t - - ⟨rfl, harr, hi, hit⟩
  have he : (Operand.element array index t).Typed s more := .element ha harr hit hi
  have hp : t.plain = t := by rw [(Ty.element?_eq_some.mp ha).2]; rfl
  dsimp only
  split
  · refine (meets_intoFresh hn fun most id hp' ht => ?_).mono fun most o _ _ h => ⟨h.1, h.2.trans hp⟩
    exact .assign rfl (by
      rw [show (Operand.temp id t.plain).ty = t from hp]
      exact s.assignable_self t) ht (he.mono hp')
  · exact meets_pure fun _ => ⟨he, rfl⟩

/-- An allocation of a known class. -/
theorem meets_allocate {className : String} (hk : s.knowsClass className = true)
    (hn : names className) :
    (allocate className).Meets names s temps (Holds s (Ty.scalar className)) := by
  intro hw c hc
  have hfresh : (fresh (Ty.scalar className)).Meets names s temps fun more o => o.Typed s more :=
    meets_fresh hn fun more id _ _ ht => ht
  obtain ⟨more, hp, hl, hm, ht, -⟩ := hfresh hw c hc
  exact ⟨more, hp, hl, hm, ⟨ht, rfl⟩, .allocation hk ht .nil⟩

/-- The operands of an operator, lowered at the sites at which inference typed them. -/
theorem meets_pair {op : BinaryOp} {left right : Expr} {ls rs : Site} {l r : Ty}
    {lowerLeft lowerRight : Site → Lower Operand}
    (hsites : operandSites s op left right = .ok (ls, rs)) (hn : names l.name)
    (hl : ∀ temps, (lowerLeft ls).Meets names s temps (Holds s l)) (hp : l.plain = l)
    (hr : ∀ temps, (lowerRight rs).Meets names s temps (Holds s r)) :
    (pair s op left right lowerLeft lowerRight).Meets names s temps fun more p =>
      Holds s l more p.1 ∧ Holds s r more p.2 := by
  unfold pair
  refine Meets.bind (meets_ofTyping hsites (Q := fun _ p => p = (ls, rs)) fun _ => rfl) ?_
  rintro more _ - - rfl
  refine Meets.bind (hl more) fun more _ _ _ ho => ?_
  refine Meets.bind (meets_settleBefore hn hp ho) fun more _ _ _ ho => ?_
  refine Meets.bind (hr more) fun more _ hp' _ ho' => ?_
  exact meets_pure fun _ => ⟨ho.mono hp', ho'⟩

end Lower

end JavaMinus
