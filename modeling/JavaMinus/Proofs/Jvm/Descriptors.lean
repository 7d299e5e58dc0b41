import JavaMinus.Proofs.Jvm.Held

/-!
# The grammar of descriptors

Which kinds of values a descriptor stands for, by the grammar of the class format: a field has one
kind, a method takes kinds in order and leaves one or none. What is spelled for a type stands for the
kind that values of the type are held in (`fieldDescriptor_of_descriptor`,
`methodDescriptor_of_methodDescriptor`).

A class name is whatever stands between its letter and a semicolon. So the parameters of a method
could be divided in two ways where class names have semicolons in them; the kind of a field and of a
result is read in one way in any case (`FieldDescriptor.unique`, `MethodDescriptor.result_unique`).
-/

namespace JavaMinus.Jvm

/-- The descriptor of a field whose values are held so. -/
inductive FieldDescriptor : String → ValueKind → Prop
  | int : FieldDescriptor "I" .int
  | boolean : FieldDescriptor "Z" .int
  | object (name : String) : FieldDescriptor ("L" ++ name ++ ";") .ref
  | array {d : String} {kind : ValueKind} (element : FieldDescriptor d kind) :
      FieldDescriptor ("[" ++ d) .ref

/-- The descriptors of parameters in a row. -/
inductive ParameterDescriptors : String → List ValueKind → Prop
  | nil : ParameterDescriptors "" []
  | cons {d ds : String} {kind : ValueKind} {kinds : List ValueKind} (head : FieldDescriptor d kind)
      (tail : ParameterDescriptors ds kinds) : ParameterDescriptors (d ++ ds) (kind :: kinds)

/-- The descriptor of a result, or of none. -/
inductive ResultDescriptor : String → Option ValueKind → Prop
  | void : ResultDescriptor "V" none
  | value {d : String} {kind : ValueKind} (field : FieldDescriptor d kind) :
      ResultDescriptor d (some kind)

/-- The descriptor of a method: the kinds that it takes, and the kind that it leaves. -/
inductive MethodDescriptor : String → List ValueKind → Option ValueKind → Prop
  | mk {ds d : String} {kinds : List ValueKind} {result : Option ValueKind}
      (params : ParameterDescriptors ds kinds) (result_ : ResultDescriptor d result) :
      MethodDescriptor ("(" ++ ds ++ ")" ++ d) kinds result

/-! ## One reading -/

/-- The first letter of a field's descriptor tells its kind. -/
theorem FieldDescriptor.head {d : String} {kind : ValueKind} (h : FieldDescriptor d kind) :
    match kind with
    | .int => d.toList.head? = some 'I' ∨ d.toList.head? = some 'Z'
    | .ref => d.toList.head? = some 'L' ∨ d.toList.head? = some '[' := by
  cases h with
  | int => exact .inl rfl
  | boolean => exact .inr rfl
  | object name => exact .inl (by rw [String.append_assoc, String.toList_append]; rfl)
  | array _ => exact .inr (by rw [String.toList_append]; rfl)

theorem FieldDescriptor.unique {d : String} {kind other : ValueKind} (h : FieldDescriptor d kind)
    (h' : FieldDescriptor d other) : kind = other := by
  have h := h.head
  have h' := h'.head
  cases kind <;> cases other
  · rfl
  · rcases h with h | h <;> rcases h' with h' | h' <;> simp [h] at h'
  · rcases h with h | h <;> rcases h' with h' | h' <;> simp [h] at h'
  · rfl

/-- A reference's descriptor ends with a semicolon, or with the letter of an array's element. -/
theorem FieldDescriptor.last {d : String} (h : FieldDescriptor d .ref) :
    (∃ front, d.toList.reverse = ';' :: front) ∨ ∃ c front, d.toList.reverse = c :: '[' :: front := by
  generalize hk : ValueKind.ref = kind at h
  induction h with
  | int => cases hk
  | boolean => cases hk
  | object name => exact .inl ⟨name.toList.reverse ++ ['L'], by simp⟩
  | @array d kind element ih =>
    cases kind with
    | int => cases element <;> exact .inr ⟨_, [], rfl⟩
    | ref =>
      rcases ih rfl with ⟨front, hf⟩ | ⟨c, front, hf⟩
      · exact .inl ⟨_, by rw [String.toList_append, List.reverse_append, hf]; rfl⟩
      · exact .inr ⟨_, _, by rw [String.toList_append, List.reverse_append, hf]; rfl⟩

/-- The result of a method, read off its descriptor from behind. -/
def resultFromBehind : List Char → Option ValueKind
  | 'V' :: ')' :: _ => none
  | 'I' :: ')' :: _ => some .int
  | 'Z' :: ')' :: _ => some .int
  | _ => some .ref

theorem ResultDescriptor.fromBehind {d : String} {result : Option ValueKind}
    (h : ResultDescriptor d result) (front : List Char) :
    resultFromBehind (d.toList.reverse ++ ')' :: front) = result := by
  cases h with
  | void => rfl
  | @value d kind field =>
    cases kind with
    | int => cases field <;> rfl
    | ref =>
      rcases field.last with ⟨rest, hr⟩ | ⟨c, rest, hr⟩
      · rw [hr]
        rfl
      · rw [hr, List.cons_append, List.cons_append]
        unfold resultFromBehind
        split <;> simp_all

/-- A method's descriptor leaves no doubt about its result. -/
theorem MethodDescriptor.result_unique {d : String} {kinds others : List ValueKind}
    {result other : Option ValueKind} (h : MethodDescriptor d kinds result)
    (h' : MethodDescriptor d others other) : result = other := by
  have reads : ∀ {d : String} {kinds : List ValueKind} {result : Option ValueKind},
      MethodDescriptor d kinds result → resultFromBehind d.toList.reverse = result := by
    intro d kinds result h
    cases h with
    | @mk ds d _ _ _ result_ =>
      rw [String.toList_append, String.toList_append, List.reverse_append, List.reverse_append]
      exact result_.fromBehind _
  rw [← reads h, reads h']

/-! ## What is spelled -/

section
variable {n : ClassNames}

theorem fieldDescriptor_of_scalar {name : String} (h : name ≠ "void") :
    FieldDescriptor (n.scalarDescriptor name) (Ty.scalar name).kind := by
  unfold ClassNames.scalarDescriptor Ty.kind Ty.isReference Ty.hasPrimitiveName
  by_cases hi : name = "int"
  · subst hi
    exact .int
  by_cases hb : name = "boolean"
  · subst hb
    exact .boolean
  · simp only [Ty.scalar, Bool.false_or, beq_eq_false_iff_ne.mpr hi, beq_eq_false_iff_ne.mpr hb,
      beq_eq_false_iff_ne.mpr h, Bool.not_false, if_true, if_false, Bool.false_eq_true]
    exact .object _

/-- The descriptor of a type stands for the kind of its values. -/
theorem fieldDescriptor_of_descriptor {ty : Ty} {d : String} (h : n.descriptor ty = .ok d)
    (hv : ty.isVoid = false) : FieldDescriptor d ty.kind := by
  have hname : ty.name ≠ "void" := by simpa [Ty.isVoid] using hv
  have scalar := fieldDescriptor_of_scalar (n := n) hname
  unfold ClassNames.descriptor at h
  split at h
  · next ha =>
    rw [hv, if_neg Bool.false_ne_true] at h
    cases h
    have hk : ty.kind = .ref := by simp [Ty.kind, Ty.isReference, ha]
    rw [hk]
    exact .array scalar
  · next ha =>
    cases h
    have hk : ty.kind = (Ty.scalar ty.name).kind := by
      simp [Ty.kind, Ty.isReference, Ty.hasPrimitiveName, Ty.scalar, ha]
    rw [hk]
    exact scalar

/-- What is spelled for a parameter is what is spelled for its type. There are no arrays of `void`. -/
theorem paramDescriptor_eq_ok {ty : Ty} {d : String} :
    n.paramDescriptor ty = .ok d ↔ ty.isVoid = false ∧ n.descriptor ty = .ok d := by
  unfold ClassNames.paramDescriptor ClassNames.descriptor
  cases ty.isVoid <;> cases ty.isArray <;> simp

theorem parameterDescriptors_of_mapM {params : List Ty} {ds : List String}
    (h : params.mapM n.paramDescriptor = .ok ds) :
    ParameterDescriptors (String.join ds) (params.map Ty.kind) := by
  induction params generalizing ds with
  | nil =>
    cases h
    exact .nil
  | cons ty rest ih =>
    rw [List.mapM_cons] at h
    obtain ⟨d, hd, h⟩ := bind_eq_ok.mp h
    obtain ⟨ds, hds, h⟩ := bind_eq_ok.mp h
    cases h
    rw [String.join_cons]
    obtain ⟨hv, hd⟩ := paramDescriptor_eq_ok.mp hd
    exact .cons (fieldDescriptor_of_descriptor hd hv) (ih hds)

/-- The descriptor of a method stands for the kinds of its types. -/
theorem methodDescriptor_of_methodDescriptor {params : List Ty} {result : Ty} {d : String}
    (h : n.methodDescriptor params result = .ok d) :
    MethodDescriptor d (params.map Ty.kind) result.resultKind? := by
  obtain ⟨ds, hds, h⟩ := bind_eq_ok.mp h
  obtain ⟨r, hr, h⟩ := bind_eq_ok.mp h
  cases h
  refine .mk (parameterDescriptors_of_mapM hds) ?_
  unfold Ty.resultKind?
  split
  · next hv =>
    unfold ClassNames.descriptor at hr
    rw [hv] at hr
    split at hr
    · cases hr
    · cases hr
      have hname : result.name = "void" := by simpa [Ty.isVoid] using hv
      rw [hname]
      exact .void
  · next hv => exact .value (fieldDescriptor_of_descriptor hr (by simpa using hv))

end

end JavaMinus.Jvm
