import JavaMinus.Tac.ClassUnit

/-!
# Where labels are

A method keeps a label map beside its code. The map of a method without code is empty, and it stays
right when an instruction is pushed (`Method.Indexed.push`) and when code is added
(`Method.Indexed.extend`): it has every placed label once, with the last index at which the label is
placed. Where no label is placed twice, the map says where each label stands
(`Method.Indexed.labelIndex?_eq_some`), and it lists the labels in order.
-/

namespace JavaMinus

/-- Names that are numbered differ with their numbers. -/
theorem numbered_inj {pre : String} {n k : Nat} (h : pre ++ toString n = pre ++ toString k) :
    n = k := by
  have hdigits : Nat.toDigits 10 n = Nat.toDigits 10 k := by
    rw [← Nat.toList_repr, ← Nat.toList_repr]
    exact congrArg String.toList ((String.append_right_inj pre).mp h)
  rw [← Nat.ofDigitChars_ten_toDigits (n := n), hdigits, Nat.ofDigitChars_ten_toDigits]

/-- Where a partial function takes no value twice along a list, it takes each at one index only. -/
theorem index_unique {α β : Type} {f : α → Option β} {l : List α} (h : (l.filterMap f).Nodup)
    {i j : Nat} {a b : α} {c : β} (hi : l[i]? = some a) (hj : l[j]? = some b) (ha : f a = some c)
    (hb : f b = some c) : i = j := by
  induction l generalizing i j with
  | nil => cases hi
  | cons d l ih =>
    -- The value is not taken at the head and behind it.
    have apart : ∀ {k : Nat} {e : α}, l[k]? = some e → f e = some c → f d ≠ some c := by
      intro k e hk he hd
      rw [List.filterMap_cons_some hd] at h
      exact (List.nodup_cons.mp h).1 (List.mem_filterMap.mpr ⟨e, List.mem_of_getElem? hk, he⟩)
    have htail : (l.filterMap f).Nodup := by
      cases hd : f d with
      | none => rwa [List.filterMap_cons_none hd] at h
      | some c' =>
        rw [List.filterMap_cons_some hd] at h
        exact (List.nodup_cons.mp h).2
    cases i with
    | zero =>
      cases j with
      | zero => rfl
      | succ j =>
        cases hi
        exact absurd ha (apart hj hb)
    | succ i =>
      cases j with
      | zero =>
        cases hj
        exact absurd hb (apart hi ha)
      | succ j => rw [ih htail hi hj]

namespace Tac

/-- The labels that code places, in order. -/
def labelsOf (code : List Instr) : List String := code.filterMap Instr.label?

theorem labelsOf_cons (i : Instr) (rest : List Instr) :
    labelsOf (i :: rest) = i.label?.toList ++ labelsOf rest := by
  cases hi : i.label? with
  | none => exact List.filterMap_cons_none hi
  | some name => exact List.filterMap_cons_some hi

theorem Instr.label?_eq_some {i : Instr} {name : String} : i.label? = some name ↔ i = .label name := by
  cases i <;> simp [label?]

/-- The index is the last one at which an instruction stands in code. -/
def LastAt (code : List Instr) (i : Instr) (k : Nat) : Prop :=
  code[k]? = some i ∧ ∀ j, k < j → code[j]? ≠ some i

section
variable {code : List Instr} {i other : Instr} {k : Nat}

/-- What stands at the end of code stands there last. -/
theorem lastAt_concat_self : LastAt (code ++ [i]) i k ↔ k = code.length := by
  constructor
  · rintro ⟨hk, hlast⟩
    have hle : code.length ≤ k := by
      refine Nat.le_of_not_lt fun hlt => hlast code.length hlt List.getElem?_concat_length
    have hlt : k < (code ++ [i]).length := (List.getElem?_eq_some_iff.mp hk).1
    rw [List.length_append, List.length_singleton] at hlt
    omega
  · rintro rfl
    refine ⟨List.getElem?_concat_length, fun j hj => ?_⟩
    rw [List.getElem?_eq_none (by rw [List.length_append, List.length_singleton]; omega)]
    nofun

/-- Another instruction at the end of code changes nothing. -/
theorem lastAt_concat_of_ne (h : i ≠ other) : LastAt (code ++ [i]) other k ↔ LastAt code other k := by
  have same (j : Nat) : (code ++ [i])[j]? = some other ↔ code[j]? = some other := by
    rcases Nat.lt_trichotomy j code.length with hj | rfl | hj
    · rw [List.getElem?_append_left hj]
    · simp [h]
    · rw [List.getElem?_eq_none (Nat.le_of_lt hj), List.getElem?_eq_none]
      rw [List.length_append, List.length_singleton]
      exact hj
  unfold LastAt
  simp only [same, ne_eq]

/-- Where no label is placed twice, each place of a label is its last one. -/
theorem lastAt_label {name : String} (once : (labelsOf code).Nodup) :
    LastAt code (.label name) k ↔ code[k]? = some (.label name) :=
  ⟨And.left, fun h => ⟨h, fun j hj hj' => by
    have := index_unique once hj' h rfl rfl
    omega⟩⟩

end

namespace LabelMap

variable {labels : LabelMap} {name other : String} {k index : Nat}

theorem mem_set : (other, k) ∈ labels.set name index ↔
    ((other, k) ∈ labels ∧ other ≠ name) ∨ (other = name ∧ k = index) := by
  simp [set]

/-- A label that is set stands last in the map. -/
theorem keys_set : (labels.set name index).map Prod.fst =
    (labels.map Prod.fst).filter (· != name) ++ [name] := by
  rw [set, List.map_append, List.filter_map]
  rfl

/-- A map that has each label once gives the index that stands beside it. -/
theorem lookup_eq_some (once : (labels.map Prod.fst).Nodup) :
    labels.lookup name = some k ↔ (name, k) ∈ labels := by
  rw [List.lookup_eq_some_iff]
  constructor
  · rintro ⟨before, after, rfl, -⟩
    simp
  · intro h
    obtain ⟨before, after, rfl⟩ := List.append_of_mem h
    refine ⟨before, after, rfl, fun p hp => ?_⟩
    rw [List.map_append, List.nodup_append] at once
    have hne : p.1 ≠ name := once.2.2 p.1 (List.mem_map_of_mem hp) name (by simp)
    simpa using hne.symm

end LabelMap

namespace Method

variable {m : Method} {name : String} {k : Nat}

@[simp] theorem push_code (m : Method) (i : Instr) : (m.push i).code = m.code ++ [i] := rfl

@[simp] theorem extend_nil (m : Method) : m.extend [] = m := rfl

@[simp] theorem extend_cons (m : Method) (i : Instr) (rest : List Instr) :
    m.extend (i :: rest) = (m.push i).extend rest := rfl

theorem extend_append (m : Method) (code rest : List Instr) :
    m.extend (code ++ rest) = (m.extend code).extend rest :=
  List.foldl_append

/-- Only the code of a method and its label map change when code is added. -/
theorem extend_eq (m : Method) (code : List Instr) : m.extend code =
    { m with code := m.code ++ code, labels := m.labels.placeAll m.code.length code } := by
  induction code generalizing m with
  | nil => simp [LabelMap.placeAll]
  | cons i rest ih =>
    rw [extend_cons, ih, LabelMap.placeAll]
    simp [push]

@[simp] theorem extend_code (m : Method) (code : List Instr) :
    (m.extend code).code = m.code ++ code := by rw [extend_eq]

@[simp] theorem extend_name (m : Method) (code : List Instr) : (m.extend code).name = m.name := by
  rw [extend_eq]

@[simp] theorem extend_isStatic (m : Method) (code : List Instr) :
    (m.extend code).isStatic = m.isStatic := by rw [extend_eq]

@[simp] theorem extend_params (m : Method) (code : List Instr) :
    (m.extend code).params = m.params := by rw [extend_eq]

@[simp] theorem extend_returnTy (m : Method) (code : List Instr) :
    (m.extend code).returnTy = m.returnTy := by rw [extend_eq]

@[simp] theorem constructor_params (self : Ty) : (constructor self).params = [] := rfl

/-- The label map of a method has every placed label once, with the last index at which the label is
placed. Where no label is placed twice, the labels are in order. -/
structure Indexed (m : Method) : Prop where
  keys : (m.labels.map Prod.fst).Nodup
  mem : ∀ {name : String} {k : Nat}, (name, k) ∈ m.labels ↔ LastAt m.code (.label name) k
  order : (labelsOf m.code).Nodup → m.labels.map Prod.fst = labelsOf m.code

/-- Without code there is nothing to say. -/
theorem indexed_of_nil (hcode : m.code = []) (hlabels : m.labels = []) : m.Indexed where
  keys := by rw [hlabels]; exact List.nodup_nil
  mem := by simp [hcode, hlabels, LastAt]
  order _ := by rw [hcode, hlabels]; rfl

/-- An instruction that is no label leaves the map as it is. -/
theorem Indexed.push_of_label?_eq_none (h : m.Indexed) {i : Instr} (hi : i.label? = none) :
    (m.push i).Indexed := by
  have hlabels : (m.push i).labels = m.labels := by
    show m.labels.place m.code.length i = _
    rw [LabelMap.place, hi]
  have hcode : labelsOf (m.push i).code = labelsOf m.code := by
    rw [push_code, labelsOf, List.filterMap_append, List.filterMap_cons_none hi]
    exact List.append_nil _
  have other (name : String) : i ≠ .label name := by
    rintro rfl
    cases hi
  refine ⟨?_, ?_, ?_⟩
  · rw [hlabels]
    exact h.keys
  · intro name k
    rw [hlabels, h.mem, push_code, lastAt_concat_of_ne (other name)]
  · rw [hcode, hlabels]
    exact h.order

/-- A label that is pushed stands last, and has its index in the map. -/
theorem Indexed.push_label (h : m.Indexed) (placed : String) : (m.push (.label placed)).Indexed := by
  have hlabels : (m.push (.label placed)).labels = m.labels.set placed m.code.length := rfl
  have hcode : labelsOf (m.push (.label placed)).code = labelsOf m.code ++ [placed] := by
    rw [push_code, labelsOf, List.filterMap_append]
    rfl
  refine ⟨?_, ?_, fun once => ?_⟩
  · rw [hlabels, LabelMap.keys_set, List.nodup_append]
    exact ⟨h.keys.filter _, by simp, by simp⟩
  · intro name k
    rw [hlabels, LabelMap.mem_set, h.mem, push_code]
    by_cases hname : name = placed
    · subst hname
      simp [lastAt_concat_self]
    · have other : Instr.label placed ≠ .label name := fun h => hname (Instr.label.inj h).symm
      simp [lastAt_concat_of_ne other, hname]
  · rw [hcode] at once ⊢
    obtain ⟨once, -, fresh⟩ := List.nodup_append.mp once
    rw [hlabels, LabelMap.keys_set, h.order once, List.filter_eq_self.mpr]
    intro name hname
    simpa using fresh name hname placed (by simp)

/-- The map stays right when an instruction is pushed. -/
theorem Indexed.push (h : m.Indexed) (i : Instr) : (m.push i).Indexed := by
  cases hi : i.label? with
  | none => exact h.push_of_label?_eq_none hi
  | some placed =>
    obtain rfl := Instr.label?_eq_some.mp hi
    exact h.push_label placed

/-- The map stays right when code is added. -/
theorem Indexed.extend (h : m.Indexed) (code : List Instr) : (m.extend code).Indexed := by
  induction code generalizing m with
  | nil => exact h
  | cons i rest ih => exact ih (h.push i)

/-- The label map of the constructor is right. -/
theorem indexed_constructor (self : Ty) : (constructor self).Indexed :=
  ((indexed_of_nil rfl rfl).push _).push _

/-- The label map says where a label stands. -/
theorem Indexed.labelIndex?_placed (h : m.Indexed) (hk : m.labelIndex? name = some k) :
    m.code[k]? = some (.label name) :=
  (h.mem.mp ((LabelMap.lookup_eq_some h.keys).mp hk)).1

/-- Where no label is placed twice, a label is found where it stands. -/
theorem Indexed.labelIndex?_eq_some (h : m.Indexed) (once : (labelsOf m.code).Nodup) :
    m.labelIndex? name = some k ↔ m.code[k]? = some (.label name) := by
  rw [← lastAt_label once, ← h.mem]
  exact LabelMap.lookup_eq_some h.keys

end Method

end Tac

end JavaMinus
