import Mathlib.Data.List.Nodup
import Mathlib.Data.List.TakeWhile
import JavaMinus.Jvm.ClassNames
import JavaMinus.SymbolTable

/-!
# Qualified names

The path of a class is found by the end of its text: an import offers a name if it is the name, or ends
with a dot and the name. For a name without dots that is the same as having the name as last segment
(`offers_iff`), whatever empty segments or leading dots the import has. So of the imports whose last
segment is the name the longest is taken, and a name that is no last segment stays as it is; and if no
two imports share a last segment, their order does not matter (`ClassNames.qualify_of_segments`).

The name of the class itself and `String` are not looked for among the imports.
-/

namespace JavaMinus

/-- A last segment has no dots. -/
theorem dotFree_simpleName (dotted : String) : '.' ∉ (simpleName dotted).toList := by
  intro h
  rw [simpleName, String.toList_ofList, List.mem_reverse] at h
  simpa using List.mem_takeWhile_imp h

/-- The characters up to the last dot, and those behind it. -/
theorem toList_eq_simpleName (dotted : String) : dotted.toList = (simpleName dotted).toList ∨
    ∃ front, dotted.toList = front ++ '.' :: (simpleName dotted).toList := by
  have parts := List.takeWhile_append_dropWhile (p := (· != '.')) (l := dotted.toList.reverse)
  have last : (simpleName dotted).toList = (dotted.toList.reverse.takeWhile (· != '.')).reverse :=
    String.toList_ofList
  cases hrest : dotted.toList.reverse.dropWhile (· != '.') with
  | nil =>
    left
    rw [hrest, List.append_nil] at parts
    rw [last, parts, List.reverse_reverse]
  | cons c rest =>
    right
    have dot : c = '.' := by
      have := List.head?_dropWhile_not (· != '.') dotted.toList.reverse
      rw [hrest] at this
      simpa using this
    rw [hrest, dot] at parts
    refine ⟨rest.reverse, ?_⟩
    have reversed := congrArg List.reverse parts
    rw [List.reverse_reverse, List.reverse_append, List.reverse_cons, List.append_assoc] at reversed
    rw [last]
    exact reversed.symm

/-- Behind a dot, characters without dots are the last segment. -/
theorem simpleName_of_toList {name dotted : String} {front : List Char}
    (dotFree : '.' ∉ name.toList) (h : dotted.toList = front ++ '.' :: name.toList) :
    simpleName dotted = name := by
  have all : ∀ c ∈ name.toList.reverse, (c != '.') = true := by
    intro c hc
    have mem := List.mem_reverse.mp hc
    exact bne_iff_ne.mpr fun heq => dotFree (heq ▸ mem)
  have reversed : dotted.toList.reverse = name.toList.reverse ++ '.' :: front.reverse := by simp [h]
  rw [simpleName, reversed, List.takeWhile_append_of_pos all]
  simp

/-- A name without dots is its own last segment. -/
theorem simpleName_of_dotFree {name : String} (dotFree : '.' ∉ name.toList) :
    simpleName name = name := by
  rcases toList_eq_simpleName name with h | ⟨front, h⟩
  · exact (String.toList_inj.mp h).symm
  · exact absurd (by rw [h]; simp) dotFree

namespace Jvm

/-- To offer a name without dots is to have it as last segment. -/
theorem offers_iff {name dotted : String} (dotFree : '.' ∉ name.toList) :
    offers name dotted = true ↔ simpleName dotted = name := by
  rw [offers, Bool.or_eq_true, beq_iff_eq, List.isSuffixOf_iff_suffix]
  constructor
  · rintro (rfl | ⟨front, h⟩)
    · exact simpleName_of_dotFree dotFree
    · exact simpleName_of_toList dotFree h.symm
  · rintro rfl
    rcases toList_eq_simpleName dotted with h | ⟨front, h⟩
    · exact .inl (String.toList_inj.mp h)
    · exact .inr ⟨front, h.symm⟩

theorem toList_slashed (dotted : String) :
    (slashed dotted).toList = dotted.toList.map fun c => if c = '.' then '/' else c :=
  String.toList_map

/-! ## The longest -/

theorem longest_eq_none {names : List String} (h : longest names = none) : names = [] := by
  cases names with
  | nil => rfl
  | cons n rest =>
    rw [longest] at h
    split at h
    · split at h <;> cases h
    · cases h

/-- The longest of given names is one of them, and none of them is longer. -/
theorem longest_eq_some {names : List String} {m : String} (h : longest names = some m) :
    m ∈ names ∧ ∀ other ∈ names, other.utf8ByteSize ≤ m.utf8ByteSize := by
  induction names generalizing m with
  | nil => cases h
  | cons n rest ih =>
    rw [longest] at h
    split at h
    · next l hl =>
      obtain ⟨mem, most⟩ := ih hl
      split at h
      · next hle =>
        cases h
        exact ⟨List.mem_cons_of_mem _ mem, List.forall_mem_cons.mpr ⟨hle, most⟩⟩
      · next hlt =>
        cases h
        refine ⟨List.mem_cons_self, List.forall_mem_cons.mpr ⟨Nat.le_refl _, fun o ho => ?_⟩⟩
        have := most o ho
        omega
    · next hl =>
      cases h
      obtain rfl := longest_eq_none hl
      simp

namespace ClassNames

variable {n : ClassNames} {name : String}

/-- An import has a name as its last segment, and no longer import has. -/
structure Offered (n : ClassNames) (name dotted : String) : Prop where
  mem : dotted ∈ n.imports
  segment : simpleName dotted = name
  most : ∀ other ∈ n.imports, simpleName other = name → other.utf8ByteSize ≤ dotted.utf8ByteSize

theorem qualify_of_ne (other : name ≠ n.className) (string : name ≠ "String") :
    n.qualify name = ((longest (n.imports.filter (offers name))).map slashed).getD name := by
  rw [qualify, if_neg (by simpa using other), if_neg (by simpa using string)]

/-- A name that is the last segment of no import stays as it is. -/
theorem qualify_eq_self (other : name ≠ n.className) (string : name ≠ "String")
    (dotFree : '.' ∉ name.toList) (h : ∀ i ∈ n.imports, simpleName i ≠ name) :
    n.qualify name = name := by
  have none : n.imports.filter (offers name) = [] :=
    List.filter_eq_nil_iff.mpr fun i hi hoffers => h i hi ((offers_iff dotFree).mp hoffers)
  rw [qualify_of_ne other string, none]
  rfl

/-- A name that is a last segment stands for the longest import that ends with it. -/
theorem qualify_eq_slashed (other : name ≠ n.className) (string : name ≠ "String")
    (dotFree : '.' ∉ name.toList) (h : ∃ i ∈ n.imports, simpleName i = name) :
    ∃ i, n.Offered name i ∧ n.qualify name = slashed i := by
  obtain ⟨i, hi, segment⟩ := h
  rw [qualify_of_ne other string]
  cases hl : longest (n.imports.filter (offers name)) with
  | none =>
    have mem : i ∈ n.imports.filter (offers name) :=
      List.mem_filter.mpr ⟨hi, (offers_iff dotFree).mpr segment⟩
    rw [longest_eq_none hl] at mem
    cases mem
  | some m =>
    obtain ⟨mem, most⟩ := longest_eq_some hl
    obtain ⟨mem, hoffers⟩ := List.mem_filter.mp mem
    exact ⟨m, ⟨mem, (offers_iff dotFree).mp hoffers, fun other ho hs =>
      most other (List.mem_filter.mpr ⟨ho, (offers_iff dotFree).mpr hs⟩)⟩, rfl⟩

/-- If no two imports share a last segment, each is what its last segment stands for. -/
theorem qualify_simpleName {i : String} (nodup : (n.imports.map simpleName).Nodup)
    (hi : i ∈ n.imports) (other : simpleName i ≠ n.className) (string : simpleName i ≠ "String") :
    n.qualify (simpleName i) = slashed i := by
  obtain ⟨j, hj, hqualify⟩ := qualify_eq_slashed other string (dotFree_simpleName i) ⟨i, hi, rfl⟩
  rw [hqualify, List.inj_on_of_nodup_map nodup hj.mem hi hj.segment]

/-- **Qualification by last segments.** A name without dots, other than that of the class and `String`,
stays as it is if it is no import's last segment, and stands for the longest import with that last
segment otherwise. If no two imports share a last segment, it stands for the same in any order of
them. -/
theorem qualify_of_segments (n : ClassNames) {name : String} (other : name ≠ n.className)
    (string : name ≠ "String") (dotFree : '.' ∉ name.toList) :
    ((∀ i ∈ n.imports, simpleName i ≠ name) → n.qualify name = name) ∧
    ((∃ i ∈ n.imports, simpleName i = name) →
      ∃ i, n.Offered name i ∧ n.qualify name = slashed i) ∧
    ((n.imports.map simpleName).Nodup → ∀ imports : List String, imports.Perm n.imports →
      qualify ⟨n.className, imports⟩ name = n.qualify name) := by
  refine ⟨qualify_eq_self other string dotFree, qualify_eq_slashed other string dotFree,
    fun nodup imports perm => ?_⟩
  by_cases h : ∃ i ∈ n.imports, simpleName i = name
  · obtain ⟨i, hi, segment⟩ := h
    obtain ⟨j, hj, hqualify⟩ := qualify_eq_slashed other string dotFree ⟨i, hi, segment⟩
    obtain ⟨k, hk, hqualify'⟩ := qualify_eq_slashed (n := ⟨n.className, imports⟩) other string dotFree
      ⟨i, perm.mem_iff.mpr hi, segment⟩
    have same : k = j := List.inj_on_of_nodup_map nodup (perm.mem_iff.mp hk.mem) hj.mem
      (hk.segment.trans hj.segment.symm)
    rw [hqualify, hqualify', same]
  · have none (i : String) (hi : i ∈ n.imports) : simpleName i ≠ name := fun hs => h ⟨i, hi, hs⟩
    rw [qualify_eq_self other string dotFree none]
    exact qualify_eq_self other string dotFree fun i hi => none i (perm.mem_iff.mp hi)

/-- Imports that look alike: only one of them has `List` as its last segment. -/
def shelfNames : ClassNames where
  className := "Main"
  imports := ["util.ArrayList", "java.util.List", "List.io", "List."]

/-- The list is the one of the library, in this order of the imports and in any other. -/
theorem qualify_of_segments_list : "List" ≠ shelfNames.className ∧ "List" ≠ "String" ∧
    '.' ∉ "List".toList ∧ (shelfNames.imports.map simpleName).Nodup ∧
    shelfNames.qualify "List" = "java/util/List" ∧
    qualify ⟨"Main", shelfNames.imports.reverse⟩ "List" = shelfNames.qualify "List" := by
  have other : "List" ≠ shelfNames.className := by decide
  have string : "List" ≠ "String" := by decide
  have dotFree : '.' ∉ "List".toList := by decide
  have nodup : (shelfNames.imports.map simpleName).Nodup := by decide
  obtain ⟨-, found, order⟩ := qualify_of_segments shelfNames other string dotFree
  have offered : "java.util.List" ∈ shelfNames.imports := by decide
  obtain ⟨i, hi, hqualify⟩ := found ⟨_, offered, by decide⟩
  obtain rfl : i = "java.util.List" :=
    List.inj_on_of_nodup_map nodup hi.mem offered (hi.segment.trans (by decide))
  have path : slashed "java.util.List" = "java/util/List" :=
    String.toList_inj.mp ((toList_slashed _).trans (by decide))
  exact ⟨other, string, dotFree, nodup, hqualify.trans path,
    order nodup _ (List.reverse_perm _)⟩

end ClassNames

end Jvm

end JavaMinus
