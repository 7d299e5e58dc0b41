import JavaMinus.Proofs.Lowering.Always

/-!
# Temporaries in code

A temporary is defined where it is a destination and used where it is read, also as the array or the
index of an element. Reading code from its start, the temporaries **at hand** are those that were
defined since the last jump, label or return. Code that uses only temporaries that are at hand
(`UsesAtHand`) uses each of them behind its definition, and control runs straight from the definition
to the use (`UsesAtHand.definedBefore`). So the definition is on every path to the use, whatever the
rest of the code is.
-/

namespace JavaMinus.Tac

/-- A temporary as it is mentioned: its number and its type. -/
abbrev Temp := Nat × Ty

/-- The temporaries in an operand. Those of an array element are the array's and the index's. -/
def Operand.temps : Operand → List Temp
  | .temp id ty => [(id, ty)]
  | .element array index _ => array.temps ++ index.temps
  | _ => []

namespace Instr

/-- The temporary that the instruction defines. -/
def defined? (i : Instr) : Option Temp :=
  match i.dest? with
  | some (.temp id ty) => some (id, ty)
  | _ => none

/-- The temporaries that the instruction uses. -/
def used (i : Instr) : List Temp := i.sources.flatMap Operand.temps

/-- What the instruction gives a value, if anything, is a temporary or a variable. -/
def StoresPlainly (i : Instr) : Prop := ∀ d, i.dest? = some d → d.isStorage = true

theorem storesPlainly_of_none {i : Instr} (h : i.dest? = none) : i.StoresPlainly := by
  intro d hd
  rw [h] at hd
  cases hd

/-- The temporaries at hand behind the instruction. -/
def atHand (i : Instr) (live : List Temp) : List Temp :=
  if i.isStraight then i.defined?.toList ++ live else []

/-- All temporaries that an instruction mentions it defines or uses. -/
theorem mem_temps_of_storesPlainly {i : Instr} (h : i.StoresPlainly) {o : Operand}
    (ho : o ∈ i.operands) {t : Temp} (ht : t ∈ o.temps) : i.defined? = some t ∨ t ∈ i.used := by
  rcases List.mem_append.mp ho with ho | ho
  · have hd : i.dest? = some o := by simpa using ho
    cases o with
    | temp id ty =>
      rw [Operand.temps, List.mem_singleton] at ht
      exact .inl (by rw [defined?, hd, ht])
    | var name ty => cases ht
    | _ => cases h _ hd
  · exact .inr (List.mem_flatMap.mpr ⟨o, ho, ht⟩)

end Instr

/-- The temporaries that code defines, in order. -/
def definitions (code : List Instr) : List Temp := code.filterMap Instr.defined?

theorem definitions_append (code rest : List Instr) :
    definitions (code ++ rest) = definitions code ++ definitions rest := List.filterMap_append

/-- In front of the instruction at an index a temporary is defined, and from there to that instruction
control runs straight: no label, jump or return stands in between. -/
def DefinedBefore (code : List Instr) (k : Nat) (t : Temp) : Prop :=
  ∃ j < k, (∃ i, code[j]? = some i ∧ i.defined? = some t) ∧
    ∀ l, j < l → l < k → ∀ i, code[l]? = some i → i.isStraight = true

theorem DefinedBefore.mem_definitions {code : List Instr} {k : Nat} {t : Temp}
    (h : DefinedBefore code k t) : t ∈ definitions code := by
  obtain ⟨j, -, ⟨i, hi, ht⟩, -⟩ := h
  exact List.mem_filterMap.mpr ⟨i, List.mem_of_getElem? hi, ht⟩

/-- Code that uses only temporaries at hand, with those at hand in front of it and behind it. -/
inductive UsesAtHand : List Temp → List Instr → List Temp → Prop
  | nil (live : List Temp) : UsesAtHand live [] live
  | cons {live there : List Temp} {i : Instr} {rest : List Instr} (stores : i.StoresPlainly)
      (uses : i.used ⊆ live) (tail : UsesAtHand (i.atHand live) rest there) :
      UsesAtHand live (i :: rest) there

namespace UsesAtHand

variable {live there next : List Temp} {code rest : List Instr}

theorem append (h : UsesAtHand live code there) (hr : UsesAtHand there rest next) :
    UsesAtHand live (code ++ rest) next := by
  induction h with
  | nil => exact hr
  | cons stores uses _ ih => exact .cons stores uses (ih hr)

theorem single {i : Instr} (stores : i.StoresPlainly) (uses : i.used ⊆ live) :
    UsesAtHand live [i] (i.atHand live) :=
  .cons stores uses (.nil _)

theorem storesPlainly (h : UsesAtHand live code there) : ∀ i ∈ code, i.StoresPlainly := by
  induction h with
  | nil => exact List.forall_mem_nil _
  | cons stores _ _ ih => exact List.forall_mem_cons.mpr ⟨stores, ih⟩

/-- What is at hand behind an instruction was defined in front of the next one. -/
theorem definedBefore_succ {pre : List Instr} {i : Instr}
    (hpre : ∀ t ∈ live, DefinedBefore (pre ++ i :: rest) pre.length t) :
    ∀ t ∈ i.atHand live, DefinedBefore (pre ++ i :: rest) (pre.length + 1) t := by
  intro t ht
  unfold Instr.atHand at ht
  have here : (pre ++ i :: rest)[pre.length]? = some i := by simp
  split at ht
  · next straight =>
    rcases List.mem_append.mp ht with ht | ht
    · exact ⟨pre.length, Nat.lt_succ_self _, ⟨i, here, by simpa using ht⟩, by omega⟩
    · obtain ⟨j, hj, hdef, hbetween⟩ := hpre t ht
      refine ⟨j, Nat.lt_succ_of_lt hj, hdef, fun l hl hlt k hk => ?_⟩
      rcases Nat.lt_or_ge l pre.length with hlt' | hge
      · exact hbetween l hl hlt' k hk
      · obtain rfl : l = pre.length := by omega
        rw [here] at hk
        cases hk
        exact straight
  · cases ht

/-- Every use of a temporary has its definition in front of it, in straight code. -/
theorem definedBefore (h : UsesAtHand live code there) (pre : List Instr)
    (hpre : ∀ t ∈ live, DefinedBefore (pre ++ code) pre.length t) {k : Nat} {i : Instr}
    (hk : code[k]? = some i) : ∀ t ∈ i.used, DefinedBefore (pre ++ code) (pre.length + k) t := by
  induction h generalizing pre k with
  | nil => cases hk
  | @cons live there first rest stores uses tail ih =>
    cases k with
    | zero =>
      cases hk
      exact fun t ht => hpre t (uses ht)
    | succ k =>
      have shift : pre ++ first :: rest = (pre ++ [first]) ++ rest := by simp
      have hnext := definedBefore_succ hpre
      rw [shift] at hnext ⊢
      have ends := ih (pre ++ [first]) (by rw [List.length_append]; exact hnext) hk
      rw [List.length_append, List.length_singleton, Nat.add_assoc, Nat.add_comm 1] at ends
      exact ends

end UsesAtHand

/-- The temporaries of a method are defined in it: all mentions of one have the type that it is defined
with, and where it is used it was defined before, in straight code. No parameter is a temporary. -/
structure Method.DefinesTemps (m : Method) : Prop where
  params : ∀ o ∈ m.params, o.temps = []
  mentions : ∀ i ∈ m.code, ∀ o ∈ i.operands, ∀ t ∈ o.temps, t ∈ definitions m.code
  uses : ∀ {k : Nat} {i : Instr}, m.code[k]? = some i → ∀ t ∈ i.used, DefinedBefore m.code k t

/-- A method whose code uses only temporaries at hand defines them. -/
theorem Method.definesTemps_of_usesAtHand {m : Method} {there : List Temp}
    (hp : ∀ o ∈ m.params, o.temps = []) (h : UsesAtHand [] m.code there) : m.DefinesTemps := by
  have uses : ∀ {k : Nat} {i : Instr}, m.code[k]? = some i → ∀ t ∈ i.used,
      DefinedBefore m.code k t := by
    intro k i hk t ht
    have hbefore := h.definedBefore [] (fun _ hx => by cases hx) hk t ht
    rw [List.length_nil, Nat.zero_add] at hbefore
    exact hbefore
  refine ⟨hp, fun i hi o ho t ht => ?_, uses⟩
  rcases Instr.mem_temps_of_storesPlainly (h.storesPlainly i hi) ho ht with hdef | huse
  · exact List.mem_filterMap.mpr ⟨i, hi, hdef⟩
  · obtain ⟨k, hk⟩ := List.mem_iff_getElem?.mp hi
    exact (uses hk t huse).mem_definitions

end JavaMinus.Tac
