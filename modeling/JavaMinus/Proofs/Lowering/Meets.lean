import JavaMinus.Proofs.Tac.Typed

/-!
# What lowering computations guarantee

`Lower.Meets` is the one judgment about lowering computations: started where the temporaries so far
have the given types, a computation fails only for the size of an array, and otherwise it yields a
value of the given property and writes typed code. The property sees the types of all temporaries
drawn so far, so a fact about an operand carries over to what is lowered after it.

`names` is a property of type names that every temporary's type has. With the property that always
holds nothing is said about names; with "is not `void`" the same proofs say that no temporary is
`void`.
-/

namespace JavaMinus

open Tac

namespace Lower

/-- Started with temporaries of types `temps`, the computation yields a value of property `Q` and
writes typed code, or fails for the size of an array. -/
def Meets {α : Type} (names : String → Prop) (s : Scope) (temps : List Ty) (x : Lower α)
    (Q : List Ty → α → Prop) : Prop :=
  (∀ ty ∈ temps, names ty.name) → ∀ c : Counters, c.temps = temps.length →
    match x.run c with
    | .done a code c' => ∃ more, temps <+: more ∧ c'.temps = more.length ∧
        (∀ ty ∈ more, names ty.name) ∧ Q more a ∧ Code.Typed s more code
    | .failed e _ => e = .literalTooLarge

variable {α β : Type} {names : String → Prop} {s : Scope} {temps : List Ty}
  {x : Lower α} {f : α → Lower β} {Q Q' : List Ty → α → Prop} {R : List Ty → β → Prop}

theorem Meets.mono (h : x.Meets names s temps Q) (hq : ∀ more a, temps <+: more →
    (∀ ty ∈ more, names ty.name) → Q more a → Q' more a) : x.Meets names s temps Q' := by
  intro hn c hc
  have hx := h hn c hc
  revert hx
  cases x.run c with
  | failed e c' => exact id
  | done a code c' =>
    rintro ⟨more, hp, hl, hm, ha, ht⟩
    exact ⟨more, hp, hl, hm, hq more a hp hm ha, ht⟩

theorem meets_pure {a : α} (h : (∀ ty ∈ temps, names ty.name) → Q temps a) :
    (pure a : Lower α).Meets names s temps Q :=
  fun hn _ hc => ⟨temps, List.prefix_rfl, hc, hn, h hn, .nil⟩

theorem Meets.bind (hx : x.Meets names s temps Q) (hf : ∀ more a, temps <+: more →
    (∀ ty ∈ more, names ty.name) → Q more a → (f a).Meets names s more R) :
    (x >>= f).Meets names s temps R := by
  intro hn c hc
  have h := hx hn c hc
  rw [run_bind]
  revert h
  cases x.run c with
  | failed e c' => exact id
  | done a code c' =>
    rintro ⟨more, hp, hl, hm, ha, ht⟩
    have h := hf more a hp hm ha hm c' hl
    revert h
    dsimp only
    cases (f a).run c' with
    | failed e c'' => exact id
    | done b code' c'' =>
      rintro ⟨most, hp', hl', hm', hb, ht'⟩
      exact ⟨most, hp.trans hp', hl', hm', hb, (ht.mono hp').append ht'⟩

theorem meets_emit {i : Instr} {Q : List Ty → Unit → Prop} (h : i.Typed s temps)
    (hq : (∀ ty ∈ temps, names ty.name) → Q temps ()) : (emit i).Meets names s temps Q :=
  fun hn _ hc => ⟨temps, List.prefix_rfl, hc, hn, hq hn, .instr h .nil⟩

/-- A fresh temporary has its type from now on. -/
theorem meets_fresh {ty : Ty} {Q : List Ty → Operand → Prop} (hty : names ty.name)
    (h : ∀ more id, temps <+: more → (∀ ty ∈ more, names ty.name) →
      (Operand.temp id ty.plain).Typed s more → Q more (.temp id ty.plain)) :
    (fresh ty).Meets names s temps Q := by
  intro hn c hc
  have hm : ∀ t ∈ temps ++ [ty.plain], names t.name := by
    intro t ht
    rcases List.mem_append.mp ht with ht | ht
    · exact hn t ht
    · rw [List.mem_singleton.mp ht]
      exact hty
  have ht : (Operand.temp c.temps ty.plain).Typed s (temps ++ [ty.plain]) :=
    .temp (by rw [hc, List.getElem?_concat_length])
  exact ⟨temps ++ [ty.plain], List.prefix_append _ _, by simp [hc], hm,
    h _ _ (List.prefix_append _ _) hm ht, .nil⟩

theorem meets_fail : (fail .literalTooLarge : Lower α).Meets names s temps Q :=
  fun _ _ _ => rfl

/-- Drawing the number of a statement changes no temporary. -/
theorem meets_freshBranch {Q : List Ty → Nat → Prop} (h : ∀ n, Q temps n) :
    freshBranch.Meets names s temps Q :=
  fun hn c hc => ⟨temps, List.prefix_rfl, hc, hn, h c.branches, .nil⟩

theorem meets_freshLoop {Q : List Ty → Nat → Prop} (h : ∀ n, Q temps n) :
    freshLoop.Meets names s temps Q :=
  fun hn c hc => ⟨temps, List.prefix_rfl, hc, hn, h c.loops, .nil⟩

theorem meets_ofTyping {o : Except TypeError α} {a : α} (ho : o = .ok a)
    (h : (∀ ty ∈ temps, names ty.name) → Q temps a) : (ofTyping o).Meets names s temps Q := by
  subst ho
  exact meets_pure h

theorem meets_ofOption {e : LoweringError} {o : Option α} {a : α} (ho : o = some a)
    (h : (∀ ty ∈ temps, names ty.name) → Q temps a) : (ofOption e o).Meets names s temps Q := by
  subst ho
  exact meets_pure h

/-- A temporary filled by a typed instruction. -/
theorem meets_intoFresh {ty : Ty} {instr : Operand → Instr} (hty : names ty.name)
    (h : ∀ more id, temps <+: more → (Operand.temp id ty.plain).Typed s more →
      (instr (.temp id ty.plain)).Typed s more) :
    (intoFresh ty instr).Meets names s temps fun more o => o.Typed s more ∧ o.ty = ty.plain := by
  refine Meets.bind (meets_fresh hty
    (Q := fun more o => ∃ id, o = .temp id ty.plain ∧ o.Typed s more ∧ (instr o).Typed s more)
    fun more id hp _ ht => ⟨id, rfl, ht, h more id hp ht⟩) ?_
  rintro more o - - ⟨id, rfl, ht, hi⟩
  refine Meets.bind (meets_emit hi (Q := fun more _ => (Operand.temp id ty.plain).Typed s more)
    fun _ => ht) ?_
  rintro more' - - - ht'
  exact meets_pure fun _ => ⟨ht', rfl⟩

end Lower

end JavaMinus
