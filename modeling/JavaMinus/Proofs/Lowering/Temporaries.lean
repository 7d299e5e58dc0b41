import JavaMinus.Proofs.Lowering.Program
import JavaMinus.Proofs.Tac.Temporaries
import JavaMinus.Syntax.Build

/-!
# Temporaries are in single-assignment form

Lowering draws the number of a temporary right in front of the instruction that defines it, so the
definitions of a class, read through all its methods, are numbered from zero in order
(`Lower.Numbers`). And it reads an operand before the next jump or label is written, so every use has
its definition in front of it, in straight code (`Program.temporaries_of_lower`). Both hold of every
program that is lowered, checked or not, against any table.

`Lower.Defines` is the judgment that carries both through lowering: run where some temporaries are at
hand, a computation numbers what it defines and uses only what is at hand. The code of an expression
keeps what was at hand, and adds what its operand needs (`Lower.Yields`).
-/

namespace JavaMinus

open Tac Lower

namespace Lower

/-- The temporaries that code defines are those that the counter numbered on the way. -/
def Numbers (c : Counters) (code : List Instr) (c' : Counters) : Prop :=
  List.range c.temps ++ (definitions code).map Prod.fst = List.range c'.temps

theorem Numbers.append {c c₁ c₂ : Counters} {code rest : List Instr} (h : Numbers c code c₁)
    (h' : Numbers c₁ rest c₂) : Numbers c (code ++ rest) c₂ := by
  unfold Numbers at h h' ⊢
  rw [definitions_append, List.map_append, ← List.append_assoc, h, h']

theorem numbers_nil {c c' : Counters} (h : c'.temps = c.temps) : Numbers c [] c' := by
  unfold Numbers
  rw [h]
  exact List.append_nil _

/-- The one instruction that a number is drawn for. -/
theorem numbers_defined {c : Counters} {i : Instr} {ty : Ty} (h : i.defined? = some (c.temps, ty)) :
    Numbers c [i] { c with temps := c.temps + 1 } := by
  have hdef : definitions [i] = [(c.temps, ty)] := List.filterMap_cons_some h
  unfold Numbers
  rw [hdef, List.range_succ]
  rfl

/-- Run where the temporaries `live` are at hand, the computation numbers what it defines, uses what is
at hand only, and yields a value of property `Q` of what is at hand behind it. -/
def Defines {α : Type} (live : List Temp) (x : Lower α) (Q : List Temp → α → Prop) : Prop :=
  ∀ c a code c', x.run c = .done a code c' →
    Numbers c code c' ∧ ∃ there, UsesAtHand live code there ∧ Q there a

/-- What was at hand stays at hand, and so are the temporaries of the value. -/
abbrev Yields {α : Type} (live : List Temp) (x : Lower α) (temps : α → List Temp) : Prop :=
  x.Defines live fun there a => live ⊆ there ∧ temps a ⊆ there

variable {α β : Type} {live : List Temp} {x : Lower α} {f : α → Lower β}
  {Q Q' : List Temp → α → Prop} {R : List Temp → β → Prop} {s : Scope}

theorem Defines.mono (h : x.Defines live Q) (hq : ∀ there a, Q there a → Q' there a) :
    x.Defines live Q' := by
  intro c a code c' hrun
  obtain ⟨hn, there, hu, ha⟩ := h c a code c' hrun
  exact ⟨hn, there, hu, hq there a ha⟩

theorem Defines.bind (hx : x.Defines live Q) (hf : ∀ there a, Q there a → (f a).Defines there R) :
    (x >>= f).Defines live R := by
  intro c b code c' hrun
  obtain ⟨a, code₁, c₁, code₂, h₁, h₂, rfl⟩ := run_bind_eq_done.mp hrun
  obtain ⟨hn, there, hu, ha⟩ := hx _ _ _ _ h₁
  obtain ⟨hn', next, hu', hb⟩ := hf there a ha _ _ _ _ h₂
  exact ⟨hn.append hn', next, hu.append hu', hb⟩

theorem defines_pure {a : α} (h : Q live a) : (pure a : Lower α).Defines live Q := by
  intro c b code c' hrun
  cases hrun
  exact ⟨numbers_nil rfl, live, .nil live, h⟩

theorem defines_fail (e : LoweringError) : (fail e : Lower α).Defines live Q := by
  intro c a code c' hrun
  cases hrun

theorem defines_fail_bind (e : LoweringError) : (fail e >>= f).Defines live R := by
  intro c b code c' hrun
  obtain ⟨_, _, _, _, h, -, -⟩ := run_bind_eq_done.mp hrun
  cases h

theorem defines_ofTyping {o : Except TypeError α} (h : ∀ a, Q live a) :
    (ofTyping o).Defines live Q := by
  cases o with
  | ok a => exact defines_pure (h a)
  | error e => exact defines_fail _

theorem defines_ofOption {e : LoweringError} {o : Option α} (h : ∀ a, o = some a → Q live a) :
    (ofOption e o).Defines live Q := by
  cases o with
  | some a => exact defines_pure (h a rfl)
  | none => exact defines_fail e

/-- An instruction that defines no temporary. -/
theorem defines_emit {i : Instr} {Q : List Temp → Unit → Prop} (hi : i.defined? = none)
    (stores : i.StoresPlainly) (uses : i.used ⊆ live) (h : Q (i.atHand live) ()) :
    (emit i).Defines live Q := by
  intro c a code c' hrun
  cases hrun
  have hnone : definitions [i] = [] := List.filterMap_cons_none hi
  refine ⟨?_, i.atHand live, .single stores uses, h⟩
  unfold Numbers
  rw [hnone]
  exact List.append_nil _

/-- An instruction that stores into no temporary and passes control on leaves what is at hand. -/
theorem atHand_of_straight {i : Instr} (hi : i.defined? = none) (straight : i.isStraight = true) :
    i.atHand live = live := by
  rw [Instr.atHand, if_pos straight, hi]
  rfl

/-- A temporary is drawn, and the next instruction defines it. -/
theorem defines_fresh {ty : Ty} {i : Operand → Instr} {f : Operand → Lower β}
    (dest : ∀ d, (i d).dest? = some d) (straight : ∀ d, (i d).isStraight = true)
    (uses : ∀ d, (i d).used ⊆ live)
    (h : ∀ id, (f (.temp id ty.plain)).Defines ((id, ty.plain) :: live) R) :
    (fresh ty >>= fun d => emit (i d) >>= fun _ => f d).Defines live R := by
  intro c b code c' hrun
  obtain ⟨d, _, c₁, rest, hd, hrest, rfl⟩ := run_bind_eq_done.mp hrun
  cases hd
  obtain ⟨_, _, _, more, hi, hmore, rfl⟩ := run_bind_eq_done.mp hrest
  cases hi
  have hdefined : (i (.temp c.temps ty.plain)).defined? = some (c.temps, ty.plain) := by
    rw [Instr.defined?, dest]
  have hatHand : (i (.temp c.temps ty.plain)).atHand live = (c.temps, ty.plain) :: live := by
    rw [Instr.atHand, if_pos (straight _), hdefined]
    rfl
  obtain ⟨hn, there, hu, hb⟩ := h c.temps _ _ _ _ hmore
  refine ⟨(numbers_defined hdefined).append hn, there, .cons ?_ (uses _) (hatHand ▸ hu), hb⟩
  intro d hd
  rw [dest] at hd
  cases hd
  rfl

/-- Drawing the number of a statement changes no temporary. -/
theorem defines_freshBranch {Q : List Temp → Nat → Prop} (h : ∀ n, Q live n) :
    freshBranch.Defines live Q := by
  intro c a code c' hrun
  cases hrun
  exact ⟨numbers_nil rfl, live, .nil live, h _⟩

theorem defines_freshLoop {Q : List Temp → Nat → Prop} (h : ∀ n, Q live n) :
    freshLoop.Defines live Q := by
  intro c a code c' hrun
  cases hrun
  exact ⟨numbers_nil rfl, live, .nil live, h _⟩

/-! ## Parts of expressions -/

variable {temps : α → List Temp} {more : β → List Temp}

/-- What one computation has at hand, the next one keeps. -/
theorem Defines.thenYields (hx : x.Yields live temps)
    (hf : ∀ there a, live ⊆ there → temps a ⊆ there → (f a).Yields there more) :
    (x >>= f).Yields live more :=
  Defines.bind hx fun there a ha => (hf there a ha.1 ha.2).mono fun _ _ hb =>
    ⟨List.Subset.trans ha.1 hb.1, hb.2⟩

theorem yields_pure {a : α} (h : temps a ⊆ live) : (pure a : Lower α).Yields live temps :=
  defines_pure ⟨List.Subset.refl live, h⟩

/-- The outcome of inference mentions no temporary. -/
theorem yields_ofTyping (o : Except TypeError α) : (ofTyping o).Yields live fun _ => [] :=
  defines_ofTyping fun _ => ⟨List.Subset.refl live, List.nil_subset _⟩

theorem yields_ofOption (e : LoweringError) (o : Option α) : (ofOption e o).Yields live fun _ => [] :=
  defines_ofOption fun _ _ => ⟨List.Subset.refl live, List.nil_subset _⟩

/-- An instruction that only reads. -/
theorem yields_emit {i : Instr} (hi : i.dest? = none) (straight : i.isStraight = true)
    (uses : i.used ⊆ live) : (emit i).Yields live fun _ => [] := by
  have hdefined : i.defined? = none := by rw [Instr.defined?, hi]
  refine defines_emit hdefined (Instr.storesPlainly_of_none hi) uses ⟨?_, List.nil_subset _⟩
  rw [atHand_of_straight hdefined straight]
  exact List.Subset.refl live

theorem yields_intoFresh {ty : Ty} {i : Operand → Instr} (dest : ∀ d, (i d).dest? = some d)
    (straight : ∀ d, (i d).isStraight = true) (uses : ∀ d, (i d).used ⊆ live) :
    (intoFresh ty i).Yields live Operand.temps :=
  defines_fresh dest straight uses fun id =>
    defines_pure ⟨List.subset_cons_self _ _, by simp [Operand.temps]⟩

theorem yields_readVariable (s : Scope) (name : String) :
    (readVariable s name).Yields live Operand.temps := by
  unfold readVariable
  refine Defines.thenYields (yields_ofOption _ _) fun there v _ _ => ?_
  split
  · exact yields_intoFresh (fun _ => rfl) (fun _ => rfl) fun _ => List.nil_subset _
  · exact yields_pure (List.nil_subset _)

theorem yields_storeAll {array : Operand} : ∀ {values : List Operand} {index : Nat} {live : List Temp},
    array.temps ⊆ live → values.flatMap Operand.temps ⊆ live →
    (storeAll array index values).Yields live fun _ => []
  | [], _, _, _, _ => yields_pure (List.nil_subset _)
  | value :: rest, index, live, ha, hv => by
    obtain ⟨hvalue, hrest⟩ := List.append_subset.mp hv
    have uses : (Instr.arrayStore array (.int (Int32.ofNat index)) value).used ⊆ live := by
      simp [Instr.used, Instr.sources, Operand.temps, Operand.int, ha, hvalue]
    exact Defines.thenYields (yields_emit rfl rfl uses) fun there _ hle _ =>
      yields_storeAll (List.Subset.trans ha hle) (List.Subset.trans hrest hle)

theorem yields_packArray {element : Ty} {values : List Operand}
    (hv : values.flatMap Operand.temps ⊆ live) :
    (packArray element values).Yields live Operand.temps := by
  have packs : (do
      let array ← intoFresh (Ty.array element.name) fun dest =>
        .newArray dest (.int (Int32.ofNat values.length)) element
      storeAll array 0 values
      return array : Lower Operand).Yields live Operand.temps :=
    Defines.thenYields (yields_intoFresh (fun _ => rfl) (fun _ => rfl) fun _ => List.nil_subset _)
      fun there array hle ha => Defines.thenYields (yields_storeAll ha (List.Subset.trans hv hle))
        fun next _ hle' _ => yields_pure (List.Subset.trans ha hle')
  unfold packArray
  split
  · exact defines_fail_bind _
  · exact packs

theorem yields_settleBefore {operand : Operand} (ho : operand.temps ⊆ live) (next : Expr) :
    (settleBefore operand next).Yields live Operand.temps := by
  unfold settleBefore
  split
  · exact yields_intoFresh (fun _ => rfl) (fun _ => rfl) fun _ => by
      simpa [Instr.used, Instr.sources] using ho
  · exact yields_pure ho

theorem yields_elementAt {site : Site} {array index : Operand} (ha : array.temps ⊆ live)
    (hi : index.temps ⊆ live) : (elementAt site array index).Yields live Operand.temps := by
  unfold elementAt
  refine Defines.thenYields (yields_ofOption _ _) fun there ty hle _ => ?_
  have uses : (Operand.element array index ty).temps ⊆ there :=
    List.append_subset.mpr ⟨List.Subset.trans ha hle, List.Subset.trans hi hle⟩
  dsimp only
  split
  · exact yields_intoFresh (fun _ => rfl) (fun _ => rfl) fun _ => by
      simpa [Instr.used, Instr.sources] using uses
  · exact yields_pure uses

theorem yields_allocate (className : String) : (allocate className).Yields live Operand.temps :=
  defines_fresh (fun _ => rfl) (fun _ => rfl) (fun _ => List.nil_subset _) fun id => by
    have hdest : (Operand.temp id (Ty.scalar className).plain).temps ⊆
        (id, (Ty.scalar className).plain) :: live := by simp [Operand.temps]
    refine (Defines.thenYields (yields_emit rfl rfl ?_) fun there _ hle _ =>
      yields_pure (List.Subset.trans hdest hle)).mono fun there o ho =>
        ⟨List.Subset.trans (List.subset_cons_self _ _) ho.1, ho.2⟩
    simp [Instr.used, Instr.sources, Operand.temps]

/-- An operand settled in front of the next one is at hand behind it. -/
theorem yields_pair {op : BinaryOp} {left right : Expr} {lowerLeft lowerRight : Site → Lower Operand}
    (hl : ∀ site live, (lowerLeft site).Yields live Operand.temps)
    (hr : ∀ site live, (lowerRight site).Yields live Operand.temps) :
    (pair s op left right lowerLeft lowerRight).Yields live fun p => p.1.temps ++ p.2.temps := by
  unfold pair
  refine Defines.thenYields (yields_ofTyping _) fun _ sites _ _ => ?_
  refine Defines.thenYields (hl _ _) fun _ l _ hlt => ?_
  refine Defines.thenYields (yields_settleBefore hlt right) fun _ l _ hlt => ?_
  refine Defines.thenYields (hr _ _) fun _ r hle hrt => ?_
  exact yields_pure (List.append_subset.mpr ⟨List.Subset.trans hlt hle, hrt⟩)

/-- Packed arguments are at hand with those in front of them. -/
theorem yields_packVarargs {m : Signature} {method : String} {args : List Operand}
    (ha : args.flatMap Operand.temps ⊆ live) :
    (packVarargs s m method args).Yields live fun os => os.flatMap Operand.temps := by
  unfold packVarargs
  split
  · exact yields_pure ha
  · split
    · exact yields_pure ha
    · split
      · split
        · exact yields_pure ha
        · exact defines_fail _
      · next varargs _ _ _ =>
        rw [← List.take_append_drop m.fixedCount args, List.flatMap_append] at ha
        obtain ⟨hfront, hback⟩ := List.append_subset.mp ha
        refine Defines.thenYields (yields_ofOption _ _) fun there element hle _ => ?_
        refine Defines.thenYields (yields_packArray (List.Subset.trans hback hle))
          fun next packed hle' hp => ?_
        refine yields_pure ?_
        rw [List.flatMap_append, List.flatMap_singleton]
        exact List.append_subset.mpr ⟨List.Subset.trans (List.Subset.trans hfront hle) hle', hp⟩

theorem yields_receiver {target : CallTarget} {object : Lower Operand}
    (ho : ∀ live, object.Yields live Operand.temps) :
    (receiver s target object).Yields live Operand.temps := by
  unfold receiver
  split
  · exact yields_pure (List.nil_subset _)
  · split
    · exact yields_pure (List.nil_subset _)
    · exact ho live
  · exact ho live

/-- The temporaries of the result of a call, where it has one. -/
def resultTemps (o : Option Operand) : List Temp := o.toList.flatMap Operand.temps

theorem yields_pass {target : CallTarget} {method : String} {values : List Operand}
    (hvalues : values.flatMap Operand.temps ⊆ live) :
    (pass s target method values).Yields live fun os => os.flatMap Operand.temps := by
  cases target with
  | declared m => exact yields_packVarargs hvalues
  | _ => exact yields_pure hvalues

theorem yields_invoke {site : Site} {method : String} {target : CallTarget} {on : Operand}
    {values : List Operand} (hon : on.temps ⊆ live) (hvalues : values.flatMap Operand.temps ⊆ live) :
    (invoke site method target on values).Yields live resultTemps := by
  have uses : on.temps ++ values.flatMap Operand.temps ⊆ live := List.append_subset.mpr ⟨hon, hvalues⟩
  unfold invoke
  split
  · exact defines_fresh (fun _ => rfl) (fun _ => rfl) (fun _ => uses) fun id =>
      defines_pure ⟨List.subset_cons_self _ _, by simp [resultTemps, Operand.temps]⟩
  · exact Defines.thenYields (yields_emit rfl rfl uses) fun _ _ _ _ =>
      yields_pure (List.nil_subset _)

theorem yields_callCode {site : Site} {method : String} {target : Except TypeError CallTarget}
    {object : Lower Operand} {args : (Nat → Site) → Lower (List Operand)}
    (ho : ∀ live, object.Yields live Operand.temps)
    (ha : ∀ sites live, (args sites).Yields live fun os => os.flatMap Operand.temps) :
    (callCode s site method target object args).Yields live resultTemps := by
  rw [callCode_eq]
  refine Defines.thenYields (yields_ofTyping _) fun _ target _ _ => ?_
  refine Defines.thenYields (yields_receiver ho) fun _ on _ hon => ?_
  refine Defines.thenYields (ha _ _) fun _ values hle hvalues => ?_
  have hon := List.Subset.trans hon hle
  exact Defines.thenYields (yields_pass hvalues) fun _ passed hle hpassed =>
    yields_invoke (List.Subset.trans hon hle) hpassed

end Lower

/-! ## Expressions -/

mutual
/-- The code of an expression uses what is at hand, and leaves its operand at hand. -/
theorem Expr.lower_yields (s : Scope) :
    ∀ (e : Expr) (site : Site) (live : List Temp), (e.lower s site).Yields live Operand.temps
  | .intLit .., _, _ => yields_pure (List.nil_subset _)
  | .boolLit .., _, _ => yields_pure (List.nil_subset _)
  | .ident name _, _, _ => yields_readVariable s name
  | .self _, _, _ => yields_pure (List.nil_subset _)
  | .binary op left right _, _, _ => by
    refine Defines.thenYields (yields_pair (fun site live => lower_yields s left site live)
      fun site live => lower_yields s right site live) fun there p _ hp => ?_
    exact yields_intoFresh (fun _ => rfl) (fun _ => rfl) fun _ => by
      simpa [Instr.used, Instr.sources] using hp
  | .not operand _, _, live =>
    Defines.thenYields (lower_yields s operand _ live) fun there value _ hv =>
      yields_intoFresh (fun _ => rfl) (fun _ => rfl) fun _ => by
        simpa [Instr.used, Instr.sources] using hv
  | .arrayLit elements _, site, _ => by
    refine Defines.thenYields (yields_ofTyping _) fun _ ty _ _ => ?_
    refine Defines.thenYields (yields_ofOption _ _) fun _ element _ _ => ?_
    exact Defines.thenYields (lowerAll_yields s elements _ 0 _) fun _ values _ hv =>
      yields_packArray hv
  | .index array place _, site, live => by
    refine Defines.thenYields (lower_yields s array _ live) fun there a _ ha => ?_
    exact Defines.thenYields (lower_yields s place _ there) fun _ i hle hi =>
      yields_elementAt (List.Subset.trans ha hle) hi
  | .newArray _ length _, _, live =>
    Defines.thenYields (lower_yields s length _ live) fun there n _ hn =>
      yields_intoFresh (fun _ => rfl) (fun _ => rfl) fun _ => by
        simpa [Instr.used, Instr.sources] using hn
  | .newObject className _, _, _ => yields_allocate className
  | .member object property _, _, live => by
    unfold lower
    split
    · exact defines_fail _
    · exact Defines.thenYields (lower_yields s object _ live) fun there a _ ha =>
        yields_intoFresh (fun _ => rfl) (fun _ => rfl) fun _ => by
          simpa [Instr.used, Instr.sources] using ha
  | .call receiver _ args _, _, live => by
    refine Defines.thenYields (yields_callCode (fun live => lower_yields s receiver _ live)
      fun sites live => lowerAll_yields s args sites 0 live) fun there result _ hr => ?_
    refine defines_ofOption fun o ho => ⟨List.Subset.refl there, ?_⟩
    simpa [resultTemps, ho] using hr
  | .paren inner _, site, live => lower_yields s inner site live
/-- So does the code of expressions one after another. -/
theorem Expr.lowerAll_yields (s : Scope) :
    ∀ (es : List Expr) (sites : Nat → Site) (i : Nat) (live : List Temp),
      (Expr.lowerAll s sites i es).Yields live fun os => os.flatMap Operand.temps
  | [], _, _, _ => yields_pure (List.nil_subset _)
  | e :: es, sites, i, live =>
    Defines.thenYields (lower_yields s e _ live) fun there _ _ hv =>
      Defines.thenYields (lowerAll_yields s es sites (i + 1) there) fun _ _ hle hvs =>
        yields_pure (List.append_subset.mpr ⟨List.Subset.trans hv hle, hvs⟩)
end

theorem Expr.lowerDiscarded_yields (s : Scope) (e : Expr) (live : List Temp) :
    (e.lowerDiscarded s).Yields live fun _ => [] := by
  unfold lowerDiscarded
  split
  · next receiver _ args _ _ =>
    exact Defines.thenYields (yields_callCode (fun live => lower_yields s receiver _ live)
      fun sites live => lowerAll_yields s args sites 0 live) fun _ _ _ _ =>
        yields_pure (List.nil_subset _)
  · exact Defines.thenYields (lower_yields s _ _ live) fun _ _ _ _ => yields_pure (List.nil_subset _)

/-! ## Statements -/

namespace Lower

/-- The computation defines its temporaries, whatever is at hand in front of it. -/
abbrev DefinesAnywhere (x : Lower Unit) : Prop := ∀ live, x.Defines live fun _ _ => True

variable {s : Scope} {live : List Temp}

/-- A last instruction uses what is at hand in front of it. -/
theorem defines_last {i : Instr} (hi : i.dest? = none) (uses : i.used ⊆ live) :
    (emit i).Defines live fun _ _ => True :=
  defines_emit (by rw [Instr.defined?, hi]) (Instr.storesPlainly_of_none hi) uses trivial

theorem defines_jump (target : String) : (emit (.jump target)).DefinesAnywhere :=
  fun _ => defines_last rfl (List.nil_subset _)

theorem defines_label (name : String) : (emit (.label name)).DefinesAnywhere :=
  fun _ => defines_last rfl (List.nil_subset _)

/-- What follows a computation defines its temporaries whatever the computation left at hand. -/
theorem DefinesAnywhere.seq {x y : Lower Unit} (hx : x.DefinesAnywhere) (hy : y.DefinesAnywhere) :
    (x >>= fun _ => y).DefinesAnywhere :=
  fun live => (hx live).bind fun there _ _ => hy there

theorem defines_assign (s : Scope) (name : String) (value : Expr) :
    (assign s name value).DefinesAnywhere := by
  intro live
  unfold assign
  refine Defines.bind (yields_ofOption _ _) fun there v _ => ?_
  refine Defines.bind (value.lower_yields s _ there) fun next operand ho => ?_
  split
  · exact defines_last rfl (by simpa [Instr.used, Instr.sources, self, Operand.temps] using ho.2)
  · refine defines_emit rfl (fun d hd => ?_) (by simpa [Instr.used, Instr.sources] using ho.2) trivial
    cases hd
    rfl

theorem defines_assignElement (s : Scope) (name : String) (index value : Expr) :
    (assignElement s name index value).DefinesAnywhere := by
  intro live
  have stores : ∀ (array : Operand) (element : Ty) (live : List Temp), array.temps ⊆ live → (do
      let i ← index.lower s (.wanting Ty.int)
      let operand ← value.lower s (.assigned element)
      emit (.arrayStore array i operand) : Lower Unit).Defines live fun _ _ => True := by
    intro array element live ha
    refine Defines.bind (index.lower_yields s _ live) fun there i hi => ?_
    refine Defines.bind (value.lower_yields s _ there) fun next v hv => ?_
    refine defines_last rfl ?_
    simp only [Instr.used, Instr.sources, List.flatMap_cons, List.flatMap_nil, List.append_nil]
    exact List.append_subset.mpr ⟨List.Subset.trans (List.Subset.trans ha hi.1) hv.1,
      List.append_subset.mpr ⟨List.Subset.trans hi.2 hv.1, hv.2⟩⟩
  unfold assignElement
  refine Defines.bind (yields_ofOption _ _) fun there v _ => ?_
  refine Defines.bind (yields_ofOption _ _) fun there element _ => ?_
  split
  · exact Defines.bind (yields_intoFresh (fun _ => rfl) (fun _ => rfl) fun _ => List.nil_subset _)
      fun next array ha => stores array element next ha.2
  · refine Defines.bind (Q := fun there array => array.temps ⊆ there)
      (defines_pure (List.nil_subset _)) fun next array ha => stores array element next ha

theorem defines_ret (s : Scope) (value : Option Expr) : (ret s value).DefinesAnywhere := by
  intro live
  cases value with
  | none => exact defines_last rfl (List.nil_subset _)
  | some e =>
    refine Defines.bind (e.lower_yields s _ live) fun there o ho => ?_
    exact defines_last rfl (by simpa [Instr.used, Instr.sources] using ho.2)

/-- A condition is computed in straight code up to its jump. -/
theorem defines_condition (s : Scope) (e : Expr) (target : String) :
    (e.lowerCondition s target).DefinesAnywhere := by
  intro live
  have jump : ∀ (test : Condition) (there : List Temp),
      test.operands.flatMap Operand.temps ⊆ there →
      (emit (.branch test target)).Defines there fun _ _ => True :=
    fun _ _ h => defines_last rfl h
  have value : (do
      let o ← e.lower s (.wanting Ty.boolean)
      let test ← pure (Condition.truthy o)
      emit (.branch test target) : Lower Unit).Defines live fun _ _ => True := by
    refine Defines.bind (e.lower_yields s _ live) fun there o ho => ?_
    refine Defines.bind (Q := fun there test => test.operands.flatMap Operand.temps ⊆ there)
      (defines_pure ?_) fun next test ht => jump test next ht
    simpa [Condition.operands] using ho.2
  unfold Expr.lowerCondition
  split
  · next op left right _ _ =>
    split
    · refine Defines.bind (yields_pair (fun site live => left.lower_yields s site live)
        fun site live => right.lower_yields s site live) fun there p hp => ?_
      refine Defines.bind (Q := fun there test => test.operands.flatMap Operand.temps ⊆ there)
        (defines_pure ?_) fun next test ht => jump test next ht
      simpa [Condition.operands] using hp.2
    · exact value
  · exact value

theorem defines_branch {condition : Expr} {thenPart elsePart : Lower Unit}
    (ht : thenPart.DefinesAnywhere) (he : elsePart.DefinesAnywhere) :
    (branch s condition thenPart elsePart).DefinesAnywhere := by
  intro live
  refine Defines.bind (defines_freshBranch (Q := fun _ _ => True) fun _ => trivial) fun there n _ => ?_
  exact ((defines_condition s condition _).seq (he.seq ((defines_jump _).seq ((defines_label _).seq
    (ht.seq (defines_label _)))))) there

theorem defines_loop {condition : Expr} {body : Lower Unit} (hb : body.DefinesAnywhere) :
    (loop s condition body).DefinesAnywhere := by
  intro live
  refine Defines.bind (defines_freshLoop (Q := fun _ _ => True) fun _ => trivial) fun there n _ => ?_
  exact ((defines_label _).seq ((defines_condition s condition _).seq ((defines_jump _).seq
    ((defines_label _).seq (hb.seq ((defines_jump _).seq (defines_label _))))))) there

end Lower

mutual
/-- The code of a statement defines its temporaries. -/
theorem Stmt.lower_defines (s : Scope) : ∀ stmt : Stmt, (stmt.lower s).DefinesAnywhere
  | .block body _ => lowerAll_defines s body
  | .branch _ thenBranch none _ =>
    defines_branch (lower_defines s thenBranch) fun _ => defines_pure trivial
  | .branch _ thenBranch (some elseBranch) _ =>
    defines_branch (lower_defines s thenBranch) (lower_defines s elseBranch)
  | .loop _ body _ => defines_loop (lower_defines s body)
  | .expr e _ => fun live => (e.lowerDiscarded_yields s live).mono fun _ _ _ => trivial
  | .assign name value _ => defines_assign s name value
  | .assignElement name index value _ => defines_assignElement s name index value
  | .ret value _ => defines_ret s value
/-- So does the code of statements one after another. -/
theorem Stmt.lowerAll_defines (s : Scope) : ∀ body : List Stmt, (Stmt.lowerAll s body).DefinesAnywhere
  | [] => fun _ => defines_pure trivial
  | stmt :: rest => (lower_defines s stmt).seq (lowerAll_defines s rest)
end

/-! ## Methods and classes -/

/-- The code of a method numbers and defines its temporaries. -/
theorem MethodDecl.numbers_of_lower {t : SymbolTable} {policy : Policy} {signature : Signature}
    {d : MethodDecl} {m : Method} {c c' : Counters} {code : List Instr}
    (h : (d.lower t policy signature).run c = .done m code c') :
    Numbers c m.code c' ∧ m.DefinesTemps := by
  obtain ⟨body, closing, hbody, hm, hclosing⟩ := lower_eq_done h
  have hcode : m.code = body ++ closing := by rw [hm, Scope.code_extend]
  obtain ⟨hn, there, hu, -⟩ := Stmt.lowerAll_defines _ _ [] _ _ _ _ hbody
  have closes : Numbers c' closing c' ∧ ∃ next, UsesAtHand there closing next := by
    rcases hclosing with ⟨rfl, -⟩ | ⟨rfl, -⟩
    · exact ⟨numbers_nil rfl, there, .nil there⟩
    · obtain ⟨hn, next, hu, -⟩ := defines_ret ⟨t, signature, policy⟩ none there c' () _ _ rfl
      exact ⟨hn, next, hu⟩
  obtain ⟨hclosed, next, hnext⟩ := closes
  have hu := hu.append hnext
  rw [← hcode] at hu
  refine ⟨hcode ▸ hn.append hclosed, Method.definesTemps_of_usesAtHand (fun o ho => ?_) hu⟩
  rw [hm, Method.extend_params] at ho
  obtain ⟨p, -, rfl⟩ := List.mem_map.mp ho
  rfl

/-- The constructor has no temporaries. -/
theorem Tac.Method.definesTemps_constructor (self : Ty) : (Method.constructor self).DefinesTemps := by
  have call : UsesAtHand [] (Method.constructor self).code [] :=
    .cons (Instr.storesPlainly_of_none rfl) (List.nil_subset _)
      (.single (Instr.storesPlainly_of_none rfl) (List.nil_subset _))
  exact definesTemps_of_usesAtHand (List.forall_mem_nil _) call

/-- **Temporaries are in single-assignment form.** The temporaries that the methods of a lowered program
define, read in order, are numbered from zero to what the counter comes to, each once, and every method
defines the temporaries that it mentions, in straight code in front of every use. The program need not
be accepted, and the table is any. -/
theorem Program.temporaries_of_lower {p : Program} {t : SymbolTable} {policy : Policy}
    {c c' : Counters} {unit : ClassUnit} {code : List Instr}
    (h : (p.lower t policy).run c = .done unit code c') :
    (definitions (unit.methods.flatMap Method.code)).map Prod.fst = List.range c'.temps ∧
      ∀ m ∈ unit.methods, m.DefinesTemps := by
  obtain ⟨methods, _, hlowered, hmethods⟩ := lower_eq_done h
  obtain ⟨hn, hdefines⟩ := lowerMethods_chained (P := Method.DefinesTemps) (fun _ => numbers_nil rfl)
    Numbers.append MethodDecl.numbers_of_lower p.classDecl.methods 0 hlowered
  rw [hmethods]
  exact ⟨hn, List.forall_mem_cons.mpr ⟨Method.definesTemps_constructor _, hdefines⟩⟩

/-- A program that goes through an array and adds its last element and the index. -/
def lastSum : Program where
  classDecl := {
    name := "Rows"
    methods := [{
      name := "lastSum"
      returnType := .scalar .int
      params := [⟨"row", .array .int, {}⟩, ⟨"i", .scalar .int, {}⟩]
      body := [
        Build.loop (Build.binary .lt (Build.ident "i") (Build.length (Build.ident "row")))
          (Build.assign "i" (Build.binary .add (Build.ident "i") (Build.int 1))),
        Build.ret (Build.binary .add
          (Build.index (Build.ident "row") (Build.binary .sub (Build.ident "i") (Build.int 1)))
          (Build.ident "i"))] }] }

/-- It defines four temporaries; the third is the index of an element that the fourth is computed from. -/
theorem Program.temporaries_of_lower_lastSum : ∃ unit c',
    (lastSum.lower lastSum.symbolTable {}).run {} = .done unit [] c' ∧ c'.temps = 4 ∧
      (definitions (unit.methods.flatMap Method.code)).map Prod.fst = List.range c'.temps ∧
        ∀ m ∈ unit.methods, m.DefinesTemps := by
  obtain ⟨unit, c', h, hc⟩ : ∃ unit c',
      (lastSum.lower lastSum.symbolTable {}).run {} = .done unit [] c' ∧ c'.temps = 4 :=
    ⟨_, _, rfl, rfl⟩
  exact ⟨unit, c', h, hc, temporaries_of_lower h⟩

end JavaMinus
