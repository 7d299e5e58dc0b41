import JavaMinus.Lowering.Program
import JavaMinus.Proofs.Lowering.Packed
import JavaMinus.Proofs.Tac.Renamed
import JavaMinus.Proofs.Typing.Renamed

/-!
# Lowering looks at the names of variables only to keep them

What is lowered under other names is the code with the other names: the temporaries, the labels and the
fields are the same, from the same counters to the same counters (`Expr.lower_rename`,
`Stmt.lower_rename`). Two computations that end so are `Lower.Renamed`. Where one of them stops, the
other stops too; the errors may differ, as they may name a variable.
-/

namespace JavaMinus

open Tac Lower

variable {f : String → String}

/-- Ends of computations, the second with the renamed code of the first. -/
inductive Lowered.Renamed {α β : Type} (f : String → String) (R : α → β → Prop) :
    Lowered α → Lowered β → Prop
  | done {a : α} {b : β} (value : R a b) (code : List Instr) (c : Counters) :
      Renamed f R (.done a code c) (.done b (code.map (Instr.rename f)) c)
  | failed (e e' : LoweringError) (c c' : Counters) : Renamed f R (.failed e c) (.failed e' c')

namespace Lower

variable {α β γ δ : Type}

/-- The second computation writes the renamed code of the first, and their values are related. -/
def Renamed (f : String → String) (R : α → β → Prop) (x : Lower α) (y : Lower β) : Prop :=
  ∀ c, (x.run c).Renamed f R (y.run c)

/-- The second value is the image of the first. -/
abbrev MapsTo (g : α → β) (a : α) (b : β) : Prop := b = g a

variable {R : α → β → Prop} {S : γ → δ → Prop}

theorem Renamed.bind {x : Lower α} {y : Lower β} {k : α → Lower γ} {l : β → Lower δ}
    (hx : Renamed f R x y) (hk : ∀ a b, R a b → Renamed f S (k a) (l b)) :
    Renamed f S (x >>= k) (y >>= l) := by
  intro c
  have first := hx c
  rw [run_bind, run_bind]
  generalize x.run c = here at first ⊢
  generalize y.run c = there at first ⊢
  cases first with
  | failed e e' c c' => exact .failed e e' c c'
  | done value code c =>
    have second := hk _ _ value c
    dsimp only
    generalize (k _).run c = here at second ⊢
    generalize (l _).run c = there at second ⊢
    cases second with
    | failed e e' c c' => exact .failed e e' c c'
    | done value more c =>
      dsimp only
      rw [← List.map_append]
      exact .done value (code ++ more) c

/-- The second computation goes on with the image of what the first one goes on with. -/
theorem Renamed.bind_map {x : Lower α} {y : Lower β} {g : α → β} {k : α → Lower γ}
    {l : β → Lower δ} (hx : Renamed f (MapsTo g) x y) (hk : ∀ a, Renamed f S (k a) (l (g a))) :
    Renamed f S (x >>= k) (y >>= l) := by
  refine hx.bind ?_
  rintro a _ rfl
  exact hk a

theorem renamed_pure {a : α} {b : β} (h : R a b) : Renamed f R (pure a) (pure b) :=
  fun c => .done h [] c

theorem renamed_fail (e e' : LoweringError) : Renamed f R (fail e) (fail e') :=
  fun c => .failed e e' c c

theorem renamed_fail_bind (e e' : LoweringError) (k : α → Lower γ) (l : β → Lower δ) :
    Renamed f S (fail e >>= k) (fail e' >>= l) :=
  fun c => .failed e e' c c

theorem renamed_ofTyping (o : Except TypeError α) :
    Renamed f (MapsTo id) (ofTyping o) (ofTyping o) := by
  cases o with
  | ok a => exact renamed_pure rfl
  | error e => exact renamed_fail (.typing e) (.typing e)

theorem renamed_ofOption (e e' : LoweringError) (o : Option α) :
    Renamed f (MapsTo id) (ofOption e o) (ofOption e' o) := by
  cases o with
  | some a => exact renamed_pure rfl
  | none => exact renamed_fail e e'

theorem renamed_emit (i : Instr) : Renamed f (MapsTo id) (emit i) (emit (i.rename f)) :=
  fun c => .done rfl [i] c

theorem renamed_fresh (ty : Ty) : Renamed f (MapsTo (Operand.rename f)) (fresh ty) (fresh ty) :=
  fun c => Lowered.Renamed.done (R := MapsTo (Operand.rename f)) (a := .temp c.temps ty.plain) rfl []
    { c with temps := c.temps + 1 }

theorem renamed_freshBranch : Renamed f (MapsTo id) freshBranch freshBranch :=
  fun c => .done (R := MapsTo id) (a := c.branches) rfl [] { c with branches := c.branches + 1 }

theorem renamed_freshLoop : Renamed f (MapsTo id) freshLoop freshLoop :=
  fun c => .done (R := MapsTo id) (a := c.loops) rfl [] { c with loops := c.loops + 1 }

theorem renamed_intoFresh {ty : Ty} {instr instr' : Operand → Instr}
    (h : ∀ dest, instr' (dest.rename f) = (instr dest).rename f) :
    Renamed f (MapsTo (Operand.rename f)) (intoFresh ty instr) (intoFresh ty instr') := by
  refine .bind_map (renamed_fresh ty) fun dest => ?_
  refine .bind_map (h dest ▸ renamed_emit (instr dest)) ?_
  exact fun _ => renamed_pure rfl

theorem renamed_storeAll (array : Operand) : ∀ (values : List Operand) (index : Nat),
    Renamed f (MapsTo id) (storeAll array index values)
      (storeAll (array.rename f) index (values.map (Operand.rename f)))
  | [], _ => renamed_pure rfl
  | value :: rest, index =>
    .bind_map (renamed_emit (.arrayStore array (.int (Int32.ofNat index)) value)) fun _ =>
      renamed_storeAll array rest (index + 1)

theorem renamed_packArray (element : Ty) (values : List Operand) :
    Renamed f (MapsTo (Operand.rename f)) (packArray element values)
      (packArray element (values.map (Operand.rename f))) := by
  unfold packArray
  rw [List.length_map]
  split
  · exact renamed_fail_bind _ _ _ _
  · refine .bind_map (renamed_intoFresh fun _ => rfl) fun array => ?_
    exact .bind_map (renamed_storeAll array values 0) fun _ => renamed_pure rfl

end Lower

/-! ## Expressions -/

namespace Expr

mutual
@[simp] theorem containsCall_rename : ∀ e : Expr, (e.rename f).containsCall = e.containsCall
  | .intLit .. | .boolLit .. | .ident .. | .self _ | .newObject .. | .call .. => rfl
  | .binary _ l r _ | .index l r _ => by
    rw [rename, containsCall, containsCall, containsCall_rename l, containsCall_rename r]
  | .not e _ | .newArray _ e _ | .member e _ _ | .paren e _ => by
    rw [rename, containsCall, containsCall, containsCall_rename e]
  | .arrayLit es _ => by rw [rename, containsCall, containsCall, anyContainsCall_renameAll es]
theorem anyContainsCall_renameAll : ∀ es : List Expr,
    anyContainsCall (renameAll f es) = anyContainsCall es
  | [] => rfl
  | e :: es => by
    rw [renameAll, anyContainsCall, anyContainsCall, containsCall_rename e,
      anyContainsCall_renameAll es]
end

end Expr

namespace Lower

variable {s s' : Scope}

theorem self_renamed (h : s.Renamed f s') : Lower.self s' = (Lower.self s).rename f := by
  rw [Lower.self, Lower.self, h.classType, Operand.rename]

/-- A variable keeps its kind: a field is read under its own name. -/
theorem renamed_readVariable (h : s.Renamed f s') {name : String} (hn : s.Keeps f name) :
    Renamed f (MapsTo (Operand.rename f)) (readVariable s name) (readVariable s' (f name)) := by
  unfold readVariable
  rcases h.cases_resolve? hn with ⟨hv, hv', -⟩ | ⟨v, v', hv, hv', hty, hfield, same⟩
  · rw [hv, hv']
    exact renamed_fail_bind _ _ _ _
  · rw [hv, hv', ofOption_some, ofOption_some, pure_bind, pure_bind, hfield, hty]
    split
    · next hf =>
      rw [same hf, self_renamed h]
      exact renamed_intoFresh fun _ => rfl
    · exact renamed_pure rfl

theorem renamed_settleBefore (operand : Operand) (next : Expr) :
    Renamed f (MapsTo (Operand.rename f)) (settleBefore operand next)
      (settleBefore (operand.rename f) (next.rename f)) := by
  unfold settleBefore
  rw [operand.isElement_rename, next.containsCall_rename, operand.ty_rename]
  split
  · exact renamed_intoFresh fun _ => rfl
  · exact renamed_pure rfl

theorem renamed_elementAt (site : Site) (array index : Operand) :
    Renamed f (MapsTo (Operand.rename f)) (elementAt site array index)
      (elementAt site (array.rename f) (index.rename f)) := by
  unfold elementAt elementOf
  rw [array.ty_rename]
  refine .bind_map (renamed_ofOption _ _ _) fun ty => ?_
  dsimp only [id]
  split
  · exact renamed_intoFresh fun _ => rfl
  · exact renamed_pure rfl

theorem renamed_allocate (className : String) :
    Renamed f (MapsTo (Operand.rename f)) (allocate className) (allocate className) := by
  unfold allocate
  refine .bind_map (renamed_fresh _) fun dest => ?_
  refine .bind_map (renamed_emit (.newObject dest className)) fun _ => ?_
  refine .bind_map (renamed_emit (.call none .constructor dest constructorName [] Ty.void)) ?_
  exact fun _ => renamed_pure rfl

theorem operandSites_renamed (h : s.Renamed f s') (op : BinaryOp) {left right : Expr}
    (hl : ∀ x ∈ left.names, s.Keeps f x) (hr : ∀ x ∈ right.names, s.Keeps f x) :
    operandSites s' op (left.rename f) (right.rename f) = operandSites s op left right := by
  rw [operandSites, operandSites, left.isCall_rename, left.infer_rename h _ hl,
    right.infer_rename h _ hr]

theorem renamed_pair (h : s.Renamed f s') {op : BinaryOp} {left right : Expr}
    (hln : ∀ x ∈ left.names, s.Keeps f x) (hrn : ∀ x ∈ right.names, s.Keeps f x)
    {l l' r r' : Site → Lower Operand}
    (hl : ∀ site, Renamed f (MapsTo (Operand.rename f)) (l site) (l' site))
    (hr : ∀ site, Renamed f (MapsTo (Operand.rename f)) (r site) (r' site)) :
    Renamed f (MapsTo (Prod.map (Operand.rename f) (Operand.rename f))) (pair s op left right l r)
      (pair s' op (left.rename f) (right.rename f) l' r') := by
  unfold pair
  rw [operandSites_renamed h op hln hrn]
  refine .bind_map (renamed_ofTyping _) ?_
  rintro ⟨leftSite, rightSite⟩
  refine .bind_map (hl _) fun a => ?_
  refine .bind_map (renamed_settleBefore a right) fun a => ?_
  refine .bind_map (hr _) fun b => ?_
  exact renamed_pure rfl

/-- What a call uses of its target is in the shape of the target. -/
theorem callCode_map_shape (site : Site) (method : String) (target : Except TypeError CallTarget)
    (object : Lower Operand) (args : (Nat → Site) → Lower (List Operand)) :
    callCode s site method (target.map CallTarget.shape) object args =
      callCode s site method target object args := by
  have receivers (target : CallTarget) :
      receiver s target.shape object = receiver s target object := by
    cases target <;> rfl
  have passed (target : CallTarget) (values : List Operand) :
      pass s target.shape method values = pass s target method values := by
    cases target with
    | declared m =>
      show packVarargs s m.shape method values = packVarargs s m method values
      rw [packVarargs, packVarargs, m.varargsParameter?_shape, m.passesVarargsArray_shape,
        m.fixedCount_shape]
      cases m.varargsParameter? <;> rfl
    | _ => rfl
  cases target with
  | error e => rfl
  | ok target =>
    show callCode s site method (.ok target.shape) object args = _
    rw [callCode_ok, callCode_ok]
    simp only [receivers, passed, invoke, target.argumentSite_shape, target.resultType_shape, callKind,
      target.isStatic_shape]

theorem renamed_receiver (h : s.Renamed f s') (target : CallTarget) {object object' : Lower Operand}
    (ho : Renamed f (MapsTo (Operand.rename f)) object object') :
    Renamed f (MapsTo (Operand.rename f)) (receiver s target object) (receiver s' target object') := by
  unfold receiver
  rw [h.className]
  split
  · exact renamed_pure rfl
  · split
    · exact renamed_pure rfl
    · exact ho
  · exact ho

theorem renamed_pass (h : s.Renamed f s') (target : CallTarget) (method : String)
    (values : List Operand) :
    Renamed f (MapsTo (List.map (Operand.rename f))) (pass s target method values)
      (pass s' target method (values.map (Operand.rename f))) := by
  cases target with
  | declared m =>
    show Renamed f _ (packVarargs s m method values) (packVarargs s' m method _)
    unfold packVarargs
    rw [Operand.map_ty_rename, List.length_map, h.trustsSuperclass]
    split
    · exact renamed_pure rfl
    · split
      · exact renamed_pure rfl
      · split
        · split
          · exact renamed_pure rfl
          · exact renamed_fail _ _
        · refine .bind_map (renamed_ofOption _ _ _) fun element => ?_
          rw [← List.map_drop, ← List.map_take]
          refine .bind_map (renamed_packArray _ _) fun packed => ?_
          exact renamed_pure (by rw [MapsTo, List.map_append]; rfl)
  | _ => exact renamed_pure rfl

theorem renamed_invoke (site : Site) (method : String) (target : CallTarget) (on : Operand)
    (values : List Operand) :
    Renamed f (MapsTo (Option.map (Operand.rename f))) (invoke site method target on values)
      (invoke site method target (on.rename f) (values.map (Operand.rename f))) := by
  unfold invoke
  split
  · refine .bind_map (renamed_fresh _) fun dest => ?_
    refine .bind_map (renamed_emit (.call (some dest) (callKind target) on method values _)) ?_
    exact fun _ => renamed_pure rfl
  · refine .bind_map (renamed_emit (.call none (callKind target) on method values _)) ?_
    exact fun _ => renamed_pure rfl

/-- The code of a call is renamed with that of its receiver and its arguments. -/
theorem renamed_callCode (h : s.Renamed f s') {site : Site} {method : String}
    {target target' : Except TypeError CallTarget}
    (ht : target'.map CallTarget.shape = target.map CallTarget.shape)
    {object object' : Lower Operand} {args args' : (Nat → Site) → Lower (List Operand)}
    (ho : Renamed f (MapsTo (Operand.rename f)) object object')
    (ha : ∀ sites, Renamed f (MapsTo (List.map (Operand.rename f))) (args sites) (args' sites)) :
    Renamed f (MapsTo (Option.map (Operand.rename f))) (callCode s site method target object args)
      (callCode s' site method target' object' args') := by
  rw [← callCode_map_shape _ _ target', ht, callCode_map_shape]
  cases target with
  | error e => exact renamed_fail_bind _ _ _ _
  | ok target =>
    rw [callCode_ok, callCode_ok]
    refine .bind_map (renamed_receiver h target ho) fun on => ?_
    refine .bind_map (ha _) fun values => ?_
    exact .bind_map (renamed_pass h target method values) fun passed =>
      renamed_invoke site method target on passed

end Lower

namespace Expr

variable {s s' : Scope}

mutual
/-- An expression has the renamed code under other names. -/
theorem lower_rename (h : s.Renamed f s') : ∀ (e : Expr) (site : Site),
    (∀ x ∈ e.names, s.Keeps f x) →
      Renamed f (MapsTo (Operand.rename f)) (e.lower s site) ((e.rename f).lower s' site)
  | .intLit .., _, _ | .boolLit .., _, _ => renamed_pure rfl
  | .ident name _, _, hn => renamed_readVariable h (hn name List.mem_cons_self)
  | .self _, _, _ => renamed_pure (self_renamed h)
  | .newObject className _, _, _ => renamed_allocate className
  | .binary op left right _, _, hn => by
    obtain ⟨hl, hr⟩ := List.forall_mem_append.mp hn
    rw [rename, lower, lower]
    refine .bind_map (renamed_pair h hl hr (fun site => lower_rename h left site hl) fun site =>
      lower_rename h right site hr) ?_
    rintro ⟨l, r⟩
    exact renamed_intoFresh fun _ => rfl
  | .not e _, _, hn => by
    rw [rename, lower, lower]
    refine .bind_map (lower_rename h e _ hn) fun value => ?_
    exact renamed_intoFresh fun _ => rfl
  | .arrayLit es span, site, hn => by
    have typed := infer_rename h (arrayLit es span) site hn
    rw [rename] at typed
    rw [rename, lower, lower, typed]
    refine .bind_map (renamed_ofTyping _) fun ty => ?_
    refine .bind_map (renamed_ofOption _ _ _) fun element => ?_
    refine .bind_map (lowerAll_rename h es _ 0 hn) fun values => ?_
    exact renamed_packArray _ values
  | .index array place _, site, hn => by
    obtain ⟨ha, hp⟩ := List.forall_mem_append.mp hn
    rw [rename, lower, lower]
    refine .bind_map (lower_rename h array _ ha) fun a => ?_
    refine .bind_map (lower_rename h place _ hp) fun i => ?_
    exact renamed_elementAt site a i
  | .newArray element length _, _, hn => by
    rw [rename, lower, lower]
    refine .bind_map (lower_rename h length _ hn) fun n => ?_
    exact renamed_intoFresh fun _ => rfl
  | .member object property _, _, hn => by
    rw [rename, lower, lower]
    split
    · exact renamed_fail _ _
    · refine .bind_map (lower_rename h object _ hn) fun array => ?_
      exact renamed_intoFresh fun _ => rfl
  | .call receiver method args span, site, hn => by
    obtain ⟨hr, ha⟩ := List.forall_mem_append.mp hn
    rw [rename, lower, lower]
    refine .bind_map (renamed_callCode h (callTarget_rename h receiver method span hr)
      (lower_rename h receiver _ hr) fun sites => lowerAll_rename h args sites 0 ha) fun result => ?_
    cases result with
    | some o => exact renamed_pure rfl
    | none => exact renamed_fail _ _
  | .paren inner _, site, hn => by
    rw [rename, lower, lower]
    exact lower_rename h inner site hn
theorem lowerAll_rename (h : s.Renamed f s') : ∀ (es : List Expr) (sites : Nat → Site) (i : Nat),
    (∀ x ∈ namesAll es, s.Keeps f x) →
      Renamed f (MapsTo (List.map (Operand.rename f))) (lowerAll s sites i es)
        (lowerAll s' sites i (renameAll f es))
  | [], _, _, _ => renamed_pure rfl
  | e :: es, sites, i, hn => by
    obtain ⟨he, hes⟩ := List.forall_mem_append.mp hn
    rw [renameAll, lowerAll, lowerAll]
    refine .bind_map (lower_rename h e _ he) fun value => ?_
    refine .bind_map (lowerAll_rename h es sites (i + 1) hes) fun values => ?_
    exact renamed_pure rfl
end

/-- A call whose value is dropped is found inside its parentheses. -/
theorem lowerDiscarded_rename (h : s.Renamed f s') : ∀ e : Expr, (∀ x ∈ e.names, s.Keeps f x) →
    Renamed f (MapsTo id) (e.lowerDiscarded s) ((e.rename f).lowerDiscarded s')
  | .paren e _, hn => lowerDiscarded_rename h e hn
  | .call receiver method args span, hn => by
    obtain ⟨hr, ha⟩ := List.forall_mem_append.mp hn
    exact .bind_map (renamed_callCode h (callTarget_rename h receiver method span hr)
      (lower_rename h receiver _ hr) fun sites => lowerAll_rename h args sites 0 ha)
      fun _ => renamed_pure rfl
  | .intLit .., hn | .boolLit .., hn | .ident .., hn | .self _, hn | .binary .., hn | .not .., hn
  | .arrayLit .., hn | .index .., hn | .newArray .., hn | .newObject .., hn | .member .., hn =>
    .bind_map (lower_rename h _ .discarded hn) fun _ => renamed_pure rfl

/-- A condition becomes the same jump, on renamed operands. -/
theorem lowerCondition_rename (h : s.Renamed f s') (target : String) : ∀ e : Expr,
    (∀ x ∈ e.names, s.Keeps f x) →
      Renamed f (MapsTo id) (e.lowerCondition s target) ((e.rename f).lowerCondition s' target)
  | .paren e _, hn => lowerCondition_rename h target e hn
  | .binary op left right span, hn => by
    have truthy := lower_rename h (.binary op left right span) (.wanting Ty.boolean) hn
    obtain ⟨hl, hr⟩ := List.forall_mem_append.mp hn
    show Renamed f _ (if op.isRelational then _ else _) (if op.isRelational then _ else _)
    split
    · refine .bind_map (renamed_pair h hl hr (fun site => lower_rename h left site hl) fun site =>
        lower_rename h right site hr) ?_
      rintro ⟨l, r⟩
      exact .bind_map (renamed_pure (R := MapsTo (Condition.rename f)) rfl) fun test =>
        renamed_emit (.branch test target)
    · refine .bind_map truthy fun value => ?_
      exact .bind_map (renamed_pure (R := MapsTo (Condition.rename f)) rfl) fun test =>
        renamed_emit (.branch test target)
  | .intLit .., hn | .boolLit .., hn | .ident .., hn | .self _, hn | .not .., hn
  | .arrayLit .., hn | .index .., hn | .newArray .., hn | .newObject .., hn | .member .., hn
  | .call .., hn => by
    refine .bind_map (lower_rename h _ (.wanting Ty.boolean) hn) fun value => ?_
    exact .bind_map (renamed_pure (R := MapsTo (Condition.rename f)) rfl) fun test =>
      renamed_emit (.branch test target)

end Expr

/-! ## Statements -/

namespace Lower

variable {s s' : Scope}

theorem renamed_assign (h : s.Renamed f s') {name : String} {value : Expr} (hn : s.Keeps f name)
    (hv : ∀ x ∈ value.names, s.Keeps f x) :
    Renamed f (MapsTo id) (assign s name value) (assign s' (f name) (value.rename f)) := by
  unfold assign target
  rcases h.cases_resolve? hn with ⟨hnone, hnone', -⟩ | ⟨v, v', hsome, hsome', hty, hfield, same⟩
  · rw [hnone, hnone']
    exact renamed_fail_bind _ _ _ _
  · rw [hsome, hsome', ofOption_some, ofOption_some, pure_bind, pure_bind, hfield, hty]
    refine .bind_map (value.lower_rename h _ hv) fun operand => ?_
    split
    · next hf =>
      rw [same hf, self_renamed h]
      exact renamed_emit (.fieldWrite (Lower.self s) name v.ty operand)
    · exact renamed_emit (.assign (.var name v.ty) operand)

theorem renamed_assignElement (h : s.Renamed f s') {name : String} {index value : Expr}
    (hn : s.Keeps f name) (hi : ∀ x ∈ index.names, s.Keeps f x)
    (hv : ∀ x ∈ value.names, s.Keeps f x) :
    Renamed f (MapsTo id) (assignElement s name index value)
      (assignElement s' (f name) (index.rename f) (value.rename f)) := by
  unfold assignElement target
  rcases h.cases_resolve? hn with ⟨hnone, hnone', -⟩ | ⟨v, v', hsome, hsome', hty, hfield, same⟩
  · rw [hnone, hnone']
    exact renamed_fail_bind _ _ _ _
  · rw [hsome, hsome', ofOption_some, ofOption_some, pure_bind, pure_bind, hfield, hty]
    refine .bind_map (renamed_ofOption _ _ _) fun element => ?_
    have stores (array : Operand) : Renamed f (MapsTo id)
        (do
          let i ← index.lower s (.wanting Ty.int)
          let operand ← value.lower s (.assigned element)
          emit (.arrayStore array i operand))
        (do
          let i ← (index.rename f).lower s' (.wanting Ty.int)
          let operand ← (value.rename f).lower s' (.assigned element)
          emit (.arrayStore (array.rename f) i operand)) := by
      refine .bind_map (index.lower_rename h _ hi) fun i => ?_
      refine .bind_map (value.lower_rename h _ hv) fun operand => ?_
      exact renamed_emit (.arrayStore array i operand)
    split
    · next hf =>
      rw [same hf, self_renamed h]
      refine .bind_map (renamed_intoFresh fun _ => rfl) fun array => ?_
      exact stores array
    · refine .bind_map (renamed_pure (R := MapsTo (Operand.rename f)) rfl) fun array => ?_
      exact stores array

theorem renamed_branch (h : s.Renamed f s') {condition : Expr}
    (hn : ∀ x ∈ condition.names, s.Keeps f x) {thenPart thenPart' elsePart elsePart' : Lower Unit}
    (ht : Renamed f (MapsTo id) thenPart thenPart')
    (he : Renamed f (MapsTo id) elsePart elsePart') :
    Renamed f (MapsTo id) (branch s condition thenPart elsePart)
      (branch s' (condition.rename f) thenPart' elsePart') := by
  unfold branch
  refine .bind_map renamed_freshBranch fun n => ?_
  refine .bind_map (condition.lowerCondition_rename h _ hn) fun _ => .bind_map he fun _ => ?_
  refine .bind_map (renamed_emit (.jump _)) fun _ => .bind_map (renamed_emit (.label _)) fun _ => ?_
  exact .bind_map ht fun _ => renamed_emit (.label _)

theorem renamed_loop (h : s.Renamed f s') {condition : Expr}
    (hn : ∀ x ∈ condition.names, s.Keeps f x) {body body' : Lower Unit}
    (hb : Renamed f (MapsTo id) body body') :
    Renamed f (MapsTo id) (loop s condition body) (loop s' (condition.rename f) body') := by
  unfold loop
  refine .bind_map renamed_freshLoop fun n => ?_
  refine .bind_map (renamed_emit (.label _)) fun _ => ?_
  refine .bind_map (condition.lowerCondition_rename h _ hn) fun _ => ?_
  refine .bind_map (renamed_emit (.jump _)) fun _ => .bind_map (renamed_emit (.label _)) fun _ => ?_
  exact .bind_map hb fun _ => .bind_map (renamed_emit (.jump _)) fun _ => renamed_emit (.label _)

theorem renamed_ret (h : s.Renamed f s') {value : Option Expr}
    (hn : ∀ x ∈ Expr.namesAll value.toList, s.Keeps f x) :
    Renamed f (MapsTo id) (ret s value) (ret s' (value.map (Expr.rename f))) := by
  cases value with
  | none => exact renamed_emit (.ret none)
  | some e =>
    obtain ⟨he, -⟩ := List.forall_mem_append.mp hn
    rw [Option.map_some, ret, ret, h.returnType]
    refine .bind_map (e.lower_rename h _ he) fun operand => ?_
    exact renamed_emit (.ret (some operand))

end Lower

namespace Stmt

variable {s s' : Scope}

mutual
/-- A statement has the renamed code under other names. -/
theorem lower_rename (h : s.Renamed f s') : ∀ stmt : Stmt, (∀ x ∈ stmt.names, s.Keeps f x) →
    Renamed f (MapsTo id) (stmt.lower s) ((stmt.rename f).lower s')
  | .block body _, hn => by
    rw [rename, lower, lower]
    exact lowerAll_rename h body hn
  | .branch condition thenBranch none _, hn => by
    obtain ⟨hc, ht⟩ := List.forall_mem_append.mp hn
    rw [rename, lower, lower]
    exact renamed_branch h hc (lower_rename h thenBranch ht) (renamed_pure rfl)
  | .branch condition thenBranch (some elseBranch) _, hn => by
    obtain ⟨hc, hn⟩ := List.forall_mem_append.mp hn
    obtain ⟨ht, he⟩ := List.forall_mem_append.mp hn
    rw [rename, lower, lower]
    exact renamed_branch h hc (lower_rename h thenBranch ht) (lower_rename h elseBranch he)
  | .loop condition body _, hn => by
    obtain ⟨hc, hb⟩ := List.forall_mem_append.mp hn
    rw [rename, lower, lower]
    exact renamed_loop h hc (lower_rename h body hb)
  | .expr e _, hn => by
    rw [rename, lower, lower]
    exact e.lowerDiscarded_rename h hn
  | .assign name value _, hn => by
    obtain ⟨hx, hv⟩ := List.forall_mem_cons.mp hn
    rw [rename, lower, lower]
    exact renamed_assign h hx hv
  | .assignElement name index value _, hn => by
    obtain ⟨hx, hn⟩ := List.forall_mem_cons.mp hn
    obtain ⟨hi, hv⟩ := List.forall_mem_append.mp hn
    rw [rename, lower, lower]
    exact renamed_assignElement h hx hi hv
  | .ret value _, hn => by
    rw [rename, lower, lower]
    exact renamed_ret h hn
theorem lowerAll_rename (h : s.Renamed f s') : ∀ body : List Stmt,
    (∀ x ∈ namesAll body, s.Keeps f x) →
      Renamed f (MapsTo id) (lowerAll s body) (lowerAll s' (renameAll f body))
  | [], _ => renamed_pure rfl
  | stmt :: rest, hn => by
    obtain ⟨hs, hr⟩ := List.forall_mem_append.mp hn
    rw [renameAll, lowerAll, lowerAll]
    exact .bind_map (lower_rename h stmt hs) fun _ => lowerAll_rename h rest hr
end

end Stmt

/-! ## Methods -/

variable {g : String → String}

/-- Code that is a value is renamed, and nothing is written. -/
theorem Lower.renamed_codeOf {x y : Lower Unit} (h : Renamed f (MapsTo id) x y) :
    Renamed g (MapsTo (List.map (Instr.rename f))) (Lower.codeOf x) (Lower.codeOf y) := by
  intro c
  have hc := h c
  unfold Lower.codeOf
  dsimp only
  generalize x.run c = here at hc ⊢
  generalize y.run c = there at hc ⊢
  cases hc with
  | failed e e' c c' => exact .failed e e' c c'
  | done _ code c =>
    exact .done (R := MapsTo (List.map (Instr.rename f))) (a := code) rfl [] c

theorem renamed_closeMethod (m : Method) :
    Renamed g (MapsTo (Method.rename f)) (closeMethod m) (closeMethod (m.rename f)) := by
  have returns : (m.rename f).endsWithReturn = m.endsWithReturn := by
    simp only [Method.endsWithReturn, Method.rename, List.getLast?_map]
    cases m.code.getLast? with
    | none => rfl
    | some i => exact i.isReturn_rename
  have type : (m.rename f).returnTy = m.returnTy := rfl
  unfold closeMethod
  rw [returns, type]
  split
  · exact renamed_pure rfl
  · split
    · exact renamed_pure (m.rename_push f (.ret none)).symm
    · exact renamed_fail _ _

/-- A method has the renamed code under other names. -/
theorem MethodDecl.lower_rename {t t' : SymbolTable} {policy : Policy} {signature : Signature}
    (m : MethodDecl) (h : Scope.Renamed f ⟨t, signature, policy⟩ ⟨t', signature.rename f, policy⟩)
    (hn : ∀ x ∈ Stmt.namesAll m.body, Scope.Keeps ⟨t, signature, policy⟩ f x) :
    Renamed g (MapsTo (Method.rename f)) (m.lower t policy signature)
      ((m.rename f).lower t' policy (signature.rename f)) := by
  unfold lower
  dsimp only
  refine .bind_map (renamed_codeOf (Stmt.lowerAll_rename h m.body hn)) fun code => ?_
  have empty : Scope.emptyMethod ⟨t', signature.rename f, policy⟩ =
      (Scope.emptyMethod ⟨t, signature, policy⟩).rename f := by
    rw [Scope.emptyMethod, Scope.emptyMethod, Method.rename, h.returnType, Signature.rename,
      List.map_map, List.map_map]
    rfl
  rw [empty, ← Method.rename_extend]
  exact renamed_closeMethod _

end JavaMinus
