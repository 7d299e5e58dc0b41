import JavaMinus.Proofs.Lowering.Program
import JavaMinus.Proofs.Typing.Declarations
import JavaMinus.Syntax.Build

/-!
# Code refers to what is in scope

Every name in the code of a method is one that the method can see: a variable stands for the local or
parameter that its name finds, at its declared type, and a field for one that the class declares and
that nothing in the method hides (`Program.inScope_of_toUnit`). Lowering asks the scope at every name,
so this holds of every program that is lowered, checked or not. What only the check gives is that no
parameter is hidden and that no static method mentions its receiver.

`Lower.StaysInScope` is the judgment that carries this through lowering.
-/

namespace JavaMinus

open Tac Lower

namespace Tac

/-- The variables in an operand are locals or parameters of their declared types. -/
def Operand.InScope (s : Scope) : Operand → Prop
  | .var name ty => ∃ v, s.resolve? name = some v ∧ v.isField = false ∧ v.ty = ty
  | .element array index _ => array.InScope s ∧ index.InScope s
  | _ => True

/-- The field that an instruction reads or writes: the object, the name and the type. -/
def Instr.field? : Instr → Option (Operand × String × Ty)
  | .fieldRead _ object name ty | .fieldWrite object name ty _ => some (object, name, ty)
  | _ => none

/-- An instruction refers to what is in scope: its variables do, and a field is one of the receiver
that its name finds. -/
structure Instr.InScope (s : Scope) (i : Instr) : Prop where
  operands : ∀ o ∈ i.operands, o.InScope s
  field : ∀ object name ty, i.field? = some (object, name, ty) →
    object = .self s.table.classType ∧ ∃ v, s.resolve? name = some v ∧ v.isField = true ∧ v.ty = ty

variable {s : Scope}

/-- The variable that a name finds, where it is no field. -/
theorem Operand.inScope_var {name : String} {v : Variable} (found : s.resolve? name = some v)
    (notField : ¬ v.isField = true) : (Operand.var name v.ty).InScope s :=
  ⟨v, found, Bool.eq_false_iff.mpr notField, rfl⟩

/-- An instruction that touches no field. -/
theorem Instr.inScope_of_operands {i : Instr} (hf : i.field? = none)
    (h : ∀ o ∈ i.operands, o.InScope s) : i.InScope s :=
  ⟨h, fun _ _ _ hi => by rw [hf] at hi; cases hi⟩

/-- An instruction that gives a fresh temporary a value. -/
theorem Instr.inScope_of_sources {i : Instr} {id : Nat} {ty : Ty} (hd : i.dest? = some (.temp id ty))
    (hf : i.field? = none) (h : ∀ o ∈ i.sources, o.InScope s) : i.InScope s := by
  refine inScope_of_operands hf ?_
  rw [operands, hd]
  exact List.forall_mem_cons.mpr ⟨trivial, h⟩

end Tac

namespace Lower

variable {α β : Type} {s : Scope} {x : Lower α} {f : α → Lower β} {Q : α → Prop} {R : β → Prop}

/-- The computation writes code that refers to what is in scope, and yields a value of a property. -/
def StaysInScope (s : Scope) (x : Lower α) (Q : α → Prop) : Prop :=
  ∀ c a code c', x.run c = .done a code c' → (∀ i ∈ code, i.InScope s) ∧ Q a

theorem StaysInScope.bind (hx : x.StaysInScope s Q) (hf : ∀ a, Q a → (f a).StaysInScope s R) :
    (x >>= f).StaysInScope s R := by
  intro c b code c' h
  obtain ⟨a, code₁, c₁, code₂, h₁, h₂, rfl⟩ := run_bind_eq_done.mp h
  obtain ⟨first, ha⟩ := hx _ _ _ _ h₁
  obtain ⟨next, hb⟩ := hf a ha _ _ _ _ h₂
  exact ⟨List.forall_mem_append.mpr ⟨first, next⟩, hb⟩

/-- A part that is used for its code only. -/
theorem StaysInScope.andThen (hx : x.StaysInScope s fun _ => True)
    (hf : ∀ a, (f a).StaysInScope s R) : (x >>= f).StaysInScope s R :=
  hx.bind fun a _ => hf a

theorem staysInScope_pure {a : α} (h : Q a) : (pure a : Lower α).StaysInScope s Q := by
  intro c b code c' hr
  cases hr
  exact ⟨List.forall_mem_nil _, h⟩

theorem staysInScope_fail (e : LoweringError) : (fail e : Lower α).StaysInScope s Q := by
  intro c a code c' h
  cases h

theorem staysInScope_fail_bind (e : LoweringError) : (fail e >>= f).StaysInScope s R := by
  intro c b code c' h
  obtain ⟨_, _, _, _, hf, -, -⟩ := run_bind_eq_done.mp h
  cases hf

theorem staysInScope_emit {i : Instr} (hi : i.InScope s) :
    (emit i).StaysInScope s fun _ => True := by
  intro c a code c' hr
  cases hr
  exact ⟨List.forall_mem_singleton.mpr hi, trivial⟩

theorem staysInScope_ofTyping (o : Except TypeError α) :
    (ofTyping o).StaysInScope s fun _ => True := by
  cases o with
  | ok a => exact staysInScope_pure trivial
  | error e => exact staysInScope_fail _

theorem staysInScope_ofOption {e : LoweringError} {o : Option α} (h : ∀ a, o = some a → Q a) :
    (ofOption e o).StaysInScope s Q := by
  cases o with
  | some a => exact staysInScope_pure (h a rfl)
  | none => exact staysInScope_fail e

theorem staysInScope_fresh {ty : Ty} {Q : Operand → Prop} (h : ∀ id, Q (.temp id ty.plain)) :
    (fresh ty).StaysInScope s Q := by
  intro c a code c' hr
  cases hr
  exact ⟨List.forall_mem_nil _, h _⟩

theorem staysInScope_freshBranch : freshBranch.StaysInScope s fun _ => True := by
  intro c n code c' hr
  cases hr
  exact ⟨List.forall_mem_nil _, trivial⟩

theorem staysInScope_freshLoop : freshLoop.StaysInScope s fun _ => True := by
  intro c n code c' hr
  cases hr
  exact ⟨List.forall_mem_nil _, trivial⟩

/-- A temporary is drawn, and an instruction fills it. -/
theorem staysInScope_intoFresh {ty : Ty} {i : Operand → Instr}
    (h : ∀ id, (i (.temp id ty.plain)).InScope s) :
    (intoFresh ty i).StaysInScope s (Operand.InScope s) :=
  .bind (Q := fun o => ∃ id, o = .temp id ty.plain) (staysInScope_fresh fun id => ⟨id, rfl⟩) <| by
    rintro _ ⟨id, rfl⟩
    exact .andThen (staysInScope_emit (h id)) fun _ => staysInScope_pure trivial

/-! ## Parts of expressions -/

/-- Where the scope finds a field, reading it off the receiver refers to what is in scope. -/
theorem inScope_fieldRead {id : Nat} {ty : Ty} {name : String} {v : Variable}
    (found : s.resolve? name = some v) (isField : v.isField = true) :
    (Instr.fieldRead (.temp id ty) (self s) name v.ty).InScope s where
  operands := by simp [Instr.operands, Instr.dest?, Instr.sources, Operand.InScope, self]
  field := by
    rintro _ _ _ ⟨⟩
    exact ⟨rfl, v, found, isField, rfl⟩

theorem staysInScope_readVariable (name : String) :
    (readVariable s name).StaysInScope s (Operand.InScope s) := by
  unfold readVariable
  refine .bind (staysInScope_ofOption fun v hv => hv) fun v found => ?_
  split
  · next isField => exact staysInScope_intoFresh fun _ => inScope_fieldRead found isField
  · next notField => exact staysInScope_pure (Operand.inScope_var found notField)

theorem staysInScope_storeAll {array : Operand} (ha : array.InScope s) :
    ∀ {values : List Operand} {index : Nat}, (∀ o ∈ values, o.InScope s) →
      (storeAll array index values).StaysInScope s fun _ => True
  | [], _, _ => staysInScope_pure trivial
  | value :: rest, index, hv => by
    obtain ⟨hvalue, hrest⟩ := List.forall_mem_cons.mp hv
    have stores : (Instr.arrayStore array (.int (Int32.ofNat index)) value).InScope s :=
      Instr.inScope_of_operands rfl <| by
        simp [Instr.operands, Instr.dest?, Instr.sources, ha, hvalue, Operand.int, Operand.InScope]
    exact .andThen (staysInScope_emit stores) fun _ => staysInScope_storeAll ha hrest

theorem staysInScope_packArray {element : Ty} {values : List Operand}
    (hv : ∀ o ∈ values, o.InScope s) :
    (packArray element values).StaysInScope s (Operand.InScope s) := by
  have packs : (do
      let array ← intoFresh (Ty.array element.name) fun dest =>
        .newArray dest (.int (Int32.ofNat values.length)) element
      storeAll array 0 values
      return array : Lower Operand).StaysInScope s (Operand.InScope s) :=
    .bind (staysInScope_intoFresh fun _ => Instr.inScope_of_sources rfl rfl <| by
        simp [Instr.sources, Operand.int, Operand.InScope]) fun _ ha =>
      .bind (staysInScope_storeAll ha hv) fun _ _ => staysInScope_pure ha
  unfold packArray
  split
  · exact staysInScope_fail_bind _
  · exact packs

theorem staysInScope_settleBefore {operand : Operand} (ho : operand.InScope s) (next : Expr) :
    (settleBefore operand next).StaysInScope s (Operand.InScope s) := by
  unfold settleBefore
  split
  · exact staysInScope_intoFresh fun _ => Instr.inScope_of_sources rfl rfl <| by
      simpa [Instr.sources] using ho
  · exact staysInScope_pure ho

theorem staysInScope_elementAt {site : Site} {array index : Operand} (ha : array.InScope s)
    (hi : index.InScope s) :
    (elementAt site array index).StaysInScope s (Operand.InScope s) := by
  unfold elementAt
  refine .andThen (staysInScope_ofOption fun _ _ => trivial) fun ty => ?_
  have element : (Operand.element array index ty).InScope s := ⟨ha, hi⟩
  dsimp only
  split
  · exact staysInScope_intoFresh fun _ => Instr.inScope_of_sources rfl rfl <| by
      simpa [Instr.sources] using element
  · exact staysInScope_pure element

theorem staysInScope_allocate (className : String) :
    (allocate className).StaysInScope s (Operand.InScope s) := by
  refine .bind (Q := fun o => ∃ id ty, o = .temp id ty) (staysInScope_fresh fun id => ⟨id, _, rfl⟩) ?_
  rintro _ ⟨id, ty, rfl⟩
  have made : (Instr.newObject (.temp id ty) className).InScope s :=
    Instr.inScope_of_sources rfl rfl <| by simp [Instr.sources]
  have initialised :
      (Instr.call none .constructor (.temp id ty) constructorName [] Ty.void).InScope s :=
    Instr.inScope_of_operands rfl <| by
      simp [Instr.operands, Instr.dest?, Instr.sources, Operand.InScope]
  exact .andThen (staysInScope_emit made) fun _ =>
    .andThen (staysInScope_emit initialised) fun _ => staysInScope_pure trivial

theorem staysInScope_pair {op : BinaryOp} {left right : Expr}
    {lowerLeft lowerRight : Site → Lower Operand}
    (hl : ∀ site, (lowerLeft site).StaysInScope s (Operand.InScope s))
    (hr : ∀ site, (lowerRight site).StaysInScope s (Operand.InScope s)) :
    (pair s op left right lowerLeft lowerRight).StaysInScope s fun p =>
      p.1.InScope s ∧ p.2.InScope s := by
  unfold pair
  refine .andThen (staysInScope_ofTyping _) fun sites => ?_
  refine .bind (hl _) fun _ hleft => ?_
  refine .bind (staysInScope_settleBefore hleft right) fun _ hleft => ?_
  exact .bind (hr _) fun _ hright => staysInScope_pure ⟨hleft, hright⟩

theorem staysInScope_packVarargs {m : Signature} {method : String} {args : List Operand}
    (ha : ∀ o ∈ args, o.InScope s) :
    (packVarargs s m method args).StaysInScope s fun os => ∀ o ∈ os, o.InScope s := by
  unfold packVarargs
  split
  · exact staysInScope_pure ha
  · split
    · exact staysInScope_pure ha
    · split
      · split
        · exact staysInScope_pure ha
        · exact staysInScope_fail _
      · refine .andThen (staysInScope_ofOption fun _ _ => trivial) fun element => ?_
        refine .bind (staysInScope_packArray fun o ho => ha o (List.mem_of_mem_drop ho))
          fun packed hp => staysInScope_pure ?_
        exact List.forall_mem_append.mpr
          ⟨fun o ho => ha o (List.mem_of_mem_take ho), List.forall_mem_singleton.mpr hp⟩

theorem staysInScope_receiver {target : CallTarget} {object : Lower Operand}
    (ho : object.StaysInScope s (Operand.InScope s)) :
    (receiver s target object).StaysInScope s (Operand.InScope s) := by
  unfold receiver
  split
  · exact staysInScope_pure trivial
  · split
    · exact staysInScope_pure trivial
    · exact ho
  · exact ho

theorem staysInScope_pass {target : CallTarget} {method : String} {values : List Operand}
    (hvalues : ∀ o ∈ values, o.InScope s) :
    (pass s target method values).StaysInScope s fun os => ∀ o ∈ os, o.InScope s := by
  cases target with
  | declared m => exact staysInScope_packVarargs hvalues
  | _ => exact staysInScope_pure hvalues

theorem staysInScope_invoke {site : Site} {method : String} {target : CallTarget} {on : Operand}
    {values : List Operand} (hon : on.InScope s) (hvalues : ∀ o ∈ values, o.InScope s) :
    (invoke site method target on values).StaysInScope s fun o => ∀ result ∈ o, result.InScope s := by
  have sources : ∀ o ∈ on :: values, o.InScope s := List.forall_mem_cons.mpr ⟨hon, hvalues⟩
  unfold invoke
  split
  · refine .bind (Q := fun o => ∃ id ty, o = .temp id ty)
      (staysInScope_fresh fun id => ⟨id, _, rfl⟩) ?_
    rintro _ ⟨id, ty, rfl⟩
    refine .andThen (staysInScope_emit (Instr.inScope_of_sources rfl rfl sources)) fun _ => ?_
    exact staysInScope_pure fun _ hr => by
      cases hr
      trivial
  · exact .andThen (staysInScope_emit (Instr.inScope_of_operands rfl sources)) fun _ =>
      staysInScope_pure nofun

theorem staysInScope_callCode {site : Site} {method : String} {target : Except TypeError CallTarget}
    {object : Lower Operand} {args : (Nat → Site) → Lower (List Operand)}
    (ho : object.StaysInScope s (Operand.InScope s))
    (ha : ∀ sites, (args sites).StaysInScope s fun os => ∀ o ∈ os, o.InScope s) :
    (callCode s site method target object args).StaysInScope s fun o =>
      ∀ result ∈ o, result.InScope s := by
  rw [callCode_eq]
  refine .andThen (staysInScope_ofTyping _) fun target => ?_
  refine .bind (staysInScope_receiver ho) fun on hon => ?_
  refine .bind (ha _) fun values hvalues => ?_
  exact .bind (staysInScope_pass hvalues) fun passed hpassed => staysInScope_invoke hon hpassed

end Lower

/-! ## Expressions -/

mutual
/-- The code of an expression refers to what is in scope, and so does its operand. -/
theorem Expr.lower_staysInScope (s : Scope) :
    ∀ (e : Expr) (site : Site), (e.lower s site).StaysInScope s (Operand.InScope s)
  | .intLit .., _ => staysInScope_pure trivial
  | .boolLit .., _ => staysInScope_pure trivial
  | .ident name _, _ => staysInScope_readVariable name
  | .self _, _ => staysInScope_pure trivial
  | .binary op left right _, _ =>
    .bind (staysInScope_pair (fun site => lower_staysInScope s left site) fun site =>
      lower_staysInScope s right site) fun _ hp =>
        staysInScope_intoFresh fun _ => Instr.inScope_of_sources rfl rfl <| by
          simpa [Instr.sources] using hp
  | .not operand _, _ =>
    .bind (lower_staysInScope s operand _) fun _ hv =>
      staysInScope_intoFresh fun _ => Instr.inScope_of_sources rfl rfl <| by
        simpa [Instr.sources] using hv
  | .arrayLit elements _, _ => by
    refine .andThen (staysInScope_ofTyping _) fun ty => ?_
    refine .andThen (staysInScope_ofOption fun _ _ => trivial) fun _ => ?_
    exact .bind (lowerAll_staysInScope s elements _ 0) fun _ hv => staysInScope_packArray hv
  | .index array place _, _ =>
    .bind (lower_staysInScope s array _) fun _ ha =>
      .bind (lower_staysInScope s place _) fun _ hi => staysInScope_elementAt ha hi
  | .newArray _ length _, _ =>
    .bind (lower_staysInScope s length _) fun _ hn =>
      staysInScope_intoFresh fun _ => Instr.inScope_of_sources rfl rfl <| by
        simpa [Instr.sources] using hn
  | .newObject className _, _ => staysInScope_allocate className
  | .member object property _, _ => by
    unfold lower
    split
    · exact staysInScope_fail _
    · exact .bind (lower_staysInScope s object _) fun _ ha =>
        staysInScope_intoFresh fun _ => Instr.inScope_of_sources rfl rfl <| by
          simpa [Instr.sources] using ha
  | .call receiver _ args _, _ =>
    .bind (staysInScope_callCode (lower_staysInScope s receiver _) fun sites =>
      lowerAll_staysInScope s args sites 0) fun _ hr => staysInScope_ofOption hr
  | .paren inner _, site => lower_staysInScope s inner site
/-- So do the codes of expressions one after another. -/
theorem Expr.lowerAll_staysInScope (s : Scope) : ∀ (es : List Expr) (sites : Nat → Site) (i : Nat),
    (Expr.lowerAll s sites i es).StaysInScope s fun os => ∀ o ∈ os, o.InScope s
  | [], _, _ => staysInScope_pure (List.forall_mem_nil _)
  | e :: es, sites, i =>
    .bind (lower_staysInScope s e _) fun _ hv =>
      .bind (lowerAll_staysInScope s es sites (i + 1)) fun _ hvs =>
        staysInScope_pure (List.forall_mem_cons.mpr ⟨hv, hvs⟩)
end

theorem Expr.lowerDiscarded_staysInScope (s : Scope) (e : Expr) :
    (e.lowerDiscarded s).StaysInScope s fun _ => True := by
  unfold lowerDiscarded
  split
  · next receiver _ args _ _ =>
    exact .bind (staysInScope_callCode (lower_staysInScope s receiver _) fun sites =>
      lowerAll_staysInScope s args sites 0) fun _ _ => staysInScope_pure trivial
  · exact .bind (lower_staysInScope s _ _) fun _ _ => staysInScope_pure trivial

/-! ## Statements -/

namespace Lower

variable {s : Scope}

/-- A computation that yields nothing writes code that refers to what is in scope. -/
abbrev WritesInScope (s : Scope) (x : Lower Unit) : Prop := x.StaysInScope s fun _ => True

theorem StaysInScope.seq {x y : Lower Unit} (hx : x.WritesInScope s) (hy : y.WritesInScope s) :
    (x >>= fun _ => y).WritesInScope s :=
  hx.andThen fun _ => hy

theorem writesInScope_emit {i : Instr} (hf : i.field? = none) (h : ∀ o ∈ i.operands, o.InScope s) :
    (emit i).WritesInScope s :=
  staysInScope_emit (Instr.inScope_of_operands hf h)

theorem writesInScope_jump (target : String) : (emit (.jump target)).WritesInScope s :=
  writesInScope_emit rfl (List.forall_mem_nil _)

theorem writesInScope_label (name : String) : (emit (.label name)).WritesInScope s :=
  writesInScope_emit rfl (List.forall_mem_nil _)

theorem writesInScope_assign (name : String) (value : Expr) :
    (assign s name value).WritesInScope s := by
  unfold assign
  refine .bind (staysInScope_ofOption fun v hv => hv) fun v found => ?_
  refine .bind (value.lower_staysInScope s _) fun operand ho => ?_
  split
  · next isField =>
    refine staysInScope_emit ⟨?_, ?_⟩
    · simp [Instr.operands, Instr.dest?, Instr.sources, Operand.InScope, self, ho]
    · rintro _ _ _ ⟨⟩
      exact ⟨rfl, v, found, isField, rfl⟩
  · next notField =>
    refine writesInScope_emit rfl ?_
    simp [Instr.operands, Instr.dest?, Instr.sources, Operand.inScope_var found notField, ho]

theorem writesInScope_assignElement (name : String) (index value : Expr) :
    (assignElement s name index value).WritesInScope s := by
  have stores (array : Operand) (element : Ty) (ha : array.InScope s) : (do
      let i ← index.lower s (.wanting Ty.int)
      let operand ← value.lower s (.assigned element)
      emit (.arrayStore array i operand) : Lower Unit).WritesInScope s := by
    refine .bind (index.lower_staysInScope s _) fun i hi => ?_
    refine .bind (value.lower_staysInScope s _) fun operand ho => ?_
    refine writesInScope_emit rfl ?_
    simp [Instr.operands, Instr.dest?, Instr.sources, ha, hi, ho]
  unfold assignElement
  refine .bind (staysInScope_ofOption fun v hv => hv) fun v found => ?_
  refine .andThen (staysInScope_ofOption fun _ _ => trivial) fun element => ?_
  split
  · next isField =>
    exact .bind (staysInScope_intoFresh fun _ => inScope_fieldRead found isField) fun array ha =>
      stores array element ha
  · next notField =>
    exact .bind (staysInScope_pure (Operand.inScope_var found notField)) fun array ha =>
      stores array element ha

theorem writesInScope_ret (value : Option Expr) : (ret s value).WritesInScope s := by
  cases value with
  | none => exact writesInScope_emit rfl (List.forall_mem_nil _)
  | some e =>
    refine .bind (e.lower_staysInScope s _) fun o ho => writesInScope_emit rfl ?_
    simpa [Instr.operands, Instr.dest?, Instr.sources] using ho

theorem writesInScope_condition (e : Expr) (target : String) :
    (e.lowerCondition s target).WritesInScope s := by
  have jump (test : Condition) (ht : ∀ o ∈ test.operands, o.InScope s) :
      (emit (.branch test target)).WritesInScope s := writesInScope_emit rfl ht
  have value : (do
      let o ← e.lower s (.wanting Ty.boolean)
      let test ← pure (Condition.truthy o)
      emit (.branch test target) : Lower Unit).WritesInScope s :=
    .bind (e.lower_staysInScope s _) fun o ho =>
      .bind (Q := fun test => ∀ o ∈ test.operands, o.InScope s)
        (staysInScope_pure (List.forall_mem_singleton.mpr ho)) fun test ht => jump test ht
  unfold Expr.lowerCondition
  split
  · next op left right _ _ =>
    split
    · refine .bind (staysInScope_pair (fun site => left.lower_staysInScope s site) fun site =>
        right.lower_staysInScope s site) fun p hp => ?_
      refine .bind (Q := fun test => ∀ o ∈ test.operands, o.InScope s) (staysInScope_pure ?_)
        fun test ht => jump test ht
      simpa [Condition.operands] using hp
    · exact value
  · exact value

theorem writesInScope_branch {condition : Expr} {thenPart elsePart : Lower Unit}
    (ht : thenPart.WritesInScope s) (he : elsePart.WritesInScope s) :
    (branch s condition thenPart elsePart).WritesInScope s := by
  refine .andThen staysInScope_freshBranch fun n => ?_
  exact (writesInScope_condition condition _).seq (he.seq ((writesInScope_jump _).seq
    ((writesInScope_label _).seq (ht.seq (writesInScope_label _)))))

theorem writesInScope_loop {condition : Expr} {body : Lower Unit} (hb : body.WritesInScope s) :
    (loop s condition body).WritesInScope s := by
  refine .andThen staysInScope_freshLoop fun n => ?_
  exact (writesInScope_label _).seq ((writesInScope_condition condition _).seq
    ((writesInScope_jump _).seq ((writesInScope_label _).seq (hb.seq ((writesInScope_jump _).seq
      (writesInScope_label _))))))

end Lower

mutual
/-- The code of a statement refers to what is in scope. -/
theorem Stmt.lower_writesInScope (s : Scope) : ∀ stmt : Stmt, (stmt.lower s).WritesInScope s
  | .block body _ => lowerAll_writesInScope s body
  | .branch _ thenBranch none _ =>
    writesInScope_branch (lower_writesInScope s thenBranch) (staysInScope_pure trivial)
  | .branch _ thenBranch (some elseBranch) _ =>
    writesInScope_branch (lower_writesInScope s thenBranch) (lower_writesInScope s elseBranch)
  | .loop _ body _ => writesInScope_loop (lower_writesInScope s body)
  | .expr e _ => e.lowerDiscarded_staysInScope s
  | .assign name value _ => writesInScope_assign name value
  | .assignElement name index value _ => writesInScope_assignElement name index value
  | .ret value _ => writesInScope_ret value
/-- So does the code of statements one after another. -/
theorem Stmt.lowerAll_writesInScope (s : Scope) :
    ∀ body : List Stmt, (Stmt.lowerAll s body).WritesInScope s
  | [] => staysInScope_pure trivial
  | stmt :: rest => (lower_writesInScope s stmt).seq (lowerAll_writesInScope s rest)
end

/-! ## The receiver -/

namespace Tac

/-- The receiver stands in the operand. -/
def Operand.mentionsSelf : Operand → Bool
  | .self _ => true
  | .element array index _ => array.mentionsSelf || index.mentionsSelf
  | _ => false

variable {s : Scope} {temps : List Ty}

/-- A static method has no receiver, so no typed operand of it mentions one. -/
theorem Operand.Typed.mentionsSelf {o : Operand} (h : o.Typed s temps) (hs : s.isStatic = true) :
    o.mentionsSelf = false := by
  induction h with
  | self isInstance => rw [hs] at isInstance; cases isInstance
  | element _ _ _ _ array index => rw [Operand.mentionsSelf, array, index]; rfl
  | _ => rfl

theorem Code.Typed.mentionsSelf {code : List Instr} (h : Code.Typed s temps code)
    (hs : s.isStatic = true) : ∀ i ∈ code, ∀ o ∈ i.operands, o.mentionsSelf = false := by
  intro i hi o ho
  rcases h.operands i hi o ho with ho | ⟨name, rfl⟩
  · exact ho.mentionsSelf hs
  · rfl

end Tac

/-! ## Methods and classes -/

/-- The code of a method refers to what its scope holds: a field is one of `fields`, and no local or
parameter has its name. The parameters are those that the scope declares; the name of one finds it
unless a local or a parameter in front of it has the same name. -/
structure Tac.Method.InScope (s : Scope) (fields : List Symbol) (m : Method) : Prop where
  operands : ∀ i ∈ m.code, ∀ o ∈ i.operands, o.InScope s
  fields : ∀ i ∈ m.code, ∀ object name ty, i.field? = some (object, name, ty) →
    object = .self s.table.classType ∧ lookupSymbol name fields = some ⟨name, ty⟩ ∧
      s.method.local? name = none ∧ s.method.parameter? name = none
  params : m.params = s.method.parameters.map fun q => .var q.name q.ty.plain
  named : ∀ pre q post, s.method.parameters = pre ++ q :: post → s.method.local? q.name = none →
    (∀ r ∈ pre, r.name ≠ q.name) → (Operand.var q.name q.ty.plain).InScope s

/-- A name that finds a field is hidden by nothing, and the field is declared. -/
theorem Scope.field_of_resolve? {s : Scope} {name : String} {v : Variable}
    (h : s.resolve? name = some v) (hf : v.isField = true) :
    s.method.local? name = none ∧ s.method.parameter? name = none ∧
      s.table.field? name = some v.symbol := by
  unfold resolve? at h
  split at h
  · cases h
    cases hf
  · next hlocal =>
    split at h
    · cases h
      cases hf
    · next hparam =>
      obtain ⟨symbol, hsymbol, rfl⟩ := Option.map_eq_some_iff.mp h
      exact ⟨hlocal, hparam, hsymbol⟩

/-- The first parameter of a name that no local has is what the name finds. -/
theorem Scope.resolve?_first {s : Scope} {pre post : List Symbol} {q : Symbol}
    (h : s.method.parameters = pre ++ q :: post) (hlocal : s.method.local? q.name = none)
    (hpre : ∀ r ∈ pre, r.name ≠ q.name) : s.resolve? q.name = some ⟨q, .parameter⟩ := by
  have found : s.method.parameter? q.name = some q := by
    unfold Signature.parameter? lookupSymbol
    rw [h, List.find?_append, List.find?_eq_none.mpr fun r hr => by simpa using hpre r hr]
    simp
  rw [resolve?, hlocal, found]

/-- Fields without marks on their types are found as the fields are. -/
theorem lookupSymbol_plain {fields : List Symbol} {name : String} {symbol : Symbol}
    (h : lookupSymbol name fields = some symbol) :
    lookupSymbol name (fields.map fun f => { f with ty := f.ty.plain }) =
      some ⟨name, symbol.ty.plain⟩ := by
  have hname : symbol.name = name := by simpa using List.find?_some h
  unfold lookupSymbol at h ⊢
  rw [List.find?_map]
  refine Option.map_eq_some_iff.mpr ⟨symbol, h, ?_⟩
  rw [hname]

variable {p : Program} {policy : Policy}

/-- A method that is lowered refers to what is in scope. -/
theorem MethodDecl.inScope_of_lower {t : SymbolTable} {signature : Signature} {d : MethodDecl}
    {m : Method} {c c' : Counters} {code : List Instr}
    (h : (d.lower t policy signature).run c = .done m code c') :
    m.InScope ⟨t, signature, policy⟩ (t.fields.map fun f => { f with ty := f.ty.plain }) := by
  obtain ⟨body, closing, hbody, hm, hclosing⟩ := lower_eq_done h
  have closes : ∀ i ∈ closing, i.InScope ⟨t, signature, policy⟩ := by
    rcases hclosing with ⟨rfl, -⟩ | ⟨rfl, -⟩
    · exact List.forall_mem_nil _
    · exact List.forall_mem_singleton.mpr (Instr.inScope_of_operands rfl (List.forall_mem_nil _))
  have written := List.forall_mem_append.mpr
    ⟨(Stmt.lowerAll_writesInScope _ _ _ _ _ _ hbody).1, closes⟩
  rw [← Scope.code_extend ⟨t, signature, policy⟩ (body ++ closing), ← hm] at written
  refine ⟨fun i hi => (written i hi).operands, fun i hi object name ty hf => ?_,
    by rw [hm, Method.extend_params]; rfl,
    fun pre q post hq hlocal hpre => ⟨_, Scope.resolve?_first hq hlocal hpre, rfl, rfl⟩⟩
  obtain ⟨hself, v, found, isField, rfl⟩ := (written i hi).field object name ty hf
  obtain ⟨hlocal, hparam, hfield⟩ := Scope.field_of_resolve? found isField
  exact ⟨hself, lookupSymbol_plain hfield, hlocal, hparam⟩

/-- In a program without errors the name of every parameter finds the parameter. -/
theorem Program.params_inScope (h : p.check p.symbolTable policy = []) {d : MethodDecl} {m : Method}
    {fields : List Symbol} (hd : d ∈ p.classDecl.methods)
    (hm : m.InScope (p.scopeOf policy d) fields) : ∀ o ∈ m.params, o.InScope (p.scopeOf policy d) := by
  intro o ho
  rw [hm.params] at ho
  obtain ⟨q, hq, rfl⟩ := List.mem_map.mp ho
  exact ⟨⟨q, .parameter⟩, resolve?_parameter (p.check_method h hd).1 hq, rfl, rfl⟩

/-- In a program without errors no static method mentions the receiver. -/
theorem Program.mentionsSelf_of_check (h : p.check p.symbolTable policy = []) {methods : List Method}
    (hu : p.toUnit p.symbolTable policy = .ok (p.unitOf methods)) :
    ∀ m ∈ methods, m.isStatic = true → ∀ i ∈ m.code, ∀ o ∈ i.operands, o.mentionsSelf = false := by
  have accepted : ∀ m ∈ p.classDecl.methods, m.Accepted (fun _ => True) (p.scopeOf policy m) :=
    p.accepted_of_check h fun m _ => ⟨Scope.names_true _, fun stmt _ => stmt.allocates_true⟩
  have typed := toUnit_of_accepted accepted
  rw [hu] at typed
  obtain ⟨-, temps, typedMethods, -, all, hunit⟩ := typed
  obtain rfl : methods = typedMethods := (List.cons.inj (congrArg ClassUnit.methods hunit)).2
  intro m hm isStatic
  obtain ⟨k, hk, rfl⟩ := List.getElem_of_mem hm
  obtain ⟨hmethod, -⟩ := all.get (all.length_eq ▸ hk) hk
  exact hmethod.code.mentionsSelf (hmethod.isStatic ▸ isStatic)

/-- The code of a program that is lowered refers to what is in scope: behind the constructor, which
refers to its receiver only, every method refers to what the scope of its declaration holds, and to
the fields of the class. Where the program has no errors, moreover, its parameters are what their names
find, and no static method mentions the receiver. -/
theorem Program.inScope_of_toUnit {unit : ClassUnit}
    (h : p.toUnit p.symbolTable policy = .ok unit) :
    ∃ methods, unit.methods = Method.constructor (Ty.scalar p.classDecl.name) :: methods ∧
      (∀ i ∈ (Method.constructor (Ty.scalar p.classDecl.name)).code, ∀ s, i.InScope s) ∧
      List.Forall₂ (fun d m => m.InScope (p.scopeOf policy d) unit.fields)
        p.classDecl.methods methods ∧
      (p.check p.symbolTable policy = [] →
        List.Forall₂ (fun d m => (∀ o ∈ m.params, o.InScope (p.scopeOf policy d)) ∧
          (m.isStatic = true → ∀ i ∈ m.code, ∀ o ∈ i.operands, o.mentionsSelf = false))
            p.classDecl.methods methods) := by
  obtain ⟨methods, rfl, lowered⟩ := p.methods_of_toUnit h
  have inScope : List.Forall₂ (fun d m => m.InScope (p.scopeOf policy d) (p.unitOf methods).fields)
      p.classDecl.methods methods :=
    lowered.imp fun d m ⟨_, _, _, hrun⟩ => d.inScope_of_lower hrun
  refine ⟨methods, rfl, ?_, inScope, fun accepted => ?_⟩
  · refine List.forall_mem_cons.mpr ⟨fun s => ?_, List.forall_mem_singleton.mpr fun s => ?_⟩
    · exact Instr.inScope_of_operands rfl (List.forall_mem_singleton.mpr trivial)
    · exact Instr.inScope_of_operands rfl (List.forall_mem_nil _)
  · refine List.forall₂_iff_get.mpr ⟨inScope.length_eq, fun k hk hk' => ?_⟩
    exact ⟨p.params_inScope accepted (List.get_mem _ _) (inScope.get hk hk'),
      p.mentionsSelf_of_check accepted h _ (List.get_mem _ _)⟩

/-- A class with a method whose parameter hides a field, and a static method. -/
def scores : Program where
  classDecl := {
    name := "Scores"
    fields := [⟨"total", .scalar .int, {}⟩, ⟨"rows", .array .int, {}⟩]
    methods := [
      { name := "add"
        returnType := .scalar .int
        params := [⟨"total", .scalar .int, {}⟩, ⟨"i", .scalar .int, {}⟩]
        body := [
          Build.assignElement "rows" (Build.ident "i") (Build.ident "total"),
          Build.assign "total" (Build.binary .add (Build.index (Build.ident "rows") (Build.ident "i"))
            (Build.ident "total")),
          Build.ret (Build.ident "total")] },
      { name := "twice"
        isStatic := true
        returnType := .scalar .int
        params := [⟨"i", .scalar .int, {}⟩]
        body := [Build.ret (Build.binary .add (Build.ident "i") (Build.ident "i"))] }] }

theorem Program.inScope_of_toUnit_scores : ∃ methods,
    scores.toUnit scores.symbolTable {} = .ok (scores.unitOf methods) ∧
      scores.check scores.symbolTable {} = [] ∧
      List.Forall₂ (fun d m => m.InScope (scores.scopeOf {} d) (scores.unitOf methods).fields)
        scores.classDecl.methods methods ∧
      List.Forall₂ (fun d m => (∀ o ∈ m.params, o.InScope (scores.scopeOf {} d)) ∧
        (m.isStatic = true → ∀ i ∈ m.code, ∀ o ∈ i.operands, o.mentionsSelf = false))
          scores.classDecl.methods methods := by
  obtain ⟨methods, lowered⟩ : ∃ methods,
      scores.toUnit scores.symbolTable {} = .ok (scores.unitOf methods) := ⟨_, rfl⟩
  have accepted : scores.check scores.symbolTable {} = [] := by decide
  obtain ⟨_, hmethods, -, code, params⟩ := inScope_of_toUnit lowered
  obtain rfl := (List.cons.inj hmethods).2
  exact ⟨methods, lowered, accepted, code, params accepted⟩

/-- A program that the check refuses: the method has a parameter and a local of one name. -/
def clash : Program where
  classDecl := {
    name := "Clash"
    methods := [{
      name := "choose"
      returnType := .scalar .boolean
      params := [⟨"a", .scalar .int, {}⟩]
      locals := [⟨"a", .scalar .boolean, {}⟩]
      body := [Build.assign "a" (Build.boolean true), Build.ret (Build.ident "a")] }] }

/-- Without the check a parameter need not be what its name finds: it is lowered all the same, and here
the name finds the local. -/
theorem Program.not_params_inScope_clash : ∃ methods,
    clash.toUnit clash.symbolTable {} = .ok (clash.unitOf methods) ∧
      ¬ List.Forall₂ (fun d m => ∀ o ∈ m.params, o.InScope (clash.scopeOf {} d))
        clash.classDecl.methods methods := by
  refine ⟨_, rfl, fun h => ?_⟩
  obtain ⟨v, found, -, hty⟩ := (List.forall₂_cons.mp h).1 (.var "a" Ty.int) List.mem_cons_self
  cases found
  exact absurd hty (by decide)

end JavaMinus
