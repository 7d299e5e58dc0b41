import JavaMinus.Lowering.Program
import JavaMinus.Proofs.Lowering.CallCode

/-!
# What all lowering does

What is true of lowering whatever is lowered, accepted or not, is a relation between the counters
before, the code written and the counters behind. Such a relation needs to be checked on the steps
that lowering is made of (`Closed`): nothing, one instruction, one fresh temporary, one thing after
the other. Then it holds of the lowering of every expression (`Expr.lower_always`).

The code of an expression runs straight through: it has no label, no jump and no return. All of it
but the calls themselves is quiet: it calls no method.
-/

namespace JavaMinus

open Tac Lower

namespace Tac.Instr

/-- Control passes from the instruction to the next one and nowhere else, and only from the one in
front of it. -/
def isStraight : Instr → Bool
  | .ret _ | .branch .. | .jump _ | .label _ => false
  | _ => true

/-- The instruction calls a method. A constructor is not one. -/
def isMethodCall : Instr → Bool
  | .call _ .constructor .. => false
  | .call .. => true
  | _ => false

/-- The instruction is straight and calls no method. -/
def isQuiet (i : Instr) : Bool := i.isStraight && !i.isMethodCall

theorem isStraight_of_isQuiet {i : Instr} (h : i.isQuiet = true) : i.isStraight = true := by
  simp only [isQuiet, Bool.and_eq_true] at h
  exact h.1

theorem isMethodCall_of_isQuiet {i : Instr} (h : i.isQuiet = true) : i.isMethodCall = false := by
  simp only [isQuiet, Bool.and_eq_true, Bool.not_eq_true'] at h
  exact h.2

end Tac.Instr

namespace Lower

/-- A relation between the counters before, the code written, and the counters behind, which
instructions of a property satisfy, and which holds of a whole when it holds of the parts. -/
structure Closed (P : Instr → Prop) (R : Counters → List Instr → Counters → Prop) : Prop where
  nil : ∀ c, R c [] c
  append : ∀ {c c₁ c₂ code₁ code₂}, R c code₁ c₁ → R c₁ code₂ c₂ → R c (code₁ ++ code₂) c₂
  fresh : ∀ c : Counters, R c [] { c with temps := c.temps + 1 }
  emit : ∀ c i, P i → R c [i] c

/-- The relation holds of every run of the computation. -/
def Always {α : Type} (R : Counters → List Instr → Counters → Prop) (x : Lower α) : Prop :=
  ∀ c a code c', x.run c = .done a code c' → R c code c'

variable {α β : Type} {P : Instr → Prop} {R : Counters → List Instr → Counters → Prop}

/-- What holds when more instructions are allowed. -/
theorem Closed.mono {P' : Instr → Prop} (hR : Closed P R) (h : ∀ i, P' i → P i) : Closed P' R :=
  { hR with emit := fun c i hi => hR.emit c i (h i hi) }

theorem Always.bind (hR : Closed P R) {x : Lower α} {f : α → Lower β} (hx : x.Always R)
    (hf : ∀ a, (f a).Always R) : (x >>= f).Always R := by
  intro c b code c' h
  obtain ⟨a, code₁, c₁, code₂, h₁, h₂, rfl⟩ := run_bind_eq_done.mp h
  exact hR.append (hx _ _ _ _ h₁) (hf a _ _ _ _ h₂)

theorem always_pure (hR : Closed P R) (a : α) : (pure a : Lower α).Always R := by
  intro c b code c' h
  cases h
  exact hR.nil c

theorem always_emit (hR : Closed P R) {i : Instr} (h : P i) : (emit i).Always R := by
  intro c b code c' hr
  cases hr
  exact hR.emit c i h

theorem always_fresh (hR : Closed P R) (ty : Ty) : (fresh ty).Always R := by
  intro c b code c' h
  cases h
  exact hR.fresh c

theorem always_fail (e : LoweringError) : (fail e : Lower α).Always R := by
  intro c b code c' h
  cases h

theorem always_ofTyping (hR : Closed P R) (o : Except TypeError α) : (ofTyping o).Always R := by
  cases o with
  | ok a => exact always_pure hR a
  | error e => exact always_fail _

theorem always_ofOption (hR : Closed P R) (e : LoweringError) (o : Option α) :
    (ofOption e o).Always R := by
  cases o with
  | some a => exact always_pure hR a
  | none => exact always_fail e

theorem always_intoFresh (hR : Closed P R) {ty : Ty} {instr : Operand → Instr}
    (h : ∀ dest, P (instr dest)) : (intoFresh ty instr).Always R :=
  .bind hR (always_fresh hR ty) fun dest =>
    .bind hR (always_emit hR (h dest)) fun _ => always_pure hR _

/-! ## Quiet parts -/

section Quiet
variable (hR : Closed (fun i => i.isQuiet = true) R)
include hR

theorem always_readVariable (s : Scope) (name : String) : (readVariable s name).Always R := by
  unfold readVariable
  refine .bind hR (always_ofOption hR _ _) fun v => ?_
  split
  · exact always_intoFresh hR fun _ => rfl
  · exact always_pure hR _

theorem always_storeAll (array : Operand) (values : List Operand) :
    ∀ index, (storeAll array index values).Always R := by
  induction values with
  | nil => exact fun _ => always_pure hR _
  | cons value rest ih =>
    exact fun index => .bind hR (always_emit hR rfl) fun _ => ih (index + 1)

theorem always_packArray (element : Ty) (values : List Operand) :
    (packArray element values).Always R := by
  have packs : (do
      let array ← intoFresh (Ty.array element.name) fun dest =>
        .newArray dest (.int (Int32.ofNat values.length)) element
      storeAll array 0 values
      return array : Lower Operand).Always R :=
    .bind hR (always_intoFresh hR fun _ => rfl) fun array =>
      .bind hR (always_storeAll hR array values 0) fun _ => always_pure hR _
  unfold packArray
  split
  · exact .bind hR (always_fail _) fun _ => packs
  · exact packs

theorem always_settleBefore (operand : Operand) (next : Expr) :
    (settleBefore operand next).Always R := by
  unfold settleBefore
  split
  · exact always_intoFresh hR fun _ => rfl
  · exact always_pure hR _

theorem always_packVarargs (s : Scope) (m : Signature) (method : String) (args : List Operand) :
    (packVarargs s m method args).Always R := by
  unfold packVarargs
  split
  · exact always_pure hR _
  · split
    · exact always_pure hR _
    · split
      · split
        · exact always_pure hR _
        · exact always_fail _
      · refine .bind hR (always_ofOption hR _ _) fun element => ?_
        exact .bind hR (always_packArray hR element _) fun packed => always_pure hR _

theorem always_allocate (className : String) : (allocate className).Always R :=
  .bind hR (always_fresh hR _) fun _ => .bind hR (always_emit hR rfl) fun _ =>
    .bind hR (always_emit hR rfl) fun _ => always_pure hR _

theorem always_elementAt (site : Site) (array index : Operand) :
    (elementAt site array index).Always R := by
  unfold elementAt
  refine .bind hR (always_ofOption hR _ _) fun ty => ?_
  dsimp only
  split
  · exact always_intoFresh hR fun _ => rfl
  · exact always_pure hR _

end Quiet

/-! ## Expressions -/

variable (hR : Closed (fun i => i.isStraight = true) R)
include hR

theorem Closed.quiet : Closed (fun i => i.isQuiet = true) R :=
  hR.mono fun _ => Instr.isStraight_of_isQuiet

theorem always_pair {s : Scope} {op : BinaryOp} {left right : Expr}
    {lowerLeft lowerRight : Site → Lower Operand} (hl : ∀ site, (lowerLeft site).Always R)
    (hr : ∀ site, (lowerRight site).Always R) :
    (pair s op left right lowerLeft lowerRight).Always R := by
  unfold pair
  refine .bind hR (always_ofTyping hR _) fun sites => ?_
  refine .bind hR (hl _) fun l => ?_
  refine .bind hR (always_settleBefore hR.quiet l right) fun l => ?_
  exact .bind hR (hr _) fun r => always_pure hR _

theorem always_receiver {s : Scope} {target : CallTarget} {object : Lower Operand}
    (ho : object.Always R) : (receiver s target object).Always R := by
  unfold receiver
  split
  · exact always_pure hR _
  · split
    · exact always_pure hR _
    · exact ho
  · exact ho

theorem always_pass (s : Scope) (target : CallTarget) (method : String) (values : List Operand) :
    (pass s target method values).Always R := by
  cases target with
  | declared m => exact always_packVarargs hR.quiet s m method values
  | _ => exact always_pure hR values

theorem always_invoke (site : Site) (method : String) (target : CallTarget) (on : Operand)
    (values : List Operand) : (invoke site method target on values).Always R := by
  unfold invoke
  split
  · exact .bind hR (always_fresh hR _) fun _ => .bind hR (always_emit hR rfl) fun _ =>
      always_pure hR _
  · exact .bind hR (always_emit hR rfl) fun _ => always_pure hR _

theorem always_callCode {s : Scope} {site : Site} {method : String}
    {target : Except TypeError CallTarget} {object : Lower Operand}
    {args : (Nat → Site) → Lower (List Operand)} (ho : object.Always R)
    (ha : ∀ sites, (args sites).Always R) :
    (callCode s site method target object args).Always R := by
  rw [callCode_eq]
  refine .bind hR (always_ofTyping hR _) fun target => ?_
  refine .bind hR (always_receiver hR ho) fun on => ?_
  refine .bind hR (ha _) fun values => ?_
  exact .bind hR (always_pass hR s target method values) fun passed =>
    always_invoke hR site method target on passed

end Lower

variable {R : Counters → List Instr → Counters → Prop}
  (hR : Closed (fun i => i.isStraight = true) R)
include hR

mutual
/-- What holds of straight instructions, and of a whole when it holds of its parts, holds of the
lowering of every expression. -/
theorem Expr.lower_always (s : Scope) : ∀ (e : Expr) (site : Site), (e.lower s site).Always R
  | .intLit .., _ => always_pure hR _
  | .boolLit .., _ => always_pure hR _
  | .ident name _, _ => always_readVariable hR.quiet s name
  | .self _, _ => always_pure hR _
  | .binary op left right _, _ => by
    refine .bind hR (always_pair hR (fun site => lower_always s left site) fun site =>
      lower_always s right site) fun p => ?_
    exact always_intoFresh hR fun _ => rfl
  | .not operand _, _ =>
    .bind hR (lower_always s operand _) fun _ => always_intoFresh hR fun _ => rfl
  | .arrayLit elements _, site => by
    refine .bind hR (always_ofTyping hR _) fun ty => ?_
    refine .bind hR (always_ofOption hR _ _) fun element => ?_
    refine .bind hR (lowerAll_always s elements _ 0) fun values => ?_
    exact always_packArray hR.quiet element values
  | .index array place _, site => by
    refine .bind hR (lower_always s array _) fun a => ?_
    exact .bind hR (lower_always s place _) fun i => always_elementAt hR.quiet site a i
  | .newArray _ length _, _ =>
    .bind hR (lower_always s length _) fun _ => always_intoFresh hR fun _ => rfl
  | .newObject className _, _ => always_allocate hR.quiet className
  | .member object property _, _ => by
    unfold lower
    split
    · exact always_fail _
    · exact .bind hR (lower_always s object _) fun _ => always_intoFresh hR fun _ => rfl
  | .call receiver _ args _, _ => by
    refine .bind hR (always_callCode hR (lower_always s receiver _) fun sites =>
      lowerAll_always s args sites 0) fun result => ?_
    exact always_ofOption hR _ _
  | .paren inner _, site => lower_always s inner site
/-- So does it hold of the lowering of several expressions. -/
theorem Expr.lowerAll_always (s : Scope) :
    ∀ (es : List Expr) (sites : Nat → Site) (i : Nat), (Expr.lowerAll s sites i es).Always R
  | [], _, _ => always_pure hR _
  | e :: es, sites, i =>
    .bind hR (lower_always s e _) fun _ =>
      .bind hR (lowerAll_always s es sites (i + 1)) fun _ => always_pure hR _
end

theorem Expr.lowerDiscarded_always (s : Scope) (e : Expr) : (e.lowerDiscarded s).Always R := by
  unfold lowerDiscarded
  split
  · next receiver _ args _ _ =>
    exact .bind hR (always_callCode hR (lower_always hR s receiver _) fun sites =>
      lowerAll_always hR s args sites 0) fun _ => always_pure hR _
  · exact .bind hR (lower_always hR s _ _) fun _ => always_pure hR _

/-! ## Statements without statements in them -/

namespace Lower

theorem always_assign (s : Scope) (name : String) (value : Expr) :
    (assign s name value).Always R := by
  unfold assign
  refine .bind hR (always_ofOption hR _ _) fun v => ?_
  refine .bind hR (value.lower_always hR s _) fun operand => ?_
  split
  · exact always_emit hR rfl
  · exact always_emit hR rfl

theorem always_assignElement (s : Scope) (name : String) (index value : Expr) :
    (assignElement s name index value).Always R := by
  have stores (array : Operand) (element : Ty) : (do
      let i ← index.lower s (.wanting Ty.int)
      let operand ← value.lower s (.assigned element)
      emit (.arrayStore array i operand) : Lower Unit).Always R :=
    .bind hR (index.lower_always hR s _) fun _ => .bind hR (value.lower_always hR s _) fun _ =>
      always_emit hR rfl
  unfold assignElement
  refine .bind hR (always_ofOption hR _ _) fun v => ?_
  refine .bind hR (always_ofOption hR _ _) fun element => ?_
  split
  · exact .bind hR (always_intoFresh hR fun _ => rfl) fun array => stores array element
  · exact .bind hR (always_pure hR _) fun array => stores array element

/-- The code of a condition is straight up to the jump. -/
theorem always_lowerCondition (s : Scope) (e : Expr) {target : String}
    (hjump : ∀ test, (emit (.branch test target)).Always R) : (e.lowerCondition s target).Always R := by
  have value : (do
      let o ← e.lower s (.wanting Ty.boolean)
      let test ← pure (Condition.truthy o)
      emit (.branch test target) : Lower Unit).Always R :=
    .bind hR (e.lower_always hR s _) fun o => .bind hR (always_pure hR _) hjump
  unfold Expr.lowerCondition
  split
  · next op left right span _ =>
    split
    · refine .bind hR (always_pair hR (fun site => left.lower_always hR s site) fun site =>
        right.lower_always hR s site) fun p => ?_
      exact .bind hR (always_pure hR _) hjump
    · exact value
  · exact value

/-- So is that of a returned value up to the return. -/
theorem always_ret (s : Scope) (value : Option Expr) (hret : ∀ o, (emit (.ret o)).Always R) :
    (ret s value).Always R := by
  cases value with
  | none => exact hret none
  | some e => exact .bind hR (e.lower_always hR s _) fun o => hret (some o)

end Lower

end JavaMinus
