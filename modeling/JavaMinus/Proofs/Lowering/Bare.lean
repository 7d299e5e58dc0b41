import JavaMinus.Lowering.Program
import JavaMinus.Proofs.Lowering.CallCode
import JavaMinus.Proofs.Typing.Bare

/-!
# Lowering looks through parentheses

A program and what is left of it without parentheses and spans are lowered to the same code. Where
lowering stops with an error of inference the places of the two errors may differ, and in nothing else
do the two computations differ (`Lower.Alike`): what an expression yields, the instructions, the
counters and all other errors are the same (`Expr.lower_bare`, `Program.lower_bare`).
-/

namespace JavaMinus

open Tac Lower

/-- The error without its place. Only the errors of inference have one. -/
def LoweringError.bare : LoweringError → LoweringError
  | .typing cause => .typing cause.bare
  | e => e

/-- Ends that differ at most in the place of an error. -/
inductive Lowered.Alike {α : Type} : Lowered α → Lowered α → Prop
  | done (a : α) (code : List Instr) (c : Counters) : Alike (.done a code c) (.done a code c)
  | failed {e e' : LoweringError} (h : e.bare = e'.bare) (c : Counters) :
    Alike (.failed e c) (.failed e' c)

namespace Lower

variable {α β : Type}

/-- Computations that differ at most in the place of the error that they stop with. -/
def Alike (x y : Lower α) : Prop := ∀ c, (x.run c).Alike (y.run c)

theorem Alike.refl (x : Lower α) : Alike x x := by
  intro c
  cases x.run c with
  | done a code c => exact .done a code c
  | failed e c => exact .failed rfl c

/-- Sequences are alike when their parts are. -/
theorem Alike.bind {x y : Lower α} {f g : α → Lower β} (hx : Alike x y)
    (hf : ∀ a, Alike (f a) (g a)) : Alike (x >>= f) (y >>= g) := by
  intro c
  have first := hx c
  rw [run_bind, run_bind]
  generalize x.run c = here at first ⊢
  generalize y.run c = there at first ⊢
  cases first with
  | failed h c => exact .failed h c
  | done a code c =>
    have second := hf a c
    dsimp only
    generalize (f a).run c = here at second ⊢
    generalize (g a).run c = there at second ⊢
    cases second with
    | failed h c => exact .failed h c
    | done b more c => exact .done b (code ++ more) c

/-- A computation goes on alike. -/
theorem Alike.next {x : Lower α} {f g : α → Lower β} (hf : ∀ a, Alike (f a) (g a)) :
    Alike (x >>= f) (x >>= g) :=
  .bind (.refl x) hf

/-- Inference stops lowering with one error, whatever the place of the error. -/
theorem alike_ofTyping (outcome : Except TypeError α) :
    Alike (ofTyping (bareOutcome outcome)) (ofTyping outcome) := by
  intro c
  cases outcome with
  | ok a => exact .done a [] c
  | error e =>
    refine .failed ?_ c
    cases e <;> rfl

end Lower

/-! ## Expressions -/

namespace Expr

mutual
@[simp] theorem containsCall_bare : ∀ e : Expr, e.bare.containsCall = e.containsCall
  | .intLit .. | .boolLit .. | .ident .. | .self _ | .newObject .. | .call .. => by
    rw [bare, containsCall, containsCall]
  | .binary _ l r _ => by
    rw [bare, containsCall, containsCall, containsCall_bare l, containsCall_bare r]
  | .not e _ | .newArray _ e _ | .member e _ _ => by
    rw [bare, containsCall, containsCall, containsCall_bare e]
  | .arrayLit es _ => by rw [bare, containsCall, containsCall, anyContainsCall_bareAll es]
  | .index a i _ => by
    rw [bare, containsCall, containsCall, containsCall_bare a, containsCall_bare i]
  | .paren e _ => by rw [bare, containsCall, containsCall_bare e]
theorem anyContainsCall_bareAll : ∀ es : List Expr,
    anyContainsCall (bareAll es) = anyContainsCall es
  | [] => rfl
  | e :: es => by
    rw [bareAll, anyContainsCall, anyContainsCall, containsCall_bare e,
      anyContainsCall_bareAll es]
end

end Expr

namespace Lower

variable {s : Scope}

theorem settleBefore_bare (operand : Operand) (next : Expr) :
    settleBefore operand next.bare = settleBefore operand next := by
  rw [settleBefore, settleBefore, Expr.containsCall_bare]

/-- Operands stand at the same sites. -/
theorem operandSites_bare (op : BinaryOp) (left right : Expr) :
    operandSites s op left.bare right.bare = bareOutcome (operandSites s op left right) := by
  unfold operandSites
  rw [Expr.isCall_bare, Expr.infer_bare, Expr.infer_bare]
  split
  · split
    · exact bind_bareOutcome fun _ => rfl
    · exact bind_bareOutcome fun _ => rfl
  · rfl

theorem alike_pair {op : BinaryOp} {left right : Expr} {l l' r r' : Site → Lower Operand}
    (hl : ∀ site, Alike (l site) (l' site)) (hr : ∀ site, Alike (r site) (r' site)) :
    Alike (pair s op left.bare right.bare l r) (pair s op left right l' r') := by
  unfold pair
  rw [operandSites_bare]
  refine .bind (alike_ofTyping _) fun sites => .bind (hl _) fun left => ?_
  rw [settleBefore_bare]
  exact .next fun _ => .bind (hr _) fun _ => .refl _

theorem alike_receiver {target : CallTarget} {object object' : Lower Operand}
    (h : Alike object object') : Alike (receiver s target object) (receiver s target object') := by
  unfold receiver
  split
  · exact .refl _
  · split
    · exact .refl _
    · exact h
  · exact h

theorem alike_callCode {site : Site} {method : String} {target : Except TypeError CallTarget}
    {object object' : Lower Operand} {args args' : (Nat → Site) → Lower (List Operand)}
    (ho : Alike object object') (ha : ∀ sites, Alike (args sites) (args' sites)) :
    Alike (callCode s site method (bareOutcome target) object args)
      (callCode s site method target object' args') := by
  rw [callCode_eq, callCode_eq]
  refine .bind (alike_ofTyping _) fun target => .bind (alike_receiver ho) fun on => ?_
  exact .bind (ha _) fun values => .refl _

end Lower

namespace Expr

variable {s : Scope}

mutual
/-- An expression has the same code without parentheses and spans. -/
theorem lower_bare (s : Scope) : ∀ (e : Expr) (site : Site),
    Alike (e.bare.lower s site) (e.lower s site)
  | .intLit .., _ | .boolLit .., _ | .ident .., _ | .self _, _ | .newObject .., _ => .refl _
  | .binary op left right _, _ => by
    rw [bare, lower, lower]
    exact .bind (alike_pair (lower_bare s left) (lower_bare s right)) fun _ => .refl _
  | .not e _, _ => by
    rw [bare, lower, lower]
    exact .bind (lower_bare s e _) fun _ => .refl _
  | .arrayLit es span, site => by
    have typed : (arrayLit (bareAll es) {}).infer s site = _ := infer_bare s (arrayLit es span) site
    rw [bare, lower, lower, typed]
    refine .bind (alike_ofTyping _) fun ty => .next fun element => ?_
    exact .bind (lowerAll_bare s es _ 0) fun _ => .refl _
  | .index array place _, _ => by
    rw [bare, lower, lower]
    exact .bind (lower_bare s array _) fun _ => .bind (lower_bare s place _) fun _ => .refl _
  | .newArray element length _, _ => by
    rw [bare, lower, lower, TypeRef.ty_bare]
    exact .bind (lower_bare s length _) fun _ => .refl _
  | .member object property _, _ => by
    rw [bare, lower, lower]
    split
    · exact .refl _
    · exact .bind (lower_bare s object _) fun _ => .refl _
  | .call receiver method args span, site => by
    rw [bare, lower, lower, callTarget_bare s receiver method span]
    exact .bind (alike_callCode (lower_bare s receiver _) fun sites => lowerAll_bare s args sites 0)
      fun _ => .refl _
  | .paren inner _, site => by
    rw [bare, lower]
    exact lower_bare s inner site
theorem lowerAll_bare (s : Scope) : ∀ (es : List Expr) (sites : Nat → Site) (i : Nat),
    Alike (lowerAll s sites i (bareAll es)) (lowerAll s sites i es)
  | [], _, _ => .refl _
  | e :: es, sites, i => by
    rw [bareAll, lowerAll, lowerAll]
    exact .bind (lower_bare s e _) fun _ => .bind (lowerAll_bare s es sites (i + 1)) fun _ =>
      .refl _
end

/-- A call whose value is dropped is found inside its parentheses. -/
theorem lowerDiscarded_bare (s : Scope) : ∀ e : Expr,
    Alike (e.bare.lowerDiscarded s) (e.lowerDiscarded s)
  | .paren e _ => lowerDiscarded_bare s e
  | .call receiver method args span => by
    show Alike (callCode _ _ _ (receiver.bare.callTarget s method {}) _ _ >>= _) (_ >>= _)
    rw [callTarget_bare s receiver method span]
    exact .bind (alike_callCode (lower_bare s receiver _) fun sites => lowerAll_bare s args sites 0)
      fun _ => .refl _
  | .intLit .. | .boolLit .. | .ident .. | .self _ | .binary .. | .not .. | .arrayLit ..
  | .index .. | .newArray .. | .newObject .. | .member .. =>
    .bind (lower_bare s _ .discarded) fun _ => .refl _

/-- A relation that is tested by a jump is found inside its parentheses. -/
theorem lowerCondition_bare (s : Scope) (target : String) : ∀ e : Expr,
    Alike (e.bare.lowerCondition s target) (e.lowerCondition s target)
  | .paren e _ => lowerCondition_bare s target e
  | .binary op left right span => by
    show Alike (if op.isRelational then _ else _) (if op.isRelational then _ else _)
    split
    · exact .bind (alike_pair (lower_bare s left) (lower_bare s right)) fun _ => .refl _
    · exact .bind (lower_bare s (.binary op left right span) _) fun _ => .refl _
  | .intLit .. | .boolLit .. | .ident .. | .self _ | .not .. | .arrayLit .. | .index ..
  | .newArray .. | .newObject .. | .member .. | .call .. =>
    .bind (lower_bare s _ (.wanting Ty.boolean)) fun _ => .refl _

end Expr

/-! ## Statements -/

namespace Lower

theorem alike_assign (s : Scope) (name : String) (value : Expr) :
    Alike (assign s name value.bare) (assign s name value) := by
  unfold assign
  exact .next fun v => .bind (value.lower_bare s _) fun _ => .refl _

theorem alike_assignElement (s : Scope) (name : String) (index value : Expr) :
    Alike (assignElement s name index.bare value.bare) (assignElement s name index value) := by
  have stores (array : Operand) (element : Ty) : Alike
      (do
        let i ← index.bare.lower s (.wanting Ty.int)
        let operand ← value.bare.lower s (.assigned element)
        emit (.arrayStore array i operand))
      (do
        let i ← index.lower s (.wanting Ty.int)
        let operand ← value.lower s (.assigned element)
        emit (.arrayStore array i operand)) :=
    .bind (index.lower_bare s _) fun _ => .bind (value.lower_bare s _) fun _ => .refl _
  unfold assignElement
  refine .next fun v => .next fun element => ?_
  split
  · exact .next fun array => stores array element
  · exact .next fun array => stores array element

theorem alike_branch {s : Scope} {thenPart thenPart' elsePart elsePart' : Lower Unit}
    (condition : Expr) (ht : Alike thenPart thenPart') (he : Alike elsePart elsePart') :
    Alike (branch s condition.bare thenPart elsePart) (branch s condition thenPart' elsePart') := by
  unfold branch
  refine .next fun n => .bind (condition.lowerCondition_bare s _) fun _ => .bind he fun _ => ?_
  exact .next fun _ => .next fun _ => .bind ht fun _ => .refl _

theorem alike_loop {s : Scope} {body body' : Lower Unit} (condition : Expr) (hb : Alike body body') :
    Alike (loop s condition.bare body) (loop s condition body') := by
  unfold loop
  refine .next fun n => .next fun _ => .bind (condition.lowerCondition_bare s _) fun _ => ?_
  exact .next fun _ => .next fun _ => .bind hb fun _ => .refl _

end Lower

namespace Stmt

mutual
/-- A statement has the same code without parentheses and spans. -/
theorem lower_bare (s : Scope) : ∀ stmt : Stmt, Alike (stmt.bare.lower s) (stmt.lower s)
  | .block body _ => by
    rw [bare, lower, lower]
    exact lowerAll_bare s body
  | .branch condition thenBranch none _ => by
    rw [bare, lower, lower]
    exact alike_branch condition (lower_bare s thenBranch) (.refl _)
  | .branch condition thenBranch (some elseBranch) _ => by
    rw [bare, lower, lower]
    exact alike_branch condition (lower_bare s thenBranch) (lower_bare s elseBranch)
  | .loop condition body _ => by
    rw [bare, lower, lower]
    exact alike_loop condition (lower_bare s body)
  | .expr e _ => by
    rw [bare, lower, lower]
    exact e.lowerDiscarded_bare s
  | .assign name value _ => by
    rw [bare, lower, lower]
    exact alike_assign s name value
  | .assignElement name index value _ => by
    rw [bare, lower, lower]
    exact alike_assignElement s name index value
  | .ret none _ => .refl _
  | .ret (some e) _ => by
    rw [bare, lower, lower, Option.map_some, Lower.ret, Lower.ret]
    exact .bind (e.lower_bare s _) fun _ => .refl _
theorem lowerAll_bare (s : Scope) : ∀ body : List Stmt,
    Alike (lowerAll s (bareAll body)) (lowerAll s body)
  | [] => .refl _
  | stmt :: rest => by
    rw [bareAll, lowerAll, lowerAll]
    exact .bind (lower_bare s stmt) fun _ => lowerAll_bare s rest
end

end Stmt

/-! ## Programs -/

theorem Lower.Alike.codeOf {x y : Lower Unit} (h : Alike x y) :
    Alike (Lower.codeOf x) (Lower.codeOf y) := by
  intro c
  have hc := h c
  unfold Lower.codeOf
  dsimp only
  generalize x.run c = here at hc ⊢
  generalize y.run c = there at hc ⊢
  cases hc with
  | failed h c => exact .failed h c
  | done a code c => exact .done code [] c

variable {t : SymbolTable} {policy : Policy}

theorem MethodDecl.lower_bare (signature : Signature) (m : MethodDecl) :
    Alike (m.bare.lower t policy signature) (m.lower t policy signature) := by
  unfold lower
  exact .bind (Stmt.lowerAll_bare _ m.body).codeOf fun code => .refl _

theorem lowerMethods_bare : ∀ (methods : List MethodDecl) (index : Nat),
    Alike (lowerMethods t policy index (methods.map MethodDecl.bare))
      (lowerMethods t policy index methods)
  | [], _ => .refl _
  | m :: rest, index => by
    rw [List.map_cons, lowerMethods, lowerMethods]
    refine .next fun signature => .bind (m.lower_bare signature) fun method => ?_
    exact .bind (lowerMethods_bare rest (index + 1)) fun _ => .refl _

/-- A program has the same code without parentheses and spans. -/
theorem Program.lower_bare (p : Program) (t : SymbolTable) (policy : Policy) :
    Alike (p.bare.lower t policy) (p.lower t policy) := by
  unfold lower
  exact .next fun _ => .bind (lowerMethods_bare p.classDecl.methods 0) fun _ => .refl _

end JavaMinus
