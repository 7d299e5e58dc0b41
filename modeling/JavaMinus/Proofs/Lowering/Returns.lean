import JavaMinus.Proofs.Lowering.Always
import JavaMinus.Syntax.Walk

/-!
# Where returns come from

The code of an expression runs straight through: it has no label, no jump and no return
(`Expr.lower_straight`). So the returns of lowered code are those of the statements, one for one
(`Stmt.lowerAll_returns`), and code ends with a return when the statements do
(`Stmt.lowerAll_endsWithReturn`). Both hold of any program that can be lowered, accepted or not.
-/

namespace JavaMinus

open Tac Lower

theorem Tac.Instr.isReturn_of_isStraight {i : Instr} (h : i.isStraight = true) :
    i.isReturn = false := by
  cases i <;> first | rfl | cases h

theorem Tac.Instr.countP_isReturn_eq_zero {code : List Instr}
    (h : ∀ i ∈ code, i.isStraight = true) : code.countP isReturn = 0 := by
  rw [List.countP_eq_zero]
  intro i hi
  rw [isReturn_of_isStraight (h i hi)]
  exact Bool.false_ne_true

namespace Lower

/-- All instructions written are straight. -/
def IsStraight (_ : Counters) (code : List Instr) (_ : Counters) : Prop :=
  ∀ i ∈ code, i.isStraight = true

/-- The computation writes straight code. -/
abbrev Straight {α : Type} (x : Lower α) : Prop := x.Always IsStraight

theorem closed_isStraight : Closed (fun i => i.isStraight = true) IsStraight where
  nil _ := by simp [IsStraight]
  append h₁ h₂ := List.forall_mem_append.mpr ⟨h₁, h₂⟩
  fresh _ := by simp [IsStraight]
  emit _ i h := by simpa [IsStraight] using h

end Lower

/-- The code of an expression runs straight through. -/
theorem Expr.lower_straight (s : Scope) (e : Expr) (site : Site) : (e.lower s site).Straight :=
  e.lower_always closed_isStraight s site

theorem Expr.lowerDiscarded_straight (s : Scope) (e : Expr) : (e.lowerDiscarded s).Straight :=
  e.lowerDiscarded_always closed_isStraight s

/-! ## Statements -/

namespace Lower

/-- The computation writes so many returns. -/
def Returns (n : Nat) (x : Lower Unit) : Prop :=
  ∀ c code c', x.run c = .done () code c' → code.countP Instr.isReturn = n

variable {n m : Nat}

theorem Returns.of_straight {x : Lower Unit} (h : x.Straight) : x.Returns 0 :=
  fun c code c' hrun => Instr.countP_isReturn_eq_zero (h c () code c' hrun)

theorem Returns.bind {α : Type} {x : Lower α} {f : α → Lower Unit} (hx : x.Straight)
    (hf : ∀ a, (f a).Returns n) : (x >>= f).Returns n := by
  intro c code c' h
  obtain ⟨a, code₁, c₁, code₂, h₁, h₂, rfl⟩ := run_bind_eq_done.mp h
  rw [List.countP_append, Instr.countP_isReturn_eq_zero (hx _ _ _ _ h₁), hf a _ _ _ h₂, Nat.zero_add]

theorem Returns.seq {x y : Lower Unit} (hx : x.Returns n) (hy : y.Returns m) :
    (x >>= fun _ => y).Returns (n + m) := by
  intro c code c' h
  obtain ⟨a, code₁, c₁, code₂, h₁, h₂, rfl⟩ := run_bind_eq_done.mp h
  rw [List.countP_append, hx _ _ _ h₁, hy _ _ _ h₂]

theorem returns_pure : (pure () : Lower Unit).Returns 0 := by
  intro c code c' h
  cases h
  rfl

theorem returns_emit (i : Instr) : (emit i).Returns (if i.isReturn then 1 else 0) := by
  intro c code c' h
  cases h
  rw [List.countP_singleton]

theorem returns_condition (s : Scope) (e : Expr) (target : String) :
    (e.lowerCondition s target).Returns 0 := by
  have value : (do
      let o ← e.lower s (.wanting Ty.boolean)
      let test ← pure (Condition.truthy o)
      emit (.branch test target) : Lower Unit).Returns 0 :=
    Returns.bind (e.lower_straight s _) fun _ => Returns.bind (always_pure closed_isStraight _) fun _ =>
      returns_emit _
  unfold Expr.lowerCondition
  split
  · split
    · refine Returns.bind (always_pair closed_isStraight (fun site => Expr.lower_straight s _ site) fun site =>
        Expr.lower_straight s _ site) fun p => ?_
      exact Returns.bind (always_pure closed_isStraight _) fun _ => returns_emit _
    · exact value
  · exact value

theorem returns_freshBranch {f : Nat → Lower Unit} (h : ∀ k, (f k).Returns n) :
    (freshBranch >>= f).Returns n :=
  Returns.bind (by intro c a code c' h; cases h; exact closed_isStraight.nil c) h

theorem returns_freshLoop {f : Nat → Lower Unit} (h : ∀ k, (f k).Returns n) :
    (freshLoop >>= f).Returns n :=
  Returns.bind (by intro c a code c' h; cases h; exact closed_isStraight.nil c) h

theorem returns_branch {s : Scope} {condition : Expr} {thenPart elsePart : Lower Unit}
    (ht : thenPart.Returns n) (he : elsePart.Returns m) :
    (branch s condition thenPart elsePart).Returns (n + m) := by
  have h : (branch s condition thenPart elsePart).Returns (0 + (m + (0 + (0 + (n + 0))))) :=
    returns_freshBranch fun k => (returns_condition s condition _).seq
      (he.seq ((returns_emit _).seq ((returns_emit _).seq (ht.seq (returns_emit _)))))
  intro c code c' hr
  rw [h _ _ _ hr]
  omega

theorem returns_loop {s : Scope} {condition : Expr} {body : Lower Unit} (hb : body.Returns n) :
    (loop s condition body).Returns n := by
  have h : (loop s condition body).Returns (0 + (0 + (0 + (0 + (n + (0 + 0)))))) :=
    returns_freshLoop fun k => (returns_emit _).seq ((returns_condition s condition _).seq
      ((returns_emit _).seq ((returns_emit _).seq (hb.seq ((returns_emit _).seq (returns_emit _))))))
  intro c code c' hr
  rw [h _ _ _ hr]
  omega

theorem returns_ret (s : Scope) (value : Option Expr) : (ret s value).Returns 1 := by
  cases value with
  | none => exact returns_emit _
  | some e => exact Returns.bind (e.lower_straight s _) fun o => returns_emit _

end Lower

mutual
/-- The code of a statement has the returns of the statement. -/
theorem Stmt.lower_returns (s : Scope) :
    ∀ stmt : Stmt, (stmt.lower s).Returns (stmt.nodes.countP Stmt.isReturn)
  | .block body _ => lowerAll_returns s body
  | .branch _ thenBranch none _ => by
    simpa [lower, nodes, isReturn] using returns_branch (lower_returns s thenBranch) returns_pure
  | .branch _ thenBranch (some elseBranch) _ => by
    simpa [lower, nodes, isReturn] using
      returns_branch (lower_returns s thenBranch) (lower_returns s elseBranch)
  | .loop _ body _ => by
    simpa [lower, nodes, isReturn] using returns_loop (lower_returns s body)
  | .expr e _ => .of_straight (e.lowerDiscarded_straight s)
  | .assign name value _ => .of_straight (always_assign closed_isStraight s name value)
  | .assignElement name index value _ =>
    .of_straight (always_assignElement closed_isStraight s name index value)
  | .ret value _ => returns_ret s value
/-- The code of statements has the returns of the statements. -/
theorem Stmt.lowerAll_returns (s : Scope) :
    ∀ body : List Stmt, (Stmt.lowerAll s body).Returns (Stmt.returnCount body)
  | [] => returns_pure
  | stmt :: rest => by
    simpa [lowerAll, returnCount, nodesAll] using
      (lower_returns s stmt).seq (lowerAll_returns s rest)
end

/-- Code ends with a return when the statements do. -/
theorem Stmt.lowerAll_endsWithReturn {s : Scope} {body : List Stmt} {c c' : Counters}
    {code : List Instr} (h : (Stmt.lowerAll s body).run c = .done () code c')
    (hlast : body.getLast?.any Stmt.isReturn = true) :
    code.getLast?.any Instr.isReturn = true := by
  induction body generalizing c code with
  | nil => cases hlast
  | cons stmt rest ih =>
    obtain ⟨_, code₁, c₁, code₂, h₁, h₂, rfl⟩ := run_bind_eq_done.mp h
    cases rest with
    | cons next rest =>
      have ih := ih h₂ (by simpa using hlast)
      rw [List.getLast?_append]
      cases hl : code₂.getLast? with
      | none => rw [hl] at ih; cases ih
      | some i => rw [hl] at ih; exact ih
    | nil =>
      cases h₂
      rw [List.append_nil]
      cases stmt with
      | ret value span =>
        cases value with
        | none => cases h₁; rfl
        | some e =>
          obtain ⟨_, _, _, _, _, h₂, rfl⟩ := run_bind_eq_done.mp h₁
          cases h₂
          simp [Instr.isReturn]
      | _ => cases hlast

end JavaMinus
