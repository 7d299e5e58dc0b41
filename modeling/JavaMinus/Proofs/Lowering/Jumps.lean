import JavaMinus.Proofs.Jvm.Emits
import JavaMinus.Proofs.Lowering.Labels
import JavaMinus.Proofs.Lowering.Program
import JavaMinus.Syntax.Build

/-!
# Every jump resolves

A branch and a loop place every label that they jump to, so the code of a statement jumps to labels
that it places itself (`Stmt.lower_jumpsInside`). Labels are numbered through all methods of a class,
so no label is placed twice in it, and no label of a statement is one of a comparison. With both, every
jump has exactly one place to go to, in three-address code and in the code that is selected for it, and
the label map that was filled while the code came in says where (`Program.jumps_of_lower`). The program
need not be accepted.
-/

namespace JavaMinus

open Tac Lower

/-- The code jumps to these labels only. -/
def Tac.JumpsTo (names : List String) (code : List Instr) : Prop :=
  ∀ i ∈ code, ∀ name, i.target? = some name → name ∈ names

namespace Tac.JumpsTo

variable {names more : List String} {code rest : List Instr}

theorem mono (h : JumpsTo names code) (hle : names ⊆ more) : JumpsTo more code :=
  fun i hi name ht => hle (h i hi name ht)

theorem append (h : JumpsTo names code) (hr : JumpsTo names rest) : JumpsTo names (code ++ rest) :=
  List.forall_mem_append.mpr ⟨h, hr⟩

theorem single {i : Instr} (h : ∀ name, i.target? = some name → name ∈ names) : JumpsTo names [i] :=
  fun j hj => by rwa [List.mem_singleton.mp hj]

theorem jump (target : String) : JumpsTo [target] [.jump target] :=
  single fun name hname => by
    cases hname
    exact List.mem_singleton_self _

theorem label (name : String) (names : List String) : JumpsTo names [.label name] :=
  single fun _ hname => by cases hname

end Tac.JumpsTo

/-- The code jumps to labels that it places itself. -/
def Tac.JumpsInside (code : List Instr) : Prop := JumpsTo (labelsOf code) code

theorem Tac.JumpsInside.append {code rest : List Instr} (h : JumpsInside code)
    (hr : JumpsInside rest) : JumpsInside (code ++ rest) := by
  unfold JumpsInside
  rw [labelsOf_append]
  exact (h.mono (List.subset_append_left _ _)).append (hr.mono (List.subset_append_right _ _))

namespace Lower

variable {s : Scope} {names : List String}

/-- Instructions that jump to some labels make code that jumps to them. -/
theorem closed_jumpsTo (names : List String) :
    Closed (fun i => ∀ name, i.target? = some name → name ∈ names) fun _ code _ => JumpsTo names code where
  nil _ := List.forall_mem_nil _
  append := JumpsTo.append
  fresh _ := List.forall_mem_nil _
  emit _ _ := JumpsTo.single

/-- Code without jumps jumps to labels that it places. -/
theorem closed_jumpsInside : Closed (fun i => i.target? = none) fun _ code _ => JumpsInside code where
  nil _ := List.forall_mem_nil _
  append := JumpsInside.append
  fresh _ := List.forall_mem_nil _
  emit _ i hi := JumpsTo.single fun name hname => by rw [hi] at hname; cases hname

theorem target?_of_isStraight {i : Instr} (h : i.isStraight = true) : i.target? = none := by
  cases i <;> first | rfl | cases h

/-- A condition jumps to one label. -/
theorem jumpsTo_condition (e : Expr) (target : String) :
    (e.lowerCondition s target).Always fun _ code _ => JumpsTo [target] code := by
  have straight : Closed (fun i => i.isStraight = true) fun _ code _ => JumpsTo [target] code :=
    (closed_jumpsTo [target]).mono fun i hi name hname => by
      rw [target?_of_isStraight hi] at hname
      cases hname
  refine always_lowerCondition straight s e fun test => always_emit (closed_jumpsTo [target]) ?_
  intro name hname
  cases hname
  exact List.mem_singleton_self _

/-- A branch places both labels that it jumps to. -/
theorem jumpsInside_branch {condition : Expr} {thenPart elsePart : Lower Unit}
    (ht : thenPart.Always fun _ code _ => JumpsInside code)
    (he : elsePart.Always fun _ code _ => JumpsInside code) :
    (branch s condition thenPart elsePart).Always fun _ code _ => JumpsInside code := by
  intro c _ code c' hrun
  obtain ⟨c₀, test, c₁, elses, c₂, thens, -, htest, helses, hthens, rfl⟩ := branch_eq_done hrun
  have htest := jumpsTo_condition condition _ _ _ _ _ htest
  have helses := he _ _ _ _ helses
  have hthens := ht _ _ _ _ hthens
  refine ((((JumpsTo.append (htest.mono ?_) (helses.mono ?_)).append ((JumpsTo.jump _).mono ?_)).append
    (.label _ _)).append (hthens.mono ?_)).append (.label _ _)
  all_goals
    intro name hname
    simp only [labelsOf_append, List.mem_append]
  · exact .inl (.inl (.inr hname))
  · exact .inl (.inl (.inl (.inl (.inr hname))))
  · exact .inr hname
  · exact .inl (.inr hname)

/-- A loop places the three labels that it jumps to. -/
theorem jumpsInside_loop {condition : Expr} {body : Lower Unit}
    (hb : body.Always fun _ code _ => JumpsInside code) :
    (loop s condition body).Always fun _ code _ => JumpsInside code := by
  intro c _ code c' hrun
  obtain ⟨c₀, test, c₁, inner, -, htest, hinner, rfl⟩ := loop_eq_done hrun
  have htest := jumpsTo_condition condition _ _ _ _ _ htest
  have hinner := hb _ _ _ _ hinner
  refine ((((((JumpsTo.label _ _).append (htest.mono ?_)).append ((JumpsTo.jump _).mono ?_)).append
    (.label _ _)).append (hinner.mono ?_)).append ((JumpsTo.jump _).mono ?_)).append (.label _ _)
  all_goals
    intro name hname
    simp only [labelsOf_append, List.mem_append]
  · exact .inl (.inl (.inl (.inr hname)))
  · exact .inr hname
  · exact .inl (.inl (.inr hname))
  · exact .inl (.inl (.inl (.inl (.inl (.inl hname)))))

/-- Straight code jumps nowhere. -/
theorem straight_jumpsInside : Closed (fun i => i.isStraight = true) fun _ code _ => JumpsInside code :=
  closed_jumpsInside.mono fun _ => target?_of_isStraight

end Lower

mutual
/-- The code of a statement jumps to labels that it places. -/
theorem Stmt.lower_jumpsInside (s : Scope) :
    ∀ stmt : Stmt, (stmt.lower s).Always fun _ code _ => JumpsInside code
  | .block body _ => lowerAll_jumpsInside s body
  | .branch _ thenBranch none _ =>
    jumpsInside_branch (lower_jumpsInside s thenBranch) (always_pure closed_jumpsInside ())
  | .branch _ thenBranch (some elseBranch) _ =>
    jumpsInside_branch (lower_jumpsInside s thenBranch) (lower_jumpsInside s elseBranch)
  | .loop _ body _ => jumpsInside_loop (lower_jumpsInside s body)
  | .expr e _ => e.lowerDiscarded_always straight_jumpsInside s
  | .assign name value _ => always_assign straight_jumpsInside s name value
  | .assignElement name index value _ => always_assignElement straight_jumpsInside s name index value
  | .ret value _ => always_ret straight_jumpsInside s value fun _ => always_emit closed_jumpsInside rfl
theorem Stmt.lowerAll_jumpsInside (s : Scope) :
    ∀ body : List Stmt, (Stmt.lowerAll s body).Always fun _ code _ => JumpsInside code
  | [] => always_pure closed_jumpsInside ()
  | stmt :: rest =>
    .bind closed_jumpsInside (lower_jumpsInside s stmt) fun _ => lowerAll_jumpsInside s rest
end

/-! ## Methods and classes -/

/-- What starts a label of a statement starts no label of a comparison. -/
theorem Label.Family.notMem_comparisonLabels (k : Family) (n m : Nat) :
    k.label n ∉ Jvm.comparisonLabels m := by
  have first {pre : String} {n : Nat} (h : pre ≠ "") :
      (pre ++ toString n).toList.head? = pre.toList.head? := by
    rw [String.toList_append, List.head?_append_of_ne_nil]
    exact fun hnil => h (String.toList_eq_nil_iff.mp hnil)
  have hc (name : String) (h : name ∈ Jvm.comparisonLabels m) : name.toList.head? = some 'c' := by
    simp only [Jvm.comparisonLabels, List.mem_cons, List.not_mem_nil, or_false] at h
    rcases h with rfl | rfl <;> exact first (by decide)
  intro h
  have hk := hc _ h
  unfold label at hk
  cases k <;> rw [first (by decide)] at hk <;> cases hk

/-- Every jump of a method has one place to go to, in its code and in all code that is selected for it,
and its label map has the labels of its code, each with the index at which it is placed. -/
structure Tac.Method.Resolves (m : Method) : Prop where
  jumps : JumpsInside m.code
  index : ∀ {name : String} {k : Nat},
    m.labelIndex? name = some k ↔ m.code[k]? = some (.label name)
  names : m.labels.map Prod.fst = labelsOf m.code
  labels : ∀ {name : String} {k : Nat}, (name, k) ∈ m.labels ↔ m.code[k]? = some (.label name)
  selected : ∀ {x : Jvm.MethodContext} {code : List Jvm.Instr}, x.select m.code = .ok code →
    ∀ i ∈ code, ∀ name, i.target? = some name → ∃! k : Nat, code[k]? = some (.label name)

/-- A method whose label map is right, whose labels are numbered and that jumps to its own labels
resolves. -/
theorem Tac.Method.resolves_of_numbersLabels {m : Method} {c c' : Counters} (hi : m.Indexed)
    (hn : NumbersLabels c m.code c') (hj : JumpsInside m.code) : m.Resolves where
  jumps := hj
  index := hi.labelIndex?_eq_some hn.once
  names := hi.order hn.once
  labels := hi.mem.trans (lastAt_label hn.once)
  selected h := by
    refine Jvm.MethodContext.jumps_of_select hn.once (fun name hname k => ?_) hj h
    obtain ⟨family, n, rfl, -⟩ := hn.between name hname
    exact family.notMem_comparisonLabels n k

/-- A lowered method numbers its labels and resolves. -/
theorem MethodDecl.resolves_of_lower {t : SymbolTable} {policy : Policy} {signature : Signature}
    {d : MethodDecl} {m : Method} {c c' : Counters} {code : List Instr}
    (h : (d.lower t policy signature).run c = .done m code c') :
    NumbersLabels c m.code c' ∧ m.Resolves := by
  have hi := indexed_of_lower h
  obtain ⟨body, closing, hbody, hm, hclosing⟩ := lower_eq_done h
  have hcode : m.code = body ++ closing := by rw [hm, Scope.code_extend]
  have hn := Stmt.lowerAll_numbersLabels _ _ _ _ _ _ hbody
  have hj := Stmt.lowerAll_jumpsInside _ _ _ _ _ _ hbody
  have closes : NumbersLabels c' closing c' ∧ JumpsInside closing := by
    rcases hclosing with ⟨rfl, -⟩ | ⟨rfl, -⟩
    · exact ⟨.nil c', closed_jumpsInside.nil c'⟩
    · exact ⟨closed_numbersLabels.emit c' _ rfl, closed_jumpsInside.emit c' _ rfl⟩
  have hn := hn.append closes.1
  have hj := hj.append closes.2
  rw [← hcode] at hn hj
  exact ⟨hn, Method.resolves_of_numbersLabels hi hn hj⟩

/-- The constructor has neither labels nor jumps. -/
theorem Tac.Method.numbersLabels_constructor (self : Ty) (c : Counters) :
    NumbersLabels c (Method.constructor self).code c :=
  (closed_numbersLabels.emit c _ rfl).append (closed_numbersLabels.emit c _ rfl)

theorem Tac.Method.resolves_constructor (self : Ty) : (Method.constructor self).Resolves :=
  resolves_of_numbersLabels (indexed_constructor self) (numbersLabels_constructor self {})
    ((closed_jumpsInside.emit {} _ rfl).append (closed_jumpsInside.emit {} _ rfl))

/-- **Every jump resolves.** No label is placed twice in the methods of a lowered program, and every
jump of a method has exactly one place to go to, in its own code and in the code selected for it. The
program need not be accepted, and the table is any. -/
theorem Program.jumps_of_lower {p : Program} {t : SymbolTable} {policy : Policy} {c c' : Counters}
    {unit : ClassUnit} {code : List Instr} (h : (p.lower t policy).run c = .done unit code c') :
    (labelsOf (unit.methods.flatMap Method.code)).Nodup ∧ ∀ m ∈ unit.methods, m.Resolves := by
  obtain ⟨methods, _, hlowered, hmethods⟩ := lower_eq_done h
  obtain ⟨hn, hresolves⟩ := lowerMethods_chained (P := Method.Resolves) NumbersLabels.nil
    NumbersLabels.append MethodDecl.resolves_of_lower p.classDecl.methods 0 hlowered
  rw [hmethods]
  exact ⟨((Method.numbersLabels_constructor _ {}).append hn).once,
    List.forall_mem_cons.mpr ⟨Method.resolves_constructor _, hresolves⟩⟩

/-- A program with a branch in a loop, and with comparisons for values in both parts of the branch. -/
def scanning : Program where
  classDecl := {
    name := "Scan"
    methods := [{
      name := "scan"
      returnType := .scalar .boolean
      params := [⟨"row", .array .int, {}⟩, ⟨"i", .scalar .int, {}⟩]
      locals := [⟨"rises", .scalar .boolean, {}⟩]
      body := [
        Build.loop (Build.binary .lt (Build.ident "i") (Build.length (Build.ident "row")))
          (Build.block [
            Build.branch (Build.ident "rises")
              (Build.assign "rises" (Build.binary .lt (Build.ident "i") (Build.int 9)))
              (Build.assign "rises" (Build.binary .lt (Build.int 0) (Build.ident "i"))),
            Build.assign "i" (Build.binary .add (Build.ident "i") (Build.int 1))]),
        Build.ret (Build.ident "rises")] }] }

/-- Its five labels are apart, and its jumps resolve. -/
theorem Program.jumps_of_lower_scanning : ∃ unit c',
    (scanning.lower scanning.symbolTable {}).run {} = .done unit [] c' ∧
      (labelsOf (unit.methods.flatMap Method.code)).length = 5 ∧
        (labelsOf (unit.methods.flatMap Method.code)).Nodup ∧ ∀ m ∈ unit.methods, m.Resolves := by
  obtain ⟨unit, c', h, hlabels⟩ : ∃ unit c',
      (scanning.lower scanning.symbolTable {}).run {} = .done unit [] c' ∧
        (labelsOf (unit.methods.flatMap Method.code)).length = 5 := ⟨_, _, rfl, rfl⟩
  exact ⟨unit, c', h, hlabels, jumps_of_lower h⟩

end JavaMinus
