import JavaMinus.Document.Syntax
import JavaMinus.Proofs.Document.Records

/-!
# Programs are read as they were written

The form of every part of a program loses nothing (`Lossless`). Expressions and statements are read to
a depth, and a tree is never deeper than its document: what is in an object nests less deep than the
object, so each level of the tree is read with what is left (`Expr.ofJsonWithin?_toJson`,
`Stmt.ofJsonWithin?_toJson`).
-/

namespace JavaMinus

open Json

/-! ## Spans and types -/

/-- A span is read from its four numbers, whatever stands beside them. -/
theorem Span.ofJson?_of_parts {v : Json} {s : Span}
    (parts : v.record? ["start", "end", "line", "column"] = some [some (ofNat s.start.toNat),
      some (ofNat s.stop.toNat), some (ofNat s.line.toNat), some (ofNat s.column.toNat)]) :
    Span.ofJson? v = some s := by
  simp [ofJson?, parts, default?, lossless_uint64.reads, lossless_uint32.reads]

theorem Span.lossless : Lossless Span.toJson Span.ofJson? where
  exact s := by
    have start := lossless_uint64.exact s.start
    have stop := lossless_uint64.exact s.stop
    have line := lossless_uint32.exact s.line
    have column := lossless_uint32.exact s.column
    simp [toJson, isExact, membersExact, start, stop, line, column]
  reads _ := ofJson?_of_parts (record?_obj (by simp))

theorem Span.part?_toJson (s : Span) : Span.part? (some s.toJson) = some s := Span.lossless.reads s

theorem TypeWord.lossless (inside : Bool) : Lossless TypeWord.toJson (TypeWord.ofJson? inside) where
  exact word := by cases word <;> rfl
  reads word := by cases word <;> rfl

theorem TypeRef.lossless (inside : Bool) : Lossless TypeRef.toJson (TypeRef.ofJson? inside) where
  exact a := by
    have word := (TypeWord.lossless inside).exact a.word
    have span := Span.lossless.exact a.span
    simp [toJson, isExact, membersExact, word, span]
  reads a := by
    have parts : a.toJson.record? ["kind", "is_array", "is_varargs", "span"] = some [
        some a.word.toJson, some (.bool a.isArray), some (.bool a.isVarargs), some a.span.toJson] :=
      record?_obj (by simp)
    simp [ofJson?, parts, required?, default?, (TypeWord.lossless inside).reads, bool?,
      Span.part?_toJson]

theorem BinaryOp.lossless : Lossless (fun op => Json.str (BinaryOp.kindName op)) BinaryOp.ofJson? where
  exact _ := rfl
  reads op := ofKindName?_kindName op

/-! ## Expressions -/

namespace Expr

mutual
theorem exact_toJson : ∀ e : Expr, e.toJson.isExact = true
  | .intLit value _ => by
    simpa [toJson, isExact, membersExact, Span.lossless.exact] using lossless_int32.exact value
  | .boolLit .. | .ident .. | .newObject .. => by
    simp [toJson, isExact, membersExact, Span.lossless.exact]
  | .self span => by
    simpa [toJson, Span.toJson, isExact, membersExact] using Span.lossless.exact span
  | .binary _ left right _ => by
    simp [toJson, isExact, membersExact, Span.lossless.exact, exact_toJson left, exact_toJson right]
  | .not operand _ => by
    simp [toJson, isExact, membersExact, Span.lossless.exact, exact_toJson operand]
  | .arrayLit elements _ => by
    simp [toJson, isExact, membersExact, Span.lossless.exact, exact_toJsonAll elements]
  | .index array place _ => by
    simp [toJson, isExact, membersExact, Span.lossless.exact, exact_toJson array, exact_toJson place]
  | .newArray element length _ => by
    simp [toJson, isExact, membersExact, Span.lossless.exact, (TypeRef.lossless true).exact,
      exact_toJson length]
  | .member object _ _ => by
    simp [toJson, isExact, membersExact, Span.lossless.exact, exact_toJson object]
  | .call receiver _ args _ => by
    simp [toJson, isExact, membersExact, Span.lossless.exact, exact_toJson receiver,
      exact_toJsonAll args]
  | .paren inner _ => by
    simp [toJson, isExact, membersExact, Span.lossless.exact, exact_toJson inner]
theorem exact_toJsonAll : ∀ es : List Expr, areExact (toJsonAll es) = true
  | [] => rfl
  | e :: es => Bool.and_eq_true_iff.mpr ⟨exact_toJson e, exact_toJsonAll es⟩
end

/-- The kind of an expression is read first. -/
theorem kinded?_toJson (inside : Bool) (e : Expr) :
    e.toJson.kinded? inside kinds = some (e.kindName, e.toJson) := by
  cases e <;> exact kinded?_obj (by decide) (by simp)

theorem ofJsonWithin?_of_parts {fuel : Nat} {inside : Bool} {e : Expr}
    (h : ofParts? (ofJsonWithin? fuel true) e.kindName e.toJson = some e) :
    ofJsonWithin? (fuel + 1) inside e.toJson = some e := by
  rw [ofJsonWithin?, kinded?_toJson]
  exact h

/-- Every expression is written as an object. -/
theorem depth_toJson_ne_zero (e : Expr) : e.toJson.depth ≠ 0 := by
  cases e <;> exact Nat.succ_ne_zero _

mutual
/-- An expression is read back at any depth that its document does not exceed. -/
theorem ofJsonWithin?_toJson : ∀ (e : Expr) {fuel : Nat} {inside : Bool}, e.toJson.depth ≤ fuel →
    ofJsonWithin? fuel inside e.toJson = some e
  | e, 0, _, h => absurd (Nat.le_zero.mp h) (depth_toJson_ne_zero e)
  | .intLit value span, _ + 1, _, _ => by
    have parts : (toJson (.intLit value span)).record? ["value", "span"] =
      some [some (.int value.toInt), some span.toJson] := record?_kinded (by simp)
    refine ofJsonWithin?_of_parts ?_
    simp [kindName, ofParts?, parts, required?, lossless_int32.reads, Span.part?_toJson]
  | .boolLit value span, _ + 1, _, _ => by
    have parts : (toJson (.boolLit value span)).record? ["value", "span"] =
      some [some (.bool value), some span.toJson] := record?_kinded (by simp)
    refine ofJsonWithin?_of_parts ?_
    simp [kindName, ofParts?, parts, required?, bool?, Span.part?_toJson]
  | .ident name span, _ + 1, _, _ => by
    have parts : (toJson (.ident name span)).record? ["name", "span"] =
      some [some (.str name), some span.toJson] := record?_kinded (by simp)
    refine ofJsonWithin?_of_parts ?_
    simp [kindName, ofParts?, parts, required?, string?, Span.part?_toJson]
  | .self span, _ + 1, _, _ => by
    have place : Span.ofJson? (toJson (.self span)) = some span :=
      Span.ofJson?_of_parts (record?_kinded (by simp))
    refine ofJsonWithin?_of_parts ?_
    simp [kindName, ofParts?, place]
  | .binary op left right span, fuel + 1, _, h => by
    have parts : (toJson (.binary op left right span)).record? ["operator", "left", "right", "span"] =
      some [some (.str op.kindName), some left.toJson, some right.toJson, some span.toJson] :=
      record?_kinded (by simp)
    have hleft : ofJsonWithin? fuel true left.toJson = some left :=
      ofJsonWithin?_toJson left (depth_le_of_member "left" left.toJson (by simp) h)
    have hright : ofJsonWithin? fuel true right.toJson = some right :=
      ofJsonWithin?_toJson right (depth_le_of_member "right" right.toJson (by simp) h)
    refine ofJsonWithin?_of_parts ?_
    simp [kindName, ofParts?, parts, required?, BinaryOp.lossless.reads, hleft, hright,
      Span.part?_toJson]
  | .not operand span, fuel + 1, _, h => by
    have parts : (toJson (.not operand span)).record? ["operator", "operand", "span"] =
      some [some (.str "Not"), some operand.toJson, some span.toJson] := record?_kinded (by simp)
    have inner : ofJsonWithin? fuel true operand.toJson = some operand :=
      ofJsonWithin?_toJson operand (depth_le_of_member "operand" operand.toJson (by simp) h)
    refine ofJsonWithin?_of_parts ?_
    simp [kindName, ofParts?, parts, required?, word?, inner, Span.part?_toJson]
  | .arrayLit elements span, fuel + 1, _, h => by
    have parts : (toJson (.arrayLit elements span)).record? ["elements", "span"] =
      some [some (.arr (toJsonAll elements)), some span.toJson] := record?_kinded (by simp)
    have inner : list? (ofJsonWithin? fuel true) (.arr (toJsonAll elements)) = some elements :=
      list?_toJsonAll elements
        (depthOfItems_le_of_member "elements" (toJsonAll elements) (by simp) h)
    refine ofJsonWithin?_of_parts ?_
    simp [kindName, ofParts?, parts, required?, inner, Span.part?_toJson]
  | .index array place span, fuel + 1, _, h => by
    have parts : (toJson (.index array place span)).record? ["object", "index", "span"] =
      some [some array.toJson, some place.toJson, some span.toJson] := record?_kinded (by simp)
    have harray : ofJsonWithin? fuel true array.toJson = some array :=
      ofJsonWithin?_toJson array (depth_le_of_member "object" array.toJson (by simp) h)
    have hplace : ofJsonWithin? fuel true place.toJson = some place :=
      ofJsonWithin?_toJson place (depth_le_of_member "index" place.toJson (by simp) h)
    refine ofJsonWithin?_of_parts ?_
    simp [kindName, ofParts?, parts, required?, harray, hplace, Span.part?_toJson]
  | .newArray element length span, fuel + 1, _, h => by
    have parts : (toJson (.newArray element length span)).record? ["element", "length", "span"] =
      some [some element.toJson, some length.toJson, some span.toJson] := record?_kinded (by simp)
    have inner : ofJsonWithin? fuel true length.toJson = some length :=
      ofJsonWithin?_toJson length (depth_le_of_member "length" length.toJson (by simp) h)
    refine ofJsonWithin?_of_parts ?_
    simp [kindName, ofParts?, parts, required?, (TypeRef.lossless true).reads, inner,
      Span.part?_toJson]
  | .newObject className span, _ + 1, _, _ => by
    have parts : (toJson (.newObject className span)).record? ["class_name", "span"] =
      some [some (.str className), some span.toJson] := record?_kinded (by simp)
    refine ofJsonWithin?_of_parts ?_
    simp [kindName, ofParts?, parts, required?, string?, Span.part?_toJson]
  | .member object property span, fuel + 1, _, h => by
    have parts : (toJson (.member object property span)).record? ["object", "property", "span"] =
      some [some object.toJson, some (.str property), some span.toJson] := record?_kinded (by simp)
    have inner : ofJsonWithin? fuel true object.toJson = some object :=
      ofJsonWithin?_toJson object (depth_le_of_member "object" object.toJson (by simp) h)
    refine ofJsonWithin?_of_parts ?_
    simp [kindName, ofParts?, parts, required?, string?, inner, Span.part?_toJson]
  | .call receiver method args span, fuel + 1, _, h => by
    have parts : (toJson (.call receiver method args span)).record?
        ["receiver", "method", "arguments", "span"] = some [some receiver.toJson, some (.str method),
          some (.arr (toJsonAll args)), some span.toJson] := record?_kinded (by simp)
    have hreceiver : ofJsonWithin? fuel true receiver.toJson = some receiver :=
      ofJsonWithin?_toJson receiver (depth_le_of_member "receiver" receiver.toJson (by simp) h)
    have hargs : list? (ofJsonWithin? fuel true) (.arr (toJsonAll args)) = some args :=
      list?_toJsonAll args
        (depthOfItems_le_of_member "arguments" (toJsonAll args) (by simp) h)
    refine ofJsonWithin?_of_parts ?_
    simp [kindName, ofParts?, parts, required?, string?, hreceiver, hargs, Span.part?_toJson]
  | .paren inner span, fuel + 1, _, h => by
    have parts : (toJson (.paren inner span)).record? ["expression", "span"] =
      some [some inner.toJson, some span.toJson] := record?_kinded (by simp)
    have hinner : ofJsonWithin? fuel true inner.toJson = some inner :=
      ofJsonWithin?_toJson inner (depth_le_of_member "expression" inner.toJson (by simp) h)
    refine ofJsonWithin?_of_parts ?_
    simp [kindName, ofParts?, parts, required?, hinner, Span.part?_toJson]
/-- So are the expressions of a list. -/
theorem list?_toJsonAll : ∀ (es : List Expr) {fuel : Nat}, depthOfItems (toJsonAll es) ≤ fuel →
    list? (ofJsonWithin? fuel true) (.arr (toJsonAll es)) = some es
  | [], _, _ => rfl
  | e :: es, fuel, h => by
    obtain ⟨he, hes⟩ := Nat.max_le.mp h
    have rest : (toJsonAll es).mapM (ofJsonWithin? fuel true) = some es := list?_toJsonAll es hes
    show (toJsonAll (e :: es)).mapM (ofJsonWithin? fuel true) = _
    rw [toJsonAll, List.mapM_cons, ofJsonWithin?_toJson e he, rest]
    rfl
end

/-- The document of an expression is read back, alone and inside a statement. -/
theorem lossless (inside : Bool) : Lossless toJson (ofJson? inside) where
  exact := exact_toJson
  reads e := by
    rw [ofJson?, isReadable_of_isExact _ (exact_toJson e), Bool.or_true, if_pos rfl,
      ofJsonWithin?_toJson e (Nat.le_refl _)]

theorem toJson_ne_null (e : Expr) : e.toJson ≠ .null := by
  cases e <;> exact nofun

end Expr

/-! ## Statements -/

namespace Stmt

mutual
theorem exact_toJson : ∀ s : Stmt, s.toJson.isExact = true
  | .block body _ => by
    simp [toJson, isExact, membersExact, Span.lossless.exact, exact_toJsonAll body]
  | .branch condition thenBranch none _ => by
    simp [toJson, isExact, membersExact, Span.lossless.exact, condition.exact_toJson,
      exact_toJson thenBranch]
  | .branch condition thenBranch (some elseBranch) _ => by
    simp [toJson, isExact, membersExact, Span.lossless.exact, condition.exact_toJson,
      exact_toJson thenBranch, exact_toJson elseBranch]
  | .loop condition body _ => by
    simp [toJson, isExact, membersExact, Span.lossless.exact, condition.exact_toJson,
      exact_toJson body]
  | .expr e _ => by
    simp [toJson, isExact, membersExact, Span.lossless.exact, e.exact_toJson]
  | .assign _ value _ => by
    simp [toJson, isExact, membersExact, Span.lossless.exact, value.exact_toJson]
  | .assignElement _ place value _ => by
    simp [toJson, isExact, membersExact, Span.lossless.exact, place.exact_toJson, value.exact_toJson]
  | .ret value _ => by
    simp [toJson, isExact, membersExact, Span.lossless.exact,
      (Expr.lossless true).exact_ofOption value]
theorem exact_toJsonAll : ∀ ss : List Stmt, areExact (toJsonAll ss) = true
  | [] => rfl
  | s :: ss => Bool.and_eq_true_iff.mpr ⟨exact_toJson s, exact_toJsonAll ss⟩
end

/-- The kind of a statement is read first. -/
theorem kinded?_toJson (inside : Bool) (s : Stmt) :
    s.toJson.kinded? inside kinds = some (s.kindName, s.toJson) := by
  rcases s with _ | ⟨_, _, _ | _, _⟩ | _ | _ | _ | _ | _ <;>
    exact kinded?_obj (by decide) (by simp)

theorem ofJsonWithin?_of_parts {fuel : Nat} {inside : Bool} {s : Stmt}
    (h : ofParts? (ofJsonWithin? fuel true) s.kindName s.toJson = some s) :
    ofJsonWithin? (fuel + 1) inside s.toJson = some s := by
  rw [ofJsonWithin?, kinded?_toJson]
  exact h

/-- Every statement is written as an object. -/
theorem depth_toJson_ne_zero (s : Stmt) : s.toJson.depth ≠ 0 := by
  rcases s with _ | ⟨_, _, _ | _, _⟩ | _ | _ | _ | _ | _ <;> exact Nat.succ_ne_zero _

theorem toJson_ne_null (s : Stmt) : s.toJson ≠ .null := fun h =>
  s.depth_toJson_ne_zero (by rw [h]; rfl)

mutual
/-- A statement is read back at any depth that its document does not exceed. -/
theorem ofJsonWithin?_toJson : ∀ (s : Stmt) {fuel : Nat} {inside : Bool}, s.toJson.depth ≤ fuel →
    ofJsonWithin? fuel inside s.toJson = some s
  | s, 0, _, h => absurd (Nat.le_zero.mp h) (depth_toJson_ne_zero s)
  | .block body span, fuel + 1, _, h => by
    have parts : (toJson (.block body span)).record? ["statements", "span"] =
      some [some (.arr (toJsonAll body)), some span.toJson] := record?_kinded (by simp)
    have inner : list? (ofJsonWithin? fuel true) (.arr (toJsonAll body)) = some body :=
      list?_toJsonAll body (depthOfItems_le_of_member "statements" (toJsonAll body) (by simp) h)
    refine ofJsonWithin?_of_parts ?_
    simp [kindName, ofParts?, parts, required?, inner, Span.part?_toJson]
  | .branch condition thenBranch none span, fuel + 1, _, h => by
    have parts : (toJson (.branch condition thenBranch none span)).record?
        ["condition", "then_branch", "else_branch", "span"] = some [some condition.toJson,
          some thenBranch.toJson, some .null, some span.toJson] := record?_kinded (by simp)
    have hthen : ofJsonWithin? fuel true thenBranch.toJson = some thenBranch :=
      ofJsonWithin?_toJson thenBranch
        (depth_le_of_member "then_branch" thenBranch.toJson (by simp) h)
    refine ofJsonWithin?_of_parts ?_
    simp [kindName, ofParts?, parts, required?, optional?, (Expr.lossless true).reads, hthen,
      Span.part?_toJson]
  | .branch condition thenBranch (some elseBranch) span, fuel + 1, _, h => by
    have parts : (toJson (.branch condition thenBranch (some elseBranch) span)).record?
        ["condition", "then_branch", "else_branch", "span"] = some [some condition.toJson,
          some thenBranch.toJson, some elseBranch.toJson, some span.toJson] :=
      record?_kinded (by simp)
    have hthen : ofJsonWithin? fuel true thenBranch.toJson = some thenBranch :=
      ofJsonWithin?_toJson thenBranch
        (depth_le_of_member "then_branch" thenBranch.toJson (by simp) h)
    have helse : ofJsonWithin? fuel true elseBranch.toJson = some elseBranch :=
      ofJsonWithin?_toJson elseBranch
        (depth_le_of_member "else_branch" elseBranch.toJson (by simp) h)
    refine ofJsonWithin?_of_parts ?_
    simp [kindName, ofParts?, parts, required?, optional?_of_ne_null (toJson_ne_null elseBranch),
      (Expr.lossless true).reads, hthen, helse, Span.part?_toJson]
  | .loop condition body span, fuel + 1, _, h => by
    have parts : (toJson (.loop condition body span)).record? ["condition", "body", "span"] =
      some [some condition.toJson, some body.toJson, some span.toJson] := record?_kinded (by simp)
    have inner : ofJsonWithin? fuel true body.toJson = some body :=
      ofJsonWithin?_toJson body (depth_le_of_member "body" body.toJson (by simp) h)
    refine ofJsonWithin?_of_parts ?_
    simp [kindName, ofParts?, parts, required?, (Expr.lossless true).reads, inner,
      Span.part?_toJson]
  | .expr e span, _ + 1, _, _ => by
    have parts : (toJson (.expr e span)).record? ["expression", "span"] =
      some [some e.toJson, some span.toJson] := record?_kinded (by simp)
    refine ofJsonWithin?_of_parts ?_
    simp [kindName, ofParts?, parts, required?, (Expr.lossless true).reads, Span.part?_toJson]
  | .assign target value span, _ + 1, _, _ => by
    have parts : (toJson (.assign target value span)).record? ["target", "value", "span"] =
      some [some (.str target), some value.toJson, some span.toJson] := record?_kinded (by simp)
    refine ofJsonWithin?_of_parts ?_
    simp [kindName, ofParts?, parts, required?, string?, (Expr.lossless true).reads,
      Span.part?_toJson]
  | .assignElement target place value span, _ + 1, _, _ => by
    have parts : (toJson (.assignElement target place value span)).record?
        ["target", "index", "value", "span"] = some [some (.str target), some place.toJson,
          some value.toJson, some span.toJson] := record?_kinded (by simp)
    refine ofJsonWithin?_of_parts ?_
    simp [kindName, ofParts?, parts, required?, string?, (Expr.lossless true).reads,
      Span.part?_toJson]
  | .ret value span, _ + 1, _, _ => by
    have parts : (toJson (.ret value span)).record? ["value", "span"] =
      some [some (.ofOption Expr.toJson value), some span.toJson] := record?_kinded (by simp)
    refine ofJsonWithin?_of_parts ?_
    simp [kindName, ofParts?, parts, (Expr.lossless true).optional Expr.toJson_ne_null,
      Span.part?_toJson]
/-- So are the statements of a list. -/
theorem list?_toJsonAll : ∀ (ss : List Stmt) {fuel : Nat}, depthOfItems (toJsonAll ss) ≤ fuel →
    list? (ofJsonWithin? fuel true) (.arr (toJsonAll ss)) = some ss
  | [], _, _ => rfl
  | s :: ss, fuel, h => by
    obtain ⟨hs, hss⟩ := Nat.max_le.mp h
    have rest : (toJsonAll ss).mapM (ofJsonWithin? fuel true) = some ss := list?_toJsonAll ss hss
    show (toJsonAll (s :: ss)).mapM (ofJsonWithin? fuel true) = _
    rw [toJsonAll, List.mapM_cons, ofJsonWithin?_toJson s hs, rest]
    rfl
end

theorem lossless : Lossless toJson ofJson? where
  exact := exact_toJson
  reads s := by
    rw [ofJson?, isReadable_of_isExact _ (exact_toJson s), if_pos rfl,
      ofJsonWithin?_toJson s (Nat.le_refl _)]

end Stmt

/-! ## Declarations -/

theorem VarDecl.lossless : Lossless VarDecl.toJson VarDecl.ofJson? where
  exact d := by
    simp [toJson, isExact, membersExact, (TypeRef.lossless false).exact, Span.lossless.exact]
  reads d := by
    have parts : d.toJson.record? ["name", "type", "span"] =
      some [some (.str d.name), some d.typeRef.toJson, some d.span.toJson] := record?_obj (by simp)
    simp [ofJson?, parts, required?, string?, (TypeRef.lossless false).reads, Span.part?_toJson]

theorem MethodDecl.lossless : Lossless MethodDecl.toJson MethodDecl.ofJson? where
  exact m := by
    simp [toJson, isExact, membersExact, (TypeRef.lossless false).exact, Span.lossless.exact,
      VarDecl.lossless.areExact_map, Stmt.lossless.areExact_map]
  reads m := by
    have parts : m.toJson.record? ["name", "is_public", "is_static", "return_type", "params", "locals",
        "body", "span"] = some [some (.str m.name), some (.bool m.isPublic), some (.bool m.isStatic),
          some m.returnType.toJson, some (.arr (m.params.map VarDecl.toJson)),
          some (.arr (m.locals.map VarDecl.toJson)), some (.arr (m.body.map Stmt.toJson)),
          some m.span.toJson] := record?_obj (by simp)
    simp [ofJson?, parts, required?, default?, string?, bool?, (TypeRef.lossless false).reads,
      VarDecl.lossless.list.reads, Stmt.lossless.list.reads, Span.part?_toJson]

theorem ClassDecl.lossless : Lossless ClassDecl.toJson ClassDecl.ofJson? where
  exact c := by
    simp [toJson, isExact, membersExact, Span.lossless.exact, lossless_string.exact_ofOption,
      VarDecl.lossless.areExact_map, MethodDecl.lossless.areExact_map]
  reads c := by
    have parts : c.toJson.record? ["name", "extends", "fields", "methods", "span"] = some [
        some (.str c.name), some (.ofOption .str c.superClass),
        some (.arr (c.fields.map VarDecl.toJson)), some (.arr (c.methods.map MethodDecl.toJson)),
        some c.span.toJson] := record?_obj (by simp)
    simp [ofJson?, parts, required?, default?, string?, lossless_string.optional,
      VarDecl.lossless.list.reads, MethodDecl.lossless.list.reads, Span.part?_toJson]

theorem Import.lossless : Lossless Import.toJson Import.ofJson? where
  exact i := by
    simp [toJson, isExact, membersExact, lossless_strings.exact, Span.lossless.exact]
  reads i := by
    have parts : i.toJson.record? ["path", "span"] =
      some [some (.ofStrings i.path), some i.span.toJson] := record?_obj (by simp)
    simp [ofJson?, parts, required?, lossless_strings.reads, Span.part?_toJson]

theorem Program.lossless : Lossless Program.toJson Program.ofJson? where
  exact p := by
    simp [toJson, isExact, membersExact, Import.lossless.areExact_map, ClassDecl.lossless.exact]
  reads p := by
    have parts : p.toJson.record? ["imports", "class"] =
      some [some (.arr (p.imports.map Import.toJson)), some p.classDecl.toJson] :=
      record?_obj (by simp)
    simp [ofJson?, parts, required?, default?, Import.lossless.list.reads, ClassDecl.lossless.reads]

end JavaMinus
