import JavaMinus.Document.Settings
import JavaMinus.Document.Table
import JavaMinus.Proofs.Document.Syntax

/-!
# Documents lose nothing

Programs, statements, expressions, written types, spans, symbol tables, policies and configurations
are read back from the text of their document, in either layout, where the document nests no deeper
than documents are read. So a text that is accepted, however it is spelled, stands for a value whose
own text is the canonical one: written, read and written again, it is the same (`RoundTrips`).
-/

namespace JavaMinus

open Json

/-! ## Symbol tables -/

theorem Ty.attributes?_toJson (isVarargs : Bool) :
    attributes? (.obj [("varargs", .bool isVarargs)]) = some isVarargs := by
  have parts : (Json.obj [("varargs", .bool isVarargs)]).record? ["varargs"] =
    some [some (.bool isVarargs)] := record?_obj (by simp)
  simp [attributes?, parts, default?, bool?]

theorem Ty.lossless : Lossless Ty.toJson Ty.ofJson? where
  exact t := by simp [toJson, isExact, membersExact]
  reads t := by
    have parts : t.toJson.record? ["name", "is_array", "attributes"] = some [some (.str t.name),
      some (.bool t.isArray), some (.obj [("varargs", .bool t.isVarargs)])] := record?_obj (by simp)
    simp [ofJson?, parts, required?, default?, string?, bool?, attributes?_toJson]

theorem Symbol.lossless : Lossless Symbol.toJson Symbol.ofJson? where
  exact s := by simp [toJson, isExact, membersExact, Ty.lossless.exact]
  reads s := by
    have parts : s.toJson.record? ["name", "type"] = some [some (.str s.name), some s.ty.toJson] :=
      record?_obj (by simp)
    simp [ofJson?, parts, required?, string?, Ty.lossless.reads]

theorem Signature.lossless : Lossless Signature.toJson Signature.ofJson? where
  exact m := by
    simp [toJson, isExact, membersExact, Ty.lossless.exact, Symbol.lossless.areExact_map]
  reads m := by
    have parts : m.toJson.record? ["name", "return_type", "parameters", "locals", "is_static",
        "is_public"] = some [some (.str m.name), some m.returnType.toJson,
          some (.arr (m.parameters.map Symbol.toJson)), some (.arr (m.locals.map Symbol.toJson)),
          some (.bool m.isStatic), some (.bool m.isPublic)] := record?_obj (by simp)
    simp [ofJson?, parts, required?, default?, string?, bool?, Ty.lossless.reads,
      Symbol.lossless.list.reads]

theorem SymbolTable.lossless : Lossless SymbolTable.toJson SymbolTable.ofJson? where
  exact t := by
    simp [toJson, isExact, membersExact, lossless_string.exact_ofOption, lossless_strings.exact,
      Symbol.lossless.areExact_map, Signature.lossless.areExact_map]
  reads t := by
    have parts : t.toJson.record? ["class_name", "super_class", "imports", "fields", "methods"] =
        some [some (.str t.className), some (.ofOption .str t.superClass),
          some (.ofStrings t.imports), some (.arr (t.fields.map Symbol.toJson)),
          some (.arr (t.methods.map Signature.toJson))] := record?_obj (by simp)
    simp [ofJson?, parts, required?, default?, string?, lossless_string.optional,
      lossless_strings.reads, Symbol.lossless.list.reads, Signature.lossless.list.reads]

/-! ## Settings -/

theorem Policy.lossless : Lossless Policy.toJson Policy.ofJson? where
  exact p := by simp [toJson, isExact, membersExact]
  reads p := by
    have parts : p.toJson.record? ["lenient_imports", "trust_superclass"] =
      some [some (.bool p.lenientImports), some (.bool p.trustSuperclass)] := record?_obj (by simp)
    simp [ofJson?, parts, default?, bool?]

theorem Config.lossless : Lossless Config.toJson Config.ofJson? where
  exact c := by simp [toJson, isExact, membersExact, Policy.lossless.exact]
  reads c := by
    have compiler : compilerPart? (.obj [("emit_ir", .bool c.emitListing),
        ("root_class", .str c.rootClass)]) = some (c.emitListing, c.rootClass) := by
      have parts : (Json.obj [("emit_ir", .bool c.emitListing),
          ("root_class", .str c.rootClass)]).record? ["emit_ir", "root_class"] =
        some [some (.bool c.emitListing), some (.str c.rootClass)] := record?_obj (by simp)
      simp [compilerPart?, parts, default?, bool?, string?]
    have parts : c.toJson.record? ["compiler", "checker"] = some [
        some (.obj [("emit_ir", .bool c.emitListing), ("root_class", .str c.rootClass)]),
        some c.policy.toJson] := record?_obj (by simp)
    simp [ofJson?, parts, default?, compiler, Policy.lossless.reads]

/-! ## Texts -/

section
variable {α : Type} (toJson : α → Json) (ofJson? : Json → Option α)

/-- The value that the text of a document stands for. -/
def readText (text : String) : Option α := (document? text).bind ofJson?

/-- The canonical text of what a text stands for: every part is given, in its order. -/
def rewrite? (text : String) : Option String :=
  (readText ofJson? text).map fun a => (toJson a).compact

/-- Values are read back from the text of their document, if it nests no deeper than documents are
read; and however a text spells a value, its canonical text is accepted and stays as it is. -/
structure RoundTrips : Prop where
  compact : ∀ a, (toJson a).depth ≤ documentDepth → readText ofJson? (toJson a).compact = some a
  pretty : ∀ a, (toJson a).depth ≤ documentDepth → readText ofJson? (toJson a).pretty = some a
  canonical : ∀ {text : String} {a : α}, readText ofJson? text = some a →
    (toJson a).depth ≤ documentDepth →
      (rewrite? toJson ofJson? text).bind (rewrite? toJson ofJson?) = rewrite? toJson ofJson? text

variable {toJson ofJson?}

theorem Json.Lossless.roundTrips (h : Lossless toJson ofJson?) : RoundTrips toJson ofJson? := by
  have compact (a : α) (deep : (toJson a).depth ≤ documentDepth) :
      readText ofJson? (toJson a).compact = some a := by
    rw [readText, document?_compact (h.exact a) deep]
    exact h.reads a
  refine ⟨compact, fun a deep => ?_, fun {text a} read deep => ?_⟩
  · rw [readText, document?_pretty (h.exact a) deep]
    exact h.reads a
  · have written : rewrite? toJson ofJson? text = some (toJson a).compact := by rw [rewrite?, read]; rfl
    rw [written, Option.bind_some, rewrite?, compact a deep]
    rfl

end

/-- The documents of the compiler lose nothing. -/
theorem documents_roundTrip :
    RoundTrips Program.toJson Program.ofJson? ∧ RoundTrips Stmt.toJson Stmt.ofJson? ∧
      RoundTrips Expr.toJson (Expr.ofJson? false) ∧
      RoundTrips TypeRef.toJson (TypeRef.ofJson? false) ∧ RoundTrips Span.toJson Span.ofJson? ∧
      RoundTrips SymbolTable.toJson SymbolTable.ofJson? ∧
      RoundTrips Policy.toJson Policy.ofJson? ∧ RoundTrips Config.toJson Config.ofJson? :=
  ⟨Program.lossless.roundTrips, Stmt.lossless.roundTrips, (Expr.lossless false).roundTrips,
    (TypeRef.lossless false).roundTrips, Span.lossless.roundTrips, SymbolTable.lossless.roundTrips,
    Policy.lossless.roundTrips, Config.lossless.roundTrips⟩

/-- A return of the smallest integer less the receiver, with a place at the far end of the words and a
name of control characters and characters beyond the first plane. -/
def farReturn : Stmt :=
  .ret (some (.binary .sub (.intLit (-2147483648) {})
    (.call (.self ⟨18446744073709551615, 9007199254740993, 4294967295, 1⟩) "\x00\"\\/\n😀"
      [.newArray { word := .named "é", isArray := true, isVarargs := true } (.intLit 0 {}) {}] {})
    {})) {}

/-- A configuration that leaves out what has a default and has its keys in another order. -/
def shortConfig : String :=
  "\x7b\"checker\": \x7b\"trust_superclass\": false, \"lenient_imports\": true\x7d\x7d"

/-- The statement is read back from both layouts. The configuration is rewritten once, to what every
other spelling of it is rewritten to. -/
theorem documents_roundTrip_farReturn : farReturn.toJson.depth ≤ documentDepth ∧
    readText Stmt.ofJson? farReturn.toJson.compact = some farReturn ∧
    readText Stmt.ofJson? farReturn.toJson.pretty = some farReturn ∧
    rewrite? Config.toJson Config.ofJson? shortConfig = some
      ("\x7b\"compiler\":\x7b\"emit_ir\":false,\"root_class\":\"java/lang/Object\"\x7d," ++
        "\"checker\":\x7b\"lenient_imports\":true,\"trust_superclass\":false\x7d\x7d") ∧
    (rewrite? Config.toJson Config.ofJson? shortConfig).bind (rewrite? Config.toJson Config.ofJson?) =
      rewrite? Config.toJson Config.ofJson? shortConfig := by
  have deep : farReturn.toJson.depth ≤ documentDepth := by decide
  have short : readText Config.ofJson? shortConfig = some { policy := ⟨true, false⟩ } := by
    decide +kernel
  exact ⟨deep, documents_roundTrip.2.1.compact farReturn deep,
    documents_roundTrip.2.1.pretty farReturn deep, by decide +kernel,
    documents_roundTrip.2.2.2.2.2.2.2.canonical short (by decide)⟩

end JavaMinus
