import JavaMinus.Binding
import JavaMinus.Proofs.Typing.Sites
import JavaMinus.Syntax.Walk

/-!
# Where type names come from

Every type that inference finds is named by a primitive tag, by the class, by a declaration in the
symbol table, by a class that may be allocated, by the element type of an array allocation, or by
what the site expects. So a property of names that all of these have, every inferred type has
(`Expr.infer_name`).

The lemmas about call targets stand here as well: what a target says about the receiver and about
the declared method.
-/

namespace JavaMinus

/-- A method is called on a value of this type: the class itself, an import or the superclass. -/
def Scope.Receives (s : Scope) (ty : Ty) : Prop :=
  ty.isArray = false ∧
    (ty.name = s.table.className ∨ s.table.isImported ty.name = true ∨ s.table.isSuper ty.name = true)

/-- Every type name that the scope itself can give to a value has the property. -/
structure Scope.Names (names : String → Prop) (s : Scope) : Prop where
  int : names "int"
  boolean : names "boolean"
  self : names s.table.className
  declared : ∀ name v, s.resolve? name = some v → names v.ty.name
  known : ∀ className, s.knowsClass className = true → names className
  returned : ∀ name m, s.table.method? name = some m → m.returnType.isVoid = false →
    names m.returnType.name
  parameter : ∀ name m, s.table.method? name = some m → ∀ p ∈ m.parameters, names p.ty.name
  result : s.returnType.isVoid = false → names s.returnType.name

/-- The type that a site expects, unless it is `void`, has a name of the property. -/
def Site.Names (names : String → Prop) (site : Site) : Prop :=
  ∀ ty, site.expected? = some ty → ty.isVoid = false → names ty.name

/-- The arrays that an expression allocates have elements whose names have the property. -/
def Expr.Allocates (names : String → Prop) (e : Expr) : Prop :=
  ∀ element length span, Expr.newArray element length span ∈ e.nodes → names element.ty.name

/-- Varargs parameters have array types, as they do in every table bound from a program. -/
def SymbolTable.VarargsAreArrays (t : SymbolTable) : Prop :=
  ∀ m ∈ t.methods, ∀ p, m.varargsParameter? = some p → p.ty.isArray = true

/-- The table bound from a program has arrays for its varargs parameters. -/
theorem Program.varargsAreArrays (p : Program) : p.symbolTable.VarargsAreArrays := by
  intro m hm q hq
  obtain ⟨d, -, rfl⟩ := List.mem_map.mp hm
  obtain ⟨hlast, hv⟩ := Option.filter_eq_some_iff.mp hq
  obtain ⟨v, -, rfl⟩ := List.mem_map.mp (List.mem_of_getLast? hlast)
  exact TypeRef.isArray_ty_of_isVarargs hv

/-- A property that all names have says nothing. -/
theorem Scope.names_true (s : Scope) : s.Names fun _ => True := by
  constructor <;> simp

theorem Site.names_true (site : Site) : site.Names fun _ => True := fun _ _ _ => trivial

theorem Expr.allocates_true (e : Expr) : e.Allocates fun _ => True := fun _ _ _ _ => trivial

variable {names : String → Prop} {s : Scope}

/-- A part of an expression allocates what the expression allocates. -/
theorem Expr.Allocates.part {e part : Expr} (h : e.Allocates names)
    (hp : ∀ x ∈ part.nodes, x ∈ e.nodes) : part.Allocates names :=
  fun element length span hm => h element length span (hp _ hm)

namespace Site

theorem names_unknown : unknown.Names names := by
  intro ty h
  cases h

theorem names_discarded : discarded.Names names := by
  intro ty h
  cases h

theorem names_wanting {ty : Ty} (h : ty.isVoid = false → names ty.name) :
    (wanting ty).Names names := by
  intro t ht hv
  cases ht
  exact h hv

theorem names_assigned {ty : Ty} (h : ty.isVoid = false → names ty.name) :
    (assigned ty).Names names := by
  intro t ht hv
  cases ht
  exact h hv

theorem names_returned {ty : Ty} (h : ty.isVoid = false → names ty.name) :
    (returned ty).Names names := by
  intro t ht hv
  cases ht
  exact h hv

end Site

namespace SymbolTable

theorem mem_of_method? {t : SymbolTable} {name : String} {m : Signature}
    (h : t.method? name = some m) : m ∈ t.methods :=
  List.mem_of_find?_eq_some h

end SymbolTable

namespace Signature

/-- The type that an argument is wanted with is named like the type of a parameter. -/
theorem mem_of_parameterType? {m : Signature} {i : Nat} {ty : Ty}
    (h : m.parameterType? i = some ty) : ∃ p ∈ m.parameters, p.ty.name = ty.name := by
  unfold parameterType? at h
  have fixed : ∀ {ty : Ty}, (m.parameters[i]?.map fun p => p.ty.plain) = some ty →
      ∃ p ∈ m.parameters, p.ty.name = ty.name := by
    intro ty h
    obtain ⟨p, hp, rfl⟩ := Option.map_eq_some_iff.mp h
    exact ⟨p, List.mem_of_getElem? hp, rfl⟩
  split at h
  · next varargs hv =>
    split at h
    · obtain ⟨hlast, -⟩ := Option.filter_eq_some_iff.mp hv
      obtain ⟨-, rfl⟩ := Ty.element?_eq_some.mp h
      exact ⟨varargs, List.mem_of_getLast? hlast, rfl⟩
    · exact fixed h
  · exact fixed h

end Signature

/-- A method of the class itself is declared by it, or it is one that a trusted superclass has. -/
theorem Scope.cases_of_ownMethod {method : String} {span : Span} {target : CallTarget}
    (h : s.ownMethod method span = .ok target) :
    (∃ m, s.table.method? method = some m ∧ target = .declared m) ∨ target = .inherited := by
  unfold ownMethod at h
  split at h
  · next m hm =>
    cases h
    exact .inl ⟨m, hm, rfl⟩
  · split at h <;> cases h
    exact .inr rfl

namespace CallTarget

/-- A call on a value is one of a method of the class itself, or one on the other class that the value
is of. -/
theorem cases_of_onValue {ty : Ty} {method : String} {span : Span} {target : CallTarget}
    (h : onValue s ty method span = .ok target) : ty.isArray = false ∧
      ((ty.name = s.table.className ∧ s.ownMethod method span = .ok target) ∨
        ((s.table.isImported ty.name = true ∨ s.table.isSuper ty.name = true) ∧
          target = .importedVirtual ty)) := by
  unfold onValue at h
  split at h
  · cases h
  · next ha =>
    refine ⟨by simpa using ha, ?_⟩
    split at h
    · next hn => exact .inl ⟨beq_iff_eq.mp hn, h⟩
    · split at h
      · next hn =>
        cases h
        exact .inr ⟨by simpa using hn, rfl⟩
      · cases h

/-- A call on the name of a class is static: one on the import of that name, or one of a declared
method. -/
theorem cases_of_onClassName {name method : String} {nameSpan span : Span} {target : CallTarget}
    (h : onClassName s name nameSpan method span = .ok target) :
    (s.table.isImported name = true ∧ target = .importedStatic name) ∨
      ∃ m, s.ownMethod method span = .ok (.declared m) ∧ m.isStatic = true ∧
        target = .declared m := by
  unfold onClassName at h
  split at h
  · next himported =>
    cases h
    exact .inl ⟨himported, rfl⟩
  · split at h
    · split at h
      · next m hm =>
        split at h
        · next hstatic =>
          cases h
          exact .inr ⟨m, hm, hstatic, rfl⟩
        · cases h
      · cases h
      · cases h
    · cases h

/-- A call is made on the object of the method, on the name of a class, or on a value. -/
theorem cases_of_resolve {receiver : Expr} {o : Except TypeError Ty} {method : String} {span : Span}
    {target : CallTarget} (h : resolve s receiver o method span = .ok target) :
    (∃ selfSpan, receiver.unparenthesized = .self selfSpan ∧ s.isStatic = false ∧
        s.ownMethod method span = .ok target) ∨
      (∃ name nameSpan, receiver.unparenthesized = .ident name nameSpan ∧
        (s.resolve? name).isNone = true ∧ onClassName s name nameSpan method span = .ok target) ∨
      ∃ ty, o = .ok ty ∧ onValue s ty method span = .ok target := by
  unfold resolve at h
  split at h
  · next selfSpan hself =>
    split at h
    · cases h
    · next hstatic => exact .inl ⟨selfSpan, hself, by simpa using hstatic, h⟩
  · next name nameSpan hname =>
    split at h
    · next hnone => exact .inr (.inl ⟨name, nameSpan, hname, hnone, h⟩)
    · exact .inr (.inr (bind_eq_ok.mp h))
  · exact .inr (.inr (bind_eq_ok.mp h))

/-- A declared target is the first method of the name. -/
theorem method?_of_resolve {receiver : Expr} {o : Except TypeError Ty} {method : String}
    {span : Span} {m : Signature}
    (h : resolve s receiver o method span = .ok (.declared m)) : s.table.method? method = some m := by
  have own {span : Span} (h : s.ownMethod method span = .ok (.declared m)) :
      s.table.method? method = some m := by
    rcases s.cases_of_ownMethod h with ⟨m', hm, h⟩ | h <;> cases h
    exact hm
  rcases cases_of_resolve h with ⟨-, -, -, h⟩ | ⟨name, nameSpan, -, -, h⟩ | ⟨ty, -, h⟩
  · exact own h
  · rcases cases_of_onClassName h with ⟨-, h⟩ | ⟨m', hm, -, h⟩ <;> cases h
    exact own hm
  · obtain ⟨-, ⟨-, h⟩ | ⟨-, h⟩⟩ := cases_of_onValue h
    · exact own h
    · cases h

/-- The class takes a call on a value of itself. -/
theorem onValue_classType (method : String) (span : Span) :
    onValue s s.table.classType method span = s.ownMethod method span := by
  unfold onValue
  rw [if_neg (by simp [SymbolTable.classType, Ty.scalar]), if_pos (by simp [SymbolTable.classType, Ty.scalar])]

/-- A call that is not static is a call on the value of its receiver. -/
theorem onValue_of_callTarget {receiver : Expr} {method : String} {span : Span}
    {target : CallTarget} (h : receiver.callTarget s method span = .ok target)
    (hs : target.isStatic = false) :
    ∃ ty, receiver.infer s .unknown = .ok ty ∧ onValue s ty method span = .ok target := by
  rcases cases_of_resolve h with ⟨selfSpan, hself, hstatic, h⟩ | ⟨name, nameSpan, -, -, h⟩ | h
  · refine ⟨s.table.classType, ?_, (onValue_classType method span).trans h⟩
    rw [← Expr.infer_unparenthesized, hself, Expr.infer, if_neg (by simp [hstatic])]
  · rcases cases_of_onClassName h with ⟨-, rfl⟩ | ⟨m, -, hm, rfl⟩
    · cases hs
    · exact absurd hm (by rw [show m.isStatic = false from hs]; exact Bool.false_ne_true)
  · exact h

/-- A call that is not static has a receiver with a type that takes calls. -/
theorem receives_of_callTarget {receiver : Expr} {method : String} {span : Span}
    {target : CallTarget} (h : receiver.callTarget s method span = .ok target)
    (hs : target.isStatic = false) :
    ∃ ty, receiver.infer s .unknown = .ok ty ∧ s.Receives ty := by
  obtain ⟨ty, hty, h⟩ := onValue_of_callTarget h hs
  obtain ⟨ha, ⟨hn, -⟩ | ⟨hn, -⟩⟩ := cases_of_onValue h
  · exact ⟨ty, hty, ha, .inl hn⟩
  · exact ⟨ty, hty, ha, .inr hn⟩

/-- The result of a call has a name of the property where it is used. -/
theorem resultType_name {receiver : Expr} {method : String} {span : Span} {target : CallTarget}
    {site : Site} (hn : s.Names names) (hs : site.Names names)
    (ht : receiver.callTarget s method span = .ok target)
    (hv : (target.resultType site).isVoid = false) : names (target.resultType site).name := by
  have expected : ∀ ty : Ty, (site.expected?.map Ty.plain).getD Ty.void = ty →
      ty.isVoid = false → names ty.name := by
    rintro _ rfl hv
    cases he : site.expected? with
    | none => simp [he, Ty.void, Ty.scalar, Ty.isVoid] at hv
    | some ty =>
      rw [he] at hv
      exact hs ty he hv
  cases target with
  | declared m => exact hn.returned method m (method?_of_resolve ht) hv
  | inherited => exact expected _ rfl hv
  | importedStatic c => exact expected _ rfl hv
  | importedVirtual ty => exact expected _ rfl hv

end CallTarget

namespace Expr

/-- Every inferred type of a value has a name of the property. -/
theorem infer_name (hn : s.Names names) {e : Expr} {site : Site} {ty : Ty}
    (hs : site.Names names) (ha : e.Allocates names)
    (hc : site.consumesValue = true ∨ e.isCall = false) (h : infer s site e = .ok ty) :
    names ty.name := by
  match e with
  | .intLit .. => rw [infer] at h; cases h; exact hn.int
  | .boolLit .. => rw [infer] at h; cases h; exact hn.boolean
  | .ident name _ =>
    obtain ⟨v, hv, -, rfl⟩ := parts_ident h
    exact hn.declared name v hv
  | .self _ =>
    obtain ⟨-, rfl⟩ := parts_self h
    exact hn.self
  | .binary op .. =>
    cases hop : op.isEquality with
    | true => rw [(parts_equality hop h).1]; exact hn.boolean
    | false =>
      rw [(parts_binary hop h).1, BinaryOp.resultType]
      split
      · exact hn.int
      · exact hn.boolean
  | .not .. => rw [(parts_not h).1]; exact hn.boolean
  | .arrayLit [] _ => rw [infer] at h; cases h; exact hn.int
  | .arrayLit (first :: rest) _ =>
    obtain ⟨element, hf, -, -, rfl⟩ := parts_arrayLit h
    have hfirst : first.Allocates names := ha.part fun x hx => by simp [nodes, nodesAll, hx]
    have hname : names element.name := infer_name hn Site.names_unknown hfirst (.inl rfl) hf
    exact hname
  | .index array place _ =>
    obtain ⟨a, i, hi, he, -⟩ := parts_index h
    have harray : array.Allocates names := ha.part fun x hx => by simp [nodes, hx]
    have hname := infer_name hn Site.names_unknown harray (.inl rfl) hi
    obtain ⟨-, rfl⟩ := Ty.element?_eq_some.mp he
    exact hname
  | .newArray element length span =>
    rw [(parts_newArray h).2.2]
    exact ha element length span (by simp [nodes])
  | .newObject className _ =>
    obtain ⟨hk, rfl⟩ := parts_newObject h
    exact hn.known className hk
  | .member .. => rw [(parts_member h).2.1]; exact hn.int
  | .call receiver method args span =>
    obtain ⟨target, -, ht, -, -, -, hv⟩ := parts_call h
    obtain ⟨rfl, hvoid⟩ := CallTarget.resultType_of_valueType hv
    refine CallTarget.resultType_name hn hs ht (hvoid ?_)
    rcases hc with hc | hc
    · exact hc
    · cases hc
  | .paren inner _ =>
    rw [infer] at h
    have hinner : inner.Allocates names := ha.part fun x hx => by simp [nodes, hx]
    exact infer_name hn hs hinner hc h

end Expr

end JavaMinus
