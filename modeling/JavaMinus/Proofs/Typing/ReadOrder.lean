import JavaMinus.Proofs.Typing.CallOrder
import JavaMinus.Proofs.Typing.Placed

/-!
# Where elements are read in order

Lowering reads an array element where its value is used. Arguments and operands are copied before a
call that stands behind them, and the other places where one expression is evaluated before another
are not guarded: the elements of an array literal, the receiver of a call, and the index of an
assignment to an array element. There an element is read too late if a call stands behind it
(`Expr.readsInOrder`, `Stmt.readsInOrder`). The receiver of a static call is not evaluated at all,
which makes no difference to a receiver that is passive.

Without calls everything is in order (`Expr.readsInOrder_of_not_containsCall`).

The constructor of a new object runs code too, and in front of a `new` no element is copied anywhere.
Which constructors run while an element in front of them waits to be read can be seen from the text
(`Expr.lateNews`, `Stmt.lateNews`).
-/

namespace JavaMinus

namespace Expr

/-- The expression is an array element, looking through parentheses. -/
def isIndex (e : Expr) : Bool :=
  match e.unparenthesized with
  | .index .. => true
  | _ => false

/-- Evaluating the expression changes nothing: it neither calls nor allocates. -/
def isPassive : Expr → Bool
  | .intLit .. | .boolLit .. | .ident .. | .self _ => true
  | .binary _ left right _ => left.isPassive && right.isPassive
  | .not operand _ => operand.isPassive
  | .index array place _ => array.isPassive && place.isPassive
  | .member object _ _ => object.isPassive
  | .paren inner _ => inner.isPassive
  | .arrayLit .. | .newArray .. | .newObject .. | .call .. => false

/-- No array element stands in front of an expression with a call in it. -/
def elementsInOrder : List Expr → Bool
  | [] => true
  | e :: es => !(e.isIndex && anyContainsCall es) && elementsInOrder es

/-- The parts of an expression itself are evaluated in order. -/
def readsInOrder (s : Scope) : Expr → Bool
  | .arrayLit elements _ => elementsInOrder elements
  | .call receiver method args span =>
    match receiver.callTarget s method span with
    | .ok target =>
      if target.isStatic then receiver.namesClass s || receiver.isPassive
      else !(receiver.isIndex && anyContainsCall args)
    | .error _ => true
  | _ => true

/-- Every expression inside an expression is evaluated in order. -/
def InOrder (s : Scope) (e : Expr) : Prop := ∀ n ∈ e.nodes, n.readsInOrder s = true

/-- Every expression inside several is evaluated in order. -/
def InOrderAll (s : Scope) (es : List Expr) : Prop := ∀ n ∈ nodesAll es, n.readsInOrder s = true

instance (s : Scope) (es : List Expr) : Decidable (InOrderAll s es) :=
  inferInstanceAs (Decidable (∀ n ∈ nodesAll es, n.readsInOrder s = true))

/-- The class of the object that an expression itself allocates. -/
def newClass? : Expr → Option String
  | .newObject className _ => some className
  | _ => none

/-- The classes of the objects that an expression allocates, in the order of the text. -/
def news (e : Expr) : List String := e.nodes.filterMap newClass?

@[simp]
theorem news_newObject (className : String) (span : Span) :
    (newObject className span).news = [className] := rfl

@[simp]
theorem news_binary (op : BinaryOp) (left right : Expr) (span : Span) :
    (binary op left right span).news = left.news ++ right.news := List.filterMap_append

@[simp]
theorem news_not (operand : Expr) (span : Span) : (not operand span).news = operand.news := rfl

@[simp]
theorem news_arrayLit (elements : List Expr) (span : Span) :
    (arrayLit elements span).news = elements.flatMap news := by
  show (nodesAll elements).filterMap newClass? = elements.flatMap news
  rw [nodesAll_eq_flatMap, List.filterMap_flatMap]
  rfl

@[simp]
theorem news_index (array place : Expr) (span : Span) :
    (index array place span).news = array.news ++ place.news := List.filterMap_append

@[simp]
theorem news_newArray (element : TypeRef) (length : Expr) (span : Span) :
    (newArray element length span).news = length.news := rfl

@[simp]
theorem news_member (object : Expr) (property : String) (span : Span) :
    (member object property span).news = object.news := rfl

@[simp]
theorem news_paren (inner : Expr) (span : Span) : (paren inner span).news = inner.news := rfl

/-- The expressions behind the first array element. -/
def behindElement : List Expr → List Expr
  | [] => []
  | e :: es => if e.isIndex then es else behindElement es

/-- The parts of an expression that are evaluated while an array element in front of them waits to be
read. -/
def overtaking : Expr → List Expr
  | .binary _ left right _ => if left.isIndex && !right.containsCall then [right] else []
  | .arrayLit elements _ => behindElement elements
  | .call receiver _ args _ => if receiver.isIndex then args else []
  | _ => []

/-- The classes of the objects that are allocated in an expression while an element waits. -/
def lateNews (e : Expr) : List String := e.nodes.flatMap fun n => n.overtaking.flatMap news

theorem behindElement_subset (es : List Expr) : behindElement es ⊆ es := by
  induction es with
  | nil => exact List.nil_subset _
  | cons e es ih =>
    rw [behindElement]
    split
    · exact List.subset_cons_self _ _
    · exact List.subset_cons_of_subset _ ih

theorem behindElement_subset_cons (e : Expr) (es : List Expr) :
    behindElement es ⊆ behindElement (e :: es) := by
  rw [behindElement]
  split
  · exact behindElement_subset es
  · exact List.Subset.refl _

/-- What is allocated late in a part is allocated late in the whole. -/
theorem lateNews_subset {e part : Expr} (h : part.nodes ⊆ e.nodes) : part.lateNews ⊆ e.lateNews := by
  intro className hc
  obtain ⟨n, hn, hc⟩ := List.mem_flatMap.mp hc
  exact List.mem_flatMap.mpr ⟨n, h hn, hc⟩

variable {s : Scope}

/-- A part of an expression in order is in order. -/
theorem InOrder.part {e part : Expr} (h : e.InOrder s) (hp : ∀ n ∈ part.nodes, n ∈ e.nodes) :
    part.InOrder s := fun n hn => h n (hp n hn)

theorem InOrder.self {e : Expr} (h : e.InOrder s) : e.readsInOrder s = true :=
  h e e.mem_nodes_self

/-- Without calls the elements of a literal are in order. -/
theorem elementsInOrder_of_not_anyContainsCall {es : List Expr} (h : anyContainsCall es = false) :
    elementsInOrder es = true := by
  induction es with
  | nil => rfl
  | cons e es ih =>
    rw [anyContainsCall, Bool.or_eq_false_iff] at h
    rw [elementsInOrder, h.2, Bool.and_false, ih h.2]
    rfl

/-- An expression without calls is in order. -/
theorem readsInOrder_of_not_containsCall {e : Expr} (h : e.containsCall = false) :
    e.readsInOrder s = true := by
  cases e with
  | arrayLit elements span =>
    rw [containsCall] at h
    exact elementsInOrder_of_not_anyContainsCall h
  | call => cases h
  | _ => rfl

mutual
/-- An expression without calls has none in its parts. -/
theorem containsCall_of_mem_nodes : ∀ e : Expr, e.containsCall = false →
    ∀ n ∈ e.nodes, n.containsCall = false
  | .binary _ left right _, h => by
    rw [nodes]
    refine List.forall_mem_cons.mpr ⟨h, ?_⟩
    rw [containsCall, Bool.or_eq_false_iff] at h
    exact List.forall_mem_append.mpr
      ⟨containsCall_of_mem_nodes left h.1, containsCall_of_mem_nodes right h.2⟩
  | .index array place _, h => by
    rw [nodes]
    refine List.forall_mem_cons.mpr ⟨h, ?_⟩
    rw [containsCall, Bool.or_eq_false_iff] at h
    exact List.forall_mem_append.mpr
      ⟨containsCall_of_mem_nodes array h.1, containsCall_of_mem_nodes place h.2⟩
  | .arrayLit elements _, h => by
    rw [nodes]
    refine List.forall_mem_cons.mpr ⟨h, ?_⟩
    rw [containsCall] at h
    exact containsCall_of_mem_nodesAll elements h
  | .not part _, h | .newArray _ part _, h | .member part _ _, h | .paren part _, h => by
    rw [nodes]
    refine List.forall_mem_cons.mpr ⟨h, ?_⟩
    rw [containsCall] at h
    exact containsCall_of_mem_nodes part h
  | .call .., h => by cases h
  | .intLit .., h | .boolLit .., h | .ident .., h | .self _, h | .newObject .., h => by
    simpa [nodes] using h
theorem containsCall_of_mem_nodesAll : ∀ es : List Expr, anyContainsCall es = false →
    ∀ n ∈ nodesAll es, n.containsCall = false
  | [], _ => by simp [nodesAll]
  | e :: es, h => by
    rw [anyContainsCall, Bool.or_eq_false_iff] at h
    rw [nodesAll]
    exact List.forall_mem_append.mpr
      ⟨containsCall_of_mem_nodes e h.1, containsCall_of_mem_nodesAll es h.2⟩
end

/-- So all that is inside it is in order. -/
theorem inOrder_of_not_containsCall {e : Expr} (h : e.containsCall = false) : e.InOrder s :=
  fun n hn => readsInOrder_of_not_containsCall (containsCall_of_mem_nodes e h n hn)

end Expr

namespace Stmt

/-- The parts of a statement itself are evaluated in order. -/
def readsInOrder : Stmt → Bool
  | .assignElement _ index value _ => !(index.isIndex && value.containsCall)
  | _ => true

/-- The parts of a statement itself that are evaluated while an array element waits to be read. -/
def overtaking : Stmt → List Expr
  | .assignElement _ index value _ => if index.isIndex then [value] else []
  | _ => []

/-- The classes of the objects that are allocated in statements while an element waits. -/
def lateNewsAll (body : List Stmt) : List String := (nodesAll body).flatMap fun inner =>
  inner.overtaking.flatMap Expr.news ++ inner.expressions.flatMap Expr.lateNews

/-- The classes of the objects that are allocated in a statement while an element waits. -/
def lateNews (stmt : Stmt) : List String := stmt.nodes.flatMap fun inner =>
  inner.overtaking.flatMap Expr.news ++ inner.expressions.flatMap Expr.lateNews

/-- The parts of a statement and of every statement and expression inside it are evaluated in
order. -/
def InOrder (s : Scope) (stmt : Stmt) : Prop :=
  ∀ inner ∈ stmt.nodes, inner.readsInOrder = true ∧ Expr.InOrderAll s inner.expressions

instance (s : Scope) (stmt : Stmt) : Decidable (stmt.InOrder s) :=
  inferInstanceAs (Decidable (∀ inner ∈ stmt.nodes, _ ∧ Expr.InOrderAll s inner.expressions))

/-- The parts of all statements are evaluated in order. -/
def InOrderAll (s : Scope) (body : List Stmt) : Prop :=
  ∀ inner ∈ nodesAll body, inner.readsInOrder = true ∧ Expr.InOrderAll s inner.expressions

variable {s : Scope}

/-- The expressions of a statement in order are in order. -/
theorem InOrder.expression {stmt : Stmt} (h : stmt.InOrder s) {e : Expr}
    (he : e ∈ stmt.expressions) : e.InOrder s :=
  fun n hn => (h stmt stmt.mem_nodes_self).2 n (Expr.mem_nodesAll he hn)

/-- Statements without calls are in order. -/
theorem inOrderAll_of_not_containsCall {body : List Stmt}
    (h : ∀ inner ∈ nodesAll body, ∀ e ∈ inner.expressions, e.containsCall = false) :
    InOrderAll s body := by
  intro inner hi
  constructor
  · cases inner with
    | assignElement name index value span =>
      have hvalue : value.containsCall = false := h _ hi value (by simp [expressions])
      rw [readsInOrder, hvalue, Bool.and_false]
      rfl
    | _ => rfl
  · intro n hn
    rw [Expr.nodesAll_eq_flatMap, List.mem_flatMap] at hn
    obtain ⟨e, he, hn⟩ := hn
    exact Expr.inOrder_of_not_containsCall (h inner hi e he) n hn

end Stmt

end JavaMinus
