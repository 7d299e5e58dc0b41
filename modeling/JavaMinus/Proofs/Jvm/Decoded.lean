import Mathlib.Data.List.Forall2
import Mathlib.Data.List.TakeWhile
import JavaMinus.Proofs.Jvm.Descriptors
import JavaMinus.Proofs.Jvm.Emits
import JavaMinus.Proofs.Jvm.Heights

/-!
# Reading descriptors

A reader of descriptors by the grammar of the class format: types stand one behind the other without
anything between them, an array in front of its element, and a class name ends at the first semicolon.
What is spelled for a method's types is read back as those types, as long as no class name that is
spelled has a semicolon in it (`readMethod?_of_methodDescriptor`).

So equal descriptors are spelled for types that are alike, parameter by parameter; and the numbers that
an invocation carries beside its descriptor, which its effect on the stack is computed from, are those
that the descriptor is read to (`descriptors_readable`).
-/

namespace JavaMinus.Jvm

/-- A scalar as descriptors have it. -/
inductive Element where
  | int
  | boolean
  | object (path : String)
deriving DecidableEq

/-- A type as descriptors have it. -/
inductive FieldType where
  | scalar (element : Element)
  | array (element : FieldType)
deriving DecidableEq

/-- A method's type as descriptors have it; without a result it leaves nothing. -/
structure MethodType where
  params : List FieldType
  result : Option FieldType
deriving DecidableEq

/-- The change of the stack's height that a call of a method of the type makes: its receiver and its
arguments are taken, and its result is left. -/
def MethodType.effect (t : MethodType) (kind : InvokeKind) : Int :=
  t.result.toList.length - t.params.length - kind.receiverCells

/-! ## The reader -/

/-- The type that a text begins with, and the text behind it. -/
def readField? : List Char → Option (FieldType × List Char)
  | 'I' :: rest => some (.scalar .int, rest)
  | 'Z' :: rest => some (.scalar .boolean, rest)
  | 'L' :: rest =>
    match rest.dropWhile (· != ';') with
    | _ :: behind => some (.scalar (.object (String.ofList (rest.takeWhile (· != ';')))), behind)
    | [] => none
  | '[' :: rest => (readField? rest).map fun p => (.array p.1, p.2)
  | _ => none

theorem length_lt_of_readField? {text behind : List Char} {t : FieldType}
    (h : readField? text = some (t, behind)) : behind.length < text.length := by
  induction text using readField?.induct generalizing t with
  | case1 rest | case2 rest =>
    cases h
    simp
  | case3 rest c behind' hdrop =>
    rw [readField?, hdrop] at h
    cases h
    have parts := congrArg List.length (List.takeWhile_append_dropWhile (p := (· != ';')) (l := rest))
    rw [hdrop, List.length_append, List.length_cons] at parts
    rw [List.length_cons]
    omega
  | case4 rest hdrop =>
    rw [readField?, hdrop] at h
    cases h
  | case5 rest ih =>
    rw [readField?] at h
    obtain ⟨p, hp, heq⟩ := Option.map_eq_some_iff.mp h
    obtain ⟨-, rfl⟩ := Prod.mk.inj heq
    have := ih hp
    rw [List.length_cons]
    omega
  | case6 text =>
    rw [readField?] at h
    · cases h
    all_goals assumption

/-- The types up to a closing parenthesis, and the text behind it. -/
def readParams? (text : List Char) : Option (List FieldType × List Char) :=
  if text.head? = some ')' then some ([], text.tail)
  else
    match h : readField? text with
    | some (t, behind) =>
      have := length_lt_of_readField? h
      (readParams? behind).map fun p => (t :: p.1, p.2)
    | none => none
termination_by text.length

/-- Parameters are read one behind the other. -/
theorem readParams?_cons {text behind rest : List Char} {t : FieldType} {ts : List FieldType}
    (h : readField? text = some (t, behind)) (hr : readParams? behind = some (ts, rest)) :
    readParams? text = some (t :: ts, rest) := by
  rw [readParams?, if_neg]
  · split
    · next t' behind' h' =>
      rw [h] at h'
      cases h'
      rw [hr]
      rfl
    · next h' =>
      rw [h] at h'
      cases h'
  · intro hclose
    obtain ⟨rest, rfl⟩ := List.head?_eq_some_iff.mp hclose
    cases h

/-- A whole text as the result of a method, which is none where it is `void`. -/
def readResult? : List Char → Option (Option FieldType)
  | ['V'] => some none
  | text =>
    match readField? text with
    | some (t, []) => some (some t)
    | _ => none

/-- The type of a method, read off its whole descriptor. -/
def readMethod? (descriptor : String) : Option MethodType :=
  match descriptor.toList with
  | '(' :: text => do
    let (params, behind) ← readParams? text
    let result ← readResult? behind
    return ⟨params, result⟩
  | _ => none

theorem readResult?_of_readField? {text : List Char} {t : FieldType}
    (h : readField? text = some (t, [])) : readResult? text = some (some t) := by
  unfold readResult?
  split
  · cases h
  · rw [h]

/-! ## What is spelled -/

/-- Up to a semicolon that is not in it, a text is read as the name of a class. -/
theorem readField?_object {path : String} (h : ';' ∉ path.toList) (rest : List Char) :
    readField? (("L" ++ path ++ ";").toList ++ rest) = some (.scalar (.object path), rest) := by
  have all : ∀ c ∈ path.toList, (c != ';') = true := fun c hc =>
    bne_iff_ne.mpr fun heq => h (heq ▸ hc)
  have text : ("L" ++ path ++ ";").toList ++ rest = 'L' :: (path.toList ++ ';' :: rest) := by simp
  rw [text, readField?, List.dropWhile_append_of_pos all, List.takeWhile_append_of_pos all]
  simp

namespace ClassNames

variable {n n' : ClassNames} {ty ty' : Ty} {d : String}

/-- The scalar that a name stands for: a primitive type, or a class by its path. There are no values of
`void`. -/
def element? (n : ClassNames) (name : String) : Option Element :=
  if name = "int" then some .int
  else if name = "boolean" then some .boolean
  else if name = "void" then none
  else some (.object (n.qualify name))

/-- The field type of a type. -/
def fieldType? (n : ClassNames) (ty : Ty) : Option FieldType :=
  (n.element? ty.name).map fun e => if ty.isArray then .array (.scalar e) else .scalar e

/-- Two types, each by the names that are known in a class, have one shape and one scalar. -/
structure Alike (n n' : ClassNames) (ty ty' : Ty) : Prop where
  isArray : ty.isArray = ty'.isArray
  element : n.element? ty.name = n'.element? ty'.name

/-- No semicolon stands in the path that is spelled for the type, if one is. -/
def Spellable (n : ClassNames) (ty : Ty) : Prop :=
  ty.hasPrimitiveName = false → ';' ∉ (n.qualify ty.name).toList

theorem element?_eq_none {name : String} : n.element? name = none ↔ name = "void" := by
  unfold element?
  split
  · next h => simp [h]
  split
  · next h => simp [h]
  split
  · next h => simp [h]
  · next h => simp [h]

/-- Types with one field type are alike. -/
theorem alike_of_fieldType? {t : FieldType} (h : n.fieldType? ty = some t)
    (h' : n'.fieldType? ty' = some t) : Alike n n' ty ty' := by
  obtain ⟨e, he, heq⟩ := Option.map_eq_some_iff.mp h
  obtain ⟨e', he', heq'⟩ := Option.map_eq_some_iff.mp h'
  rw [← heq'] at heq
  cases ha : ty.isArray <;> cases ha' : ty'.isArray <;> rw [ha, ha'] at heq <;> cases heq
  · exact ⟨ha.trans ha'.symm, he.trans he'.symm⟩
  · exact ⟨ha.trans ha'.symm, he.trans he'.symm⟩

/-- What is spelled for a scalar is read back. -/
theorem readField?_scalarDescriptor {e : Element} (he : n.element? ty.name = some e)
    (plain : n.Spellable ty) (rest : List Char) :
    readField? ((n.scalarDescriptor ty.name).toList ++ rest) = some (.scalar e, rest) := by
  unfold element? at he
  unfold scalarDescriptor
  simp only [beq_iff_eq]
  split at he
  · next hint =>
    cases he
    rw [if_pos hint]
    rfl
  split at he
  · next hint hboolean =>
    cases he
    rw [if_neg hint, if_pos hboolean]
    rfl
  split at he
  · cases he
  · next hint hboolean hvoid =>
    cases he
    rw [if_neg hint, if_neg hboolean, if_neg hvoid]
    exact readField?_object (plain (by simp [Ty.hasPrimitiveName, hint, hboolean, hvoid])) rest

/-- What is spelled for a type is read back, unless that is `void`. -/
theorem readField?_descriptor (h : n.descriptor ty = .ok d) (hv : ty.isVoid = false)
    (plain : n.Spellable ty) :
    ∃ t, n.fieldType? ty = some t ∧ ∀ rest, readField? (d.toList ++ rest) = some (t, rest) := by
  have hname : ty.name ≠ "void" := by simpa [Ty.isVoid] using hv
  obtain ⟨e, he⟩ := Option.ne_none_iff_exists'.mp fun hnone => hname ((element?_eq_none (n := n)).mp hnone)
  have scalar := readField?_scalarDescriptor he plain
  refine ⟨if ty.isArray then .array (.scalar e) else .scalar e, by rw [fieldType?, he]; rfl,
    fun rest => ?_⟩
  unfold descriptor at h
  split at h
  · next ha =>
    rw [hv, if_neg Bool.false_ne_true] at h
    cases h
    rw [if_pos ha, String.toList_append]
    show readField? ('[' :: ((n.scalarDescriptor ty.name).toList ++ rest)) = _
    rw [readField?, scalar]
    rfl
  · next ha =>
    cases h
    rw [if_neg ha, scalar]

/-- So is what is spelled for parameters in a row. -/
theorem readParams?_mapM {params : List Ty} {ds : List String}
    (h : params.mapM n.paramDescriptor = .ok ds) (plain : ∀ ty ∈ params, n.Spellable ty)
    (rest : List Char) :
    ∃ ts, readParams? ((String.join ds).toList ++ ')' :: rest) = some (ts, rest) ∧
      List.Forall₂ (fun ty t => n.fieldType? ty = some t) params ts := by
  induction params generalizing ds with
  | nil =>
    cases h
    refine ⟨[], ?_, .nil⟩
    rw [readParams?, if_pos (by simp [String.join])]
    simp [String.join]
  | cons ty params ih =>
    rw [List.mapM_cons] at h
    obtain ⟨d, hd, h⟩ := bind_eq_ok.mp h
    obtain ⟨ds, hds, h⟩ := bind_eq_ok.mp h
    cases h
    obtain ⟨hv, hd⟩ := paramDescriptor_eq_ok.mp hd
    obtain ⟨t, ht, reads⟩ := readField?_descriptor hd hv (plain ty List.mem_cons_self)
    obtain ⟨ts, hts, all⟩ := ih hds fun ty hty => plain ty (List.mem_cons_of_mem _ hty)
    refine ⟨t :: ts, ?_, .cons ht all⟩
    have head := reads ((String.join ds).toList ++ ')' :: rest)
    rw [String.join_cons, String.toList_append, List.append_assoc]
    exact readParams?_cons head hts

/-- What is spelled for a result is read back; no result is an array of `void`. -/
theorem readResult?_descriptor (h : n.descriptor ty = .ok d) (plain : n.Spellable ty) :
    readResult? d.toList = some (n.fieldType? ty) ∧ (ty.isVoid = true → ty.isArray = false) := by
  cases hv : ty.isVoid with
  | true =>
    have hname : ty.name = "void" := by simpa [Ty.isVoid] using hv
    unfold descriptor at h
    rw [hv, if_pos rfl] at h
    split at h
    · cases h
    · next ha =>
      cases h
      have spelled : n.scalarDescriptor "void" = "V" := by simp [scalarDescriptor]
      rw [fieldType?, hname, element?_eq_none.mpr rfl, spelled]
      exact ⟨rfl, fun _ => by simpa using ha⟩
  | false =>
    obtain ⟨t, ht, reads⟩ := readField?_descriptor h hv plain
    have whole := reads []
    rw [List.append_nil] at whole
    rw [ht]
    exact ⟨readResult?_of_readField? whole, fun h => absurd h Bool.false_ne_true⟩

/-- What is spelled for the types of a method is read back. -/
theorem readMethod?_of_methodDescriptor {params : List Ty} {result : Ty}
    (h : n.methodDescriptor params result = .ok d) (plain : ∀ ty ∈ result :: params, n.Spellable ty) :
    ∃ ts, readMethod? d = some ⟨ts, n.fieldType? result⟩ ∧
      List.Forall₂ (fun ty t => n.fieldType? ty = some t) params ts ∧
      (result.isVoid = true → result.isArray = false) := by
  obtain ⟨ds, hds, h⟩ := bind_eq_ok.mp h
  obtain ⟨r, hr, h⟩ := bind_eq_ok.mp h
  cases h
  obtain ⟨plainResult, plainParams⟩ := List.forall_mem_cons.mp plain
  obtain ⟨ts, hts, all⟩ := readParams?_mapM hds plainParams r.toList
  obtain ⟨hresult, hscalar⟩ := readResult?_descriptor hr plainResult
  have text : ("(" ++ String.join ds ++ ")" ++ r).toList =
      '(' :: ((String.join ds).toList ++ ')' :: r.toList) := by simp
  refine ⟨ts, ?_, all, hscalar⟩
  simp only [readMethod?, text, hts, hresult, Option.bind_eq_bind, Option.bind_some]
  rfl

/-- Types of methods with one descriptor are alike. -/
theorem alike_of_methodDescriptor {params params' : List Ty} {result result' : Ty}
    (plain : ∀ ty ∈ result :: params, n.Spellable ty)
    (plain' : ∀ ty ∈ result' :: params', n'.Spellable ty)
    (h : n.methodDescriptor params result = .ok d)
    (h' : n'.methodDescriptor params' result' = .ok d) :
    List.Forall₂ (Alike n n') params params' ∧ Alike n n' result result' := by
  obtain ⟨ts, hread, all, scalar⟩ := readMethod?_of_methodDescriptor h plain
  obtain ⟨ts', hread', all', scalar'⟩ := readMethod?_of_methodDescriptor h' plain'
  obtain ⟨rfl, sameResult⟩ := MethodType.mk.inj (Option.some.inj (hread.symm.trans hread'))
  constructor
  · have length := all.length_eq.trans all'.length_eq.symm
    exact List.forall₂_iff_get.mpr ⟨length, fun i hi hi' => alike_of_fieldType?
      (all.get hi (all.length_eq ▸ hi)) (all'.get hi' (all.length_eq ▸ hi))⟩
  · cases ht : n.fieldType? result with
    | some t => exact alike_of_fieldType? ht (sameResult.symm.trans ht)
    | none =>
      have void : n.element? result.name = none := Option.map_eq_none_iff.mp ht
      have void' : n'.element? result'.name = none :=
        Option.map_eq_none_iff.mp (sameResult.symm.trans ht)
      have isVoid : result.isVoid = true := beq_iff_eq.mpr (element?_eq_none.mp void)
      have isVoid' : result'.isVoid = true := beq_iff_eq.mpr (element?_eq_none.mp void')
      exact ⟨(scalar isVoid).trans (scalar' isVoid').symm, void.trans void'.symm⟩

end ClassNames

/-! ## Invocations -/

/-- The counts of an invocation are those of the type that its descriptor is read to: the number of
parameters, and whether there is a result. -/
structure Counts (descriptor : String) (argCount : Nat) (returns : Bool) (t : MethodType) : Prop where
  reads : readMethod? descriptor = some t
  params : t.params.length = argCount
  result : t.result = none ↔ returns = false

/-- The effect of an invocation is that of the type that its descriptor is read to. -/
theorem Counts.effect {d : String} {argCount : Nat} {returns : Bool} {t : MethodType}
    (h : Counts d argCount returns t) (kind : InvokeKind) (owner name : String) :
    (Instr.invoke kind owner name d argCount returns).effect = t.effect kind := by
  have result : (t.result.toList.length : Int) = returns.toNat := by
    cases returns with
    | false =>
      rw [h.result.mpr rfl]
      rfl
    | true =>
      obtain ⟨r, hr⟩ := Option.ne_none_iff_exists'.mp fun hnone =>
        Bool.noConfusion (h.result.mp hnone)
      rw [hr]
      rfl
  have cells : (Instr.invoke kind owner name d argCount returns).effect =
      (returns.toNat : Int) - ((argCount + kind.receiverCells : Nat) : Int) := Instr.effect_eq _
  rw [cells, MethodType.effect, result, h.params]
  omega

theorem counts_of_methodDescriptor {n : ClassNames} {params : List Ty} {result : Ty} {d : String}
    (h : n.methodDescriptor params result = .ok d)
    (plain : ∀ ty ∈ result :: params, n.Spellable ty) :
    ∃ t, Counts d params.length (!result.isVoid) t := by
  obtain ⟨ts, hread, all, -⟩ := ClassNames.readMethod?_of_methodDescriptor h plain
  refine ⟨_, hread, all.length_eq.symm, ?_⟩
  show n.fieldType? result = none ↔ _
  rw [ClassNames.fieldType?, Option.map_eq_none_iff, ClassNames.element?_eq_none]
  simp [Ty.isVoid]

/-- The types that the descriptor in the code of a piece is spelled from. Constructors are called
without arguments, and leave nothing. -/
def Piece.signature : Piece → List Ty
  | .instr (.call _ _ _ _ args ty) => ty :: args.map Tac.Operand.ty
  | _ => []

namespace MethodContext

variable {x : MethodContext}

/-- The counts that an invocation is spelled with are those of its descriptor. -/
theorem Spells.counts {p : Piece} {kind : InvokeKind} {owner name d : String} {argCount : Nat}
    {returns : Bool} (h : x.Spells p (.invoke kind owner name d argCount returns))
    (plain : ∀ ty ∈ p.signature, x.names.Spellable ty) : ∃ t, Counts d argCount returns t := by
  cases h with
  | @call _ _ _ _ args _ _ _ _ descriptor_ =>
    obtain ⟨t, ht⟩ := counts_of_methodDescriptor descriptor_ plain
    rw [List.length_map] at ht
    exact ⟨t, ht⟩
  | newObject =>
    have empty : x.names.methodDescriptor [] Ty.void = .ok "()V" := by
      simp [ClassNames.methodDescriptor, ClassNames.descriptor, ClassNames.scalarDescriptor, Ty.void,
        String.join]
      rfl
    exact counts_of_methodDescriptor empty fun ty hty h => by
      rw [List.mem_singleton.mp hty] at h
      cases h

end MethodContext

/-- Descriptors can be read. Those that are spelled for the types of two methods are equal only where
the types are alike, one by one. And an invocation in selected code has the counts that its descriptor
is read to, so that its effect on the stack is that of the descriptor. Both hold where no class name that
is spelled has a semicolon in it. -/
theorem descriptors_readable :
    (∀ (n n' : ClassNames) (params params' : List Ty) (result result' : Ty) (d : String),
      (∀ ty ∈ result :: params, n.Spellable ty) → (∀ ty ∈ result' :: params', n'.Spellable ty) →
      n.methodDescriptor params result = .ok d → n'.methodDescriptor params' result' = .ok d →
      List.Forall₂ (ClassNames.Alike n n') params params' ∧ ClassNames.Alike n n' result result') ∧
    ∀ (x : MethodContext) (body : List Tac.Instr) (code : List Instr), x.select body = .ok code →
      ∀ kind owner name d argCount returns, .invoke kind owner name d argCount returns ∈ code →
      ∃ p ∈ pieces body, x.Spells p (.invoke kind owner name d argCount returns) ∧
        ((∀ ty ∈ p.signature, x.names.Spellable ty) → ∃ t, Counts d argCount returns t ∧
          (Instr.invoke kind owner name d argCount returns).effect = t.effect kind) := by
  refine ⟨fun n n' params params' result result' d => ClassNames.alike_of_methodDescriptor,
    fun x body code h kind owner name d argCount returns hi => ?_⟩
  obtain ⟨p, hp, spells⟩ := MethodContext.spells_of_select h hi
  refine ⟨p, hp, spells, fun plain => ?_⟩
  obtain ⟨t, ht⟩ := spells.counts plain
  exact ⟨t, ht, ht.effect kind owner name⟩

/-- A method that joins its object with a number, and drops the result. -/
def joinBody : List Tac.Instr := [
  .call none .virtual (.self (Ty.scalar "Gauge")) "join" [.self (Ty.scalar "Gauge"), .int 3] Ty.int,
  .ret none]

def joinContext : MethodContext where
  names := ⟨"Gauge", []⟩
  superClass := "java/lang/Object"
  isStatic := false
  returnTy := Ty.void
  slots := ⟨∅, 1⟩

def joinCode : List Instr := [
  .load .ref 0, .load .ref 0, .const 3, .invoke .virtual "Gauge" "join" "(LGauge;I)I" 2 true, .pop,
  .ret none]

theorem qualify_gauge (className : String) :
    ClassNames.qualify ⟨className, []⟩ "Gauge" = "Gauge" := by
  simp [ClassNames.qualify, longest]

theorem methodDescriptor_join (className : String) :
    ClassNames.methodDescriptor ⟨className, []⟩ [Ty.scalar "Gauge", Ty.int] Ty.int =
      .ok "(LGauge;I)I" := by
  simp only [ClassNames.methodDescriptor, List.mapM_cons, List.mapM_nil, ClassNames.paramDescriptor,
    ClassNames.descriptor, ClassNames.scalarDescriptor, Ty.scalar, Ty.int, Ty.isVoid, qualify_gauge]
  rfl

theorem select_join : joinContext.select joinBody = .ok joinCode := by
  have self : joinContext.Loads (.self (Ty.scalar "Gauge")) [.load .ref 0] := .self rfl
  have receives : joinContext.Receives .virtual (.self (Ty.scalar "Gauge")) .virtual "Gauge"
      [.load .ref 0] := .virtual rfl rfl self
  exact MethodContext.select_eq_ok.mpr ⟨_, .cons (.call receives
    (.cons self (.cons (.intLit 3 Ty.int) .nil)) (methodDescriptor_join "Gauge") (by decide) .dropped)
    (.cons .retNone (.nil _)), rfl⟩

/-- The class of the gauge and another one spell the method alike, and the call takes its receiver and
two arguments for one result. -/
theorem descriptors_readable_join :
    (∀ className, ∀ ty ∈ [Ty.int, Ty.scalar "Gauge", Ty.int],
      ClassNames.Spellable ⟨className, []⟩ ty) ∧
    ClassNames.Alike ⟨"Gauge", []⟩ ⟨"Main", []⟩ Ty.int Ty.int ∧
    joinContext.select joinBody = .ok joinCode ∧
    ∃ t, Counts "(LGauge;I)I" 2 true t ∧
      (Instr.invoke .virtual "Gauge" "join" "(LGauge;I)I" 2 true).effect = t.effect .virtual := by
  have plain (className : String) : ∀ ty ∈ [Ty.int, Ty.scalar "Gauge", Ty.int],
      ClassNames.Spellable ⟨className, []⟩ ty := by
    simp [ClassNames.Spellable, Ty.int, Ty.scalar, Ty.hasPrimitiveName, qualify_gauge]
  obtain ⟨alike, counts⟩ := descriptors_readable
  obtain ⟨p, hp, spells, read⟩ := counts joinContext joinBody joinCode select_join .virtual "Gauge"
    "join" "(LGauge;I)I" 2 true (by decide)
  refine ⟨plain, (alike _ _ _ _ _ _ _ (plain _) (plain _) (methodDescriptor_join _)
    (methodDescriptor_join _)).2, select_join, read ?_⟩
  simp only [joinBody, pieces, List.mem_cons, List.not_mem_nil, or_false] at hp
  obtain rfl | rfl := hp
  · exact plain _
  · exact List.forall_mem_nil _

end JavaMinus.Jvm
