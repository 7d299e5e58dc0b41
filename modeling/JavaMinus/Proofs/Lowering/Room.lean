import JavaMinus.Proofs.Lowering.Lenient
import JavaMinus.Proofs.Lowering.Program
import JavaMinus.Syntax.Build

/-!
# Room in arrays

Inference and lowering agree: an expression that has a type at a site is lowered there, from whatever
counters, and the operand that holds its value has exactly that type (`Expr.lower_of_infer`). One thing
can stop it, an array of more values than its length can say, and then some part of the expression does
pack that many values (`Expr.packedCount`). So an expression without such a part has code wherever it
has a type.
-/

namespace JavaMinus

open Tac Lower

/-- The values that an expression itself, apart from its parts, asks to have in one new array: the
elements of a literal, or what a call passes from a varargs parameter on. -/
def Expr.packedCount (s : Scope) : Expr → Nat
  | .arrayLit elements _ => elements.length
  | .call receiver method args span =>
    match receiver.callTarget s method span with
    | .ok (.declared m) => if m.varargsParameter?.isSome then args.length - m.fixedCount else 0
    | _ => 0
  | _ => 0

/-- No expression of the list, nor a part of one, asks for an array that is too large. -/
def Expr.Roomy (s : Scope) (nodes : List Expr) : Prop :=
  ∀ n ∈ nodes, n.packedCount s ≤ maxArrayLength

instance (s : Scope) (nodes : List Expr) : Decidable (Expr.Roomy s nodes) :=
  inferInstanceAs (Decidable (∀ n ∈ nodes, n.packedCount s ≤ maxArrayLength))

theorem Expr.Roomy.part {s : Scope} {nodes part : List Expr} (h : Roomy s nodes)
    (hp : ∀ n ∈ part, n ∈ nodes) : Roomy s part :=
  fun n hn => h n (hp n hn)

namespace Lower

/-- Whatever stops the computation, it is not the size of an array. -/
def HasRoom {α : Type} (x : Lower α) : Prop :=
  ∀ c c', x.run c ≠ .failed .literalTooLarge c'

variable {α β : Type} {x : Lower α} {f : α → Lower β}

theorem HasRoom.bind (hx : x.HasRoom)
    (hf : ∀ c a code c', x.run c = .done a code c' → (f a).HasRoom) : (x >>= f).HasRoom := by
  intro c c' h
  rw [run_bind] at h
  cases hr : x.run c with
  | failed e c₁ =>
    rw [hr] at h
    cases h
    exact hx c c' hr
  | done a code c₁ =>
    rw [hr] at h
    dsimp only at h
    cases hn : (f a).run c₁ with
    | failed e c₂ =>
      rw [hn] at h
      cases h
      exact hf c a code c₁ hr c₁ c' hn
    | done b more c₂ =>
      rw [hn] at h
      cases h

theorem hasRoom_pure (a : α) : (pure a : Lower α).HasRoom := by
  intro c c' h
  cases h

theorem hasRoom_emit (i : Instr) : (emit i).HasRoom := by
  intro c c' h
  cases h

theorem hasRoom_fresh (ty : Ty) : (fresh ty).HasRoom := by
  intro c c' h
  cases h

theorem hasRoom_fail {e : LoweringError} (he : e ≠ .literalTooLarge) :
    (fail e : Lower α).HasRoom := by
  intro c c' h
  cases h
  exact he rfl

theorem hasRoom_ofTyping (o : Except TypeError α) : (ofTyping o).HasRoom := by
  cases o with
  | ok a => exact hasRoom_pure a
  | error e => exact hasRoom_fail (by simp)

theorem hasRoom_ofOption {e : LoweringError} (he : e ≠ .literalTooLarge) (o : Option α) :
    (ofOption e o).HasRoom := by
  cases o with
  | some a => exact hasRoom_pure a
  | none => exact hasRoom_fail he

theorem hasRoom_intoFresh (ty : Ty) (instr : Operand → Instr) : (intoFresh ty instr).HasRoom :=
  (hasRoom_fresh ty).bind fun _ _ _ _ _ => (hasRoom_emit _).bind fun _ _ _ _ _ => hasRoom_pure _

theorem hasRoom_readVariable (s : Scope) (name : String) : (readVariable s name).HasRoom := by
  unfold readVariable
  refine (hasRoom_ofOption (by simp) _).bind fun _ v _ _ _ => ?_
  split
  · exact hasRoom_intoFresh _ _
  · exact hasRoom_pure _

theorem hasRoom_storeAll (array : Operand) (values : List Operand) :
    ∀ index, (storeAll array index values).HasRoom := by
  induction values with
  | nil => exact fun _ => hasRoom_pure _
  | cons value rest ih => exact fun index => (hasRoom_emit _).bind fun _ _ _ _ _ => ih (index + 1)

theorem hasRoom_packArray {element : Ty} {values : List Operand}
    (h : values.length ≤ maxArrayLength) : (packArray element values).HasRoom := by
  unfold packArray
  rw [if_neg (by omega)]
  exact (hasRoom_intoFresh _ _).bind fun _ _ _ _ _ =>
    (hasRoom_storeAll _ _ _).bind fun _ _ _ _ _ => hasRoom_pure _

theorem hasRoom_settleBefore (operand : Operand) (next : Expr) :
    (settleBefore operand next).HasRoom := by
  unfold settleBefore
  split
  · exact hasRoom_intoFresh _ _
  · exact hasRoom_pure _

theorem hasRoom_elementAt (site : Site) (array index : Operand) :
    (elementAt site array index).HasRoom := by
  unfold elementAt
  refine (hasRoom_ofOption (by simp) _).bind fun _ ty _ _ _ => ?_
  dsimp only
  split
  · exact hasRoom_intoFresh _ _
  · exact hasRoom_pure _

theorem hasRoom_allocate (className : String) : (allocate className).HasRoom :=
  (hasRoom_fresh _).bind fun _ _ _ _ _ => (hasRoom_emit _).bind fun _ _ _ _ _ =>
    (hasRoom_emit _).bind fun _ _ _ _ _ => hasRoom_pure _

variable {s : Scope}

theorem hasRoom_pair {op : BinaryOp} {left right : Expr} {lowerLeft lowerRight : Site → Lower Operand}
    (hl : ∀ site, (lowerLeft site).HasRoom) (hr : ∀ site, (lowerRight site).HasRoom) :
    (pair s op left right lowerLeft lowerRight).HasRoom := by
  unfold pair
  refine (hasRoom_ofTyping _).bind fun _ sites _ _ _ => ?_
  refine (hl _).bind fun _ l _ _ _ => ?_
  refine (hasRoom_settleBefore l right).bind fun _ l _ _ _ => ?_
  exact (hr _).bind fun _ r _ _ _ => hasRoom_pure _

theorem hasRoom_receiver {target : CallTarget} {object : Lower Operand} (ho : object.HasRoom) :
    (receiver s target object).HasRoom := by
  unfold receiver
  split
  · exact hasRoom_pure _
  · split
    · exact hasRoom_pure _
    · exact ho
  · exact ho

theorem hasRoom_packVarargs {m : Signature} {method : String} {args : List Operand}
    (h : m.varargsParameter?.isSome = true → args.length - m.fixedCount ≤ maxArrayLength) :
    (packVarargs s m method args).HasRoom := by
  unfold packVarargs
  split
  · exact hasRoom_pure _
  · next varargs hv =>
    split
    · exact hasRoom_pure _
    · split
      · split
        · exact hasRoom_pure _
        · exact hasRoom_fail (by simp)
      · refine (hasRoom_ofOption (by simp) _).bind fun _ element _ _ _ => ?_
        refine (hasRoom_packArray ?_).bind fun _ packed _ _ _ => hasRoom_pure _
        rw [List.length_drop]
        exact h (by rw [hv]; rfl)

theorem hasRoom_invoke (site : Site) (method : String) (target : CallTarget) (on : Operand)
    (values : List Operand) : (invoke site method target on values).HasRoom := by
  unfold invoke
  split
  · exact (hasRoom_fresh _).bind fun _ _ _ _ _ => (hasRoom_emit _).bind fun _ _ _ _ _ =>
      hasRoom_pure _
  · exact (hasRoom_emit _).bind fun _ _ _ _ _ => hasRoom_pure _

/-- A call has room when its parts have, and when what it packs does not take too much. -/
theorem hasRoom_callCode {site : Site} {receiver : Expr} {method : String} {args : List Expr}
    {span : Span} (h : (Expr.call receiver method args span).packedCount s ≤ maxArrayLength)
    {object : Lower Operand} (ho : object.HasRoom)
    (ha : ∀ sites, (Expr.lowerAll s sites 0 args).HasRoom) :
    (callCode s site method (receiver.callTarget s method span) object
      fun sites => Expr.lowerAll s sites 0 args).HasRoom := by
  rw [callCode_eq]
  cases ht : receiver.callTarget s method span with
  | error e => exact (hasRoom_ofTyping _).bind fun _ _ _ _ hr => by cases hr
  | ok target =>
    refine (hasRoom_ofTyping _).bind fun _ _ _ _ hr => ?_
    cases hr
    refine (hasRoom_receiver ho).bind fun _ on _ _ _ => ?_
    refine (ha _).bind fun _ values _ _ hvalues => ?_
    have room : (pass s target method values).HasRoom := by
      cases target with
      | declared m =>
        refine hasRoom_packVarargs fun hv => ?_
        rw [Expr.packedCount, ht] at h
        rw [length_of_lowerAll hvalues]
        simpa [hv] using h
      | _ => exact hasRoom_pure values
    exact room.bind fun _ passed _ _ _ => hasRoom_invoke site method target on passed

end Lower

namespace Expr

variable {s : Scope}

mutual
/-- The size of an array stops the lowering of an expression only if some part asks for one that is
too large. -/
theorem lower_hasRoom : ∀ (e : Expr) (site : Site), Roomy s e.nodes → (e.lower s site).HasRoom
  | .intLit .., _, _ | .boolLit .., _, _ | .self _, _, _ => hasRoom_pure _
  | .ident name _, _, _ => hasRoom_readVariable s name
  | .binary op left right _, _, h => by
    have hl : Roomy s left.nodes := h.part fun n hn => by simp [nodes, hn]
    have hr : Roomy s right.nodes := h.part fun n hn => by simp [nodes, hn]
    exact (hasRoom_pair (fun site => lower_hasRoom left site hl) fun site =>
      lower_hasRoom right site hr).bind fun _ _ _ _ _ => hasRoom_intoFresh _ _
  | .not operand _, _, h => by
    have ho : Roomy s operand.nodes := h.part fun n hn => by simp [nodes, hn]
    exact (lower_hasRoom operand _ ho).bind fun _ _ _ _ _ => hasRoom_intoFresh _ _
  | .arrayLit elements span, site, h => by
    have hes : Roomy s (nodesAll elements) := h.part fun n hn => by simp [nodes, hn]
    have hlen : elements.length ≤ maxArrayLength := h (.arrayLit elements span) (mem_nodes_self _)
    refine (hasRoom_ofTyping _).bind fun _ ty _ _ _ => ?_
    refine (hasRoom_ofOption (by simp) _).bind fun _ element _ _ _ => ?_
    refine (lowerAll_hasRoom elements _ 0 hes).bind fun _ values _ _ hvalues => ?_
    exact hasRoom_packArray (by rw [length_of_lowerAll hvalues]; exact hlen)
  | .index array place _, site, h => by
    have ha : Roomy s array.nodes := h.part fun n hn => by simp [nodes, hn]
    have hp : Roomy s place.nodes := h.part fun n hn => by simp [nodes, hn]
    exact (lower_hasRoom array _ ha).bind fun _ _ _ _ _ =>
      (lower_hasRoom place _ hp).bind fun _ _ _ _ _ => hasRoom_elementAt site _ _
  | .newArray _ length _, _, h => by
    have hl : Roomy s length.nodes := h.part fun n hn => by simp [nodes, hn]
    exact (lower_hasRoom length _ hl).bind fun _ _ _ _ _ => hasRoom_intoFresh _ _
  | .newObject className _, _, _ => hasRoom_allocate className
  | .member object property _, _, h => by
    have ho : Roomy s object.nodes := h.part fun n hn => by simp [nodes, hn]
    unfold lower
    split
    · exact hasRoom_fail (by simp)
    · exact (lower_hasRoom object _ ho).bind fun _ _ _ _ _ => hasRoom_intoFresh _ _
  | .call receiver method args span, site, h => by
    have hr : Roomy s receiver.nodes := h.part fun n hn => by simp [nodes, hn]
    have ha : Roomy s (nodesAll args) := h.part fun n hn => by simp [nodes, hn]
    exact (hasRoom_callCode (h _ (mem_nodes_self _)) (lower_hasRoom receiver _ hr) fun sites =>
      lowerAll_hasRoom args sites 0 ha).bind fun _ _ _ _ _ => hasRoom_ofOption (by simp) _
  | .paren inner _, site, h =>
    lower_hasRoom inner site (h.part fun n hn => by simp [nodes, hn])
theorem lowerAll_hasRoom : ∀ (es : List Expr) (sites : Nat → Site) (i : Nat),
    Roomy s (nodesAll es) → (lowerAll s sites i es).HasRoom
  | [], _, _, _ => hasRoom_pure _
  | e :: es, sites, i, h => by
    have he : Roomy s e.nodes := h.part fun n hn => by simp [nodesAll, hn]
    have hes : Roomy s (nodesAll es) := h.part fun n hn => by simp [nodesAll, hn]
    exact (lower_hasRoom e _ he).bind fun _ _ _ _ _ =>
      (lowerAll_hasRoom es sites (i + 1) hes).bind fun _ _ _ _ _ => hasRoom_pure _
end

theorem lowerDiscarded_hasRoom {e : Expr} (h : Roomy s e.nodes) :
    (e.lowerDiscarded s).HasRoom := by
  have h : Roomy s e.unparenthesized.nodes := h.part fun _ => mem_nodes_unparenthesized
  unfold lowerDiscarded
  split
  · next receiver method args span he =>
    rw [he] at h
    have hr : Roomy s receiver.nodes := h.part fun n hn => by simp [nodes, hn]
    have ha : Roomy s (nodesAll args) := h.part fun n hn => by simp [nodes, hn]
    exact (hasRoom_callCode (h _ (mem_nodes_self _)) (lower_hasRoom receiver _ hr) fun sites =>
      lowerAll_hasRoom args sites 0 ha).bind fun _ _ _ _ _ => hasRoom_pure _
  · exact (lower_hasRoom _ _ h).bind fun _ _ _ _ _ => hasRoom_pure _

end Expr

/-- What meets a property from temporaries of any types ends well from any counters, if it has room. -/
theorem Lower.Meets.run_eq_done {α : Type} {s : Scope} {x : Lower α} {Q : List Ty → α → Prop}
    (h : ∀ temps, x.Meets (fun _ => True) s temps Q) (hx : x.HasRoom) (c : Counters) :
    ∃ a code c', x.run c = .done a code c' ∧ ∃ temps, Q temps a := by
  have hrun := h (List.replicate c.temps Ty.int) (fun _ _ => trivial) c (by simp)
  revert hrun
  cases hr : x.run c with
  | failed e c' =>
    intro he
    exact absurd (he ▸ hr) (hx c c')
  | done a code c' =>
    rintro ⟨more, -, -, -, ha, -⟩
    exact ⟨a, code, c', rfl, more, ha⟩

/-- **Inference and lowering agree.** An expression no part of which asks for an array that is too
large is lowered at every site that uses its value and at which it has a type, to an operand of exactly
that type; and when it has a type where its value is dropped, it is lowered as a statement. -/
theorem Expr.lower_of_infer {s : Scope} (arrays : s.table.VarargsAreArrays) {e : Expr}
    (room : Roomy s e.nodes) (c : Counters) :
    (∀ {site : Site} {ty : Ty}, site.consumesValue = true → e.infer s site = .ok ty →
      ∃ o code c', (e.lower s site).run c = .done o code c' ∧ o.ty = ty) ∧
    ∀ {ty : Ty}, e.infer s .discarded = .ok ty →
      ∃ code c', (e.lowerDiscarded s).run c = .done () code c' := by
  constructor
  · intro site ty used typed
    obtain ⟨o, code, c', hr, -, -, hty⟩ := Meets.run_eq_done
      (fun _ => e.lower_meets s.names_true arrays e.allocates_true site.names_true (.inl used) typed)
      (lower_hasRoom e site room) c
    exact ⟨o, code, c', hr, hty⟩
  · intro ty typed
    obtain ⟨_, code, c', hr, -⟩ := Meets.run_eq_done
      (fun _ => lowerDiscarded_meets s.names_true arrays e.allocates_true typed)
      (lowerDiscarded_hasRoom room) c
    exact ⟨code, c', hr⟩

/-- A method that takes however many values, and returns the first. -/
def leading : MethodDecl where
  name := "first"
  returnType := .scalar .int
  params := [Build.var "values" (.varargs .int)]
  body := [Build.ret (Build.index (Build.ident "values") (Build.int 0))]

/-- A class that reads values through an import. -/
def readings : Program where
  imports := [{ path := ["io", "Gauge"] }]
  classDecl := { name := "Log", methods := [leading] }

/-- What the import reads is compared with an element, and so has its type. -/
theorem Expr.lower_of_infer_readings :
    let s := readings.scopeOf {} leading
    let e := Build.binary .eq
      (Build.call (Build.ident "Gauge") "read" [Build.selfCall "first" [Build.int 1, Build.int 2]])
      (Build.index (Build.ident "values") (Build.int 0))
    s.table.VarargsAreArrays ∧ Roomy s e.nodes ∧ e.infer s (.returned Ty.boolean) = .ok Ty.boolean ∧
      e.infer s .discarded = .ok Ty.boolean ∧
      (∃ o code c', (e.lower s (.returned Ty.boolean)).run {} = .done o code c' ∧
        o.ty = Ty.boolean) ∧
      ∃ code c', (e.lowerDiscarded s).run {} = .done () code c' := by
  intro s e
  have arrays : s.table.VarargsAreArrays := readings.varargsAreArrays
  have room : Roomy s e.nodes := by decide
  have typed : e.infer s (.returned Ty.boolean) = .ok Ty.boolean := by decide
  have dropped : e.infer s .discarded = .ok Ty.boolean := by decide
  exact ⟨arrays, room, typed, dropped, (Expr.lower_of_infer arrays room {}).1 rfl typed,
    (Expr.lower_of_infer arrays room {}).2 dropped⟩

end JavaMinus
