import JavaMinus.Proofs.Compile.Linked
import JavaMinus.Proofs.Lowering.Later
import JavaMinus.Proofs.Lowering.Room

/-!
# What declared methods are passed

The code of a call of a method that the class declares is that of its receiver, of its arguments, of
an array that some of them are packed into, and then the call (`CallParts`). Either every argument is
passed as it is, or those from the varargs parameter on are packed into a new array, which is passed
in their place (`Expr.callParts_of_infer`).

If no superclass is trusted, the operands fit the parameters one by one
(`Expr.passed_of_untrusted`). If one is trusted, a call may have arguments that cannot fill the
parameters. Whether these are packed does not depend on whether they fit: as long as there are enough
of them, they are packed for a varargs parameter (`Expr.passed_asGiven_iff`).
-/

namespace JavaMinus

open Tac Lower

/-! ## Arguments and parameters -/

namespace Signature

variable {m : Signature} {tys : List Ty}

/-- Arguments of the given types can fill the parameters: an array is passed for the varargs parameter
itself, or their number is right and each of them may be stored in what it is passed for. -/
def canFill (s : Scope) (m : Signature) (tys : List Ty) : Bool :=
  m.passesVarargsArray tys || m.acceptsCount tys.length &&
    tys.zipIdx.all fun (ty, i) => (m.parameterType? i).all fun expected => s.assignable expected ty

/-- A varargs parameter takes every number of arguments that fills the parameters in front of it. -/
theorem packs_eq_acceptsCount {varargs : Symbol} (hv : m.varargsParameter? = some varargs) :
    m.packs tys = (!m.passesVarargsArray tys && m.acceptsCount tys.length) := by
  have hfixed := fixedCount_of_varargs hv
  simp only [packs, acceptsCount, hv, Option.isSome_some, Bool.true_and, if_true]
  congr 1
  exact decide_eq_decide.mpr (by omega)

end Signature

/-! ## Temporaries so far -/

namespace Tac

variable {s : Scope} {temps : List Ty}

/-- The temporaries of a typed operand are drawn. -/
theorem Operand.Typed.drawn {o : Operand} (h : o.Typed s temps) : o.Below temps.length := by
  induction h with
  | temp known => exact (List.getElem?_eq_some_iff.mp known).1
  | element _ _ _ _ iha ihi => exact ⟨iha, ihi⟩
  | _ => trivial

theorem Code.Typed.drawn {code : List Instr} (h : Code.Typed s temps code) :
    ∀ i ∈ code, ∀ o ∈ i.operands, o.Below temps.length := by
  intro i hi o ho
  rcases h.operands i hi o ho with ho | ⟨name, rfl⟩
  · exact ho.drawn
  · trivial

end Tac

/-- What is run from some counters draws temporaries after those that are drawn, and its code works on
drawn ones. -/
theorem Lower.Meets.drawn {α : Type} {s : Scope} {x : Lower α} {Q : List Ty → α → Prop} {c c' : Counters}
    {a : α} {code : List Instr}
    (h : x.Meets (fun _ => True) s (List.replicate c.temps Ty.int) Q)
    (hr : x.run c = .done a code c') :
    c.temps ≤ c'.temps ∧ ∀ i ∈ code, ∀ o ∈ i.operands, o.Below c'.temps := by
  have hrun := h (fun _ _ => trivial) c (by simp)
  rw [hr] at hrun
  obtain ⟨more, hprefix, hlength, -, -, hcode⟩ := hrun
  have hle := hprefix.length_le
  rw [List.length_replicate] at hle
  rw [hlength]
  exact ⟨hle, hcode.drawn⟩

/-! ## The parts of a call -/

/-- The code of a call of a declared method, and the operands it works on. -/
structure CallParts where
  /-- The operand that the call is made on, and the code in front of the arguments. -/
  on : Operand
  receiver : List Instr
  /-- The operands of the arguments, and their code. -/
  values : List Operand
  arguments : List Instr
  /-- The number of temporaries drawn so far. -/
  drawn : Nat
  /-- The operands that are passed, and the code that packs some of them. -/
  passed : List Operand
  packing : List Instr
  /-- Where the result is kept, if it is. -/
  result : Option Operand

/-- An expression is lowered to code at a site, and to an operand where the site uses the value. -/
def Expr.LowersAt (s : Scope) (site : Site) (e : Expr) (c : Counters) (result : Option Operand)
    (code : List Instr) (c' : Counters) : Prop :=
  if site.consumesValue then ∃ o, result = some o ∧ (e.lower s site).run c = .done o code c'
  else result = none ∧ (e.lowerDiscarded s).run c = .done () code c'

namespace CallParts

/-- The parts of the code in their order. -/
def code (k : CallParts) (m : Signature) (method : String) : List Instr :=
  k.receiver ++ (k.arguments ++ (k.packing ++
    [.call k.result (callKind (.declared m)) k.on method k.passed m.returnType.plain]))

/-- The parts are those that a call of a declared method is lowered to at a site. -/
structure Of (k : CallParts) (s : Scope) (site : Site) (m : Signature) (receiver : Expr)
    (method : String) (args : List Expr) (span : Span) (c : Counters) : Prop where
  lowers : ∃ c', (Expr.call receiver method args span).LowersAt s site c k.result (k.code m method) c'
  parts : ∃ c₁ c₂, (Lower.receiver s (.declared m) (receiver.lower s .unknown)).run c =
      .done k.on k.receiver c₁ ∧
    (Expr.lowerAll s (CallTarget.declared m).argumentSite 0 args).run c₁ =
      .done k.values k.arguments c₂ ∧ c₂.temps = k.drawn
  length : k.values.length = args.length
  /-- No temporary that is drawn later was used before. -/
  below : c.temps ≤ k.drawn ∧ ∀ i ∈ k.receiver ++ k.arguments, ∀ o ∈ i.operands, o.Below k.drawn

/-- The operands of the arguments are passed, and nothing is packed. -/
structure AsGiven (k : CallParts) : Prop where
  packing : k.packing = []
  passed : k.passed = k.values

/-- The operands from the varargs parameter on are stored, in order, into the cells of a new array of
their number, which is passed for the parameter. -/
structure Packs (k : CallParts) (m : Signature) (varargs : Symbol) : Prop where
  packing : k.packing = arrayOf (.temp k.drawn (Ty.array varargs.ty.name))
    (Ty.scalar varargs.ty.name) (k.values.drop m.fixedCount)
  passed : k.passed = k.values.take m.fixedCount ++ [.temp k.drawn (Ty.array varargs.ty.name)]
  cells : ∀ i ≤ (k.values.drop m.fixedCount).length, (Int32.ofNat i).toInt = i

/-- A new array is packed by at least one instruction. -/
theorem Packs.not_asGiven {k : CallParts} {m : Signature} {varargs : Symbol}
    (h : k.Packs m varargs) : ¬ k.AsGiven := by
  intro given
  have hpacking := h.packing
  rw [given.packing] at hpacking
  cases hpacking

end CallParts

variable {s : Scope} {m : Signature} {receiver : Expr} {method : String} {args : List Expr}
  {span : Span} {site : Site} {ty : Ty}

/-- The code of an accepted call is that of the call expression at its site. -/
theorem Expr.lowersAt_of_callCode (target : receiver.callTarget s method span = .ok (.declared m))
    (value : (CallTarget.declared m).valueType site method span = .ok ty) {c c' : Counters}
    {r : Option Operand} {code : List Instr}
    (h : (callCode s site method (.ok (.declared m)) (receiver.lower s .unknown) fun sites =>
      lowerAll s sites 0 args).run c = .done r code c') :
    (Expr.call receiver method args span).LowersAt s site c r code c' := by
  obtain ⟨_, _, _, _, _, _, _, _, _, -, -, -, -, hresult⟩ := callCode_eq_done.mp h
  unfold LowersAt
  by_cases hs : site.consumesValue = true
  · have hkeep : (site.consumesValue && !((CallTarget.declared m).resultType site).isVoid) = true := by
      obtain ⟨rfl, hvoid⟩ := CallTarget.resultType_of_valueType value
      simp [hs, hvoid hs]
    rw [if_pos hkeep] at hresult
    obtain ⟨rfl, -⟩ := hresult
    rw [if_pos hs, lower, target]
    exact ⟨_, rfl, run_bind_eq_done.mpr ⟨_, _, _, [], h, rfl, (List.append_nil _).symm⟩⟩
  · have hdrop : ¬ (site.consumesValue && !((CallTarget.declared m).resultType site).isVoid) = true := by
      simp [hs]
    rw [if_neg hdrop] at hresult
    obtain rfl : site = .discarded := by
      cases site <;> simp [Site.consumesValue] at hs ⊢
    rw [if_neg hs]
    refine ⟨hresult.1, ?_⟩
    have hself : (Expr.call receiver method args span).unparenthesized =
      .call receiver method args span := rfl
    rw [lowerDiscarded, hself]
    dsimp only
    rw [target]
    exact run_bind_eq_done.mpr ⟨_, _, _, [], h, rfl, (List.append_nil _).symm⟩

/-- **The parts of a call.** An accepted call of a declared method is lowered, from whatever counters,
to the code of its parts. Its arguments are packed or passed as given, as their types say. -/
theorem Expr.callParts_of_infer (arrays : s.table.VarargsAreArrays)
    (target : receiver.callTarget s method span = .ok (.declared m))
    (typed : (Expr.call receiver method args span).infer s site = .ok ty)
    (room : Roomy s (Expr.call receiver method args span).nodes) (c : Counters) :
    ∃ (tys : List Ty) (k : CallParts), inferArgs s (CallTarget.declared m).argumentSite 0 args = .ok tys ∧
      k.values.map Operand.ty = tys ∧ k.Of s site m receiver method args span c ∧
      k.passed.map Operand.ty = m.passedTypes tys ∧
      if m.packs tys = true then ∃ varargs, m.varargsParameter? = some varargs ∧ k.Packs m varargs
      else k.AsGiven := by
  obtain ⟨target', tys, ht, hcount, hargs, htypes, hvalue⟩ := parts_call typed
  obtain rfl : target' = .declared m := Except.ok.inj (ht.symm.trans target)
  have hreceiver : Roomy s receiver.nodes := room.part fun n hn => by simp [nodes, hn]
  have harguments : Roomy s (nodesAll args) := room.part fun n hn => by simp [nodes, hn]
  have hobject (temps : List Ty) (t : Ty) (h : receiver.infer s .unknown = .ok t) :
      (receiver.lower s .unknown).Meets (fun _ => True) s temps (Holds s t) :=
    receiver.lower_meets s.names_true arrays receiver.allocates_true Site.unknown.names_true
      (.inl rfl) h
  have hvalues (temps : List Ty) : (lowerAll s (CallTarget.declared m).argumentSite 0 args).Meets
      (fun _ => True) s temps (HoldsAll s tys) :=
    lowerAll_meets s.names_true arrays args (fun e _ => e.allocates_true)
      (fun j => ⟨CallTarget.consumesValue_argumentSite _ j, Site.names_true _⟩) hargs
  have hlen : (args.map Expr.span).length = tys.length := by
    rw [List.length_map, length_of_inferArgs hargs]
  -- the call is lowered, and so are its parts
  obtain ⟨r, code, c', hrun, -⟩ := Meets.run_eq_done
    (fun temps => meets_callCode s.names_true arrays site.names_true target hlen
      (by rw [List.length_map]; exact hcount) htypes hvalue hobject hvalues)
    (hasRoom_callCode (room _ (mem_nodes_self _)) (lower_hasRoom receiver _ hreceiver) fun sites =>
      lowerAll_hasRoom args sites 0 harguments) c
  rw [target] at hrun
  obtain ⟨on, code₁, c₁, values, code₂, c₂, passed, code₃, c₃, h₁, h₂, h₃, rfl, hresult⟩ :=
    callCode_eq_done.mp hrun
  have htys : values.map Operand.ty = tys :=
    types_of_lowerAll arrays (CallTarget.consumesValue_argumentSite _) hargs h₂
  have hbefore := (meets_receiver target hobject).drawn h₁
  have hafter := (hvalues _).drawn h₂
  have hpassed := packVarargs_eq_done h₃
  have hbelow : ∀ i ∈ code₁ ++ code₂, ∀ o ∈ i.operands, o.Below c₂.temps := by
    intro i hi o ho
    rcases List.mem_append.mp hi with hi | hi
    · exact (hbefore.2 i hi o ho).mono hafter.1
    · exact hafter.2 i hi o ho
  have htypes' := types_of_pass h₃
  rw [htys] at hpassed htypes'
  refine ⟨tys, ⟨on, code₁, values, code₂, c₂.temps, passed, code₃, r⟩, hargs, htys,
    ⟨⟨c', lowersAt_of_callCode target hvalue hrun⟩, ⟨c₁, c₂, h₁, h₂, rfl⟩, length_of_lowerAll h₂,
      Nat.le_trans hbefore.1 hafter.1, hbelow⟩, htypes', ?_⟩
  by_cases hpacks : m.packs tys = true
  · rw [if_pos hpacks] at hpassed ⊢
    obtain ⟨varargs, hv, hfits, rfl, rfl⟩ := hpassed
    exact ⟨varargs, hv, rfl, rfl, fun i hi => toInt_ofNat_of_le (Nat.le_trans hi hfits)⟩
  · rw [if_neg hpacks] at hpassed ⊢
    exact ⟨hpassed.1, hpassed.2⟩

/-- **What is passed where no superclass is trusted.** The call of a declared method passes one operand
for each parameter, which may be stored in it. If an array is passed for the varargs parameter, or
there is none, these are the operands of the arguments; otherwise those of the arguments from the
varargs parameter on are packed into a new array, and each of them may be stored in it. -/
theorem Expr.passed_of_untrusted (arrays : s.table.VarargsAreArrays)
    (trust : s.trustsSuperclass = false)
    (target : receiver.callTarget s method span = .ok (.declared m))
    (typed : (Expr.call receiver method args span).infer s site = .ok ty)
    (room : Roomy s (Expr.call receiver method args span).nodes) (c : Counters) :
    ∃ (tys : List Ty) (k : CallParts),
      inferArgs s (CallTarget.declared m).argumentSite 0 args = .ok tys ∧
      k.values.map Operand.ty = tys ∧ k.Of s site m receiver method args span c ∧
      List.Forall₂ (fun q o => s.assignable q.ty.plain o.ty = true) m.parameters k.passed ∧
      (m.varargsParameter? = none ∨ m.passesVarargsArray tys = true → k.AsGiven) ∧
      ∀ varargs, m.varargsParameter? = some varargs → m.passesVarargsArray tys = false →
        k.Packs m varargs ∧
        ∀ o ∈ k.values.drop m.fixedCount, s.assignable (Ty.scalar varargs.ty.name) o.ty = true := by
  obtain ⟨tys, k, hargs, htys, of, hpassed, hpacks⟩ := callParts_of_infer arrays target typed room c
  obtain ⟨target', tys', ht, hcount, hargs', htypes, -⟩ := parts_call typed
  obtain rfl : target' = .declared m := Except.ok.inj (ht.symm.trans target)
  obtain rfl : tys' = tys := Except.ok.inj (hargs'.symm.trans hargs)
  have harray (q : Symbol) (hq : m.varargsParameter? = some q) : q.ty.isArray = true :=
    arrays m (SymbolTable.mem_of_method? (CallTarget.method?_of_resolve target)) q hq
  have htakes := Signature.takes_of_check harray trust hcount hargs htypes
  refine ⟨tys', k, hargs, htys, of, ?_, ?_, ?_⟩
  · have hfits := htakes.fits
    rw [← hpassed, List.forall₂_map_right_iff] at hfits
    exact hfits
  · intro hgiven
    have hnot : ¬ m.packs tys' = true := by
      unfold Signature.packs
      rcases hgiven with hnone | hdirect
      · simp [hnone]
      · simp [hdirect]
    rwa [if_neg hnot] at hpacks
  · intro varargs hv hdirect
    have haccepts : m.acceptsCount tys'.length = true := by
      rw [CallTarget.checkCount, trust, Bool.false_or, ← length_of_inferArgs hargs] at hcount
      by_contra hwrong
      rw [if_neg hwrong] at hcount
      cases hcount
    have hdo : m.packs tys' = true := by
      rw [Signature.packs_eq_acceptsCount hv, hdirect, haccepts]
      rfl
    rw [if_pos hdo] at hpacks
    obtain ⟨q, hq, packed⟩ := hpacks
    obtain rfl : q = varargs := Option.some.inj (hq.symm.trans hv)
    refine ⟨packed, fun o ho => ?_⟩
    refine CallTarget.assignable_of_trailing hv (harray q hv) trust
      (by rw [List.length_map, length_of_inferArgs hargs]) htypes hdirect o.ty ?_
    rw [← htys, ← List.map_drop]
    exact List.mem_map_of_mem ho

/-- A method that takes a place and however many values. -/
def pick : MethodDecl where
  name := "pick"
  returnType := .scalar .int
  params := [Build.var "place" (.scalar .int), Build.var "values" (.varargs .int)]
  body := [Build.ret (Build.index (Build.ident "values") (Build.ident "place"))]

def picking : Program where
  classDecl := { name := "Row", methods := [pick] }

/-- Two values are packed, into an array in the first temporary. -/
theorem Expr.passed_of_untrusted_picking :
    let s := picking.scopeOf {} pick
    let args := [Build.int 0, Build.int 3, Build.int 5]
    s.table.VarargsAreArrays ∧ s.trustsSuperclass = false ∧
      Build.self.callTarget s "pick" {} = .ok (.declared pick.signature) ∧
      (Expr.call Build.self "pick" args {}).infer s .discarded = .ok Ty.int ∧
      Roomy s (Expr.call Build.self "pick" args {}).nodes ∧
      ∃ k : CallParts, k.Of s .discarded pick.signature Build.self "pick" args {} {} ∧
        List.Forall₂ (fun q o => s.assignable q.ty.plain o.ty = true) pick.signature.parameters
          k.passed ∧
        k.Packs pick.signature ⟨"values", Ty.varargs Ty.int⟩ := by
  intro s args
  have arrays : s.table.VarargsAreArrays := picking.varargsAreArrays
  have target : Build.self.callTarget s "pick" {} = .ok (.declared pick.signature) := by decide
  have typed : (Expr.call Build.self "pick" args {}).infer s .discarded = .ok Ty.int := by decide
  have room : Roomy s (Expr.call Build.self "pick" args {}).nodes := by decide
  obtain ⟨tys, k, hargs, -, of, fits, -, packs⟩ :=
    Expr.passed_of_untrusted arrays rfl target typed room {}
  obtain rfl : [Ty.int, Ty.int, Ty.int] = tys := Except.ok.inj hargs
  exact ⟨arrays, rfl, target, typed, room, k, of, fits, (packs _ rfl rfl).1⟩

/-- **What is passed as given.** The call of a declared method passes its arguments as given unless
there are enough of them for a varargs parameter for which no array is passed; then they are packed,
whatever types they have. Where a superclass is trusted, the arguments may be such that they cannot
fill the parameters. They are passed as given then if there is no varargs parameter or not enough of
them, and only then. -/
theorem Expr.passed_asGiven_iff (arrays : s.table.VarargsAreArrays)
    (target : receiver.callTarget s method span = .ok (.declared m))
    (typed : (Expr.call receiver method args span).infer s site = .ok ty)
    (room : Roomy s (Expr.call receiver method args span).nodes) (c : Counters) :
    ∃ (tys : List Ty) (k : CallParts),
      inferArgs s (CallTarget.declared m).argumentSite 0 args = .ok tys ∧
      k.values.map Operand.ty = tys ∧ k.Of s site m receiver method args span c ∧
      (m.packs tys = true → ∃ varargs, m.varargsParameter? = some varargs ∧ k.Packs m varargs) ∧
      (k.AsGiven ↔ m.packs tys = false) ∧
      (m.canFill s tys = false →
        (k.AsGiven ↔ m.varargsParameter? = none ∨ m.acceptsCount tys.length = false)) := by
  obtain ⟨tys, k, hargs, htys, of, -, hpacks⟩ := callParts_of_infer arrays target typed room c
  have given : k.AsGiven ↔ m.packs tys = false := by
    by_cases hdo : m.packs tys = true
    · rw [if_pos hdo] at hpacks
      obtain ⟨varargs, -, packed⟩ := hpacks
      simp [packed.not_asGiven, hdo]
    · rw [if_neg hdo] at hpacks
      simp [hpacks, hdo]
  refine ⟨tys, k, hargs, htys, of, fun hdo => by rwa [if_pos hdo] at hpacks, given, ?_⟩
  intro hfill
  have hdirect : m.passesVarargsArray tys = false := by
    unfold Signature.canFill at hfill
    exact (Bool.or_eq_false_iff.mp hfill).1
  rw [given]
  cases hv : m.varargsParameter? with
  | none => simp [Signature.packs, hv]
  | some varargs => simp [Signature.packs_eq_acceptsCount hv, hdirect]

/-- A method that takes however many numbers. -/
def sum : MethodDecl where
  name := "sum"
  returnType := .scalar .int
  params := [Build.var "values" (.varargs .int)]
  body := [Build.ret (Build.int 0)]

/-- A class whose superclass may overload the method. -/
def overloaded : Program where
  classDecl := { name := "Main", superClass := some "Base", methods := [sum] }

/-- A value of the wrong type is packed into an array of numbers. -/
theorem Expr.passed_asGiven_iff_overloaded :
    let s := overloaded.scopeOf {} sum
    let args := [Build.boolean true]
    s.table.VarargsAreArrays ∧ s.trustsSuperclass = true ∧
      Build.self.callTarget s "sum" {} = .ok (.declared sum.signature) ∧
      (Expr.call Build.self "sum" args {}).infer s (.returned Ty.int) = .ok Ty.int ∧
      Roomy s (Expr.call Build.self "sum" args {}).nodes ∧
      sum.signature.canFill s [Ty.boolean] = false ∧
      ∃ k : CallParts, k.Of s (.returned Ty.int) sum.signature Build.self "sum" args {} {} ∧
        k.values.map Operand.ty = [Ty.boolean] ∧ ¬ k.AsGiven ∧
        k.Packs sum.signature ⟨"values", Ty.varargs Ty.int⟩ := by
  intro s args
  have arrays : s.table.VarargsAreArrays := overloaded.varargsAreArrays
  have target : Build.self.callTarget s "sum" {} = .ok (.declared sum.signature) := by decide
  have typed : (Expr.call Build.self "sum" args {}).infer s (.returned Ty.int) = .ok Ty.int := by
    decide
  have room : Roomy s (Expr.call Build.self "sum" args {}).nodes := by decide
  have unfit : sum.signature.canFill s [Ty.boolean] = false := by decide
  obtain ⟨tys, k, hargs, htys, of, packs, -, given⟩ :=
    Expr.passed_asGiven_iff arrays target typed room {}
  obtain rfl : [Ty.boolean] = tys := Except.ok.inj hargs
  obtain ⟨varargs, hv, packed⟩ := packs rfl
  cases hv
  refine ⟨arrays, rfl, target, typed, room, unfit, k, of, htys, fun hgiven => ?_, packed⟩
  rcases (given unfit).mp hgiven with h | h
  · cases h
  · cases h

end JavaMinus
