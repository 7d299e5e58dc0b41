import Mathlib.Data.List.Forall2
import JavaMinus.Proofs.Lowering.Always
import JavaMinus.Proofs.Lowering.Packed
import JavaMinus.Proofs.Lowering.Program
import JavaMinus.Proofs.Typing.CallOrder
import JavaMinus.Proofs.Typing.Placed
import JavaMinus.Syntax.Build

/-!
# The calls of lowered code

Every call instruction of lowered code, constructors apart, is what one call expression of the source
is lowered to (`Expr.LowersTo`), and the instructions stand in the order of the expressions that are
kept (`Expr.lower_writes`, `Stmt.lower_writes`).

Once the target of a call is known, the code of the call is that of its parts and one instruction
(`Lower.callCode_eq_done`).
-/

namespace JavaMinus

open Tac Lower

variable {s : Scope}

/-- The name of the method that an instruction calls. A constructor is not a method. -/
def Tac.Instr.callee? : Instr → Option String
  | .call _ .constructor .. => none
  | .call _ _ _ method _ _ => some method
  | _ => none

/-! ## One call -/

/-- The types of the operands that are passed for arguments of given types: the arguments of a
varargs parameter are packed into one array. -/
def Signature.passedTypes (m : Signature) (tys : List Ty) : List Ty :=
  match m.varargsParameter? with
  | none => tys
  | some varargs =>
    if m.passesVarargsArray tys || tys.length < m.fixedCount then tys
    else tys.take m.fixedCount ++ [Ty.array varargs.ty.name]

/-- The types that are passed are those of the arguments, unless these are packed. -/
theorem Signature.passedTypes_eq_ite (m : Signature) (tys : List Ty) : m.passedTypes tys =
    if m.packs tys then
      tys.take m.fixedCount ++ m.varargsParameter?.toList.map fun q => Ty.array q.ty.name
    else tys := by
  unfold passedTypes packs
  cases m.varargsParameter? with
  | none => rfl
  | some varargs =>
    by_cases hdirect : m.passesVarargsArray tys = true
    · simp [hdirect]
    · by_cases hfew : tys.length < m.fixedCount
      · simp [hfew, Nat.not_le_of_lt hfew]
      · simp [hdirect, hfew, Nat.le_of_not_lt hfew]

/-- The types of the operands that are passed to a target. -/
def CallTarget.passedTypes : CallTarget → List Ty → List Ty
  | .declared m, tys => m.passedTypes tys
  | _, tys => tys

/-- The operand that a call on a target is made on: the class for a static method of it, and an
object of the class for its other methods. -/
def CallTarget.MadeOn (s : Scope) : CallTarget → Operand → Prop
  | .declared m, on => on.ty = s.table.classType ∧
      (m.isStatic = true → on = .ofClass s.table.className)
  | _, _ => True

/-- The instruction that an accepted call expression is lowered to. -/
inductive Expr.LowersTo (s : Scope) : Expr → Instr → Prop
  | intro {receiver : Expr} {method : String} {args : List Expr} {span : Span} {target : CallTarget}
      {tys : List Ty} {site : Site} {dest : Option Operand} {on : Operand} {values : List Operand}
      (target_ : receiver.callTarget s method span = .ok target)
      (count : target.checkCount s method args.length span = .ok ())
      (types : inferArgs s target.argumentSite 0 args = .ok tys)
      (fits : target.checkTypes s method (args.map Expr.span) tys = .ok ())
      (on_ : target.MadeOn s on) (values_ : values.map Operand.ty = target.passedTypes tys) :
      LowersTo s (.call receiver method args span)
        (.call dest (callKind target) on method values (target.resultType site))

/-- The operand that a call of a method of another class is made on: that class for a static method of
it, and a value of its type for the other ones. -/
def CallTarget.MadeOnImport : CallTarget → Operand → Prop
  | .importedStatic name, on => on = .ofClass name
  | .importedVirtual ty, on => on.ty = ty
  | _, _ => True

/-- The instruction that a call expression is lowered to is made on the class that the expression
names. -/
inductive Expr.LowersOn (s : Scope) : Expr → Instr → Prop
  | intro {receiver : Expr} {method : String} {args : List Expr} {span : Span} {target : CallTarget}
      {dest : Option Operand} {on : Operand} {values : List Operand} {ty : Ty}
      (target_ : receiver.callTarget s method span = .ok target) (on_ : target.MadeOnImport on) :
      LowersOn s (.call receiver method args span) (.call dest (callKind target) on method values ty)

/-- What an accepted call expression is lowered to, and on which class. -/
structure Expr.Becomes (s : Scope) (e : Expr) (i : Instr) : Prop where
  lowersTo : e.LowersTo s i
  lowersOn : e.LowersOn s i

/-- A call expression and its instruction call a method of one name. -/
theorem Expr.LowersTo.callee {e : Expr} {i : Instr} (h : e.LowersTo s i) : e.callee? = i.callee? := by
  cases h
  unfold callKind
  split <;> rfl

namespace Lower

/-- The code of the call itself is one instruction. Its result is a fresh temporary where the site
uses one. -/
theorem invoke_eq_done {site : Site} {method : String} {target : CallTarget} {on : Operand}
    {values : List Operand} {c c' : Counters} {r : Option Operand} {code : List Instr} :
    (invoke site method target on values).run c = .done r code c' ↔
      code = [.call r (callKind target) on method values (target.resultType site)] ∧
        if (site.consumesValue && !(target.resultType site).isVoid) = true then
          r = some (.temp c.temps (target.resultType site)) ∧ c' = { c with temps := c.temps + 1 }
        else r = none ∧ c' = c := by
  unfold invoke
  constructor
  · intro h
    split at h
    · next hkeep =>
      cases h
      rw [if_pos hkeep, target.resultType_plain]
      exact ⟨rfl, rfl, rfl⟩
    · next hdrop =>
      cases h
      rw [if_neg hdrop]
      exact ⟨rfl, rfl, rfl⟩
  · rintro ⟨rfl, h⟩
    split at h
    · next hkeep =>
      obtain ⟨rfl, rfl⟩ := h
      rw [if_pos hkeep]
      simp only [run_bind, run_fresh, run_emit, run_pure, target.resultType_plain]
      rfl
    · next hdrop =>
      obtain ⟨rfl, rfl⟩ := h
      rw [if_neg hdrop]
      rfl

/-- The code of a call is that of its receiver, of its arguments and of their packing, and then the
call. -/
theorem callCode_eq_done {site : Site} {method : String} {target : CallTarget}
    {object : Lower Operand} {args : (Nat → Site) → Lower (List Operand)} {c c' : Counters}
    {r : Option Operand} {code : List Instr} :
    (callCode s site method (.ok target) object args).run c = .done r code c' ↔
      ∃ on code₁ c₁ values code₂ c₂ passed code₃ c₃,
        (receiver s target object).run c = .done on code₁ c₁ ∧
        (args target.argumentSite).run c₁ = .done values code₂ c₂ ∧
        (pass s target method values).run c₂ = .done passed code₃ c₃ ∧
        code = code₁ ++ (code₂ ++ (code₃ ++
          [.call r (callKind target) on method passed (target.resultType site)])) ∧
        if (site.consumesValue && !(target.resultType site).isVoid) = true then
          r = some (.temp c₃.temps (target.resultType site)) ∧ c' = { c₃ with temps := c₃.temps + 1 }
        else r = none ∧ c' = c₃ := by
  rw [callCode_ok]
  constructor
  · intro h
    obtain ⟨on, code₁, c₁, _, h₁, hargs, rfl⟩ := run_bind_eq_done.mp h
    obtain ⟨values, code₂, c₂, _, h₂, hpassed, rfl⟩ := run_bind_eq_done.mp hargs
    obtain ⟨passed, code₃, c₃, _, h₃, hcall, rfl⟩ := run_bind_eq_done.mp hpassed
    obtain ⟨rfl, hresult⟩ := invoke_eq_done.mp hcall
    exact ⟨on, code₁, c₁, values, code₂, c₂, passed, code₃, c₃, h₁, h₂, h₃, rfl, hresult⟩
  · rintro ⟨on, code₁, c₁, values, code₂, c₂, passed, code₃, c₃, h₁, h₂, h₃, rfl, hresult⟩
    exact run_bind_eq_done.mpr ⟨on, code₁, c₁, _, h₁, run_bind_eq_done.mpr ⟨values, code₂, c₂, _, h₂,
      run_bind_eq_done.mpr ⟨passed, code₃, c₃, _, h₃, invoke_eq_done.mpr ⟨rfl, hresult⟩, rfl⟩, rfl⟩,
      rfl⟩

/-- The operands that are passed have the types that are passed for the types of the arguments. -/
theorem types_of_pass {target : CallTarget} {method : String} {values passed : List Operand}
    {code : List Instr} {c c' : Counters}
    (h : (pass s target method values).run c = .done passed code c') :
    passed.map Operand.ty = target.passedTypes (values.map Operand.ty) := by
  cases target with
  | declared m =>
    have hpassed := packVarargs_eq_done h
    change _ = m.passedTypes _
    rw [m.passedTypes_eq_ite]
    by_cases hpacks : m.packs (values.map Operand.ty) = true
    · rw [if_pos hpacks] at hpassed ⊢
      obtain ⟨varargs, hv, -, -, rfl⟩ := hpassed
      rw [hv, List.map_append, List.map_take]
      rfl
    · rw [if_neg hpacks] at hpassed ⊢
      rw [hpassed.2]
  | _ =>
    cases h
    rfl

/-- The receiver of a call that is not static is lowered. -/
theorem receiver_of_not_isStatic {target : CallTarget} (h : target.isStatic = false)
    (object : Lower Operand) : receiver s target object = object := by
  cases target with
  | declared m => exact if_neg (by rw [show m.isStatic = false from h]; exact Bool.false_ne_true)
  | importedStatic name => cases h
  | inherited => rfl
  | importedVirtual ty => rfl

end Lower

/-- The operand that an accepted expression is lowered to has its type. -/
theorem Expr.ty_of_lower (hva : s.table.VarargsAreArrays) {e : Expr} {site : Site} {ty : Ty}
    (hc : site.consumesValue = true ∨ e.isCall = false) (h : e.infer s site = .ok ty) {o : Operand}
    {code : List Instr} {c c' : Counters} (hr : (e.lower s site).run c = .done o code c') :
    o.ty = ty := by
  have hmeets : (e.lower s site).Meets (fun _ => True) s (List.replicate c.temps Ty.int)
      (Holds s ty) := e.lower_meets s.names_true hva e.allocates_true site.names_true hc h
  have hrun := hmeets (fun _ _ => trivial) c (by simp)
  rw [hr] at hrun
  obtain ⟨-, -, -, -, ⟨-, hty⟩, -⟩ := hrun
  exact hty

theorem Expr.types_of_lowerAll (hva : s.table.VarargsAreArrays) {es : List Expr}
    {sites : Nat → Site} {i : Nat} {tys : List Ty} (hs : ∀ j, (sites j).consumesValue = true)
    (h : inferArgs s sites i es = .ok tys) {os : List Operand} {code : List Instr} {c c' : Counters}
    (hr : (lowerAll s sites i es).run c = .done os code c') : os.map Operand.ty = tys := by
  have hmeets : (lowerAll s sites i es).Meets (fun _ => True) s (List.replicate c.temps Ty.int)
      (HoldsAll s tys) := lowerAll_meets s.names_true hva es (fun e _ => e.allocates_true)
    (fun j => ⟨hs j, (sites j).names_true⟩) h
  have hrun := hmeets (fun _ _ => trivial) c (by simp)
  rw [hr] at hrun
  obtain ⟨-, -, -, -, ⟨-, htys⟩, -⟩ := hrun
  exact htys

/-- A virtual call of a method declared here is made on a value of the class. -/
theorem CallTarget.classType_of_declared {receiver : Expr} {method : String} {span : Span}
    {m : Signature} (h : receiver.callTarget s method span = .ok (.declared m))
    (hs : m.isStatic = false) : receiver.infer s .unknown = .ok s.table.classType := by
  obtain ⟨ty, hty, h⟩ := onValue_of_callTarget h hs
  obtain ⟨ha, ⟨hn, -⟩ | ⟨-, h⟩⟩ := cases_of_onValue h
  · rw [hty, ← Ty.scalar_name ha (Expr.infer_plain hty), hn]
    rfl
  · cases h

/-- A virtual call of a method of another class is made on a value of that class. -/
theorem CallTarget.type_of_importedVirtual {receiver : Expr} {method : String} {span : Span} {ty : Ty}
    (h : receiver.callTarget s method span = .ok (.importedVirtual ty)) :
    receiver.infer s .unknown = .ok ty := by
  obtain ⟨found, hfound, h⟩ := onValue_of_callTarget h rfl
  obtain ⟨-, ⟨-, h⟩ | ⟨-, h⟩⟩ := cases_of_onValue h
  · rcases s.cases_of_ownMethod h with ⟨m, -, h⟩ | h <;> cases h
  · cases h
    exact hfound

/-- Every argument is used. -/
theorem CallTarget.consumesValue_argumentSite (target : CallTarget) (i : Nat) :
    (target.argumentSite i).consumesValue = true := by
  cases target <;> rfl

/-- So are the operands of an operator. -/
theorem Lower.consumesValue_of_operandSites {op : BinaryOp} {left right : Expr} {ls rs : Site}
    (h : operandSites s op left right = .ok (ls, rs)) :
    ls.consumesValue = true ∧ rs.consumesValue = true := by
  unfold operandSites at h
  split at h
  · split at h
    · obtain ⟨_, -, h⟩ := bind_eq_ok.mp h
      cases h
      exact ⟨rfl, rfl⟩
    · obtain ⟨_, -, h⟩ := bind_eq_ok.mp h
      cases h
      exact ⟨rfl, rfl⟩
  · cases h
    exact ⟨rfl, rfl⟩

/-! ## Calls in order -/

namespace Lower

/-- No method is called. -/
def CallsNothing (_ : Counters) (code : List Instr) (_ : Counters) : Prop :=
  code.filter Instr.isMethodCall = []

theorem closed_callsNothing : Closed (fun i => i.isQuiet = true) CallsNothing where
  nil _ := rfl
  append h₁ h₂ := by
    unfold CallsNothing at h₁ h₂ ⊢
    rw [List.filter_append, h₁, h₂]
    rfl
  fresh _ := rfl
  emit _ i h := by
    unfold CallsNothing
    rw [List.filter_cons_of_neg (by simp [Instr.isMethodCall_of_isQuiet h])]
    rfl

theorem callsNothing_emit {i : Instr} (h : i.isMethodCall = false) :
    (emit i).Always CallsNothing := by
  intro c a code c' hr
  cases hr
  unfold CallsNothing
  rw [List.filter_cons_of_neg (by simp [h])]
  rfl

/-- The method calls that the computation writes are those of the given call expressions, in
order. -/
def Writes {α : Type} (s : Scope) (calls : List Expr) (x : Lower α) : Prop :=
  ∀ c a code c', x.run c = .done a code c' →
    List.Forall₂ (Expr.Becomes s) calls (code.filter Instr.isMethodCall)

variable {α β : Type} {x : Lower α} {f : α → Lower β} {es fs : List Expr}

theorem Writes.bind (hx : x.Writes s es)
    (hf : ∀ c a code c', x.run c = .done a code c' → (f a).Writes s fs) :
    (x >>= f).Writes s (es ++ fs) := by
  intro c b code c' h
  obtain ⟨a, code₁, c₁, code₂, h₁, h₂, rfl⟩ := run_bind_eq_done.mp h
  rw [List.filter_append]
  exact List.rel_append (hx _ _ _ _ h₁) (hf _ _ _ _ h₁ _ _ _ _ h₂)

theorem Always.writes (h : x.Always CallsNothing) : x.Writes s [] := by
  intro c a code c' hr
  rw [show code.filter Instr.isMethodCall = [] from h c a code c' hr]
  exact .nil

/-- Nothing is called behind the computation. -/
theorem Writes.bind_quiet (hx : x.Writes s es) (hf : ∀ a, (f a).Always CallsNothing) :
    (x >>= f).Writes s es := by
  rw [← List.append_nil es]
  exact hx.bind fun _ a _ _ _ => (hf a).writes

/-- Nothing is called in front of the computation. -/
theorem Writes.quiet_bind (hx : x.Always CallsNothing)
    (hf : ∀ c a code c', x.run c = .done a code c' → (f a).Writes s fs) :
    (x >>= f).Writes s fs := by
  rw [← List.nil_append fs]
  exact hx.writes.bind hf

theorem writes_pair {op : BinaryOp} {left right : Expr} {ls rs : Site}
    {lowerLeft lowerRight : Site → Lower Operand}
    (hsites : operandSites s op left right = .ok (ls, rs)) (hl : (lowerLeft ls).Writes s es)
    (hr : (lowerRight rs).Writes s fs) :
    (pair s op left right lowerLeft lowerRight).Writes s (es ++ fs) := by
  unfold pair
  rw [hsites]
  refine .quiet_bind (always_pure closed_callsNothing _) fun _ sites _ _ h => ?_
  cases h
  refine .bind hl fun _ l _ _ _ => ?_
  refine .quiet_bind (always_settleBefore closed_callsNothing l right) fun _ l _ _ _ => ?_
  exact hr.bind_quiet fun _ => always_pure closed_callsNothing _

/-- The method calls of a call are those of its receiver, if that is evaluated, of its arguments, and
its own. -/
theorem writes_callCode (hva : s.table.VarargsAreArrays) {site : Site} {receiver : Expr}
    {method : String} {args : List Expr} {span : Span} {target : CallTarget} {tys : List Ty}
    (ht : receiver.callTarget s method span = .ok target)
    (hc : target.checkCount s method args.length span = .ok ())
    (hargs : Expr.inferArgs s target.argumentSite 0 args = .ok tys)
    (hm : target.checkTypes s method (args.map Expr.span) tys = .ok ())
    (hreceiver : ∀ ty, receiver.infer s .unknown = .ok ty →
      (receiver.lower s .unknown).Writes s (receiver.keptCalls s))
    (hwrites : (Expr.lowerAll s target.argumentSite 0 args).Writes s
      (Expr.callsByAll (Expr.evaluatesReceiver s) args)) :
    (callCode s site method (receiver.callTarget s method span) (receiver.lower s .unknown)
      fun sites => Expr.lowerAll s sites 0 args).Writes s
        ((Expr.call receiver method args span).keptCalls s) := by
  intro c r code c' h
  rw [ht] at h
  obtain ⟨on, code₁, c₁, values, code₂, c₂, passed, code₃, c₃, hon, hvalues, hpassed, rfl, -⟩ :=
    callCode_eq_done.mp h
  have hquiet : code₃.filter Instr.isMethodCall = [] := by
    cases target with
    | declared m => exact always_packVarargs closed_callsNothing s m method values _ _ _ _ hpassed
    | _ => cases hpassed; rfl
  have hcall : (Instr.call r (callKind target) on method passed
      (target.resultType site)).isMethodCall = true := by
    unfold callKind
    split <;> rfl
  have made : (target.MadeOn s on ∧ target.MadeOnImport on) ∧ List.Forall₂ (Expr.Becomes s)
      (if (Expr.call receiver method args span).evaluatesReceiver s then receiver.keptCalls s else [])
        (code₁.filter Instr.isMethodCall) := by
    rw [show (Expr.call receiver method args span).evaluatesReceiver s = !target.isStatic by
      simp only [Expr.evaluatesReceiver, ht]]
    cases hst : target.isStatic with
    | true =>
      cases target with
      | declared m =>
        rw [Lower.receiver, if_pos (show m.isStatic = true from hst)] at hon
        cases hon
        exact ⟨⟨⟨rfl, fun _ => rfl⟩, trivial⟩, .nil⟩
      | importedStatic name => cases hon; exact ⟨⟨trivial, rfl⟩, .nil⟩
      | inherited => cases hst
      | importedVirtual ty => cases hst
    | false =>
      rw [receiver_of_not_isStatic hst] at hon
      obtain ⟨ty, hty, -⟩ := CallTarget.receives_of_callTarget ht hst
      refine ⟨?_, hreceiver ty hty _ _ _ _ hon⟩
      cases target with
      | declared m =>
        exact ⟨⟨Expr.ty_of_lower hva (.inl rfl) (CallTarget.classType_of_declared ht hst) hon,
          fun h => by rw [show m.isStatic = false from hst] at h; cases h⟩, trivial⟩
      | importedVirtual ty =>
        exact ⟨trivial, Expr.ty_of_lower hva (.inl rfl) (CallTarget.type_of_importedVirtual ht) hon⟩
      | inherited => exact ⟨trivial, trivial⟩
      | importedStatic name => cases hst
  have htypes : passed.map Operand.ty = target.passedTypes tys := by
    rw [types_of_pass hpassed,
      Expr.types_of_lowerAll hva target.consumesValue_argumentSite hargs hvalues]
  rw [Expr.keptCalls, Expr.callsBy, List.append_assoc, List.filter_append, List.filter_append,
    List.filter_append, hquiet, List.filter_cons_of_pos hcall]
  exact List.rel_append made.2 (List.rel_append (hwrites _ _ _ _ hvalues)
    (.cons ⟨.intro ht hc hargs hm made.1.1 htypes, .intro ht made.1.2⟩ .nil))

end Lower

mutual
/-- The method calls in the code of an accepted expression are those of the call expressions that are
kept. -/
theorem Expr.lower_writes (hva : s.table.VarargsAreArrays) :
    ∀ (e : Expr) {site : Site} {ty : Ty}, e.infer s site = .ok ty →
      (e.lower s site).Writes s (e.keptCalls s)
  | .intLit .., _, _, _ | .boolLit .., _, _, _ | .self _, _, _, _ =>
    (always_pure closed_callsNothing _).writes
  | .ident name _, _, _, _ => (always_readVariable closed_callsNothing s name).writes
  | .newObject className _, _, _, _ => (always_allocate closed_callsNothing className).writes
  | .binary op left right _, _, _, h => by
    obtain ⟨ls, rs, l, r, hsites, hl, hr⟩ := infer_operands h
    rw [keptCalls, callsBy, lower]
    refine .bind_quiet (writes_pair hsites (lower_writes hva left hl) (lower_writes hva right hr))
      fun p => ?_
    exact always_intoFresh closed_callsNothing fun _ => rfl
  | .not operand _, _, _, h => by
    obtain ⟨-, t, ht, -⟩ := parts_not h
    rw [keptCalls, callsBy, lower]
    exact .bind_quiet (lower_writes hva operand ht) fun _ =>
      always_intoFresh closed_callsNothing fun _ => rfl
  | .arrayLit elements span, _, _, h => by
    obtain ⟨element, hscalar, hplain, rfl, hitems⟩ := parts_literal h
    have hel : (Ty.array element.name).element? = some element :=
      congrArg some (Ty.scalar_name hscalar hplain)
    rw [keptCalls, callsBy, lower, h]
    refine .quiet_bind (always_pure closed_callsNothing _) fun _ t _ _ ht => ?_
    cases ht
    refine .quiet_bind (always_ofOption closed_callsNothing _ _) fun _ t _ _ ht => ?_
    rw [elementOf, hel] at ht
    cases ht
    exact .bind_quiet (lowerAll_writes hva elements hitems) fun values =>
      always_packArray closed_callsNothing _ values
  | .index array place _, site, _, h => by
    obtain ⟨a, i, ha, -, hi, -⟩ := parts_index h
    rw [keptCalls, callsBy, lower]
    refine .bind (lower_writes hva array ha) fun _ a _ _ _ => ?_
    exact .bind_quiet (lower_writes hva place hi) fun i =>
      always_elementAt closed_callsNothing site a i
  | .newArray _ length _, _, _, h => by
    rw [keptCalls, callsBy, lower]
    exact .bind_quiet (lower_writes hva length (infer_of_isIntLiteral (parts_newArray h).1 _))
      fun _ => always_intoFresh closed_callsNothing fun _ => rfl
  | .member object _ _, _, _, h => by
    obtain ⟨rfl, -, a, ha, -⟩ := parts_member h
    rw [keptCalls, callsBy, lower, if_neg (by simp)]
    exact .bind_quiet (lower_writes hva object ha) fun _ =>
      always_intoFresh closed_callsNothing fun _ => rfl
  | .call receiver method args span, _, _, h => by
    obtain ⟨target, tys, ht, hc, hargs, hm, -⟩ := parts_call h
    rw [lower]
    exact .bind_quiet (writes_callCode hva ht hc hargs hm (fun _ hr => lower_writes hva receiver hr)
      (lowerAll_writes hva args hargs)) fun _ => always_ofOption closed_callsNothing _ _
  | .paren inner _, _, _, h => by
    rw [infer] at h
    rw [keptCalls, callsBy, lower]
    exact lower_writes hva inner h
theorem Expr.lowerAll_writes (hva : s.table.VarargsAreArrays) :
    ∀ (es : List Expr) {sites : Nat → Site} {i : Nat} {tys : List Ty},
      inferArgs s sites i es = .ok tys →
        (lowerAll s sites i es).Writes s (callsByAll (evaluatesReceiver s) es)
  | [], _, _, _, _ => (always_pure closed_callsNothing _).writes
  | e :: es, _, _, _, h => by
    obtain ⟨t, ts, ht, hts, rfl⟩ := parts_args h
    rw [callsByAll, lowerAll]
    refine .bind (lower_writes hva e ht) fun _ o _ _ _ => ?_
    exact .bind_quiet (lowerAll_writes hva es hts) fun _ => always_pure closed_callsNothing _
end

theorem Expr.lowerDiscarded_writes (hva : s.table.VarargsAreArrays) {e : Expr} {ty : Ty}
    (h : e.infer s .discarded = .ok ty) : (e.lowerDiscarded s).Writes s (e.keptCalls s) := by
  rw [← infer_unparenthesized] at h
  rw [keptCalls, ← callsBy_unparenthesized]
  unfold lowerDiscarded
  split
  · next receiver method args span he =>
    rw [he] at h ⊢
    obtain ⟨target, tys, ht, hc, hargs, hm, -⟩ := parts_call h
    exact .bind_quiet (writes_callCode hva ht hc hargs hm (fun _ hr => lower_writes hva receiver hr)
      (lowerAll_writes hva args hargs)) fun _ => always_pure closed_callsNothing _
  · exact .bind_quiet (lower_writes hva _ h) fun _ => always_pure closed_callsNothing _

theorem Expr.lowerCondition_writes (hva : s.table.VarargsAreArrays) {e : Expr} {ty : Ty}
    {target : String} (h : e.infer s (.wanting Ty.boolean) = .ok ty) :
    (e.lowerCondition s target).Writes s (e.keptCalls s) := by
  have jump : ∀ test, (emit (.branch test target)).Always CallsNothing := fun _ =>
    callsNothing_emit rfl
  have value : (do
      let o ← e.lower s (.wanting Ty.boolean)
      let test ← pure (Condition.truthy o)
      emit (.branch test target) : Lower Unit).Writes s (e.keptCalls s) :=
    .bind_quiet (lower_writes hva e h) fun o => .bind closed_callsNothing
      (always_pure closed_callsNothing _) jump
  unfold lowerCondition
  split
  · next op left right span he =>
    split
    · rw [← infer_unparenthesized, he] at h
      obtain ⟨ls, rs, l, r, hsites, hl, hr⟩ := infer_operands h
      rw [keptCalls, ← callsBy_unparenthesized, he, callsBy]
      refine .bind_quiet (writes_pair hsites (lower_writes hva left hl) (lower_writes hva right hr))
        fun p => ?_
      exact .bind closed_callsNothing (always_pure closed_callsNothing _) jump
    · exact value
  · exact value

/-! ## Statements -/

namespace Lower

theorem callsNothing_freshBranch : freshBranch.Always CallsNothing := by
  intro c a code c' hr
  cases hr
  rfl

theorem callsNothing_freshLoop : freshLoop.Always CallsNothing := by
  intro c a code c' hr
  cases hr
  rfl

variable {es fs gs : List Expr}

theorem writes_assign (hva : s.table.VarargsAreArrays) {name : String} {value : Expr} {span : Span}
    (h : s.checkAssign name value span = []) :
    (assign s name value).Writes s (value.keptCalls s) := by
  obtain ⟨_, ht, h⟩ := Scope.orReport_eq_nil.mp h
  obtain ⟨v, hv, -, rfl⟩ := Scope.targetType_eq_ok ht
  obtain ⟨ty, hty, -⟩ := Scope.checkStored_eq_nil h
  unfold assign target
  rw [hv]
  refine .quiet_bind (always_pure closed_callsNothing _) fun _ w _ _ hw => ?_
  cases hw
  refine .bind_quiet (Expr.lower_writes hva value hty) fun o => ?_
  split
  · exact always_emit closed_callsNothing rfl
  · exact always_emit closed_callsNothing rfl

theorem writes_assignElement (hva : s.table.VarargsAreArrays) {name : String} {index value : Expr}
    {span : Span} (h : s.checkAssignElement name index value span = []) :
    (assignElement s name index value).Writes s (index.keptCalls s ++ value.keptCalls s) := by
  obtain ⟨v, element, ty, hv, -, hel, hi, ha, -⟩ := Scope.checkAssignElement_eq_nil h
  have stores : ∀ array : Operand, (do
      let i ← index.lower s (.wanting Ty.int)
      let operand ← value.lower s (.assigned element)
      emit (.arrayStore array i operand) : Lower Unit).Writes s
        (index.keptCalls s ++ value.keptCalls s) := fun array =>
    .bind (Expr.lower_writes hva index hi) fun _ _ _ _ _ =>
      .bind_quiet (Expr.lower_writes hva value ha) fun _ => always_emit closed_callsNothing rfl
  unfold assignElement target
  rw [hv]
  refine .quiet_bind (always_pure closed_callsNothing _) fun _ w _ _ hw => ?_
  cases hw
  rw [hel]
  refine .quiet_bind (always_pure closed_callsNothing _) fun _ t _ _ ht => ?_
  cases ht
  split
  · exact .quiet_bind (always_intoFresh closed_callsNothing fun _ => rfl) fun _ array _ _ _ =>
      stores array
  · exact .quiet_bind (always_pure closed_callsNothing _) fun _ array _ _ _ => stores array

theorem writes_branch {condition : Expr} {thenPart elsePart : Lower Unit}
    (hc : ∀ target, (condition.lowerCondition s target).Writes s es) (ht : thenPart.Writes s fs)
    (he : elsePart.Writes s gs) :
    (branch s condition thenPart elsePart).Writes s (es ++ (gs ++ fs)) := by
  unfold branch
  refine .quiet_bind callsNothing_freshBranch fun _ n _ _ _ => ?_
  refine .bind (hc _) fun _ _ _ _ _ => ?_
  refine .bind he fun _ _ _ _ _ => ?_
  refine .quiet_bind (callsNothing_emit rfl) fun _ _ _ _ _ => ?_
  refine .quiet_bind (callsNothing_emit rfl) fun _ _ _ _ _ => ?_
  exact ht.bind_quiet fun _ => callsNothing_emit rfl

theorem writes_loop {condition : Expr} {body : Lower Unit}
    (hc : ∀ target, (condition.lowerCondition s target).Writes s es) (hb : body.Writes s fs) :
    (loop s condition body).Writes s (es ++ fs) := by
  unfold loop
  refine .quiet_bind callsNothing_freshLoop fun _ n _ _ _ => ?_
  refine .quiet_bind (callsNothing_emit rfl) fun _ _ _ _ _ => ?_
  refine .bind (hc _) fun _ _ _ _ _ => ?_
  refine .quiet_bind (callsNothing_emit rfl) fun _ _ _ _ _ => ?_
  refine .quiet_bind (callsNothing_emit rfl) fun _ _ _ _ _ => ?_
  refine hb.bind_quiet fun _ => ?_
  exact .bind closed_callsNothing (callsNothing_emit rfl) fun _ => callsNothing_emit rfl

end Lower

mutual
/-- The method calls in the code of an accepted statement are those of the call expressions that are
kept. -/
theorem Stmt.lower_writes (hva : s.table.VarargsAreArrays) : ∀ stmt : Stmt, s.checkStmt stmt = [] →
    (stmt.lower s).Writes s (stmt.callsBy (Expr.evaluatesReceiver s))
  | .block body _, h => by
    rw [Scope.checkStmt] at h
    rw [callsBy, lower]
    exact lowerAll_writes hva body h
  | .branch condition thenBranch none _, h => by
    rw [Scope.checkStmt] at h
    obtain ⟨hc, ht⟩ := List.append_eq_nil_iff.mp h
    obtain ⟨ty, hty, -⟩ := Scope.checkCondition_eq_nil hc
    rw [callsBy, lower]
    exact writes_branch (fun _ => condition.lowerCondition_writes hva hty)
      (lower_writes hva thenBranch ht) (always_pure closed_callsNothing _).writes
  | .branch condition thenBranch (some elseBranch) _, h => by
    rw [Scope.checkStmt] at h
    obtain ⟨h, he⟩ := List.append_eq_nil_iff.mp h
    obtain ⟨hc, ht⟩ := List.append_eq_nil_iff.mp h
    obtain ⟨ty, hty, -⟩ := Scope.checkCondition_eq_nil hc
    rw [callsBy, lower]
    exact writes_branch (fun _ => condition.lowerCondition_writes hva hty)
      (lower_writes hva thenBranch ht) (lower_writes hva elseBranch he)
  | .loop condition body _, h => by
    rw [Scope.checkStmt] at h
    obtain ⟨hc, hb⟩ := List.append_eq_nil_iff.mp h
    obtain ⟨ty, hty, -⟩ := Scope.checkCondition_eq_nil hc
    rw [callsBy, lower]
    exact writes_loop (fun _ => condition.lowerCondition_writes hva hty) (lower_writes hva body hb)
  | .expr e _, h => by
    rw [Scope.checkStmt] at h
    obtain ⟨ty, hty, -⟩ := Scope.orReport_eq_nil.mp h
    rw [callsBy, lower]
    exact e.lowerDiscarded_writes hva hty
  | .assign name value span, h => by
    rw [Scope.checkStmt] at h
    rw [callsBy, lower]
    exact writes_assign hva h
  | .assignElement name index value span, h => by
    rw [Scope.checkStmt] at h
    rw [callsBy, lower]
    exact writes_assignElement hva h
  | .ret none _, _ => by
    rw [callsBy, lower]
    exact (callsNothing_emit rfl).writes
  | .ret (some e) _, h => by
    rw [Scope.checkStmt] at h
    obtain ⟨ty, hty, -⟩ := Scope.orReport_eq_nil.mp h
    rw [callsBy, lower]
    exact .bind_quiet (e.lower_writes hva hty) fun _ => callsNothing_emit rfl
theorem Stmt.lowerAll_writes (hva : s.table.VarargsAreArrays) : ∀ body : List Stmt,
    s.checkStmts body = [] →
      (Stmt.lowerAll s body).Writes s (callsByAll (Expr.evaluatesReceiver s) body)
  | [], _ => (always_pure closed_callsNothing _).writes
  | stmt :: rest, h => by
    rw [Scope.checkStmts] at h
    obtain ⟨h, hrest⟩ := List.append_eq_nil_iff.mp h
    rw [callsByAll, lowerAll]
    exact .bind (lower_writes hva stmt h) fun _ _ _ _ _ => lowerAll_writes hva rest hrest
end

/-! ## Methods -/

namespace Program

/-- The method calls in the code of a method of an accepted program are those of the call expressions
that are kept, in order, and each is made on the class that its expression names. -/
theorem becomes_of_check {p : Program} {policy : Policy} (h : p.check p.symbolTable policy = [])
    {m : MethodDecl} (hm : m ∈ p.classDecl.methods) {c c' : Counters} {method : Method}
    {code : List Instr}
    (hl : (m.lower p.symbolTable policy m.signature).run c = .done method code c') :
    List.Forall₂ (Expr.Becomes (p.scopeOf policy m)) (Stmt.keptCalls (p.scopeOf policy m) m.body)
      (method.code.filter Instr.isMethodCall) := by
  obtain ⟨body, closing, hbody, rfl, hclosing⟩ := MethodDecl.lower_eq_done hl
  have hquiet : closing.filter Instr.isMethodCall = [] := by
    rcases hclosing with ⟨rfl, -⟩ | ⟨rfl, -⟩ <;> rfl
  rw [Scope.code_extend, List.filter_append, hquiet, List.append_nil]
  exact Stmt.lowerAll_writes p.varargsAreArrays m.body (p.check_method h hm).2.2 _ _ _ _ hbody

theorem lowersTo_of_check {p : Program} {policy : Policy} (h : p.check p.symbolTable policy = [])
    {m : MethodDecl} (hm : m ∈ p.classDecl.methods) {c c' : Counters} {method : Method}
    {code : List Instr}
    (hl : (m.lower p.symbolTable policy m.signature).run c = .done method code c') :
    List.Forall₂ (Expr.LowersTo (p.scopeOf policy m)) (Stmt.keptCalls (p.scopeOf policy m) m.body)
      (method.code.filter Instr.isMethodCall) :=
  (becomes_of_check h hm hl).imp fun _ _ h => h.lowersTo

/-- **The calls of a lowered method.** The method calls in the code of a method of an accepted program
are those of the call expressions that are kept, in order. They are those of all call expressions
exactly if the receivers that have calls in them are evaluated, which those of static calls are
not. -/
theorem calls_of_check (p : Program) (policy : Policy) (h : p.check p.symbolTable policy = [])
    {m : MethodDecl} (hm : m ∈ p.classDecl.methods) {c c' : Counters} {method : Method}
    {code : List Instr}
    (hl : (m.lower p.symbolTable policy m.signature).run c = .done method code c') :
    List.Forall₂ (Expr.LowersTo (p.scopeOf policy m)) (Stmt.keptCalls (p.scopeOf policy m) m.body)
      (method.code.filter Instr.isMethodCall) ∧
    (List.Forall₂ (fun e i => e.callee? = i.callee?) (Stmt.calls m.body)
        (method.code.filter Instr.isMethodCall) ↔
      ∀ stmt ∈ Stmt.nodesAll m.body, ∀ e ∈ Expr.nodesAll stmt.expressions,
        e.KeepsReceiver (Expr.evaluatesReceiver (p.scopeOf policy m))) := by
  have hkept := lowersTo_of_check h hm hl
  refine ⟨hkept, ?_⟩
  rw [← Stmt.callsByAll_eq_iff]
  constructor
  · intro hall
    exact (Stmt.callsByAll_sublist m.body).eq_of_length
      (hkept.length_eq.trans hall.length_eq.symm)
  · intro heq
    rw [Stmt.calls, ← heq]
    exact hkept.imp fun _ _ => Expr.LowersTo.callee

/-- A method that calls a static method of the class on what another method returns. -/
def measuring : MethodDecl where
  name := "measure"
  returnType := .scalar .int
  body := [Build.ret (Build.call (Build.selfCall "make" []) "size" [])]

def boxes : Program where
  classDecl := {
    name := "Box"
    methods := [
      { name := "make", returnType := .scalar (.named "Box"), body := [Build.ret Build.self] },
      { name := "size", isStatic := true, returnType := .scalar .int,
        body := [Build.ret (Build.int 1)] },
      measuring] }

/-- The call that makes the receiver of the static method is lost. -/
theorem calls_of_check_boxes : boxes.check boxes.symbolTable {} = [] ∧
    ∃ method c, (measuring.lower boxes.symbolTable {} measuring.signature).run {} = .done method [] c ∧
      (Stmt.calls measuring.body).map Expr.callee? = [some "make", some "size"] ∧
      List.Forall₂ (Expr.LowersTo (boxes.scopeOf {} measuring))
        [Build.call (Build.selfCall "make" []) "size" []] (method.code.filter Instr.isMethodCall) ∧
      ¬ List.Forall₂ (fun e i => e.callee? = i.callee?) (Stmt.calls measuring.body)
        (method.code.filter Instr.isMethodCall) := by
  have accepted : boxes.check boxes.symbolTable {} = [] := by decide
  have mem : measuring ∈ boxes.classDecl.methods := by simp [boxes]
  obtain ⟨hkept, hall⟩ := calls_of_check boxes {} accepted mem (c := {}) rfl
  refine ⟨accepted, _, _, rfl, rfl, hkept, fun h => ?_⟩
  rcases hall.mp h _ List.mem_cons_self (Build.call (Build.selfCall "make" []) "size" [])
    List.mem_cons_self with hlooks | hcall
  · exact absurd hlooks (by decide)
  · exact absurd hcall (by decide)

end Program

end JavaMinus
