import Mathlib.Data.List.Forall2
import JavaMinus.Proofs.Compile.Compilable
import JavaMinus.Proofs.Jvm.Invokes
import JavaMinus.Proofs.Lowering.Calls

/-!
# Calls of declared methods link

A call of a method that the class declares is invoked on the class by the name and in the way of the
method's block, with one operand for each parameter (`Program.links_of_compile`). Its descriptor is
spelled from the types of the operands that are passed, not from those of the parameters, so it is
that of the block where no argument is converted, and names no method where one is
(`Program.links_of_compile_converted`).
-/

namespace JavaMinus

open Tac Jvm Lower

variable {s : Scope} {p : Program} {policy : Policy}

/-! ## What is passed -/

namespace Signature

variable {m : Signature} {tys : List Ty}

/-- Types that may be passed to a method: one for each parameter, which may be stored in it, and for
a varargs parameter an array of its own type. -/
structure Takes (s : Scope) (m : Signature) (passed : List Ty) : Prop where
  fits : List.Forall₂ (fun q ty => s.assignable q.ty.plain ty = true) m.parameters passed
  varargs : ∀ q, m.varargsParameter? = some q → passed.getLast? = some q.ty.plain

/-- The parameters are those that take one argument each, and the varargs parameter. -/
theorem parameters_eq (m : Signature) :
    m.parameters = m.parameters.take m.fixedCount ++ m.varargsParameter?.toList := by
  unfold fixedCount
  cases hv : m.varargsParameter? with
  | none => simp
  | some q =>
    have hlast := (Option.filter_eq_some_iff.mp hv).1
    simp only [Option.isSome_some, if_true, Option.toList_some]
    rw [← List.dropLast_eq_take, List.dropLast_append_getLast? q hlast]

theorem fixedCount_le (m : Signature) : m.fixedCount ≤ m.parameters.length := by
  unfold fixedCount
  split <;> omega

theorem fixedCount_of_varargs {q : Symbol} (hv : m.varargsParameter? = some q) :
    m.fixedCount + 1 = m.parameters.length := by
  conv_rhs => rw [parameters_eq m, hv]
  simp [m.fixedCount_le]

/-- What is passed for arguments of accepted number: the arguments in front of a varargs parameter,
and an array for it. -/
theorem passedTypes_eq (hva : ∀ q, m.varargsParameter? = some q → q.ty.isArray = true)
    (hplain : ∀ ty ∈ tys, ty.plain = ty) (hcount : m.acceptsCount tys.length = true) :
    m.passedTypes tys =
      tys.take m.fixedCount ++ m.varargsParameter?.toList.map fun q => q.ty.plain := by
  have hle := fixedCount_le_of_acceptsCount hcount
  unfold passedTypes
  cases hv : m.varargsParameter? with
  | none =>
    have hlen : tys.length = m.parameters.length := by simpa [acceptsCount, hv] using hcount
    have hfix : m.fixedCount = m.parameters.length := by simp [fixedCount, hv]
    simp [hfix, ← hlen]
  | some q =>
    have harray : q.ty.plain = Ty.array q.ty.name := by
      rw [Ty.plain, hva q hv]
      rfl
    rw [Option.toList_some, List.map_singleton]
    dsimp only
    split
    · next hdirect =>
      simp only [Bool.or_eq_true, decide_eq_true_eq] at hdirect
      rcases hdirect with hdirect | hfew
      · unfold passesVarargsArray at hdirect
        rw [hv] at hdirect
        split at hdirect
        · next q' last hq hlast =>
          cases hq
          simp only [Bool.and_eq_true, beq_iff_eq] at hdirect
          have hty : last = q.ty.plain := by
            rw [← hplain last (List.mem_of_getLast? hlast)]
            exact Ty.agrees_iff.mp hdirect.2
          have hfix : m.fixedCount = tys.length - 1 := by
            have := fixedCount_of_varargs hv
            omega
          rw [hfix, ← List.dropLast_eq_take, ← hty, List.dropLast_append_getLast? last hlast]
        · cases hdirect
      · omega
    · rw [harray]

/-- Types that are inferred have no varargs mark. -/
theorem plain_of_inferArgs {sites : Nat → Site} : ∀ {args : List Expr} {i : Nat} {tys : List Ty},
    Expr.inferArgs s sites i args = .ok tys → ∀ ty ∈ tys, ty.plain = ty
  | [], _, _, h => by
    rw [Expr.inferArgs] at h
    cases h
    simp
  | _ :: _, _, _, h => by
    obtain ⟨t, ts, ht, hts, rfl⟩ := Expr.parts_args h
    exact List.forall_mem_cons.mpr ⟨Expr.infer_plain ht, plain_of_inferArgs hts⟩

/-- The arguments for the parameters in front of a varargs parameter may be stored in them. -/
theorem fits_of_misfit {method : String} {spans : List Span} (hlen : spans.length = tys.length)
    (hcount : m.acceptsCount tys.length = true)
    (h : CallTarget.misfit s m method (m.passesVarargsArray tys) 0 (spans.zip tys) = .ok ()) :
    List.Forall₂ (fun q ty => s.assignable q.ty.plain ty = true)
      (m.parameters.take m.fixedCount) (tys.take m.fixedCount) := by
  have hle := fixedCount_le_of_acceptsCount hcount
  have hparams := m.fixedCount_le
  refine List.forall₂_iff_get.mpr ⟨by simp [hle, hparams], fun i hi hi' => ?_⟩
  have hfix : i < m.fixedCount := by
    rw [List.length_take] at hi
    omega
  have htype : m.parameterType? (0 + i) = some m.parameters[i].ty.plain := by
    have hget : m.parameters[i]? = some m.parameters[i] := List.getElem?_eq_getElem (by omega)
    unfold parameterType?
    rw [Nat.zero_add, hget]
    cases hv : m.varargsParameter? with
    | none => rfl
    | some q =>
      have := fixedCount_of_varargs hv
      exact if_neg (by omega)
  have harg : (spans.zip tys)[i]? = some (spans[i], tys[i]) :=
    List.getElem?_zip_eq_some.mpr
      ⟨List.getElem?_eq_getElem (by omega), List.getElem?_eq_getElem (by omega)⟩
  simp only [List.get_eq_getElem, List.getElem_take]
  rcases CallTarget.assignable_of_misfit h harg htype with ⟨hdirect, hlast⟩ | hfits
  · -- an array is passed for the varargs parameter alone
    have hv : m.varargsParameter?.isSome = true := by
      unfold passesVarargsArray at hdirect
      split at hdirect
      · next hv _ => rw [hv]; rfl
      · cases hdirect
    obtain ⟨q, hq⟩ := Option.isSome_iff_exists.mp hv
    have := fixedCount_of_varargs hq
    omega
  · exact hfits

/-- A call that is checked passes types that the method takes. -/
theorem takes_of_check {method : String} {args : List Expr} {sites : Nat → Site} {span : Span}
    (hva : ∀ q, m.varargsParameter? = some q → q.ty.isArray = true)
    (trust : s.trustsSuperclass = false)
    (hcount : (CallTarget.declared m).checkCount s method args.length span = .ok ())
    (hargs : Expr.inferArgs s sites 0 args = .ok tys)
    (htypes : (CallTarget.declared m).checkTypes s method (args.map Expr.span) tys = .ok ()) :
    m.Takes s (m.passedTypes tys) := by
  have hlen := Expr.length_of_inferArgs hargs
  have haccepts : m.acceptsCount tys.length = true := by
    rw [hlen]
    rw [CallTarget.checkCount, trust, Bool.false_or] at hcount
    split at hcount
    · next haccepts => exact haccepts
    · cases hcount
  have hmisfit : CallTarget.misfit s m method (m.passesVarargsArray tys) 0
      ((args.map Expr.span).zip tys) = .ok () := by
    rwa [CallTarget.checkTypes, if_neg (by simp [trust])] at htypes
  have hpassed := passedTypes_eq hva (plain_of_inferArgs hargs) haccepts
  refine ⟨?_, fun q hq => ?_⟩
  · rw [hpassed]
    conv in m.parameters => rw [parameters_eq m]
    refine List.rel_append (fits_of_misfit (by rw [List.length_map, hlen]) haccepts hmisfit) ?_
    cases m.varargsParameter? with
    | none => exact .nil
    | some q => exact .cons (s.assignable_self _) .nil
  · rw [hpassed, hq]
    exact List.getLast?_concat

end Signature

/-! ## Blocks -/

namespace Jvm

/-- What a list is mapped to stands in the order of the list. -/
theorem Result.forall₂_of_mapM {α β : Type} {f : α → Result β} {xs : List α} {bs : List β}
    (h : xs.mapM f = .ok bs) : List.Forall₂ (fun a b => f a = .ok b) xs bs := by
  induction xs generalizing bs with
  | nil =>
    cases h
    exact .nil
  | cons a rest ih =>
    rw [List.mapM_cons] at h
    obtain ⟨b, hb, h⟩ := bind_eq_ok.mp h
    obtain ⟨bs, hbs, h⟩ := bind_eq_ok.mp h
    cases h
    exact .cons hb (ih hbs)

end Jvm

namespace Tac.ClassUnit

/-- The block of a method has its name, and is static where the method is. -/
theorem methodBlock_eq_ok {u : ClassUnit} {root : String} {m : Method} {b : MethodBlock}
    (h : u.methodBlock root m = .ok b) :
    b.name = m.name ∧ b.isStatic = m.isStatic ∧
      u.classNames.methodDescriptor (m.params.map Operand.ty) m.returnTy = .ok b.descriptor ∧
      ∃ slots, (u.context root m slots).select m.code = .ok b.code := by
  obtain ⟨slots, -, h⟩ := bind_eq_ok.mp h
  obtain ⟨code, hcode, h⟩ := bind_eq_ok.mp h
  obtain ⟨depth, -, h⟩ := bind_eq_ok.mp h
  obtain ⟨descriptor, hd, h⟩ := bind_eq_ok.mp h
  cases h
  exact ⟨rfl, rfl, hd, slots, hcode⟩

end Tac.ClassUnit

/-- A method of the table is declared by the program. -/
theorem Program.exists_of_method? {name : String} {m : Signature}
    (h : p.symbolTable.method? name = some m) :
    ∃ (k : Nat) (d : MethodDecl), p.classDecl.methods[k]? = some d ∧ d.signature = m := by
  obtain ⟨d, hd, rfl⟩ := List.mem_map.mp (SymbolTable.mem_of_method? h)
  obtain ⟨k, hk⟩ := List.mem_iff_getElem?.mp hd
  exact ⟨k, d, hk, rfl⟩

/-! ## Links -/

/-- How a call expression of the source is invoked. A method that the class declares is invoked on the
class by the name of its block, statically where the block is static, with one operand for each of
its parameters; the descriptor is spelled from the types of the operands. -/
inductive Expr.Links (p : Program) (s : Scope) (names : ClassNames) (blocks : List MethodBlock) :
    Expr → Jvm.Instr → Prop
  | declared {receiver : Expr} {method : String} {args : List Expr} {span : Span} {m : Signature}
      {tys : List Ty} {k : Nat} {d : MethodDecl} {b : MethodBlock} {descriptor : String}
      (target_ : receiver.callTarget s method span = .ok (.declared m))
      (decl_ : p.classDecl.methods[k]? = some d) (signature_ : d.signature = m)
      (block_ : blocks[k]? = some b)
      (types_ : Expr.inferArgs s (CallTarget.declared m).argumentSite 0 args = .ok tys)
      (takes_ : m.Takes s (m.passedTypes tys))
      (descriptor_ : names.methodDescriptor (m.passedTypes tys) m.returnType.plain = .ok descriptor)
      (same_ : m.passedTypes tys = m.parameters.map (fun q => q.ty.plain) →
        descriptor = b.descriptor) :
      Links p s names blocks (.call receiver method args span)
        (.invoke (if b.isStatic then .static else .virtual) p.classDecl.name b.name descriptor
          m.parameters.length (!m.returnType.isVoid))
  | other {receiver : Expr} {method : String} {args : List Expr} {span : Span} {target : CallTarget}
      (target_ : receiver.callTarget s method span = .ok target) (other_ : target.isDeclared = false)
      (i : Jvm.Instr) : Links p s names blocks (.call receiver method args span) i

/-- Related lists whose second is related to a third are related through it. -/
theorem forall₂_comp {α β γ : Type} {R : α → β → Prop} {S : β → γ → Prop} {T : α → γ → Prop}
    (h : ∀ a b c, R a b → S b c → T a c) {as : List α} {bs : List β} {cs : List γ}
    (hr : List.Forall₂ R as bs) (hs : List.Forall₂ S bs cs) : List.Forall₂ T as cs := by
  induction hr generalizing cs with
  | nil =>
    cases hs
    exact .nil
  | cons hab _ ih =>
    obtain _ | ⟨hbc, hs⟩ := hs
    exact .cons (h _ _ _ hab hbc) (ih hs)

/-- A declared method is invoked on the class, statically where it is static. -/
theorem receives_of_madeOn {x : MethodContext} {m : Signature} {on : Operand} {invoke : InvokeKind}
    {owner : String} {object : List Jvm.Instr} (hm : (CallTarget.declared m).MadeOn s on)
    (h : x.Receives (callKind (.declared m)) on invoke owner object) :
    invoke = (if m.isStatic then .static else .virtual) ∧
      owner = x.names.qualify s.table.className := by
  obtain ⟨hty, hclass⟩ := hm
  have hkind : callKind (.declared m) = if m.isStatic then .static else .virtual := rfl
  rw [hkind] at h
  cases hstatic : m.isStatic with
  | true =>
    rw [hstatic, hclass hstatic] at h
    cases h
    exact ⟨rfl, rfl⟩
  | false =>
    rw [hstatic] at h
    cases h
    rw [hty]
    exact ⟨rfl, rfl⟩

/-- Related lists have related members at every position. -/
theorem getElem?_of_forall₂ {α β : Type} {R : α → β → Prop} {as : List α} {bs : List β}
    (h : List.Forall₂ R as bs) {k : Nat} {a : α} (hk : as[k]? = some a) :
    ∃ b, bs[k]? = some b ∧ R a b := by
  obtain ⟨hlt, rfl⟩ := List.getElem?_eq_some_iff.mp hk
  have hlt' : k < bs.length := h.length_eq ▸ hlt
  exact ⟨bs[k], List.getElem?_eq_getElem hlt', h.get hlt hlt'⟩

namespace Program

/-- The block of a declared method: its name, its kind, and the descriptor of its parameters. -/
structure Declares (names : ClassNames) (d : MethodDecl) (b : MethodBlock) : Prop where
  name : b.name = d.name
  isStatic : b.isStatic = d.isStatic
  descriptor : names.methodDescriptor (d.signature.parameters.map fun q => q.ty.plain)
    d.signature.returnType.plain = .ok b.descriptor

/-- The instruction of an accepted call expression is selected to an invocation that links. -/
theorem links_of_invokes {blocks : List MethodBlock} {x : MethodContext} {d : MethodDecl}
    (trust : (p.scopeOf policy d).trustsSuperclass = false)
    (hname : x.names.className = p.classDecl.name)
    (hblocks : List.Forall₂ (Declares x.names) p.classDecl.methods blocks) {e : Expr}
    {i : Tac.Instr} {j : Jvm.Instr} (hi : e.LowersTo (p.scopeOf policy d) i) (hj : x.Invokes i j) :
    e.Links p (p.scopeOf policy d) x.names blocks j := by
  obtain ⟨target_, count, types, fits, on_, values_⟩ := hi
  rename_i receiver method args span target tys site dest on values
  cases hdeclared : target.isDeclared with
  | false => exact .other target_ hdeclared j
  | true =>
    cases target with
    | declared m =>
      have hfound := CallTarget.method?_of_resolve target_
      obtain ⟨k, decl, hk, rfl⟩ := exists_of_method? hfound
      obtain ⟨b, hb, hblock⟩ := getElem?_of_forall₂ hblocks hk
      have htakes := Signature.takes_of_check (p.varargsAreArrays _ (SymbolTable.mem_of_method? hfound))
        trust count types fits
      obtain ⟨hreceives, hdescriptor⟩ := hj
      obtain ⟨rfl, rfl⟩ := receives_of_madeOn on_ hreceives
      have howner : x.names.qualify p.classDecl.name = p.classDecl.name := by
        rw [ClassNames.qualify, hname, if_pos (beq_self_eq_true _)]
      have hlen : values.length = decl.signature.parameters.length := by
        rw [htakes.fits.length_eq, ← List.length_map Operand.ty, values_]
        rfl
      obtain rfl : method = b.name := by
        rw [hblock.name]
        exact (SymbolTable.method?_name hfound).symm
      have hstatic : decl.signature.isStatic = b.isStatic := hblock.isStatic.symm
      rw [values_] at hdescriptor
      rw [show (p.scopeOf policy d).table.className = p.classDecl.name from rfl, howner,
        hstatic, hlen]
      refine .declared target_ hk rfl hb types htakes hdescriptor fun hsame => ?_
      have hheader := hblock.descriptor
      rw [← hsame] at hheader
      exact Except.ok.inj (hdescriptor.symm.trans hheader)
    | _ => cases hdeclared

theorem declares_of_methodBlock {unit : ClassUnit} {root : String} {d : MethodDecl} {m : Method}
    {b : MethodBlock} {c c' : Counters} {code : List Tac.Instr}
    (hm : (d.lower p.symbolTable policy d.signature).run c = .done m code c')
    (hb : unit.methodBlock root m = .ok b) : Declares unit.classNames d b := by
  obtain ⟨hname, hstatic, hdescriptor, -⟩ := ClassUnit.methodBlock_eq_ok hb
  obtain ⟨body, closing, -, rfl, -⟩ := MethodDecl.lower_eq_done hm
  rw [Method.extend_name] at hname
  rw [Method.extend_isStatic] at hstatic
  rw [Method.extend_params, Method.extend_returnTy] at hdescriptor
  refine ⟨hname, hstatic, ?_⟩
  rw [← hdescriptor, Scope.emptyMethod, List.map_map]
  rfl

/-- The methods of a class that has an assembly have blocks, behind that of the constructor. -/
theorem blocks_of_classFile {methods : List Method} {root : String} {file : ClassFile}
    (h : (p.unitOf methods).classFile root = .ok file) :
    ∃ constructor blocks, file.name = p.classDecl.name ∧ file.methods = constructor :: blocks ∧
      List.Forall₂ (fun m b => (p.unitOf methods).methodBlock root m = .ok b) methods blocks := by
  obtain ⟨fields, -, h⟩ := bind_eq_ok.mp h
  obtain ⟨all, hall, h⟩ := bind_eq_ok.mp h
  cases h
  obtain _ | ⟨-, hblocks⟩ := Result.forall₂_of_mapM hall
  exact ⟨_, _, rfl, rfl, hblocks⟩

/-- What is compiled is accepted, lowered and has an assembly. -/
theorem parts_of_compile {config : Config} {unit : ClassUnit} {listing : Option String}
    {assembly : String} (h : p.compile config = .ok (.accepted unit listing assembly)) :
    p.check p.symbolTable config.policy = [] ∧
      p.toUnit p.symbolTable config.policy = .ok unit ∧
      ∃ file, unit.classFile config.rootClass = .ok file ∧ assembly = file.text := by
  unfold compile compileWith at h
  split at h
  · next hcheck =>
    obtain ⟨unit', hunit, h⟩ := bind_eq_ok.mp h
    obtain ⟨text, htext, h⟩ := bind_eq_ok.mp h
    cases h
    unfold assemble at htext
    split at htext
    · next file hfile =>
      cases htext
      exact ⟨hcheck, hunit, file, hfile, rfl⟩
    · cases htext
  · cases h

/-- **Calls of declared methods link.** Every method call in the assembly of an accepted program that
trusts no superclass stands for a call expression, in order. If the class declares the method that
the expression calls, the invocation names the class and the method's block, and its descriptor is
that of the block unless an argument is converted. -/
theorem links_of_compile (p : Program) (config : Config) {unit : ClassUnit} {listing : Option String}
    {assembly : String} (h : p.compile config = .ok (.accepted unit listing assembly))
    (trust : p.classDecl.superClass = none ∨ config.policy.trustSuperclass = false) :
    ∃ file constructor blocks, unit.classFile config.rootClass = .ok file ∧ assembly = file.text ∧
      file.name = p.classDecl.name ∧ file.methods = constructor :: blocks ∧
      List.Forall₂ (fun d b => Declares unit.classNames d b ∧
        List.Forall₂ (Expr.Links p (p.scopeOf config.policy d) unit.classNames blocks)
          (Stmt.keptCalls (p.scopeOf config.policy d) d.body) (b.code.filter Instr.isMethodCall))
        p.classDecl.methods blocks := by
  obtain ⟨hcheck, hunit, file, hfile, rfl⟩ := parts_of_compile h
  obtain ⟨methods, rfl, hmethods⟩ := methods_of_toUnit hunit
  obtain ⟨constructor, blocks, hname, hfileMethods, hblocks⟩ := blocks_of_classFile hfile
  refine ⟨file, constructor, blocks, hfile, rfl, hname, hfileMethods, ?_⟩
  have hdeclares : List.Forall₂ (Declares (p.unitOf methods).classNames) p.classDecl.methods blocks :=
    forall₂_comp (fun d m b ⟨_, _, _, hm⟩ hb => declares_of_methodBlock hm hb) hmethods hblocks
  have trust (d : MethodDecl) : (p.scopeOf config.policy d).trustsSuperclass = false := by
    show (p.classDecl.superClass.isSome && config.policy.trustSuperclass) = false
    rcases trust with h | h <;> simp [h]
  refine forall₂_comp ?_ ((List.forall₂_and_left _ _).mpr ⟨fun d hd => hd, hmethods⟩) hblocks
  rintro d m b ⟨hd, c, code, c', hm⟩ hb
  obtain ⟨-, -, -, slots, hcode⟩ := ClassUnit.methodBlock_eq_ok hb
  have links (e : Expr) (i : Tac.Instr) (j : Jvm.Instr)
      (hi : e.LowersTo (p.scopeOf config.policy d) i)
      (hj : ((p.unitOf methods).context config.rootClass m slots).Invokes i j) :
      e.Links p (p.scopeOf config.policy d) (p.unitOf methods).classNames blocks j :=
    links_of_invokes (trust d) rfl hdeclares hi hj
  exact ⟨declares_of_methodBlock hm hb,
    forall₂_comp links (lowersTo_of_check hcheck hd hm) (MethodContext.select_invokes hcode)⟩

/-- A class that passes its own value where its superclass is expected, and a number where a number is. -/
def climber : Program where
  classDecl := {
    name := "Leaf"
    superClass := some "Tree"
    methods := [
      { name := "height", returnType := .scalar .int,
        params := [Build.var "tree" (.scalar (.named "Tree"))], body := [Build.ret (Build.int 1)] },
      { name := "grow", returnType := .scalar .int,
        params := [Build.var "rings" (.scalar .int)], body := [Build.ret (Build.int 1)] },
      { name := "climb", returnType := .scalar .void,
        body := [Build.exprStmt (Build.selfCall "height" [Build.self]),
          Build.exprStmt (Build.selfCall "grow" [Build.int 3])] }] }

def climberUnit : ClassUnit :=
  climber.unitOf [
    { name := "height", isPublic := false, isStatic := false,
      params := [.var "tree" (Ty.scalar "Tree")], returnTy := Ty.int, code := [.ret (some (.int 1))] },
    { name := "grow", isPublic := false, isStatic := false,
      params := [.var "rings" Ty.int], returnTy := Ty.int, code := [.ret (some (.int 1))] },
    { name := "climb", isPublic := false, isStatic := false, params := [], returnTy := Ty.void,
      code := [.call none .virtual (.self (Ty.scalar "Leaf")) "height" [.self (Ty.scalar "Leaf")] Ty.int,
        .call none .virtual (.self (Ty.scalar "Leaf")) "grow" [.int 3] Ty.int, .ret none] }]

def climberFile : ClassFile where
  name := "Leaf"
  superClass := "Tree"
  fields := []
  methods := [
    { name := constructorName, descriptor := "()V", isPublic := true, isStatic := false,
      maxStack := 1, maxLocals := 1,
      code := [.load .ref 0, .invoke .special "Tree" constructorName "()V" 0 false, .ret none] },
    { name := "height", descriptor := "(LTree;)I", isPublic := false, isStatic := false,
      maxStack := 1, maxLocals := 2, code := [.const 1, .ret (some .int)] },
    { name := "grow", descriptor := "(I)I", isPublic := false, isStatic := false,
      maxStack := 1, maxLocals := 2, code := [.const 1, .ret (some .int)] },
    { name := "climb", descriptor := "()V", isPublic := false, isStatic := false,
      maxStack := 2, maxLocals := 1,
      code := [.load .ref 0, .load .ref 0, .invoke .virtual "Leaf" "height" "(LLeaf;)I" 1 true, .pop,
        .load .ref 0, .const 3, .invoke .virtual "Leaf" "grow" "(I)I" 1 true, .pop, .ret none] }]

theorem classFile_climber : climberUnit.classFile defaultRootClass = .ok climberFile := by
  have slots {m : Method} {key : SlotKey} (keys : SlotTable.keysOf m = [key])
      (hm : m.isStatic = false) : SlotTable.ofMethod m =
        .ok ⟨(∅ : Std.HashMap SlotKey Nat).insert key 1, 2⟩ := by
    rw [SlotTable.ofMethod, keys, hm]
    simp [SlotTable.allocateAll, SlotTable.allocate, wordLimit]
  have keysHeight : SlotTable.keysOf climberUnit.methods[1] = [.var "tree"] := rfl
  have keysGrow : SlotTable.keysOf climberUnit.methods[2] = [.var "rings"] := rfl
  have height : climberUnit.methodBlock defaultRootClass climberUnit.methods[1] =
      .ok climberFile.methods[1] := by
    rw [ClassUnit.methodBlock, slots keysHeight rfl]
    rfl
  have grow : climberUnit.methodBlock defaultRootClass climberUnit.methods[2] =
      .ok climberFile.methods[2] := by
    rw [ClassUnit.methodBlock, slots keysGrow rfl]
    rfl
  rw [ClassUnit.classFile, show climberUnit.methods = [climberUnit.methods[0],
    climberUnit.methods[1], climberUnit.methods[2], climberUnit.methods[3]] from rfl,
    List.mapM_cons, List.mapM_cons, height, List.mapM_cons, grow]
  rfl

theorem compile_climber : climber.compile { policy := .strict } =
    .ok (.accepted climberUnit none climberFile.text) := by
  have accepted : climber.check climber.symbolTable .strict = [] := by decide
  have lowered : climber.toUnit climber.symbolTable .strict = .ok climberUnit := rfl
  have assembled : assemble climberUnit defaultRootClass = .ok climberFile.text := by
    rw [assemble, classFile_climber]
  rw [compile_eq { policy := .strict } accepted]
  exact bind_eq_ok.mpr ⟨_, lowered, bind_eq_ok.mpr ⟨_, assembled, rfl⟩⟩

/-- Both calls in the class stand for invocations that link to their blocks, the first but for its
descriptor. -/
theorem links_of_compile_climber : climber.compile { policy := .strict } =
      .ok (.accepted climberUnit none climberFile.text) ∧
    ∃ file constructor blocks, climberUnit.classFile defaultRootClass = .ok file ∧
      climberFile.text = file.text ∧ file.name = "Leaf" ∧ file.methods = constructor :: blocks ∧
      List.Forall₂ (fun d b => Declares climberUnit.classNames d b ∧
        List.Forall₂ (Expr.Links climber (climber.scopeOf .strict d) climberUnit.classNames blocks)
          (Stmt.keptCalls (climber.scopeOf .strict d) d.body) (b.code.filter Instr.isMethodCall))
        climber.classDecl.methods blocks :=
  ⟨compile_climber, links_of_compile climber { policy := .strict }
    compile_climber (.inr rfl)⟩

/-- The value of the class is passed to a method of the class by a descriptor that no block has. -/
theorem links_of_compile_converted : climber.compile { policy := .strict } =
      .ok (.accepted climberUnit none climberFile.text) ∧
    climberUnit.classFile defaultRootClass = .ok climberFile ∧
    Stmt.calls climber.classDecl.methods[2].body =
      [Build.selfCall "height" [Build.self], Build.selfCall "grow" [Build.int 3]] ∧
    Build.self.callTarget (climber.scopeOf .strict climber.classDecl.methods[2]) "height" {} =
      .ok (.declared climber.symbolTable.methods[0]) ∧
    (climberFile.methods.map fun b => (b.name, b.descriptor)) =
      [(constructorName, "()V"), ("height", "(LTree;)I"), ("grow", "(I)I"), ("climb", "()V")] ∧
    climberFile.methods.flatMap (fun b => b.code.filter Jvm.Instr.isMethodCall) =
      [.invoke .virtual "Leaf" "height" "(LLeaf;)I" 1 true,
        .invoke .virtual "Leaf" "grow" "(I)I" 1 true] :=
  ⟨compile_climber, classFile_climber, rfl, rfl, rfl, rfl⟩

end Program

end JavaMinus
