import JavaMinus.Proofs.Compile.Annotations
import JavaMinus.Proofs.Jvm.Heights
import JavaMinus.Syntax.Build

/-!
# Which accepted programs compile

A program without semantic errors has an assembly exactly when it is compilable
(`Program.IsCompilable`), up to the limits of the class format. Two things are asked that the checker
does not ask: every method returns, the entry point included, and what is lowered from the program is
representable. A program in which only results are `void` and no class is named like a primitive type
is representable, so for such programs the entry point is the one thing left
(`Program.compile_accepted`).
-/

namespace JavaMinus

open Tac Jvm

/-- The cause is a limit of the class format or of an array, rather than a fault of the program. -/
def CompileError.isCapacity : CompileError → Bool
  | .lowering .literalTooLarge => true
  | .representation e => e.isCapacity
  | _ => false

/-- The program is accepted and has an assembly. -/
def Program.Compiles (p : Program) (config : Config) : Prop :=
  ∃ unit listing assembly, p.compile config = .ok (.accepted unit listing assembly)

/-- Every method returns what it has to, and the code of the program is representable. -/
structure Program.IsCompilable (p : Program) (policy : Policy) : Prop where
  returns : ∀ m ∈ p.classDecl.methods, m.Returns
  represents : ∀ unit, p.toUnit p.symbolTable policy = .ok unit → unit.isRepresentable = true

/-! ## Results that succeed up to capacity -/

namespace Jvm

/-- The step succeeds, or a limit of the class format is in its way. -/
def Result.Fits {α : Type} (r : Result α) : Prop :=
  (∃ a, r = .ok a) ∨ ∃ e, r = .error e ∧ e.isCapacity = true

theorem Result.Fits.bind {α β : Type} {r : Result α} {f : α → Result β} (hr : r.Fits)
    (hf : ∀ a, r = .ok a → (f a).Fits) : (r >>= f).Fits := by
  rcases hr with ⟨a, rfl⟩ | ⟨e, rfl, he⟩
  · exact hf a rfl
  · exact .inr ⟨e, rfl, he⟩

theorem Result.fits_mapM {α β : Type} {f : α → Result β} {xs : List α}
    (h : ∀ a ∈ xs, (f a).Fits) : Result.Fits (xs.mapM f) := by
  induction xs with
  | nil => exact .inl ⟨[], rfl⟩
  | cons a rest ih =>
    obtain ⟨ha, hrest⟩ := List.forall_mem_cons.mp h
    rw [List.mapM_cons]
    exact ha.bind fun b _ => (ih hrest).bind fun bs _ => .inl ⟨b :: bs, rfl⟩

/-- A list is mapped when each of its members is. -/
theorem Result.isOk_of_mapM {α β : Type} {f : α → Result β} {xs : List α} {bs : List β}
    (h : xs.mapM f = .ok bs) : ∀ a ∈ xs, ∃ b, f a = .ok b := by
  induction xs generalizing bs with
  | nil => simp
  | cons a rest ih =>
    rw [List.mapM_cons] at h
    obtain ⟨b, hb, h⟩ := bind_eq_ok.mp h
    obtain ⟨bs, hbs, -⟩ := bind_eq_ok.mp h
    exact List.forall_mem_cons.mpr ⟨⟨b, hb⟩, ih hbs⟩

theorem SlotTable.fits_ofMethod (m : Method) : (ofMethod m).Fits := by
  cases h : ofMethod m with
  | ok t => exact .inl ⟨t, rfl⟩
  | error e => exact .inr ⟨e, rfl, by rw [allocateAll_error h]; rfl⟩

end Jvm

namespace Tac.ClassUnit

variable {u : ClassUnit} {root : String} {m : Method} {s : Scope} {temps : List Ty}

theorem context_serves (hm : m.Typed s temps) {slots : SlotTable}
    (h : SlotTable.ofMethod m = .ok slots) :
    (u.context root m slots).Serves s (SlotTable.keysOf m) where
  isStatic := hm.isStatic
  returnTy := hm.returnTy
  slot := (SlotTable.ofMethod_sound h).2

/-- Selected code and a descriptor make the assembly of a method, unless the stack gets too deep. -/
theorem fits_methodBlock
    (hselect : ∀ slots, SlotTable.ofMethod m = .ok slots →
      Result.Fits ((u.context root m slots).select m.code))
    (hlabels : ∀ i ∈ m.code, ∀ name, i.target? = some name ∨ i.label? = some name →
      IsPlainLabel name)
    (hparams : ∀ q ∈ m.params, q.ty.isVoid = false) (hresult : m.returnTy.hasDescriptor = true) :
    Result.Fits (u.methodBlock root m) := by
  refine (SlotTable.fits_ofMethod m).bind fun slots hs => ?_
  refine (hselect slots hs).bind fun code hc => ?_
  refine Result.Fits.bind (r := maxStack code) ?_ fun depth _ => ?_
  · rcases maxStack_of_select hc hlabels with h | h
    · exact .inl h
    · exact .inr ⟨_, h, rfl⟩
  · obtain ⟨d, hd⟩ : ∃ d, u.classNames.methodDescriptor (m.params.map Operand.ty) m.returnTy =
        .ok d := ClassNames.methodDescriptor_isOk.mpr ⟨by simpa using hparams, hresult⟩
    exact .inl ⟨_, bind_eq_ok.mpr ⟨d, hd, rfl⟩⟩

/-- A typed representable method has an assembly, unless it passes a limit. -/
theorem fits_methodBlock_of_typed (hm : m.Typed s temps) (hr : m.isRepresentable = true) :
    Result.Fits (u.methodBlock root m) := by
  simp only [Method.isRepresentable, Bool.and_eq_true, List.all_eq_true, Bool.not_eq_true'] at hr
  obtain ⟨⟨hparams, hresult⟩, hcode⟩ := hr
  refine fits_methodBlock (fun slots hs => ?_) (plainLabels_of_typed hm.code) hparams hresult
  have hkeys : ∀ i ∈ m.code, ∀ o ∈ i.operands, ∀ key ∈ slotKeys o, key ∈ SlotTable.keysOf m := by
    intro i hi o ho key hk
    exact List.mem_append_right _ (List.mem_flatMap.mpr ⟨i, hi, List.mem_flatMap.mpr ⟨o, ho, hk⟩⟩)
  rcases MethodContext.select_of_representable (context_serves hm hs) hm.code hcode hkeys with h | h
  · exact .inl h
  · exact .inr ⟨_, h, rfl⟩

/-- The constructor of a class has an assembly, unless it passes a limit. -/
theorem fits_constructor (ty : Ty) : Result.Fits (u.methodBlock root (Method.constructor ty)) := by
  refine fits_methodBlock (fun slots _ => .inl ?_) ?_ (by simp) rfl
  · exact ⟨_, MethodContext.select_eq_ok.mpr ⟨_, .cons (.call (.super (.self rfl)) .nil rfl
      (Nat.zero_le _) .nothing) (.cons .retNone (.nil _)), rfl⟩⟩
  · simp [Method.constructor, Instr.target?, Instr.label?]

/-- A typed method that has an assembly was representable. -/
theorem representable_of_methodBlock {b : MethodBlock} (hm : m.Typed s temps)
    (h : u.methodBlock root m = .ok b) : m.isRepresentable = true := by
  obtain ⟨slots, -, h⟩ := bind_eq_ok.mp h
  obtain ⟨code, hc, h⟩ := bind_eq_ok.mp h
  obtain ⟨depth, -, h⟩ := bind_eq_ok.mp h
  obtain ⟨d, hd, -⟩ := bind_eq_ok.mp h
  obtain ⟨hparams, hresult⟩ := ClassNames.methodDescriptor_isOk.mp ⟨d, hd⟩
  have hcode := MethodContext.representable_of_select hc hm.code
  simp only [Method.isRepresentable, Bool.and_eq_true, List.all_eq_true, Bool.not_eq_true']
  exact ⟨⟨by simpa using hparams, hresult⟩, hcode⟩

theorem fits_fieldEntry {f : Symbol} (h : f.ty.hasDescriptor = true) :
    Result.Fits (u.fieldEntry f) := by
  obtain ⟨d, hd⟩ := (ClassNames.descriptor_isOk (n := u.classNames)).mpr h
  exact .inl ⟨_, bind_eq_ok.mpr ⟨d, hd, rfl⟩⟩

end Tac.ClassUnit

namespace Program

variable {p : Program} {policy : Policy} {temps : List Ty} {methods : List Method} {root : String}

theorem TypedMethods.typed {decls : List MethodDecl} (h : p.TypedMethods policy temps decls methods) :
    ∀ m ∈ methods, ∃ d ∈ decls, m.Typed (p.scopeOf policy d) temps := by
  intro m hm
  induction h with
  | nil => cases hm
  | cons head _ ih =>
    rcases List.mem_cons.mp hm with rfl | hm
    · exact ⟨_, List.mem_cons_self, head.1⟩
    · obtain ⟨d, hd, ht⟩ := ih hm
      exact ⟨d, List.mem_cons_of_mem _ hd, ht⟩

/-- A representable class of typed methods has an assembly, unless it passes a limit. -/
theorem fits_classFile (h : p.TypedMethods policy temps p.classDecl.methods methods)
    (hr : (p.unitOf methods).isRepresentable = true) :
    Result.Fits ((p.unitOf methods).classFile root) := by
  rw [ClassUnit.isRepresentable, Bool.and_eq_true, List.all_eq_true, List.all_eq_true] at hr
  refine (Result.fits_mapM fun f hf => ClassUnit.fits_fieldEntry (hr.1 f hf)).bind fun fields _ => ?_
  refine (Result.fits_mapM fun m hm => ?_).bind fun blocks _ => .inl ⟨_, rfl⟩
  rcases List.mem_cons.mp hm with rfl | hm'
  · exact ClassUnit.fits_constructor _
  · obtain ⟨d, -, ht⟩ := h.typed m hm'
    exact ClassUnit.fits_methodBlock_of_typed ht (hr.2 m hm)

/-- A class of typed methods that has an assembly is representable. -/
theorem representable_of_classFile {file : ClassFile}
    (h : p.TypedMethods policy temps p.classDecl.methods methods)
    (hf : (p.unitOf methods).classFile root = .ok file) :
    (p.unitOf methods).isRepresentable = true := by
  obtain ⟨fields, hfields, hf⟩ := bind_eq_ok.mp hf
  obtain ⟨blocks, hblocks, -⟩ := bind_eq_ok.mp hf
  rw [ClassUnit.isRepresentable, Bool.and_eq_true, List.all_eq_true, List.all_eq_true]
  refine ⟨fun f hm => ?_, fun m hm => ?_⟩
  · obtain ⟨b, hb⟩ := Result.isOk_of_mapM hfields f hm
    obtain ⟨d, hd, -⟩ := bind_eq_ok.mp hb
    exact ClassNames.descriptor_isOk.mp ⟨d, hd⟩
  · obtain ⟨b, hb⟩ := Result.isOk_of_mapM hblocks m hm
    rcases List.mem_cons.mp hm with rfl | hm
    · rfl
    · obtain ⟨d, -, ht⟩ := h.typed m hm
      exact ClassUnit.representable_of_methodBlock ht hb

/-- What is lowered from a `void`-free program is representable. -/
theorem representable_unitOf (hv : p.IsVoidFree) (hc : p.NamesClasses)
    (ht : ∀ ty ∈ temps, ty.name ≠ "void")
    (h : p.TypedMethods policy temps p.classDecl.methods methods) :
    (p.unitOf methods).isRepresentable = true := by
  rw [ClassUnit.isRepresentable, Bool.and_eq_true, List.all_eq_true, List.all_eq_true]
  refine ⟨fun f hf => ?_, fun m hm => ?_⟩
  · obtain ⟨g, hg, rfl⟩ := List.mem_map.mp hf
    obtain ⟨d, hd, rfl⟩ := List.mem_map.mp hg
    exact Ty.hasDescriptor_of_not_isVoid (hv.annotations _ (mem_annotations_of_mem_fields hd))
  · rcases List.mem_cons.mp hm with rfl | hm
    · rfl
    · obtain ⟨d, hd, hm⟩ := h.typed m hm
      have hs : (p.scopeOf policy d).Representable := representable_scopeOf hv hc hd
      simp only [Method.isRepresentable, Bool.and_eq_true, List.all_eq_true, Bool.not_eq_true']
      refine ⟨⟨fun q hq => ?_, by rw [hm.returnTy]; exact hs.result⟩, ?_⟩
      · rw [hm.params] at hq
        obtain ⟨symbol, hsymbol, rfl⟩ := List.mem_map.mp hq
        obtain ⟨v, hv', rfl⟩ := List.mem_map.mp hsymbol
        exact hv.annotations _ (mem_annotations_of_mem_params hd (List.mem_append_left _ hv'))
      · rw [hm.returnTy]
        exact hm.code.representable hs ht

/-- Nothing else than the assembly can stop the compilation of a program that is lowered. -/
theorem compile_eq (config : Config) (h : p.check p.symbolTable config.policy = []) :
    p.compile config = (p.toUnit p.symbolTable config.policy).bind fun unit =>
      (assemble unit config.rootClass).bind fun assembly =>
        .ok (.accepted unit (if config.emitListing then some unit.listing else none) assembly) := by
  unfold compile compileWith
  rw [h]
  rfl

/-- A program that is lowered to a representable unit compiles, unless it passes a limit. -/
theorem compiles_of_unit {unit : ClassUnit} {config : Config}
    (h : p.check p.symbolTable config.policy = [])
    (hu : p.toUnit p.symbolTable config.policy = .ok unit)
    (hfits : Result.Fits (unit.classFile config.rootClass)) :
    p.Compiles config ∨ ∃ e, p.compile config = .error e ∧ e.isCapacity = true := by
  rw [Compiles, compile_eq config h, hu]
  rcases hfits with ⟨file, hf⟩ | ⟨e, he, hcap⟩
  · refine .inl ⟨unit, if config.emitListing then some unit.listing else none, file.text, ?_⟩
    simp only [assemble, hf, Except.bind]
  · exact .inr ⟨.representation e, by simp only [assemble, he, Except.bind], hcap⟩

/-- A program that counts down by calls from an entry point with the given result. -/
def countdown (result : TypeWord) : Program where
  classDecl := {
    name := "Countdown"
    methods := [
      { name := "next"
        returnType := .scalar .int
        params := [Build.var "n" (.scalar .int)]
        body := [Build.ret (Build.binary .sub (Build.ident "n") (Build.int 1))] },
      { name := "run"
        returnType := .scalar .int
        params := [Build.var "n" (.scalar .int)]
        body := [
          Build.loop (Build.binary .lt (Build.int 0) (Build.ident "n"))
            (Build.block [Build.assign "n" (Build.selfCall "next" [Build.ident "n"])]),
          Build.ret (Build.ident "n")] },
      { name := entryPoint
        isStatic := true
        returnType := { word := result }
        body := [Build.exprStmt (Build.call (Build.newObject "Countdown") "run" [Build.int 3])] }] }

end Program

end JavaMinus
