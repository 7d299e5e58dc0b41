import Mathlib.Data.List.Forall2
import JavaMinus.Proofs.Jvm.Aligns
import JavaMinus.Proofs.Lowering.Always

/-!
# The calls of selected code

Selection neither adds nor drops nor reorders a method call: those of the selected code are, one by
one, those of the body (`MethodContext.select_invokes`). Constructors are left out of both, since the
constructor call behind an allocation has no code of its own.
-/

namespace JavaMinus.Jvm

open Tac

/-- The instruction calls a method. A constructor is not one. -/
def Instr.isMethodCall : Instr → Bool
  | .invoke .special .. => false
  | .invoke .. => true
  | _ => false

theorem filter_isMethodCall_of_plain {code : List Instr} (h : ∀ i ∈ code, i.isPlain = true) :
    code.filter Instr.isMethodCall = [] := by
  refine List.filter_eq_nil_iff.mpr fun i hi => ?_
  have := h i hi
  cases i <;> first | exact Bool.false_ne_true | cases this

/-- In front of plain code an instruction is the only one that can be a method call. -/
theorem filter_isMethodCall_cons {i : Instr} {rest : List Instr} (h : ∀ j ∈ rest, j.isPlain = true) :
    (i :: rest).filter Instr.isMethodCall = [i].filter Instr.isMethodCall := by
  rw [← List.singleton_append, List.filter_append, filter_isMethodCall_of_plain h, List.append_nil]

namespace MethodContext

variable {x : MethodContext} {n : Nat} {code : List Instr}

/-- The instruction that a call is selected to. -/
inductive Invokes (x : MethodContext) : Tac.Instr → Instr → Prop
  | intro {dest : Option Operand} {kind : CallKind} {on : Operand} {method : String}
      {args : List Operand} {ty : Ty} {invoke : InvokeKind} {owner descriptor : String}
      {object : List Instr} (on_ : x.Receives kind on invoke owner object)
      (descriptor_ : x.names.methodDescriptor (args.map Operand.ty) ty = .ok descriptor) :
      Invokes x (.call dest kind on method args ty)
        (.invoke invoke owner method descriptor args.length (!ty.isVoid))

/-- The method call of an instruction is in its code, and no other one. -/
theorem Selects.invokes {i : Tac.Instr} (h : x.Selects n (.instr i) code) :
    List.Forall₂ x.Invokes ([i].filter Tac.Instr.isMethodCall) (code.filter Instr.isMethodCall) := by
  cases h with
  | call on_ args_ descriptor_ _ dest_ =>
    rw [List.filter_append, List.filter_append, filter_isMethodCall_of_plain on_.plain,
      filter_isMethodCall_of_plain args_.plain,
      filter_isMethodCall_cons dest_.plain]
    cases on_ with
    | super self_ => exact .nil
    | static name ty => exact .cons (.intro (.static name ty) descriptor_) .nil
    | virtual scalar reference on_ =>
      exact .cons (.intro (.virtual scalar reference on_) descriptor_) .nil
  | assign value_ dest_ =>
    rw [List.filter_append, filter_isMethodCall_of_plain value_.plain,
      filter_isMethodCall_of_plain dest_.plain]
    exact .nil
  | binary left_ right_ op_ dest_ =>
    rw [List.filter_append, List.filter_append, List.filter_append,
      filter_isMethodCall_of_plain left_.plain, filter_isMethodCall_of_plain right_.plain,
      filter_isMethodCall_of_plain dest_.plain]
    cases op_ with
    | arith _ _ => exact .nil
    | compare _ jump_ => cases jump_ <;> exact .nil
  | not operand_ dest_ =>
    rw [List.filter_append, List.filter_append, filter_isMethodCall_of_plain operand_.plain,
      filter_isMethodCall_of_plain dest_.plain]
    exact .nil
  | newArray length_ allocation_ dest_ =>
    rw [List.filter_append, filter_isMethodCall_of_plain length_.plain,
      filter_isMethodCall_cons dest_.plain]
    cases allocation_ <;> exact .nil
  | arrayLength array_ dest_ =>
    rw [List.filter_append, filter_isMethodCall_of_plain array_.plain,
      filter_isMethodCall_cons dest_.plain]
    exact .nil
  | arrayStore _ array_ index_ value_ =>
    rw [List.filter_append, List.filter_append, List.filter_append,
      filter_isMethodCall_of_plain array_.plain, filter_isMethodCall_of_plain index_.plain,
      filter_isMethodCall_of_plain value_.plain]
    exact .nil
  | fieldRead object_ _ dest_ =>
    rw [List.filter_append, filter_isMethodCall_of_plain object_.plain,
      filter_isMethodCall_cons dest_.plain]
    exact .nil
  | fieldWrite object_ value_ _ =>
    rw [List.filter_append, List.filter_append, filter_isMethodCall_of_plain object_.plain,
      filter_isMethodCall_of_plain value_.plain]
    exact .nil
  | retNone => exact .nil
  | ret _ value_ =>
    rw [List.filter_append, filter_isMethodCall_of_plain value_.plain]
    exact .nil
  | compare left_ right_ jump_ =>
    rw [List.filter_append, List.filter_append, filter_isMethodCall_of_plain left_.plain,
      filter_isMethodCall_of_plain right_.plain]
    cases jump_ <;> exact .nil
  | truthy value_ =>
    rw [List.filter_append, filter_isMethodCall_of_plain value_.plain]
    exact .nil
  | jump target => exact .nil
  | label name => exact .nil

/-- The method calls of aligned code are those of the body. -/
theorem Aligns.invokes {body : List Tac.Instr} (h : x.Aligns n body code) :
    List.Forall₂ x.Invokes (body.filter Tac.Instr.isMethodCall) (code.filter Instr.isMethodCall) := by
  induction h with
  | nil n => exact .nil
  | instr here behind ih =>
    rw [← List.singleton_append, List.filter_append, List.filter_append]
    exact List.rel_append here.invokes ih
  | @allocation _ dest className i body code rest here init behind ih =>
    have hinit : i.isMethodCall = false := by
      unfold initialises at init
      split at init
      · rfl
      · cases init
    have hcode : code.filter Instr.isMethodCall = [] := by
      cases here with
      | newObject dest_ =>
        rw [List.filter_cons_of_neg (by simp [Instr.isMethodCall]),
          List.filter_cons_of_neg (by simp [Instr.isMethodCall]), filter_isMethodCall_cons dest_.plain]
        rfl
    rw [List.filter_cons_of_neg (by simp [Tac.Instr.isMethodCall]),
      List.filter_cons_of_neg (by simp [hinit]), List.filter_append, hcode]
    exact ih

/-- The method calls of selected code are those of the body, in order. -/
theorem select_invokes {body : List Tac.Instr} (h : x.select body = .ok code) :
    List.Forall₂ x.Invokes (body.filter Tac.Instr.isMethodCall) (code.filter Instr.isMethodCall) := by
  obtain ⟨codes, hcodes, rfl⟩ := select_eq_ok.mp h
  exact (aligns_of_selectsAll hcodes).invokes

end MethodContext

end JavaMinus.Jvm
