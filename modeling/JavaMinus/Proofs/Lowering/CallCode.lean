import JavaMinus.Lowering.Expr

/-!
# The parts of a call

The code of a call is that of its receiver and of its arguments, then that of an array for what is
passed to a varargs parameter (`Lower.pass`), then the call itself (`Lower.invoke`). What holds of all
code is proved for these parts one by one, and follows for the whole from `Lower.callCode_eq`.
-/

namespace JavaMinus.Lower

open Tac

/-- A call of a method declared here packs what is passed for a varargs parameter. -/
def pass (s : Scope) (target : CallTarget) (method : String) (values : List Operand) :
    Lower (List Operand) :=
  match target with
  | .declared m => packVarargs s m method values
  | _ => pure values

/-- The call itself. Its result goes into a temporary where the site uses it and the call has one. -/
def invoke (site : Site) (method : String) (target : CallTarget) (on : Operand)
    (values : List Operand) : Lower (Option Operand) := do
  if site.consumesValue && !(target.resultType site).isVoid then do
    let dest ← fresh (target.resultType site)
    emit (.call (some dest) (callKind target) on method values (target.resultType site))
    return some dest
  else do
    emit (.call none (callKind target) on method values (target.resultType site))
    return none

variable {s : Scope} (site : Site) (method : String) (object : Lower Operand)
  (args : (Nat → Site) → Lower (List Operand))

theorem callCode_eq (target : Except TypeError CallTarget) :
    callCode s site method target object args = (do
      let target ← ofTyping target
      let on ← receiver s target object
      let values ← args target.argumentSite
      let passed ← pass s target method values
      invoke site method target on passed) := by
  refine congrArg (ofTyping target >>= ·) (funext fun target => ?_)
  cases target <;> rfl

/-- The code of a call whose target is known. -/
theorem callCode_ok (target : CallTarget) :
    callCode s site method (.ok target) object args = (do
      let on ← receiver s target object
      let values ← args target.argumentSite
      let passed ← pass s target method values
      invoke site method target on passed) := by
  rw [callCode_eq, ofTyping_ok, pure_bind]

end JavaMinus.Lower
