import JavaMinus.Jvm.StackDepth
import JavaMinus.Proofs.Jvm.Pieces

/-!
# Heights of the stack in selected code

Selected code never asks for more cells than the stack has, and comes to every label with one height,
whatever three-address code it was selected from: the operands need not fit their instructions
(`select_heights`). So computing the greatest height of selected code fails for one reason only, that
the height passes the limit of the class format (`maxStack_of_select`).

Three-address code may place labels of its own. It must not place, or jump to, a label at which
selection keeps the result of a comparison on the stack.
-/

namespace JavaMinus.Jvm

open Tac

/-- The cells that a receiver takes: a static call has none. -/
def InvokeKind.receiverCells : InvokeKind → Nat
  | .static => 0
  | .virtual | .special => 1

namespace Instr

/-- The cells that an instruction takes off the stack. -/
def pops : Instr → Nat
  | .load .. | .const _ | .new _ | .goto _ | .label _ | .ret none => 0
  | .store .. | .dup | .pop | .getField .. | .newArray _ | .newRefArray _ | .arrayLength
  | .ifTrue _ | .ret (some _) => 1
  | .putField .. | .arrayLoad _ | .arith _ | .ifInts .. | .ifRefs .. => 2
  | .arrayStore _ => 3
  | .invoke kind _ _ _ argCount _ => argCount + kind.receiverCells

/-- The cells that an instruction puts on the stack. -/
def pushes : Instr → Nat
  | .load .. | .const _ | .new _ | .getField .. | .newArray _ | .newRefArray _ | .arrayLength
  | .arrayLoad _ | .arith _ => 1
  | .dup => 2
  | .invoke _ _ _ _ _ returnsValue => returnsValue.toNat
  | _ => 0

/-- The change of the height is what is put on the stack less what is taken off. -/
theorem effect_eq (i : Instr) : i.effect = i.pushes - i.pops := by
  cases i with
  | invoke kind owner name descriptor argCount returnsValue =>
    have result : (if returnsValue then 1 else 0 : Int) = returnsValue.toNat := by
      cases returnsValue <;> rfl
    have receiver : (if kind = .static then 0 else 1 : Int) = kind.receiverCells := by
      cases kind <;> rfl
    show (if returnsValue then 1 else 0) - (argCount : Int) - (if kind = .static then 0 else 1)
      = (returnsValue.toNat : Int) - ((argCount + kind.receiverCells : Nat) : Int)
    rw [result, receiver]
    omega
  | ret kind => cases kind <;> rfl
  | _ => rfl

end Instr

/-- An instruction takes a stack of one height to one of another, if it finds the cells it needs. -/
def Height (i : Instr) (a b : Nat) : Prop := i.pops ≤ a ∧ b + i.pops = a + i.pushes

theorem lawful_height : LawfulEffect Height where
  label h := h.2
  unique h h' := by
    have := h.2
    have := h'.2
    omega

/-- The height at a label of selected code. -/
noncomputable def heightAt : String → Nat := shapeAt 0 1

namespace MethodContext

variable {x : MethodContext} {n a : Nat} {code : List Instr}

theorem Loads.height {o : Operand} (h : x.Loads o code) : Straight Height a code (a + 1) := by
  induction h generalizing a with
  | element _ _ _ iha ihi =>
    exact (iha.append ihi).append (.single rfl rfl rfl ⟨Nat.le_add_left 2 a, rfl⟩)
  | _ => exact .single rfl rfl rfl ⟨Nat.zero_le a, rfl⟩

theorem LoadsAll.height {os : List Operand} (h : x.LoadsAll os code) :
    Straight Height a code (a + os.length) := by
  induction h generalizing a with
  | nil => exact .nil a
  | cons first _ ih =>
    rw [List.length_cons, Nat.add_comm _ 1, ← Nat.add_assoc]
    exact first.height.append ih

theorem Stores.height {dest : Operand} (h : x.Stores dest code) : Straight Height 1 code 0 := by
  obtain ⟨-, -, -⟩ := h
  exact .single rfl rfl rfl ⟨Nat.le_refl 1, rfl⟩

theorem Receives.height {kind : CallKind} {on : Operand} {invoke : InvokeKind} {owner : String}
    (h : x.Receives kind on invoke owner code) :
    Straight Height 0 code invoke.receiverCells := by
  cases h with
  | super h => exact h.height
  | static => exact .nil 0
  | virtual _ _ h => exact h.height

theorem Finishes.height {dest : Option Operand} {returns : Bool}
    (h : x.Finishes dest returns code) : Straight Height returns.toNat code 0 := by
  cases h with
  | stored h => exact h.height
  | dropped => exact .single rfl rfl rfl ⟨Nat.le_refl 1, rfl⟩
  | nothing => exact .nil 0

/-- A comparison takes two cells and goes on to the next instruction or to its label. -/
theorem height_of_comparesBy {op : BinaryOp} {left right : Ty} {target : String} {jump : Instr}
    (h : ComparesBy op left right target jump) : jump.isLabel = false ∧
      jump.target? = some target ∧ jump.isTerminator = false ∧ Height jump 2 0 := by
  cases h <;> exact ⟨rfl, rfl, rfl, Nat.le_refl 2, rfl⟩

/-- A piece whose labels are its own is passed from an empty stack to an empty stack, and leads to each
of its labels. -/
theorem Selects.height {p : Piece} (h : x.Selects n p code)
    (hl : ∀ i name, p = .instr i → i.target? = some name ∨ i.label? = some name →
      IsPlainLabel name) : SelfContained Height 0 heightAt code := by
  cases h with
  | assign hv hs => exact (hv.height.append hs.height).selfContained
  | @binary dest left right op l r o s hleft hr ho hs =>
    have two := (hleft.height (a := 0)).append hr.height
    cases ho with
    | @arith a _ _ =>
      have one : Straight Height 2 [.arith a] 1 := .single rfl rfl rfl ⟨Nat.le_refl 2, rfl⟩
      exact ((two.append one).append hs.height).selfContained
    | @compare jump _ hj =>
      obtain ⟨plain, target, falls, tests⟩ := height_of_comparesBy hj
      exact two.selfContained_compare plain target falls tests (fun _ => ⟨Nat.zero_le 0, rfl⟩)
        ⟨Nat.zero_le 1, rfl⟩ ⟨Nat.le_refl 0, rfl⟩ hs.height
  | not hv hs =>
    have flips : Straight Height 1 [.const 1, .arith .xor] 1 :=
      .cons rfl rfl rfl ⟨Nat.zero_le 1, rfl⟩ (.single rfl rfl rfl ⟨Nat.le_refl 2, rfl⟩)
    exact ((hv.height.append flips).append hs.height).selfContained
  | @call _ _ _ _ args ty invoke _ _ _ _ _ ho ha _ _ hf =>
    refine ((ho.height.append ha.height).append (.cons rfl rfl rfl ⟨?_, ?_⟩ hf.height)).selfContained
    · show args.length + invoke.receiverCells ≤ _
      omega
    · show (!ty.isVoid).toNat + (args.length + invoke.receiverCells)
        = invoke.receiverCells + args.length + (!ty.isVoid).toNat
      omega
  | newArray hn ha hs =>
    refine (hn.height.append ?_).selfContained
    cases ha <;> exact .cons rfl rfl rfl ⟨Nat.le_refl 1, rfl⟩ hs.height
  | arrayLength ha hs =>
    exact (ha.height.append (.cons rfl rfl rfl ⟨Nat.le_refl 1, rfl⟩ hs.height)).selfContained
  | arrayStore _ ha hi hv =>
    exact (((ha.height.append hi.height).append hv.height).append
      (.single rfl rfl rfl ⟨Nat.le_refl 3, rfl⟩)).selfContained
  | fieldRead ho _ hs =>
    exact (ho.height.append (.cons rfl rfl rfl ⟨Nat.le_refl 1, rfl⟩ hs.height)).selfContained
  | fieldWrite ho hv _ =>
    exact ((ho.height.append hv.height).append (.single rfl rfl rfl ⟨Nat.le_refl 2, rfl⟩)).selfContained
  | retNone =>
    exact (Straight.nil 0).selfContained_last rfl ⟨Nat.le_refl 0, rfl⟩ fun _ h => by cases h
  | ret _ hv => exact hv.height.selfContained_last rfl ⟨Nat.le_refl 1, rfl⟩ fun _ h => by cases h
  | compare hleft hr hj =>
    obtain ⟨plain, target, -, tests⟩ := height_of_comparesBy hj
    refine (hleft.height.append hr.height).selfContained_last plain tests fun name hn => ?_
    rw [target] at hn
    exact shapeAt_plain (hl _ name rfl (.inl hn))
  | truthy hv =>
    refine hv.height.selfContained_last rfl ⟨Nat.le_refl 1, rfl⟩ fun name hn => ?_
    exact shapeAt_plain (hl _ name rfl (.inl hn))
  | jump target =>
    refine (Straight.nil 0).selfContained_last rfl ⟨Nat.le_refl 0, rfl⟩ fun name hn => ?_
    exact shapeAt_plain (hl _ name rfl (.inl hn))
  | label name => exact selfContained_label (shapeAt_plain (hl _ name rfl (.inr rfl)))
  | newObject hs =>
    exact (Straight.cons rfl rfl rfl ⟨Nat.zero_le 0, rfl⟩ (.cons rfl rfl rfl ⟨Nat.le_refl 1, rfl⟩
      (.cons rfl rfl rfl ⟨Nat.le_succ 1, rfl⟩ hs.height))).selfContained

/-- Three-address code whose labels are its own is selected to code of sound heights. -/
theorem select_heights {body : List Tac.Instr} (h : x.select body = .ok code)
    (hl : ∀ i ∈ body, ∀ name, i.target? = some name ∨ i.label? = some name → IsPlainLabel name) :
    ∃ there, Idle 0 there ∧ Flow Height 0 heightAt (some 0) code there := by
  obtain ⟨codes, hc, rfl⟩ := select_eq_ok.mp h
  refine Passes.of_pieces hc (fun p hp n code hs => (hs.height ?_).passes) _ (idle_some 0)
  rintro i name rfl hi
  exact hl i (mem_pieces hp) name hi

end MethodContext

/-! ## The greatest height -/

namespace DepthScan

/-- The scan knows only heights that the pass has: the one here, and those of labels. -/
structure Agrees (shapes : String → Nat) (here : Option Nat) (s : DepthScan) : Prop where
  height : s.height = here.map Int.ofNat
  labels : ∀ (name : String) (v : Int), s.labels[name]? = some v → v = shapes name

variable {shapes : String → Nat} {here there : Option Nat} {s : DepthScan}

/-- A scan starts with an empty stack. -/
theorem Agrees.empty : ({} : DepthScan).Agrees shapes (some 0) :=
  ⟨rfl, fun name v hv => by simp at hv⟩

theorem step_of_plain {i : Instr} (plain : i.isLabel = false) : s.step i = s.atInstr i := by
  cases i <;> first | rfl | cases plain

/-- Where the pass has no height, the scan goes past instructions as it is. -/
theorem Agrees.step_of_unreached {i : Instr} (h : s.Agrees shapes none) (plain : i.isLabel = false) :
    s.step i = .ok s := by
  rw [step_of_plain plain, DepthScan.atInstr, h.height]
  rfl

/-- A scan goes on from what its first step leads to. -/
theorem run_of_step {s' : DepthScan} {i : Instr} (h : s.step i = .ok s') (rest : List Instr) :
    s.run (i :: rest) = s'.run rest := by
  rw [run, h]

theorem Agrees.insert {name : String} {v : Int} (h : s.Agrees shapes here) (hv : v = shapes name)
    (other : String) (w : Int) (hw : (s.labels.insert name v)[other]? = some w) :
    w = shapes other := by
  rw [Std.HashMap.getElem?_insert] at hw
  split at hw
  · next heq =>
    obtain rfl : name = other := by simpa using heq
    cases hw
    exact hv
  · exact h.labels other w hw

/-- Where the pass goes through a label, so does the scan. -/
theorem Agrees.atLabel {name : String} (h : s.Agrees shapes here)
    (hh : here = some (shapes name) ∨ (here = none ∧ shapes name = 0)) :
    ∃ s', s.atLabel name = .ok s' ∧ s'.Agrees shapes (some (shapes name)) := by
  have hheight := h.height
  unfold DepthScan.atLabel
  rcases hh with rfl | ⟨rfl, hzero⟩
  · rw [hheight]
    cases hrec : s.labels[name]? with
    | none => exact ⟨_, rfl, rfl, h.insert rfl⟩
    | some recorded =>
      have hrec := h.labels name recorded hrec
      dsimp only [Option.map_some]
      rw [if_pos (by rw [hrec]; rfl)]
      exact ⟨_, rfl, rfl, h.insert rfl⟩
  · rw [hheight]
    cases hrec : s.labels[name]? with
    | none => exact ⟨_, rfl, by rw [hzero]; rfl, h.insert (by rw [hzero]; rfl)⟩
    | some recorded =>
      have hrec := h.labels name recorded hrec
      exact ⟨_, rfl, by rw [hrec]; rfl, h.insert hrec⟩

/-- Where the pass goes through an instruction, so does the scan. -/
theorem Agrees.atInstr {i : Instr} {a b : Nat} (h : s.Agrees shapes (some a)) (hi : Height i a b)
    (target : ∀ name, i.target? = some name → shapes name = b) :
    ∃ s', s.atInstr i = .ok s' ∧
      s'.Agrees shapes (if i.isTerminator then none else some b) := by
  have hheight := h.height
  have hnext : (a : Int) + i.effect = b := by
    rw [i.effect_eq]
    have := hi.1
    have := hi.2
    omega
  unfold DepthScan.atInstr
  rw [hheight]
  dsimp only [Option.map_some, Int.ofNat_eq_natCast]
  rw [hnext, if_neg (by omega)]
  refine ⟨_, rfl, ?_, fun name v hv => ?_⟩
  · cases i.isTerminator <;> rfl
  · cases ht : i.target? with
    | none =>
      rw [ht] at hv
      exact h.labels name v hv
    | some jump =>
      rw [ht] at hv
      dsimp only at hv
      rw [Std.HashMap.getElem?_insertIfNew] at hv
      split at hv
      · next heq =>
        obtain rfl : jump = name := by simpa using heq.1
        cases hv
        rw [target jump ht]
      · exact h.labels name v hv

/-- A pass over heights makes the scan succeed, and they agree at the end. -/
theorem run_of_flow {code : List Instr} (hf : Flow Height 0 shapes here code there)
    (h : s.Agrees shapes here) : ∃ s', s.run code = .ok s' ∧ s'.Agrees shapes there := by
  induction hf generalizing s with
  | nil here => exact ⟨s, rfl, h⟩
  | label tail ih =>
    obtain ⟨s', hs, ha⟩ := h.atLabel (.inl rfl)
    obtain ⟨last, hl, ends⟩ := ih ha
    exact ⟨last, (run_of_step (i := .label _) hs _).trans hl, ends⟩
  | unreached atStart tail ih =>
    obtain ⟨s', hs, ha⟩ := h.atLabel (.inr ⟨rfl, atStart⟩)
    obtain ⟨last, hl, ends⟩ := ih ha
    exact ⟨last, (run_of_step (i := .label _) hs _).trans hl, ends⟩
  | instr plain steps target tail ih =>
    obtain ⟨s', hs, ha⟩ := h.atInstr steps target
    obtain ⟨last, hl, ends⟩ := ih ha
    exact ⟨last, (run_of_step ((step_of_plain plain).trans hs) _).trans hl, ends⟩
  | skip plain steps tail ih =>
    obtain ⟨last, hl, ends⟩ := ih h
    exact ⟨last, (run_of_step (h.step_of_unreached plain) _).trans hl, ends⟩

end DepthScan

/-- The greatest height of selected code is found, unless it passes the limit. -/
theorem maxStack_of_select {x : MethodContext} {body : List Tac.Instr} {code : List Instr}
    (h : x.select body = .ok code)
    (hl : ∀ i ∈ body, ∀ name, i.target? = some name ∨ i.label? = some name → IsPlainLabel name) :
    (∃ n, maxStack code = .ok n) ∨ maxStack code = .error .stackTooDeep := by
  obtain ⟨there, -, hf⟩ := x.select_heights h hl
  obtain ⟨s, hs, -⟩ := DepthScan.run_of_flow (s := {}) hf .empty
  unfold maxStack
  rw [hs]
  dsimp only
  split
  · exact .inl ⟨_, rfl⟩
  · exact .inr rfl

end JavaMinus.Jvm
