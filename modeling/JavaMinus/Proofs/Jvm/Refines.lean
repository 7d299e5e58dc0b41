import JavaMinus.Jvm.Assembly
import JavaMinus.Proofs.Jvm.Aligns
import JavaMinus.Proofs.Jvm.Simulates

/-!
# Selected code refines three-address code

Every run of a method's three-address code that returns is a run of the code selected for it: it
returns the same value, makes the same calls and leaves the same heap (`Refines`). The simulation goes
piece by piece. Between pieces the two codes are at corresponding indices and in mirrored states;
inside an allocation, where three-address code has made one of two steps, selected code has not
started yet (`Matches`).
-/

namespace JavaMinus

open JavaMinus.Runtime

namespace Tac

/-- Constructor calls behind an allocation of their object are those that an allocation makes: the
constructor has no arguments and no result. -/
def Method.InitialisesPlainly (m : Method) : Prop :=
  ∀ (n : Nat) (dest : Operand) (className : String) (i : Instr),
    m.code[n]? = some (.newObject dest className) → m.code[n + 1]? = some i →
      Jvm.initialises dest i = true →
        ∃ result on ty, i = .call result .constructor on constructorName [] ty ∧ ty.isVoid = true

/-- One step, or two for an allocation and its constructor call. -/
inductive PieceStep (M : Machine Instr State) : Nat × State → Nat × State → Prop
  | instr {c d : Nat × State} (other : ∀ dest className, M.code[c.1]? ≠ some (.newObject dest className))
      (step : M.Step c d) : PieceStep M c d
  | allocation {c d e : Nat × State} {dest : Operand} {className : String}
      (here : M.code[c.1]? = some (.newObject dest className)) (first : M.Step c d)
      (second : M.Step d e) : PieceStep M c e

end Tac

namespace Jvm.MethodContext

open Tac Machine

/-- From two indices on, code is what was selected from a body. -/
structure Corresponds (x : MethodContext) (body : List Tac.Instr) (code : List Instr) (i j : Nat) :
    Prop where
  within : j ≤ code.length
  aligned : ∃ n, x.Aligns n (body.drop i) (code.drop j)

/-- Code does what a method does, piece by piece and run by run. -/
structure Refines (x : MethodContext) (w : World) (m : Method) (code : List Instr) : Prop where
  /-- The code starts with what was selected from the first instruction. -/
  start : x.Corresponds m.code code 0 0
  /-- Every state of three-address code is mirrored. -/
  mirrored : ∀ s, ∃ t, x.Rests s t
  /-- Behind a piece the codes are again at corresponding indices and in mirrored states. -/
  piece : ∀ {c d : Nat × Tac.State} {j : Nat} {t : State}, x.Corresponds m.code code c.1 j →
    x.Rests c.2 t → PieceStep (codeMachine w x.setting m.code) c d →
      ∃ l t', (machine w code).Steps (j, t) (l, t') ∧ x.Corresponds m.code code d.1 l ∧ x.Rests d.2 t'
  /-- A return is one of the same value. -/
  returns : ∀ {c : Nat × Tac.State} {j : Nat} {t : State} {value : Option Value} {s' : Tac.State},
    x.Corresponds m.code code c.1 j → x.Rests c.2 t →
      (codeMachine w x.setting m.code).Returns c value s' →
        ∃ t', (machine w code).RunsTo (j, t) value t' ∧ x.Rests s' t'
  /-- A run of the code from the start has the result of the run of the method. -/
  runs : ∀ {s s' : Tac.State} {t : State} {value : Option Value}, x.Rests s t →
    (codeMachine w x.setting m.code).RunsTo (0, s) value s' →
      ∃ t', t'.memory = s'.memory ∧
        ∀ v u, (machine w code).RunsTo (0, t) v u ↔ v = value ∧ u = t'

variable {x : MethodContext} {w : World} {m : Method} {code : List Instr} {i j : Nat}
  {s s' : Tac.State} {t : State}

/-- Some state of the machine mirrors each state of three-address code. -/
theorem exists_rests (hs : x.slots.Sound (SlotTable.firstSlot x.isStatic)) (s : Tac.State) :
    ∃ t, x.Rests s t := by
  classical
  let locals : Nat → Option Value := fun n =>
    if h : ∃ key : SlotKey, x.slots.slots[key]? = some n then s.vars h.choose
    else s.self.map fun a => Value.ref (some a)
  refine ⟨{ locals, memory := s.memory }, ⟨⟨fun {key n} hkey => ?_, fun hstatic => ?_, rfl⟩, rfl⟩⟩
  · have h : ∃ key : SlotKey, x.slots.slots[key]? = some n := ⟨key, hkey⟩
    have hsame : h.choose = key := hs.injective h.choose_spec hkey
    show locals n = s.vars key
    rw [← hsame]
    exact dif_pos h
  · have h : ¬ ∃ key : SlotKey, x.slots.slots[key]? = some 0 := by
      rintro ⟨key, hkey⟩
      have hbase := hs.base_le hkey
      rw [SlotTable.firstSlot, hstatic] at hbase
      cases hbase
    exact dif_neg h

/-! ## Corresponding indices -/

/-- Code from an index on, cut behind its first part. -/
theorem cut_of_drop {c rest : List Instr} (h : code.drop j = c ++ rest) :
    code = code.take j ++ c ++ rest ∧ code.drop (j + c.length) = rest := by
  constructor
  · rw [List.append_assoc, ← h, List.take_append_drop]
  · rw [← List.drop_drop, h, List.drop_left]

section
variable {body : List Tac.Instr} {n : Nat} {back : List Instr}

theorem Aligns.instr_inv {k : Tac.Instr} (h : x.Aligns n (k :: body) back)
    (other : ∀ dest className, k ≠ .newObject dest className) :
    ∃ c rest n', x.Selects n (.instr k) c ∧ back = c ++ rest ∧ x.Aligns n' body rest := by
  cases h with
  | instr here behind => exact ⟨_, _, _, here, rfl, behind⟩
  | allocation => exact absurd rfl (other _ _)

theorem Aligns.allocation_inv {dest : Operand} {className : String}
    (h : x.Aligns n (.newObject dest className :: body) back) :
    ∃ k body' c rest n', body = k :: body' ∧ initialises dest k = true ∧
      x.Selects n (.newObject dest className) c ∧ back = c ++ rest ∧ x.Aligns n' body' rest := by
  cases h with
  | instr here _ => cases here
  | allocation here init behind => exact ⟨_, _, _, _, _, rfl, init, here, rfl, behind⟩

/-- An instruction corresponds to its code. -/
theorem Corresponds.instr (h : x.Corresponds body code i j) {k : Tac.Instr} (hi : body[i]? = some k)
    (other : ∀ dest className, k ≠ .newObject dest className) :
    ∃ n c rest, x.Selects n (.instr k) c ∧ code = code.take j ++ c ++ rest ∧
      x.Corresponds body code (i + 1) (j + c.length) := by
  obtain ⟨within, n, aligned⟩ := h
  obtain ⟨hlt, hk⟩ := List.getElem?_eq_some_iff.mp hi
  rw [List.drop_eq_getElem_cons hlt, hk] at aligned
  obtain ⟨c, rest, n', here, hback, behind⟩ := aligned.instr_inv other
  obtain ⟨hcut, hdrop⟩ := cut_of_drop hback
  refine ⟨n, c, rest, here, hcut, ?_, n', by rw [hdrop]; exact behind⟩
  have hlen := congrArg List.length hback
  rw [List.length_drop, List.length_append] at hlen
  omega

/-- An allocation and the constructor call behind it correspond to their code. -/
theorem Corresponds.allocation (h : x.Corresponds body code i j) {dest : Operand} {className : String}
    (hi : body[i]? = some (.newObject dest className)) :
    ∃ k n c rest, body[i + 1]? = some k ∧ initialises dest k = true ∧
      x.Selects n (.newObject dest className) c ∧ code = code.take j ++ c ++ rest ∧
        x.Corresponds body code (i + 2) (j + c.length) := by
  obtain ⟨within, n, aligned⟩ := h
  obtain ⟨hlt, hk⟩ := List.getElem?_eq_some_iff.mp hi
  rw [List.drop_eq_getElem_cons hlt, hk] at aligned
  obtain ⟨k, body', c, rest, n', hbody, init, here, hback, behind⟩ := aligned.allocation_inv
  obtain ⟨hcut, hdrop⟩ := cut_of_drop hback
  have hnext : body[i + 1]? = some k := by
    rw [← Nat.add_zero (i + 1), ← List.getElem?_drop, hbody]
    rfl
  have hbehind : body.drop (i + 2) = body' := by
    rw [← List.drop_drop (i := 1) (j := i + 1), hbody]
    rfl
  refine ⟨k, n, c, rest, hnext, init, here, hcut, ?_, n', by rw [hdrop, hbehind]; exact behind⟩
  have hlen := congrArg List.length hback
  rw [List.length_drop, List.length_append] at hlen
  omega

end

/-! ## The simulation -/

/-- Code that was selected from a method whose labels stay apart. -/
structure Selected (x : MethodContext) (m : Method) (code : List Instr) : Prop where
  sound : x.slots.Sound (SlotTable.firstSlot x.isStatic)
  aligned : x.Aligns 0 m.code code
  once : (Tac.labelsOf m.code).Nodup
  plain : ∀ name ∈ Tac.labelsOf m.code, ∀ k, name ∉ comparisonLabels k
  plainly : m.InitialisesPlainly

theorem Selected.labels_nodup (h : x.Selected m code) : (labelsOf code).Nodup :=
  h.aligned.labels_nodup h.once h.plain

/-- A label that the method places is found in the code, at the corresponding index. -/
theorem Selected.place (h : x.Selected m code) {name : String} {k : Nat}
    (hk : (codeMachine w x.setting m.code).place? name = some k) :
    ∃ l, (machine w code).place? name = some l ∧ x.Corresponds m.code code k l := by
  have placed : m.code[k]? = some (.label name) := by
    obtain ⟨hlt, hlabel, -⟩ := List.idxOf?_eq_some_iff.mp hk
    exact List.getElem?_eq_some_iff.mpr ⟨hlt, hlabel⟩
  obtain ⟨l, n, hl, aligned⟩ := h.aligned.at_label placed
  have within : l ≤ code.length := Nat.le_of_lt (List.getElem?_eq_some_iff.mp hl).1
  exact ⟨l, idxOf?_label h.labels_nodup hl, within, n, aligned⟩

/-- Labels in a part of the code are found there. -/
theorem Selected.place_in (h : x.Selected m code) {before part rest : List Instr}
    (hcut : code = before ++ part ++ rest) {k : Nat} {name : String} (hk : part[k]? = some (.label name)) :
    (machine w code).place? name = some (before.length + k) := by
  refine idxOf?_label h.labels_nodup ?_
  rw [hcut, List.append_assoc, List.getElem?_append_right (Nat.le_add_right _ _),
    Nat.add_sub_cancel_left, List.getElem?_append_left (List.getElem?_eq_some_iff.mp hk).1]
  exact hk

/-- What an instruction does, its code does. -/
theorem Selected.instr_does (h : x.Selected m code) (hc : x.Corresponds m.code code i j)
    (hr : x.Rests s t) {k : Tac.Instr} {a : Action Tac.State} (hi : m.code[i]? = some k)
    (other : ∀ dest className, k ≠ .newObject dest className)
    (acts : k.act w x.setting s = some a) :
    ∃ l b, x.Corresponds m.code code (i + 1) l ∧ a.Like x.Rests b ∧
      (machine w code).Does (j, t) l b := by
  obtain ⟨n, c, rest, here, hcut, behind⟩ := hc.instr hi other
  obtain ⟨b, like, does⟩ := here.does (M := machine w code) h.sound hr acts rfl hcut
    fun _ _ hk => h.place_in hcut hk
  rw [List.length_take_of_le hc.within] at does
  exact ⟨_, b, behind, like, does⟩

/-- A step of an instruction that is no allocation. -/
theorem Selected.step (h : x.Selected m code) {c d : Nat × Tac.State}
    (hc : x.Corresponds m.code code c.1 j) (hr : x.Rests c.2 t)
    (other : ∀ dest className, m.code[c.1]? ≠ some (.newObject dest className))
    (step : (codeMachine w x.setting m.code).Step c d) :
    ∃ l t', (machine w code).Steps (j, t) (l, t') ∧ x.Corresponds m.code code d.1 l ∧
      x.Rests d.2 t' := by
  cases step with
  | @next i k s s' here acts =>
    have other' : ∀ dest className, k ≠ .newObject dest className := by
      rintro dest className rfl
      exact other dest className here
    obtain ⟨l, b, behind, like, does⟩ := h.instr_does hc hr here other' acts
    cases like with
    | next states => exact ⟨l, _, does, behind, states⟩
  | @jump i target k s s' name here acts placed =>
    have other' : ∀ dest className, k ≠ .newObject dest className := by
      rintro dest className rfl
      exact other dest className here
    obtain ⟨l, b, -, like, does⟩ := h.instr_does hc hr here other' acts
    cases like with
    | jump _ states =>
      obtain ⟨l', hl', there⟩ := h.place (w := w) placed
      exact ⟨l', _, does l' hl', there, states⟩

/-- The two steps of an allocation and its constructor call. -/
theorem Selected.allocation (h : x.Selected m code) {c d e : Nat × Tac.State}
    (hc : x.Corresponds m.code code c.1 j) (hr : x.Rests c.2 t) {dest : Operand} {className : String}
    (here : m.code[c.1]? = some (.newObject dest className))
    (first : (codeMachine w x.setting m.code).Step c d) (second : (codeMachine w x.setting m.code).Step d e) :
    ∃ l t', (machine w code).Steps (j, t) (l, t') ∧ x.Corresponds m.code code e.1 l ∧
      x.Rests e.2 t' := by
  obtain ⟨k, n, c', rest, hnext, init, selects, hcut, behind⟩ := hc.allocation here
  obtain ⟨result, on, ty, rfl, hvoid⟩ := h.plainly _ _ _ _ here hnext init
  cases first with
  | @next i k s s₁ here' acts =>
    have hk : k = .newObject dest className := Option.some.inj (here'.symm.trans here)
    subst hk
    cases second with
    | @next _ k _ s₂ there acts' =>
      have hk := Option.some.inj (there.symm.trans hnext)
      subst hk
      obtain ⟨s₃, hcall, hact⟩ : ∃ s₃, s₁.call w x.setting result .constructor on constructorName []
          ty = some s₃ ∧ Action.next s₃ = Action.next s₂ := by
        simpa [codeMachine, Tac.Instr.act, Option.bind_eq_some_iff] using acts'
      cases hact
      obtain ⟨t', hrun, hr'⟩ := newObject_runs selects h.sound hr init hvoid acts hcall
      have steps := steps_of_runAll (m := machine w code) hcut hrun
      rw [List.length_take_of_le hc.within] at steps
      exact ⟨_, t', steps, behind, hr'⟩
    | jump there acts' _ =>
      have hk := Option.some.inj (there.symm.trans hnext)
      subst hk
      simp [codeMachine, Tac.Instr.act, Option.bind_eq_some_iff] at acts'
  | jump here' acts _ =>
    have hk := Option.some.inj (here'.symm.trans here)
    subst hk
    simp [codeMachine, Tac.Instr.act, Option.bind_eq_some_iff] at acts

/-- A piece of three-address code is followed by its code. -/
theorem Selected.piece (h : x.Selected m code) {c d : Nat × Tac.State}
    (hc : x.Corresponds m.code code c.1 j) (hr : x.Rests c.2 t)
    (step : PieceStep (codeMachine w x.setting m.code) c d) :
    ∃ l t', (machine w code).Steps (j, t) (l, t') ∧ x.Corresponds m.code code d.1 l ∧
      x.Rests d.2 t' := by
  cases step with
  | instr other step => exact h.step hc hr other step
  | allocation here first second => exact h.allocation hc hr here first second

theorem Selected.returns (h : x.Selected m code) {c : Nat × Tac.State} {value : Option Value}
    (hc : x.Corresponds m.code code c.1 j) (hr : x.Rests c.2 t)
    (returns : (codeMachine w x.setting m.code).Returns c value s') :
    ∃ t', (machine w code).RunsTo (j, t) value t' ∧ x.Rests s' t' := by
  cases returns with
  | @intro i k s _ _ here acts =>
    have other : ∀ dest className, k ≠ .newObject dest className := by
      rintro dest className rfl
      simp [codeMachine, Tac.Instr.act, Option.bind_eq_some_iff] at acts
    obtain ⟨l, b, -, like, does⟩ := h.instr_does hc hr here other acts
    cases like with
    | ret _ states => exact ⟨_, does, states⟩

/-- Where the two machines are together: between pieces, or with the first machine inside an
allocation, which the second one has not started. -/
inductive Matches (x : MethodContext) (w : World) (m : Method) (code : List Instr) :
    Nat × Tac.State → Nat × State → Prop
  | between {i j : Nat} {s : Tac.State} {t : State} (indices : x.Corresponds m.code code i j)
      (states : x.Rests s t) : Matches x w m code (i, s) (j, t)
  | inside {c d : Nat × Tac.State} {j : Nat} {t : State} {dest : Operand} {className : String}
      (indices : x.Corresponds m.code code c.1 j) (states : x.Rests c.2 t)
      (here : m.code[c.1]? = some (.newObject dest className))
      (step : (codeMachine w x.setting m.code).Step c d) : Matches x w m code d (j, t)

/-- Every step keeps the machines together. -/
theorem Matches.step (h : x.Selected m code) {c d : Nat × Tac.State} {e : Nat × State}
    (hm : x.Matches w m code c e) (step : (codeMachine w x.setting m.code).Step c d) :
    ∃ e', (machine w code).Steps e e' ∧ x.Matches w m code d e' := by
  cases hm with
  | @between i j s t indices states =>
    by_cases allocates : ∃ dest className, m.code[i]? = some (.newObject dest className)
    · obtain ⟨dest, className, here⟩ := allocates
      exact ⟨_, .refl, .inside (c := (i, s)) indices states here step⟩
    · have other : ∀ dest className, m.code[i]? ≠ some (.newObject dest className) :=
        fun dest className here => allocates ⟨dest, className, here⟩
      obtain ⟨l, t', steps, indices, states⟩ := h.step (c := (i, s)) indices states other step
      exact ⟨_, steps, .between indices states⟩
  | inside indices states here first =>
    obtain ⟨l, t', steps, indices, states⟩ := h.allocation indices states here first step
    exact ⟨_, steps, .between indices states⟩

/-- Where the first machine returns, the second one comes to return the same. -/
theorem Matches.returns (h : x.Selected m code) {c : Nat × Tac.State} {e : Nat × State}
    {value : Option Value} (hm : x.Matches w m code c e)
    (returns : (codeMachine w x.setting m.code).Returns c value s') :
    ∃ t', (machine w code).RunsTo e value t' ∧ x.Rests s' t' := by
  cases hm with
  | between indices states => exact h.returns indices states returns
  | @inside c _ j t dest className indices states here step =>
    -- What is behind an allocation is a call, which does not return from the method.
    obtain ⟨k, -, -, -, hnext, init, -⟩ := indices.allocation here
    obtain ⟨result, on, ty, rfl, -⟩ := h.plainly _ _ _ _ here hnext init
    cases step with
    | next here' acts =>
      cases returns with
      | intro there acts' =>
        have hk := Option.some.inj (there.symm.trans hnext)
        subst hk
        simp [codeMachine, Tac.Instr.act, Option.bind_eq_some_iff] at acts'
    | jump here' acts _ =>
      have hk := Option.some.inj (here'.symm.trans here)
      subst hk
      simp [codeMachine, Tac.Instr.act, Option.bind_eq_some_iff] at acts

/-- A run goes along with a run of the selected code. -/
theorem Matches.runs (h : x.Selected m code) {c : Nat × Tac.State} {e : Nat × State}
    {value : Option Value} (hm : x.Matches w m code c e)
    (runs : (codeMachine w x.setting m.code).RunsTo c value s') :
    ∃ t', (machine w code).RunsTo e value t' ∧ x.Rests s' t' := by
  obtain ⟨d, steps, returns⟩ := runs
  induction steps using Relation.ReflTransGen.head_induction_on generalizing e with
  | refl => exact hm.returns h returns
  | head step _ ih =>
    obtain ⟨e', steps, hm'⟩ := hm.step h step
    obtain ⟨t', runs, hr⟩ := ih hm'
    exact ⟨t', .of_steps steps runs, hr⟩

/-- Selected code does what its method does. -/
theorem Selected.refines (h : x.Selected m code) (w : World) : x.Refines w m code where
  start := ⟨Nat.zero_le _, 0, h.aligned⟩
  mirrored := exists_rests h.sound
  piece := h.piece
  returns := h.returns
  runs := by
    intro s s' t value hr runs
    have hm : x.Matches w m code (0, s) (0, t) := .between ⟨Nat.zero_le _, 0, h.aligned⟩ hr
    obtain ⟨t', runs', hr'⟩ := hm.runs h runs
    refine ⟨t', hr'.memory, fun v u => ⟨fun hu => hu.unique runs', ?_⟩⟩
    rintro ⟨rfl, rfl⟩
    exact runs'

end Jvm.MethodContext

namespace Tac.ClassUnit

open Jvm

/-- The code of a method refines its three-address code, whatever the classes around it do. Labels
are placed once and are none of those that selection numbers through; and constructor calls behind an
allocation have no arguments and no result. -/
theorem methodBlock_refines {u : ClassUnit} {root : String} {m : Method} {b : MethodBlock}
    (hb : u.methodBlock root m = .ok b) (once : (labelsOf m.code).Nodup)
    (plain : ∀ name ∈ labelsOf m.code, ∀ k, name ≠ whenTrue k ∧ name ≠ whenDone k)
    (plainly : m.InitialisesPlainly) :
    ∃ slots, SlotTable.ofMethod m = .ok slots ∧
      ∀ w : World, (u.context root m slots).Refines w m b.code := by
  obtain ⟨slots, hslots, hb⟩ := bind_eq_ok.mp hb
  obtain ⟨code, hcode, hb⟩ := bind_eq_ok.mp hb
  obtain ⟨depth, -, hb⟩ := bind_eq_ok.mp hb
  obtain ⟨descriptor, -, hb⟩ := bind_eq_ok.mp hb
  cases hb
  obtain ⟨codes, hcodes, rfl⟩ := MethodContext.select_eq_ok.mp hcode
  refine ⟨slots, hslots, fun w => MethodContext.Selected.refines ?_ w⟩
  exact {
    sound := (SlotTable.ofMethod_sound hslots).1
    aligned := MethodContext.aligns_of_selectsAll hcodes
    once
    plain := fun name hname k hk => by
      obtain ⟨htrue, hdone⟩ := plain name hname k
      simp only [comparisonLabels, List.mem_cons, List.not_mem_nil, or_false] at hk
      exact hk.elim htrue hdone
    plainly }

/-- A method that makes an object of its class, with integers for the constructor. -/
def maker (args : List Int32) : Method where
  name := "make"
  isStatic := true
  returnTy := Ty.void
  code := [.newObject (.temp 0 (Ty.scalar "Maker")) "Maker",
    .call none .constructor (.temp 0 (Ty.scalar "Maker")) constructorName (args.map Operand.int) Ty.void,
    .ret none]

/-- The class of the method. -/
def makers : ClassUnit := { name := "Maker" }

/-- The code of the method is the same for all integers. -/
theorem methodBlock_maker (args : List Int32) :
    ∃ slots b, SlotTable.ofMethod (maker args) = .ok slots ∧
      makers.methodBlock defaultRootClass (maker args) = .ok b ∧
        b.code = [.new "Maker", .dup, .invoke .special "Maker" constructorName "()V" 0 false,
          .store .ref 0, .ret none] := by
  have hkeys : SlotTable.keysOf (maker args) = [.temp 0, .temp 0] := by
    have hargs : (args.map Operand.int).flatMap slotKeys = [] := by simp [slotKeys, Operand.int]
    simp [SlotTable.keysOf, maker, Instr.operands, Instr.dest?, Instr.sources, slotKeys, hargs]
  obtain ⟨slots, hslots, hslot⟩ : ∃ slots, SlotTable.ofMethod (maker args) = .ok slots ∧
      slots.slots[SlotKey.temp 0]? = some 0 := by
    refine ⟨⟨({} : Std.HashMap SlotKey Nat).insert (.temp 0) 0, 1⟩, ?_,
      Std.HashMap.getElem?_insert_self⟩
    rw [SlotTable.ofMethod, hkeys]
    simp [maker, SlotTable.allocateAll, SlotTable.allocate, wordLimit]
  have hdest : (makers.context defaultRootClass (maker args) slots).Stores
      (.temp 0 (Ty.scalar "Maker")) [.store .ref 0] :=
    .intro rfl rfl ((SlotTable.slot_eq_ok rfl).mpr hslot)
  have hselect : (makers.context defaultRootClass (maker args) slots).select (maker args).code =
      .ok [.new "Maker", .dup, .invoke .special "Maker" constructorName "()V" 0 false,
        .store .ref 0, .ret none] :=
    MethodContext.select_eq_ok.mpr ⟨_, .cons (.newObject hdest) (.cons .retNone (.nil _)), rfl⟩
  exact ⟨slots, _, hslots, bind_eq_ok.mpr ⟨_, hslots, bind_eq_ok.mpr ⟨_, hselect, rfl⟩⟩, rfl⟩

/-- An allocation whose constructor has no arguments is refined. -/
theorem methodBlock_refines_maker : ∃ b, makers.methodBlock defaultRootClass (maker []) = .ok b ∧
    (labelsOf (maker []).code).Nodup ∧
    (∀ name ∈ labelsOf (maker []).code, ∀ k, name ≠ whenTrue k ∧ name ≠ whenDone k) ∧
    (maker []).InitialisesPlainly ∧
    ∃ slots, SlotTable.ofMethod (maker []) = .ok slots ∧
      ∀ w : World, (makers.context defaultRootClass (maker []) slots).Refines w (maker []) b.code := by
  obtain ⟨slots, b, -, hb, -⟩ := methodBlock_maker []
  have once : (labelsOf (maker []).code).Nodup := List.nodup_nil
  have plain : ∀ name ∈ labelsOf (maker []).code, ∀ k, name ≠ whenTrue k ∧ name ≠ whenDone k :=
    fun _ h => by cases h
  have plainly : (maker []).InitialisesPlainly := by
    intro n dest className i hn hi _
    match n, hn with
    | 0, _ =>
      cases hi
      exact ⟨none, _, _, rfl, rfl⟩
    | 1, hn | 2, hn | n + 3, hn => cases hn
  exact ⟨b, hb, once, plain, plainly, methodBlock_refines hb once plain plainly⟩

/-- Classes that answer every call with nothing. -/
def quietly : World where
  takes _ _ _ := true
  calls _ h := some (none, h)

/-- A constructor call behind an allocation is selected without its arguments: three-address code
calls the constructor with an integer, and the code selected for it calls one without. -/
theorem maker_calls_differ : ∃ slots b, SlotTable.ofMethod (maker [1]) = .ok slots ∧
    makers.methodBlock defaultRootClass (maker [1]) = .ok b ∧
    (labelsOf (maker [1]).code).Nodup ∧
    (∀ name ∈ labelsOf (maker [1]).code, ∀ k, name ≠ whenTrue k ∧ name ≠ whenDone k) ∧
    ∃ s t s' t', (makers.context defaultRootClass (maker [1]) slots).Rests s t ∧
      (codeMachine quietly (makers.setting defaultRootClass (maker [1])) (maker [1]).code).RunsTo
        (0, s) none s' ∧
      (Jvm.machine quietly b.code).RunsTo (0, t) none t' ∧
      s'.memory.calls.map Invocation.args = [[.int 1]] ∧
      t'.memory.calls.map Invocation.args = [[]] := by
  obtain ⟨slots, b, hslots, hb, hcode⟩ := methodBlock_maker [1]
  obtain ⟨t', target, htarget⟩ : ∃ t', (Jvm.machine quietly b.code).RunsTo
      (0, { locals := fun _ => none }) none t' ∧ t'.memory.calls.map Invocation.args = [[]] := by
    rw [hcode]
    exact ⟨_, ⟨_, .tail (.tail (.tail (.tail .refl (.next rfl rfl)) (.next rfl rfl)) (.next rfl rfl))
      (.next rfl rfl), .intro rfl rfl⟩, rfl⟩
  obtain ⟨s', source, hsource⟩ : ∃ s', (codeMachine quietly
      (makers.setting defaultRootClass (maker [1])) (maker [1]).code).RunsTo
        (0, { vars := fun _ => none }) none s' ∧ s'.memory.calls.map Invocation.args = [[.int 1]] :=
    ⟨_, ⟨_, .tail (.tail .refl (.next rfl rfl)) (.next rfl rfl), .intro rfl rfl⟩, rfl⟩
  exact ⟨slots, b, hslots, hb, List.nodup_nil, fun _ h => (by cases h), _, _, s', t',
    ⟨⟨fun _ => rfl, fun _ => rfl, rfl⟩, rfl⟩, source, target, hsource, htarget⟩

end Tac.ClassUnit

end JavaMinus
