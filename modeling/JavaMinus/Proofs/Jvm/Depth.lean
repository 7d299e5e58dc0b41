import JavaMinus.Proofs.Jvm.Heights
import JavaMinus.Proofs.Jvm.Slots
import JavaMinus.Proofs.Tac.Labels

/-!
# The depth of selected code

The greatest height that the one scan finds is that of the control flow. A path through code changes
the height by the effect of each instruction, with no regard to what is on the stack (`Shifts`); on
every such path through selected code the stack is empty in front of the code of each three-address
instruction, holds what every instruction takes, has one height wherever paths meet, and is never
higher than the scan says (`StackSafe`).

The scan does not say more than that either: the height that it finds is reached on a path through the
code of a single three-address instruction, so where it passes the limit of the class format there is
an instruction whose own code needs more.
-/

namespace JavaMinus.Jvm

open Tac

/-- The height changes by the effect of an instruction, whatever is on the stack. -/
def Shifts (i : Instr) (a b : Int) : Prop := b = a + i.effect

/-- On every path through code that was selected piece by piece, from its first instruction on, the
stack is used safely and within a height. -/
structure StackSafe (codes : List (List Instr)) (n : Nat) : Prop where
  /-- The stack is empty in front of the code of each piece. -/
  starts : ∀ {j : Nat} {h : Int},
    Reaches Shifts 0 codes.flatten (codes.take j).flatten.length h → h = 0
  /-- No instruction takes more cells than there are. -/
  enough : ∀ {k : Nat} {h : Int} {i : Instr}, Reaches Shifts 0 codes.flatten k h →
    codes.flatten[k]? = some i → (i.pops : Int) ≤ h
  /-- Paths that meet have one height. -/
  agree : ∀ {k : Nat} {h h' : Int}, Reaches Shifts 0 codes.flatten k h →
    Reaches Shifts 0 codes.flatten k h' → h = h'
  /-- The height stays within the bound, and never falls below the empty stack. -/
  bounded : ∀ {k : Nat} {h : Int}, Reaches Shifts 0 codes.flatten k h → 0 ≤ h ∧ h ≤ n

variable {shapes : String → Nat} {here there : Option Nat} {code : List Instr} {k a b : Nat}

/-! ## Paths by effects -/

theorem Height.shifts {i : Instr} (h : Height i a b) : Shifts i a b := by
  obtain ⟨enough, sum⟩ := h
  rw [Shifts, i.effect_eq]
  omega

theorem Reaches.shifts (h : Reaches Height 0 code k a) : Reaches Shifts 0 code k a := by
  induction h with
  | start => exact .start
  | next _ hi continues steps ih => exact ih.next hi continues steps.shifts
  | jump _ hi target steps placed ih => exact ih.jump hi target steps.shifts placed

/-- Where a pass finds what every instruction takes, the paths by effects are paths by heights. -/
theorem Flow.height_of_shifts (hf : Flow Height 0 shapes (some 0) code there) {h : Int}
    (hr : Reaches Shifts 0 code k h) : ∃ a : Nat, h = a ∧ Reaches Height 0 code k a := by
  have label (name : String) (a : Nat) : Height (.label name) a a := ⟨Nat.zero_le a, rfl⟩
  induction hr with
  | start => exact ⟨0, rfl, .start⟩
  | next _ hi continues steps ih =>
    obtain ⟨a, rfl, ha⟩ := ih
    obtain ⟨b, hb⟩ := hf.steps_of_reaches lawful_height label ha hi
    exact ⟨b, steps.trans hb.shifts.symm, ha.next hi continues hb⟩
  | jump _ hi target steps placed ih =>
    obtain ⟨a, rfl, ha⟩ := ih
    obtain ⟨b, hb⟩ := hf.steps_of_reaches lawful_height label ha hi
    exact ⟨b, steps.trans hb.shifts.symm, ha.jump hi target hb placed⟩

/-! ## The greatest height of the scan -/

theorem Instr.exists_of_isLabel {i : Instr} (h : i.isLabel = true) : ∃ name, i = .label name := by
  cases i <;> first | exact ⟨_, rfl⟩ | cases h

namespace DepthScan

variable {s s' : DepthScan} {i : Instr}

/-- The greatest height so far changes at an instruction that control reaches. -/
theorem peak_of_step (h : s.step i = .ok s') : s'.peak = if i.isLabel then s.peak else
    match s.height with
    | some here => max (max s.peak here) (here + i.effect)
    | none => s.peak := by
  cases hi : i.isLabel with
  | true =>
    obtain ⟨name, rfl⟩ := Instr.exists_of_isLabel hi
    rw [step, atLabel] at h
    split at h
    · split at h <;> cases h
      rfl
    all_goals
      cases h
      rfl
  | false =>
    rw [step_of_plain hi, atInstr] at h
    split at h
    · next hheight =>
      cases h
      rw [hheight]
      rfl
    · next here hheight =>
      rw [hheight]
      dsimp only at h
      split at h <;> cases h
      rfl

theorem peak_le_of_step (h : s.step i = .ok s') : s.peak ≤ s'.peak := by
  rw [peak_of_step h]
  split
  · exact Int.le_refl _
  · split <;> omega

/-- The first step of a scan, and what it goes on with. -/
theorem run_cons {rest : List Instr} (h : s.run (i :: rest) = .ok s') :
    ∃ next, s.step i = .ok next ∧ next.run rest = .ok s' := by
  rw [run] at h
  split at h
  · next next hnext => exact ⟨next, hnext, h⟩
  · cases h

theorem run_append {mid : DepthScan} {front : List Instr} (rest : List Instr)
    (h : s.run front = .ok mid) : s.run (front ++ rest) = mid.run rest := by
  induction front generalizing s with
  | nil =>
    cases h
    rfl
  | cons i tail ih =>
    obtain ⟨next, hnext, htail⟩ := run_cons h
    rw [List.cons_append, run_of_step hnext]
    exact ih htail

theorem peak_le_of_run (h : s.run code = .ok s') : s.peak ≤ s'.peak := by
  induction code generalizing s with
  | nil =>
    cases h
    exact Int.le_refl _
  | cons i rest ih =>
    obtain ⟨next, hnext, hrest⟩ := run_cons h
    exact Int.le_trans (peak_le_of_step hnext) (ih hrest)

end DepthScan

/-- An instruction that control reaches comes to no height that the scan did not see. -/
theorem Flow.step_le_peak (hf : Flow Height 0 shapes (some 0) code there) {s : DepthScan}
    (hrun : DepthScan.run {} code = .ok s) {i : Instr} (hr : Reaches Height 0 code k a)
    (hi : code[k]? = some i) (steps : Height i a b) (ha : (a : Int) ≤ s.peak) : (b : Int) ≤ s.peak := by
  cases plain : i.isLabel with
  | true =>
    obtain ⟨name, rfl⟩ := Instr.exists_of_isLabel plain
    rw [lawful_height.label steps]
    exact ha
  | false =>
    have parts := List.take_append_drop k code
    rw [← parts] at hf
    obtain ⟨mid, front, behind⟩ := hf.split
    rcases knows_of_reaches lawful_height front behind hr with rfl | ⟨-, -, name, tail, hlabel⟩
    · obtain ⟨reached, hfront, agrees⟩ := DepthScan.run_of_flow front .empty
      have hbehind : reached.run (i :: code.drop (k + 1)) = .ok s := by
        rw [← drop_eq_cons hi, ← DepthScan.run_append _ hfront, parts]
        exact hrun
      obtain ⟨next, hnext, hrest⟩ := DepthScan.run_cons hbehind
      have grown : next.peak = max (max reached.peak a) (a + i.effect) := by
        rw [DepthScan.peak_of_step hnext, plain, agrees.height]
        rfl
      have later := DepthScan.peak_le_of_run hrest
      have moved : (b : Int) = a + i.effect := steps.shifts
      omega
    · rw [drop_eq_cons hi] at hlabel
      rw [(List.cons.inj hlabel).1] at plain
      cases plain

/-- Control comes to no height that the scan did not see. -/
theorem Flow.le_peak (hf : Flow Height 0 shapes (some 0) code there) {s : DepthScan}
    (hrun : DepthScan.run {} code = .ok s) (hr : Reaches Height 0 code k a) : (a : Int) ≤ s.peak := by
  induction hr with
  | start => exact DepthScan.peak_le_of_run hrun
  | next before hi _ steps ih => exact hf.step_le_peak hrun before hi steps ih
  | jump before hi _ steps _ ih => exact hf.step_le_peak hrun before hi steps ih

/-! ## The scan sees nothing else -/

/-- A greatest height is that of the empty stack, or has the property. -/
def Attained (P : Nat → Prop) (peak : Int) : Prop := peak = 0 ∨ ∃ n : Nat, peak = n ∧ P n

theorem Attained.max {P : Nat → Prop} {peak : Int} (h : Attained P peak) (ha : P a) :
    Attained P (max peak a) := by
  rcases Int.le_total peak a with hle | hle
  · rw [Int.max_eq_right hle]
    exact .inr ⟨a, rfl, ha⟩
  · rw [Int.max_eq_left hle]
    exact h

/-- Jumps and returns leave nothing on the stack that was not there. -/
theorem Height.le_of_isTerminator {i : Instr} (h : Height i a b) (hi : i.isTerminator = true) :
    b ≤ a := by
  obtain ⟨enough, sum⟩ := h
  have none : i.pushes = 0 := by
    cases i <;> first | rfl | cases hi
  omega

/-- A scan behind the first instructions of a piece: where control is there, a path through the piece
comes there with that height, and so it did with every height that the scan saw. -/
structure Tracks (shapes : String → Nat) (P : Nat → Prop) (piece front : List Instr)
    (here : Option Nat) (s : DepthScan) : Prop where
  agrees : s.Agrees shapes here
  reached : ∀ a, here = some a → Reaches Height 0 piece front.length a
  seen : Attained P s.peak

namespace Tracks

variable {P : Nat → Prop} {piece front rest : List Instr} {s s' : DepthScan}

theorem label {name : String} (h : Tracks shapes P piece front here s)
    (placed : piece[front.length]? = some (.label name))
    (led : Reaches Height 0 piece front.length (shapes name))
    (hh : here = some (shapes name) ∨ (here = none ∧ shapes name = 0)) :
    ∃ next, s.step (.label name) = .ok next ∧
      Tracks shapes P piece (front ++ [.label name]) (some (shapes name)) next := by
  obtain ⟨next, hnext, agrees⟩ := h.agrees.atLabel hh
  have same : next.peak = s.peak := DepthScan.peak_of_step (i := .label name) hnext
  refine ⟨next, hnext, agrees, fun a ha => ?_, by rw [same]; exact h.seen⟩
  rw [← Option.some.inj ha, List.length_append]
  exact led.next placed rfl ⟨Nat.zero_le _, rfl⟩

theorem instr {i : Instr} (h : Tracks shapes P piece front (some a) s)
    (hp : ∀ {k a : Nat}, Reaches Height 0 piece k a → P a) (placed : piece[front.length]? = some i)
    (plain : i.isLabel = false) (steps : Height i a b)
    (target : ∀ name, i.target? = some name → shapes name = b) :
    ∃ next, s.step i = .ok next ∧
      Tracks shapes P piece (front ++ [i]) (if i.isTerminator then none else some b) next := by
  obtain ⟨next, hnext, agrees⟩ := h.agrees.atInstr steps target
  have hstep : s.step i = .ok next := (DepthScan.step_of_plain plain).trans hnext
  have here := h.reached a rfl
  have moved : (a : Int) + i.effect = b := steps.shifts.symm
  have grown : next.peak = max (max s.peak a) b := by
    rw [DepthScan.peak_of_step hstep, plain, h.agrees.height, ← moved]
    rfl
  refine ⟨next, hstep, agrees, fun c hc => ?_, ?_⟩
  · rw [List.length_append]
    cases hlast : i.isTerminator with
    | true =>
      rw [hlast] at hc
      cases hc
    | false =>
      rw [hlast] at hc
      cases hc
      exact here.next placed hlast steps
  · rw [grown]
    cases hlast : i.isTerminator with
    | true =>
      have low := steps.le_of_isTerminator hlast
      rw [Int.max_eq_left (by omega)]
      exact h.seen.max (hp here)
    | false => exact (h.seen.max (hp here)).max (hp (here.next placed hlast steps))

/-- The heights that a scan sees in code that leads to each of its labels are those of paths through
that code. -/
theorem seen_of_run (h : Tracks shapes P piece front here s)
    (labels : ∀ {k : Nat} {name : String}, piece[k]? = some (.label name) →
      Reaches Height 0 piece k (shapes name))
    (hp : ∀ {k a : Nat}, Reaches Height 0 piece k a → P a)
    (hf : Flow Height 0 shapes here rest there) (hpiece : piece = front ++ rest)
    (hrun : s.run rest = .ok s') : Attained P s'.peak := by
  induction hf generalizing s front with
  | nil =>
    cases hrun
    exact h.seen
  | @label name rest there tail ih =>
    have placed : piece[front.length]? = some (.label name) := by simp [hpiece]
    obtain ⟨next, hnext, ht⟩ := h.label placed (labels placed) (.inl rfl)
    rw [DepthScan.run_of_step hnext] at hrun
    exact ih ht (by simp [hpiece]) hrun
  | @unreached name rest there atStart tail ih =>
    have placed : piece[front.length]? = some (.label name) := by simp [hpiece]
    obtain ⟨next, hnext, ht⟩ := h.label placed (labels placed) (.inr ⟨rfl, atStart⟩)
    rw [DepthScan.run_of_step hnext] at hrun
    exact ih ht (by simp [hpiece]) hrun
  | @instr i a b rest there plain steps target tail ih =>
    have placed : piece[front.length]? = some i := by simp [hpiece]
    obtain ⟨next, hnext, ht⟩ := h.instr hp placed plain steps target
    rw [DepthScan.run_of_step hnext] at hrun
    exact ih ht (by simp [hpiece]) hrun
  | @skip i a b rest there plain steps tail ih =>
    rw [DepthScan.run_of_step (h.agrees.step_of_unreached plain)] at hrun
    have ht : Tracks shapes P piece (front ++ [i]) none s := ⟨h.agrees, nofun, h.seen⟩
    exact ih ht (by simp [hpiece]) hrun

end Tracks

/-! ## Selected code -/

namespace MethodContext

variable {x : MethodContext} {n : Nat} {ps : List Piece} {codes : List (List Instr)}

/-- The labels and targets of instructions among the pieces are their own. -/
def PlainPieces (ps : List Piece) : Prop :=
  ∀ p ∈ ps, ∀ i name, p = .instr i → i.target? = some name ∨ i.label? = some name → IsPlainLabel name

/-- The heights that a scan sees in selected code are those of paths through the code of a piece. -/
theorem SelectsAll.attained {P : Nat → Prop} {s s' : DepthScan} (h : x.SelectsAll n ps codes)
    (plain : PlainPieces ps)
    (hp : ∀ code ∈ codes, ∀ {k a : Nat}, Reaches Height 0 code k a → P a) (idle : Idle 0 here)
    (agrees : s.Agrees heightAt here) (hs : Attained P s.peak)
    (hrun : s.run codes.flatten = .ok s') : Attained P s'.peak := by
  induction h generalizing here s with
  | nil =>
    cases hrun
    exact hs
  | @cons n p rest code codes head _ ih =>
    obtain ⟨passes, labels⟩ := head.height (plain p List.mem_cons_self)
    obtain ⟨next, hnext, hf⟩ := passes here idle
    obtain ⟨mid, hmid, hagrees⟩ := DepthScan.run_of_flow hf agrees
    have tracks : Tracks heightAt P code [] here s :=
      ⟨agrees, fun a ha => by rw [idle a ha]; exact .start, hs⟩
    have seen := tracks.seen_of_run labels (hp code List.mem_cons_self) hf rfl hmid
    rw [List.flatten_cons, DepthScan.run_append _ hmid] at hrun
    exact ih (fun p hm => plain p (List.mem_cons_of_mem _ hm))
      (fun code hm => hp code (List.mem_cons_of_mem _ hm)) hnext hagrees seen hrun

/-- The first pieces are selected to the first codes, and the others to the others. -/
theorem SelectsAll.split (h : x.SelectsAll n ps codes) (j : Nat) :
    x.SelectsAll n (ps.take j) (codes.take j) ∧
      ∃ m, x.SelectsAll m (ps.drop j) (codes.drop j) := by
  induction h generalizing j with
  | nil =>
    rw [List.take_nil, List.take_nil, List.drop_nil, List.drop_nil]
    exact ⟨.nil _, 0, .nil 0⟩
  | cons head tail ih =>
    cases j with
    | zero => exact ⟨.nil _, _, .cons head tail⟩
    | succ j =>
      obtain ⟨front, m, behind⟩ := ih j
      exact ⟨.cons head front, m, behind⟩

/-- Every path comes to the code of a piece with an empty stack. -/
theorem SelectsAll.height_of_start (h : x.SelectsAll n ps codes) (plain : PlainPieces ps) {j : Nat}
    (hr : Reaches Height 0 codes.flatten (codes.take j).flatten.length a) : a = 0 := by
  obtain ⟨front, m, behind⟩ := h.split j
  have passes {n : Nat} {qs : List Piece} {cs : List (List Instr)} (hq : x.SelectsAll n qs cs)
      (hsub : ∀ p ∈ qs, p ∈ ps) : Passes Height 0 heightAt cs.flatten :=
    Passes.of_pieces hq fun p hp _ _ hs => (hs.height (plain p (hsub p hp))).passes
  obtain ⟨mid, idle, hfront⟩ :=
    passes front (fun _ => List.mem_of_mem_take) (some 0) (idle_some 0)
  obtain ⟨there, -, hbehind⟩ := passes behind (fun _ => List.mem_of_mem_drop) mid idle
  have parts : codes.flatten = (codes.take j).flatten ++ (codes.drop j).flatten := by
    rw [← List.flatten_append, List.take_append_drop]
  rw [parts] at hr
  rcases Flow.knows_of_reaches lawful_height (by rw [List.take_left]; exact hfront)
    (by rw [List.drop_left]; exact hbehind) hr with rfl | ⟨-, rfl, -⟩
  · exact idle a rfl
  · rfl

end MethodContext

/-- Code that is selected from three-address code is safe, within the height that is found for it, if
no label of that code is one at which a comparison is. The labels need not even be placed once. The
height is found, or it passes the limit of the class format; and it is the height on some path through
the code of a single instruction, from an empty stack. -/
theorem stackSafe_of_select {x : MethodContext} {body : List Tac.Instr} (h : x.select body = .ok code)
    (targets : ∀ i ∈ body, ∀ name, i.target? = some name → name ∈ Tac.labelsOf body)
    (plain : ∀ name ∈ Tac.labelsOf body, ∀ k, name ≠ whenTrue k ∧ name ≠ whenDone k) :
    ∃ codes n, x.selectPieces 0 (pieces body) = .ok codes ∧ code = codes.flatten ∧
      maxStack code = (if n ≤ wordLimit then .ok n else .error .stackTooDeep) ∧
      (n = 0 ∨ ∃ own ∈ codes, ∃ k, Reaches Shifts 0 own k n) ∧ StackSafe codes n := by
  obtain ⟨codes, hc, rfl⟩ := MethodContext.select_eq_ok.mp h
  have plainPieces : MethodContext.PlainPieces (pieces body) := by
    rintro _ hp i name rfl hname k
    have mem : name ∈ Tac.labelsOf body := by
      rcases hname with hname | hname
      · exact targets i (mem_pieces hp) name hname
      · exact List.mem_filterMap.mpr ⟨i, mem_pieces hp, hname⟩
    exact (plain name mem k).2
  obtain ⟨there, -, hf⟩ := Passes.of_pieces hc
    (fun p hp _ _ hs => (hs.height (plainPieces p hp)).passes) (some 0) (idle_some 0)
  obtain ⟨s, hrun, -⟩ := DepthScan.run_of_flow (s := {}) hf .empty
  have low : 0 ≤ s.peak := DepthScan.peak_le_of_run hrun
  have seen : Attained (fun n => ∃ own ∈ codes, ∃ k, Reaches Shifts 0 own k n) s.peak :=
    hc.attained plainPieces (fun own hown k _ hr => ⟨own, hown, k, hr.shifts⟩) (idle_some 0) .empty
      (.inl rfl) hrun
  refine ⟨codes, s.peak.toNat, MethodContext.selectPieces_eq_ok.mpr hc, rfl, ?_, ?_, ?_⟩
  · unfold maxStack
    rw [hrun]
    dsimp only
    split <;> split <;> first | rfl | omega
  · rcases seen with zero | ⟨n, hn, own⟩
    · exact .inl (by omega)
    · right
      rw [hn]
      exact own
  · have height {k : Nat} {h : Int} (hr : Reaches Shifts 0 codes.flatten k h) :
        ∃ a : Nat, h = a ∧ Reaches Height 0 codes.flatten k a := hf.height_of_shifts hr
    refine ⟨fun hr => ?_, fun {k h i} hr hi => ?_, fun hr hr' => ?_, fun hr => ?_⟩
    · obtain ⟨a, rfl, ha⟩ := height hr
      rw [hc.height_of_start plainPieces ha]
      rfl
    · obtain ⟨a, rfl, ha⟩ := height hr
      obtain ⟨b, steps⟩ := hf.steps_of_reaches lawful_height
        (fun _ a => ⟨Nat.zero_le a, rfl⟩) ha hi
      exact Int.ofNat_le.mpr steps.1
    · obtain ⟨a, rfl, ha⟩ := height hr
      obtain ⟨a', rfl, ha'⟩ := height hr'
      rw [hf.unique_of_reaches lawful_height ha ha']
    · obtain ⟨a, rfl, ha⟩ := height hr
      have := hf.le_peak hrun ha
      omega

/-- A method that waits until an element of its parameter is not less than a number. -/
def pollBody : List Tac.Instr := [
  .label "again",
  .binary (.temp 0 Ty.boolean) .lt (.element (.var "rows" (Ty.array "int")) (.int 1) Ty.int) (.int 2),
  .branch (.truthy (.temp 0 Ty.boolean)) "again",
  .ret none]

/-- The parameter is in the first slot, and the result of the comparison in the second. -/
def pollContext : MethodContext where
  names := ⟨"Meter", []⟩
  superClass := "java/lang/Object"
  isStatic := true
  returnTy := Ty.void
  slots := ⟨((∅ : Std.HashMap SlotKey Nat).insert (.var "rows") 0).insert (.temp 0) 1, 2⟩

def pollCode : List Instr := [
  .label "again",
  .load .ref 0, .const 1, .arrayLoad .int, .const 2, .ifInts .lt (whenTrue 0),
  .const 0, .goto (whenDone 0), .label (whenTrue 0), .const 1, .label (whenDone 0), .store .int 1,
  .load .int 1, .ifTrue "again",
  .ret none]

theorem select_poll : pollContext.select pollBody = .ok pollCode := by
  have hvar : pollContext.slots.slots[SlotKey.var "rows"]? = some 0 := by
    rw [pollContext, Std.HashMap.getElem?_insert, if_neg (by decide), Std.HashMap.getElem?_insert_self]
  have htemp : pollContext.slots.slots[SlotKey.temp 0]? = some 1 := by
    simp [pollContext]
  have temp : pollContext.slots.slot (.temp 0 Ty.boolean) = .ok 1 :=
    (SlotTable.slot_eq_ok rfl).mpr htemp
  have row : pollContext.Loads (.element (.var "rows" (Ty.array "int")) (.int 1) Ty.int)
      ([.load .ref 0] ++ [.const 1] ++ [.arrayLoad .int]) :=
    .element rfl (.var rfl ((SlotTable.slot_eq_ok rfl).mpr hvar)) (.intLit 1 _)
  refine MethodContext.select_eq_ok.mpr ⟨_, .cons (.label _) (.cons
    (.binary row (.intLit 2 _) (.compare rfl (.ints rfl rfl rfl)) (.intro rfl rfl temp))
    (.cons (.truthy (.temp rfl temp)) (.cons .retNone (.nil _)))), rfl⟩

/-- The loop of the method is safe, and its code needs two cells. -/
theorem stackSafe_of_select_poll : ∃ codes n, pollContext.selectPieces 0 (pieces pollBody) = .ok codes ∧
    pollCode = codes.flatten ∧
    maxStack pollCode = (if n ≤ wordLimit then .ok n else .error .stackTooDeep) ∧ 2 ≤ n ∧
    StackSafe codes n := by
  have targets : ∀ i ∈ pollBody, ∀ name, i.target? = some name → name ∈ Tac.labelsOf pollBody := by
    simp [pollBody, Tac.labelsOf, Tac.Instr.target?, Tac.Instr.label?]
  have apart (base : String) (k : Nat) (hbase : base.toList[0]? = some 'c') :
      "again" ≠ base ++ toString k := by
    intro h
    have first : "again".toList[0]? = some 'c' := by
      rw [h, String.toList_append,
        List.getElem?_append_left (List.getElem?_eq_some_iff.mp hbase).1, hbase]
    cases first
  have plain : ∀ name ∈ Tac.labelsOf pollBody, ∀ k, name ≠ whenTrue k ∧ name ≠ whenDone k := by
    intro name hname k
    rw [List.mem_singleton.mp hname]
    exact ⟨apart "cmp_true_" k rfl, apart "cmp_end_" k rfl⟩
  obtain ⟨codes, n, hcodes, hcode, hmax, -, safe⟩ := stackSafe_of_select select_poll targets plain
  have loaded : Reaches Shifts 0 codes.flatten 3 2 := by
    rw [← hcode]
    have empty : Reaches Shifts 0 pollCode 1 0 := .next .start rfl rfl rfl
    have array : Reaches Shifts 0 pollCode 2 1 := empty.next rfl rfl rfl
    exact array.next rfl rfl rfl
  exact ⟨codes, n, hcodes, hcode, hmax, Int.ofNat_le.mp (safe.bounded loaded).2, safe⟩

end JavaMinus.Jvm
