import JavaMinus.Proofs.Jvm.Depth

/-!
# Recorded heights

What the one scan for the greatest height says of code of any shape, selected or not.

The scan records a height for a label when control first comes to it. Control that falls through to a
label comes with the recorded height, or the scan stops; control that jumps there is not compared with
it. The law (`bounds_of_maxStack`): where the jumps of all paths come with the recorded heights, and
only there, every path has the heights of the scan, and so stays within the height that is found. Jumps
that come with no more than the recorded height keep the upper bound, and jumps that come with no less
keep the lower one. That they come with the recorded heights can be read off the scan alone: it has
those heights at its own jumps.

Without that the height that is found bounds nothing. Code that pushes a value and jumps back to its
start needs one cell by the scan, and passes every height (`maxStack_climbing`).
-/

namespace JavaMinus.Jvm

namespace DepthScan

variable {s s' last : DepthScan} {i : Instr} {code : List Instr} {name : String} {k : Nat} {a b : Int}

/-! ## One step -/

/-- Behind a label the scan has a height, which is the one it came with and the one recorded for the
label, as far as there are such, and is recorded now. -/
theorem step_label (h : s.step (.label name) = .ok s') :
    ∃ here, s' = { s with labels := s.labels.insert name here, height := some here } ∧
      (∀ a, s.height = some a → here = a) ∧ (∀ a, s.labels[name]? = some a → here = a) ∧
      (s.height = none → s.labels[name]? = none → here = 0) := by
  rw [step, atLabel] at h
  split at h
  · next here recorded hheight hrecorded =>
    split at h
    · next same =>
      cases h
      refine ⟨here, by rw [hheight], ?_, ?_, ?_⟩ <;> simp [hheight, hrecorded, same]
    · cases h
  · next here hheight hrecorded =>
    cases h
    refine ⟨here, by rw [hheight], ?_, ?_, ?_⟩ <;> simp [hheight, hrecorded]
  · next recorded hheight hrecorded =>
    cases h
    refine ⟨recorded, rfl, ?_, ?_, ?_⟩ <;> simp [hheight, hrecorded]
  · next hheight hrecorded =>
    cases h
    refine ⟨0, rfl, ?_, ?_, ?_⟩ <;> simp [hheight, hrecorded]

/-- An instruction that is reached finds the cells it takes, and its effect is the height behind it
and at its target, unless that has a height already. -/
theorem step_instr (plain : i.isLabel = false) (h : s.step i = .ok s') (ha : s.height = some a) :
    0 ≤ a + i.effect ∧
      s'.labels = (match i.target? with
        | some target => s.labels.insertIfNew target (a + i.effect)
        | none => s.labels) ∧
      s'.height = (if i.isTerminator then none else some (a + i.effect)) ∧
      s'.peak = max (max s.peak a) (a + i.effect) := by
  rw [step_of_plain plain, atInstr, ha] at h
  dsimp only at h
  split at h
  · cases h
  · next low =>
    cases h
    exact ⟨by omega, rfl, rfl, rfl⟩

/-- An instruction that is not reached is passed over. -/
theorem step_skip (plain : i.isLabel = false) (h : s.step i = .ok s') (ha : s.height = none) :
    s' = s := by
  rw [step_of_plain plain, atInstr, ha] at h
  cases h
  rfl

/-- What is recorded stays. -/
theorem recorded_of_step (h : s.step i = .ok s') (hr : s.labels[name]? = some a) :
    s'.labels[name]? = some a := by
  cases plain : i.isLabel with
  | true =>
    obtain ⟨other, rfl⟩ := Instr.exists_of_isLabel plain
    obtain ⟨here, rfl, -, same, -⟩ := step_label h
    rw [Std.HashMap.getElem?_insert]
    split
    · next heq =>
      obtain rfl : other = name := by simpa using heq
      rw [same a hr]
    · exact hr
  | false =>
    cases ha : s.height with
    | none =>
      rw [step_skip plain h ha]
      exact hr
    | some here =>
      rw [(step_instr plain h ha).2.1]
      split
      · next target htarget =>
        rw [Std.HashMap.getElem?_insertIfNew, if_neg]
        · exact hr
        · rintro ⟨heq, hnew⟩
          obtain rfl : target = name := by simpa using heq
          exact hnew (Std.HashMap.mem_iff_isSome_getElem?.mpr (by rw [hr]; rfl))
      · exact hr

theorem recorded_of_run (h : s.run code = .ok s') (hr : s.labels[name]? = some a) :
    s'.labels[name]? = some a := by
  induction code generalizing s with
  | nil =>
    cases h
    exact hr
  | cons i rest ih =>
    obtain ⟨next, hnext, hrest⟩ := run_cons h
    exact ih hrest (recorded_of_step hnext hr)

/-- The heights that a scan knows lie between the empty stack and the greatest height so far. -/
structure Bounded (s : DepthScan) : Prop where
  peak : 0 ≤ s.peak
  height : ∀ a, s.height = some a → 0 ≤ a ∧ a ≤ s.peak
  labels : ∀ (name : String) (a : Int), s.labels[name]? = some a → 0 ≤ a ∧ a ≤ s.peak

theorem bounded_empty : ({} : DepthScan).Bounded :=
  ⟨Int.le_refl 0, fun a h => by cases h; exact ⟨Int.le_refl 0, Int.le_refl 0⟩, fun _ _ h => by simp at h⟩

theorem Bounded.step (hb : s.Bounded) (h : s.step i = .ok s') : s'.Bounded := by
  cases plain : i.isLabel with
  | true =>
    obtain ⟨name, rfl⟩ := Instr.exists_of_isLabel plain
    obtain ⟨here, rfl, fell, recorded, fresh⟩ := step_label h
    have hhere : 0 ≤ here ∧ here ≤ s.peak := by
      cases hheight : s.height with
      | some a =>
        rw [fell a hheight]
        exact hb.height a hheight
      | none =>
        cases hrec : s.labels[name]? with
        | some a =>
          rw [recorded a hrec]
          exact hb.labels name a hrec
        | none =>
          rw [fresh hheight hrec]
          exact ⟨Int.le_refl 0, hb.peak⟩
    refine ⟨hb.peak, fun a ha => by cases ha; exact hhere, fun other a ha => ?_⟩
    rw [Std.HashMap.getElem?_insert] at ha
    split at ha
    · cases ha
      exact hhere
    · exact hb.labels other a ha
  | false =>
    cases hheight : s.height with
    | none =>
      rw [step_skip plain h hheight]
      exact hb
    | some here =>
      obtain ⟨low, hlabels, hnext, hpeak⟩ := step_instr plain h hheight
      have hpos := hb.peak
      refine ⟨by omega, fun a ha => ?_, fun other a ha => ?_⟩
      · rw [hnext] at ha
        split at ha
        · cases ha
        · cases ha
          omega
      · rw [hlabels] at ha
        split at ha
        · rw [Std.HashMap.getElem?_insertIfNew] at ha
          split at ha
          · cases ha
            omega
          · have := hb.labels other a ha
            omega
        · have := hb.labels other a ha
          omega

theorem Bounded.run (hb : s.Bounded) (h : s.run code = .ok s') : s'.Bounded := by
  induction code generalizing s with
  | nil =>
    cases h
    exact hb
  | cons i rest ih =>
    obtain ⟨next, hnext, hrest⟩ := run_cons h
    exact ih (hb.step hnext) hrest

/-! ## The scan at an instruction -/

/-- A scan of code is a scan of its first instructions, and from there one of the others. -/
theorem run_split (h : s.run code = .ok last) (k : Nat) :
    ∃ mid, s.run (code.take k) = .ok mid ∧ mid.run (code.drop k) = .ok last := by
  induction k generalizing s code with
  | zero => exact ⟨s, rfl, h⟩
  | succ k ih =>
    cases code with
    | nil => exact ⟨s, rfl, h⟩
    | cons i rest =>
      obtain ⟨next, hnext, hrest⟩ := run_cons h
      obtain ⟨mid, hmid, hlast⟩ := ih hrest
      exact ⟨mid, (run_of_step hnext _).trans hmid, hlast⟩

theorem run_take_succ (h : run {} code = .ok last) (hi : code[k]? = some i)
    (hs : run {} (code.take k) = .ok s) :
    ∃ next, s.step i = .ok next ∧ run {} (code.take (k + 1)) = .ok next := by
  obtain ⟨mid, hmid, hlast⟩ := run_split h k
  obtain rfl : s = mid := Except.ok.inj (hs.symm.trans hmid)
  rw [Flow.drop_eq_cons hi] at hlast
  obtain ⟨next, hnext, -⟩ := run_cons hlast
  have grown : code.take (k + 1) = code.take k ++ [i] := by
    rw [List.take_add_one, hi]
    rfl
  refine ⟨next, hnext, ?_⟩
  rw [grown, run_append _ hs, run_of_step hnext]
  rfl

/-- The height that the scan of code has at an instruction: behind a label, and in front of any other
instruction. It has none where it does not expect control. -/
def heightAt? (code : List Instr) (k : Nat) : Option Int :=
  match run {} (code.take (if code[k]?.any Instr.isLabel then k + 1 else k)) with
  | .ok s => s.height
  | .error _ => none

theorem heightAt?_label (hi : code[k]? = some (.label name))
    (hs : run {} (code.take (k + 1)) = .ok s) : heightAt? code k = s.height := by
  simp only [heightAt?, hi, Option.any_some, Instr.isLabel, if_true, hs]

theorem heightAt?_plain (hi : code[k]?.any Instr.isLabel = false)
    (hs : run {} (code.take k) = .ok s) : heightAt? code k = s.height := by
  simp only [heightAt?, hi, Bool.false_eq_true, if_false, hs]

/-- Where the scan has a height, it has it at the next instruction, be that a label or not. -/
theorem heightAt?_of_height (h : run {} code = .ok last) (hs : run {} (code.take k) = .ok s)
    (ha : s.height = some a) : heightAt? code k = some a := by
  cases hlabel : code[k]?.any Instr.isLabel with
  | false => rw [heightAt?_plain hlabel hs, ha]
  | true =>
    obtain ⟨i, hi, plain⟩ := (Option.any_eq_true _ _).mp hlabel
    obtain ⟨name, rfl⟩ := Instr.exists_of_isLabel plain
    obtain ⟨next, hnext, htake⟩ := run_take_succ h hi hs
    obtain ⟨here, rfl, fell, -, -⟩ := step_label hnext
    rw [heightAt?_label hi htake, fell a ha]

/-- At a label that is recorded on the way, the scan has the height that is recorded. -/
theorem heightAt?_of_recorded {m : Nat} (h : run {} code = .ok last)
    (hs : run {} (code.take k) = .ok s) (hr : s.labels[name]? = some a)
    (placed : code[m]? = some (.label name)) : heightAt? code m = some a := by
  obtain ⟨mid, hmid, hlast⟩ := run_split h m
  obtain ⟨next, hnext, htake⟩ := run_take_succ h placed hmid
  obtain ⟨here, rfl, -⟩ := step_label hnext
  obtain ⟨mid', hmid', hlast'⟩ := run_split h (m + 1)
  obtain rfl := Except.ok.inj (htake.symm.trans hmid')
  obtain ⟨first, hfirst, hrest⟩ := run_split h k
  obtain rfl : s = first := Except.ok.inj (hs.symm.trans hfirst)
  have atEnd := recorded_of_run hlast' Std.HashMap.getElem?_insert_self
  rw [recorded_of_run hrest hr] at atEnd
  rw [heightAt?_label placed htake, atEnd]

theorem bounded_of_heightAt? (h : run {} code = .ok last) (ha : heightAt? code k = some a) :
    0 ≤ a ∧ a ≤ last.peak := by
  unfold heightAt? at ha
  split at ha
  · next s hs =>
    obtain ⟨mid, hmid, hlast⟩ := run_split h _
    obtain rfl := Except.ok.inj (hs.symm.trans hmid)
    have low := (bounded_empty.run hs).height a ha
    have grows := peak_le_of_run hlast
    omega
  · cases ha

/-- Behind an instruction that is reached the height lies between those bounds as well, also where
control does not go on from there. -/
theorem bounded_behind (h : run {} code = .ok last) (ha : heightAt? code k = some a)
    (hi : code[k]? = some i) : 0 ≤ a + i.effect ∧ a + i.effect ≤ last.peak := by
  cases plain : i.isLabel with
  | true =>
    obtain ⟨name, rfl⟩ := Instr.exists_of_isLabel plain
    simpa [Instr.effect] using bounded_of_heightAt? h ha
  | false =>
    obtain ⟨s, hs, -⟩ := run_split h k
    obtain ⟨next, hnext, htake⟩ := run_take_succ h hi hs
    rw [heightAt?_plain (by rw [hi]; exact plain) hs] at ha
    obtain ⟨low, -, -, hpeak⟩ := step_instr plain hnext ha
    obtain ⟨mid, hmid, hlast⟩ := run_split h (k + 1)
    obtain rfl := Except.ok.inj (htake.symm.trans hmid)
    have grows := peak_le_of_run hlast
    omega

end DepthScan

/-- The height that is found is the greatest of a scan that comes to the end of the code. -/
theorem maxStack_eq_ok {code : List Instr} {n : Nat} (h : maxStack code = .ok n) :
    ∃ last, DepthScan.run {} code = .ok last ∧ last.peak = n := by
  unfold maxStack at h
  split at h
  · next last hrun =>
    split at h
    · cases h
      have low := (DepthScan.bounded_empty.run hrun).peak
      exact ⟨last, hrun, by omega⟩
    · cases h
  · cases h

/-! ## Paths -/

open DepthScan

variable {code : List Instr} {k n : Nat} {a b : Int}

/-- Every jump to a label that is recorded by then comes with a height that stands so to the recorded
one. A jump that is the first to come to its label, in the order of the code, is free. -/
def JumpsMeet (R : Int → Int → Prop) (code : List Instr) : Prop :=
  ∀ {k : Nat} {a recorded : Int} {i : Instr} {name : String} {s : DepthScan},
    Reaches Shifts 0 code k a → code[k]? = some i → i.target? = some name →
      run {} (code.take k) = .ok s → s.labels[name]? = some recorded → R (a + i.effect) recorded

/-- A relation of heights that holds of equal ones, and does not change when both heights do. -/
structure Level (R : Int → Int → Prop) : Prop where
  refl : ∀ a, R a a
  add : ∀ {a b : Int} (d : Int), R a b → R (a + d) (b + d)

theorem level_le : Level (· ≤ ·) := ⟨Int.le_refl, fun _ h => by omega⟩

theorem level_ge : Level (· ≥ ·) := ⟨Int.le_refl, fun _ h => by omega⟩

theorem level_eq : Level (· = ·) := ⟨fun _ => rfl, fun _ h => by omega⟩

/-- The scan jumps with the height that is recorded for the label by then. -/
def JumpsCompared (code : List Instr) : Prop :=
  ∀ {k : Nat} {here recorded : Int} {i : Instr} {name : String} {s : DepthScan},
    DepthScan.heightAt? code k = some here → code[k]? = some i → i.target? = some name →
      run {} (code.take k) = .ok s → s.labels[name]? = some recorded → here + i.effect = recorded

/-- Wherever a path comes, the scan has a height, to which that of the path stands as those of jumps
do. The induction is on the path; the scan is asked at its ends only. -/
theorem heightAt?_of_reaches {R : Int → Int → Prop} (level : Level R) {last : DepthScan}
    (h : run {} code = .ok last)
    (jumps : ∀ {k : Nat} {a here recorded : Int} {i : Instr} {name : String} {s : DepthScan},
      Reaches Shifts 0 code k a → DepthScan.heightAt? code k = some here → R a here →
        code[k]? = some i → i.target? = some name → run {} (code.take k) = .ok s →
          s.labels[name]? = some recorded → R (a + i.effect) recorded)
    (hr : Reaches Shifts 0 code k a) :
    ∃ here, DepthScan.heightAt? code k = some here ∧ R a here := by
  induction hr with
  | start => exact ⟨0, heightAt?_of_height h (k := 0) rfl rfl, level.refl 0⟩
  | @next k i a b before hi continues shifts ih =>
    obtain ⟨here, hhere, meets⟩ := ih
    obtain ⟨s, hs, -⟩ := run_split h k
    obtain ⟨next, hnext, htake⟩ := run_take_succ h hi hs
    obtain rfl : b = a + i.effect := shifts
    cases plain : i.isLabel with
    | true =>
      obtain ⟨name, rfl⟩ := Instr.exists_of_isLabel plain
      obtain ⟨there, rfl, -⟩ := step_label hnext
      rw [heightAt?_label hi htake] at hhere
      cases hhere
      exact ⟨here, heightAt?_of_height h htake rfl, by simpa [Instr.effect] using meets⟩
    | false =>
      rw [heightAt?_plain (by rw [hi]; exact plain) hs] at hhere
      obtain ⟨-, -, hheight, -⟩ := step_instr plain hnext hhere
      rw [continues] at hheight
      exact ⟨_, heightAt?_of_height h htake hheight, level.add _ meets⟩
  | @jump k m i name a b before hi target shifts placed ih =>
    obtain ⟨here, hhere, meets⟩ := ih
    obtain ⟨s, hs, -⟩ := run_split h k
    obtain ⟨next, hnext, htake⟩ := run_take_succ h hi hs
    obtain rfl : b = a + i.effect := shifts
    have plain : i.isLabel = false := by cases i <;> first | rfl | cases target
    have hs' := heightAt?_plain (by rw [hi]; exact plain) hs
    obtain ⟨-, hlabels, -⟩ := step_instr plain hnext (hs'.symm.trans hhere)
    rw [target] at hlabels
    dsimp only at hlabels
    cases hrec : s.labels[name]? with
    | some recorded =>
      exact ⟨recorded, heightAt?_of_recorded h hs hrec placed,
        jumps before hhere meets hi target hs hrec⟩
    | none =>
      have first : next.labels[name]? = some (here + i.effect) := by
        rw [hlabels, Std.HashMap.getElem?_insertIfNew, if_pos]
        exact ⟨by simp, by simp [Std.HashMap.mem_iff_isSome_getElem?, hrec]⟩
      exact ⟨_, heightAt?_of_recorded h htake first placed, level.add _ meets⟩

theorem JumpsMeet.heightAt? {R : Int → Int → Prop} (hj : JumpsMeet R code) (level : Level R)
    {last : DepthScan} (h : run {} code = .ok last) (hr : Reaches Shifts 0 code k a) :
    ∃ here, DepthScan.heightAt? code k = some here ∧ R a here :=
  heightAt?_of_reaches level h (fun before _ _ => hj before) hr

/-- Where the scan jumps with the recorded heights, all paths do. -/
theorem JumpsCompared.jumpsMeet (hc : JumpsCompared code) {last : DepthScan}
    (h : run {} code = .ok last) : JumpsMeet (· = ·) code := by
  intro k a recorded i name s hr hi target hs hrec
  obtain ⟨here, hhere, rfl⟩ := heightAt?_of_reaches level_eq h
    (fun _ hhere meets hi target hs hrec => by rw [meets]; exact hc hhere hi target hs hrec) hr
  exact hc hhere hi target hs hrec

/-- On every path the heights in front of instructions and behind them have a property. -/
def Keeps (P : Int → Prop) (code : List Instr) : Prop :=
  ∀ {k : Nat} {a : Int}, Reaches Shifts 0 code k a →
    P a ∧ ∀ i, code[k]? = some i → P (a + i.effect)

/-- Paths whose jumps stand to the scan as `R` keep what `R` makes of the heights of the scan. -/
theorem JumpsMeet.keeps {R : Int → Int → Prop} {P : Int → Prop} (hj : JumpsMeet R code)
    (level : Level R) {last : DepthScan} (h : run {} code = .ok last)
    (hp : ∀ a here, R a here → 0 ≤ here → here ≤ last.peak → P a) : Keeps P code := by
  intro k a hr
  obtain ⟨here, hhere, meets⟩ := hj.heightAt? level h hr
  obtain ⟨low, high⟩ := bounded_of_heightAt? h hhere
  refine ⟨hp a here meets low high, fun i hi => ?_⟩
  obtain ⟨low, high⟩ := bounded_behind h hhere hi
  exact hp _ _ (level.add _ meets) low high

/-- **What the height that is found bounds.** If jumps come with no more than the recorded heights, no
path passes the height that is found; if they come with no less, no path falls below the empty stack;
and if they come with the recorded heights, every path stays between the two. The last is so just where
every path has the heights of the scan, and it is so if the scan jumps with the recorded heights. -/
theorem bounds_of_maxStack (h : maxStack code = .ok n)
    (placed : ∀ i ∈ code, ∀ name, i.target? = some name → .label name ∈ code) :
    (JumpsMeet (· ≤ ·) code → Keeps (· ≤ n) code) ∧
    (JumpsMeet (· ≥ ·) code → Keeps (0 ≤ ·) code) ∧
    (JumpsMeet (· = ·) code → Keeps (fun a => 0 ≤ a ∧ a ≤ n) code) ∧
    (JumpsMeet (· = ·) code ↔
      ∀ {k : Nat} {a : Int}, Reaches Shifts 0 code k a → DepthScan.heightAt? code k = some a) ∧
    (JumpsCompared code → JumpsMeet (· = ·) code) := by
  obtain ⟨last, hrun, hpeak⟩ := maxStack_eq_ok h
  refine ⟨fun hj => ?_, fun hj => ?_, fun hj => ?_, ⟨fun hj {k a} hr => ?_, fun hall => ?_⟩,
    fun hc => hc.jumpsMeet hrun⟩
  · exact hj.keeps (P := (· ≤ (n : Int))) level_le hrun fun a here meets _ high => by omega
  · exact hj.keeps (P := (0 ≤ ·)) level_ge hrun fun a here meets low _ => by omega
  · exact hj.keeps (P := fun a => 0 ≤ a ∧ a ≤ (n : Int)) level_eq hrun fun a here meets low high => by
      omega
  · obtain ⟨here, hhere, rfl⟩ := hj.heightAt? level_eq hrun hr
    exact hhere
  · intro k a recorded i name s hr hi target hs hrec
    obtain ⟨m, hm⟩ := List.mem_iff_getElem?.mp (placed i (List.mem_of_getElem? hi) name target)
    have jumped := hall (hr.jump hi target rfl hm)
    rw [heightAt?_of_recorded hrun hs hrec hm] at jumped
    exact (Option.some.inj jumped).symm

/-- A loop that keeps a value on the stack while it goes round, and returns it. -/
def countdownCode : List Instr := [
  .const 3, .label "again", .const 1, .arith .sub, .dup, .ifTrue "again", .ret (some .int)]

theorem maxStack_countdown : maxStack countdownCode = .ok 2 := by
  simp +decide [maxStack, countdownCode, run, DepthScan.step, atLabel, atInstr, Instr.effect,
    Instr.target?]

theorem heightAt?_countdown : DepthScan.heightAt? countdownCode 1 = some 1 ∧
    DepthScan.heightAt? countdownCode 5 = some 2 := by
  simp [DepthScan.heightAt?, countdownCode, Instr.isLabel, run, DepthScan.step, atLabel, atInstr,
    Instr.effect, Instr.target?, Instr.isTerminator]

/-- The jump back is made with one value left, which is the height recorded for the label. -/
theorem jumpsCompared_countdown : JumpsCompared countdownCode := by
  intro k here recorded i name s hhere hi target hs hrec
  obtain ⟨last, hrun, -⟩ := maxStack_eq_ok maxStack_countdown
  have only : ∀ k : Fin 7, ∀ name ∈ countdownCode[k].target?, k = 5 ∧ name = "again" := by decide
  obtain ⟨hk, rfl⟩ := List.getElem?_eq_some_iff.mp hi
  obtain ⟨h5, rfl⟩ := only ⟨k, hk⟩ name target
  obtain rfl : k = 5 := congrArg Fin.val h5
  obtain ⟨atLabel, atJump⟩ := heightAt?_countdown
  rw [atJump] at hhere
  rw [heightAt?_of_recorded hrun hs hrec (m := 1) rfl] at atLabel
  cases hhere
  cases atLabel
  rfl

/-- The loop stays within the two cells that are found for it, and needs both. -/
theorem bounds_of_maxStack_countdown : maxStack countdownCode = .ok 2 ∧
    (∀ i ∈ countdownCode, ∀ name, i.target? = some name → .label name ∈ countdownCode) ∧
    JumpsCompared countdownCode ∧ Keeps (fun a => 0 ≤ a ∧ a ≤ 2) countdownCode ∧
    Reaches Shifts 0 countdownCode 5 2 := by
  have placed : ∀ i ∈ countdownCode, ∀ name, i.target? = some name →
      .label name ∈ countdownCode := by
    simp [countdownCode, Instr.target?]
  obtain ⟨-, -, within, -, meets⟩ := bounds_of_maxStack maxStack_countdown placed
  have pushed : Reaches Shifts 0 countdownCode 1 1 := .next .start rfl rfl rfl
  have loop : Reaches Shifts 0 countdownCode 2 1 := pushed.next rfl rfl rfl
  have one : Reaches Shifts 0 countdownCode 3 2 := loop.next rfl rfl rfl
  have less : Reaches Shifts 0 countdownCode 4 1 := one.next rfl rfl rfl
  exact ⟨maxStack_countdown, placed, jumpsCompared_countdown, within (meets jumpsCompared_countdown),
    less.next rfl rfl rfl⟩

/-- A loop that pushes a value each time. -/
def climbingCode : List Instr := [.label "again", .const 1, .goto "again"]

/-- One cell is found for this loop, and it passes every height. -/
theorem maxStack_climbing : maxStack climbingCode = .ok 1 ∧
    ∀ n : Nat, Reaches Shifts 0 climbingCode 0 n := by
  refine ⟨?_, fun n => ?_⟩
  · simp +decide [maxStack, climbingCode, run, DepthScan.step, atLabel, atInstr, Instr.effect,
      Instr.target?]
  · induction n with
    | zero => exact .start
    | succ n ih =>
      have entered : Reaches Shifts 0 climbingCode 1 n := ih.next rfl rfl (by simp [Shifts, Instr.effect])
      have pushed : Reaches Shifts 0 climbingCode 2 (n + 1 : Nat) :=
        entered.next rfl rfl (by simp [Shifts, Instr.effect])
      exact pushed.jump rfl rfl (by simp [Shifts, Instr.effect]) (m := 0) rfl

end JavaMinus.Jvm
