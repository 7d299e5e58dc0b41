import JavaMinus.Proofs.Lowering.Program

/-!
# Checked declarations

In a method whose declaration the checker accepts no two parameters have one name, and no local has
the name of a parameter. So every parameter is what its name stands for in the body. No parameter is
named `length`.
-/

namespace JavaMinus

variable {p : Program} {policy : Policy} {m : MethodDecl} {method : String} {seen : List String}

theorem checkFresh_eq_nil {d : VarDecl} : checkFresh method seen d = [] ↔ d.name ∉ seen := by
  unfold checkFresh
  split <;> simp_all

theorem names_of_checkParams {ps : List VarDecl} (h : checkParams method seen ps = []) :
    (ps.map VarDecl.name).Nodup ∧ ∀ q ∈ ps, q.name ∉ seen := by
  induction ps generalizing seen with
  | nil => simp
  | cons q rest ih =>
    obtain ⟨h, hrest⟩ := List.append_eq_nil_iff.mp h
    have hfresh := checkFresh_eq_nil.mp (List.append_eq_nil_iff.mp h).2
    obtain ⟨hnodup, hnew⟩ := ih hrest
    refine ⟨List.nodup_cons.mpr ⟨fun hmem => ?_, hnodup⟩, List.forall_mem_cons.mpr ⟨hfresh, ?_⟩⟩
    · obtain ⟨r, hr, hname⟩ := List.mem_map.mp hmem
      exact hnew r hr (by rw [hname]; exact List.mem_cons_self)
    · exact fun r hr hmem => hnew r hr (List.mem_cons_of_mem _ hmem)

theorem names_of_checkLocals {ds : List VarDecl} (h : checkLocals method seen ds = []) :
    ∀ d ∈ ds, d.name ∉ seen := by
  induction ds generalizing seen with
  | nil => simp
  | cons d rest ih =>
    obtain ⟨h, hrest⟩ := List.append_eq_nil_iff.mp h
    have hfresh := checkFresh_eq_nil.mp (List.append_eq_nil_iff.mp h).2
    exact List.forall_mem_cons.mpr ⟨hfresh,
      fun e he hmem => ih hrest e he (List.mem_cons_of_mem _ hmem)⟩

/-- No parameter of an accepted declaration is named `length`. -/
theorem ne_length_of_checkParams {method : String} : ∀ {ps : List VarDecl} {seen : List String},
    checkParams method seen ps = [] → ∀ d ∈ ps, d.name ≠ "length"
  | [], _, _ => fun _ hd => absurd hd List.not_mem_nil
  | first :: rest, seen, h => by
    obtain ⟨h, hrest⟩ := List.append_eq_nil_iff.mp h
    obtain ⟨h, -⟩ := List.append_eq_nil_iff.mp h
    obtain ⟨-, h⟩ := List.append_eq_nil_iff.mp h
    refine List.forall_mem_cons.mpr ⟨fun heq => ?_, ne_length_of_checkParams hrest⟩
    rw [if_pos (beq_iff_eq.mpr heq)] at h
    cases h

/-- The first symbol of a name, where names are different, is the only one. -/
theorem lookupSymbol_of_nodup {symbols : List Symbol} (h : (symbols.map Symbol.name).Nodup)
    {q : Symbol} (hq : q ∈ symbols) : lookupSymbol q.name symbols = some q := by
  unfold lookupSymbol
  induction symbols with
  | nil => cases hq
  | cons first rest ih =>
    obtain ⟨hnot, hrest⟩ := List.nodup_cons.mp h
    rcases List.mem_cons.mp hq with rfl | hq
    · simp
    · have hne : first.name ≠ q.name := by
        intro heq
        apply hnot
        rw [heq]
        exact List.mem_map_of_mem hq
      rw [List.find?_cons_of_neg (by simpa using hne)]
      exact ih hrest hq

/-- The parameters of an accepted declaration have different names. -/
theorem MethodDecl.nodup_of_checkSignature (h : m.checkSignature = []) :
    (m.signature.parameters.map Symbol.name).Nodup := by
  have hparams := (List.append_eq_nil_iff.mp (List.append_eq_nil_iff.mp h).1).2
  have hnames : m.signature.parameters.map Symbol.name = m.params.map VarDecl.name := by
    simp [signature, VarDecl.symbol]
  rw [hnames]
  exact (names_of_checkParams hparams).1

/-- The name of a parameter stands for the parameter. -/
theorem Program.resolve?_parameter (h : m.checkSignature = []) {q : Symbol}
    (hq : q ∈ m.signature.parameters) :
    (p.scopeOf policy m).resolve? q.name = some ⟨q, .parameter⟩ := by
  have hlocals := names_of_checkLocals (List.append_eq_nil_iff.mp h).2
  have hlocal : m.signature.local? q.name = none := by
    unfold Signature.local? lookupSymbol
    rw [List.find?_eq_none]
    intro l hl heq
    obtain ⟨d, hd, rfl⟩ := List.mem_map.mp hl
    obtain ⟨e, he, rfl⟩ := List.mem_map.mp hq
    refine hlocals d hd (List.mem_reverse.mpr ?_)
    rw [show d.name = e.name by simpa [VarDecl.symbol] using heq]
    exact List.mem_map_of_mem he
  have hparam : m.signature.parameter? q.name = some q :=
    lookupSymbol_of_nodup (MethodDecl.nodup_of_checkSignature h) hq
  have hmethod : (p.scopeOf policy m).method = m.signature := rfl
  rw [Scope.resolve?, hmethod, hlocal, hparam]

end JavaMinus
