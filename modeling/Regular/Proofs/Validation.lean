import Regular.Invocation
import Regular.Proofs.Compile
import Regular.Proofs.Dfa.Trim
import Regular.Proofs.Nfa.Trim
import Regular.Report

/-!
# What is compiled is in order

Nothing is found wrong with the stages of what compiles, on whatever strings the minimal
automaton is held against its source (`Compiled.Staged.findDefects_eq_nil`). The automaton of
the tree is in order, the others are trim, and something is accepted, because no expression
denotes the empty language.

So it makes no difference whether defects are looked for, and on which strings
(`compile_congr`). A batch is reported on without warnings, and an invocation whose
expression compiles expands to the table of its minimal automaton, never to code that fails
because of a defect (`defects_of_compile`).
-/

namespace Regular

variable {config config' : Config} {text : String} {c : Compiled}

namespace Compiled.Staged

theorem trim_dfa (h : c.Staged) : c.dfa.Trim := by
  obtain ⟨limit, hdfa⟩ := h.dfa
  obtain ⟨sets, hsets⟩ := Subset.exists_determinizes hdfa
  exact hsets.trim

theorem findDefects_eq_nil (h : c.Staged) (battery : List String) :
    c.findDefects battery = [] := by
  obtain ⟨w, hw⟩ := c.expr.exists_mem_language
  rw [← String.toList_ofList (l := w), ← h.accepts_nfa_iff] at hw
  have hnfa : c.nfa.defects = [] := h.nfa ▸ c.expr.defects_toNfa
  have hdfa : c.dfa.defects = [] := h.trim_dfa.defects_eq_nil ((h.accepts_dfa_eq _).trans hw)
  have hminimized : c.minimized.defects = [] := by
    have htrim : c.minimized.Trim := h.minimized ▸ c.dfa.trim_minimize
    exact htrim.defects_eq_nil ((h.accepts_minimized_eq _).trans hw)
  have hsize : c.minimized.size ≤ c.dfa.states.size := h.minimized ▸ c.dfa.size_minimize_le
  have hsame : ∀ input, c.dfa.accepts input = c.minimized.accepts input := by
    intro input
    rw [h.accepts_dfa_eq, h.accepts_minimized_eq]
  rw [findDefects, hnfa, hdfa, Dfa.defectsOfMinimized_eq hsize hsame, hminimized]
  rfl

end Compiled.Staged

/-! ## Looking for defects makes no difference -/

/-- Whether or not defects are looked for in the stages of an expression, none are found. -/
theorem defects_of_stages {e : Expr} {d : Dfa} {limit : Option Nat}
    (h : (e.toNfa.toDfaObserved limit).result = .ok d) (validate : Bool) (battery : List String) :
    (if validate then Compiled.findDefects ⟨text, e, e.toNfa, d, d.minimize, []⟩ battery
      else []) = [] := by
  have hstaged : Compiled.Staged ⟨text, e, e.toNfa, d, d.minimize, []⟩ := ⟨rfl, ⟨limit, h⟩, rfl⟩
  split
  · exact hstaged.findDefects_eq_nil battery
  · rfl

theorem defects_eq_nil_of_compile (h : compile config text = .ok c) : c.defects = [] := by
  unfold compile compileObserved at h
  simp only at h
  split at h
  · cases h
  · split at h
    · cases h
    · next d hd =>
      obtain rfl := Except.ok.inj h
      exact defects_of_stages hd config.validate config.battery

/-- What compiling gives, and the events on the way, depend on nothing but the limits. -/
theorem compileObserved_congr (hstates : config.maxDfaStates = config'.maxDfaStates)
    (hdepth : config.maxDepth = config'.maxDepth) (text : String) :
    compileObserved config text = compileObserved config' text := by
  unfold compileObserved
  simp only [hdepth, hstates]
  split
  · rfl
  · next e _ =>
    split
    · rfl
    · next d hd =>
      have hnone : ∀ (validate : Bool) (battery : List String),
          (if validate then Compiled.findDefects ⟨text, e, e.toNfa, d, d.minimize, []⟩ battery
            else []) = [] := defects_of_stages hd
      rw [show e.toNfaObserved.result = e.toNfa from rfl,
        show d.minimizeObserved.result = d.minimize from rfl, hnone, hnone]

theorem compile_congr (hstates : config.maxDfaStates = config'.maxDfaStates)
    (hdepth : config.maxDepth = config'.maxDepth) (text : String) :
    compile config text = compile config' text :=
  congrArg Observed.result (compileObserved_congr hstates hdepth text)

/-! ## Batches and invocations -/

/-- On an expression that compiles nothing is reported, and on another one its error. -/
theorem Report.ofResult_compile (config : Config) (index : Nat) (text : String) :
    Report.ofResult index text (compile config text) =
      match compile config text with
      | .ok _ => []
      | .error e => [⟨.error, e.summary, index, e.span text⟩] := by
  cases h : compile config text with
  | error e => rfl
  | ok c => rw [Report.ofResult, defects_eq_nil_of_compile h, List.map_nil]

theorem entries_compileAll (config : Config) (texts : List String) :
    (compileAll config texts).2.entries =
      texts.zipIdx.flatMap fun p => Report.ofResult p.2 p.1 (compile config p.1) :=
  List.flatMap_map ..

theorem severity_of_mem_entries {texts : List String} {entry : Report.Entry}
    (h : entry ∈ (compileAll config texts).2.entries) : entry.severity = .error := by
  rw [entries_compileAll] at h
  obtain ⟨⟨text, index⟩, -, hentry⟩ := List.mem_flatMap.1 h
  rw [Report.ofResult_compile] at hentry
  split at hentry
  · cases hentry
  · exact List.mem_singleton.1 hentry ▸ rfl

/-- Nothing is found wrong with what compiles, whether or not defects are looked for and on
whatever strings. No batch is reported on with a warning, and an invocation whose expression
compiles expands to the table of the minimal automaton. -/
theorem defects_of_compile :
    (∀ config text c, compile config text = .ok c →
      c.defects = [] ∧ ∀ battery, c.findDefects battery = []) ∧
    (∀ config texts, ∀ entry ∈ (compileAll config texts).2.entries, entry.severity = .error) ∧
    ∀ (i : Invocation) config c, i.config = .ok config → compile config i.regex = .ok c →
      i.code = c.minimized.toTable.code "kleene_automata" := by
  refine ⟨fun config text c h => ?_, fun config texts entry h => severity_of_mem_entries h,
    fun i config c hconfig h => ?_⟩
  · exact ⟨defects_eq_nil_of_compile h, (staged_of_compile h).2.findDefects_eq_nil⟩
  · simp only [Invocation.code, hconfig, h, defects_eq_nil_of_compile h]
    rfl

/-- An invocation without a ceiling, and a batch in which one expression lacks an operand. -/
theorem defects_of_compile_invocation : ∃ c, compile { maxDfaStates := none } "a*b|ε" = .ok c ∧
    c.findDefects ["", "ab", "ba"] = [] ∧
    Invocation.code ⟨"a*b|ε", some (.natural 0)⟩ = c.minimized.toTable.code "kleene_automata" ∧
    ∃ entry ∈ (compileAll { maxDfaStates := none } ["a|"]).2.entries, entry.severity = .error := by
  obtain ⟨c, hc, -⟩ : ∃ c, compile { maxDfaStates := none } "a*b|ε" = .ok c ∧ c.expr = _ :=
    exists_compile rfl
      (e := .union (.concat (.star (.literal 'a')) (.literal 'b')) .epsilon) rfl
  obtain ⟨hcompile, hbatch, hinvocation⟩ := defects_of_compile
  have hmem : (⟨.error, "Missing operand for |", 0, ⟨1, 1⟩⟩ : Report.Entry) ∈
      (compileAll { maxDfaStates := none } ["a|"]).2.entries := List.mem_singleton.2 rfl
  exact ⟨c, hc, (hcompile _ _ _ hc).2 _, hinvocation _ _ _ rfl hc, _, hmem, hbatch _ _ _ hmem⟩

end Regular
