import Regular.Cases
import Regular.Proofs.Validation

/-!
# What the outcome of a case says

A run of a case looks for defects in what is compiled, compares the answers of the three
automata on each string, and holds the answers against what is expected. Only the last of
these can fail, since nothing is ever found wrong with what compiles and the three answers
are always one. So the outcome is told by the language of the expression (`Case.outcome`),
and neither the strings that are only tried, nor the search for defects, nor other cases
change it (`runCases_outcomes`).
-/

namespace Regular

variable {base : Config} {c : Compiled}

/-! ## One string -/

namespace Case

/-- The line on a string that does not get the answer that it must get. -/
def shouldBe (answer : Bool) (input : String) : String :=
  Text.quote input ++ " should be " ++ verdictWord answer

/-- A line for each expectation that fails, where `matches?` gives the answers. -/
def violations (k : Case) (matches? : String → Bool) : List String :=
  (k.accept.filter (!matches? ·)).map (shouldBe true) ++
    (k.reject.filter matches?).map (shouldBe false)

end Case

/-- Since the stages agree, a string fails nothing but its own expectation. -/
theorem Compiled.Staged.check_eq (h : c.Staged) (input : String) (expected : Option Bool) :
    (c.check input expected).2 =
      match expected with
      | some answer => if answer = c.accepts input then [] else [Case.shouldBe answer input]
      | none => [] := by
  obtain ⟨b, hverdicts, -⟩ := h.verdicts_eq input
  have haccepts : c.accepts input = b := congrArg Verdicts.minimized hverdicts
  simp only [check, hverdicts, Verdicts.agree, Verdicts.accepted, beq_self_eq_true, Bool.and_self,
    haccepts]
  cases expected with
  | none => rfl
  | some answer => by_cases heq : answer = b <;> simp [heq, Case.shouldBe]

theorem Compiled.Staged.accepts_iff (h : c.Staged) (input : String) :
    c.accepts input = true ↔ input.toList ∈ c.expr.language := by
  rw [accepts, h.accepts_minimized_eq, h.accepts_nfa_iff]

/-! ## One case -/

namespace Case

variable {k : Case}

/-- The lines on the strings that must get one answer. -/
theorem flatMap_check (h : c.Staged) (inputs : List String) (answer : Bool) :
    (inputs.map (·, some answer)).flatMap (fun p => (c.check p.1 p.2).2) =
      (inputs.filter (answer ≠ c.accepts ·)).map (shouldBe answer) := by
  induction inputs with
  | nil => rfl
  | cons input inputs ih =>
      rw [List.map_cons, List.flatMap_cons, ih, h.check_eq, List.filter_cons]
      by_cases heq : answer = c.accepts input <;> simp [heq]

/-- The failures are the expectations that fail. -/
theorem flatMap_expectations (h : c.Staged) :
    k.expectations.flatMap (fun p => (c.check p.1 p.2).2) = k.violations c.accepts := by
  have htried : (k.probe.map (·, (none : Option Bool))).flatMap
      (fun p => (c.check p.1 p.2).2) = [] := by
    simp [List.flatMap_eq_nil_iff, h.check_eq]
  rw [expectations, List.flatMap_append, List.flatMap_append, flatMap_check h, flatMap_check h,
    htried, List.append_nil, violations]
  simp

/-- The outcome of a case by the language of its expression. -/
def outcome (base : Config) (k : Case) : Outcome :=
  match compile base k.regex with
  | .ok c => ⟨k.regex, true, k.violations c.accepts⟩
  | .error _ => ⟨k.regex, false, []⟩

/-- Neither the battery of a case nor its warnings, of which there are none, matter to its
outcome. -/
theorem result_run (base : Config) (shown : Shown) (k : Case) :
    (k.run base shown).result = k.outcome base := by
  have hstates : (k.config base).maxDfaStates = base.maxDfaStates := rfl
  have hdepth : (k.config base).maxDepth = base.maxDepth := rfl
  have hobserved : (compileObserved (k.config base) k.regex).result =
      compile base k.regex := compile_congr hstates hdepth k.regex
  have hproblems := Report.ofResult_compile base 0 k.regex
  simp only [run, hobserved, outcome]
  cases h : compile base k.regex with
  | error e =>
      rw [h] at hproblems
      simp [hproblems, Except.isOk, Except.toBool]
  | ok c =>
      rw [h] at hproblems
      simp [hproblems, Except.isOk, Except.toBool, List.flatMap_map,
        flatMap_expectations (staged_of_compile h).2]

/-- A case passes when its expression compiles and each of its strings gets the right
answer. -/
theorem passed_outcome_iff : (k.outcome base).passed = true ↔
    ∃ c, compile base k.regex = .ok c ∧ (∀ s ∈ k.accept, s.toList ∈ c.expr.language) ∧
      ∀ s ∈ k.reject, s.toList ∉ c.expr.language := by
  rw [outcome]
  cases h : compile base k.regex with
  | error e => simp [Outcome.passed]
  | ok c =>
      have hstaged := (staged_of_compile h).2
      simp [Outcome.passed, violations, List.filter_eq_nil_iff, ← hstaged.accepts_iff]

end Case

/-! ## Many cases -/

theorem result_runCases (base : Config) (shown : Shown) (cases : List Case) :
    (runCases base shown cases).result = cases.map (·.outcome base) := by
  simp only [runCases, List.map_map]
  exact List.map_congr_left fun k _ => Case.result_run base shown k

/-- There is one outcome for each case, in order. It passes precisely if the expression
compiles, its language has every string that is to be accepted, and it has none that is to be
rejected. The failures are the expectations that do not hold, one line for each. The outcome
depends on the two limits, the expression and the expected answers alone. -/
theorem runCases_outcomes (base : Config) (shown : Shown) (cases : List Case) :
    (runCases base shown cases).result.length = cases.length ∧
    ∀ (i : Nat) (k : Case), cases[i]? = some k →
      ∃ o, (runCases base shown cases).result[i]? = some o ∧ o.regex = k.regex ∧
        o.compiled = (compile base k.regex).isOk ∧
        (o.passed = true ↔ ∃ c, compile base k.regex = .ok c ∧
          (∀ s ∈ k.accept, s.toList ∈ c.expr.language) ∧
          ∀ s ∈ k.reject, s.toList ∉ c.expr.language) ∧
        (∀ c, compile base k.regex = .ok c →
          (∀ s, c.accepts s = true ↔ s.toList ∈ c.expr.language) ∧
            o.failures = k.violations c.accepts) ∧
        ∀ (base' : Config) (shown' : Shown) (cases' : List Case) (i' : Nat) (k' : Case),
          cases'[i']? = some k' → base'.maxDfaStates = base.maxDfaStates →
          base'.maxDepth = base.maxDepth → k'.regex = k.regex →
          k'.accept = k.accept → k'.reject = k.reject →
          (runCases base' shown' cases').result[i']? = some o := by
  refine ⟨by rw [result_runCases, List.length_map], fun i k hcase => ?_⟩
  refine ⟨k.outcome base, ?_, ?_, ?_, Case.passed_outcome_iff, fun c hc => ?_, ?_⟩
  · rw [result_runCases, List.getElem?_map, hcase, Option.map_some]
  · rw [Case.outcome]
    split <;> rfl
  · rw [Case.outcome]
    split <;> next h => rw [h]; rfl
  · refine ⟨(staged_of_compile hc).2.accepts_iff, ?_⟩
    rw [Case.outcome, hc]
  · intro base' shown' cases' i' k' hcase' hstates hdepth hregex haccept hreject
    rw [result_runCases, List.getElem?_map, hcase', Option.map_some, Case.outcome, Case.outcome,
      hregex, compile_congr hstates hdepth]
    simp only [Case.violations, haccept, hreject]

/-- Of three cases the first does not compile, the second fails on a string that it must not
accept, and the third, which only tries that string, passes; so it does on its own and with
no battery. -/
theorem runCases_outcomes_batch :
    let base : Config := { maxDfaStates := none }
    let cases : List Case :=
      [⟨"(", ["a"], [], []⟩, ⟨"a*", ["aa"], ["a"], []⟩, ⟨"a*", ["aa"], ["b"], ["a"]⟩]
    (∃ o, (runCases base {} cases).result[0]? = some o ∧ o.compiled = false) ∧
    (∃ o, (runCases base {} cases).result[1]? = some o ∧
      o.failures = ["\"a\" should be rejected"]) ∧
    ∃ o, (runCases base {} cases).result[2]? = some o ∧ o.passed = true ∧
      (runCases { base with battery := [] } {} [⟨"a*", ["aa"], ["b"], []⟩]).result[0]? =
        some o := by
  intro base cases
  obtain ⟨c, hc, hexpr⟩ : ∃ c, compile base "a*" = .ok c ∧ c.expr = .star (.literal 'a') :=
    exists_compile rfl rfl
  have hlanguage : ∀ s : String, s.toList ∈ c.expr.language ↔ ∀ y ∈ s.toList, y = 'a' := by
    intro s
    rw [hexpr, Expr.mem_language_star_literal]
  obtain ⟨-, houtcomes⟩ := runCases_outcomes base {} cases
  obtain ⟨o₀, h₀, -, hcompiled, -⟩ := houtcomes 0 _ rfl
  obtain ⟨o₁, h₁, -, -, -, hfailures, -⟩ := houtcomes 1 _ rfl
  obtain ⟨o₂, h₂, -, -, hpassed, -, hsame⟩ := houtcomes 2 _ rfl
  refine ⟨⟨o₀, h₀, hcompiled⟩, ⟨o₁, h₁, ?_⟩, ⟨o₂, h₂, ?_, ?_⟩⟩
  · obtain ⟨haccepts, hfailures⟩ := hfailures c hc
    have hlong : c.accepts "aa" = true := (haccepts _).2 ((hlanguage _).2 (by simp))
    have hshort : c.accepts "a" = true := (haccepts _).2 ((hlanguage _).2 (by simp))
    rw [hfailures]
    simp only [Case.violations, List.filter_cons, hlong, hshort]
    rfl
  · refine hpassed.2 ⟨c, hc, fun s hs => ?_, fun s hs => ?_⟩
    · rw [List.mem_singleton.1 hs, hlanguage]
      simp
    · rw [List.mem_singleton.1 hs, hlanguage]
      simp
  · exact hsame _ _ _ 0 _ rfl rfl rfl rfl rfl rfl

end Regular
