import Regular.Log
import Regular.Report
import Regular.Setting

/-!
# Cases

A case is an expression with strings that it must accept, strings that it must reject, and
strings that are only tried. Running a case compiles the expression, shows its problems and
its automata, and tries the strings on all stages. A case passes when its expression compiles
and no expectation fails.
-/

namespace Regular

structure Case where
  regex : String
  accept : List String := []
  reject : List String := []
  probe : List String := []
deriving DecidableEq, Repr, Inhabited

/-- Which automata to show. -/
structure Shown where
  nfa : Bool := false
  dfa : Bool := false
  minimized : Bool := false
deriving DecidableEq, Repr

structure Outcome where
  regex : String
  compiled : Bool
  /-- One line for each expectation that failed. -/
  failures : List String
deriving DecidableEq, Repr

def Outcome.passed (o : Outcome) : Bool := o.compiled && o.failures.isEmpty

/-- What a run writes and logs, with its result. -/
structure Written (α : Type) where
  output : String
  log : List LogRecord
  result : α

namespace Case

/-- All strings of the case, each with the answer it must get, if any. -/
def expectations (c : Case) : List (String × Option Bool) :=
  c.accept.map (·, some true) ++ c.reject.map (·, some false) ++ c.probe.map (·, none)

/-- The settings of the case: its strings join the battery. -/
def config (c : Case) (base : Config) : Config :=
  { base with battery := base.battery ++ (c.accept ++ c.reject ++ c.probe) }

end Case

/-! ## What is written -/

/-- A line with the sizes of each automaton. -/
def Compiled.sizesText (c : Compiled) : String :=
  let line (name : String) (states transitions : Nat) : String :=
    "  " ++ name ++ ": " ++ toString states ++ " states, " ++ toString transitions ++
      " transitions\n"
  line "nfa" c.nfa.states.size c.nfa.transitionCount ++
    line "dfa" c.dfa.states.size c.dfa.transitionCount ++
    line "minimized" c.minimized.states.size c.minimized.transitionCount

/-- The automata that are to be shown. -/
def Compiled.tablesText (c : Compiled) (shown : Shown) : String :=
  let originLine : StateId × IdSet → String
    | (id, subset) => toString id ++ " = " ++ subset.text ++ "\n"
  (if shown.nfa then "NFA:\n" ++ c.nfa.text ++ "\n" else "") ++
    (if shown.dfa then "DFA:\n" ++ c.dfa.text ++ String.join (c.dfa.origins.map originLine) ++ "\n"
      else "") ++
    (if shown.minimized then "Minimized DFA:\n" ++ c.minimized.text ++ "\n" else "")

/-- The line for one string, and the expectations that it fails. -/
def Compiled.check (c : Compiled) (input : String) (expected : Option Bool) :
    String × List String :=
  let v := c.verdicts input
  let quoted := Text.quote input
  let disagreement :=
    if v.agree then ("", [])
    else
      (" (stages disagree: nfa " ++ verdictWord v.nfa ++ ", dfa " ++ verdictWord v.dfa ++ ")",
        ["stages disagree on " ++ quoted])
  let mismatch :=
    match expected with
    | some b =>
      if b = v.accepted then ("", [])
      else (", expected " ++ verdictWord b, [quoted ++ " should be " ++ verdictWord b])
    | none => ("", [])
  ("  " ++ quoted ++ " " ++ verdictWord v.accepted ++ disagreement.1 ++ mismatch.1 ++ "\n",
    disagreement.2 ++ mismatch.2)

/-! ## Running -/

/-- Runs one case. -/
def Case.run (base : Config) (shown : Shown) (c : Case) : Written Outcome :=
  let observed := compileObserved (c.config base) c.regex
  let problems : List Report.Entry := Report.ofResult 0 c.regex observed.result
  let warnings := problems.filterMap fun e =>
    if e.severity = .warning then some e.description else none
  let (checked, failures) : String × List String :=
    match observed.result with
    | .error _ => ("", warnings)
    | .ok compiled =>
      let lines : List (String × List String) :=
        c.expectations.map fun (input, expected) => compiled.check input expected
      (compiled.sizesText ++ compiled.tablesText shown ++ String.join (lines.map (·.1)),
        warnings ++ lines.flatMap (·.2))
  let failureLog : List LogRecord :=
    if failures.isEmpty then []
    else [⟨.info, "case failed",
      [("regex", c.regex), ("failures", toString failures.length)]⟩]
  { output := "regex: " ++ c.regex ++ "\n" ++
      String.join (problems.map fun e => e.diagnostic.render c.regex) ++ checked
    log := observed.log ++ failureLog
    result := ⟨c.regex, observed.result.isOk, failures⟩ }

/-- Runs cases one after the other, and counts those that pass. -/
def runCases (base : Config) (shown : Shown) (cases : List Case) : Written (List Outcome) :=
  let runs := cases.map (·.run base shown)
  let outcomes := runs.map (·.result)
  let passed := outcomes.countP (·.passed)
  { output := String.join (runs.map (·.output)) ++ toString passed ++ " of " ++
      toString outcomes.length ++ " cases passed\n"
    log := ⟨.debug, "running batch", [("cases", toString cases.length)]⟩ :: runs.flatMap (·.log)
    result := outcomes }

/-! ## Suites

A suite is a list of cases with the settings for compiling them. -/

structure Suite where
  config : Config := {}
  cases : List Case := []
deriving DecidableEq, Inhabited

/-- Reads the settings for compiling; what is left out has its default. -/
def Config.ofSetting? (s : Setting) : Option Config := do
  let [states, depth, validate, battery] ←
    s.fields? ["max_dfa_states", "max_depth", "validate", "battery"] | none
  let default : Config := {}
  return {
    maxDfaStates := ← Setting.readOr default.maxDfaStates Setting.limit? states
    maxDepth := ← Setting.readOr default.maxDepth Setting.limit? depth
    validate := ← Setting.readOr default.validate Setting.boolean? validate
    battery := ← Setting.readOr default.battery Setting.texts? battery }

/-- Reads a case; only the expression must be there. -/
def Case.ofSetting? (s : Setting) : Option Case := do
  let [regex, accept, reject, probe] ←
    s.fields? ["regex", "accept", "reject", "probe"] | none
  return {
    regex := ← regex >>= Setting.text?
    accept := ← Setting.readOr [] Setting.texts? accept
    reject := ← Setting.readOr [] Setting.texts? reject
    probe := ← Setting.readOr [] Setting.texts? probe }

namespace Suite

/-- Reads a suite; what is left out has its default. -/
def ofSetting? (s : Setting) : Option Suite := do
  let [config, cases] ← s.fields? ["compile", "case"] | none
  return {
    config := ← Setting.readOr {} Config.ofSetting? config
    cases := ← Setting.readOr [] (fun s => s.list? >>= (·.mapM Case.ofSetting?)) cases }

def run (shown : Shown) (s : Suite) : Written (List Outcome) := runCases s.config shown s.cases

end Suite

end Regular
