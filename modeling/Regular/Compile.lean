import Regular.Defect
import Regular.Dfa.Minimize
import Regular.Dfa.Subset
import Regular.Expr.Parse
import Regular.Nfa.Thompson

/-!
# Compiling a regular expression

A text becomes a tree, the tree an automaton, that one a deterministic one, and that a
minimal one. All stages are kept, since each of them recognizes the language of the tree.
-/

namespace Regular

/-- How to compile. Limits that are `none` are no limits. -/
structure Config where
  /-- The largest number of states of the deterministic automaton. -/
  maxDfaStates : Option Nat := some 10000
  /-- The greatest depth of the tree. -/
  maxDepth : Option Nat := some Expr.defaultMaxDepth
  /-- Look for defects? -/
  validate : Bool := true
  /-- The strings on which the minimal automaton is held against its source. -/
  battery : List String := ["", "a", "b", "aa", "bb", "ab", "ba", "aaa", "bbb", "aba", "bab"]
deriving DecidableEq, Inhabited

inductive CompileError where
  | badSyntax (error : SyntaxError)
  | tooManyStates (limit : Nat)
deriving DecidableEq

namespace CompileError

def message : CompileError → String
  | badSyntax e => e.message
  | tooManyStates limit => "the DFA needs more than " ++ toString limit ++ " states"

def summary : CompileError → String
  | badSyntax e => e.summary
  | tooManyStates limit => "Too many DFA states, the limit is " ++ toString limit

/-- The part of the text that is to blame, the whole text where no part is. -/
def span (text : String) : CompileError → Span
  | badSyntax e => e.span
  | tooManyStates _ => .whole text.utf8ByteSize

end CompileError

/-- The stages of a regular expression, and the defects that were looked for and found. -/
structure Compiled where
  source : String
  expr : Expr
  nfa : Nfa
  dfa : Dfa
  minimized : Dfa
  defects : List Defect
deriving DecidableEq

/-- The answers of the three automata on one input. -/
structure Verdicts where
  nfa : Bool
  dfa : Bool
  minimized : Bool
deriving DecidableEq, Repr

namespace Verdicts

def agree (v : Verdicts) : Bool := v.nfa == v.dfa && v.dfa == v.minimized

/-- The answer that counts. -/
def accepted (v : Verdicts) : Bool := v.minimized

end Verdicts

namespace Compiled

def accepts (c : Compiled) (input : String) : Bool := c.minimized.accepts input

def verdicts (c : Compiled) (input : String) : Verdicts :=
  ⟨c.nfa.accepts input, c.dfa.accepts input, c.minimized.accepts input⟩

/-- The defects of all stages. -/
def findDefects (c : Compiled) (battery : List String) : List Defect :=
  c.nfa.defects ++ c.dfa.defects ++ c.dfa.defectsOfMinimized c.minimized battery

end Compiled

/-- Compiles a text, with the events of all stages up to a failure. -/
def compileObserved (config : Config) (text : String) :
    Observed (Except CompileError Compiled) :=
  let parsed := Expr.parseObserved config.maxDepth text
  match parsed.result with
  | .error e => ⟨parsed.events, .error (.badSyntax e)⟩
  | .ok expr =>
    let built := expr.toNfaObserved
    let nfa := built.result
    let determinized := nfa.toDfaObserved config.maxDfaStates
    let soFar := parsed.events ++ built.events ++ determinized.events
    match determinized.result with
    | .error e => ⟨soFar, .error (.tooManyStates e.limit)⟩
    | .ok dfa =>
      let reduced := dfa.minimizeObserved
      let c : Compiled := ⟨text, expr, nfa, dfa, reduced.result, []⟩
      let defects := if config.validate then c.findDefects config.battery else []
      ⟨soFar ++ reduced.events, .ok { c with defects }⟩

def compile (config : Config) (text : String) : Except CompileError Compiled :=
  (compileObserved config text).result

end Regular
