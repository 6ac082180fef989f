import Regular.Dfa

/-!
# Defects of automata

An automaton is well formed when its start exists, no edge dangles, it can accept something
and every state is on a way from the start; a nondeterministic one has exactly one final
state among these. A minimal automaton is also held against the one it was made from, on
sample strings.
-/

namespace Regular

inductive Defect where
  /-- The start is no state. -/
  | missingStart (start : StateId)
  /-- No state on a way from the start is final. -/
  | noFinalState
  /-- Several states on ways from the start are final. -/
  | multipleFinalStates (states : IdSet)
  /-- An edge leads to no state. -/
  | danglingTransition (source target : StateId)
  /-- The state is on no way from the start. -/
  | unreachableState (state : StateId)
  /-- The minimal automaton has more states than its source. -/
  | largerThanSource (source minimized : Nat)
  /-- The minimal automaton and its source disagree on an input. -/
  | finalMismatch (input : String) (source minimized : Bool)
deriving DecidableEq

/-- The word for an answer. -/
def verdictWord (accepted : Bool) : String := if accepted then "accepted" else "rejected"

namespace Defect

def message : Defect → String
  | missingStart start => "start state " ++ toString start ++ " does not exist"
  | noFinalState => "no reachable state is final"
  | multipleFinalStates states => "more than one final state: " ++ states.text
  | danglingTransition source target =>
    "transition " ++ toString source ++ " -> " ++ toString target ++
      " points to a state that does not exist"
  | unreachableState state => "state " ++ toString state ++ " is not reachable from the start"
  | largerThanSource source minimized =>
    "minimized automaton has " ++ toString minimized ++ " states, more than the " ++
      toString source ++ " of its source"
  | finalMismatch input source minimized =>
    Text.quote input ++ " is " ++ verdictWord source ++ " by the source but " ++
      verdictWord minimized ++ " by the minimized automaton"

/-- A defect for each state below `size` that is not in `states`. -/
def unreachableStates (size : Nat) (states : IdSet) : List Defect :=
  ((List.range size).filter (· ∉ states)).map unreachableState

end Defect

/-- What is wrong with the automaton. -/
def Nfa.defects (n : Nfa) : List Defect :=
  if n.size ≤ n.start then [.missingStart n.start]
  else
    let states := n.states
    let finals := states.filter n.isFinal
    let dangling := n.edges.filterMap fun (source, _, target) =>
      if n.size ≤ target then some (.danglingTransition source target) else none
    let final := match finals.size with
      | 0 => [.noFinalState]
      | 1 => []
      | _ => [.multipleFinalStates finals]
    dangling ++ final ++ Defect.unreachableStates n.size states

namespace Dfa

/-- What is wrong with the automaton. -/
def defects (d : Dfa) : List Defect :=
  if d.size = 0 then [.missingStart 0]
  else
    let dangling := d.edges.filterMap fun (source, _, target) =>
      if d.size ≤ target then some (.danglingTransition source target) else none
    let final := if d.finalStates.isEmpty then [.noFinalState] else []
    dangling ++ final ++ Defect.unreachableStates d.size d.states

/-- What is wrong with `minimized` as a minimal automaton for `source`, as far as the strings
of the battery show. -/
def defectsOfMinimized (source minimized : Dfa) (battery : List String) : List Defect :=
  let sourceSize := source.states.size
  let minimizedSize := minimized.states.size
  let larger :=
    if sourceSize < minimizedSize then [.largerThanSource sourceSize minimizedSize] else []
  let mismatches := battery.filterMap fun input =>
    let expected := source.accepts input
    let actual := minimized.accepts input
    if expected ≠ actual then some (.finalMismatch input expected actual) else none
  minimized.defects ++ larger ++ mismatches

end Dfa

end Regular
