import Regular.CharMap
import Regular.State

/-!
# Nondeterministic automata

The states of an automaton are numbered from zero. An edge is labelled with a character, or
with nothing when it is taken without reading. Edges may dangle, that is, lead to numbers
that no state has; any state may be final, though constructions end in the one state `stop`.
-/

namespace Regular

/-- A state: whether it is final, and the edges that leave it. -/
structure Nfa.Node where
  final : Bool
  epsilon : IdSet
  moves : CharMap IdSet
deriving DecidableEq, Inhabited

/-- A nondeterministic automaton with moves that read nothing. -/
structure Nfa where
  nodes : Array Nfa.Node
  start : StateId
  stop : StateId
deriving DecidableEq, Inhabited

namespace Nfa

def Node.new (final : Bool) : Node := ⟨final, ∅, ∅⟩

/-- The node with one more edge. -/
def Node.connect (node : Node) (target : StateId) : Option Char → Node
  | none => { node with epsilon := node.epsilon.insert target }
  | some c =>
    { node with moves := node.moves.alter c fun targets => (targets.getD ∅).insert target }

/-- The labels and targets of the edges, those that read nothing first. -/
def Node.edges (node : Node) : List (Option Char × StateId) :=
  node.epsilon.toList.map (none, ·) ++
    node.moves.entries.flatMap fun (c, targets) => targets.toList.map (some c, ·)

/-! ## Building -/

/-- The automaton without states. -/
def empty : Nfa := ⟨#[], 0, 0⟩

/-- The number of states, which is also the number that the next new state takes. -/
def size (n : Nfa) : Nat := n.nodes.size

def addNode (n : Nfa) (final : Bool) : Nfa := { n with nodes := n.nodes.push (.new final) }

def setFinal (n : Nfa) (i : StateId) (final : Bool) : Nfa :=
  { n with nodes := n.nodes.modify i ({ · with final }) }

/-- Adds an edge, unless there is no state to leave from. -/
def connect (n : Nfa) (source target : StateId) (label : Option Char) : Nfa :=
  { n with nodes := n.nodes.modify source (·.connect target label) }

def addEdge (n : Nfa) (source target : StateId) (label : Option Char) : Except EdgeError Nfa :=
  if source < n.size then .ok (n.connect source target label) else .error (.noState n.size source)

/-! ## Observers -/

def node? (n : Nfa) (i : StateId) : Option Node := n.nodes[i]?

def isFinal (n : Nfa) (i : StateId) : Bool := (n.node? i).any (·.final)

/-- The labels and targets of the edges that leave a state. -/
def edgesFrom (n : Nfa) (i : StateId) : List (Option Char × StateId) :=
  ((n.node? i).map (·.edges)).getD []

/-- All edges, in the order of the states that they leave. -/
def edges (n : Nfa) : List (StateId × Option Char × StateId) :=
  (List.range n.size).flatMap fun i => (n.edgesFrom i).map (i, ·)

/-- The states on a way from the start. -/
def states (n : Nfa) : IdSet :=
  reachable (fun i => (n.edgesFrom i).map (·.2)) n.size [n.start]

/-- The characters that can be read in the states on a way from the start. -/
def alphabet (n : Nfa) : SortedSet Char :=
  (n.states.toList.filterMap n.node?).foldr (fun node cs => node.moves.keys ∪ cs) ∅

/-- The number of edges that leave states on a way from the start. -/
def transitionCount (n : Nfa) : Nat :=
  (n.states.toList.flatMap n.edgesFrom).length

/-- The states on a way from the start, with a line for each of their edges. -/
def text (n : Nfa) : String :=
  let states := n.states
  let line (source : StateId) : Option Char × StateId → String
    | (none, target) => toString source ++ " -> " ++ toString target ++ "\n"
    | (some c, target) =>
      toString source ++ " -> " ++ toString target ++ " (" ++ Text.quoteChar c ++ ")\n"
  "Nodes: " ++ toString states.size ++ ", start: " ++ toString n.start ++ ", final: " ++
    toString n.stop ++ "\n" ++
    String.join (states.toList.flatMap fun i => (n.edgesFrom i).map (line i))

/-! ## Runs

A run keeps the set of states that the automaton may be in. Before and after each character
the set is closed under the edges that read nothing. -/

/-- The targets of the edges that leave a state and read nothing. -/
def epsilonTargets (n : Nfa) (i : StateId) : List StateId :=
  ((n.node? i).map (·.epsilon.toList)).getD []

/-- All that can be reached from `s` without reading, `s` itself included. -/
def closure (n : Nfa) (s : IdSet) : IdSet :=
  let passed := reachable n.epsilonTargets n.size s.toList
  s ∪ .ofList (passed.toList.flatMap n.epsilonTargets)

/-- What the states of `s` lead to by reading `c`, before closure. -/
def advance (n : Nfa) (s : IdSet) (c : Char) : IdSet :=
  s.toList.foldr
    (fun i t => match n.node? i >>= (·.moves.get? c) with
      | some targets => targets ∪ t
      | none => t) ∅

/-- What the states of `s` lead to by reading `c`. -/
def step (n : Nfa) (s : IdSet) (c : Char) : IdSet := n.closure (n.advance s c)

/-- The states that the automaton may be in before it reads anything. -/
def initial (n : Nfa) : IdSet := n.closure (.singleton n.start)

def containsFinal (n : Nfa) (s : IdSet) : Bool := s.toList.any n.isFinal

/-! ### Acceptance -/

/-- Is the text accepted from the states of `s`? The answer is no as soon as no state is
left. -/
def acceptsFrom (n : Nfa) (s : IdSet) : List Char → Bool
  | [] => n.containsFinal s
  | c :: cs =>
    let s' := n.step s c
    if s'.isEmpty then false else n.acceptsFrom s' cs

def accepts (n : Nfa) (input : String) : Bool := n.acceptsFrom n.initial input.toList

/-! ### Traces -/

/-- A step of a run: the character read, which the first step lacks, and the states after it
before and after closure. -/
structure Step where
  symbol : Option Char
  moved : IdSet
  closed : IdSet
deriving DecidableEq

/-- The steps of a run from the states of `s`, up to the one that leaves no state. -/
def stepsFrom (n : Nfa) (s : IdSet) : List Char → List Step
  | [] => []
  | c :: cs =>
    let moved := n.advance s c
    let closed := n.closure moved
    ⟨some c, moved, closed⟩ :: if closed.isEmpty then [] else n.stepsFrom closed cs

/-- Whether the input is accepted, and the steps of the run on it. -/
def trace (n : Nfa) (input : String) : Bool × List Step :=
  let steps := ⟨none, .singleton n.start, n.initial⟩ :: n.stepsFrom n.initial input.toList
  (n.containsFinal ((steps.getLast?.map (·.closed)).getD ∅), steps)

end Nfa

end Regular
