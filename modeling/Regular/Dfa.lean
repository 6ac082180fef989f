import Regular.Nfa

/-!
# Deterministic automata

The start is always state zero. A state has at most one move per character; where it has none
the automaton rejects. Moves may dangle, that is, lead to numbers that no state has. A state
that stands for a set of states of another automaton records that set as its origin.

Besides being run, an automaton can be made complete, turned into a nondeterministic one with
a single final state, and written down as a table, from which it can be read again.
-/

namespace Regular

/-- A state: whether it is final, its moves, and the set it stands for, if any. -/
structure Dfa.Node where
  final : Bool
  moves : CharMap StateId
  origin : Option IdSet
deriving DecidableEq, Inhabited

/-- A deterministic automaton, in which moves may be missing. -/
structure Dfa where
  nodes : Array Dfa.Node
deriving DecidableEq, Inhabited

namespace Dfa

def Node.new (final : Bool) : Node := ⟨final, ∅, none⟩

/-! ## Building -/

/-- The automaton without states. -/
def empty : Dfa := ⟨#[]⟩

/-- `n` states that are not final and have no moves. -/
def ofSize (n : Nat) : Dfa := ⟨Array.replicate n (.new false)⟩

/-- The number of states, which is also the number that the next new state takes. -/
def size (d : Dfa) : Nat := d.nodes.size

def node? (d : Dfa) (i : StateId) : Option Node := d.nodes[i]?

def addNode (d : Dfa) (final : Bool) : Dfa := ⟨d.nodes.push (.new final)⟩

def setFinal (d : Dfa) (i : StateId) (final : Bool) : Dfa :=
  ⟨d.nodes.modify i ({ · with final })⟩

def setOrigin (d : Dfa) (i : StateId) (origin : IdSet) : Dfa :=
  ⟨d.nodes.modify i ({ · with origin := some origin })⟩

/-- Adds a move, unless the state has one for the character already. Gives the target that
the character then has. -/
def addEdgeIfNew (d : Dfa) (source target : StateId) (c : Char) :
    Except EdgeError (Dfa × StateId) :=
  match d.node? source with
  | none => .error (.noState d.size source)
  | some node =>
    .ok (⟨d.nodes.modify source fun node => { node with moves := node.moves.insertIfNew c target }⟩,
      (node.moves.get? c).getD target)

/-- Adds a move; one to another target must not be there. -/
def addEdge (d : Dfa) (source target : StateId) (c : Char) : Except EdgeError Dfa := do
  let (d, actual) ← d.addEdgeIfNew source target c
  if actual = target then return d else throw (.conflict source c actual target)

/-! ## Observers -/

def isFinal (d : Dfa) (i : StateId) : Bool := (d.node? i).any (·.final)

/-- Where a state leads by reading `c`. -/
def next? (d : Dfa) (i : StateId) (c : Char) : Option StateId := do
  (← d.node? i).moves.get? c

/-- The characters and targets of the moves of a state. -/
def movesFrom (d : Dfa) (i : StateId) : List (Char × StateId) :=
  ((d.node? i).map (·.moves.entries)).getD []

/-- All moves, in the order of the states that they leave. -/
def edges (d : Dfa) : List (StateId × Char × StateId) :=
  (List.range d.size).flatMap fun i => (d.movesFrom i).map (i, ·)

/-- The states on a way from the start. -/
def states (d : Dfa) : IdSet :=
  reachable (fun i => (d.movesFrom i).map (·.2)) d.size [0]

/-- The final states on a way from the start. -/
def finalStates (d : Dfa) : IdSet := d.states.filter d.isFinal

/-- The characters that can be read in the states on a way from the start. -/
def alphabet (d : Dfa) : SortedSet Char :=
  (d.states.toList.filterMap d.node?).foldr (fun node cs => node.moves.keys ∪ cs) ∅

/-- The number of moves of the states on a way from the start. -/
def transitionCount (d : Dfa) : Nat :=
  (d.states.toList.flatMap d.movesFrom).length

/-- The states that stand for sets, with these sets. -/
def origins (d : Dfa) : List (StateId × IdSet) :=
  (List.range d.size).filterMap fun i => do return (i, ← (← d.node? i).origin)

/-- The states on a way from the start, with a line for each final one and for each move. -/
def text (d : Dfa) : String :=
  let states := d.states
  let finalLine (i : StateId) : String := toString i ++ " = final\n"
  let moveLine (i : StateId) (move : Char × StateId) : String :=
    toString i ++ " -> " ++ toString move.2 ++ " (" ++ Text.quoteChar move.1 ++ ")\n"
  "Nodes: " ++ toString states.size ++ ", start: 0\n" ++
    String.join (d.finalStates.toList.map finalLine) ++
    String.join (states.toList.flatMap fun i => (d.movesFrom i).map (moveLine i))

/-! ## Runs -/

/-- The state in which a run from `i` ends, `none` if it meets a missing move. -/
def runFrom? (d : Dfa) (i : StateId) : List Char → Option StateId
  | [] => some i
  | c :: cs => d.next? i c >>= (d.runFrom? · cs)

/-- Is the text accepted from state `i`? -/
def acceptsFrom (d : Dfa) (i : StateId) (input : List Char) : Bool :=
  (d.runFrom? i input).any d.isFinal

/-- Is the input accepted? The automaton without states accepts nothing. -/
def accepts (d : Dfa) (input : String) : Bool := d.acceptsFrom 0 input.toList

/-- The states that a run from `i` passes, with `i` the first, up to a missing move, and
whether the run ends in a final state. It does not where it meets a missing move. -/
def traceFrom (d : Dfa) (i : StateId) : List Char → Bool × List StateId
  | [] => (d.isFinal i, [i])
  | c :: cs =>
    match d.next? i c with
    | none => (false, [i])
    | some j =>
      let (accepted, path) := d.traceFrom j cs
      (accepted, i :: path)

/-- Whether the input is accepted, and the states that the run passes. -/
def trace (d : Dfa) (input : String) : Bool × List StateId :=
  if d.size = 0 then (false, []) else d.traceFrom 0 input.toList

/-! ## Complete automata

An automaton is complete when each state on a way from the start has a move for each
character of the alphabet. Missing moves can be led to a new state that is not final and that
nothing leaves. -/

def isComplete (d : Dfa) : Bool :=
  let alphabet := d.alphabet.toList
  (d.states.toList.filterMap d.node?).all fun node => alphabet.all node.moves.contains

/-- The node with a move to `sink` for each listed character that has none. -/
def Node.fill (node : Node) (sink : StateId) (cs : List Char) : Node :=
  { node with moves := cs.foldl (·.insertIfNew · sink) node.moves }

/-- A complete automaton for the same language, which is `d` itself where that is
complete. -/
def completed (d : Dfa) : Dfa :=
  if d.size = 0 || d.isComplete then d
  else
    let alphabet := d.alphabet.toList
    ⟨(d.addNode false).nodes.map (·.fill d.size alphabet)⟩

/-! ## Deterministic automata as nondeterministic ones

The states and moves stay as they are; a new state, to which the final ones lead without
reading, is the only final one. -/

/-- The moves of a node, and an edge to `stop` if it is final. -/
def Node.toNfaNode (node : Node) (stop : StateId) : Nfa.Node where
  final := false
  epsilon := if node.final then .singleton stop else ∅
  moves := node.moves.filterMap fun target => some (.singleton target)

/-- The automaton with a single new final state. -/
def toNfa (d : Dfa) : Nfa where
  nodes := (d.nodes.map (·.toNfaNode d.size)).push (.new true)
  start := 0
  stop := d.size

end Dfa

/-! ## Tables

A deterministic automaton is determined by its table: which states are final, and the list of
its moves. Reading a table back needs every source to be a state, and one target per source
and character. -/

/-- The finality of each state and the moves. -/
structure Table where
  finals : List Bool
  edges : List (StateId × Char × StateId)
deriving DecidableEq, Repr

namespace Dfa

/-- The automaton of a table. -/
def ofTable (t : Table) : Except EdgeError Dfa :=
  t.edges.foldlM (fun d (source, c, target) => d.addEdge source target c)
    ⟨(t.finals.map Node.new).toArray⟩

def toTable (d : Dfa) : Table := ⟨d.nodes.toList.map (·.final), d.edges⟩

end Dfa

/-! ### Code

The table as an expression that calls the constructor of the library with the given name. -/

namespace Table

/-- The items as the elements of a vector, with spaces as between separate tokens. -/
def vecCode (items : List String) : String := "vec ! [" ++ " , ".intercalate items ++ "]"

def edgeCode : StateId × Char × StateId → String
  | (source, c, target) =>
    "(" ++ toString source ++ "u32 , " ++ Text.quoteChar c ++ " , " ++ toString target ++ "u32)"

/-- An expression that builds the automaton again. -/
def code (library : String) (t : Table) : String :=
  library ++ " :: automata :: DFA :: from_raw (" ++
    vecCode (t.finals.map fun b => if b then "true" else "false") ++ " , " ++
    vecCode (t.edges.map edgeCode) ++ ")"

end Table

end Regular
