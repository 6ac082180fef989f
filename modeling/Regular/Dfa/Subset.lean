import Std.Data.HashMap
import Regular.Dfa
import Regular.Event

/-!
# Deterministic automata from nondeterministic ones

The states of the deterministic automaton are the non-empty sets of states in which the
nondeterministic one can be. They are numbered as they are met, and followed in the order of
their numbers, so that numbers grow with the length of the shortest way to a set and, among
ways of one length, with its least word. A ceiling on the number of sets makes the
construction stop.
-/

namespace Regular

/-- The construction would need more states than allowed. -/
structure LimitExceeded where
  limit : Nat
deriving DecidableEq, Repr

def LimitExceeded.message (e : LimitExceeded) : String :=
  "subset construction exceeded the limit of " ++ toString e.limit ++ " states"

namespace Subset

/-- The sets met so far, by number and by value, and the events so far. -/
structure Registry where
  sets : Array IdSet
  ids : Std.HashMap IdSet StateId
  events : Array Event

namespace Registry

def empty : Registry := ⟨#[], ∅, #[]⟩

def report (r : Registry) (e : Event) : Registry := { r with events := r.events.push e }

/-- The number of a set, which is a new one if the set is. A new set over the ceiling stops
the construction, and what is left of it are the events. -/
def locate (n : Nfa) (limit : Option Nat) (r : Registry) (s : IdSet) :
    Except (Array Event) (Registry × StateId) :=
  match r.ids[s]? with
  | some id => .ok (r, id)
  | none =>
    let id := r.sets.size
    if limit.any (· ≤ id) then .error r.events
    else .ok (report ⟨r.sets.push s, r.ids.insert s id, r.events⟩
      (.subsetState id s (n.containsFinal s)), id)

end Registry

/-- The characters that can be read in some state of the set. -/
def symbols (n : Nfa) (s : IdSet) : SortedSet Char :=
  (s.toList.filterMap n.node?).foldr (fun node cs => node.moves.keys ∪ cs) ∅

/-- The moves for the given characters of the set `s`, whose number is `source`. -/
def follow (n : Nfa) (limit : Option Nat) (source : StateId) (s : IdSet) :
    List Char → Registry → Except (Array Event) (Registry × List (Char × StateId))
  | [], r => .ok (r, [])
  | c :: cs, r => do
    let target := n.step s c
    if target.isEmpty then follow n limit source s cs r
    else
      let (r, id) ← r.locate n limit target
      let (r, moves) ← follow n limit source s cs (r.report (.subsetMove source c id))
      return (r, (c, id) :: moves)

/-- Turns the sets into nodes in the order of their numbers, beginning with the first that
has none. As sets are only added while others are followed, `fuel` need not exceed the number
of sets that there can be. -/
def explore (n : Nfa) (limit : Option Nat) : Nat → Registry → Array Dfa.Node →
    Except (Array Event) (Registry × Array Dfa.Node)
  | 0, r, nodes => .ok (r, nodes)
  | fuel + 1, r, nodes =>
    match r.sets[nodes.size]? with
    | none => .ok (r, nodes)
    | some s => do
      let (r, moves) ← follow n limit nodes.size s (symbols n s).toList r
      explore n limit fuel r (nodes.push ⟨n.containsFinal s, .ofList moves, some s⟩)

/-- No more sets than this can be met: each is a set of the numbers that are the start or the
target of an edge. -/
def bound (n : Nfa) : Nat := Nat.pow 2 (n.edges.length + 1)

end Subset

/-- The deterministic automaton of the sets of states of `n`, unless it has more than `limit`
states, where `none` is no limit. -/
def Nfa.toDfaObserved (n : Nfa) (limit : Option Nat) : Observed (Except LimitExceeded Dfa) :=
  let run := do
    let (r, _) ← Subset.Registry.empty.locate n limit n.initial
    Subset.explore n limit (Subset.bound n) r #[]
  match run with
  | .ok (r, nodes) => ⟨r.events.toList, .ok ⟨nodes⟩⟩
  | .error events => ⟨events.toList, .error ⟨limit.getD 0⟩⟩

/-- The deterministic automaton of the sets of states of `n`. -/
def Nfa.toDfa (n : Nfa) : Dfa :=
  match (n.toDfaObserved none).result with
  | .ok d => d
  | .error _ => .empty

end Regular
