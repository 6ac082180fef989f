import Regular.SortedSet
import Regular.Text.Char

/-!
# States

What both kinds of automata have in common: why an edge between states cannot be added, and
which states can be reached.
-/

namespace Regular

/-! ## Edges that cannot be added

An edge needs a state to leave from, though not one to lead to; and a state of a
deterministic automaton has at most one edge per character. -/

inductive EdgeError where
  /-- There are only `count` states, so that `index` is none of them. -/
  | noState (count index : Nat)
  /-- The state has an edge for the character that leads elsewhere. -/
  | conflict (source : StateId) (symbol : Char) (old new : StateId)
deriving DecidableEq, Repr

def EdgeError.message : EdgeError → String
  | noState count index =>
    "index out of bounds: the len is " ++ toString count ++ " but the index is " ++ toString index
  | conflict source symbol old new =>
    "conflict! node " ++ toString source ++ ", " ++ Text.quoteChar symbol ++
      " is already connected to " ++ toString old ++ ", trying to reconnect to " ++ toString new

/-! ## Reachable states

The states `0, …, size - 1` that lie on a way from the given ones, where `next` lists the
states one step further. A depth-first search marks each state when it is first met. -/

/-- Marking a state leaves fewer unmarked ones. -/
theorem count_false_set_lt {marks : Array Bool} {i : Nat} (h : i < marks.size)
    (hi : marks[i] = false) : (marks.set i true).count false < marks.count false := by
  have hpos : 0 < marks.count false := Array.count_pos_iff.2 (hi ▸ Array.getElem_mem h)
  have heq : (marks.set i true).count false = marks.count false - 1 := by
    rw [Array.count_set h, hi]
    rfl
  omega

/-- Marks what can be reached from `todo` without passing through marked states. -/
def markReachable (next : StateId → List StateId) (marks : Array Bool) (todo : List StateId) :
    Array Bool :=
  match todo with
  | [] => marks
  | i :: todo =>
    if h : i < marks.size then
      if marks[i] = true then markReachable next marks todo
      else markReachable next (marks.set i true) (next i ++ todo)
    else markReachable next marks todo
termination_by (marks.count false, todo.length)
decreasing_by
  · exact Prod.Lex.right _ (by simp)
  · exact Prod.Lex.left _ _ (count_false_set_lt h (by simpa using ‹¬marks[i] = true›))
  · exact Prod.Lex.right _ (by simp)

/-- The states below `size` on a way from `seeds` through states below `size`. -/
def reachable (next : StateId → List StateId) (size : Nat) (seeds : List StateId) : IdSet :=
  let marks := markReachable next (Array.replicate size false) seeds
  IdSet.below size fun i => marks.getD i false

end Regular
