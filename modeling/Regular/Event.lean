import Regular.Expr

/-!
# What the stages report

Every stage is a function; the observed form of a stage also lists, in order, the events on
the way to its result.
-/

namespace Regular

inductive Event where
  /-- The tokens once classes, escapes, `?` and `+` are written out. -/
  | desugared (tokens : List Token)
  /-- The tokens in postfix order. -/
  | reordered (tokens : List Token)
  /-- A node of the tree has become the part of an automaton between two states. -/
  | fragment (rule : Expr.Rule) (start stop : StateId)
  /-- A new set of states has been met and has become a state. -/
  | subsetState (id : StateId) (subset : IdSet) (final : Bool)
  /-- A move between sets of states has been added. -/
  | subsetMove (source : StateId) (symbol : Char) (target : StateId)
  /-- States have been dropped because nothing leads to them. -/
  | pruned (states : IdSet)
  /-- A pass of the refinement has ended with so many blocks. -/
  | pass (number blocks : Nat)
  /-- A block has been split. -/
  | split (block : IdSet) (parts : List IdSet)
deriving DecidableEq

/-- A result with the events on the way to it. -/
structure Observed (α : Type) where
  events : List Event
  result : α
deriving DecidableEq

end Regular
