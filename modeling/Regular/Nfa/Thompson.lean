import Regular.Event
import Regular.Nfa

/-!
# The automaton of an expression

Each node of the tree becomes a fragment: the part of the automaton between a state that
nothing enters and a state that nothing leaves. Trees can be deep, so the walk over them
keeps its own stack of what is still to be done. Children come before their node, the left
one first; the rule of a node finds the fragments of its children on top of a second stack,
the right one first.
-/

namespace Regular

/-- The part of an automaton between two states. -/
structure Fragment where
  start : StateId
  stop : StateId
deriving DecidableEq, Repr

namespace Fragment

/-- An edge between two new states. -/
def symbol (n : Nfa) (label : Option Char) : Nfa × Fragment :=
  let f : Fragment := ⟨n.size, n.size + 1⟩
  (((n.addNode false).addNode true).connect f.start f.stop label, f)

/-- An edge from the end of `l` to the start of `r`. -/
def concat (n : Nfa) (l r : Fragment) : Nfa × Fragment :=
  ((n.setFinal l.stop false).connect l.stop r.start none, ⟨l.start, r.stop⟩)

/-- Edges from a new start to those of `l` and `r`, and from their ends to a new end. -/
def union (n : Nfa) (l r : Fragment) : Nfa × Fragment :=
  let f : Fragment := ⟨n.size, n.size + 1⟩
  let n := (n.addNode false).addNode true
  let n := (n.connect f.start l.start none).connect f.start r.start none
  let n := (n.setFinal l.stop false).connect l.stop f.stop none
  ((n.setFinal r.stop false).connect r.stop f.stop none, f)

/-- Edges around `e` and back through it, between a new start and a new end. -/
def star (n : Nfa) (e : Fragment) : Nfa × Fragment :=
  let f : Fragment := ⟨n.size, n.size + 1⟩
  let n := (n.addNode false).addNode true
  let n := (n.connect f.start f.stop none).connect f.start e.start none
  let n := (n.connect e.stop f.stop none).connect e.stop e.start none
  (n.setFinal e.stop false, f)

end Fragment

/-! ## Rules one after the other -/

/-- Why an automaton could not be put together. -/
inductive AssemblyError where
  /-- A rule finds too few fragments. -/
  | noOperand
  /-- No fragment is left when all rules have been applied. -/
  | noFragment
deriving DecidableEq, Repr

/-- An automaton that is being put together, the fragments that no rule has taken up yet, the
newest one first, and the events so far. -/
structure Assembly where
  nfa : Nfa
  built : List Fragment
  events : Array Event

namespace Assembly

def empty : Assembly := ⟨.empty, [], #[]⟩

/-- Takes the newest fragment. -/
def pop (a : Assembly) : Except AssemblyError (Fragment × Assembly) :=
  match a.built with
  | [] => .error .noOperand
  | f :: built => .ok (f, { a with built })

/-- Adds the fragment that a rule has made. -/
def push (a : Assembly) (rule : Expr.Rule) (made : Nfa × Fragment) : Assembly :=
  ⟨made.1, made.2 :: a.built, a.events.push (.fragment rule made.2.start made.2.stop)⟩

/-- Applies a rule to the newest fragments, the last of which is its right operand. -/
def apply (a : Assembly) (rule : Expr.Rule) : Except AssemblyError Assembly :=
  match rule with
  | .literal c => return a.push rule (Fragment.symbol a.nfa (some c))
  | .epsilon => return a.push rule (Fragment.symbol a.nfa none)
  | .concat => do
    let (r, a) ← a.pop
    let (l, a) ← a.pop
    return a.push rule (Fragment.concat a.nfa l r)
  | .union => do
    let (r, a) ← a.pop
    let (l, a) ← a.pop
    return a.push rule (Fragment.union a.nfa l r)
  | .star => do
    let (e, a) ← a.pop
    return a.push rule (Fragment.star a.nfa e)

/-! ## The walk over a tree -/

/-- What is still to be done. -/
inductive Task where
  /-- To build the fragment of a tree. -/
  | visit (e : Expr)
  /-- To apply the rule of a node whose children have been built. -/
  | combine (rule : Expr.Rule)

/-- No more tasks than this come of a task, itself included. -/
def Task.weight : Task → Nat
  | visit e => 2 * e.nodeCount
  | combine _ => 1

/-- Does the tasks one after the other. -/
def walk : List Task → Assembly → Except AssemblyError Assembly
  | [], a => .ok a
  | .visit (.literal c) :: tasks, a => do walk tasks (← a.apply (.literal c))
  | .visit .epsilon :: tasks, a => do walk tasks (← a.apply .epsilon)
  | .visit (.concat l r) :: tasks, a => walk (.visit l :: .visit r :: .combine .concat :: tasks) a
  | .visit (.union l r) :: tasks, a => walk (.visit l :: .visit r :: .combine .union :: tasks) a
  | .visit (.star e) :: tasks, a => walk (.visit e :: .combine .star :: tasks) a
  | .combine rule :: tasks, a => do walk tasks (← a.apply rule)
termination_by tasks => tasks.foldr (·.weight + ·) 0
decreasing_by
  all_goals
    simp only [List.foldr_cons, Task.weight, Expr.nodeCount]
    omega

/-- The automaton of a tree before its ends are marked, and the fragment that is all of
it. -/
def ofExpr (e : Expr) : Except AssemblyError (Fragment × Assembly) := do
  let a ← walk [.visit e] .empty
  match a.built with
  | [] => throw .noFragment
  | f :: built => return (f, { a with built })

end Assembly

/-- The automaton of an expression, with its fragments. -/
def Expr.toNfaObserved (e : Expr) : Observed Nfa :=
  match Assembly.ofExpr e with
  | .ok (f, a) => ⟨a.events.toList, { a.nfa with start := f.start, stop := f.stop }⟩
  | .error _ => ⟨[], .empty⟩

/-- The automaton of an expression. -/
def Expr.toNfa (e : Expr) : Nfa := e.toNfaObserved.result

end Regular
