import Mathlib.Data.List.Forall2
import Regular.Nfa.Thompson

/-!
# The walk over a tree is recursion over the tree

The construction of an automaton does its tasks one after the other, with a stack of
fragments. `Expr.build` is the same construction by recursion over the tree. The walk comes
to what the recursion comes to, with any tasks still to be done and any fragments on the
stack (`Assembly.walk_visit`), so it never lacks an operand: when the children of a node are
done, their fragments are on top of the stack. `Assembly.walk_eq_build` says this of a tree
as the only task, and that the events are one for each node, in postorder.
-/

namespace Regular

/-! ## The construction by recursion over the tree -/

namespace Fragment

/-- The result of a rule after the events of its operands. -/
def report (events : List Event) (rule : Expr.Rule) (built : Nfa × Fragment) :
    Observed (Nfa × Fragment) :=
  ⟨events ++ [.fragment rule built.2.start built.2.stop], built⟩

end Fragment

namespace Expr

/-- Adds the fragment of an expression to an automaton, children first and the left one
before the right one. -/
def build : Expr → Nfa → Observed (Nfa × Fragment)
  | literal c, n => Fragment.report [] (.literal c) (Fragment.symbol n (some c))
  | epsilon, n => Fragment.report [] .epsilon (Fragment.symbol n none)
  | concat l r, n =>
    let a := l.build n
    let b := r.build a.result.1
    Fragment.report (a.events ++ b.events) .concat
      (Fragment.concat b.result.1 a.result.2 b.result.2)
  | union l r, n =>
    let a := l.build n
    let b := r.build a.result.1
    Fragment.report (a.events ++ b.events) .union (Fragment.union b.result.1 a.result.2 b.result.2)
  | star e, n =>
    let a := e.build n
    Fragment.report a.events .star (Fragment.star a.result.1 a.result.2)

/-! ## Nodes in postorder -/

theorem rulesOnto_eq (e : Expr) (after : List Rule) : e.rulesOnto after = e.rules ++ after := by
  have happend : ∀ (e : Expr) (rules after : List Rule),
      e.rulesOnto (rules ++ after) = e.rulesOnto rules ++ after := by
    intro e
    induction e with
    | literal c => exact fun _ _ => rfl
    | epsilon => exact fun _ _ => rfl
    | concat l r ihl ihr =>
        intro rules after
        rw [rulesOnto, rulesOnto, ← List.cons_append, ihr, ihl]
    | union l r ihl ihr =>
        intro rules after
        rw [rulesOnto, rulesOnto, ← List.cons_append, ihr, ihl]
    | star e ih =>
        intro rules after
        rw [rulesOnto, rulesOnto, ← List.cons_append, ih]
  exact happend e [] after

@[simp] theorem rules_literal (c : Char) : (literal c).rules = [.literal c] := rfl

@[simp] theorem rules_epsilon : epsilon.rules = [.epsilon] := rfl

@[simp] theorem rules_concat (l r : Expr) :
    (concat l r).rules = l.rules ++ r.rules ++ [.concat] := by
  rw [rules, rulesOnto, rulesOnto_eq, rulesOnto_eq, List.append_assoc]

@[simp] theorem rules_union (l r : Expr) :
    (union l r).rules = l.rules ++ r.rules ++ [.union] := by
  rw [rules, rulesOnto, rulesOnto_eq, rulesOnto_eq, List.append_assoc]

@[simp] theorem rules_star (e : Expr) : (star e).rules = e.rules ++ [.star] := by
  rw [rules, rulesOnto, rulesOnto_eq]

theorem length_rules (e : Expr) : e.rules.length = e.nodeCount := by
  induction e with
  | literal c => rfl
  | epsilon => rfl
  | concat l r ihl ihr => simp [nodeCount, ihl, ihr, Nat.add_assoc]
  | union l r ihl ihr => simp [nodeCount, ihl, ihr, Nat.add_assoc]
  | star e ih => simp [nodeCount, ih]

/-- The event tells that the rule has been applied. -/
def Reports (event : Event) (rule : Rule) : Prop := ∃ start stop, event = .fragment rule start stop

/-- The events are one for each node, in postorder. -/
theorem reports_build (e : Expr) (n : Nfa) : List.Forall₂ Reports (e.build n).events e.rules := by
  have hlast : ∀ {rule : Rule} {f : Fragment},
      List.Forall₂ Reports [.fragment rule f.start f.stop] [rule] :=
    .cons ⟨_, _, rfl⟩ .nil
  induction e generalizing n with
  | literal c => exact hlast
  | epsilon => exact hlast
  | concat l r ihl ihr =>
      rw [rules_concat]
      exact List.rel_append (List.rel_append (ihl n) (ihr _)) hlast
  | union l r ihl ihr =>
      rw [rules_union]
      exact List.rel_append (List.rel_append (ihl n) (ihr _)) hlast
  | star e ih =>
      rw [rules_star]
      exact List.rel_append (ih n) hlast

end Expr

/-! ## The walk -/

namespace Assembly

/-- The assembly with the fragment of an expression added to it. -/
def add (a : Assembly) (e : Expr) : Assembly :=
  ⟨(e.build a.nfa).result.1, (e.build a.nfa).result.2 :: a.built,
    a.events ++ (e.build a.nfa).events.toArray⟩

theorem walk_combine {a a' : Assembly} {rule : Expr.Rule} (h : a.apply rule = .ok a')
    (tasks : List Task) : walk (.combine rule :: tasks) a = walk tasks a' := by
  rw [walk, h]
  rfl

/-- The rule of a node takes up the fragments of its children. -/
theorem apply_concat (a : Assembly) (l r : Expr) :
    ((a.add l).add r).apply .concat = .ok (a.add (.concat l r)) := by
  simp [apply, pop, push, add, Expr.build, Fragment.report, pure, Except.pure, bind, Except.bind]

theorem apply_union (a : Assembly) (l r : Expr) :
    ((a.add l).add r).apply .union = .ok (a.add (.union l r)) := by
  simp [apply, pop, push, add, Expr.build, Fragment.report, pure, Except.pure, bind, Except.bind]

theorem apply_star (a : Assembly) (e : Expr) :
    (a.add e).apply .star = .ok (a.add (.star e)) := by
  simp [apply, pop, push, add, Expr.build, Fragment.report, pure, Except.pure, bind, Except.bind]

/-- A tree that is the next task becomes a fragment, whatever is still to be done and
whatever fragments there are. -/
theorem walk_visit (e : Expr) (tasks : List Task) (a : Assembly) :
    walk (.visit e :: tasks) a = walk tasks (a.add e) := by
  induction e generalizing tasks a with
  | literal c =>
      rw [walk]
      simp [apply, push, add, Expr.build, Fragment.report, pure, Except.pure, bind, Except.bind]
  | epsilon =>
      rw [walk]
      simp [apply, push, add, Expr.build, Fragment.report, pure, Except.pure, bind, Except.bind]
  | concat l r ihl ihr => rw [walk, ihl, ihr, walk_combine (apply_concat a l r)]
  | union l r ihl ihr => rw [walk, ihl, ihr, walk_combine (apply_union a l r)]
  | star e ih => rw [walk, ih, walk_combine (apply_star a e)]

/-- A tree that is the only task leaves its fragment and no other. -/
theorem ofExpr_eq (e : Expr) :
    ofExpr e = .ok ((e.build .empty).result.2,
      ⟨(e.build .empty).result.1, [], (e.build .empty).events.toArray⟩) := by
  rw [ofExpr, walk_visit, walk]
  simp [add, empty, pure, Except.pure, bind, Except.bind]

end Assembly

theorem Expr.toNfaObserved_eq (e : Expr) :
    e.toNfaObserved = ⟨(e.build .empty).events,
      { (e.build .empty).result.1 with
        start := (e.build .empty).result.2.start
        stop := (e.build .empty).result.2.stop }⟩ := by
  rw [Expr.toNfaObserved, Assembly.ofExpr_eq]

/-- The walk with its two stacks comes to an end for every tree, and to what the recursion
comes to: from any tasks and any fragments, no rule lacks an operand, and the fragment of the
tree is put on top of the others. For a tree alone that is the only fragment. The automaton,
the fragment that is all of it and the events are those of the recursion, with one event for
each node, in postorder. -/
theorem Assembly.walk_eq_build (e : Expr) :
    (∀ tasks a, walk (.visit e :: tasks) a = walk tasks (a.add e)) ∧
    ofExpr e = .ok ((e.build .empty).result.2,
      ⟨(e.build .empty).result.1, [], (e.build .empty).events.toArray⟩) ∧
    e.toNfaObserved = ⟨(e.build .empty).events,
      { (e.build .empty).result.1 with
        start := (e.build .empty).result.2.start
        stop := (e.build .empty).result.2.stop }⟩ ∧
    List.Forall₂ Expr.Reports (e.build .empty).events e.rules ∧
    (e.build .empty).events.length = e.nodeCount := by
  have hevents := e.reports_build .empty
  exact ⟨walk_visit e, ofExpr_eq e, e.toNfaObserved_eq, hevents,
    hevents.length_eq.trans e.length_rules⟩

end Regular
