import Regular.Proofs.Language
import Regular.Proofs.Nfa.Path
import Regular.Proofs.Nfa.Walk

/-!
# What the construction of an automaton leaves behind

What the construction leaves behind is described by `Nfa.Holds`: the states of the fragment
of `e` that begins at `lo` are the next `e.width` ones, and all of them but the last one to
be left (`e.fragmentAt lo`'s `stop`) have the content that the rules of the tree say. Later
rules change no content but that of the `stop`, so the description survives
(`Nfa.Holds.frame`). The result, for the construction by recursion over the tree, is
`Fragment.placed_build`.

The edges of a fragment are an inductive relation of their own (`Expr.FragmentEdge`), with
one constructor for each edge that a rule makes. Whoever holds the fragment has these edges
(`Nfa.Holds.edge`) and no others (`Nfa.Holds.fragmentEdge`), so what is said of edges is
shown by cases on that relation.
-/

namespace Regular

/-! ## How building changes the states -/

namespace Nfa

variable {n : Nfa} {i j k : StateId} {label : Option Char}

@[simp] theorem size_empty : Nfa.empty.size = 0 := rfl

@[simp] theorem size_addNode (b : Bool) : (n.addNode b).size = n.size + 1 := Array.size_push ..

@[simp] theorem size_setFinal (b : Bool) : (n.setFinal i b).size = n.size := Array.size_modify

@[simp] theorem size_connect : (n.connect i j label).size = n.size := Array.size_modify

theorem node?_addNode (b : Bool) :
    (n.addNode b).node? i = if i = n.size then some (.new b) else n.node? i :=
  Array.getElem?_push

theorem node?_setFinal (b : Bool) :
    (n.setFinal i b).node? j =
      if i = j then (n.node? j).map ({ · with final := b }) else n.node? j :=
  Array.getElem?_modify

theorem node?_connect :
    (n.connect i j label).node? k =
      if i = k then (n.node? k).map (·.connect j label) else n.node? k :=
  Array.getElem?_modify

theorem Node.mem_edges_new (b : Bool) {x : Option Char × StateId} : x ∉ (Node.new b).edges := by
  simp [Node.edges, Node.new]

theorem Node.mem_edges_connect {node : Node} {x : Option Char × StateId} :
    x ∈ (node.connect j label).edges ↔ x = (label, j) ∨ x ∈ node.edges := by
  obtain ⟨l, t⟩ := x
  cases label <;> cases l <;>
    simp only [Node.mem_edges_none, Node.mem_edges_some, Node.connect, SortedSet.mem_insert,
      Prod.mk.injEq, reduceCtorEq, false_and, true_and, false_or]
  · simp only [CharMap.get?_alter, Option.some.injEq]
    split
    · next heq =>
      subst heq
      simp only [Option.some.injEq, exists_eq_left', SortedSet.mem_insert, true_and]
      cases node.moves.get? _ <;> simp
    · next hne => simp [hne]

end Nfa

/-! ## Where the states of a fragment are -/

namespace Expr

/-- The number of states of the fragment. -/
def width : Expr → Nat
  | literal _ | epsilon => 2
  | concat l r => l.width + r.width
  | union l r => l.width + r.width + 2
  | star e => e.width + 2

/-- The fragment whose first state is `lo`. -/
def fragmentAt (lo : Nat) : Expr → Fragment
  | literal _ | epsilon => ⟨lo, lo + 1⟩
  | concat l r => ⟨(l.fragmentAt lo).start, (r.fragmentAt (lo + l.width)).stop⟩
  | union l r => ⟨lo + l.width + r.width, lo + l.width + r.width + 1⟩
  | star e => ⟨lo + e.width, lo + e.width + 1⟩

theorem fragmentAt_bounds (e : Expr) (lo : Nat) :
    lo ≤ (e.fragmentAt lo).start ∧ (e.fragmentAt lo).start < lo + e.width ∧
      lo ≤ (e.fragmentAt lo).stop ∧ (e.fragmentAt lo).stop < lo + e.width := by
  induction e generalizing lo with
  | literal c => simp only [fragmentAt, width]; lia
  | epsilon => simp only [fragmentAt, width]; lia
  | concat l r ihl ihr =>
      have hl := ihl lo
      have hr := ihr (lo + l.width)
      simp only [fragmentAt, width]
      lia
  | union l r _ _ => simp only [fragmentAt, width]; lia
  | star e _ => simp only [fragmentAt, width]; lia

end Expr

/-! ## What the states of a fragment contain -/

namespace Nfa

/-- The states of the fragment of an expression that begins at `lo` have the edges that its
rules put there, and none of them is final. Nothing is said of the stop, from which later
rules lead on.
-/
def Holds (n : Nfa) (lo : Nat) : Expr → Prop
  | .literal c => n.node? lo = some ((Node.new false).connect (lo + 1) (some c))
  | .epsilon => n.node? lo = some ((Node.new false).connect (lo + 1) none)
  | .concat l r =>
    n.Holds lo l ∧ n.Holds (lo + l.width) r ∧
      n.node? (l.fragmentAt lo).stop =
        some ((Node.new false).connect (r.fragmentAt (lo + l.width)).start none)
  | .union l r =>
    n.Holds lo l ∧ n.Holds (lo + l.width) r ∧
      n.node? (lo + l.width + r.width) =
        some (((Node.new false).connect (l.fragmentAt lo).start none).connect
          (r.fragmentAt (lo + l.width)).start none) ∧
      n.node? (l.fragmentAt lo).stop =
        some ((Node.new false).connect (lo + l.width + r.width + 1) none) ∧
      n.node? (r.fragmentAt (lo + l.width)).stop =
        some ((Node.new false).connect (lo + l.width + r.width + 1) none)
  | .star e =>
    n.Holds lo e ∧
      n.node? (lo + e.width) =
        some (((Node.new false).connect (lo + e.width + 1) none).connect
          (e.fragmentAt lo).start none) ∧
      n.node? (e.fragmentAt lo).stop =
        some (((Node.new false).connect (lo + e.width + 1) none).connect
          (e.fragmentAt lo).start none)

/-- The description of a fragment survives what leaves its states alone, save for its
stop. -/
theorem Holds.frame {n n' : Nfa} {e : Expr} {lo : Nat} (h : n.Holds lo e)
    (hframe : ∀ i, lo ≤ i → i < lo + e.width → i ≠ (e.fragmentAt lo).stop →
      n'.node? i = n.node? i) : n'.Holds lo e := by
  induction e generalizing lo with
  | literal c =>
      rw [Holds, hframe lo (by lia) (by simp [Expr.width]) (by simp [Expr.fragmentAt])]
      exact h
  | epsilon =>
      rw [Holds, hframe lo (by lia) (by simp [Expr.width]) (by simp [Expr.fragmentAt])]
      exact h
  | concat l r ihl ihr =>
      obtain ⟨hl, hr, hstop⟩ := h
      have bl := l.fragmentAt_bounds lo
      have br := r.fragmentAt_bounds (lo + l.width)
      simp only [Expr.width, Expr.fragmentAt] at hframe
      refine ⟨ihl hl fun i _ _ _ => hframe i (by lia) (by lia) (by lia),
        ihr hr fun i _ _ _ => hframe i (by lia) (by lia) (by lia), ?_⟩
      rw [hframe _ (by lia) (by lia) (by lia)]
      exact hstop
  | union l r ihl ihr =>
      obtain ⟨hl, hr, hstart, hlstop, hrstop⟩ := h
      have bl := l.fragmentAt_bounds lo
      have br := r.fragmentAt_bounds (lo + l.width)
      simp only [Expr.width, Expr.fragmentAt] at hframe
      refine ⟨ihl hl fun i _ _ _ => hframe i (by lia) (by lia) (by lia),
        ihr hr fun i _ _ _ => hframe i (by lia) (by lia) (by lia), ?_, ?_, ?_⟩
      · rw [hframe _ (by lia) (by lia) (by lia)]
        exact hstart
      · rw [hframe _ (by lia) (by lia) (by lia)]
        exact hlstop
      · rw [hframe _ (by lia) (by lia) (by lia)]
        exact hrstop
  | star e ih =>
      obtain ⟨he, hstart, hstop⟩ := h
      have be := e.fragmentAt_bounds lo
      simp only [Expr.width, Expr.fragmentAt] at hframe
      refine ⟨ih he fun i _ _ _ => hframe i (by lia) (by lia) (by lia), ?_, ?_⟩
      · rw [hframe _ (by lia) (by lia) (by lia)]
        exact hstart
      · rw [hframe _ (by lia) (by lia) (by lia)]
        exact hstop

/-- What the rules make of a state: it is not final, and has one edge or two silent ones. -/
inductive Node.Inner : Node → Prop
  | one (j : StateId) (label : Option Char) : Inner ((Node.new false).connect j label)
  | two {j k : StateId} (h : j ≠ k) :
    Inner (((Node.new false).connect j none).connect k none)

/-- The states of a fragment other than its stop are as the rules make them. -/
theorem Holds.exists_inner {n : Nfa} {e : Expr} {lo : Nat} {i : StateId} (h : n.Holds lo e)
    (hlo : lo ≤ i) (hhi : i < lo + e.width) (hne : i ≠ (e.fragmentAt lo).stop) :
    ∃ node, n.node? i = some node ∧ node.Inner := by
  induction e generalizing lo with
  | literal c =>
      simp only [Expr.width, Expr.fragmentAt] at *
      obtain rfl : i = lo := by lia
      exact ⟨_, h, .one _ _⟩
  | epsilon =>
      simp only [Expr.width, Expr.fragmentAt] at *
      obtain rfl : i = lo := by lia
      exact ⟨_, h, .one _ _⟩
  | concat l r ihl ihr =>
      obtain ⟨hl, hr, hstop⟩ := h
      simp only [Expr.width, Expr.fragmentAt] at *
      by_cases histop : i = (l.fragmentAt lo).stop
      · exact ⟨_, histop ▸ hstop, .one _ _⟩
      · by_cases hil : i < lo + l.width
        · exact ihl hl hlo hil histop
        · exact ihr hr (by lia) (by lia) hne
  | union l r ihl ihr =>
      obtain ⟨hl, hr, hstart, hlstop, hrstop⟩ := h
      have bl := l.fragmentAt_bounds lo
      have br := r.fragmentAt_bounds (lo + l.width)
      simp only [Expr.width, Expr.fragmentAt] at *
      by_cases hi : i = lo + l.width + r.width
      · exact ⟨_, hi ▸ hstart, .two (by lia)⟩
      · by_cases hilstop : i = (l.fragmentAt lo).stop
        · exact ⟨_, hilstop ▸ hlstop, .one _ _⟩
        · by_cases hirstop : i = (r.fragmentAt (lo + l.width)).stop
          · exact ⟨_, hirstop ▸ hrstop, .one _ _⟩
          · by_cases hil : i < lo + l.width
            · exact ihl hl hlo hil hilstop
            · exact ihr hr (by lia) (by lia) hirstop
  | star e ih =>
      obtain ⟨he, hstart, hstop⟩ := h
      have be := e.fragmentAt_bounds lo
      simp only [Expr.width, Expr.fragmentAt] at *
      by_cases hi : i = lo + e.width
      · exact ⟨_, hi ▸ hstart, .two (by lia)⟩
      · by_cases histop : i = (e.fragmentAt lo).stop
        · exact ⟨_, histop ▸ hstop, .two (by lia)⟩
        · exact ih he hlo (by lia) histop

end Nfa

/-! ## The edges of a fragment -/

/-- The edges that the rules of a tree put between the states of the fragment that begins at
`lo`.
-/
inductive Expr.FragmentEdge : Expr → Nat → StateId → Option Char → StateId → Prop
  | literal {lo : Nat} {c : Char} : FragmentEdge (.literal c) lo lo (some c) (lo + 1)
  | epsilon {lo : Nat} : FragmentEdge .epsilon lo lo none (lo + 1)
  | concatLeft {l r : Expr} {lo : Nat} {i j : StateId} {label : Option Char} :
    FragmentEdge l lo i label j → FragmentEdge (.concat l r) lo i label j
  | concatRight {l r : Expr} {lo : Nat} {i j : StateId} {label : Option Char} :
    FragmentEdge r (lo + l.width) i label j → FragmentEdge (.concat l r) lo i label j
  | concatJoin {l r : Expr} {lo : Nat} :
    FragmentEdge (.concat l r) lo (l.fragmentAt lo).stop none (r.fragmentAt (lo + l.width)).start
  | unionLeft {l r : Expr} {lo : Nat} {i j : StateId} {label : Option Char} :
    FragmentEdge l lo i label j → FragmentEdge (.union l r) lo i label j
  | unionRight {l r : Expr} {lo : Nat} {i j : StateId} {label : Option Char} :
    FragmentEdge r (lo + l.width) i label j → FragmentEdge (.union l r) lo i label j
  | enterLeft {l r : Expr} {lo : Nat} :
    FragmentEdge (.union l r) lo (lo + l.width + r.width) none (l.fragmentAt lo).start
  | enterRight {l r : Expr} {lo : Nat} :
    FragmentEdge (.union l r) lo (lo + l.width + r.width) none (r.fragmentAt (lo + l.width)).start
  | leaveLeft {l r : Expr} {lo : Nat} :
    FragmentEdge (.union l r) lo (l.fragmentAt lo).stop none (lo + l.width + r.width + 1)
  | leaveRight {l r : Expr} {lo : Nat} :
    FragmentEdge (.union l r) lo (r.fragmentAt (lo + l.width)).stop none
      (lo + l.width + r.width + 1)
  | starBody {e : Expr} {lo : Nat} {i j : StateId} {label : Option Char} :
    FragmentEdge e lo i label j → FragmentEdge (.star e) lo i label j
  | starSkip {e : Expr} {lo : Nat} :
    FragmentEdge (.star e) lo (lo + e.width) none (lo + e.width + 1)
  | starEnter {e : Expr} {lo : Nat} :
    FragmentEdge (.star e) lo (lo + e.width) none (e.fragmentAt lo).start
  | starAgain {e : Expr} {lo : Nat} :
    FragmentEdge (.star e) lo (e.fragmentAt lo).stop none (e.fragmentAt lo).start
  | starLeave {e : Expr} {lo : Nat} :
    FragmentEdge (.star e) lo (e.fragmentAt lo).stop none (lo + e.width + 1)

section Edges

variable {n : Nfa} {e : Expr} {lo : Nat} {i j : StateId} {label : Option Char}

/-- An edge of a fragment stays in it. It does not leave the stop, and does not lead to the
start. -/
theorem Expr.FragmentEdge.bounds (h : e.FragmentEdge lo i label j) :
    (lo ≤ i ∧ i < lo + e.width ∧ i ≠ (e.fragmentAt lo).stop) ∧
      lo ≤ j ∧ j < lo + e.width ∧ j ≠ (e.fragmentAt lo).start := by
  induction h with
  | literal | epsilon | unionLeft | unionRight | starBody | starSkip =>
      simp only [width, fragmentAt]
      lia
  | @concatLeft l r lo | @concatRight l r lo | @concatJoin l r lo =>
      have bl := l.fragmentAt_bounds lo
      have br := r.fragmentAt_bounds (lo + l.width)
      simp only [width, fragmentAt]
      lia
  | @enterLeft l r lo | @leaveLeft l r lo =>
      have bl := l.fragmentAt_bounds lo
      simp only [width, fragmentAt]
      lia
  | @enterRight l r lo | @leaveRight l r lo =>
      have br := r.fragmentAt_bounds (lo + l.width)
      simp only [width, fragmentAt]
      lia
  | @starEnter e lo | @starAgain e lo | @starLeave e lo =>
      have be := e.fragmentAt_bounds lo
      simp only [width, fragmentAt]
      lia

namespace Nfa

theorem edge_iff_of_node? {node : Node} (h : n.node? i = some node) :
    n.Edge i label j ↔ (label, j) ∈ node.edges := by
  rw [edge_iff, h]
  simp

theorem edge_connect {label' : Option Char} {j' : StateId}
    (h : n.node? i = some ((Node.new false).connect j' label')) :
    n.Edge i label j ↔ label = label' ∧ j = j' := by
  simp only [edge_iff_of_node? h, Node.mem_edges_connect, Node.mem_edges_new, or_false,
    Prod.mk.injEq]

theorem edge_connect₂ {j' j'' : StateId}
    (h : n.node? i = some (((Node.new false).connect j' none).connect j'' none)) :
    n.Edge i label j ↔ label = none ∧ (j = j'' ∨ j = j') := by
  simp only [edge_iff_of_node? h, Node.mem_edges_connect, Node.mem_edges_new, or_false,
    Prod.mk.injEq, and_or_left]

/-- What holds a fragment has its edges. -/
theorem Holds.edge (h : n.Holds lo e) (hedge : e.FragmentEdge lo i label j) :
    n.Edge i label j := by
  induction hedge with
  | literal => exact (edge_connect h).2 ⟨rfl, rfl⟩
  | epsilon => exact (edge_connect h).2 ⟨rfl, rfl⟩
  | concatLeft _ ih => exact ih h.1
  | concatRight _ ih => exact ih h.2.1
  | concatJoin => exact (edge_connect h.2.2).2 ⟨rfl, rfl⟩
  | unionLeft _ ih => exact ih h.1
  | unionRight _ ih => exact ih h.2.1
  | enterLeft =>
      obtain ⟨-, -, hstart, -, -⟩ := h
      exact (edge_connect₂ hstart).2 ⟨rfl, Or.inr rfl⟩
  | enterRight =>
      obtain ⟨-, -, hstart, -, -⟩ := h
      exact (edge_connect₂ hstart).2 ⟨rfl, Or.inl rfl⟩
  | leaveLeft =>
      obtain ⟨-, -, -, hlstop, -⟩ := h
      exact (edge_connect hlstop).2 ⟨rfl, rfl⟩
  | leaveRight =>
      obtain ⟨-, -, -, -, hrstop⟩ := h
      exact (edge_connect hrstop).2 ⟨rfl, rfl⟩
  | starBody _ ih => exact ih h.1
  | starSkip =>
      obtain ⟨-, hstart, -⟩ := h
      exact (edge_connect₂ hstart).2 ⟨rfl, Or.inr rfl⟩
  | starEnter =>
      obtain ⟨-, hstart, -⟩ := h
      exact (edge_connect₂ hstart).2 ⟨rfl, Or.inl rfl⟩
  | starAgain =>
      obtain ⟨-, -, hstop⟩ := h
      exact (edge_connect₂ hstop).2 ⟨rfl, Or.inl rfl⟩
  | starLeave =>
      obtain ⟨-, -, hstop⟩ := h
      exact (edge_connect₂ hstop).2 ⟨rfl, Or.inr rfl⟩

/-- An edge that leaves a state of a fragment other than its stop is an edge of the
fragment. -/
theorem Holds.fragmentEdge (h : n.Holds lo e) (hlo : lo ≤ i) (hhi : i < lo + e.width)
    (hne : i ≠ (e.fragmentAt lo).stop) (hedge : n.Edge i label j) :
    e.FragmentEdge lo i label j := by
  induction e generalizing lo with
  | literal c =>
      simp only [Expr.width, Expr.fragmentAt] at *
      obtain rfl : i = lo := by lia
      obtain ⟨rfl, rfl⟩ := (edge_connect h).1 hedge
      exact .literal
  | epsilon =>
      simp only [Expr.width, Expr.fragmentAt] at *
      obtain rfl : i = lo := by lia
      obtain ⟨rfl, rfl⟩ := (edge_connect h).1 hedge
      exact .epsilon
  | concat l r ihl ihr =>
      obtain ⟨hl, hr, hstop⟩ := h
      simp only [Expr.width, Expr.fragmentAt] at *
      by_cases histop : i = (l.fragmentAt lo).stop
      · subst histop
        obtain ⟨rfl, rfl⟩ := (edge_connect hstop).1 hedge
        exact .concatJoin
      · by_cases hil : i < lo + l.width
        · exact .concatLeft (ihl hl hlo hil histop)
        · exact .concatRight (ihr hr (by lia) (by lia) hne)
  | union l r ihl ihr =>
      obtain ⟨hl, hr, hstart, hlstop, hrstop⟩ := h
      simp only [Expr.width, Expr.fragmentAt] at *
      by_cases hi : i = lo + l.width + r.width
      · subst hi
        obtain ⟨rfl, rfl | rfl⟩ := (edge_connect₂ hstart).1 hedge
        · exact .enterRight
        · exact .enterLeft
      · by_cases hilstop : i = (l.fragmentAt lo).stop
        · subst hilstop
          obtain ⟨rfl, rfl⟩ := (edge_connect hlstop).1 hedge
          exact .leaveLeft
        · by_cases hirstop : i = (r.fragmentAt (lo + l.width)).stop
          · subst hirstop
            obtain ⟨rfl, rfl⟩ := (edge_connect hrstop).1 hedge
            exact .leaveRight
          · by_cases hil : i < lo + l.width
            · exact .unionLeft (ihl hl hlo hil hilstop)
            · exact .unionRight (ihr hr (by lia) (by lia) hirstop)
  | star e ih =>
      obtain ⟨he, hstart, hstop⟩ := h
      simp only [Expr.width, Expr.fragmentAt] at *
      by_cases hi : i = lo + e.width
      · subst hi
        obtain ⟨rfl, rfl | rfl⟩ := (edge_connect₂ hstart).1 hedge
        · exact .starEnter
        · exact .starSkip
      · by_cases histop : i = (e.fragmentAt lo).stop
        · subst histop
          obtain ⟨rfl, rfl | rfl⟩ := (edge_connect₂ hstop).1 hedge
          · exact .starAgain
          · exact .starLeave
        · exact .starBody (ih he hlo (by lia) histop)

end Nfa

end Edges

/-! ## What the construction makes of an automaton -/

/-- What the construction makes of an automaton: the new states hold the fragment, its stop
is final and without edges, and the old states are as they were. -/
structure Fragment.Placed (n : Nfa) (e : Expr) (built : Nfa × Fragment) : Prop where
  size : built.1.size = n.size + e.width
  fragment : built.2 = e.fragmentAt n.size
  holds : built.1.Holds n.size e
  stop : built.1.node? (e.fragmentAt n.size).stop = some (.new true)
  frame : ∀ i, i < n.size → built.1.node? i = n.node? i

namespace Fragment

theorem node?_symbol (n : Nfa) (label : Option Char) (i : StateId) :
    (symbol n label).1.node? i =
      if i = n.size then some ((Nfa.Node.new false).connect (n.size + 1) label)
      else if i = n.size + 1 then some (.new true) else n.node? i := by
  simp only [symbol, Nfa.node?_connect, Nfa.node?_addNode, Nfa.size_addNode]
  grind

theorem node?_concat (n : Nfa) (l r : Fragment) (i : StateId) :
    (concat n l r).1.node? i =
      if i = l.stop then
        (n.node? i).map fun node => { node.connect r.start none with final := false }
      else n.node? i := by
  simp only [concat, Nfa.node?_connect, Nfa.node?_setFinal]
  by_cases h : l.stop = i
  · simp [h, Function.comp_def, Nfa.Node.connect]
  · simp [h, Ne.symm h]

theorem node?_union {n : Nfa} {l r : Fragment} (hl : l.stop < n.size) (hr : r.stop < n.size)
    (hne : l.stop ≠ r.stop) (i : StateId) :
    (union n l r).1.node? i =
      if i = n.size then
        some (((Nfa.Node.new false).connect l.start none).connect r.start none)
      else if i = n.size + 1 then some (.new true)
      else if i = l.stop ∨ i = r.stop then
        (n.node? i).map fun node => { node.connect (n.size + 1) none with final := false }
      else n.node? i := by
  simp only [union, Nfa.node?_connect, Nfa.node?_setFinal, Nfa.node?_addNode, Nfa.size_addNode]
  by_cases h0 : i = n.size
  · simp [h0, hl.ne, hr.ne]
  · by_cases h1 : i = n.size + 1
    · have hl' : l.stop ≠ n.size + 1 := by lia
      have hr' : r.stop ≠ n.size + 1 := by lia
      simp [h1, hl', hr']
    · by_cases h2 : i = l.stop
      · subst h2
        simp [h0, h1, Ne.symm h0, Ne.symm hne, Function.comp_def, Nfa.Node.connect]
      · by_cases h3 : i = r.stop
        · subst h3
          simp [h0, h1, Ne.symm h0, hne, Function.comp_def, Nfa.Node.connect]
        · simp [h0, h1, h2, h3, Ne.symm h0, Ne.symm h2, Ne.symm h3]

theorem node?_star {n : Nfa} {e : Fragment} (he : e.stop < n.size) (i : StateId) :
    (star n e).1.node? i =
      if i = n.size then
        some (((Nfa.Node.new false).connect (n.size + 1) none).connect e.start none)
      else if i = n.size + 1 then some (.new true)
      else if i = e.stop then
        (n.node? i).map fun node =>
          { (node.connect (n.size + 1) none).connect e.start none with final := false }
      else n.node? i := by
  simp only [star, Nfa.node?_connect, Nfa.node?_setFinal, Nfa.node?_addNode, Nfa.size_addNode]
  by_cases h0 : i = n.size
  · simp [h0, he.ne]
  · by_cases h1 : i = n.size + 1
    · have he' : e.stop ≠ n.size + 1 := by lia
      simp [h1, he']
    · by_cases h2 : i = e.stop
      · subst h2
        simp [h0, h1, Ne.symm h0, Function.comp_def]
      · simp [h0, h1, h2, Ne.symm h0, Ne.symm h2]

theorem placed_symbol {e : Expr} {n : Nfa} {label : Option Char} (hwidth : e.width = 2)
    (hfragment : e.fragmentAt n.size = ⟨n.size, n.size + 1⟩)
    (hholds : ∀ n' : Nfa, n'.node? n.size = some ((Nfa.Node.new false).connect (n.size + 1) label) →
      n'.Holds n.size e) : Placed n e (symbol n label) where
  size := by simp [symbol, hwidth]
  fragment := hfragment.symm
  holds := hholds _ (by simp [node?_symbol])
  stop := by simp [node?_symbol, hfragment]
  frame i hi := by
    have h1 : i ≠ n.size + 1 := by lia
    simp [node?_symbol, hi.ne, h1]

theorem placed_concat {n : Nfa} {l r : Expr} {a b : Nfa × Fragment} (hl : Placed n l a)
    (hr : Placed a.1 r b) : Placed n (.concat l r) (concat b.1 a.2 b.2) := by
  obtain ⟨hls, hlf, hlh, hlstop, hlframe⟩ := hl
  obtain ⟨hrs, hrf, hrh, hrstop, hrframe⟩ := hr
  rw [hls] at hrs hrf hrh hrstop hrframe
  have bl := l.fragmentAt_bounds n.size
  have br := r.fragmentAt_bounds (n.size + l.width)
  have hnode := node?_concat b.1 a.2 b.2
  rw [hlf, hrf] at hnode
  rw [hlf, hrf]
  refine ⟨?_, rfl, ⟨?_, ?_, ?_⟩, ?_, fun i hi => ?_⟩
  · simp only [concat, Nfa.size_connect, Nfa.size_setFinal, Expr.width]
    lia
  · refine hlh.frame fun i _ _ hne => ?_
    rw [hnode, if_neg hne, hrframe i (by lia)]
  · refine hrh.frame fun i _ _ hne => ?_
    rw [hnode, if_neg (by lia)]
  · rw [hnode, if_pos rfl, hrframe _ (by lia), hlstop]
    rfl
  · rw [hnode, Expr.fragmentAt, if_neg (by lia)]
    exact hrstop
  · rw [hnode, if_neg (by lia), hrframe i (by lia), hlframe i hi]

theorem placed_union {n : Nfa} {l r : Expr} {a b : Nfa × Fragment} (hl : Placed n l a)
    (hr : Placed a.1 r b) : Placed n (.union l r) (union b.1 a.2 b.2) := by
  obtain ⟨hls, hlf, hlh, hlstop, hlframe⟩ := hl
  obtain ⟨hrs, hrf, hrh, hrstop, hrframe⟩ := hr
  rw [hls] at hrs hrf hrh hrstop hrframe
  have bl := l.fragmentAt_bounds n.size
  have br := r.fragmentAt_bounds (n.size + l.width)
  have hnode := node?_union (n := b.1) (l := a.2) (r := b.2) (by rw [hlf]; lia)
    (by rw [hrf]; lia) (by rw [hlf, hrf]; lia)
  rw [hlf, hrf, hrs] at hnode
  refine ⟨?_, ?_, ⟨?_, ?_, ?_, ?_, ?_⟩, ?_, fun i hi => ?_⟩
  · simp only [union, Nfa.size_connect, Nfa.size_setFinal, Nfa.size_addNode, Expr.width]
    lia
  · simp only [union, hrs, Expr.fragmentAt]
  · refine hlh.frame fun i _ _ hne => ?_
    rw [hlf, hrf, hnode, if_neg (by lia), if_neg (by lia), if_neg (by lia), hrframe i (by lia)]
  · refine hrh.frame fun i _ _ hne => ?_
    rw [hlf, hrf, hnode, if_neg (by lia), if_neg (by lia), if_neg (by lia)]
  · rw [hlf, hrf, hnode, if_pos rfl]
  · rw [hlf, hrf, hnode, if_neg (by lia), if_neg (by lia), if_pos (Or.inl rfl),
      hrframe _ (by lia), hlstop]
    rfl
  · rw [hlf, hrf, hnode, if_neg (by lia), if_neg (by lia), if_pos (Or.inr rfl), hrstop]
    rfl
  · rw [hlf, hrf, hnode, Expr.fragmentAt, if_neg (by lia), if_pos rfl]
  · rw [hlf, hrf, hnode, if_neg (by lia), if_neg (by lia), if_neg (by lia), hrframe i (by lia),
      hlframe i hi]

theorem placed_star {n : Nfa} {e : Expr} {a : Nfa × Fragment} (he : Placed n e a) :
    Placed n (.star e) (star a.1 a.2) := by
  obtain ⟨hs, hf, hh, hstop, hframe⟩ := he
  have be := e.fragmentAt_bounds n.size
  have hnode := node?_star (n := a.1) (e := a.2) (by rw [hf]; lia)
  rw [hf, hs] at hnode
  refine ⟨?_, ?_, ⟨?_, ?_, ?_⟩, ?_, fun i hi => ?_⟩
  · simp only [star, Nfa.size_connect, Nfa.size_setFinal, Nfa.size_addNode, Expr.width]
    lia
  · simp only [star, hs, Expr.fragmentAt]
  · refine hh.frame fun i _ _ hne => ?_
    rw [hf, hnode, if_neg (by lia), if_neg (by lia), if_neg hne]
  · rw [hf, hnode, if_pos rfl]
  · rw [hf, hnode, if_neg (by lia), if_neg (by lia), if_pos rfl, hstop]
    rfl
  · rw [hf, hnode, Expr.fragmentAt, if_neg (by lia), if_pos rfl]
  · rw [hf, hnode, if_neg (by lia), if_neg (by lia), if_neg (by lia), hframe i hi]

/-- Building a fragment places it behind the states that were there. -/
theorem placed_build (e : Expr) (n : Nfa) : Placed n e (e.build n).result := by
  induction e generalizing n with
  | literal c => exact placed_symbol rfl rfl fun _ h => h
  | epsilon => exact placed_symbol rfl rfl fun _ h => h
  | concat l r ihl ihr => exact placed_concat (ihl n) (ihr _)
  | union l r ihl ihr => exact placed_union (ihl n) (ihr _)
  | star e ih => exact placed_star (ih n)

end Fragment

end Regular
