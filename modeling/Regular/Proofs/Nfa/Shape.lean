import Regular.Proofs.Nfa.Trim

/-!
# The size of the automaton of an expression

How many states and edges the automaton of an expression has can be read off its tree: two
states for each leaf, union and star, one edge for each leaf and concatenation, and four for
each union and star (`Expr.toNfa_shape`).

The edges are counted fragment by fragment (`Nfa.Holds.edgeCount_eq`). Sets of targets do not
count an edge twice, so it matters that the two edges that a rule puts into one state lead to
different states. The stop of a fragment is counted with the edges that it has got from later
rules, whatever these are; this is what makes the counts of fragments add up.
-/

namespace Regular

variable {n : Nfa} {e : Expr} {lo : Nat} {i j k : StateId} {label : Option Char}

/-! ## Nodes of the tree -/

/-- Does the rule make a leaf? -/
def Expr.Rule.isLeaf : Expr.Rule → Bool
  | .literal _ | .epsilon => true
  | .concat | .union | .star => false

namespace Expr

theorem width_eq (e : Expr) :
    e.width = 2 * (e.rules.countP Rule.isLeaf + e.rules.count .union + e.rules.count .star) := by
  induction e with
  | literal c => rfl
  | epsilon => rfl
  | concat l r ihl ihr =>
      simp [width, ihl, ihr, Rule.isLeaf]
      omega
  | union l r ihl ihr =>
      simp [width, ihl, ihr, Rule.isLeaf]
      omega
  | star e ih =>
      simp [width, ih, Rule.isLeaf]
      omega

/-- The number of edges that the rules of a tree make. -/
def edges : Expr → Nat
  | literal _ | epsilon => 1
  | concat l r => l.edges + r.edges + 1
  | union l r => l.edges + r.edges + 4
  | star e => e.edges + 4

theorem edges_eq (e : Expr) :
    e.edges = e.rules.countP Rule.isLeaf + e.rules.count .concat +
      4 * (e.rules.count .union + e.rules.count .star) := by
  induction e with
  | literal c => rfl
  | epsilon => rfl
  | concat l r ihl ihr =>
      simp [edges, ihl, ihr, Rule.isLeaf]
      omega
  | union l r ihl ihr =>
      simp [edges, ihl, ihr, Rule.isLeaf]
      omega
  | star e ih =>
      simp [edges, ih, Rule.isLeaf]
      omega

end Expr

namespace Nfa

/-! ## The edges of one state -/

theorem edgesFrom_eq {node : Node} (h : n.node? i = some node) : n.edgesFrom i = node.edges := by
  rw [edgesFrom, h]
  rfl

theorem Node.edges_connect (j : StateId) (label : Option Char) :
    ((Node.new false).connect j label).edges = [(label, j)] := by
  cases label <;> rfl

/-- Two silent edges are two if they lead to different states. -/
theorem Node.length_edges_connect₂ (h : j ≠ k) :
    (((Node.new false).connect j none).connect k none).edges.length = 2 := by
  have hset : (SortedSet.insertList k [j]).length = 2 := by
    unfold SortedSet.insertList
    split
    · rfl
    · split
      · rfl
      · exact absurd (SortedSet.eq_of_not_lt ‹¬k < j› ‹¬j < k›).symm h
  simp only [Node.edges, Node.connect, Node.new, CharMap.entries_empty, List.flatMap_nil,
    List.append_nil, List.length_map]
  exact hset

theorem Node.Inner.length_edges_le {node : Node} (h : node.Inner) : node.edges.length ≤ 2 := by
  cases h with
  | one j label =>
      rw [Node.edges_connect]
      exact Nat.le_succ 1
  | two hne => exact (Node.length_edges_connect₂ hne).le

/-! ## The edges of consecutive states -/

/-- The number of edges that leave the `k` states from `lo` on. -/
def edgeCount (n : Nfa) (lo k : Nat) : Nat := ((List.range' lo k).flatMap n.edgesFrom).length

theorem edgeCount_add (n : Nfa) (lo k m : Nat) :
    n.edgeCount lo (k + m) = n.edgeCount lo k + n.edgeCount (lo + k) m := by
  rw [edgeCount, ← List.range'_append_1, List.flatMap_append, List.length_append]
  rfl

theorem edgeCount_one (n : Nfa) (i : StateId) : n.edgeCount i 1 = (n.edgesFrom i).length := by
  simp [edgeCount]

theorem edgeCount_two (n : Nfa) (i : StateId) :
    n.edgeCount i 2 = (n.edgesFrom i).length + (n.edgesFrom (i + 1)).length := by
  rw [n.edgeCount_add i 1 1, edgeCount_one, edgeCount_one]

/-- The edges of a fragment are those that its rules make and those that its stop has got
since. -/
theorem Holds.edgeCount_eq (h : n.Holds lo e) :
    n.edgeCount lo e.width = e.edges + (n.edgesFrom (e.fragmentAt lo).stop).length := by
  have hone : ∀ {i j label}, n.node? i = some ((Node.new false).connect j label) →
      (n.edgesFrom i).length = 1 := fun hi => by
    rw [edgesFrom_eq hi, Node.edges_connect]
    rfl
  have htwo : ∀ {i j k}, j ≠ k →
      n.node? i = some (((Node.new false).connect j none).connect k none) →
      (n.edgesFrom i).length = 2 := fun hne hi => by
    rw [edgesFrom_eq hi, Node.length_edges_connect₂ hne]
  induction e generalizing lo with
  | literal c => rw [Expr.width, edgeCount_two, hone h, Expr.edges, Expr.fragmentAt]
  | epsilon => rw [Expr.width, edgeCount_two, hone h, Expr.edges, Expr.fragmentAt]
  | concat l r ihl ihr =>
      obtain ⟨hl, hr, hstop⟩ := h
      rw [Expr.width, edgeCount_add, ihl hl, ihr hr, hone hstop, Expr.edges, Expr.fragmentAt]
      simp only
      omega
  | union l r ihl ihr =>
      obtain ⟨hl, hr, hstart, hlstop, hrstop⟩ := h
      have bl := l.fragmentAt_bounds lo
      have br := r.fragmentAt_bounds (lo + l.width)
      have hnew : n.edgeCount (lo + l.width + r.width) 2 =
          2 + (n.edgesFrom (lo + l.width + r.width + 1)).length := by
        rw [edgeCount_two, htwo (by lia) hstart]
      rw [Expr.width, edgeCount_add, edgeCount_add, ← Nat.add_assoc lo, ihl hl, ihr hr, hnew,
        hone hlstop, hone hrstop, Expr.edges, Expr.fragmentAt]
      simp only
      omega
  | star e ih =>
      obtain ⟨he, hstart, hstop⟩ := h
      have be := e.fragmentAt_bounds lo
      have hne : lo + e.width + 1 ≠ (e.fragmentAt lo).start := by lia
      have hnew : n.edgeCount (lo + e.width) 2 =
          2 + (n.edgesFrom (lo + e.width + 1)).length := by
        rw [edgeCount_two, htwo hne hstart]
      rw [Expr.width, edgeCount_add, ih he, hnew, htwo hne hstop, Expr.edges, Expr.fragmentAt]
      simp only
      omega

/-- If every state is on a way from the start, the states on ways from the start are all
states. -/
theorem toList_states_eq (h : ∀ i < n.size, i ∈ n.states) :
    n.states.toList = List.range n.size := by
  have hall : n.states = IdSet.below n.size fun _ => true := by
    refine SortedSet.ext_mem fun i => ?_
    rw [IdSet.mem_below]
    exact ⟨fun hi => ⟨(mem_states_iff.1 hi).1, rfl⟩, fun hi => h i hi.1⟩
  rw [hall]
  exact List.filter_true _

end Nfa

/-! ## The automaton of an expression -/

namespace Expr

theorem toNfa_stop (e : Expr) : e.toNfa.stop = (e.fragmentAt 0).stop := by
  rw [toNfa, toNfaObserved_eq, ← Nfa.size_empty, ← (Fragment.placed_build e .empty).fragment]

theorem edgesFrom_toNfa_stop (e : Expr) : e.toNfa.edgesFrom e.toNfa.stop = [] := by
  rw [toNfa_stop, Nfa.edgesFrom_eq e.node?_toNfa_stop]
  rfl

theorem transitionCount_toNfa (e : Expr) : e.toNfa.transitionCount = e.edges := by
  have hcount := e.holds_toNfa.edgeCount_eq
  rw [← toNfa_stop, edgesFrom_toNfa_stop] at hcount
  rw [Nfa.transitionCount, Nfa.toList_states_eq fun _ => mem_states_toNfa, size_toNfa,
    List.range_eq_range']
  exact hcount

theorem edge_toNfa_ne_start (h : e.toNfa.Edge i label j) : j ≠ e.toNfa.start := by
  rw [toNfa_start]
  exact (fragmentEdge_toNfa h).bounds.2.2.2

theorem length_edgesFrom_toNfa_le (e : Expr) (i : StateId) :
    (e.toNfa.edgesFrom i).length ≤ 2 := by
  by_cases hi : i < e.toNfa.size
  · by_cases hstop : i = e.toNfa.stop
    · rw [hstop, edgesFrom_toNfa_stop]
      exact Nat.zero_le 2
    · rw [size_toNfa] at hi
      rw [toNfa_stop] at hstop
      obtain ⟨node, hnode, hinner⟩ :=
        e.holds_toNfa.exists_inner (Nat.zero_le i) (by lia) hstop
      rw [Nfa.edgesFrom_eq hnode]
      exact hinner.length_edges_le
  · rw [Nfa.edgesFrom, Nfa.node?_eq_none_iff.2 (Nat.not_lt.1 hi)]
    exact Nat.zero_le 2

/-- The automaton of an expression has two states for each leaf, union and star of the tree,
and an edge for each leaf and concatenation and four for each union and star. Its stop is the
one final state, which nothing leaves; nothing enters the start. Every state is on a way from
the start and on a way to the stop, is left by two edges at most, and no edge dangles. -/
theorem toNfa_shape (e : Expr) :
    e.toNfa.size =
      2 * (e.rules.countP Rule.isLeaf + e.rules.count .union + e.rules.count .star) ∧
    e.toNfa.states.size = e.toNfa.size ∧
    e.toNfa.transitionCount = e.rules.countP Rule.isLeaf + e.rules.count .concat +
      4 * (e.rules.count .union + e.rules.count .star) ∧
    (∀ i, e.toNfa.isFinal i = true ↔ i = e.toNfa.stop) ∧
    e.toNfa.edgesFrom e.toNfa.stop = [] ∧
    (∀ i label, ¬e.toNfa.Edge i label e.toNfa.start) ∧
    (∀ i < e.toNfa.size, (∃ w, e.toNfa.Path e.toNfa.start w i) ∧
      ∃ w, e.toNfa.Path i w e.toNfa.stop) ∧
    (∀ i, (e.toNfa.edgesFrom i).length ≤ 2) ∧
    ∀ i label j, e.toNfa.Edge i label j → j < e.toNfa.size := by
  refine ⟨?_, ?_, ?_, fun i => ?_, e.edgesFrom_toNfa_stop, fun i label hedge => ?_,
    fun i hi => ⟨?_, ?_⟩, e.length_edgesFrom_toNfa_le, fun i label j => edge_toNfa_lt⟩
  · rw [size_toNfa, width_eq]
  · rw [SortedSet.size, Nfa.toList_states_eq fun _ => mem_states_toNfa, List.length_range]
  · rw [transitionCount_toNfa, edges_eq]
  · rw [toNfa_stop, isFinal_toNfa_iff]
  · exact edge_toNfa_ne_start hedge rfl
  · exact exists_path_toNfa hi
  · obtain ⟨w, k, hw, hk⟩ := toNfa_live hi
    obtain rfl := isFinal_toNfa_iff.1 hk
    exact ⟨w, e.toNfa_stop ▸ hw⟩

end Expr

end Regular
