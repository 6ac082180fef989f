import Regular.Proofs.Dfa.Walk
import Regular.Proofs.Nfa.Path

/-!
# What the exported automaton accepts

The new state of the exported automaton takes the number that comes after those of the old
states. A move may lead to that number already, as may the start of the automaton without
states. What dangled then leads to the new state, which is final. So the exported automaton
accepts, apart from what the original accepts, the words on which the original runs to the
first number that no state has (`Dfa.path_toNfa_iff`). It accepts the same words precisely if
there are states and none that is on a way from the start has a move to that number
(`Dfa.toNfa_accepts_eq`).
-/

namespace Regular.Dfa

variable {d : Dfa} {i j k : Nat} {c : Char} {u w : List Char}

/-! ## Nodes and edges -/

theorem node?_toNfa (d : Dfa) (i : Nat) :
    d.toNfa.node? i =
      if i = d.size then some (.new true) else (d.node? i).map (·.toNfaNode d.size) := by
  rw [Nfa.node?, toNfa, Array.getElem?_push, Array.size_map, Array.getElem?_map]
  rfl

theorem isFinal_toNfa : d.toNfa.isFinal i = true ↔ i = d.size := by
  rw [Nfa.isFinal, node?_toNfa]
  split
  · next h => exact iff_of_true rfl h
  · next h =>
    refine iff_of_false ?_ h
    cases d.node? i <;> simp [Node.toNfaNode]

/-- The new state is the end of a path. -/
theorem not_edge_toNfa_size {label : Option Char} : ¬d.toNfa.Edge d.size label j := by
  rw [Nfa.edge_iff, node?_toNfa, if_pos rfl]
  rintro ⟨node, hnode, hmem⟩
  obtain rfl := Option.some.inj hnode
  cases hmem

/-- The edges of an old state are those of its node. -/
theorem edge_toNfa_iff {label : Option Char} :
    d.toNfa.Edge i label j ↔
      ∃ node, d.node? i = some node ∧ (label, j) ∈ (node.toNfaNode d.size).edges := by
  by_cases hi : i = d.size
  · subst hi
    rw [node?_eq_none_iff.2 (Nat.le_refl d.size)]
    simp [not_edge_toNfa_size]
  · rw [Nfa.edge_iff, node?_toNfa, if_neg hi]
    simp only [Option.map_eq_some_iff, exists_exists_and_eq_and]

theorem edge_toNfa_none : d.toNfa.Edge i none j ↔ d.isFinal i = true ∧ j = d.size := by
  have hnode : ∀ node : Node,
      (none, j) ∈ (node.toNfaNode d.size).edges ↔ node.final = true ∧ j = d.size := by
    intro node
    rw [Nfa.Node.mem_edges_none, Node.toNfaNode]
    cases node.final <;> simp
  simp only [edge_toNfa_iff, hnode, isFinal, Option.any_eq_true]
  constructor
  · rintro ⟨node, hnode, hfinal, hj⟩
    exact ⟨⟨node, hnode, hfinal⟩, hj⟩
  · rintro ⟨⟨node, hnode, hfinal⟩, hj⟩
    exact ⟨node, hnode, hfinal, hj⟩

theorem edge_toNfa_some : d.toNfa.Edge i (some c) j ↔ d.next? i c = some j := by
  have hnode : ∀ node : Node,
      (some c, j) ∈ (node.toNfaNode d.size).edges ↔ node.moves.get? c = some j := by
    intro node
    rw [Nfa.Node.mem_edges_some, Node.toNfaNode, CharMap.get?_filterMap]
    cases node.moves.get? c <;> simp [eq_comm]
  simp only [edge_toNfa_iff, hnode, next?_eq_some_iff]

/-! ## Paths -/

theorem runFrom?_cons_eq_some_iff :
    d.runFrom? i (c :: w) = some k ↔ ∃ j, d.next? i c = some j ∧ d.runFrom? j w = some k :=
  Option.bind_eq_some_iff

/-- From the new state on nothing is read. -/
theorem path_toNfa_size (h : d.toNfa.Path d.size w k) : w = [] := by
  cases h with
  | nil => rfl
  | silent hedge _ => exact absurd hedge not_edge_toNfa_size
  | read hedge _ => exact absurd hedge not_edge_toNfa_size

/-- A path to the new state is a run to a final state, and then a silent edge, or it is a run
to the number of the new state. -/
theorem path_toNfa_iff :
    d.toNfa.Path i w d.size ↔ d.acceptsFrom i w = true ∨ d.runFrom? i w = some d.size := by
  constructor
  · intro h
    generalize hk : d.size = k at h
    induction h with
    | nil i => exact Or.inr rfl
    | silent hedge hpath _ =>
        obtain ⟨hfinal, rfl⟩ := edge_toNfa_none.1 hedge
        obtain rfl := path_toNfa_size hpath
        exact Or.inl hfinal
    | read hedge _ ih =>
        have hnext := edge_toNfa_some.1 hedge
        rw [acceptsFrom_cons, runFrom?, hnext]
        exact ih hk
  · intro h
    induction w generalizing i with
    | nil =>
        rcases h with hfinal | hrun
        · exact .silent (edge_toNfa_none.2 ⟨hfinal, rfl⟩) (.nil _)
        · obtain rfl := Option.some.inj hrun
          exact .nil _
    | cons c w ih =>
        rw [acceptsFrom_cons, runFrom?_cons_eq_some_iff, Option.any_eq_true] at h
        obtain ⟨j, hnext, hj⟩ : ∃ j, d.next? i c = some j ∧
            (d.acceptsFrom j w = true ∨ d.runFrom? j w = some d.size) := by
          rcases h with ⟨j, hnext, haccepts⟩ | ⟨j, hnext, hrun⟩
          · exact ⟨j, hnext, Or.inl haccepts⟩
          · exact ⟨j, hnext, Or.inr hrun⟩
        exact .read (edge_toNfa_some.2 hnext) (ih hj)

theorem toNfa_accepts (d : Dfa) (input : String) :
    d.toNfa.accepts input = true ↔
      d.accepts input = true ∨ d.runFrom? 0 input.toList = some d.size := by
  rw [Nfa.accepts, Nfa.initial, Nfa.acceptsFrom_closure_iff]
  simp only [SortedSet.mem_singleton, exists_eq_left, isFinal_toNfa, exists_eq_right]
  exact path_toNfa_iff

/-! ## Where the languages differ -/

/-- What runs to no state is not accepted. -/
theorem acceptsFrom_eq_false_of_runFrom? (h : d.runFrom? i w = some j) (hj : d.size ≤ j) :
    d.acceptsFrom i w = false := by
  rw [acceptsFrom, h]
  exact isFinal_eq_false hj

theorem runFrom?_append_eq_some_iff :
    d.runFrom? i (u ++ w) = some k ↔ ∃ j, d.runFrom? i u = some j ∧ d.runFrom? j w = some k := by
  induction u generalizing i with
  | nil => simp [runFrom?]
  | cons c u ih =>
      rw [List.cons_append, runFrom?_cons_eq_some_iff]
      simp only [ih, runFrom?_cons_eq_some_iff]
      constructor
      · rintro ⟨a, ha, j, hj, hk⟩
        exact ⟨j, ⟨a, ha, hj⟩, hk⟩
      · rintro ⟨j, ⟨a, ha, hj⟩, hk⟩
        exact ⟨a, ha, j, hj, hk⟩

/-- A run ends at the number after those of the states if there are no states, or if a state
on a way from the start has a move to that number. -/
theorem exists_runFrom?_size_iff :
    (∃ w, d.runFrom? 0 w = some d.size) ↔
      d.size = 0 ∨ ∃ i ∈ d.states, ∃ c, d.next? i c = some d.size := by
  constructor
  · rintro ⟨w, hw⟩
    rcases List.eq_nil_or_concat w with rfl | ⟨u, c, rfl⟩
    · exact Or.inl (Option.some.inj hw).symm
    · rw [List.concat_eq_append] at hw
      obtain ⟨i, hi, hc⟩ := runFrom?_append_eq_some_iff.1 hw
      obtain ⟨j, hnext, hj⟩ := runFrom?_cons_eq_some_iff.1 hc
      obtain rfl := Option.some.inj hj
      have hlt := lt_size_of_next? hnext
      have hpos := Nat.zero_lt_of_lt hlt
      exact Or.inr
        ⟨i, mem_states_iff.2 ⟨hpos, u, (walk?_eq_some_iff hpos).2 ⟨hi, hlt⟩⟩, c, hnext⟩
  · rintro (hzero | ⟨i, hi, c, hnext⟩)
    · exact ⟨[], congrArg some hzero.symm⟩
    · obtain ⟨-, u, hu⟩ := mem_states_iff.1 hi
      exact ⟨u ++ [c], runFrom?_append_eq_some_iff.2
        ⟨i, runFrom?_of_walk? hu, runFrom?_cons_eq_some_iff.2 ⟨_, hnext, rfl⟩⟩⟩

/-- The exported automaton accepts what the original accepts, and the words on which that one
runs to the number after those of its states. So the two accept the same words precisely if
there are states and no move of a state on a way from the start leads to that number. -/
theorem toNfa_accepts_eq (d : Dfa) :
    (∀ input, d.toNfa.accepts input =
      (d.accepts input || decide (d.runFrom? 0 input.toList = some d.size))) ∧
    ((∀ input, d.toNfa.accepts input = d.accepts input) ↔
      0 < d.size ∧ ∀ i ∈ d.states, ∀ c, d.next? i c ≠ some d.size) := by
  refine ⟨fun input => ?_, ?_⟩
  · rw [Bool.eq_iff_iff, toNfa_accepts, Bool.or_eq_true, decide_eq_true_eq]
  · have hdangling : (∀ input, d.toNfa.accepts input = d.accepts input) ↔
        ¬∃ w, d.runFrom? 0 w = some d.size := by
      constructor
      · rintro hsame ⟨w, hw⟩
        have haccepts : d.toNfa.accepts (String.ofList w) = true :=
          (d.toNfa_accepts _).2 (Or.inr (String.toList_ofList ▸ hw))
        rw [hsame, accepts, String.toList_ofList,
          acceptsFrom_eq_false_of_runFrom? hw (Nat.le_refl _)] at haccepts
        cases haccepts
      · intro hnone input
        rw [Bool.eq_iff_iff, toNfa_accepts]
        exact or_iff_left fun hrun => hnone ⟨_, hrun⟩
    rw [hdangling, exists_runFrom?_size_iff, not_or, Nat.pos_iff_ne_zero]
    simp only [not_exists, not_and]

/-- One state, whose move leads to the number after it. -/
def dangling : Dfa where
  nodes := #[⟨false, ⟨[('a', 1)], by decide⟩, none⟩]

/-- What dangles, and the start of the automaton without states, become final. -/
theorem toNfa_accepts_dangling :
    (dangling.accepts "a" = false ∧ dangling.toNfa.accepts "a" = true) ∧
    empty.accepts "" = false ∧ empty.toNfa.accepts "" = true := by
  obtain ⟨hdangling, -⟩ := dangling.toNfa_accepts_eq
  obtain ⟨hempty, -⟩ := empty.toNfa_accepts_eq
  rw [hdangling, hempty]
  exact ⟨⟨rfl, rfl⟩, rfl, rfl⟩

end Regular.Dfa
