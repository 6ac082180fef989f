import Regular.Proofs.Dfa.Determinize

/-!
# What is on no way from the start does not matter to determinizing

Two automata agree where they are reached if they have the same start, the same states on
ways from it, and the same nodes there (`Nfa.AgreeReached`). Then they have the same paths
from the start (`Nfa.AgreeReached.path`), and a number at the end of such a path that is no
state of the one is no state of the other: if it were, it would be on a way from the start of
both. So the two have the same node at every number that is met
(`Nfa.AgreeReached.node?_eq`), whether there is one or not.

The sets of states that are met hold no other numbers, and so the two constructions go in
step from set to set. They have different fuel, because the edges of all nodes count for
that; but fuel for the sets that there can be is enough, and more makes no difference
(`Subset.Invariant.explore_fuel`). So all is the same: states, numbers, origins, moves,
events, and where a ceiling stops the construction (`Nfa.AgreeReached.toDfaObserved_eq`).
-/

namespace Regular

namespace Nfa

variable {n m : Nfa} {i j k : StateId} {s : IdSet} {c : Char} {w : List Char}

/-- The automata have the same start, the same states on ways from it, and the same nodes
there. -/
structure AgreeReached (n m : Nfa) : Prop where
  start : n.start = m.start
  states : n.states = m.states
  node : ∀ i ∈ n.states, n.node? i = m.node? i

/-- The number is at the end of a path from the start, whether or not a state has it. -/
def Met (n : Nfa) (i : StateId) : Prop := ∃ w, n.Path n.start w i

theorem Met.append (h : n.Met i) (hw : n.Path i w j) : n.Met j := by
  obtain ⟨u, hu⟩ := h
  exact ⟨u ++ w, hu.append hw⟩

theorem Met.edge {label : Option Char} (h : n.Met i) (hedge : n.Edge i label j) : n.Met j := by
  cases label with
  | none => exact h.append (.silent hedge (.nil j))
  | some c => exact h.append (.read hedge (.nil j))

namespace AgreeReached

theorem symm (h : n.AgreeReached m) : m.AgreeReached n :=
  ⟨h.start.symm, h.states.symm, fun i hi => (h.node i (h.states ▸ hi)).symm⟩

/-- From a number that is met, the edges are the same. -/
theorem edge {label : Option Char} (h : n.AgreeReached m) (hi : n.Met i)
    (hedge : n.Edge i label j) : m.Edge i label j := by
  obtain ⟨node, hnode, hmem⟩ := edge_iff.1 hedge
  exact edge_iff.2 ⟨node, h.node i (mem_states_iff.2 ⟨hedge.lt_size, hi⟩) ▸ hnode, hmem⟩

/-- From a number that is met, the paths are the same. -/
theorem path (h : n.AgreeReached m) (hi : n.Met i) (hw : n.Path i w k) : m.Path i w k := by
  induction hw with
  | nil i => exact .nil i
  | silent hedge _ ih => exact .silent (h.edge hi hedge) (ih (hi.edge hedge))
  | read hedge _ ih => exact .read (h.edge hi hedge) (ih (hi.edge hedge))

theorem met (h : n.AgreeReached m) (hi : n.Met i) : m.Met i := by
  obtain ⟨w, hw⟩ := hi
  exact ⟨w, h.start ▸ h.path ⟨[], .nil _⟩ hw⟩

/-- At a number that is met, both have the same node or none. -/
theorem node?_eq (h : n.AgreeReached m) (hi : n.Met i) : n.node? i = m.node? i := by
  by_cases hlt : i < n.size
  · exact h.node i (mem_states_iff.2 ⟨hlt, hi⟩)
  · have hge : m.size ≤ i := by
      by_contra hnot
      have hmem : i ∈ m.states := mem_states_iff.2 ⟨Nat.not_le.1 hnot, h.met hi⟩
      rw [← h.states] at hmem
      exact hlt (mem_states_iff.1 hmem).1
    rw [node?_eq_none_iff.2 (Nat.not_lt.1 hlt), node?_eq_none_iff.2 hge]

/-! ## The same sets -/

theorem symbols_eq (h : n.AgreeReached m) (hs : ∀ i ∈ s, n.Met i) :
    Subset.symbols n s = Subset.symbols m s := by
  rw [Subset.symbols, Subset.symbols, List.filterMap_congr fun i hi => h.node?_eq (hs i hi)]

theorem containsFinal_eq (h : n.AgreeReached m) (hs : ∀ i ∈ s, n.Met i) :
    n.containsFinal s = m.containsFinal s := by
  rw [Bool.eq_iff_iff, containsFinal_eq_true_iff, containsFinal_eq_true_iff]
  refine exists_congr fun i => and_congr_right fun hi => ?_
  rw [isFinal, isFinal, h.node?_eq (hs i hi)]

theorem met_of_mem_step (hs : ∀ i ∈ s, n.Met i) (hj : j ∈ n.step s c) : n.Met j := by
  obtain ⟨i, hi, k, hedge, hway⟩ := mem_step_iff.1 hj
  exact ((hs i hi).edge hedge).append (path_nil_iff.2 hway)

theorem step_subset (h : n.AgreeReached m) (hs : ∀ i ∈ s, n.Met i) (hj : j ∈ n.step s c) :
    j ∈ m.step s c := by
  obtain ⟨i, hi, k, hedge, hway⟩ := mem_step_iff.1 hj
  have hpath := h.path ((hs i hi).edge hedge) (path_nil_iff.2 hway)
  exact mem_step_iff.2 ⟨i, hi, k, h.edge (hs i hi) hedge, path_nil_iff.1 hpath⟩

theorem step_eq (h : n.AgreeReached m) (hs : ∀ i ∈ s, n.Met i) (c : Char) :
    n.step s c = m.step s c :=
  SortedSet.ext_mem fun _ => ⟨h.step_subset hs, h.symm.step_subset fun i hi => h.met (hs i hi)⟩

theorem met_of_mem_initial (hi : i ∈ n.initial) : n.Met i :=
  ⟨[], mem_statesAfter_initial_iff.1 hi⟩

theorem initial_subset (h : n.AgreeReached m) (hi : i ∈ n.initial) : i ∈ m.initial := by
  have hpath := h.path ⟨[], .nil _⟩ (mem_statesAfter_initial_iff (w := []).1 hi)
  exact mem_statesAfter_initial_iff (w := []).2 (h.start ▸ hpath)

theorem initial_eq (h : n.AgreeReached m) : n.initial = m.initial :=
  SortedSet.ext_mem fun _ => ⟨h.initial_subset, h.symm.initial_subset⟩

end AgreeReached

end Nfa

/-! ## The same search -/

namespace Subset

open Nfa (AgreeReached)

variable {n m : Nfa} {limit : Option Nat} {r : Registry} {s t : IdSet} {k : StateId} {fuel : Nat}
  {nodes : Array Dfa.Node}

theorem locate_congr (h : n.containsFinal t = m.containsFinal t) :
    r.locate n limit t = r.locate m limit t := by
  unfold Registry.locate
  rw [h]

theorem follow_congr (h : n.AgreeReached m) (hs : ∀ i ∈ s, n.Met i) (cs : List Char)
    (r : Registry) : follow n limit k s cs r = follow m limit k s cs r := by
  induction cs generalizing r with
  | nil => rfl
  | cons c cs ih =>
      have hfinal := h.containsFinal_eq (s := n.step s c) fun _ => AgreeReached.met_of_mem_step hs
      simp only [follow, ← h.step_eq hs c, locate_congr hfinal, ih]

theorem Invariant.explore_congr (h : n.AgreeReached m)
    (hinv : Invariant n r nodes.size fun _ => False) :
    Subset.explore n limit fuel r nodes = Subset.explore m limit fuel r nodes := by
  induction fuel generalizing r nodes with
  | zero => rfl
  | succ fuel ih =>
      rw [Subset.explore, Subset.explore]
      cases hk : r.sets[nodes.size]? with
      | none => rfl
      | some s =>
          have hs : ∀ i ∈ s, n.Met i := fun i hi => hinv.exists_path hk hi
          simp only [← h.symbols_eq hs, ← follow_congr h hs, ← h.containsFinal_eq hs]
          cases hfollow : Subset.follow n limit nodes.size s (symbols n s).toList r with
          | error events => rfl
          | ok p => exact ih (hinv.next_push hk hfollow _)

/-- When all sets that there can be have a state, the search is done. -/
theorem Invariant.explore_done (hinv : Invariant n r nodes.size fun _ => False)
    (hle : bound n ≤ nodes.size) : Subset.explore n limit fuel r nodes = .ok (r, nodes) := by
  have hnone : r.sets[nodes.size]? = none :=
    Array.getElem?_eq_none (Nat.le_trans hinv.size_le_bound hle)
  cases fuel with
  | zero => rfl
  | succ fuel => rw [Subset.explore, hnone]

/-- Where there is fuel for all sets that there can be, it does not matter how much there
is. -/
theorem Invariant.explore_fuel {fuel' : Nat} (hinv : Invariant n r nodes.size fun _ => False)
    (hfuel : bound n ≤ nodes.size + fuel) (hfuel' : bound n ≤ nodes.size + fuel') :
    Subset.explore n limit fuel r nodes = Subset.explore n limit fuel' r nodes := by
  induction fuel generalizing r nodes fuel' with
  | zero => rw [hinv.explore_done hfuel, hinv.explore_done hfuel]
  | succ fuel ih =>
      cases fuel' with
      | zero => rw [hinv.explore_done hfuel', hinv.explore_done hfuel']
      | succ fuel' =>
          rw [Subset.explore, Subset.explore]
          cases hk : r.sets[nodes.size]? with
          | none => rfl
          | some s =>
              simp only
              cases hfollow : Subset.follow n limit nodes.size s (symbols n s).toList r with
              | error events => rfl
              | ok p =>
                  have hnext := hinv.next_push hk hfollow ⟨n.containsFinal s, .ofList p.2, some s⟩
                  have hsize := nodes.size_push ⟨n.containsFinal s, .ofList p.2, some s⟩
                  exact ih hnext (by omega) (by omega)

end Subset

/-! ## The same automaton -/

namespace Nfa.AgreeReached

variable {n m : Nfa}

theorem locate_initial (h : n.AgreeReached m) (limit : Option Nat) (r : Subset.Registry) :
    r.locate n limit n.initial = r.locate m limit m.initial := by
  rw [← h.initial_eq]
  exact Subset.locate_congr (h.containsFinal_eq fun _ => met_of_mem_initial)

/-- Determinizing reads only what is reached. -/
theorem toDfaObserved_eq (h : n.AgreeReached m) (limit : Option Nat) :
    n.toDfaObserved limit = m.toDfaObserved limit := by
  rw [toDfaObserved, toDfaObserved, ← h.locate_initial]
  cases hlocate : Subset.Registry.empty.locate n limit n.initial with
  | error events => rfl
  | ok p =>
      have hn : Subset.Invariant n p.1 (#[] : Array Dfa.Node).size fun _ => False :=
        Subset.invariant_initial hlocate
      have hm : Subset.Invariant m p.1 (#[] : Array Dfa.Node).size fun _ => False :=
        Subset.invariant_initial (h.locate_initial limit _ ▸ hlocate)
      have hrun : Subset.explore n limit (Subset.bound n) p.1 #[] =
          Subset.explore m limit (Subset.bound m) p.1 #[] :=
        calc Subset.explore n limit (Subset.bound n) p.1 #[]
            = Subset.explore n limit (Subset.bound n + Subset.bound m) p.1 #[] :=
              hn.explore_fuel (by omega) (by omega)
          _ = Subset.explore m limit (Subset.bound n + Subset.bound m) p.1 #[] :=
              hn.explore_congr h
          _ = Subset.explore m limit (Subset.bound m) p.1 #[] :=
              hm.explore_fuel (by omega) (by omega)
      simp only [bind, Except.bind]
      exact hrun ▸ rfl

theorem toDfa_eq (h : n.AgreeReached m) : n.toDfa = m.toDfa := by
  rw [toDfa, toDfa, h.toDfaObserved_eq]

end Nfa.AgreeReached

end Regular
