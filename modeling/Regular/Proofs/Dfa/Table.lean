import Regular.Proofs.Dfa.Canonical

/-!
# Automata from tables

Edges are added one after the other (`Dfa.addEdges`). If each leaves an existing state and no
two of them, nor one of them and a move that is there, lead from a state by a character to
different targets (`Dfa.Fits`), all can be added, and the moves are then the old ones and the
edges (`Dfa.exists_addEdges`). The table of an automaton is of this kind whatever the
automaton, so the automaton that is made of its table has the same states, final states and
moves (`Dfa.exists_ofTable_toTable`).
-/

namespace Regular.Dfa

variable {d d' : Dfa} {es : List (StateId × Char × StateId)} {i j : StateId} {c : Char}

/-- Adds the edges one after the other. -/
def addEdges (d : Dfa) (es : List (StateId × Char × StateId)) : Except EdgeError Dfa :=
  es.foldlM (fun d e => d.addEdge e.1 e.2.2 e.2.1) d

/-- States of which it is given whether they are final, without moves. -/
def ofFinals (finals : List Bool) : Dfa := ⟨(finals.map Node.new).toArray⟩

theorem ofTable_eq (t : Table) : ofTable t = (ofFinals t.finals).addEdges t.edges := rfl

/-! ## The automaton without moves -/

theorem size_ofFinals (finals : List Bool) : (ofFinals finals).size = finals.length := by
  simp [ofFinals, size]

theorem isFinal_ofFinals (finals : List Bool) (i : StateId) :
    (ofFinals finals).isFinal i = (finals[i]?).getD false := by
  simp only [ofFinals, isFinal, node?, List.getElem?_toArray, List.getElem?_map]
  cases finals[i]? <;> rfl

theorem next?_ofFinals (finals : List Bool) (i : StateId) (c : Char) :
    (ofFinals finals).next? i c = none := by
  simp only [ofFinals, next?, node?, List.getElem?_toArray, List.getElem?_map]
  cases finals[i]? <;> rfl

/-! ## Adding edges -/

/-- The two differ in moves alone. -/
structure SameStates (d d' : Dfa) : Prop where
  size : d'.size = d.size
  isFinal : ∀ i, d'.isFinal i = d.isFinal i

theorem SameStates.trans {d'' : Dfa} (h : SameStates d d') (h' : SameStates d' d'') :
    SameStates d d'' :=
  ⟨h'.size.trans h.size, fun i => (h'.isFinal i).trans (h.isFinal i)⟩

theorem node?_modify (i a : StateId) (f : Node → Node) :
    (⟨d.nodes.modify i f⟩ : Dfa).node? a = if i = a then (d.node? a).map f else d.node? a :=
  Array.getElem?_modify

/-- An edge can be added where there is no move to another state. -/
theorem exists_addEdge (hsource : i < d.size) (hnew : ∀ k, d.next? i c = some k → k = j) :
    ∃ d', d.addEdge i j c = .ok d' ∧ SameStates d d' ∧
      ∀ a x, d'.next? a x = if a = i ∧ x = c then some j else d.next? a x := by
  obtain ⟨node, hnode⟩ := exists_node? hsource
  have hactual : (node.moves.get? c).getD j = j := by
    cases hget : node.moves.get? c with
    | none => rfl
    | some k => exact hnew k (next?_eq_some_iff.2 ⟨node, hnode, hget⟩)
  refine ⟨⟨d.nodes.modify i fun node => { node with moves := node.moves.insertIfNew c j }⟩,
    ?_, ⟨Array.size_modify, fun a => ?_⟩, fun a x => ?_⟩
  · simp only [addEdge, addEdgeIfNew, hnode]
    exact if_pos hactual
  · rw [isFinal, isFinal, node?_modify]
    split
    · cases d.node? a <;> rfl
    · rfl
  · rw [next?, node?_modify]
    by_cases ha : a = i
    · subst ha
      rw [if_pos rfl, hnode]
      show (node.moves.insertIfNew c j).get? x = _
      rw [CharMap.get?_insertIfNew, hactual, next?, hnode]
      by_cases hx : x = c
      · rw [if_pos hx, if_pos ⟨rfl, hx⟩]
      · rw [if_neg hx, if_neg fun h => hx h.2]
        rfl
    · rw [if_neg (Ne.symm ha), if_neg fun h => ha h.1]
      rfl

/-- The edges leave states, and no two of them, nor one of them and a move, are at odds. -/
structure Fits (d : Dfa) (es : List (StateId × Char × StateId)) : Prop where
  source : ∀ i c j, (i, c, j) ∈ es → i < d.size
  target : ∀ i c j k, (i, c, j) ∈ es → (i, c, k) ∈ es ∨ d.next? i c = some k → k = j

theorem exists_addEdges (h : d.Fits es) : ∃ d', d.addEdges es = .ok d' ∧ SameStates d d' ∧
    ∀ i c j, d'.next? i c = some j ↔ (i, c, j) ∈ es ∨ d.next? i c = some j := by
  induction es generalizing d with
  | nil => exact ⟨d, rfl, ⟨rfl, fun _ => rfl⟩, fun i c j => by simp⟩
  | cons e es ih =>
      obtain ⟨i, c, j⟩ := e
      have hmem : (i, c, j) ∈ (i, c, j) :: es := List.mem_cons_self
      obtain ⟨d₁, hd₁, hsame, hnext⟩ := exists_addEdge (h.source i c j hmem)
        fun k hk => h.target i c j k hmem (Or.inr hk)
      have hfits : d₁.Fits es := by
        refine ⟨fun a x b hb => ?_, fun a x b k hb hk => ?_⟩
        · rw [hsame.size]
          exact h.source a x b (List.mem_cons_of_mem _ hb)
        · have hb' : (a, x, b) ∈ (i, c, j) :: es := List.mem_cons_of_mem _ hb
          rw [hnext] at hk
          rcases hk with hk | hk
          · exact h.target a x b k hb' (Or.inl (List.mem_cons_of_mem _ hk))
          · split at hk
            · next heq =>
              obtain ⟨rfl, rfl⟩ := heq
              obtain rfl := Option.some.inj hk
              exact h.target a x b j hb' (Or.inl hmem)
            · exact h.target a x b k hb' (Or.inr hk)
      obtain ⟨d', hd', hsame', hnext'⟩ := ih hfits
      refine ⟨d', ?_, hsame.trans hsame', fun a x b => ?_⟩
      · rw [addEdges, List.foldlM_cons, hd₁]
        exact hd'
      · rw [hnext', hnext, List.mem_cons, Prod.mk.injEq, Prod.mk.injEq]
        split
        · next heq =>
          obtain ⟨rfl, rfl⟩ := heq
          constructor
          · rintro (hb | hb)
            · exact Or.inl (Or.inr hb)
            · exact Or.inl (Or.inl ⟨rfl, rfl, (Option.some.inj hb).symm⟩)
          · rintro ((⟨-, -, rfl⟩ | hb) | hb)
            · exact Or.inr rfl
            · exact Or.inl hb
            · rw [h.target a x j b hmem (Or.inr hb)]
              exact Or.inr rfl
        · next hne =>
          constructor
          · exact Or.imp_left Or.inr
          · rintro ((⟨rfl, rfl, -⟩ | hb) | hb)
            · exact absurd ⟨rfl, rfl⟩ hne
            · exact Or.inl hb
            · exact Or.inr hb

/-! ## Tables of automata -/

theorem fits_edges (d : Dfa) : (ofFinals d.toTable.finals).Fits d.edges := by
  refine ⟨fun i c j hmem => ?_, fun i c j k hmem hk => ?_⟩
  · rw [size_ofFinals, toTable, List.length_map, Array.length_toList]
    exact lt_size_of_next? (mem_edges_iff.1 hmem)
  · rcases hk with hk | hk
    · have hj := mem_edges_iff.1 hmem
      rw [mem_edges_iff.1 hk] at hj
      exact Option.some.inj hj
    · rw [next?_ofFinals] at hk
      cases hk

/-- The table of an automaton can be read, and what is read has its states and moves. -/
theorem exists_ofTable_toTable (d : Dfa) : ∃ d', ofTable d.toTable = .ok d' ∧ SameStates d d' ∧
    ∀ i c, d'.next? i c = d.next? i c := by
  obtain ⟨d', hd', hsame, hnext⟩ := exists_addEdges d.fits_edges
  refine ⟨d', (ofTable_eq _).trans hd', ⟨?_, fun i => ?_⟩, fun i c => Option.ext fun j => ?_⟩
  · rw [hsame.size, size_ofFinals, toTable, List.length_map, Array.length_toList]
    rfl
  · rw [hsame.isFinal, isFinal_ofFinals, toTable, List.getElem?_map, Array.getElem?_toList]
    show _ = (d.node? i).any (·.final)
    rw [node?]
    cases d.nodes[i]? <;> rfl
  · rw [hnext, next?_ofFinals, mem_edges_iff]
    simp

theorem SameStates.toTable_eq (h : SameStates d d') (hnext : ∀ i c, d'.next? i c = d.next? i c) :
    d'.toTable = d.toTable :=
  toTable_congr h.size (fun i _ => h.isFinal i) fun i _ c => hnext i c

end Regular.Dfa
