import Regular.Proofs.Dfa.Origin

/-!
# Automata that are their own minimal automata

An automaton is reduced if it is trim, no two of its states are equivalent, and no state
stands for a set (`Dfa.Reduced`). The classes of a reduced automaton hold one state each, so
in the order of their least members each class has the number of its state, and the quotient
is the automaton itself (`Dfa.Reduced.minimize_eq_self`).

A minimal automaton is reduced (`Dfa.reduced_minimize`). That it is trim is known. Two of its
states that are equivalent are the same, because a walk from a block ends, if at all, in a
block of the finality in which the walk from a member ends
(`Dfa.IsClasses.map_isFinal_walk?`); so members of the two are equivalent in the original,
and in one block. Hence minimizing again changes nothing, not even a number
(`Dfa.minimize_minimize`).
-/

namespace Regular.Dfa

variable {d d' : Dfa} {blocks : List IdSet} {i j k l : Nat} {w : List Char}

/-! ## An automaton is determined by its observers -/

/-- Automata are equal whose states agree in number, finality, moves and origins. -/
theorem ext_observers (hsize : d.size = d'.size) (hfinal : ∀ i < d.size, d.isFinal i = d'.isFinal i)
    (hnext : ∀ i < d.size, ∀ c, d.next? i c = d'.next? i c)
    (horigin : ∀ i < d.size, d.origin? i = d'.origin? i) : d = d' := by
  have hnodes : d.nodes = d'.nodes := by
    refine Array.ext hsize fun i hi hi' => ?_
    have hnode : d.node? i = some d.nodes[i] := Array.getElem?_eq_getElem hi
    have hnode' : d'.node? i = some d'.nodes[i] := Array.getElem?_eq_getElem hi'
    have hf := hfinal i hi
    have hn := hnext i hi
    have ho := horigin i hi
    simp only [isFinal, next?, origin?, hnode, hnode', Option.any_some, Option.bind_eq_bind,
      Option.bind_some] at hf hn ho
    generalize d.nodes[i] = a at hf hn ho ⊢
    generalize d'.nodes[i] = b at hf hn ho ⊢
    obtain ⟨final, moves, origin⟩ := a
    obtain ⟨final', moves', origin'⟩ := b
    cases hf
    cases ho
    cases CharMap.ext_get? hn
    rfl
  cases d
  cases d'
  cases hnodes
  rfl

/-- Blocks stand for no sets of states of another automaton. -/
theorem origin?_quotient (d : Dfa) (blocks : List IdSet) (k : Nat) :
    (d.quotient blocks).origin? k = none := by
  rw [origin?, node?, quotient, List.getElem?_toArray, List.getElem?_map]
  cases blocks[k]? <;> rfl

/-! ## Reduced automata -/

/-- There is nothing to drop and nothing to merge. -/
structure Reduced (d : Dfa) : Prop where
  trim : d.Trim
  separated : ∀ i < d.size, ∀ j < d.size, d.Equivalent i j → i = j
  bare : ∀ i < d.size, d.origin? i = none

/-- Each state in a block of its own. -/
def singletons (d : Dfa) : List IdSet := (List.range d.size).map SortedSet.singleton

theorem mem_singletons_iff {b : IdSet} : b ∈ d.singletons ↔ ∃ i < d.size, .singleton i = b := by
  simp only [singletons, List.mem_map, List.mem_range]

theorem inBlock_singletons_iff : InBlock d.singletons k i ↔ k < d.size ∧ i = k := by
  rw [InBlock, singletons]
  constructor
  · rintro ⟨b, hb, hi⟩
    rw [List.getElem?_map, Option.map_eq_some_iff] at hb
    obtain ⟨a, ha, rfl⟩ := hb
    obtain ⟨hlt, rfl⟩ := List.getElem?_eq_some_iff.1 ha
    rw [List.length_range] at hlt
    rw [SortedSet.mem_singleton, List.getElem_range] at hi
    exact ⟨hlt, hi⟩
  · rintro ⟨hlt, rfl⟩
    refine ⟨.singleton i, ?_, SortedSet.mem_singleton.2 rfl⟩
    rw [List.getElem?_map, List.getElem?_range hlt, Option.map_some]

theorem sameBlock_singletons_iff : SameBlock d.singletons i j ↔ i < d.size ∧ i = j := by
  simp only [sameBlock_iff, inBlock_singletons_iff]
  constructor
  · rintro ⟨k, ⟨hlt, rfl⟩, -, rfl⟩
    exact ⟨hlt, rfl⟩
  · rintro ⟨hlt, rfl⟩
    exact ⟨i, ⟨hlt, rfl⟩, hlt, rfl⟩

theorem Trim.isPartition_singletons (h : d.Trim) : d.IsPartition d.singletons where
  nonempty b hb := by
    obtain ⟨i, -, rfl⟩ := mem_singletons_iff.1 hb
    intro heq
    have hi : i ∈ SortedSet.singleton i := SortedSet.mem_singleton.2 rfl
    exact SortedSet.not_mem_empty (heq ▸ hi)
  cover i := by
    rw [← exists_inBlock_iff]
    simp only [inBlock_singletons_iff]
    constructor
    · intro hi
      exact ⟨i, lt_size_of_mem_states hi, rfl⟩
    · rintro ⟨k, hk, rfl⟩
      exact h.reached i hk
  disjoint := by
    refine List.pairwise_map.2 (List.nodup_range.imp fun hne x hx hx' => hne ?_)
    rw [SortedSet.mem_singleton] at hx hx'
    exact hx.symm.trans hx'
  uniform b hb i hi j hj := by
    obtain ⟨a, -, rfl⟩ := mem_singletons_iff.1 hb
    rw [SortedSet.mem_singleton] at hi hj
    rw [hi, hj]

theorem ascending_singletons (d : Dfa) : Ascending d.singletons := by
  refine List.pairwise_map.2 (List.pairwise_lt_range.imp fun hlt i j hi hj => ?_)
  obtain rfl := Option.some.inj hi
  obtain rfl := Option.some.inj hj
  exact hlt

theorem Reduced.isClasses (h : d.Reduced) : d.IsClasses d.singletons := by
  refine isClasses_of_sameBlock_iff h.trim.isPartition_singletons d.ascending_singletons ?_
  intro i hi j hj
  rw [sameBlock_singletons_iff]
  constructor
  · rintro ⟨-, rfl⟩
    exact fun _ => rfl
  · intro hij
    have hlt := lt_size_of_mem_states hi
    exact ⟨hlt, h.separated i hlt j (lt_size_of_mem_states hj) hij⟩

/-- As no target dangles, a state keeps all of its moves when it becomes a block. -/
theorem Reduced.quotient_singletons (h : d.Reduced) : d.quotient d.singletons = d := by
  have hclasses := h.isClasses
  have hsize : (d.quotient d.singletons).size = d.size := by
    rw [size_quotient, singletons, List.length_map, List.length_range]
  refine ext_observers hsize (fun k hk => ?_) (fun k hk c => Option.ext fun l => ?_) fun k hk => ?_
  · exact hclasses.partition.isFinal_quotient (inBlock_singletons_iff.2 ⟨hsize ▸ hk, rfl⟩)
  · rw [hclasses.next?_quotient (inBlock_singletons_iff.2 ⟨hsize ▸ hk, rfl⟩)]
    simp only [inBlock_singletons_iff, move?_eq_some_iff]
    constructor
    · rintro ⟨a, ⟨ha, -⟩, -, rfl⟩
      exact ha
    · intro hl
      have hlt := h.trim.closed k c l hl
      exact ⟨l, ⟨hl, hlt⟩, hlt, rfl⟩
  · rw [origin?_quotient, h.bare k (hsize ▸ hk)]

/-- A reduced automaton is its own minimal automaton. -/
theorem Reduced.minimize_eq_self (h : d.Reduced) : d.minimize = d := by
  rcases Nat.eq_zero_or_pos d.size with hzero | hpos
  · rw [minimize_eq_empty hzero]
    refine ext_observers hzero.symm ?_ ?_ ?_ <;> exact fun i hi => absurd hi (Nat.not_lt_zero i)
  · rw [h.isClasses.minimize_eq hpos, h.quotient_singletons]

/-! ## The minimal automaton is reduced -/

/-- A walk from a block ends in the finality in which the walk from a member ends. -/
theorem IsClasses.map_isFinal_walk? (h : d.IsClasses blocks) (hk : InBlock blocks k i) :
    ((d.quotient blocks).walk? k w).map (d.quotient blocks).isFinal =
      (d.walk? i w).map d.isFinal := by
  cases hj : d.walk? i w with
  | some j =>
      have hmem := mem_states_of_walk? (h.partition.mem_states hk) hj
      obtain ⟨l, hl⟩ := h.partition.inBlock_iff.2 hmem
      rw [(h.walk?_quotient hk).2 ⟨j, hj, hl⟩, Option.map_some, Option.map_some,
        h.partition.isFinal_quotient hl]
  | none =>
      have hnone : (d.quotient blocks).walk? k w = none := by
        refine Option.eq_none_iff_forall_ne_some.2 fun l hl => ?_
        obtain ⟨j, hj', -⟩ := (h.walk?_quotient hk).1 hl
        rw [hj] at hj'
        cases hj'
      rw [hnone, Option.map_none, Option.map_none]

/-- Blocks are equivalent precisely if their members are. -/
theorem IsClasses.equivalent_quotient_iff (h : d.IsClasses blocks) (hk : InBlock blocks k i)
    (hl : InBlock blocks l j) : (d.quotient blocks).Equivalent k l ↔ d.Equivalent i j := by
  simp only [Equivalent, h.map_isFinal_walk? hk, h.map_isFinal_walk? hl]

theorem IsClasses.reduced_quotient (h : d.IsClasses blocks) (hpos : 0 < d.size) :
    (d.quotient blocks).Reduced where
  trim := h.trim_quotient hpos
  separated k hk l hl hkl := by
    rw [size_quotient] at hk hl
    obtain ⟨i, hi, -⟩ := h.partition.exists_least hk
    obtain ⟨j, hj, -⟩ := h.partition.exists_least hl
    have hsame : SameBlock blocks i j := h.sameBlock_iff.2
      ⟨h.partition.mem_states hi, h.partition.mem_states hj,
        (h.equivalent_quotient_iff hi hj).1 hkl⟩
    have hjk := (h.partition.disjoint.sameBlock_iff hi).1 hsame
    exact h.partition.disjoint.inBlock_unique hjk hj
  bare k _ := origin?_quotient d blocks k

theorem reduced_minimize (d : Dfa) : d.minimize.Reduced := by
  rcases Nat.eq_zero_or_pos d.size with hzero | hpos
  · have htrim := d.trim_minimize
    rw [minimize_eq_empty hzero] at htrim ⊢
    exact ⟨htrim, fun i hi => absurd hi (Nat.not_lt_zero i),
      fun i hi => absurd hi (Nat.not_lt_zero i)⟩
  · obtain ⟨blocks, h, heq⟩ := minimize_eq hpos
    rw [heq]
    exact h.reduced_quotient hpos

/-- Minimizing a minimal automaton gives the very same automaton, with the same numbers,
whatever it was made from. The automata that minimizing leaves as they are, are the reduced
ones. -/
theorem minimize_minimize (d : Dfa) :
    d.minimize.minimize = d.minimize ∧ (d.minimize = d ↔ d.Reduced) := by
  refine ⟨d.reduced_minimize.minimize_eq_self, fun heq => ?_, Reduced.minimize_eq_self⟩
  rw [← heq]
  exact d.reduced_minimize

end Regular.Dfa
