import Regular.Proofs.Compile
import Regular.Proofs.Dfa.Trim

/-!
# Which states are merged

Two words lead to one state of the minimal automaton precisely if the states of the original
to which they lead are equivalent (`Dfa.minimize_merges`). That is finer than to accept the
same words, since a missing move counts as a difference to a move into a dead state:
`Dfa.turns` keeps its two final states, of which only one has a move to the dead state.

A state is merged into the state of the minimal automaton to which the same words lead
(`Dfa.Merged`), which is the block that it is in (`Dfa.IsClasses.merged_iff`). The order of
the blocks therefore shows in the numbers: the least states that are merged into `0, 1, …` go
up.
-/

namespace Regular.Dfa

variable {d : Dfa} {blocks : List IdSet} {i j k : Nat} {u v w : List Char}

/-! ## What a state is merged into -/

/-- The state `i` becomes a part of the state `k` of the minimal automaton. -/
def Merged (d : Dfa) (k i : Nat) : Prop :=
  i < d.size ∧ ∃ w, d.runFrom? 0 w = some i ∧ d.minimize.runFrom? 0 w = some k

/-- The least state that becomes a part of the state `k` of the minimal automaton. -/
def LeastMerged (d : Dfa) (k i : Nat) : Prop := d.Merged k i ∧ ∀ j, d.Merged k j → i ≤ j

/-- Where a word leads to a state of the original, it leads to the block of that state. -/
theorem IsClasses.runFrom?_quotient (h : d.IsClasses blocks) (hi : i < d.size)
    (hu : d.runFrom? 0 u = some i) :
    (d.quotient blocks).runFrom? 0 u = some k ↔ InBlock blocks k i := by
  have hpos := Nat.zero_lt_of_lt hi
  have hwalk := (walk?_eq_some_iff hpos).2 ⟨hu, hi⟩
  have hrun : ∀ {l}, InBlock blocks l i → (d.quotient blocks).runFrom? 0 u = some l := by
    intro l hl
    exact runFrom?_of_walk? ((h.walk?_quotient (h.inBlock_zero hpos)).2 ⟨i, hwalk, hl⟩)
  constructor
  · intro hk
    obtain ⟨l, hl⟩ := h.partition.inBlock_iff.2 (mem_states_iff.2 ⟨hpos, u, hwalk⟩)
    obtain rfl := Option.some.inj (hk.symm.trans (hrun hl))
    exact hl
  · exact hrun

theorem IsClasses.merged_iff (h : d.IsClasses blocks) (heq : d.minimize = d.quotient blocks) :
    d.Merged k i ↔ InBlock blocks k i := by
  constructor
  · rintro ⟨hi, w, hw, hk⟩
    rw [heq] at hk
    exact (h.runFrom?_quotient hi hw).1 hk
  · intro hk
    obtain ⟨hpos, w, hw⟩ := mem_states_iff.1 (h.partition.mem_states hk)
    obtain ⟨hrun, hi⟩ := (walk?_eq_some_iff hpos).1 hw
    exact ⟨hi, w, hrun, heq ▸ (h.runFrom?_quotient hi hrun).2 hk⟩

/-- The words that lead to equivalent states, and no others, lead to one block. -/
theorem IsClasses.exists_runs (h : d.IsClasses blocks) (hi : i < d.size) (hj : j < d.size)
    (hu : d.runFrom? 0 u = some i) (hv : d.runFrom? 0 v = some j) :
    ∃ k l, (d.quotient blocks).runFrom? 0 u = some k ∧
      (d.quotient blocks).runFrom? 0 v = some l ∧ (k = l ↔ d.Equivalent i j) := by
  have hpos := Nat.zero_lt_of_lt hi
  have hmem : ∀ {p w}, p < d.size → d.runFrom? 0 w = some p → p ∈ d.states := fun hp hw =>
    mem_states_iff.2 ⟨hpos, _, (walk?_eq_some_iff hpos).2 ⟨hw, hp⟩⟩
  obtain ⟨k, hk⟩ := h.partition.inBlock_iff.2 (hmem hi hu)
  obtain ⟨l, hl⟩ := h.partition.inBlock_iff.2 (hmem hj hv)
  refine ⟨k, l, (h.runFrom?_quotient hi hu).2 hk, (h.runFrom?_quotient hj hv).2 hl, ?_⟩
  have hdisjoint := h.partition.disjoint
  have hsame : k = l ↔ SameBlock blocks i j := by
    rw [hdisjoint.sameBlock_iff hk]
    constructor
    · rintro rfl
      exact hl
    · intro hkj
      exact hdisjoint.inBlock_unique hkj hl
  rw [hsame, h.sameBlock_iff]
  exact ⟨fun h => h.2.2, fun h => ⟨hmem hi hu, hmem hj hv, h⟩⟩

/-! ## The merging of equivalent states -/

/-- Where two words lead through states of the original to states of it, they lead to one
state of the minimal automaton precisely if these are equivalent. The states of the minimal
automaton are numbered by the least states that are merged into them, so the start keeps its
number. -/
theorem minimize_merges (d : Dfa) :
    (∀ u v i j, d.runFrom? 0 u = some i → i < d.size → d.runFrom? 0 v = some j → j < d.size →
      ∃ k l, d.minimize.runFrom? 0 u = some k ∧ d.minimize.runFrom? 0 v = some l ∧
        (k = l ↔ d.Equivalent i j)) ∧
    (0 < d.size → d.LeastMerged 0 0) ∧
    (∀ k < d.minimize.size, ∃ i, d.LeastMerged k i) ∧
    ∀ k l i j, d.LeastMerged k i → d.LeastMerged l j → k < l → i < j := by
  refine ⟨fun u v i j hu hi hv hj => ?_, fun hpos => ?_, fun k hk => ?_,
    fun k l i j hk hl hkl => ?_⟩
  · obtain ⟨blocks, h, heq⟩ := minimize_eq (Nat.zero_lt_of_lt hi)
    rw [heq]
    exact h.exists_runs hi hj hu hv
  · obtain ⟨blocks, h, heq⟩ := minimize_eq hpos
    exact ⟨(h.merged_iff heq).2 (h.inBlock_zero hpos), fun j _ => Nat.zero_le j⟩
  · have hpos : 0 < d.size := Nat.lt_of_lt_of_le (Nat.zero_lt_of_lt hk)
      (Nat.le_trans d.size_minimize_le d.size_states_le)
    obtain ⟨blocks, h, heq⟩ := minimize_eq hpos
    rw [heq, size_quotient] at hk
    obtain ⟨i, hi, hleast⟩ := h.partition.exists_least hk
    exact ⟨i, (h.merged_iff heq).2 hi, fun j hj => hleast j ((h.merged_iff heq).1 hj)⟩
  · obtain ⟨blocks, h, heq⟩ := minimize_eq (Nat.zero_lt_of_lt hk.1.1)
    have hleast : ∀ {m a}, d.LeastMerged m a → ∀ b, InBlock blocks m b → a ≤ b :=
      fun hm b hb => hm.2 b ((h.merged_iff heq).2 hb)
    exact h.least_lt ((h.merged_iff heq).1 hk.1) (hleast hk) ((h.merged_iff heq).1 hl.1)
      (hleast hl) hkl

/-- The two final states of `turns` accept the same words and are kept apart. -/
theorem minimize_merges_turns :
    turns.runFrom? 0 [] = some 0 ∧ turns.runFrom? 0 ['a'] = some 1 ∧
    (∀ w, turns.acceptsFrom 0 w = turns.acceptsFrom 1 w) ∧
    turns.minimize.runFrom? 0 [] ≠ turns.minimize.runFrom? 0 ['a'] ∧
    turns.minimize.runFrom? 0 [] = turns.minimize.runFrom? 0 ['a', 'a'] ∧
    turns.LeastMerged 0 0 := by
  have hapart : ¬turns.Equivalent 0 1 := fun h => nomatch h ['b']
  have hrefl : turns.Equivalent 0 0 := fun _ => rfl
  obtain ⟨hmerges, hzero, -⟩ := turns.minimize_merges
  obtain ⟨k, l, hk, hl, hkl⟩ := hmerges [] ['a'] 0 1 rfl (by decide) rfl (by decide)
  obtain ⟨k', m, hk', hm, hkm⟩ := hmerges [] ['a', 'a'] 0 0 rfl (by decide) rfl (by decide)
  refine ⟨rfl, rfl, fun w => ?_, fun heq => hapart (hkl.1 ?_), ?_, hzero (by decide)⟩
  · rw [(turns_acceptsFrom w).1, (turns_acceptsFrom w).2]
  · exact Option.some.inj (hk.symm.trans (heq.trans hl))
  · rw [hk', hm, hkm.2 hrefl]

end Regular.Dfa
