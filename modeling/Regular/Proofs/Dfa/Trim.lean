import Regular.Proofs.Defect
import Regular.Proofs.Dfa.Minimal

/-!
# Trim automata

An automaton is trim if its moves lead to states and each state is on a way from the start
(`Dfa.Trim`). What can be found wrong with a trim automaton is that it has no states, or that
none of them is final (`Dfa.Trim.defects_eq`). Nothing more shows when it is held against a
source of the same language that has at least as many states (`Dfa.defectsOfMinimized_eq`).

A minimal automaton is always trim (`Dfa.trim_minimize`), since its states are blocks of
states on ways from the start, and a move into no block is dropped. So whatever it is made
from, it is found to be in order unless the original has no states or accepts nothing
(`Dfa.minimize_reduces`). Determinizing gives trim automata as well
(`Subset.Determinizes.trim`).
-/

namespace Regular

namespace Dfa

variable {d m : Dfa} {blocks : List IdSet}

/-- Moves lead to states, and each state is on a way from the start. -/
structure Trim (d : Dfa) : Prop where
  closed : ∀ i c j, d.next? i c = some j → j < d.size
  reached : ∀ i < d.size, i ∈ d.states

/-! ## What is found wrong -/

/-- A trim automaton may be without states, or without final ones. -/
theorem Trim.defects_eq (h : d.Trim) :
    d.defects = if d.size = 0 then [.missingStart 0]
      else if d.finalStates.isEmpty then [.noFinalState] else [] := by
  simp only [defects, Defect.unreachableStates_eq_nil_iff.2 h.reached, List.append_nil]
  rw [List.filterMap_eq_nil_iff.2 ?dangling, List.nil_append]
  rintro ⟨source, c, target⟩ hedge
  have hlt := h.closed source c target (mem_edges_iff.1 hedge)
  exact if_neg (Nat.not_le.2 hlt)

/-- Nothing is found wrong with a trim automaton that accepts something. -/
theorem Trim.defects_eq_nil (h : d.Trim) {w : List Char} (hw : d.acceptsFrom 0 w = true) :
    d.defects = [] := by
  have hfinal : d.finalStates.isEmpty = false :=
    SortedSet.isEmpty_eq_false_iff.2 (exists_mem_finalStates_iff.2 ⟨w, hw⟩)
  rw [h.defects_eq, if_neg (Nat.ne_of_gt (size_pos_of_acceptsFrom hw)), hfinal]
  rfl

/-- Where a minimal automaton is not larger than its source and gives the same verdicts,
holding it against the source shows nothing more. -/
theorem defectsOfMinimized_eq (hsize : m.size ≤ d.states.size)
    (hsame : ∀ input, d.accepts input = m.accepts input) (battery : List String) :
    d.defectsOfMinimized m battery = m.defects := by
  have hlarger : ¬d.states.size < m.states.size :=
    Nat.not_lt.2 (Nat.le_trans m.size_states_le hsize)
  have hmismatch : (battery.filterMap fun input =>
      if d.accepts input ≠ m.accepts input then
        some (Defect.finalMismatch input (d.accepts input) (m.accepts input)) else none) = [] :=
    List.filterMap_eq_nil_iff.2 fun input _ => if_neg (not_not.2 (hsame input))
  simp only [defectsOfMinimized, if_neg hlarger, hmismatch, List.append_nil]

/-- Automata of one language either both have final states on ways from their starts, or
neither. -/
theorem isEmpty_finalStates_congr (hsame : SameLanguage d m) :
    d.finalStates.isEmpty = m.finalStates.isEmpty := by
  rw [Bool.eq_iff_iff, ← not_iff_not, Bool.not_eq_true, Bool.not_eq_true,
    SortedSet.isEmpty_eq_false_iff, SortedSet.isEmpty_eq_false_iff, exists_mem_finalStates_iff,
    exists_mem_finalStates_iff]
  simp only [hsame _]

/-! ## The minimal automaton -/

/-- A word that leads to a member of a block leads to the block. -/
theorem IsClasses.trim_quotient (h : d.IsClasses blocks) (hpos : 0 < d.size) :
    (d.quotient blocks).Trim where
  closed _ _ _ := h.closed_quotient
  reached k hk := by
    have hzero := h.inBlock_zero hpos
    have hlen := hk
    rw [size_quotient] at hlen
    obtain ⟨i, hi, -⟩ := h.partition.exists_least hlen
    obtain ⟨-, w, hw⟩ := mem_states_iff.1 (h.partition.mem_states hi)
    exact mem_states_iff.2 ⟨Nat.zero_lt_of_lt hk, w, (h.walk?_quotient hzero).2 ⟨i, hw, hi⟩⟩

theorem trim_minimize (d : Dfa) : d.minimize.Trim := by
  rcases Nat.eq_zero_or_pos d.size with hzero | hpos
  · rw [minimize_eq_empty hzero]
    refine ⟨fun i c j hnext => ?_, fun i hi => absurd hi (Nat.not_lt_zero i)⟩
    exact absurd (lt_size_of_next? hnext) (Nat.not_lt_zero i)
  · obtain ⟨blocks, hclasses, heq⟩ := minimize_eq hpos
    rw [heq]
    exact hclasses.trim_quotient hpos

theorem size_minimize_le (d : Dfa) : d.minimize.size ≤ d.states.size := by
  rcases Nat.eq_zero_or_pos d.size with hzero | hpos
  · rw [minimize_eq_empty hzero]
    exact Nat.zero_le _
  · obtain ⟨blocks, hclasses, heq⟩ := minimize_eq hpos
    rw [heq, size_quotient]
    exact hclasses.partition.length_le

/-- The minimal automaton has no states only if the original has none. -/
theorem size_minimize_eq_zero_iff (d : Dfa) : d.minimize.size = 0 ↔ d.size = 0 := by
  constructor
  · intro hzero
    by_contra hne
    obtain ⟨blocks, hclasses, heq⟩ := minimize_eq (Nat.pos_of_ne_zero hne)
    have hlen := (hclasses.inBlock_zero (Nat.pos_of_ne_zero hne)).lt_length
    rw [heq, size_quotient] at hzero
    omega
  · intro hzero
    rw [minimize_eq_empty hzero]
    rfl

/-- Whatever the automaton, its minimal one gives the same verdicts, has a word for each of
its states and no move that dangles, and has no more states than there are on ways from the
start of the original. What is found wrong with it, whatever the inputs on which the two are
compared, is at most that the original has no states, or has no final one on a way from its
start. -/
theorem minimize_reduces (d : Dfa) :
    (∀ input, d.minimize.accepts input = d.accepts input) ∧
    (∀ i < d.minimize.size, ∃ w, d.minimize.runFrom? 0 w = some i) ∧
    (∀ i c j, d.minimize.next? i c = some j → j < d.minimize.size) ∧
    d.minimize.size ≤ d.states.size ∧
    ∀ battery, d.defectsOfMinimized d.minimize battery =
      if d.size = 0 then [.missingStart 0]
      else if d.finalStates.isEmpty then [.noFinalState] else [] := by
  have htrim := d.trim_minimize
  refine ⟨d.minimize_accepts, fun i hi => ?_, htrim.closed, d.size_minimize_le, fun battery => ?_⟩
  · obtain ⟨-, w, hw⟩ := mem_states_iff.1 (htrim.reached i hi)
    exact ⟨w, runFrom?_of_walk? hw⟩
  · rw [defectsOfMinimized_eq d.size_minimize_le fun input => (d.minimize_accepts input).symm,
      htrim.defects_eq, isEmpty_finalStates_congr d.minimize_acceptsFrom]
    simp only [d.size_minimize_eq_zero_iff]

end Dfa

/-! ## The automaton of the sets -/

/-- Moves lead to sets that have been met, and each set has been met on a way from the first
one. -/
theorem Subset.Determinizes.trim {n : Nfa} {sets : Array IdSet} {d : Dfa}
    (h : Determinizes n sets d) : d.Trim where
  closed _ _ _ := h.next?_lt_size
  reached i hi := by
    obtain ⟨w, hw⟩ := h.searched.exists_name hi
    exact Dfa.mem_states_iff.2 ⟨h.size_pos, w, hw.walk⟩

end Regular
