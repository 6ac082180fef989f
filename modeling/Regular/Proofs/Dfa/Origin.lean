import Regular.Proofs.Dfa.Determinize
import Regular.Proofs.Dfa.Trim

/-!
# The sets that the states stand for

A state of the automaton of the sets records its set as its origin (`Dfa.origin?`), and
everything about the state can be read off that set (`Nfa.toDfa_origins`): whether it is
final, for which characters it has a move, and to which state a move leads, since no two
states have one origin. So this is the description by numbered sets (`Subset.Determinizes`)
without the numbering, which is recovered from the moves: states are numbered in the order of
their earliest words.
-/

namespace Regular

/-- The set that a state stands for. -/
def Dfa.origin? (d : Dfa) (i : StateId) : Option IdSet := (d.node? i).bind (·.origin)

/-- Where the states are in the order of their earliest words, one state comes before another
precisely if its earliest word does. -/
theorem Dfa.Ordered.lt_iff {d : Dfa} {i j : Nat} {u w : List Char} (h : d.Ordered)
    (hi : d.EarliestWord i u) (hj : d.EarliestWord j w) : i < j ↔ Earlier u w := by
  refine ⟨fun hij => h.earlier i j u w hij hi hj, fun huw => ?_⟩
  rcases Nat.lt_trichotomy i j with hlt | rfl | hgt
  · exact hlt
  · rw [hi.unique hj] at huw
    exact absurd huw (Earlier.irrefl w)
  · exact absurd (huw.trans (h.earlier j i w u hgt hj hi)) (Earlier.irrefl u)

namespace Subset

variable {n : Nfa} {sets : Array IdSet} {d : Dfa} {s : IdSet} {i : StateId} {c : Char}

/-- Only closed sets are met. -/
theorem Determinizes.closure_eq (h : Determinizes n sets d) (hi : sets[i]? = some s) :
    n.closure s = s := by
  rcases Nat.eq_zero_or_pos i with rfl | hpos
  · rw [h.first] at hi
    obtain rfl := Option.some.inj hi
    exact n.closure_closure _
  · obtain ⟨p, c, hmet⟩ := h.met i (lt_size hi) hpos
    obtain ⟨t, -, ht⟩ := hmet.step
    rw [ht] at hi
    obtain rfl := Option.some.inj hi
    exact n.closure_closure _

/-- Origins are the numbered sets. -/
theorem Determinizes.origin?_eq_some_iff (h : Determinizes n sets d) :
    d.origin? i = some s ↔ sets[i]? = some s := by
  have horigin : ∀ {t}, sets[i]? = some t → d.origin? i = some t := by
    intro t ht
    obtain ⟨node, hnode, hdesc⟩ := h.describes i t ht
    rw [Dfa.origin?, hnode]
    exact hdesc.origin
  refine ⟨fun hs => ?_, horigin⟩
  obtain ⟨node, hnode, -⟩ := Option.bind_eq_some_iff.1 hs
  obtain ⟨t, ht⟩ := h.exists_set (Array.getElem?_eq_some_iff.1 hnode).1
  rw [← hs, horigin ht, ht]

end Subset

namespace Nfa

open Subset

/-- The states of the automaton of the sets all have origins. These are not empty, closed,
different for different states, and the first is where the given automaton is before it reads
anything. A state is final precisely if a final state is in its origin, and has a move
precisely if reading the character leads from its origin to any states, and then to the state
whose origin these are. Moves lead to states, each state is on a way from the start, and the
states are in the order of their earliest words. -/
theorem toDfa_origins (n : Nfa) :
    (∀ i < n.toDfa.size, ∃ s, n.toDfa.origin? i = some s) ∧
    (∀ i s, n.toDfa.origin? i = some s →
      s ≠ ∅ ∧ n.closure s = s ∧
      (n.toDfa.isFinal i = true ↔ ∃ k ∈ s, n.isFinal k = true) ∧
      ∀ c, if n.closure (n.advance s c) = ∅ then n.toDfa.next? i c = none
        else ∃ j, n.toDfa.next? i c = some j ∧
          n.toDfa.origin? j = some (n.closure (n.advance s c))) ∧
    (∀ i j s, n.toDfa.origin? i = some s → n.toDfa.origin? j = some s → i = j) ∧
    n.toDfa.origin? 0 = some (n.closure (.singleton n.start)) ∧
    (∀ i c j, n.toDfa.next? i c = some j → j < n.toDfa.size) ∧
    (∀ i < n.toDfa.size, i ∈ n.toDfa.states ∧ ∃ w, n.toDfa.EarliestWord i w) ∧
    ∀ i j u w, n.toDfa.EarliestWord i u → n.toDfa.EarliestWord j w → (i < j ↔ Earlier u w) := by
  obtain ⟨sets, h⟩ := exists_determinizes n.toDfaObserved_none
  have hordered := h.searched.ordered h.size_pos
  simp only [h.origin?_eq_some_iff]
  refine ⟨fun i hi => h.exists_set hi, fun i s hi => ?_, h.injective, h.first,
    h.trim.closed, fun i hi => ⟨h.trim.reached i hi, hordered.exists_word i hi⟩,
    fun i j u w => hordered.lt_iff⟩
  refine ⟨h.nonempty i s hi, h.closure_eq hi, ?_, fun c => ?_⟩
  · rw [h.isFinal_eq hi, containsFinal_eq_true_iff]
  · split
    · next hempty => exact (h.next?_eq_none_iff hi).2 hempty
    · next hne =>
      cases hnext : n.toDfa.next? i c with
      | none => exact absurd ((h.next?_eq_none_iff hi).1 hnext) hne
      | some j => exact ⟨j, rfl, ((h.next?_eq_some_iff hi).1 hnext).2⟩

end Nfa

end Regular
