import Regular.Proofs.Dfa.Determinize
import Regular.Proofs.Dfa.Sink
import Regular.Proofs.Nfa.Trim

/-!
# The alphabet along the stages

The alphabet of a tree is what its literals are; those of automata are what can be read in
states on ways from the start. From the tree to the minimal automaton they stay the same
(`Expr.alphabet_stages`), because each of them is the set of the characters that occur in
accepted words.

For a tree this is by induction, as no subtree denotes the empty language. In an automaton,
what occurs in an accepted word can be read on the way, and what can be read somewhere occurs
in an accepted word if each state is on a way from the start to a final state. This rests on
automata of trees having no dead states.
-/

namespace Regular

open scoped Computability

variable {n : Nfa} {d : Dfa} {e : Expr} {i k : StateId} {c : Char} {w : List Char}

/-! ## The alphabet of a tree -/

/-- A character occurs in a product of two languages if it occurs in one of them, provided
that the other one is not empty. -/
theorem exists_mem_mul_iff {l m : Language Char} (hl : ∃ u, u ∈ l) (hm : ∃ v, v ∈ m) :
    (∃ w ∈ l * m, c ∈ w) ↔ (∃ u ∈ l, c ∈ u) ∨ ∃ v ∈ m, c ∈ v := by
  constructor
  · rintro ⟨w, hw, hc⟩
    obtain ⟨u, hu, v, hv, rfl⟩ := Language.mem_mul.1 hw
    rcases List.mem_append.1 hc with hc | hc
    · exact Or.inl ⟨u, hu, hc⟩
    · exact Or.inr ⟨v, hv, hc⟩
  · rintro (⟨u, hu, hc⟩ | ⟨v, hv, hc⟩)
    · obtain ⟨v, hv⟩ := hm
      exact ⟨u ++ v, Language.append_mem_mul hu hv, List.mem_append_left v hc⟩
    · obtain ⟨u, hu⟩ := hl
      exact ⟨u ++ v, Language.append_mem_mul hu hv, List.mem_append_right u hc⟩

theorem exists_mem_kstar_iff {l : Language Char} : (∃ w ∈ l∗, c ∈ w) ↔ ∃ u ∈ l, c ∈ u := by
  constructor
  · rintro ⟨w, hw, hc⟩
    obtain ⟨us, rfl, hus⟩ := Language.mem_kstar.1 hw
    obtain ⟨u, hu, hc⟩ := List.mem_flatten.1 hc
    exact ⟨u, hus u hu, hc⟩
  · rintro ⟨u, hu, hc⟩
    refine ⟨u, Language.mem_kstar.2 ⟨[u], (List.append_nil u).symm, ?_⟩, hc⟩
    exact fun v hv => List.mem_singleton.1 hv ▸ hu

namespace Expr

theorem mem_alphabet_iff : c ∈ e.alphabet ↔ ∃ w ∈ e.language, c ∈ w := by
  induction e with
  | literal d =>
      rw [alphabet, SortedSet.mem_singleton]
      constructor
      · rintro rfl
        exact ⟨[c], rfl, List.mem_singleton_self c⟩
      · rintro ⟨_, rfl, hc⟩
        exact List.mem_singleton.1 hc
  | epsilon =>
      constructor
      · exact fun hc => absurd hc SortedSet.not_mem_empty
      · rintro ⟨_, rfl, hc⟩
        exact absurd hc List.not_mem_nil
  | concat l r ihl ihr =>
      rw [alphabet, SortedSet.mem_union, ihl, ihr, language_concat,
        exists_mem_mul_iff l.exists_mem_language r.exists_mem_language]
  | union l r ihl ihr =>
      rw [alphabet, SortedSet.mem_union, ihl, ihr, language_union]
      simp only [Language.mem_add, or_and_right, exists_or]
  | star e ih => rw [alphabet, ih, language_star, exists_mem_kstar_iff]

end Expr

/-! ## The alphabet of an automaton -/

/-- A character of the word that a path spells is on an edge of the path. -/
theorem Nfa.Path.exists_edge (h : n.Path i w k) (hc : c ∈ w) :
    ∃ a b, (∃ u, n.Path i u a) ∧ n.Edge a (some c) b := by
  induction h with
  | nil => exact absurd hc List.not_mem_nil
  | silent hedge _ ih =>
      obtain ⟨a, b, ⟨u, hu⟩, hab⟩ := ih hc
      exact ⟨a, b, ⟨u, .silent hedge hu⟩, hab⟩
  | read hedge _ ih =>
      rcases List.mem_cons.1 hc with rfl | hc
      · exact ⟨_, _, ⟨[], .nil _⟩, hedge⟩
      · obtain ⟨a, b, ⟨u, hu⟩, hab⟩ := ih hc
        exact ⟨a, b, ⟨_, .read hedge hu⟩, hab⟩

/-- Whatever the automaton, what occurs in an accepted word is in its alphabet. -/
theorem Nfa.mem_alphabet_of_mem (h : n.acceptsFrom n.initial w = true) (hc : c ∈ w) :
    c ∈ n.alphabet := by
  obtain ⟨k, hp, -⟩ := acceptsFrom_initial_iff.1 h
  obtain ⟨a, b, ⟨u, hu⟩, hab⟩ := hp.exists_edge hc
  obtain ⟨node, hnode, hmem⟩ := edge_iff.1 hab
  obtain ⟨t, ht, -⟩ := Node.mem_edges_some.1 hmem
  have ha : a ∈ n.states := mem_states_iff.2 ⟨hab.lt_size, u, hu⟩
  exact Subset.mem_symbols_iff.2 ⟨a, ha, t, node, hnode, ht⟩

theorem Nfa.Node.Inner.exists_mem_edges {node : Node} {t : IdSet} (h : node.Inner)
    (ht : node.moves.get? c = some t) : ∃ j, (some c, j) ∈ node.edges := by
  cases h with
  | one j label =>
      cases label with
      | none => cases ht
      | some d =>
          obtain rfl : c = d := by
            by_contra hne
            rw [connect, CharMap.get?_alter, if_neg hne] at ht
            cases ht
          exact ⟨j, mem_edges_connect.2 (Or.inl rfl)⟩
  | two => cases ht

namespace Expr

/-- What can be read in a state leads somewhere. -/
theorem exists_edge_toNfa {node : Nfa.Node} {t : IdSet} (hnode : e.toNfa.node? i = some node)
    (ht : node.moves.get? c = some t) : ∃ j, e.toNfa.Edge i (some c) j := by
  by_cases hstop : i = (e.fragmentAt 0).stop
  · rw [hstop, node?_toNfa_stop] at hnode
    obtain rfl := Option.some.inj hnode
    cases ht
  · have hi : i < e.toNfa.size := (Array.getElem?_eq_some_iff.1 hnode).1
    rw [size_toNfa] at hi
    obtain ⟨node', hnode', hinner⟩ := e.holds_toNfa.exists_inner (Nat.zero_le i) (by lia) hstop
    obtain rfl := Option.some.inj (hnode'.symm.trans hnode)
    obtain ⟨j, hj⟩ := hinner.exists_mem_edges ht
    exact ⟨j, Nfa.edge_iff.2 ⟨node', hnode, hj⟩⟩

theorem mem_alphabet_toNfa_iff : c ∈ e.toNfa.alphabet ↔ ∃ w ∈ e.language, c ∈ w := by
  constructor
  · intro hc
    obtain ⟨i, hi, t, node, hnode, ht⟩ := Subset.mem_symbols_iff.1 hc
    obtain ⟨j, hedge⟩ := exists_edge_toNfa hnode ht
    obtain ⟨-, u, hu⟩ := Nfa.mem_states_iff.1 hi
    obtain ⟨v, k, hv, hk⟩ := toNfa_live (edge_toNfa_lt hedge)
    have haccepts := Nfa.acceptsFrom_initial_iff.2 ⟨k, hu.append (.read hedge hv), hk⟩
    refine ⟨u ++ c :: v, (e.acceptsFrom_toNfa_iff _).1 haccepts, ?_⟩
    exact List.mem_append_right u (List.mem_cons_self ..)
  · rintro ⟨w, hw, hc⟩
    exact Nfa.mem_alphabet_of_mem ((e.acceptsFrom_toNfa_iff w).2 hw) hc

end Expr

theorem Dfa.Live.mem_alphabet_iff (h : d.Live) :
    c ∈ d.alphabet ↔ ∃ w, d.acceptsFrom 0 w = true ∧ c ∈ w := by
  rw [Dfa.mem_alphabet_iff]
  constructor
  · rintro ⟨i, hi, j, hj⟩
    obtain ⟨-, u, hu⟩ := mem_states_iff.1 hi
    have hmove := h.move?_of_next? hi hj
    obtain ⟨v, hv⟩ := h.accepts j (mem_states_of_move? hi hmove)
    refine ⟨u ++ c :: v, ?_, List.mem_append_right u (List.mem_cons_self ..)⟩
    rw [acceptsFrom_append hu, acceptsFrom_cons, hj]
    exact hv
  · rintro ⟨w, hw, hc⟩
    obtain ⟨u, v, rfl⟩ := List.append_of_mem hc
    obtain ⟨i, hi, hu⟩ := exists_mem_states hw
    rw [acceptsFrom_append hu, acceptsFrom_cons, Option.any_eq_true] at hw
    obtain ⟨j, hj, -⟩ := hw
    exact ⟨i, hi, j, hj⟩

/-- Where no move dangles and something is accepted from each state, minimizing keeps the
alphabet.
-/
theorem Dfa.Live.alphabet_minimize (h : d.Live) : d.minimize.alphabet = d.alphabet := by
  rcases Nat.eq_zero_or_pos d.size with hzero | hpos
  · have hnone : ∀ m : Dfa, m.size = 0 → m.alphabet = ∅ := by
      intro m hm
      by_contra hne
      obtain ⟨c, hc⟩ := SortedSet.exists_mem_of_ne_empty hne
      obtain ⟨i, hi, -⟩ := Dfa.mem_alphabet_iff.1 hc
      exact absurd (lt_size_of_mem_states hi) (hm ▸ Nat.not_lt_zero i)
    rw [hnone d hzero, hnone _ ((minimize_eq_empty hzero).symm ▸ rfl)]
  · obtain ⟨blocks, hclasses, heq⟩ := minimize_eq hpos
    rw [heq]
    exact hclasses.alphabet_quotient h hpos

/-! ## From the tree to the minimal automaton -/

namespace Expr

/-- The automaton of the sets has no dead states and accepts the language of the tree. -/
theorem live_toDfa (e : Expr) : e.toNfa.toDfa.Live ∧
    ∀ w, e.toNfa.toDfa.acceptsFrom 0 w = true ↔ w ∈ e.language := by
  obtain ⟨sets, hsets⟩ := Subset.exists_determinizes (Nfa.toDfaObserved_none e.toNfa)
  refine ⟨⟨fun i _ => hsets.trim.closed i, fun i hi => ?_⟩, fun w => ?_⟩
  · exact Compiled.Staged.live_determinizes hsets (Dfa.lt_size_of_mem_states hi)
  · rw [hsets.acceptsFrom_eq hsets.first, acceptsFrom_toNfa_iff]

/-- Along the stages no character is lost and none is added: the automaton of a tree, the
automaton of its sets and the minimal one have the alphabet of the tree. It consists of the
characters that occur in texts that are accepted. -/
theorem alphabet_stages (e : Expr) :
    e.toNfa.alphabet = e.alphabet ∧
    e.toNfa.toDfa.alphabet = e.alphabet ∧
    e.toNfa.toDfa.minimize.alphabet = e.alphabet ∧
    ∀ c, c ∈ e.alphabet ↔ ∃ input, e.toNfa.accepts input = true ∧ c ∈ input.toList := by
  obtain ⟨hlive, haccepts⟩ := e.live_toDfa
  have hnfa : e.toNfa.alphabet = e.alphabet :=
    SortedSet.ext_mem fun c => mem_alphabet_toNfa_iff.trans mem_alphabet_iff.symm
  have hdfa : e.toNfa.toDfa.alphabet = e.alphabet := by
    refine SortedSet.ext_mem fun c => ?_
    simp only [hlive.mem_alphabet_iff, haccepts, mem_alphabet_iff]
  refine ⟨hnfa, hdfa, hlive.alphabet_minimize.trans hdfa, fun c => mem_alphabet_iff.trans ?_⟩
  constructor
  · rintro ⟨w, hw, hc⟩
    rw [← String.toList_ofList (l := w)] at hw hc
    exact ⟨String.ofList w, (e.acceptsFrom_toNfa_iff _).2 hw, hc⟩
  · rintro ⟨input, hinput, hc⟩
    exact ⟨input.toList, (e.acceptsFrom_toNfa_iff _).1 hinput, hc⟩

end Expr

end Regular
