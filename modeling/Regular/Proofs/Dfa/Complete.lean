import Regular.Proofs.Dfa.Walk

/-!
# Completed automata

Completing an automaton that is not complete adds one state, the sink (`Dfa.withSink`). It
gets the number that the next new state takes, which moves that dangle may name already:
these lead to the sink from then on, as missing moves do. Neither makes a difference to what
is accepted, because nothing is accepted from the sink, as nothing was from a number without
a state (`Dfa.acceptsFrom_withSink`).

The states on a way from the start are those of the original and the sink
(`Dfa.mem_states_withSink_iff`), so the alphabet stays the same, and each of them has a move
for each of its characters. `Dfa.completed_complete` puts this together.
-/

namespace Regular.Dfa

variable {d : Dfa} {i j : Nat} {c : Char} {w : List Char}

/-! ## Complete automata -/

theorem mem_alphabet_iff : c ∈ d.alphabet ↔ ∃ i ∈ d.states, ∃ j, d.next? i c = some j := by
  simp only [alphabet, SortedSet.mem_foldr_union, List.mem_filterMap, ← SortedSet.mem_def,
    CharMap.mem_keys_iff, next?_eq_some_iff]
  constructor
  · rintro ⟨node, ⟨i, hi, hnode⟩, j, hj⟩
    exact ⟨i, hi, j, node, hnode, hj⟩
  · rintro ⟨i, hi, j, node, hnode, hj⟩
    exact ⟨node, ⟨i, hi, hnode⟩, j, hj⟩

theorem next?_eq_none_of_not_mem (hi : i ∈ d.states) (hc : c ∉ d.alphabet) :
    d.next? i c = none :=
  Option.eq_none_iff_forall_ne_some.2 fun j hj => hc (mem_alphabet_iff.2 ⟨i, hi, j, hj⟩)

theorem isComplete_iff :
    d.isComplete = true ↔ ∀ i ∈ d.states, ∀ c ∈ d.alphabet, ∃ j, d.next? i c = some j := by
  simp only [isComplete, List.all_eq_true, List.mem_filterMap, ← SortedSet.mem_def,
    CharMap.contains_iff]
  constructor
  · intro h i hi c hc
    obtain ⟨node, hnode⟩ := exists_node? (lt_size_of_mem_states hi)
    obtain ⟨j, hj⟩ := h node ⟨i, hi, hnode⟩ c hc
    exact ⟨j, next?_eq_some_iff.2 ⟨node, hnode, hj⟩⟩
  · rintro h node ⟨i, hi, hnode⟩ c hc
    obtain ⟨j, hj⟩ := h i hi c hc
    obtain ⟨node', hnode', hget⟩ := next?_eq_some_iff.1 hj
    obtain rfl := Option.some.inj (hnode.symm.trans hnode')
    exact ⟨j, hget⟩

/-- Where an automaton is not complete, some state on a way from the start lacks a move. -/
theorem isComplete_eq_false_iff :
    d.isComplete = false ↔ ∃ i ∈ d.states, ∃ c ∈ d.alphabet, d.next? i c = none := by
  rw [← Bool.not_eq_true, isComplete_iff]
  push Not
  simp only [Option.eq_none_iff_forall_ne_some, ne_eq]

theorem size_pos_of_isComplete (h : d.isComplete = false) : 0 < d.size := by
  obtain ⟨i, hi, -⟩ := isComplete_eq_false_iff.1 h
  exact Nat.zero_lt_of_lt (lt_size_of_mem_states hi)

theorem isComplete_of_size_eq_zero (h : d.size = 0) : d.isComplete = true := by
  by_contra hpart
  exact absurd (size_pos_of_isComplete (Bool.eq_false_iff.2 hpart)) (by omega)

/-! ## The sink -/

/-- The automaton with one more state, to which the missing moves lead. -/
def withSink (d : Dfa) : Dfa := ⟨(d.addNode false).nodes.map (·.fill d.size d.alphabet.toList)⟩

theorem completed_eq (d : Dfa) : d.completed = if d.isComplete then d else d.withSink := by
  rw [completed, withSink]
  cases h : d.isComplete with
  | true => simp
  | false =>
      have hpos := size_pos_of_isComplete h
      simp [Nat.ne_of_gt hpos]

@[simp] theorem size_withSink (d : Dfa) : d.withSink.size = d.size + 1 := by
  simp [withSink, size, addNode]

theorem node?_withSink (d : Dfa) (i : Nat) :
    d.withSink.node? i = (if i = d.size then some (.new false) else d.node? i).map
      (·.fill d.size d.alphabet.toList) := by
  rw [node?, withSink, Array.getElem?_map, addNode, Array.getElem?_push]
  rfl

theorem isFinal_withSink (d : Dfa) (i : Nat) : d.withSink.isFinal i = d.isFinal i := by
  rw [isFinal, node?_withSink]
  split
  · next h =>
    rw [isFinal_eq_false (Nat.le_of_eq h.symm)]
    rfl
  · rw [isFinal]
    cases d.node? i <;> rfl

/-- Moves for the characters of the alphabet lead to the sink unless they led elsewhere. -/
theorem next?_withSink (hi : i ≤ d.size) (c : Char) :
    d.withSink.next? i c =
      if c ∈ d.alphabet then some ((d.next? i c).getD d.size) else d.next? i c := by
  have hfill : ∀ node : Node, (node.fill d.size d.alphabet.toList).moves.get? c =
      if c ∈ d.alphabet then some ((node.moves.get? c).getD d.size) else node.moves.get? c :=
    fun node => CharMap.get?_foldl_insertIfNew ..
  rcases Nat.lt_or_eq_of_le hi with hlt | rfl
  · obtain ⟨node, hnode⟩ := exists_node? hlt
    rw [next?, node?_withSink, if_neg (Nat.ne_of_lt hlt), next?, hnode]
    exact hfill node
  · rw [next?_eq_none (Nat.le_refl _), next?, node?_withSink, if_pos rfl]
    exact hfill (.new false)

/-- A move leads where it led, or to the sink. -/
theorem next?_withSink_cases (h : d.withSink.next? i c = some j) :
    d.next? i c = some j ∨ j = d.size := by
  have hi := lt_size_of_next? h
  rw [size_withSink] at hi
  rw [next?_withSink (Nat.le_of_lt_succ hi)] at h
  split at h
  · cases hnext : d.next? i c with
    | none =>
        rw [hnext] at h
        exact Or.inr (Option.some.inj h).symm
    | some k =>
        rw [hnext] at h
        exact Or.inl h
  · exact Or.inl h

/-- A move that was there stays. -/
theorem next?_withSink_of_some (h : d.next? i c = some j) : d.withSink.next? i c = some j := by
  rw [next?_withSink (Nat.le_of_lt (lt_size_of_next? h)), h]
  split <;> rfl

/-! ## What is accepted -/

/-- From any number, whether or not it is that of a state, the same words are accepted. -/
theorem acceptsFrom_withSink (d : Dfa) (i : Nat) (w : List Char) :
    d.withSink.acceptsFrom i w = d.acceptsFrom i w := by
  induction w generalizing i with
  | nil => exact d.isFinal_withSink i
  | cons c w ih =>
      rcases Nat.lt_or_ge d.size i with hgt | hle
      · have hgt' : d.withSink.size ≤ i := by rwa [size_withSink]
        rw [acceptsFrom_eq_false hgt', acceptsFrom_eq_false (Nat.le_of_lt hgt)]
      · rw [acceptsFrom_cons, acceptsFrom_cons, funext fun j => ih j, next?_withSink hle]
        split
        · cases d.next? i c with
          | none => exact acceptsFrom_eq_false (Nat.le_refl _) w
          | some j => rfl
        · rfl

/-! ## The states on a way from the start -/

theorem move?_withSink_of_some (h : d.move? i c = some j) : d.withSink.move? i c = some j := by
  obtain ⟨hnext, hj⟩ := move?_eq_some_iff.1 h
  refine move?_eq_some_iff.2 ⟨next?_withSink_of_some hnext, ?_⟩
  rw [size_withSink]
  exact Nat.lt_succ_of_lt hj

/-- A missing move for a character of the alphabet has become one to the sink. -/
theorem move?_withSink_of_none (hi : i ≤ d.size) (hc : c ∈ d.alphabet) (h : d.next? i c = none) :
    d.withSink.move? i c = some d.size := by
  rw [move?_eq_some_iff, next?_withSink hi, if_pos hc, h, size_withSink]
  exact ⟨rfl, Nat.lt_succ_self _⟩

/-- With the sink to be reached, nothing but the sink is on a way from the start that was
not. -/
theorem mem_states_withSink_iff (h : d.isComplete = false) :
    i ∈ d.withSink.states ↔ i ∈ d.states ∨ i = d.size := by
  have hzero := zero_mem_states (size_pos_of_isComplete h)
  have hstay : ∀ {j}, j ∈ d.states → j ∈ d.withSink.states := by
    intro j hj
    refine states_induction hj (zero_mem_states (by simp)) fun _ _ _ hp hmove => ?_
    exact mem_states_of_move? hp (move?_withSink_of_some hmove)
  constructor
  · intro hi
    refine states_induction hi (Or.inl hzero) fun a c b ha hmove => ?_
    obtain ⟨hnext, hb⟩ := move?_eq_some_iff.1 hmove
    rw [size_withSink] at hb
    rcases next?_withSink_cases hnext with hold | rfl
    · rcases Nat.lt_or_eq_of_le (Nat.le_of_lt_succ hb) with hlt | rfl
      · rcases ha with ha | rfl
        · exact Or.inl (mem_states_of_move? ha (move?_eq_some_iff.2 ⟨hold, hlt⟩))
        · exact absurd (lt_size_of_next? hold) (Nat.lt_irrefl _)
      · exact Or.inr rfl
    · exact Or.inr rfl
  · rintro (hi | rfl)
    · exact hstay hi
    · obtain ⟨j, hj, c, hc, hnone⟩ := isComplete_eq_false_iff.1 h
      have hle := Nat.le_of_lt (lt_size_of_mem_states hj)
      exact mem_states_of_move? (hstay hj) (move?_withSink_of_none hle hc hnone)

theorem le_size_of_mem_states_withSink (hi : i ∈ d.withSink.states) : i ≤ d.size := by
  have hlt := lt_size_of_mem_states hi
  rw [size_withSink] at hlt
  exact Nat.le_of_lt_succ hlt

theorem alphabet_withSink (h : d.isComplete = false) : d.withSink.alphabet = d.alphabet := by
  refine SortedSet.ext_mem fun c => ?_
  constructor
  · intro hc
    obtain ⟨i, hi, j, hj⟩ := mem_alphabet_iff.1 hc
    by_contra hnot
    rw [next?_withSink (le_size_of_mem_states_withSink hi), if_neg hnot] at hj
    rcases (mem_states_withSink_iff h).1 hi with hi | rfl
    · exact hnot (mem_alphabet_iff.2 ⟨i, hi, j, hj⟩)
    · exact Nat.lt_irrefl _ (lt_size_of_next? hj)
  · intro hc
    obtain ⟨i, hi, j, hj⟩ := mem_alphabet_iff.1 hc
    exact mem_alphabet_iff.2
      ⟨i, (mem_states_withSink_iff h).2 (Or.inl hi), j, next?_withSink_of_some hj⟩

/-- The state `i` is not final, and each character of the alphabet leads back to it. -/
def IsSink (d : Dfa) (i : Nat) : Prop :=
  d.isFinal i = false ∧ ∀ c ∈ d.alphabet, d.next? i c = some i

theorem isSink_withSink (h : d.isComplete = false) : d.withSink.IsSink d.size := by
  refine ⟨(d.isFinal_withSink _).trans (isFinal_eq_false (Nat.le_refl _)), fun c hc => ?_⟩
  rw [alphabet_withSink h] at hc
  rw [next?_withSink (Nat.le_refl _), if_pos hc, next?_eq_none (Nat.le_refl _)]
  rfl

theorem isComplete_withSink (h : d.isComplete = false) : d.withSink.isComplete = true := by
  refine isComplete_iff.2 fun i hi c hc => ?_
  rw [alphabet_withSink h] at hc
  rw [next?_withSink (le_size_of_mem_states_withSink hi), if_pos hc]
  exact ⟨_, rfl⟩

/-! ## Completion -/

/-- Whatever the automaton, its completion gives the same verdicts, is complete, has the same
alphabet and at most one state more, and stays as it is when it is completed again. -/
theorem completed_complete (d : Dfa) :
    (∀ input, d.completed.accepts input = d.accepts input) ∧
    d.completed.isComplete = true ∧
    d.completed.alphabet = d.alphabet ∧
    d.completed.size ≤ d.size + 1 ∧
    d.completed.completed = d.completed := by
  rw [completed_eq]
  cases h : d.isComplete with
  | true =>
      rw [if_pos rfl]
      refine ⟨fun _ => rfl, h, rfl, Nat.le_succ _, ?_⟩
      rw [completed_eq, if_pos h]
  | false =>
      rw [if_neg Bool.false_ne_true]
      refine ⟨fun input => d.acceptsFrom_withSink 0 input.toList, isComplete_withSink h,
        alphabet_withSink h, Nat.le_of_eq d.size_withSink, ?_⟩
      rw [completed_eq, if_pos (isComplete_withSink h)]

end Regular.Dfa
