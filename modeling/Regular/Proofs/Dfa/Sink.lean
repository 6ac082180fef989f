import Regular.Proofs.Dfa.Complete
import Regular.Proofs.Validation

/-!
# Completing before and after minimizing

Where no move dangles and something is accepted from each state (`Dfa.Live`), it makes no
difference whether an automaton is completed and then minimized, or minimized and then
completed (`Dfa.minimize_completed`).

The completed automaton has the same classes as the original and one more, the sink
(`Dfa.Live.isClasses_withSink`). The other states are not equivalent to the sink, from which
nothing is accepted, and among them equivalence is in both automata to accept the same words:
in the original because a walk to a state can be continued to an accepted word, in the
completed one because all words over the alphabet lead to states. Since the sink has the
largest number, its class is the last one, and this is where completing the minimal automaton
puts its sink.
-/

namespace Regular.Dfa

variable {d : Dfa} {blocks : List IdSet} {b : IdSet} {i j k l : Nat} {c : Char} {w : List Char}

/-- On ways from the start, no move dangles and something is accepted from each state. -/
structure Live (d : Dfa) : Prop where
  closed : ∀ i ∈ d.states, ∀ c j, d.next? i c = some j → j < d.size
  accepts : ∀ i ∈ d.states, ∃ w, d.acceptsFrom i w = true

theorem Live.move?_of_next? (h : d.Live) (hi : i ∈ d.states) (hj : d.next? i c = some j) :
    d.move? i c = some j := move?_eq_some_iff.2 ⟨hj, h.closed i hi c j hj⟩

/-! ## One more block -/

theorem sameBlock_append_singleton :
    SameBlock (blocks ++ [b]) i j ↔ SameBlock blocks i j ∨ i ∈ b ∧ j ∈ b := by
  simp [SameBlock, or_and_right, exists_or]

theorem inBlock_append_singleton :
    InBlock (blocks ++ [b]) k i ↔ InBlock blocks k i ∨ k = blocks.length ∧ i ∈ b := by
  rcases Nat.lt_trichotomy k blocks.length with hlt | rfl | hgt
  · simp [InBlock, List.getElem?_append_left hlt, Nat.ne_of_lt hlt]
  · simp [InBlock]
  · have hnone : (blocks ++ [b])[k]? = none := by
      rw [List.getElem?_eq_none_iff, List.length_append, List.length_singleton]
      omega
    simp [InBlock, hnone, Nat.le_of_lt hgt, Nat.ne_of_gt hgt]

/-! ## Moves and alphabet of the quotient -/

/-- Where no move dangles, a block has moves for the characters for which its members have
some. -/
theorem IsClasses.exists_next?_quotient (h : d.IsClasses blocks) (hlive : d.Live)
    (hk : InBlock blocks k i) (hj : d.next? i c = some j) :
    ∃ l, (d.quotient blocks).next? k c = some l ∧ InBlock blocks l j := by
  have hi := h.partition.mem_states hk
  have hmove := hlive.move?_of_next? hi hj
  obtain ⟨l, hl⟩ := h.partition.inBlock_iff.2 (mem_states_of_move? hi hmove)
  exact ⟨l, (h.next?_quotient hk).2 ⟨j, hmove, hl⟩, hl⟩

theorem IsClasses.exists_next?_of_quotient (h : d.IsClasses blocks) (hk : InBlock blocks k i)
    (hl : (d.quotient blocks).next? k c = some l) : ∃ j, d.next? i c = some j := by
  obtain ⟨j, hj, -⟩ := (h.next?_quotient hk).1 hl
  exact ⟨j, (move?_eq_some_iff.1 hj).1⟩

theorem IsClasses.next?_quotient_eq_none (h : d.IsClasses blocks) (hk : InBlock blocks k i)
    (hnone : d.next? i c = none) : (d.quotient blocks).next? k c = none := by
  refine Option.eq_none_iff_forall_ne_some.2 fun l hl => ?_
  obtain ⟨j, hj⟩ := h.exists_next?_of_quotient hk hl
  rw [hj] at hnone
  cases hnone

theorem IsClasses.exists_next?_iff (h : d.IsClasses blocks) (hlive : d.Live)
    (hk : InBlock blocks k i) :
    (∃ l, (d.quotient blocks).next? k c = some l) ↔ ∃ j, d.next? i c = some j := by
  constructor
  · rintro ⟨l, hl⟩
    exact h.exists_next?_of_quotient hk hl
  · rintro ⟨j, hj⟩
    obtain ⟨l, hl, -⟩ := h.exists_next?_quotient hlive hk hj
    exact ⟨l, hl⟩

/-- All blocks are on ways from the start. -/
theorem IsClasses.mem_states_quotient_iff (h : d.IsClasses blocks) (hpos : 0 < d.size) :
    k ∈ (d.quotient blocks).states ↔ ∃ i, InBlock blocks k i := by
  constructor
  · intro hk
    have hlen := lt_size_of_mem_states hk
    rw [size_quotient] at hlen
    obtain ⟨i, hi, -⟩ := h.partition.exists_least hlen
    exact ⟨i, hi⟩
  · rintro ⟨i, hi⟩
    exact (h.trim_quotient hpos).reached k (size_quotient d blocks ▸ hi.lt_length)

theorem IsClasses.alphabet_quotient (h : d.IsClasses blocks) (hlive : d.Live)
    (hpos : 0 < d.size) : (d.quotient blocks).alphabet = d.alphabet := by
  refine SortedSet.ext_mem fun c => ?_
  rw [mem_alphabet_iff, mem_alphabet_iff]
  constructor
  · rintro ⟨k, hk, hmove⟩
    obtain ⟨i, hi⟩ := (h.mem_states_quotient_iff hpos).1 hk
    exact ⟨i, h.partition.mem_states hi, (h.exists_next?_iff hlive hi).1 hmove⟩
  · rintro ⟨i, hi, hmove⟩
    obtain ⟨k, hk⟩ := h.partition.inBlock_iff.2 hi
    exact ⟨k, (h.mem_states_quotient_iff hpos).2 ⟨i, hk⟩, (h.exists_next?_iff hlive hk).2 hmove⟩

/-- The quotient is complete precisely if the automaton is. -/
theorem IsClasses.isComplete_quotient (h : d.IsClasses blocks) (hlive : d.Live)
    (hpos : 0 < d.size) : (d.quotient blocks).isComplete = d.isComplete := by
  rw [Bool.eq_iff_iff, isComplete_iff, isComplete_iff, h.alphabet_quotient hlive hpos]
  constructor
  · intro hall i hi c hc
    obtain ⟨k, hk⟩ := h.partition.inBlock_iff.2 hi
    have hks := (h.mem_states_quotient_iff hpos).2 ⟨i, hk⟩
    exact (h.exists_next?_iff hlive hk).1 (hall k hks c hc)
  · intro hall k hk c hc
    obtain ⟨i, hi⟩ := (h.mem_states_quotient_iff hpos).1 hk
    exact (h.exists_next?_iff hlive hi).2 (hall i (h.partition.mem_states hi) c hc)

/-! ## Equivalent states of the completed automaton -/

/-- On ways from the start, a character of the alphabet leads where it led, or to the
sink. -/
theorem Live.move?_withSink (h : d.Live) (hpart : d.isComplete = false)
    (hi : i ∈ d.withSink.states) (hc : c ∈ d.alphabet) :
    d.withSink.move? i c = some ((d.next? i c).getD d.size) := by
  cases hnext : d.next? i c with
  | none => exact move?_withSink_of_none (le_size_of_mem_states_withSink hi) hc hnext
  | some j =>
      rcases (mem_states_withSink_iff hpart).1 hi with hi | rfl
      · exact move?_withSink_of_some (h.move?_of_next? hi hnext)
      · exact absurd (lt_size_of_next? hnext) (Nat.lt_irrefl _)

/-- Where each character of the alphabet leads to a state, precisely the words over the
alphabet do. -/
theorem isSome_walk?_iff (hmove : ∀ i ∈ d.states, ∀ c ∈ d.alphabet, ∃ j, d.move? i c = some j)
    (hi : i ∈ d.states) : (d.walk? i w).isSome = true ↔ ∀ c ∈ w, c ∈ d.alphabet := by
  induction w generalizing i with
  | nil => simp
  | cons c w ih =>
      simp only [List.forall_mem_cons, Option.isSome_iff_exists, walk?_cons_eq_some_iff] at ih ⊢
      constructor
      · rintro ⟨k, j, hj, hk⟩
        have hc := mem_alphabet_iff.2 ⟨i, hi, j, (move?_eq_some_iff.1 hj).1⟩
        exact ⟨hc, (ih (mem_states_of_move? hi hj)).1 ⟨k, hk⟩⟩
      · rintro ⟨hc, hw⟩
        obtain ⟨j, hj⟩ := hmove i hi c hc
        obtain ⟨k, hk⟩ := (ih (mem_states_of_move? hi hj)).2 hw
        exact ⟨k, j, hj, hk⟩

theorem Live.equivalent_iff (h : d.Live) (hi : i ∈ d.states) (hj : j ∈ d.states) :
    d.Equivalent i j ↔ ∀ w, d.acceptsFrom i w = d.acceptsFrom j w :=
  ⟨Equivalent.acceptsFrom_eq, equivalent_of_acceptsFrom h.accepts hi hj⟩

theorem Live.equivalent_withSink_iff (h : d.Live) (hpart : d.isComplete = false)
    (hi : i ∈ d.withSink.states) (hj : j ∈ d.withSink.states) :
    d.withSink.Equivalent i j ↔ ∀ w, d.acceptsFrom i w = d.acceptsFrom j w := by
  have hmove : ∀ i ∈ d.withSink.states, ∀ c ∈ d.withSink.alphabet,
      ∃ j, d.withSink.move? i c = some j := by
    intro i hi c hc
    rw [alphabet_withSink hpart] at hc
    exact ⟨_, h.move?_withSink hpart hi hc⟩
  constructor
  · intro hij w
    rw [← d.acceptsFrom_withSink i, ← d.acceptsFrom_withSink j, hij.acceptsFrom_eq]
  · intro hsame
    refine equivalent_of_isSome (fun w => ?_) fun w => ?_
    · rw [Bool.eq_iff_iff, isSome_walk?_iff hmove hi, isSome_walk?_iff hmove hj]
    · rw [acceptsFrom_withSink, acceptsFrom_withSink, hsame]

/-- Every state but the sink differs from it in what is accepted. -/
theorem Live.exists_acceptsFrom_ne (h : d.Live) (hi : i ∈ d.states) :
    ∃ w, d.acceptsFrom i w ≠ d.acceptsFrom d.size w := by
  obtain ⟨w, hw⟩ := h.accepts i hi
  refine ⟨w, ?_⟩
  rw [hw, acceptsFrom_eq_false (Nat.le_refl _)]
  decide

/-! ## The classes of the completed automaton -/

theorem IsPartition.withSink (h : d.IsPartition blocks) (hpart : d.isComplete = false) :
    d.withSink.IsPartition (blocks ++ [.singleton d.size]) where
  nonempty b hb := by
    rcases List.mem_append.1 hb with hb | hb
    · exact h.nonempty b hb
    · rw [List.mem_singleton.1 hb]
      exact fun heq => nomatch congrArg SortedSet.toList heq
  cover i := by
    rw [mem_states_withSink_iff hpart, h.cover]
    simp [or_and_right, exists_or]
  disjoint := by
    refine List.pairwise_append.2 ⟨h.disjoint, List.pairwise_singleton .., ?_⟩
    intro a ha b hb i hi hib
    rw [List.mem_singleton.1 hb, SortedSet.mem_singleton] at hib
    have hlt := lt_size_of_mem_states ((h.cover i).2 ⟨a, ha, hi⟩)
    exact absurd hib (Nat.ne_of_lt hlt)
  uniform b hb i hi j hj := by
    rw [isFinal_withSink, isFinal_withSink]
    rcases List.mem_append.1 hb with hb | hb
    · exact h.uniform b hb i hi j hj
    · rw [List.mem_singleton.1 hb, SortedSet.mem_singleton] at hi hj
      rw [hi, hj]

/-- The classes are those of the original, and after them the sink. -/
theorem Live.isClasses_withSink (h : d.Live) (hpart : d.isComplete = false)
    (hclasses : d.IsClasses blocks) :
    d.withSink.IsClasses (blocks ++ [.singleton d.size]) := by
  refine isClasses_of_sameBlock_iff (hclasses.partition.withSink hpart) ?_ fun i hi j hj => ?_
  · refine List.pairwise_append.2 ⟨hclasses.ascending, List.pairwise_singleton .., ?_⟩
    intro a ha b hb i j hi hj
    rw [List.mem_singleton.1 hb] at hj
    obtain rfl := SortedSet.mem_singleton.1 (IdSet.first?_eq_some_iff.1 hj).1
    have hia := (IdSet.first?_eq_some_iff.1 hi).1
    exact lt_size_of_mem_states ((hclasses.partition.cover i).2 ⟨a, ha, hia⟩)
  · have hsink : d.size ∉ d.states := fun hmem => Nat.lt_irrefl _ (lt_size_of_mem_states hmem)
    rw [h.equivalent_withSink_iff hpart hi hj, sameBlock_append_singleton, hclasses.sameBlock_iff,
      SortedSet.mem_singleton, SortedSet.mem_singleton]
    rcases (mem_states_withSink_iff hpart).1 hi with hi | rfl
    · have hne : i ≠ d.size := fun heq => hsink (heq ▸ hi)
      rcases (mem_states_withSink_iff hpart).1 hj with hj | rfl
      · simp [hi, hj, hne, h.equivalent_iff hi hj]
      · simpa [hsink, hne] using h.exists_acceptsFrom_ne hi
    · rcases (mem_states_withSink_iff hpart).1 hj with hj | rfl
      · have hne : j ≠ d.size := fun heq => hsink (heq ▸ hj)
        simpa [hsink, hne, eq_comm] using h.exists_acceptsFrom_ne hj
      · simp

/-! ## The two orders -/

theorem IsClasses.inBlock_getD (h : d.IsClasses blocks) (hlive : d.Live)
    (hk : InBlock (blocks ++ [.singleton d.size]) k i) (c : Char) :
    InBlock (blocks ++ [.singleton d.size])
      (((d.quotient blocks).next? k c).getD (d.quotient blocks).size)
      ((d.next? i c).getD d.size) := by
  have hlast : InBlock (blocks ++ [.singleton d.size]) (d.quotient blocks).size d.size :=
    inBlock_append_singleton.2 (Or.inr ⟨d.size_quotient blocks, SortedSet.mem_singleton.2 rfl⟩)
  rcases inBlock_append_singleton.1 hk with hk | ⟨hk, hi⟩
  · cases hnext : d.next? i c with
    | none =>
        rw [h.next?_quotient_eq_none hk hnext]
        exact hlast
    | some j =>
        obtain ⟨l, hl, hj⟩ := h.exists_next?_quotient hlive hk hnext
        rw [hl]
        exact inBlock_append_singleton.2 (Or.inl hj)
  · rw [next?_eq_none (Nat.le_of_eq (SortedSet.mem_singleton.1 hi).symm),
      next?_eq_none (Nat.le_of_eq ((d.size_quotient blocks).trans hk.symm))]
    exact hlast

/-- The classes of the completed automaton move as the states of the completed quotient
do. -/
theorem Live.next?_quotient_withSink (h : d.Live) (hpart : d.isComplete = false)
    (hclasses : d.IsClasses blocks) (hk : InBlock (blocks ++ [.singleton d.size]) k i) (c : Char) :
    (d.withSink.quotient (blocks ++ [.singleton d.size])).next? k c =
      (d.quotient blocks).withSink.next? k c := by
  have hpos := size_pos_of_isComplete hpart
  have hsinked := h.isClasses_withSink hpart hclasses
  have hi := hsinked.partition.mem_states hk
  have hle : k ≤ (d.quotient blocks).size := by
    have hlen := hk.lt_length
    rw [List.length_append, List.length_singleton] at hlen
    rw [size_quotient]
    exact Nat.le_of_lt_succ hlen
  rw [next?_withSink hle, hclasses.alphabet_quotient h hpos]
  split
  · next hc =>
    refine (hsinked.next?_quotient hk).2 ⟨_, h.move?_withSink hpart hi hc, ?_⟩
    exact hclasses.inBlock_getD h hk c
  · next hc =>
    have hc' : c ∉ d.withSink.alphabet := alphabet_withSink hpart ▸ hc
    rw [hsinked.next?_quotient_eq_none hk (next?_eq_none_of_not_mem hi hc')]
    rcases inBlock_append_singleton.1 hk with hk | ⟨hk, -⟩
    · have hi := hclasses.partition.mem_states hk
      exact (hclasses.next?_quotient_eq_none hk (next?_eq_none_of_not_mem hi hc)).symm
    · exact (next?_eq_none (Nat.le_of_eq ((d.size_quotient blocks).trans hk.symm))).symm

theorem Live.toTable_minimize_withSink (h : d.Live) (hpart : d.isComplete = false) :
    d.withSink.minimize.toTable = d.minimize.withSink.toTable := by
  have hpos := size_pos_of_isComplete hpart
  obtain ⟨blocks, hclasses, heq⟩ := minimize_eq hpos
  have hsinked := h.isClasses_withSink hpart hclasses
  have hmember : ∀ k < (d.withSink.quotient (blocks ++ [.singleton d.size])).size,
      ∃ i, InBlock (blocks ++ [.singleton d.size]) k i := by
    intro k hk
    rw [size_quotient] at hk
    obtain ⟨i, hi, -⟩ := hsinked.partition.exists_least hk
    exact ⟨i, hi⟩
  rw [heq, hsinked.minimize_eq (by simp)]
  refine toTable_congr ?_ (fun k hk => ?_) fun k hk c => ?_
  · simp [size_quotient]
  · obtain ⟨i, hi⟩ := hmember k hk
    rw [hsinked.partition.isFinal_quotient hi, isFinal_withSink, isFinal_withSink]
    rcases inBlock_append_singleton.1 hi with hi | ⟨hk, hi⟩
    · exact (hclasses.partition.isFinal_quotient hi).symm
    · rw [isFinal_eq_false (Nat.le_of_eq (SortedSet.mem_singleton.1 hi).symm),
        isFinal_eq_false (Nat.le_of_eq ((d.size_quotient blocks).trans hk.symm))]
  · obtain ⟨i, hi⟩ := hmember k hk
    exact h.next?_quotient_withSink hpart hclasses hi c

theorem Live.isComplete_minimize (h : d.Live) : d.minimize.isComplete = d.isComplete := by
  rcases Nat.eq_zero_or_pos d.size with hzero | hpos
  · rw [minimize_eq_empty hzero, isComplete_of_size_eq_zero hzero]
    rfl
  · obtain ⟨blocks, hclasses, heq⟩ := minimize_eq hpos
    rw [heq]
    exact hclasses.isComplete_quotient h hpos

/-- Where no move dangles and something is accepted from each state, as is the case with the
automaton of sets of every compiled expression, completing and minimizing in either order
gives one table, with a sink as the last state precisely if the automaton is not complete. -/
theorem minimize_completed :
    (∀ d : Dfa, d.Live →
      d.completed.minimize.toTable = d.minimize.completed.toTable ∧
      d.minimize.completed.size = d.minimize.size + (if d.isComplete then 0 else 1) ∧
      (d.isComplete = false → d.minimize.completed.IsSink d.minimize.size)) ∧
    ∀ config text c, compile config text = .ok c →
      c.dfa.Live ∧ c.dfa.completed.minimize.toTable = c.minimized.completed.toTable := by
  have hcommute : ∀ d : Dfa, d.Live →
      d.completed.minimize.toTable = d.minimize.completed.toTable := by
    intro d h
    rw [completed_eq, completed_eq, h.isComplete_minimize]
    split
    · rfl
    · next hpart => exact h.toTable_minimize_withSink (Bool.eq_false_iff.2 hpart)
  refine ⟨fun d h => ⟨hcommute d h, ?_, fun hpart => ?_⟩, fun config text c hc => ?_⟩
  · rw [completed_eq, h.isComplete_minimize]
    split
    · rfl
    · exact size_withSink _
  · have hpart' := h.isComplete_minimize.trans hpart
    rw [completed_eq, if_neg (Bool.eq_false_iff.1 hpart')]
    exact isSink_withSink hpart'
  · have hstaged := (staged_of_compile hc).2
    have hlive : c.dfa.Live := ⟨fun i _ => hstaged.trim_dfa.closed i,
      fun i hi => hstaged.live_dfa i (lt_size_of_mem_states hi)⟩
    exact ⟨hlive, hstaged.minimized ▸ hcommute _ hlive⟩

/-- A start that is not final, with one move to a final state that has none. -/
def oneMove : Dfa where
  nodes := #[⟨false, ⟨[('x', 1)], List.pairwise_singleton ..⟩, none⟩, .new true]

theorem live_oneMove : oneMove.Live := by
  have hstate : ∀ i ∈ oneMove.states, i = 0 ∨ i = 1 := by
    intro i hi
    have hlt : i < 2 := lt_size_of_mem_states hi
    exact Nat.le_one_iff_eq_zero_or_eq_one.1 (Nat.le_of_lt_succ hlt)
  refine ⟨fun i hi c j hj => ?_, fun i hi => ?_⟩
  · have hmem := mem_movesFrom_iff.2 hj
    rcases hstate i hi with rfl | rfl
    · obtain ⟨-, rfl⟩ := Prod.mk.inj (List.mem_singleton.1 hmem)
      exact Nat.one_lt_two
    · exact absurd hmem List.not_mem_nil
  · rcases hstate i hi with rfl | rfl
    · exact ⟨['x'], rfl⟩
    · exact ⟨[], rfl⟩

/-- An automaton that is not complete, and one that a compiled expression passes on its
way. -/
theorem minimize_completed_oneMove :
    oneMove.isComplete = false ∧
    oneMove.completed.minimize.toTable = oneMove.minimize.completed.toTable ∧
    ∃ c, compile { maxDfaStates := none } "ab|ac" = .ok c ∧
      c.dfa.completed.minimize.toTable = c.minimized.completed.toTable := by
  obtain ⟨c, hc, -⟩ : ∃ c, compile { maxDfaStates := none } "ab|ac" = .ok c ∧ c.expr = _ :=
    exists_compile rfl (e := .union (.concat (.literal 'a') (.literal 'b'))
      (.concat (.literal 'a') (.literal 'c'))) rfl
  obtain ⟨hlive, hcompiled⟩ := minimize_completed
  have hpart : oneMove.isComplete = false := by
    refine isComplete_eq_false_iff.2 ⟨1, ?_, 'x', ?_, rfl⟩
    · exact mem_states_of_move? (zero_mem_states Nat.two_pos) (c := 'x') rfl
    · exact mem_alphabet_iff.2 ⟨0, zero_mem_states Nat.two_pos, 1, rfl⟩
  exact ⟨hpart, (hlive _ live_oneMove).1, c, hc, (hcompiled _ _ _ hc).2⟩

end Regular.Dfa
