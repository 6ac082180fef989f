import Regular.Proofs.Dfa.Passes
import Regular.Proofs.Dfa.Reduced
import Regular.Proofs.Nfa.Agreement

/-!
# What is on no way from the start does not matter to minimizing

Two automata agree where they are reached if they have the same states on ways from the
start, and each of these has the same finality and the same moves in both
(`Dfa.AgreeReached`). The others may differ in number and in every other way, and so may the
numbers to which moves dangle: a number that is a state of one of the two automata only is in
no block, like one that is a state of neither.

So both automata number their blocks alike (`Dfa.AgreeReached.number_eq`), a pass over the
same blocks splits them alike (`Dfa.AgreeReached.refine_eq`), and the blocks make the same
quotient (`Dfa.AgreeReached.quotient_eq`). The one difference in what is reported is what has
been pruned.
-/

namespace Regular

/-- The event tells of the refinement of the blocks. -/
def Event.isRefinement : Event → Bool
  | .pass .. | .split .. => true
  | _ => false

theorem SortedSet.groupBy_congr {α κ : Type} [LT α] [BEq κ] {key key' : α → κ} {s : SortedSet α}
    (h : ∀ x ∈ s, key x = key' x) : s.groupBy key = s.groupBy key' := by
  have hkeys : s.toList.map key = s.toList.map key' := List.map_congr_left h
  rw [groupBy, groupBy, hkeys]
  refine List.map_congr_left fun k _ => ext_toList ?_
  rw [toList_filter, toList_filter]
  exact List.filter_congr fun x hx => by rw [h x hx]

namespace Dfa

variable {d e : Dfa} {blocks : List IdSet} {i k fuel number : Nat}

/-- The automata have the same states on ways from the start, with the same finality and
moves. -/
structure AgreeReached (d e : Dfa) : Prop where
  states : d.states = e.states
  final : ∀ i ∈ d.states, d.isFinal i = e.isFinal i
  next : ∀ i ∈ d.states, ∀ c, d.next? i c = e.next? i c

namespace AgreeReached

theorem symm (h : d.AgreeReached e) : e.AgreeReached d :=
  ⟨h.states.symm, fun i hi => (h.final i (h.states ▸ hi)).symm,
    fun i hi c => (h.next i (h.states ▸ hi) c).symm⟩

theorem size_pos (h : d.AgreeReached e) (hpos : 0 < d.size) : 0 < e.size :=
  Nat.zero_lt_of_lt (lt_size_of_mem_states (h.states ▸ zero_mem_states hpos))

/-- A move leads to a state of both automata or of neither: what the one has there is on a
way from the start, so the other has it too. -/
theorem move?_eq (h : d.AgreeReached e) (hi : i ∈ d.states) (c : Char) :
    d.move? i c = e.move? i c := by
  have himp : ∀ {d e : Dfa}, d.AgreeReached e → i ∈ d.states → ∀ j,
      d.move? i c = some j → e.move? i c = some j := by
    intro d e h hi j hj
    have hmem := mem_states_of_move? hi hj
    rw [h.states] at hmem
    have hnext := (move?_eq_some_iff.1 hj).1
    rw [h.next i hi c] at hnext
    exact move?_eq_some_iff.2 ⟨hnext, lt_size_of_mem_states hmem⟩
  exact Option.ext fun j => ⟨himp h hi j, himp h.symm (h.states ▸ hi) j⟩

theorem isPartition (h : d.AgreeReached e) (hpart : d.IsPartition blocks) :
    e.IsPartition blocks where
  nonempty := hpart.nonempty
  cover i := by rw [← h.states, hpart.cover]
  disjoint := hpart.disjoint
  uniform b hb i hi j hj := by
    have hmem : ∀ {i}, i ∈ b → i ∈ d.states := fun hi => (hpart.cover _).2 ⟨b, hb, hi⟩
    rw [← h.final i (hmem hi), ← h.final j (hmem hj)]
    exact hpart.uniform b hb i hi j hj

/-- A number has the same block in both automata, or no block in either. -/
theorem number_eq (h : d.AgreeReached e) (hpart : d.IsPartition blocks) (i : Nat) :
    (blockNumbers d.size blocks).getD i none = (blockNumbers e.size blocks).getD i none := by
  refine Option.ext fun k => ?_
  rw [blockNumbers_eq_some_iff hpart.disjoint, blockNumbers_eq_some_iff hpart.disjoint]
  refine and_congr_left fun hk => iff_of_true ?_ ?_
  · exact lt_size_of_mem_states (hpart.mem_states hk)
  · exact lt_size_of_mem_states ((h.isPartition hpart).mem_states hk)

theorem behaviour_eq (h : d.AgreeReached e) (hpart : d.IsPartition blocks) (hi : i ∈ d.states) :
    d.behaviour (blockNumbers d.size blocks) i = e.behaviour (blockNumbers e.size blocks) i := by
  obtain ⟨m, hm, hget⟩ := behaviour_eq_entries (d := d) (blockNumbers d.size blocks) i
  obtain ⟨m', hm', hget'⟩ := behaviour_eq_entries (d := e) (blockNumbers e.size blocks) i
  have heq : m = m' := CharMap.ext_get? fun c => by
    rw [hget, hget', h.next i hi c]
    simp only [h.number_eq hpart]
  rw [hm, hm', heq]

/-- A pass over the same blocks makes the same blocks of them and reports the same splits. -/
theorem refine_eq (h : d.AgreeReached e) (hpart : d.IsPartition blocks) :
    d.refine blocks = e.refine blocks := by
  have hsplit : (blocks.map fun b => (b, d.splitBlock (blockNumbers d.size blocks) b)) =
      blocks.map fun b => (b, e.splitBlock (blockNumbers e.size blocks) b) := by
    refine List.map_congr_left fun b hb => ?_
    rw [splitBlock, splitBlock, SortedSet.groupBy_congr fun i hi =>
      h.behaviour_eq hpart ((hpart.cover i).2 ⟨b, hb, hi⟩)]
  simp only [refine, hsplit]

theorem refinePasses_eq (h : d.AgreeReached e) (hpart : d.IsPartition blocks) :
    d.refinePasses fuel number blocks = e.refinePasses fuel number blocks := by
  induction fuel generalizing number blocks with
  | zero => rfl
  | succ fuel ih => simp only [refinePasses, ← h.refine_eq hpart, ih hpart.refine]

theorem initialBlocks_eq (h : d.AgreeReached e) : d.initialBlocks = e.initialBlocks := by
  rw [initialBlocks, initialBlocks, ← h.states, SortedSet.groupBy_congr h.final]

/-- The refinement goes the same way, although the two automata count different fuel for
it. -/
theorem refinement_eq (h : d.AgreeReached e) (hpos : 0 < d.size) :
    d.refinePasses d.size 1 d.initialBlocks = e.refinePasses e.size 1 e.initialBlocks := by
  have hd := d.size_states_le
  have he := e.size_states_le
  calc d.refinePasses d.size 1 d.initialBlocks
      = d.refinePasses (d.size + e.size) 1 d.initialBlocks :=
        refinePasses_fuel hpos hd (by omega)
    _ = e.refinePasses (d.size + e.size) 1 e.initialBlocks := by
        rw [h.refinePasses_eq d.isPartition_initialBlocks, h.initialBlocks_eq]
    _ = e.refinePasses e.size 1 e.initialBlocks :=
        refinePasses_fuel (h.size_pos hpos) (by omega) he

/-! ## The quotient -/

theorem quotient_eq (h : d.AgreeReached e) (hpart : d.IsPartition blocks) :
    d.quotient blocks = e.quotient blocks := by
  have hpart' := h.isPartition hpart
  refine ext_observers (by rw [size_quotient, size_quotient]) (fun k hk => ?_) (fun k hk c => ?_)
    fun k _ => by rw [origin?_quotient, origin?_quotient]
  all_goals rw [size_quotient] at hk
  · obtain ⟨i, hi, -⟩ := hpart.exists_least hk
    rw [hpart.isFinal_quotient hi, hpart'.isFinal_quotient hi, h.final i (hpart.mem_states hi)]
  · have hb := List.getElem?_eq_getElem hk
    obtain ⟨i, hi⟩ := IdSet.exists_first? (hpart.nonempty _ (List.getElem_mem hk))
    have hmem := hpart.mem_states ⟨_, hb, (IdSet.first?_eq_some_iff.1 hi).1⟩
    refine Option.ext fun l => ?_
    rw [hpart.next?_quotient hb hi, hpart'.next?_quotient hb hi, h.move?_eq hmem]

/-- Minimizing reads only what is reached, and reports nothing else but what it prunes. -/
theorem minimizeObserved_eq (h : d.AgreeReached e) :
    d.minimize = e.minimize ∧
    d.minimizeObserved.events.filter Event.isRefinement =
      e.minimizeObserved.events.filter Event.isRefinement := by
  rcases Nat.eq_zero_or_pos d.size with hzero | hpos
  · have hzero' : e.size = 0 := by
      by_contra hne
      exact absurd (h.symm.size_pos (Nat.pos_of_ne_zero hne)) (Nat.not_lt.2 (Nat.le_of_eq hzero))
    simp only [minimize, minimizeObserved, if_pos hzero, if_pos hzero', and_self]
  · have hclasses := isClasses_refinePasses hpos 1
    simp only [minimize, minimizeObserved, if_neg (Nat.ne_of_gt hpos),
      if_neg (Nat.ne_of_gt (h.size_pos hpos)), ← h.refinement_eq hpos,
      h.quotient_eq hclasses.partition, List.filter_append, true_and]
    congr 1
    split <;> split <;> rfl

end AgreeReached

end Dfa

/-! ## Both constructions -/

/-- What is on no way from the start influences neither construction. Automata that agree
where they are reached have the same minimal automaton, with the same passes and splits on
the way; or, before they are determinized, the same automaton of sets, with the same events,
and for every ceiling. -/
theorem results_eq_of_agreeReached :
    (∀ d e : Dfa, d.AgreeReached e → d.minimize = e.minimize ∧
      d.minimizeObserved.events.filter Event.isRefinement =
        e.minimizeObserved.events.filter Event.isRefinement) ∧
    ∀ n m : Nfa, n.AgreeReached m → n.toDfa = m.toDfa ∧
      ∀ limit, n.toDfaObserved limit = m.toDfaObserved limit :=
  ⟨fun _ _ h => h.minimizeObserved_eq, fun _ _ h => ⟨h.toDfa_eq, h.toDfaObserved_eq⟩⟩

/-- One more state on no way from the start of `Dfa.inARow`, with a move to the start. -/
def Dfa.inARowBehind : Dfa where
  nodes := Dfa.inARow.nodes.push ⟨true, ⟨[('t', 0)], List.pairwise_singleton ..⟩, none⟩

theorem Dfa.agreeReached_inARowBehind : Dfa.inARow.AgreeReached Dfa.inARowBehind := by
  have hmem : ∀ i ∈ inARow.states, i = 0 ∨ i = 1 ∨ i = 2 := by
    intro i hi
    have hlist : inARow.states.toList = [0, 1, 2] := by cbv
    simpa [SortedSet.mem_def, hlist] using hi
  refine ⟨SortedSet.ext_toList (by cbv), fun i hi => ?_, fun i hi c => ?_⟩ <;>
    rcases hmem i hi with rfl | rfl | rfl <;> rfl

/-- A silent move, a move for a character, and no further state. -/
def Nfa.silentFirst : Nfa where
  nodes := #[⟨false, .singleton 1, ∅⟩,
    ⟨false, ∅, ⟨[('u', .singleton 2)], List.pairwise_singleton ..⟩⟩, .new true]
  start := 0
  stop := 2

/-- One more state on no way from the start of `Nfa.silentFirst`, with edges to the
others. -/
def Nfa.silentFirstBehind : Nfa :=
  ((Nfa.silentFirst.addNode true).connect 3 0 none).connect 3 2 (some 'v')

theorem Nfa.agreeReached_silentFirstBehind :
    Nfa.silentFirst.AgreeReached Nfa.silentFirstBehind := by
  have hmem : ∀ i ∈ silentFirst.states, i = 0 ∨ i = 1 ∨ i = 2 := by
    intro i hi
    have hlist : silentFirst.states.toList = [0, 1, 2] := by cbv
    simpa [SortedSet.mem_def, hlist] using hi
  refine ⟨rfl, SortedSet.ext_toList (by cbv), fun i hi => ?_⟩
  rcases hmem i hi with rfl | rfl | rfl <;> rfl

theorem results_eq_of_agreeReached_behind :
    (Dfa.inARow.AgreeReached Dfa.inARowBehind ∧ Dfa.inARow ≠ Dfa.inARowBehind ∧
      Dfa.inARow.minimize = Dfa.inARowBehind.minimize) ∧
    Nfa.silentFirst.AgreeReached Nfa.silentFirstBehind ∧
      Nfa.silentFirst ≠ Nfa.silentFirstBehind ∧
      Nfa.silentFirst.toDfa = Nfa.silentFirstBehind.toDfa := by
  obtain ⟨hdfa, hnfa⟩ := results_eq_of_agreeReached
  exact ⟨⟨Dfa.agreeReached_inARowBehind, by decide,
      (hdfa _ _ Dfa.agreeReached_inARowBehind).1⟩,
    Nfa.agreeReached_silentFirstBehind, by decide, (hnfa _ _ Nfa.agreeReached_silentFirstBehind).1⟩

end Regular
