import Mathlib.Data.List.Perm.Subperm
import Regular.Proofs.Reachability

/-!
# Walks

A run may end in a number that no state has, since moves may dangle. A walk is a run that
stays on states; the verdict does not tell the two apart, because what is no state is not
final (`Dfa.acceptsFrom_eq`). The states on a way from the start are the ends of walks
(`Dfa.mem_states_iff`), so words that can be told apart by what may follow them need as many
states (`Dfa.length_le_size_states`). And each of them is at the end of a walk shorter than
their number (`Dfa.exists_walk?_lt_size`).
-/

namespace Regular.Dfa

open Relation

variable {d : Dfa} {i j k : Nat} {c : Char} {u w : List Char}

/-! ## Moves to states -/

/-- Where a state leads by reading `c`, if that is a state. -/
def move? (d : Dfa) (i : StateId) (c : Char) : Option StateId :=
  (d.next? i c).filter (· < d.size)

/-- The state in which a walk from `i` ends. -/
def walk? (d : Dfa) (i : StateId) : List Char → Option StateId
  | [] => some i
  | c :: cs => d.move? i c >>= (d.walk? · cs)

theorem node?_eq_none_iff : d.node? i = none ↔ d.size ≤ i := Array.getElem?_eq_none_iff

theorem exists_node? (h : i < d.size) : ∃ node, d.node? i = some node :=
  ⟨_, Array.getElem?_eq_getElem h⟩

theorem next?_eq_some_iff :
    d.next? i c = some j ↔ ∃ node, d.node? i = some node ∧ node.moves.get? c = some j :=
  Option.bind_eq_some_iff

theorem lt_size_of_next? (h : d.next? i c = some j) : i < d.size := by
  obtain ⟨node, hnode, -⟩ := next?_eq_some_iff.1 h
  exact (Array.getElem?_eq_some_iff.1 hnode).1

theorem next?_eq_none (h : d.size ≤ i) : d.next? i c = none :=
  Option.eq_none_iff_forall_ne_some.2 fun _ hj => Nat.not_lt.2 h (lt_size_of_next? hj)

theorem mem_movesFrom_iff : (c, j) ∈ d.movesFrom i ↔ d.next? i c = some j := by
  rw [next?_eq_some_iff, movesFrom]
  cases d.node? i with
  | none => simp
  | some node => simp [CharMap.get?_eq_some_iff]

theorem move?_eq_some_iff : d.move? i c = some j ↔ d.next? i c = some j ∧ j < d.size := by
  simp [move?, Option.filter_eq_some_iff]

theorem isFinal_eq_false (h : d.size ≤ i) : d.isFinal i = false := by
  rw [isFinal, node?_eq_none_iff.2 h]
  rfl

/-! ## Walks -/

@[simp] theorem walk?_nil : d.walk? i [] = some i := rfl

theorem walk?_cons_eq_some_iff :
    d.walk? i (c :: w) = some k ↔ ∃ j, d.move? i c = some j ∧ d.walk? j w = some k :=
  Option.bind_eq_some_iff

theorem walk?_append : d.walk? i (u ++ w) = d.walk? i u >>= (d.walk? · w) := by
  induction u generalizing i with
  | nil => rfl
  | cons c u ih =>
      rw [List.cons_append, walk?, walk?]
      cases d.move? i c with
      | none => rfl
      | some j => exact ih

theorem walk?_append_eq_some_iff :
    d.walk? i (u ++ w) = some k ↔ ∃ j, d.walk? i u = some j ∧ d.walk? j w = some k := by
  rw [walk?_append]
  exact Option.bind_eq_some_iff

theorem walk?_lt_size (hi : i < d.size) (h : d.walk? i w = some j) : j < d.size := by
  induction w generalizing i with
  | nil =>
      obtain rfl := Option.some.inj h
      exact hi
  | cons c w ih =>
      obtain ⟨k, hk, h⟩ := walk?_cons_eq_some_iff.1 h
      exact ih (move?_eq_some_iff.1 hk).2 h

theorem runFrom?_of_walk? (h : d.walk? i w = some j) : d.runFrom? i w = some j := by
  induction w generalizing i with
  | nil => exact h
  | cons c w ih =>
      obtain ⟨k, hk, h⟩ := walk?_cons_eq_some_iff.1 h
      rw [runFrom?, (move?_eq_some_iff.1 hk).1]
      exact ih h

/-- A walk is a run that ends in a state, because what is no state has no moves. -/
theorem walk?_eq_some_iff (hi : i < d.size) :
    d.walk? i w = some j ↔ d.runFrom? i w = some j ∧ j < d.size := by
  refine ⟨fun h => ⟨runFrom?_of_walk? h, walk?_lt_size hi h⟩, ?_⟩
  rintro ⟨hrun, hj⟩
  induction w generalizing i with
  | nil => exact hrun
  | cons c w ih =>
      obtain ⟨a, ha, hrun⟩ := Option.bind_eq_some_iff.1 hrun
      have hlt : a < d.size := by
        cases w with
        | nil => exact Option.some.inj hrun ▸ hj
        | cons c' w =>
            obtain ⟨a', ha', -⟩ := Option.bind_eq_some_iff.1 hrun
            exact lt_size_of_next? ha'
      exact walk?_cons_eq_some_iff.2 ⟨a, move?_eq_some_iff.2 ⟨ha, hlt⟩, ih hlt hrun⟩

theorem acceptsFrom_cons :
    d.acceptsFrom i (c :: w) = (d.next? i c).any (d.acceptsFrom · w) := by
  rw [acceptsFrom, runFrom?]
  cases d.next? i c <;> rfl

/-- Nothing is accepted from a number that no state has. -/
theorem acceptsFrom_eq_false (hi : d.size ≤ i) (w : List Char) :
    d.acceptsFrom i w = false := by
  cases w with
  | nil => exact isFinal_eq_false hi
  | cons c w =>
      rw [acceptsFrom_cons, next?_eq_none hi]
      rfl

theorem acceptsFrom_eq (d : Dfa) (i : Nat) (w : List Char) :
    d.acceptsFrom i w = (d.walk? i w).any d.isFinal := by
  induction w generalizing i with
  | nil => rfl
  | cons c w ih =>
      rw [acceptsFrom_cons, walk?, move?]
      cases hnext : d.next? i c with
      | none => rfl
      | some j =>
          by_cases hj : j < d.size
          · rw [Option.filter_some_pos (by simpa using hj)]
            exact ih j
          · -- the run leaves the states, so it can only end outside of them
            rw [Option.filter_some_neg (by simpa using hj)]
            exact acceptsFrom_eq_false (Nat.not_lt.1 hj) w

theorem acceptsFrom_append (h : d.walk? i u = some j) :
    d.acceptsFrom i (u ++ w) = d.acceptsFrom j w := by
  rw [acceptsFrom_eq, acceptsFrom_eq, walk?_append, h]
  rfl

theorem acceptsFrom_eq_true_iff :
    d.acceptsFrom i w = true ↔ ∃ j, d.walk? i w = some j ∧ d.isFinal j = true := by
  rw [acceptsFrom_eq, Option.any_eq_true]

/-! ## The states on a way from the start -/

theorem leads_iff :
    Leads (fun i => (d.movesFrom i).map (·.2)) d.size i j ↔ ∃ c, d.move? i c = some j := by
  simp only [Leads, List.mem_map, move?_eq_some_iff]
  constructor
  · rintro ⟨⟨⟨c, k⟩, hmem, rfl⟩, hlt⟩
    exact ⟨c, mem_movesFrom_iff.1 hmem, hlt⟩
  · rintro ⟨c, hnext, hlt⟩
    exact ⟨⟨(c, j), mem_movesFrom_iff.2 hnext, rfl⟩, hlt⟩

theorem reflTransGen_leads_iff :
    ReflTransGen (Leads (fun i => (d.movesFrom i).map (·.2)) d.size) i j ↔
      ∃ w, d.walk? i w = some j := by
  constructor
  · intro h
    induction h using ReflTransGen.head_induction_on with
    | refl => exact ⟨[], rfl⟩
    | head hstep _ ih =>
        obtain ⟨c, hc⟩ := leads_iff.1 hstep
        obtain ⟨w, hw⟩ := ih
        exact ⟨c :: w, walk?_cons_eq_some_iff.2 ⟨_, hc, hw⟩⟩
  · rintro ⟨w, h⟩
    induction w generalizing i with
    | nil =>
        obtain rfl := Option.some.inj h
        exact .refl
    | cons c w ih =>
        obtain ⟨k, hk, h⟩ := walk?_cons_eq_some_iff.1 h
        exact .head (leads_iff.2 ⟨c, hk⟩) (ih h)

theorem mem_states_iff : i ∈ d.states ↔ 0 < d.size ∧ ∃ w, d.walk? 0 w = some i := by
  rw [states, mem_reachable_iff]
  simp [reflTransGen_leads_iff]

theorem lt_size_of_mem_states (h : i ∈ d.states) : i < d.size := by
  obtain ⟨hpos, w, hw⟩ := mem_states_iff.1 h
  exact walk?_lt_size hpos hw

theorem mem_states_of_walk? (h : i ∈ d.states) (hw : d.walk? i w = some j) : j ∈ d.states := by
  obtain ⟨hpos, u, hu⟩ := mem_states_iff.1 h
  exact mem_states_iff.2 ⟨hpos, u ++ w, walk?_append_eq_some_iff.2 ⟨i, hu, hw⟩⟩

theorem mem_states_of_move? (h : i ∈ d.states) (hc : d.move? i c = some j) : j ∈ d.states :=
  mem_states_of_walk? h (walk?_cons_eq_some_iff.2 ⟨j, hc, walk?_nil⟩)

theorem zero_mem_states (h : 0 < d.size) : 0 ∈ d.states := mem_states_iff.2 ⟨h, [], rfl⟩

/-- What holds of the start and passes along moves holds of all states on ways from the
start. -/
@[elab_as_elim] theorem states_induction {motive : Nat → Prop} (hi : i ∈ d.states)
    (zero : motive 0) (move : ∀ i c j, motive i → d.move? i c = some j → motive j) : motive i := by
  have hwalk : ∀ {w i j}, motive i → d.walk? i w = some j → motive j := by
    intro w
    induction w with
    | nil => exact fun hp hj => Option.some.inj hj ▸ hp
    | cons c w ih =>
        intro i j hp hj
        obtain ⟨k, hk, hj⟩ := walk?_cons_eq_some_iff.1 hj
        exact ih (move _ _ _ hp hk) hj
  obtain ⟨-, w, hw⟩ := mem_states_iff.1 hi
  exact hwalk zero hw

theorem size_pos_of_acceptsFrom (h : d.acceptsFrom i w = true) : 0 < d.size := by
  obtain ⟨j, -, hfinal⟩ := acceptsFrom_eq_true_iff.1 h
  by_contra hzero
  rw [isFinal_eq_false (by omega)] at hfinal
  cases hfinal

/-- What begins an accepted word leads to a state on a way from the start. -/
theorem exists_mem_states (h : d.acceptsFrom 0 (u ++ w) = true) :
    ∃ i ∈ d.states, d.walk? 0 u = some i := by
  obtain ⟨k, hk, -⟩ := acceptsFrom_eq_true_iff.1 h
  obtain ⟨i, hi, -⟩ := walk?_append_eq_some_iff.1 hk
  exact ⟨i, mem_states_iff.2 ⟨size_pos_of_acceptsFrom h, u, hi⟩, hi⟩

/-- Some state on a way from the start is final precisely if anything is accepted. -/
theorem exists_mem_finalStates_iff :
    (∃ i, i ∈ d.finalStates) ↔ ∃ w, d.acceptsFrom 0 w = true := by
  simp only [finalStates, SortedSet.mem_filter, acceptsFrom_eq_true_iff]
  constructor
  · rintro ⟨i, hi, hfinal⟩
    obtain ⟨-, w, hw⟩ := mem_states_iff.1 hi
    exact ⟨w, i, hw, hfinal⟩
  · rintro ⟨w, i, hw, hfinal⟩
    have hpos := size_pos_of_acceptsFrom (acceptsFrom_eq_true_iff.2 ⟨i, hw, hfinal⟩)
    exact ⟨i, mem_states_iff.2 ⟨hpos, w, hw⟩, hfinal⟩

/-! ## How many states there are -/

theorem size_states_le (d : Dfa) : d.states.size ≤ d.size := by
  have hsub : d.states.toList ⊆ List.range d.size := fun i hi =>
    List.mem_range.2 (lt_size_of_mem_states hi)
  have hlen := (List.subperm_of_subset (d.states.ascending.imp Nat.ne_of_lt) hsub).length_le
  rwa [List.length_range] at hlen

/-- Words that lead to different states are no more than the states. -/
theorem length_le_of_nodup_walk? {us : List (List Char)}
    (hstate : ∀ u ∈ us, ∃ i ∈ d.states, d.walk? 0 u = some i)
    (hnodup : (us.map (d.walk? 0)).Nodup) : us.length ≤ d.states.size := by
  have hsub : us.map (d.walk? 0) ⊆ d.states.toList.map some := by
    intro x hx
    obtain ⟨u, hu, rfl⟩ := List.mem_map.1 hx
    obtain ⟨i, hi, heq⟩ := hstate u hu
    exact List.mem_map.2 ⟨i, hi, heq.symm⟩
  have hlen := (List.subperm_of_subset hnodup hsub).length_le
  rwa [List.length_map, List.length_map] at hlen

/-- Words that each begin an accepted word, and of which any two are told apart by what may
follow them, lead to as many different states. -/
theorem length_le_size_states {us : List (List Char)}
    (hlive : ∀ u ∈ us, ∃ w, d.acceptsFrom 0 (u ++ w) = true)
    (hapart : us.Pairwise fun u v => ∃ w, d.acceptsFrom 0 (u ++ w) ≠ d.acceptsFrom 0 (v ++ w)) :
    us.length ≤ d.states.size := by
  have hstate : ∀ u ∈ us, ∃ i ∈ d.states, d.walk? 0 u = some i := by
    intro u hu
    obtain ⟨w, hw⟩ := hlive u hu
    exact exists_mem_states hw
  refine length_le_of_nodup_walk? hstate (List.pairwise_map.2 (hapart.imp_of_mem ?_))
  rintro u v hu - ⟨w, hw⟩ heq
  obtain ⟨i, -, hi⟩ := hstate u hu
  rw [acceptsFrom_append hi, acceptsFrom_append (heq ▸ hi)] at hw
  exact hw rfl

/-! ## Short walks -/

/-- A walk as long as there are states passes one of them twice, and what is between can be
left out. -/
theorem exists_shorter_walk? (h : i ∈ d.states) (hw : d.walk? 0 w = some i)
    (hlen : d.states.size ≤ w.length) : ∃ u, d.walk? 0 u = some i ∧ u.length < w.length := by
  have hpos := (mem_states_iff.1 h).1
  have hpassed : ∀ a, ∃ j ∈ d.states, d.walk? 0 (w.take a) = some j ∧
      d.walk? j (w.drop a) = some i := by
    intro a
    rw [← List.take_append_drop a w] at hw
    obtain ⟨j, hj, hrest⟩ := walk?_append_eq_some_iff.1 hw
    exact ⟨j, mem_states_iff.2 ⟨hpos, _, hj⟩, hj, hrest⟩
  by_contra hnone
  have hstate : ∀ u ∈ (List.range (w.length + 1)).map w.take, ∃ j ∈ d.states,
      d.walk? 0 u = some j := by
    intro u hu
    obtain ⟨a, -, rfl⟩ := List.mem_map.1 hu
    obtain ⟨j, hmem, hj, -⟩ := hpassed a
    exact ⟨j, hmem, hj⟩
  have hle := length_le_of_nodup_walk? hstate (List.pairwise_map.2 (List.pairwise_map.2
    (List.pairwise_lt_range.imp_of_mem ?apart)))
  · rw [List.length_map, List.length_range] at hle
    exact Nat.not_le_of_lt hle hlen
  rintro a b - hb hab heq
  obtain ⟨j, -, hj, hrest⟩ := hpassed b
  refine hnone ⟨w.take a ++ w.drop b, walk?_append_eq_some_iff.2 ⟨j, heq.trans hj, hrest⟩, ?_⟩
  rw [List.mem_range] at hb
  rw [List.length_append, List.length_take, List.length_drop]
  omega

/-- Each state on a way from the start is at the end of a walk shorter than the number of
states. -/
theorem exists_walk?_lt_size (h : i ∈ d.states) :
    ∃ w, d.walk? 0 w = some i ∧ w.length < d.states.size := by
  obtain ⟨-, w, hw⟩ := mem_states_iff.1 h
  induction hn : w.length using Nat.strongRecOn generalizing w with
  | _ n ih =>
      by_cases hlt : w.length < d.states.size
      · exact ⟨w, hw, hlt⟩
      · obtain ⟨u, hu, hshort⟩ := exists_shorter_walk? h hw (Nat.not_lt.1 hlt)
        exact ih u.length (hn ▸ hshort) u hu rfl

end Regular.Dfa
