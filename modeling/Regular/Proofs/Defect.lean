import Mathlib.Data.List.Permutation
import Mathlib.Data.Set.Card
import Regular.Defect
import Regular.Proofs.Dfa.RoundTrip
import Regular.Proofs.Dfa.Subset

/-!
# What it means that nothing is found wrong

Both kinds of automata are looked over in the same way: all edges, wherever they are, for
targets that do not exist, then the final states among those on ways from the start, then all
states for those that are not (`Defect.Lists`). So nothing is found wrong precisely if the
automaton is in order (`Nfa.InOrder`, `Dfa.InOrder`), each edge that dangles is listed once,
and so is each state on no way from the start.

An automaton in order accepts something, since a way to a final state spells it; in a
deterministic one the way need not pass a state twice (`Dfa.exists_walk?_lt_size`).
-/

namespace Regular

/-- The number of members of a set that is listed without repetition. -/
theorem encard_eq_length {α : Type} {s : Set α} {l : List α} (hl : l.Nodup)
    (h : ∀ a, a ∈ s ↔ a ∈ l) : s.encard = l.length := by
  classical
  have hs : s = ↑l.toFinset := Set.ext fun a => (h a).trans (by simp)
  rw [hs, Set.encard_coe_eq_coe_finsetCard, List.toFinset_card_of_nodup hl]

theorem SortedSet.size_eq_one_iff {s : IdSet} : s.size = 1 ↔ ∃! i, i ∈ s := by
  rw [SortedSet.size, List.length_eq_one_iff]
  constructor
  · rintro ⟨i, hi⟩
    refine ⟨i, ?_, fun j hj => ?_⟩
    · exact SortedSet.mem_def.2 (hi ▸ List.mem_singleton_self i)
    · exact List.mem_singleton.1 (hi ▸ SortedSet.mem_def.1 hj)
  · rintro ⟨i, hi, hunique⟩
    have hs : s = .singleton i := SortedSet.ext_mem fun j => by
      rw [SortedSet.mem_singleton]
      exact ⟨hunique j, fun hj => hj ▸ hi⟩
    exact ⟨i, congrArg SortedSet.toList hs⟩

namespace Defect

variable {α : Type} {size : Nat} {states : IdSet} {edges : List (StateId × α × StateId)}
  {final defects : List Defect} {d : Defect} {i j : StateId}

/-! ## The parts of a list of defects -/

/-- The defect of an edge that leads to no state below `size`. -/
def dangling? (size : Nat) (edge : StateId × α × StateId) : Option Defect :=
  if size ≤ edge.2.2 then some (.danglingTransition edge.1 edge.2.2) else none

theorem dangling?_eq_some_iff {edge : StateId × α × StateId} :
    dangling? size edge = some d ↔
      size ≤ edge.2.2 ∧ d = .danglingTransition edge.1 edge.2.2 := by
  rw [dangling?]
  split <;> simp_all [eq_comm]

theorem filterMap_dangling?_eq_nil_iff :
    edges.filterMap (dangling? size) = [] ↔ ∀ i a j, (i, a, j) ∈ edges → j < size := by
  rw [List.filterMap_eq_nil_iff]
  constructor
  · intro h i a j hmem
    refine Nat.lt_of_not_le fun hle => ?_
    cases (h _ hmem).symm.trans (if_pos hle)
  · rintro h ⟨i, a, j⟩ hmem
    exact if_neg (Nat.not_le_of_lt (h i a j hmem))

/-- Edges that differ in their labels alone are listed one by one. -/
theorem count_filterMap_dangling? (hnodup : edges.Nodup) (i j : StateId) :
    ((edges.filterMap (dangling? size)).count (.danglingTransition i j) : ℕ∞) =
      {a | (i, a, j) ∈ edges ∧ size ≤ j}.encard := by
  have hcounted : ∀ (i' : StateId) (a : α) (j' : StateId),
      (dangling? size (i', a, j') == some (.danglingTransition i j)) = true ↔
        i' = i ∧ j' = j ∧ size ≤ j := by
    intro i' a j'
    rw [beq_iff_eq, dangling?_eq_some_iff]
    constructor
    · rintro ⟨hle, heq⟩
      cases heq
      exact ⟨rfl, rfl, hle⟩
    · rintro ⟨rfl, rfl, hle⟩
      exact ⟨hle, rfl⟩
  rw [List.count_filterMap, List.countP_eq_length_filter, ← List.length_map (f := (·.2.1))]
  refine (encard_eq_length (List.Nodup.map_on ?_ (hnodup.filter _)) fun a => ?_).symm
  · rintro ⟨i₁, a, j₁⟩ h₁ ⟨i₂, b, j₂⟩ h₂ (heq : a = b)
    obtain ⟨rfl, rfl, -⟩ := (hcounted _ _ _).1 (List.mem_filter.1 h₁).2
    obtain ⟨rfl, rfl, -⟩ := (hcounted _ _ _).1 (List.mem_filter.1 h₂).2
    rw [heq]
  · rw [List.mem_map]
    constructor
    · rintro ⟨hmem, hle⟩
      exact ⟨(i, a, j), List.mem_filter.2 ⟨hmem, (hcounted _ _ _).2 ⟨rfl, rfl, hle⟩⟩, rfl⟩
    · rintro ⟨⟨i', a', j'⟩, hkept, heq⟩
      obtain rfl : a' = a := heq
      obtain ⟨hmem, hdangling⟩ := List.mem_filter.1 hkept
      obtain ⟨rfl, rfl, hle⟩ := (hcounted _ _ _).1 hdangling
      exact ⟨hmem, hle⟩

theorem mem_unreachableStates_iff :
    d ∈ unreachableStates size states ↔ ∃ i, (i < size ∧ i ∉ states) ∧ d = .unreachableState i := by
  simp only [unreachableStates, List.mem_map, List.mem_filter, List.mem_range, decide_eq_true_eq,
    eq_comm (a := d)]

theorem nodup_unreachableStates : (unreachableStates size states).Nodup :=
  (List.nodup_range.filter _).map fun _ _ h => by injection h

theorem unreachableStates_eq_nil_iff :
    unreachableStates size states = [] ↔ ∀ i < size, i ∈ states := by
  rw [List.eq_nil_iff_forall_not_mem]
  simp only [mem_unreachableStates_iff]
  constructor
  · exact fun h i hi => not_not.1 fun hnot => h _ ⟨i, ⟨hi, hnot⟩, rfl⟩
  · rintro h d ⟨i, ⟨hi, hnot⟩, -⟩
    exact hnot (h i hi)

/-- The defect is about the final states. -/
def IsAboutFinal : Defect → Prop
  | noFinalState | multipleFinalStates _ => True
  | _ => False

/-- The defects of an automaton with a start: an entry for each edge that dangles, what is
wrong with the final states, and an entry for each state that is not among `states`. -/
structure Lists (size : Nat) (edges : List (StateId × α × StateId)) (states : IdSet)
    (final defects : List Defect) : Prop where
  eq : defects = edges.filterMap (dangling? size) ++ final ++ unreachableStates size states
  nodup : edges.Nodup
  final : ∀ d ∈ final, d.IsAboutFinal

theorem Lists.eq_nil_iff (h : Lists size edges states final defects) : defects = [] ↔
    (∀ i a j, (i, a, j) ∈ edges → j < size) ∧ final = [] ∧ ∀ i < size, i ∈ states := by
  rw [h.eq, List.append_eq_nil_iff, List.append_eq_nil_iff, filterMap_dangling?_eq_nil_iff,
    unreachableStates_eq_nil_iff, and_assoc]

theorem Lists.count_dangling (h : Lists size edges states final defects) (i j : StateId) :
    (defects.count (.danglingTransition i j) : ℕ∞) = {a | (i, a, j) ∈ edges ∧ size ≤ j}.encard := by
  have hfinal : final.count (.danglingTransition i j) = 0 :=
    List.count_eq_zero.2 fun hmem => h.final _ hmem
  have hunreachable : (unreachableStates size states).count (.danglingTransition i j) = 0 := by
    refine List.count_eq_zero.2 fun hmem => ?_
    obtain ⟨_, -, heq⟩ := mem_unreachableStates_iff.1 hmem
    cases heq
  rw [h.eq, List.count_append, List.count_append, hfinal, hunreachable,
    ← count_filterMap_dangling? h.nodup]
  rfl

theorem Lists.count_unreachable (h : Lists size edges states final defects) (i : StateId) :
    defects.count (.unreachableState i) ≤ 1 ∧
      (.unreachableState i ∈ defects ↔ i < size ∧ i ∉ states) := by
  have hdangling : .unreachableState i ∉ edges.filterMap (dangling? size) := by
    intro hmem
    obtain ⟨_, -, heq⟩ := List.mem_filterMap.1 hmem
    cases (dangling?_eq_some_iff.1 heq).2
  have hfinal : .unreachableState i ∉ final := fun hmem => h.final _ hmem
  constructor
  · rw [h.eq, List.count_append, List.count_append, List.count_eq_zero.2 hdangling,
      List.count_eq_zero.2 hfinal, Nat.zero_add]
    exact List.nodup_iff_count_le_one.1 nodup_unreachableStates _
  · rw [h.eq, List.mem_append, List.mem_append, or_iff_right (not_or.2 ⟨hdangling, hfinal⟩),
      mem_unreachableStates_iff]
    constructor
    · rintro ⟨_, hi, heq⟩
      cases heq
      exact hi
    · exact fun hi => ⟨i, hi, rfl⟩

end Defect

namespace Nfa

variable {n : Nfa} {i : StateId}

/-! ## Nondeterministic automata -/

theorem Node.nodup_edges (node : Node) : node.edges.Nodup := by
  have hset : ∀ (s : IdSet) (label : Option Char), (s.toList.map ((label, ·))).Nodup :=
    fun s label => List.Nodup.map (fun _ _ h => (Prod.mk.inj h).2) (s.ascending.imp Nat.ne_of_lt)
  refine (hset _ none).append (List.nodup_flatMap.2 ⟨fun _ _ => hset _ _, ?_⟩) ?_
  · refine node.moves.ascending.imp fun hlt => List.disjoint_left.2 fun e he he' => ?_
    obtain ⟨_, -, rfl⟩ := List.mem_map.1 he
    obtain ⟨_, -, heq⟩ := List.mem_map.1 he'
    injection heq with hlabel
    injection hlabel with hc
    exact Std.lt_irrefl (hc ▸ hlt)
  · refine List.disjoint_left.2 fun e he he' => ?_
    obtain ⟨_, -, rfl⟩ := List.mem_map.1 he
    obtain ⟨_, -, hmem⟩ := List.mem_flatMap.1 he'
    obtain ⟨_, -, heq⟩ := List.mem_map.1 hmem
    cases heq

theorem nodup_edges (n : Nfa) : n.edges.Nodup := by
  refine List.nodup_flatMap.2 ⟨fun i _ => List.Nodup.map (fun _ _ h => (Prod.mk.inj h).2) ?_, ?_⟩
  · rw [edgesFrom]
    cases n.node? i with
    | none => exact List.nodup_nil
    | some node => exact node.nodup_edges
  · refine List.nodup_range.imp fun hne => List.disjoint_left.2 fun e he he' => hne ?_
    obtain ⟨_, -, rfl⟩ := List.mem_map.1 he
    obtain ⟨_, -, heq⟩ := List.mem_map.1 he'
    exact (Prod.mk.inj heq).1.symm

/-- The number of a state to which a route leads from the start. -/
def Reached (n : Nfa) (i : StateId) : Prop := ∃ labels, n.Route n.start labels i

theorem mem_states_iff_reached : i ∈ n.states ↔ n.Reached i := by
  rw [mem_states_iff, Reached]
  constructor
  · rintro ⟨hi, w, hw⟩
    obtain ⟨labels, hroute, -⟩ := path_iff_exists_route.1 ⟨hw, hi⟩
    exact ⟨labels, hroute⟩
  · rintro ⟨labels, hroute⟩
    exact ⟨hroute.path.2, _, hroute.path.1⟩

/-- The start is a state, edges lead to states, one state that is reached is final, and each
state is reached. -/
structure InOrder (n : Nfa) : Prop where
  start : n.start < n.size
  closed : ∀ i label j, n.Edge i label j → j < n.size
  final : ∃! i, n.Reached i ∧ n.isFinal i = true
  reached : ∀ i < n.size, n.Reached i

theorem exists_lists (h : n.start < n.size) : ∃ final,
    Defect.Lists n.size n.edges n.states final n.defects ∧
      (final = [] ↔ (n.states.filter n.isFinal).size = 1) := by
  refine ⟨_, ⟨by rw [defects, if_neg (Nat.not_le_of_lt h)]; rfl, n.nodup_edges, ?_⟩, ?_⟩
  · intro d hd
    split at hd
    · exact List.mem_singleton.1 hd ▸ trivial
    · cases hd
    · exact List.mem_singleton.1 hd ▸ trivial
  · split
    · next hzero => simp [hzero]
    · next hone => simp [hone]
    · next hother => simpa using hother

theorem defects_of_size_le (h : n.size ≤ n.start) : n.defects = [.missingStart n.start] :=
  if_pos h

theorem defects_eq_nil_iff : n.defects = [] ↔ n.InOrder := by
  by_cases hstart : n.start < n.size
  · obtain ⟨final, hlists, hfinal⟩ := exists_lists hstart
    rw [hlists.eq_nil_iff, hfinal, SortedSet.size_eq_one_iff]
    simp only [Subset.mem_edges_iff, SortedSet.mem_filter, mem_states_iff_reached]
    exact ⟨fun h => ⟨hstart, h.1, h.2.1, h.2.2⟩, fun h => ⟨h.closed, h.final, h.reached⟩⟩
  · rw [defects_of_size_le (Nat.not_lt.1 hstart)]
    exact ⟨fun h => absurd h (List.cons_ne_nil _ _), fun h => absurd h.start hstart⟩

theorem count_dangling (h : n.start < n.size) (i j : StateId) :
    (n.defects.count (.danglingTransition i j) : ℕ∞) =
      {label | n.Edge i label j ∧ n.size ≤ j}.encard := by
  obtain ⟨final, hlists, -⟩ := exists_lists h
  simp only [hlists.count_dangling, Subset.mem_edges_iff]

theorem count_unreachable (h : n.start < n.size) (i : StateId) :
    n.defects.count (.unreachableState i) ≤ 1 ∧
      (.unreachableState i ∈ n.defects ↔ i < n.size ∧ ¬n.Reached i) := by
  obtain ⟨final, hlists, -⟩ := exists_lists h
  simp only [← mem_states_iff_reached]
  exact hlists.count_unreachable i

/-- The route to the final state spells a text. -/
theorem InOrder.exists_accepts (h : n.InOrder) : ∃ input, n.accepts input = true := by
  obtain ⟨k, ⟨⟨labels, hroute⟩, hk⟩, -⟩ := h.final
  refine ⟨String.ofList labels.reduceOption, ?_⟩
  rw [accepts, String.toList_ofList]
  exact acceptsFrom_initial_iff.2 ⟨k, hroute.path.1, hk⟩

end Nfa

namespace Dfa

variable {d : Dfa} {i : StateId}

/-! ## Deterministic automata -/

/-- The number of a state to which a walk leads from the start. -/
def Reached (d : Dfa) (i : StateId) : Prop := 0 < d.size ∧ ∃ w, d.walk? 0 w = some i

/-- There is a state, moves lead to states, some state that is reached is final, and each
state is reached. -/
structure InOrder (d : Dfa) : Prop where
  size_pos : 0 < d.size
  closed : ∀ i c j, d.next? i c = some j → j < d.size
  final : ∃ i, d.Reached i ∧ d.isFinal i = true
  reached : ∀ i < d.size, d.Reached i

theorem exists_lists (h : 0 < d.size) : ∃ final,
    Defect.Lists d.size d.edges d.states final d.defects ∧
      (final = [] ↔ ∃ i, i ∈ d.finalStates) := by
  refine ⟨_, ⟨by rw [defects, if_neg (Nat.ne_of_gt h)]; rfl, d.nodup_edges, ?_⟩, ?_⟩
  · intro defect hdefect
    split at hdefect
    · exact List.mem_singleton.1 hdefect ▸ trivial
    · cases hdefect
  · rw [← SortedSet.isEmpty_eq_false_iff]
    split
    · next hempty => simp [hempty]
    · next hsome => simpa using hsome

theorem defects_eq_nil_iff : d.defects = [] ↔ d.InOrder := by
  by_cases hpos : 0 < d.size
  · obtain ⟨final, hlists, hfinal⟩ := exists_lists hpos
    rw [hlists.eq_nil_iff, hfinal]
    simp only [mem_edges_iff, finalStates, SortedSet.mem_filter, mem_states_iff]
    exact ⟨fun h => ⟨hpos, h.1, h.2.1, h.2.2⟩, fun h => ⟨h.closed, h.final, h.reached⟩⟩
  · rw [defects, if_pos (Nat.eq_zero_of_not_pos hpos)]
    exact ⟨fun h => absurd h (List.cons_ne_nil _ _), fun h => absurd h.size_pos hpos⟩

theorem count_dangling (h : 0 < d.size) (i j : StateId) :
    (d.defects.count (.danglingTransition i j) : ℕ∞) =
      {c | d.next? i c = some j ∧ d.size ≤ j}.encard := by
  obtain ⟨final, hlists, -⟩ := exists_lists h
  simp only [hlists.count_dangling, mem_edges_iff]

theorem count_unreachable (h : 0 < d.size) (i : StateId) :
    d.defects.count (.unreachableState i) ≤ 1 ∧
      (.unreachableState i ∈ d.defects ↔ i < d.size ∧ ¬d.Reached i) := by
  obtain ⟨final, hlists, -⟩ := exists_lists h
  simp only [Reached, ← mem_states_iff]
  exact hlists.count_unreachable i

/-- A short walk to a final state spells a short text. -/
theorem InOrder.exists_accepts (h : d.InOrder) :
    ∃ input, d.accepts input = true ∧ input.length < d.size := by
  obtain ⟨k, hreached, hk⟩ := h.final
  obtain ⟨w, hw, hlt⟩ := exists_walk?_lt_size (mem_states_iff.2 hreached)
  refine ⟨String.ofList w, ?_, ?_⟩
  · rw [accepts, String.toList_ofList]
    exact acceptsFrom_eq_true_iff.2 ⟨k, hw, hk⟩
  · rw [String.length_ofList]
    exact Nat.lt_of_lt_of_le hlt d.size_states_le

end Dfa

/-- Whatever the automaton, nothing is found wrong with it precisely if it is in order. If it
has a start, then each edge that dangles is listed once, be there others between the same
numbers, and so is each state that is not reached. An automaton with which nothing is wrong
accepts something, and a deterministic one something shorter than the number of its
states. -/
theorem defects_eq_nil_iff_inOrder :
    (∀ n : Nfa, (n.defects = [] ↔ n.InOrder) ∧
      (n.start < n.size → ∀ i,
        (∀ j, (n.defects.count (.danglingTransition i j) : ℕ∞) =
          {label | n.Edge i label j ∧ n.size ≤ j}.encard) ∧
        n.defects.count (.unreachableState i) ≤ 1 ∧
        (.unreachableState i ∈ n.defects ↔ i < n.size ∧ ¬n.Reached i)) ∧
      (n.defects = [] → ∃ input, n.accepts input = true)) ∧
    ∀ d : Dfa, (d.defects = [] ↔ d.InOrder) ∧
      (0 < d.size → ∀ i,
        (∀ j, (d.defects.count (.danglingTransition i j) : ℕ∞) =
          {c | d.next? i c = some j ∧ d.size ≤ j}.encard) ∧
        d.defects.count (.unreachableState i) ≤ 1 ∧
        (.unreachableState i ∈ d.defects ↔ i < d.size ∧ ¬d.Reached i)) ∧
      (d.defects = [] → ∃ input, d.accepts input = true ∧ input.length < d.size) := by
  refine ⟨fun n => ⟨Nfa.defects_eq_nil_iff, fun hstart i => ?_, fun h => ?_⟩,
    fun d => ⟨Dfa.defects_eq_nil_iff, fun hpos i => ?_, fun h => ?_⟩⟩
  · exact ⟨Nfa.count_dangling hstart i, Nfa.count_unreachable hstart i⟩
  · exact (Nfa.defects_eq_nil_iff.1 h).exists_accepts
  · exact ⟨Dfa.count_dangling hpos i, Dfa.count_unreachable hpos i⟩
  · exact (Dfa.defects_eq_nil_iff.1 h).exists_accepts

/-- Two edges lead from 1 to the missing 7, and no way leads to 2. A chain of two states is
in order; with its move turned to the missing 5 it is not. -/
theorem defects_parallel_edges :
    (∃ n : Nfa, n.start < n.size ∧
      n.defects = [.danglingTransition 1 7, .danglingTransition 1 7, .unreachableState 2] ∧
      {label | n.Edge 1 label 7 ∧ n.size ≤ 7}.encard = 2 ∧ ¬n.Reached 2) ∧
    (∃ n : Nfa, n.defects = [] ∧ n.InOrder ∧ ∃ input, n.accepts input = true) ∧
    (∃ d : Dfa, 0 < d.size ∧
      d.defects = [.danglingTransition 0 5, .noFinalState, .unreachableState 1] ∧
      {c | d.next? 0 c = some 5 ∧ d.size ≤ 5}.encard = 1 ∧ ¬d.Reached 1) ∧
    ∃ d : Dfa, d.defects = [] ∧ d.InOrder ∧
      ∃ input, d.accepts input = true ∧ input.length < d.size := by
  obtain ⟨hnfa, hdfa⟩ := defects_eq_nil_iff_inOrder
  refine ⟨?_, ?_, ?_, ?_⟩
  · let chain := (((Nfa.empty.addNode false).addNode true).addNode false).connect 0 1 (some 'x')
    let n := (chain.connect 1 7 none).connect 1 7 (some 'y')
    have hstart : n.start < n.size := Nat.zero_lt_succ _
    have hlist : n.defects =
        [.danglingTransition 1 7, .danglingTransition 1 7, .unreachableState 2] := by cbv
    have hlisted : .unreachableState 2 ∈ n.defects := by
      rw [hlist]
      decide
    refine ⟨n, hstart, hlist, ?_, (((hnfa n).2.1 hstart 2).2.2.1 hlisted).2⟩
    rw [← ((hnfa n).2.1 hstart 1).1 7, hlist]
    rfl
  · let n := ((Nfa.empty.addNode false).addNode true).connect 0 1 (some 'x')
    have hlist : n.defects = [] := by cbv
    exact ⟨n, hlist, (hnfa n).1.1 hlist, (hnfa n).2.2 hlist⟩
  · let d : Dfa := ⟨#[⟨false, CharMap.insertIfNew ∅ 'x' 5, none⟩, .new false]⟩
    have hpos : 0 < d.size := Nat.zero_lt_succ _
    have hlist : d.defects = [.danglingTransition 0 5, .noFinalState, .unreachableState 1] := by cbv
    have hlisted : .unreachableState 1 ∈ d.defects := by
      rw [hlist]
      decide
    refine ⟨d, hpos, hlist, ?_, (((hdfa d).2.1 hpos 1).2.2.1 hlisted).2⟩
    rw [← ((hdfa d).2.1 hpos 0).1 5, hlist]
    rfl
  · let d : Dfa := ⟨#[⟨false, CharMap.insertIfNew ∅ 'x' 1, none⟩, .new true]⟩
    have hlist : d.defects = [] := by cbv
    exact ⟨d, hlist, (hdfa d).1.1 hlist, (hdfa d).2.2 hlist⟩

end Regular
