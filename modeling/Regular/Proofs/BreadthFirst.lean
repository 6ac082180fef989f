import Regular.Proofs.Dfa.Walk
import Regular.Proofs.Nfa.Closure

/-!
# Breadth-first search for the states

The states on a way from the start can be found with a queue (`Nfa.Search.sweep`): the state
that has waited longest is looked at, and those states that its edges lead to and that were
not found before begin to wait. The numbers found and those that wait are kept as for a
search with a stack; here the list holds those found last in front, so the next one is taken
from its end.

What the search keeps (`Nfa.Search.Swept`) is that all it found is on ways from the start,
and that what was found and waits no longer has those states found that its edges lead to.
Edges may dangle, and the start may be missing; a number that no state has is never found.
The search is over after as many steps as there are states on ways from the start, and has
then found these (`sweep_finds_states`).
-/

namespace Regular

open Relation

namespace Nfa.Search

variable {next : StateId → List StateId} {size : Nat} {start i j : StateId} {q : Search}
  {todo : List StateId}

/-- The start waits, unless there is no state of that number. -/
def queued (size : Nat) (start : StateId) : Search :=
  if start < size then ⟨.singleton start, [start]⟩ else ⟨∅, []⟩

/-- Looks at the number that has waited longest, and has those states wait that `next` lists
for it and that were not found before. -/
def sweep (next : StateId → List StateId) (size : Nat) (q : Search) : Search :=
  match q.todo.getLast? with
  | none => q
  | some i => ((next i).filter (· < size)).foldl find ⟨q.found, q.todo.dropLast⟩

theorem sweep_of_todo_eq_nil (h : q.todo = []) : q.sweep next size = q := by
  rw [sweep, h]
  rfl

theorem sweep_of_todo_eq_concat (h : q.todo = todo ++ [i]) :
    q.sweep next size = ((next i).filter (· < size)).foldl find ⟨q.found, todo⟩ := by
  rw [sweep, h, List.getLast?_concat, List.dropLast_concat]

theorem mem_targets_iff : j ∈ (next i).filter (· < size) ↔ Leads next size i j := by
  rw [List.mem_filter, decide_eq_true_iff, Leads]

theorem takesOne_sweep (next : StateId → List StateId) (size : Nat) :
    TakesOne (sweep next size) where
  rests _ := sweep_of_todo_eq_nil
  one q h := by
    have hsplit := (List.dropLast_concat_getLast h).symm
    have hlen := congrArg List.length hsplit
    rw [List.length_append, List.length_singleton] at hlen
    rw [sweep_of_todo_eq_concat hsplit, hlen, ← Nat.add_assoc, size_foldl]

theorem mem_reachable_iff_leads :
    i ∈ reachable next size [start] ↔ start < size ∧ ReflTransGen (Leads next size) start i := by
  simp only [mem_reachable_iff, List.mem_singleton, exists_eq_left]

/-! ## What a step keeps -/

/-- All that is found can be reached from the start, and the start is found if it is a state.
What waits is found. What is found and waits no longer has those states found that it leads
to. -/
structure Swept (next : StateId → List StateId) (size : Nat) (start : StateId) (q : Search) :
    Prop where
  sound : ∀ i ∈ q.found, i ∈ reachable next size [start]
  start : start < size → start ∈ q.found
  found : ∀ i ∈ q.todo, i ∈ q.found
  looked : ∀ i ∈ q.found, i ∉ q.todo → ∀ j, Leads next size i j → j ∈ q.found

theorem swept_queued (next : StateId → List StateId) (size : Nat) (start : StateId) :
    Swept next size start (queued size start) := by
  rw [queued]
  split
  · next hstart =>
    have hself : start ∈ reachable next size [start] := mem_reachable_iff_leads.2 ⟨hstart, .refl⟩
    exact ⟨fun i hi => SortedSet.mem_singleton.1 hi ▸ hself,
      fun _ => SortedSet.mem_singleton.2 rfl, fun i hi => hi, fun i hi hnot => absurd hi hnot⟩
  · next hstart =>
    exact ⟨fun i hi => absurd hi SortedSet.not_mem_empty, fun h => absurd h hstart,
      fun i hi => absurd hi List.not_mem_nil, fun i hi => absurd hi SortedSet.not_mem_empty⟩

theorem Swept.sweep (h : Swept next size start q) :
    Swept next size start (q.sweep next size) := by
  rcases List.eq_nil_or_concat' q.todo with htodo | ⟨todo, i, htodo⟩
  · rwa [sweep_of_todo_eq_nil htodo]
  have hi : i ∈ q.found := h.found i (htodo ▸ List.mem_concat_self)
  rw [sweep_of_todo_eq_concat htodo]
  refine ⟨fun j hj => ?_, fun hstart => ?_, fun j hj => ?_, fun k hk hnot j hleads => ?_⟩
  · rcases mem_found_foldl.1 hj with htarget | hj
    · obtain ⟨hstart, hway⟩ := mem_reachable_iff_leads.1 (h.sound i hi)
      exact mem_reachable_iff_leads.2 ⟨hstart, hway.tail (mem_targets_iff.1 htarget)⟩
    · exact h.sound j hj
  · exact mem_found_foldl.2 (Or.inr (h.start hstart))
  · refine mem_found_foldl.2 ((mem_todo_foldl.1 hj).imp And.left fun hj => h.found j ?_)
    exact htodo ▸ List.mem_append_left _ hj
  · -- what is found in this step waits, so `k` was found before
    rw [mem_todo_foldl, not_or, not_and_not_right] at hnot
    have hkfound : k ∈ q.found := (mem_found_foldl.1 hk).elim hnot.1 id
    rw [mem_found_foldl]
    by_cases hki : k = i
    · exact Or.inl (mem_targets_iff.2 (hki ▸ hleads))
    · have hktodo : k ∉ todo ++ [i] := by simp [hki, hnot.2]
      exact Or.inr (h.looked k hkfound (htodo ▸ hktodo) j hleads)

theorem Swept.iterate (h : Swept next size start q) (k : Nat) :
    Swept next size start ((Search.sweep next size)^[k] q) := by
  induction k with
  | zero => exact h
  | succ k ih =>
      rw [Function.iterate_succ_apply']
      exact ih.sweep

/-- A search that is over has found all that can be reached. -/
theorem Swept.found_eq (h : Swept next size start q) (htodo : q.todo = []) :
    q.found = reachable next size [start] := by
  refine SortedSet.ext_mem fun i => ⟨h.sound i, fun hi => ?_⟩
  obtain ⟨hstart, hway⟩ := mem_reachable_iff_leads.1 hi
  induction hway with
  | refl => exact h.start hstart
  | tail hway hleads ih =>
      have hj := ih (mem_reachable_iff_leads.2 ⟨hstart, hway⟩)
      exact h.looked _ hj (htodo ▸ List.not_mem_nil) _ hleads

/-! ## How long it takes -/

theorem todo_sweep_eq_nil_iff (next : StateId → List StateId) (size start k : Nat) :
    ((sweep next size)^[k] (queued size start)).todo = [] ↔
      (reachable next size [start]).size ≤ k := by
  have hswept := (swept_queued next size start).iterate
  have hsize : (queued size start).todo.length = (queued size start).found.size := by
    rw [queued]
    split <;> rfl
  exact (takesOne_sweep next size).todo_iterate_eq_nil_iff hsize (fun k => (hswept k).sound)
    (fun k => (hswept k).found_eq) k

theorem found_sweep (next : StateId → List StateId) (size start : Nat) :
    ((sweep next size)^[(reachable next size [start]).size] (queued size start)).found =
      reachable next size [start] :=
  ((swept_queued next size start).iterate _).found_eq
    ((todo_sweep_eq_nil_iff next size start _).2 (Nat.le_refl _))

theorem reachable_eq_empty_iff : reachable next size [start] = ∅ ↔ size ≤ start := by
  constructor
  · intro hempty
    by_contra hstart
    have hself : start ∈ reachable next size [start] :=
      mem_reachable_iff_leads.2 ⟨Nat.lt_of_not_le hstart, .refl⟩
    rw [hempty] at hself
    exact SortedSet.not_mem_empty hself
  · intro hstart
    refine SortedSet.ext_mem fun i => iff_of_false (fun hi => ?_) SortedSet.not_mem_empty
    exact Nat.not_lt.2 hstart (mem_reachable_iff_leads.1 hi).1

end Nfa.Search

/-! ## The states of automata -/

open Nfa (Search)

/-- An edge from one state to another, whatever its label. -/
def Nfa.Linked (n : Nfa) (i j : StateId) : Prop :=
  i < n.size ∧ j < n.size ∧ ∃ label, n.Edge i label j

/-- A move from one state to another, whatever its character. -/
def Dfa.Linked (d : Dfa) (i j : StateId) : Prop :=
  i < d.size ∧ j < d.size ∧ ∃ c, d.next? i c = some j

/-- One step of the search for the states of `n`. -/
def Nfa.sweep (n : Nfa) : Search → Search :=
  Search.sweep (fun i => (n.edgesFrom i).map (·.2)) n.size

/-- One step of the search for the states of `d`. -/
def Dfa.sweep (d : Dfa) : Search → Search :=
  Search.sweep (fun i => (d.movesFrom i).map (·.2)) d.size

theorem Nfa.leads_eq_linked (n : Nfa) :
    Leads (fun i => (n.edgesFrom i).map (·.2)) n.size = n.Linked := by
  funext i j
  refine propext (Nfa.leads_iff.trans ⟨?_, ?_⟩)
  · rintro ⟨⟨label, hedge⟩, hj⟩
    exact ⟨hedge.lt_size, hj, label, hedge⟩
  · rintro ⟨-, hj, hedge⟩
    exact ⟨hedge, hj⟩

theorem Dfa.leads_eq_linked (d : Dfa) :
    Leads (fun i => (d.movesFrom i).map (·.2)) d.size = d.Linked := by
  funext i j
  refine propext (Dfa.leads_iff.trans ⟨?_, ?_⟩)
  · rintro ⟨c, hmove⟩
    obtain ⟨hnext, hj⟩ := Dfa.move?_eq_some_iff.1 hmove
    exact ⟨Dfa.lt_size_of_next? hnext, hj, c, hnext⟩
  · rintro ⟨-, hj, c, hnext⟩
    exact ⟨c, Dfa.move?_eq_some_iff.2 ⟨hnext, hj⟩⟩

/-- Whatever the automaton, its states are precisely those that can be reached from the start
along edges between states, and there are none precisely if the start is missing. A search
with a queue is over after as many steps as there are states, and not before, and has then
found the states. -/
theorem sweep_finds_states :
    (∀ n : Nfa,
      (∀ i, i ∈ n.states ↔ n.start < n.size ∧ ReflTransGen n.Linked n.start i) ∧
      (n.states = ∅ ↔ n.size ≤ n.start) ∧
      (∀ k, (n.sweep^[k] (.queued n.size n.start)).todo = [] ↔ n.states.size ≤ k) ∧
      (n.sweep^[n.states.size] (.queued n.size n.start)).found = n.states) ∧
    ∀ d : Dfa,
      (∀ i, i ∈ d.states ↔ 0 < d.size ∧ ReflTransGen d.Linked 0 i) ∧
      (d.states = ∅ ↔ d.size = 0) ∧
      (∀ k, (d.sweep^[k] (.queued d.size 0)).todo = [] ↔ d.states.size ≤ k) ∧
      (d.sweep^[d.states.size] (.queued d.size 0)).found = d.states := by
  refine ⟨fun n => ⟨fun i => ?_, Search.reachable_eq_empty_iff, ?_, ?_⟩,
    fun d => ⟨fun i => ?_, ?_, ?_, ?_⟩⟩
  · rw [← n.leads_eq_linked]
    exact Search.mem_reachable_iff_leads
  · exact Search.todo_sweep_eq_nil_iff _ _ _
  · exact Search.found_sweep _ _ _
  · rw [← d.leads_eq_linked]
    exact Search.mem_reachable_iff_leads
  · rw [← Nat.le_zero]
    exact Search.reachable_eq_empty_iff
  · exact Search.todo_sweep_eq_nil_iff _ _ _
  · exact Search.found_sweep _ _ _

end Regular
