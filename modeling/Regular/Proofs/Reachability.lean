import Mathlib.Logic.Relation
import Regular.Dfa

/-!
# The search finds what can be reached

`markReachable` is a depth-first search that marks a state when it first meets it. The two
halves of its correctness are inductions over the search itself: whatever it marks lies on a
way from the states still to be visited (`exists_way_of_marked`), and a search that has
marked a state has marked, or still has to visit, all of that state's successors
(`marked_closed`). The second half is an invariant of the search, not of its result: it
speaks of the states still to be visited too.

`mem_reachable_iff` combines the two; the states of a deterministic automaton
(`Dfa.mem_states_iff`) and the closure under silent edges (`Nfa.mem_closure_iff`) are
instances.
-/

namespace Regular

open Relation

/-! ## The marks of a search -/

/-- The state `i` has been marked. -/
def Marked (marks : Array Bool) (i : StateId) : Prop := marks.getD i false = true

theorem marked_set_iff {marks : Array Bool} {i j : StateId} (h : i < marks.size) :
    Marked (marks.set i true) j ↔ j = i ∨ Marked marks j := by
  simp only [Marked, Array.getD_eq_getD_getElem?, Array.getElem?_set]
  by_cases hij : i = j
  · simp [hij]
  · simp [hij, Ne.symm hij]

theorem Marked.lt_size {marks : Array Bool} {i : StateId} (h : Marked marks i) :
    i < marks.size := by
  refine Nat.lt_of_not_le fun hge => ?_
  simp [Marked, Nat.not_lt.2 hge] at h

/-- One edge further, to a state below `size`. -/
def Leads (next : StateId → List StateId) (size : Nat) (a b : StateId) : Prop :=
  b ∈ next a ∧ b < size

section Search

variable {next : StateId → List StateId}

theorem size_markReachable (marks : Array Bool) (todo : List StateId) :
    (markReachable next marks todo).size = marks.size := by
  fun_induction markReachable next marks todo with
  | case1 => rfl
  | case2 _ _ _ _ _ ih => exact ih
  | case3 _ _ _ _ _ ih => rw [ih, Array.size_set]
  | case4 _ _ _ _ ih => exact ih

theorem marked_markReachable {marks : Array Bool} {todo : List StateId} {i : StateId}
    (h : Marked marks i) : Marked (markReachable next marks todo) i := by
  fun_induction markReachable next marks todo with
  | case1 => exact h
  | case2 _ _ _ _ _ ih => exact ih h
  | case3 _ _ _ hj _ ih => exact ih ((marked_set_iff hj).2 (Or.inr h))
  | case4 _ _ _ _ ih => exact ih h

/-- Soundness of the search: a mark was there before, or its state lies on a way from a state
that was still to be visited. -/
theorem exists_way_of_marked {marks : Array Bool} {todo : List StateId} {i : StateId}
    (h : Marked (markReachable next marks todo) i) :
    Marked marks i ∨
      ∃ s ∈ todo, s < marks.size ∧ ReflTransGen (Leads next marks.size) s i := by
  fun_induction markReachable next marks todo with
  | case1 => exact Or.inl h
  | case2 marks j todo _ _ ih =>
      rcases ih h with hm | ⟨s, hs, hlt, hway⟩
      · exact Or.inl hm
      · exact Or.inr ⟨s, List.mem_cons_of_mem _ hs, hlt, hway⟩
  | case3 marks j todo hj _ ih =>
      rw [Array.size_set] at ih
      rcases ih h with hm | ⟨s, hs, hlt, hway⟩
      · rcases (marked_set_iff hj).1 hm with rfl | hm
        · exact Or.inr ⟨i, List.mem_cons_self .., hj, .refl⟩
        · exact Or.inl hm
      · rcases List.mem_append.1 hs with hs | hs
        · exact Or.inr ⟨j, List.mem_cons_self .., hj, .head ⟨hs, hlt⟩ hway⟩
        · exact Or.inr ⟨s, List.mem_cons_of_mem _ hs, hlt, hway⟩
  | case4 marks j todo _ ih =>
      rcases ih h with hm | ⟨s, hs, hlt, hway⟩
      · exact Or.inl hm
      · exact Or.inr ⟨s, List.mem_cons_of_mem _ hs, hlt, hway⟩

/-- All states still to be visited end up marked, as far as they exist. -/
theorem marked_of_mem_todo {marks : Array Bool} {todo : List StateId} {i : StateId}
    (hi : i ∈ todo) (hlt : i < marks.size) : Marked (markReachable next marks todo) i := by
  fun_induction markReachable next marks todo with
  | case1 => cases hi
  | case2 marks j todo hj hm ih =>
      rcases List.mem_cons.1 hi with rfl | hi
      · exact marked_markReachable (by simpa [Marked, hj] using hm)
      · exact ih hi hlt
  | case3 marks j todo hj _ ih =>
      rcases List.mem_cons.1 hi with rfl | hi
      · exact marked_markReachable ((marked_set_iff hj).2 (Or.inl rfl))
      · exact ih (List.mem_append_right _ hi) (by rwa [Array.size_set])
  | case4 marks j todo hj ih =>
      rcases List.mem_cons.1 hi with rfl | hi
      · exact absurd hlt hj
      · exact ih hi hlt

/-- Completeness of the search. The hypothesis is its invariant: a successor of a marked
state is marked or still to be visited. At the end nothing is left to be visited. -/
theorem marked_closed {marks : Array Bool} {todo : List StateId}
    (hinv : ∀ a b, Marked marks a → Leads next marks.size a b → Marked marks b ∨ b ∈ todo)
    {a b : StateId} (ha : Marked (markReachable next marks todo) a)
    (hab : Leads next marks.size a b) : Marked (markReachable next marks todo) b := by
  fun_induction markReachable next marks todo with
  | case1 => exact (hinv a b ha hab).resolve_right List.not_mem_nil
  | case2 marks j todo hj hm ih =>
      refine ih (fun x y hx hxy => ?_) ha hab
      rcases hinv x y hx hxy with h | h
      · exact Or.inl h
      · rcases List.mem_cons.1 h with rfl | h
        · exact Or.inl (by simpa [Marked, hj] using hm)
        · exact Or.inr h
  | case3 marks j todo hj _ ih =>
      rw [Array.size_set] at ih
      refine ih (fun x y hx hxy => ?_) ha hab
      rcases (marked_set_iff hj).1 hx with rfl | hx
      · exact Or.inr (List.mem_append_left _ hxy.1)
      · rcases hinv x y hx hxy with h | h
        · exact Or.inl ((marked_set_iff hj).2 (Or.inr h))
        · rcases List.mem_cons.1 h with rfl | h
          · exact Or.inl ((marked_set_iff hj).2 (Or.inl rfl))
          · exact Or.inr (List.mem_append_right _ h)
  | case4 marks j todo hj ih =>
      refine ih (fun x y hx hxy => ?_) ha hab
      rcases hinv x y hx hxy with h | h
      · exact Or.inl h
      · rcases List.mem_cons.1 h with rfl | h
        · exact absurd hxy.2 hj
        · exact Or.inr h

end Search

theorem not_marked_replicate (size : Nat) (i : StateId) :
    ¬Marked (Array.replicate size false) i := by
  simp only [Marked, Array.getD_eq_getD_getElem?, Array.getElem?_replicate]
  split <;> simp

theorem mem_reachable_iff_marked {next : StateId → List StateId} {size : Nat}
    {seeds : List StateId} {i : StateId} :
    i ∈ reachable next size seeds ↔
      Marked (markReachable next (Array.replicate size false) seeds) i := by
  rw [reachable, IdSet.mem_below]
  refine ⟨And.right, fun h => ⟨?_, h⟩⟩
  simpa only [size_markReachable, Array.size_replicate] using h.lt_size

/-- The states found are those on a way from a seed through existing states. -/
theorem mem_reachable_iff {next : StateId → List StateId} {size : Nat} {seeds : List StateId}
    {i : StateId} :
    i ∈ reachable next size seeds ↔
      ∃ s ∈ seeds, s < size ∧ ReflTransGen (Leads next size) s i := by
  have hsize : (Array.replicate size false).size = size := Array.size_replicate
  rw [mem_reachable_iff_marked]
  constructor
  · intro h
    have hway := exists_way_of_marked h
    rw [hsize] at hway
    exact hway.resolve_left (not_marked_replicate size i)
  · rintro ⟨s, hs, hlt, hway⟩
    induction hway with
    | refl => exact marked_of_mem_todo hs (by rwa [hsize])
    | tail _ hstep ih =>
        exact marked_closed (fun x _ hx => absurd hx (not_marked_replicate size x)) ih
          (by rwa [hsize])

end Regular
