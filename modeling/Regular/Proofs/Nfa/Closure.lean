import Mathlib.Data.List.Perm.Subperm
import Mathlib.Data.List.Permutation
import Mathlib.Order.Bounds.Basic
import Regular.Proofs.Nfa.Path

/-!
# The closure under silent edges, and a search for it

The closure of a set of numbers is the least set that has them and, with a state, the targets
of its silent edges (`Nfa.isLeast_closure`). So larger sets have larger closures, and the
closure of a union is the union of the closures.

It can be found with a stack (`Nfa.Search`): the state on top is looked at, and those targets
of its silent edges that were not found before are put on the stack. What the search keeps
(`Nfa.Search.Invariant`) is that all it found is on silent ways from the given numbers, and
that what was found and is no longer on the stack has its targets found. Each number is put
on the stack when it is found and at no other time, so the search is over after as many steps
as the closure has members (`Nfa.Search.todo_iterate_eq_nil_iff`), whatever cycles there are.
-/

namespace Regular

namespace SortedSet

variable {s t : IdSet} {i : StateId}

theorem nodup_toList (s : IdSet) : s.toList.Nodup := s.ascending.imp Nat.ne_of_lt

theorem size_insert (h : i ∉ s) : (s.insert i).size = s.size + 1 := by
  have hnodup : (i :: s.toList).Nodup := List.nodup_cons.2 ⟨h, s.nodup_toList⟩
  have hperm : (s.insert i).toList.Perm (i :: s.toList) :=
    (List.perm_ext_iff_of_nodup (nodup_toList _) hnodup).2 fun _ => mem_insertList.trans (by simp)
  exact hperm.length_eq

theorem size_le_of_subset (h : ∀ i ∈ s, i ∈ t) : s.size ≤ t.size :=
  (s.nodup_toList.subperm h).length_le

end SortedSet

namespace Nfa

variable {n : Nfa} {i j : StateId} {s t : IdSet}

/-! ## The least closed set -/

/-- With a state the set has the targets of its silent edges. -/
def Closed (n : Nfa) (t : Set StateId) : Prop := ∀ i ∈ t, ∀ j, n.Edge i none j → j ∈ t

theorem Closed.mem_of_silentWay {t : Set StateId} (h : n.Closed t) (hi : i ∈ t)
    (hway : n.SilentWay i j) : j ∈ t := by
  induction hway with
  | refl => exact hi
  | tail _ hedge ih => exact h _ ih _ hedge

theorem closed_closure (n : Nfa) (s : IdSet) : n.Closed {i | i ∈ n.closure s} := by
  intro i hi j hedge
  obtain ⟨k, hk, hway⟩ := mem_closure_iff.1 hi
  exact mem_closure_iff.2 ⟨k, hk, hway.tail hedge⟩

theorem isLeast_closure (n : Nfa) (s : IdSet) :
    IsLeast {t | {i | i ∈ s} ⊆ t ∧ n.Closed t} {i | i ∈ n.closure s} := by
  refine ⟨⟨fun i hi => mem_closure_of_mem hi, n.closed_closure s⟩, fun t ht i hi => ?_⟩
  obtain ⟨j, hj, hway⟩ := mem_closure_iff.1 hi
  exact ht.2.mem_of_silentWay (ht.1 hj) hway

theorem closure_mono (h : ∀ i ∈ s, i ∈ t) : ∀ i ∈ n.closure s, i ∈ n.closure t := by
  intro i hi
  obtain ⟨j, hj, hway⟩ := mem_closure_iff.1 hi
  exact mem_closure_iff.2 ⟨j, h j hj, hway⟩

theorem closure_union (n : Nfa) (s t : IdSet) :
    n.closure (s ∪ t) = n.closure s ∪ n.closure t := by
  refine SortedSet.ext_mem fun i => ?_
  simp only [SortedSet.mem_union, mem_closure_iff, or_and_right, exists_or]

/-! ## A search with a stack -/

/-- The numbers found so far, and those of them that are still to be looked at, from the top
of the stack down. -/
structure Search where
  found : IdSet
  todo : List StateId

namespace Search

variable {q : Search} {is : List StateId} {k : Nat}

/-- The given numbers are found, and put on the stack in ascending order. -/
def start (s : IdSet) : Search := ⟨s, s.toList.reverse⟩

/-- Puts a number on the stack, unless it was found before. -/
def find (q : Search) (i : StateId) : Search :=
  if i ∈ q.found then q else ⟨q.found.insert i, i :: q.todo⟩

/-- Looks at the number on top of the stack. Silent edges leave it only if it is that of a
state. -/
def step (n : Nfa) (q : Search) : Search :=
  match q.todo with
  | [] => q
  | i :: todo => (n.epsilonTargets i).foldl find ⟨q.found, todo⟩

theorem find_of_mem (h : i ∈ q.found) : q.find i = q := if_pos h

theorem find_of_notMem (h : i ∉ q.found) : q.find i = ⟨q.found.insert i, i :: q.todo⟩ := if_neg h

theorem mem_found_find : j ∈ (q.find i).found ↔ j = i ∨ j ∈ q.found := by
  by_cases h : i ∈ q.found
  · rw [find_of_mem h]
    exact ⟨Or.inr, fun hj => hj.elim (fun heq => heq ▸ h) id⟩
  · rw [find_of_notMem h, SortedSet.mem_insert]

theorem mem_found_foldl : j ∈ (is.foldl find q).found ↔ j ∈ is ∨ j ∈ q.found := by
  induction is generalizing q with
  | nil => simp
  | cons i is ih => rw [List.foldl_cons, ih, mem_found_find, List.mem_cons, or_left_comm, or_assoc]

theorem mem_todo_find : j ∈ (q.find i).todo ↔ j = i ∧ j ∉ q.found ∨ j ∈ q.todo := by
  by_cases h : i ∈ q.found
  · rw [find_of_mem h, or_iff_right fun hj => hj.2 (hj.1 ▸ h)]
  · rw [find_of_notMem h, List.mem_cons, and_iff_left_of_imp fun hj => hj ▸ h]

/-- What is put on the stack are the numbers that were not found before. -/
theorem mem_todo_foldl : j ∈ (is.foldl find q).todo ↔ j ∈ is ∧ j ∉ q.found ∨ j ∈ q.todo := by
  induction is generalizing q with
  | nil => simp
  | cons i is ih =>
      rw [List.foldl_cons, ih, mem_found_find, mem_todo_find, List.mem_cons]
      tauto

theorem size_find :
    (q.find i).found.size + q.todo.length = (q.find i).todo.length + q.found.size := by
  by_cases h : i ∈ q.found
  · rw [find_of_mem h, Nat.add_comm]
  · rw [find_of_notMem h, SortedSet.size_insert h, List.length_cons]
    omega

/-- With each number that is found the stack grows by one. -/
theorem size_foldl : (is.foldl find q).found.size + q.todo.length =
    (is.foldl find q).todo.length + q.found.size := by
  induction is generalizing q with
  | nil => exact Nat.add_comm _ _
  | cons i is ih =>
      have hrest := ih (q := q.find i)
      have hfind := size_find (q := q) (i := i)
      rw [List.foldl_cons]
      omega

theorem step_of_todo_eq_nil (h : q.todo = []) : q.step n = q := by
  rw [step, h]

theorem step_of_todo_eq_cons {todo : List StateId} (h : q.todo = i :: todo) :
    q.step n = (n.epsilonTargets i).foldl find ⟨q.found, todo⟩ := by
  rw [step, h]

/-! ### What a step keeps -/

/-- All that is found is on silent ways from `s`, and `s` is. What is on the stack is found.
What is found and no longer on the stack has the targets of its silent edges found. -/
structure Invariant (n : Nfa) (s : IdSet) (q : Search) : Prop where
  sound : ∀ i ∈ q.found, ∃ j ∈ s, n.SilentWay j i
  given : ∀ i ∈ s, i ∈ q.found
  found : ∀ i ∈ q.todo, i ∈ q.found
  looked : ∀ i ∈ q.found, i ∉ q.todo → ∀ j, n.Edge i none j → j ∈ q.found

theorem invariant_start (n : Nfa) (s : IdSet) : Invariant n s (start s) where
  sound i hi := ⟨i, hi, .refl⟩
  given _ hi := hi
  found _ hi := List.mem_reverse.1 hi
  looked _ hi hnot := absurd (List.mem_reverse.2 hi) hnot

theorem Invariant.step (h : Invariant n s q) : Invariant n s (q.step n) := by
  cases htodo : q.todo with
  | nil => rwa [step_of_todo_eq_nil htodo]
  | cons i todo =>
      have hfound := h.found
      have hlooked := h.looked
      rw [htodo] at hfound hlooked
      obtain ⟨hi, hrest⟩ := List.forall_mem_cons.1 hfound
      rw [step_of_todo_eq_cons htodo]
      refine ⟨fun j hj => ?_, fun j hj => ?_, fun j hj => ?_, fun k hk hnot j hedge => ?_⟩
      · rcases mem_found_foldl.1 hj with htarget | hj
        · obtain ⟨k, hk, hway⟩ := h.sound i hi
          exact ⟨k, hk, hway.tail (edge_none_iff.2 htarget)⟩
        · exact h.sound j hj
      · exact mem_found_foldl.2 (Or.inr (h.given j hj))
      · exact mem_found_foldl.2 ((mem_todo_foldl.1 hj).imp And.left (hrest j))
      · -- what is found in this step is on the stack, so `k` was found before
        rw [mem_todo_foldl, not_or, not_and_not_right] at hnot
        have hkfound : k ∈ q.found := (mem_found_foldl.1 hk).elim hnot.1 id
        rw [mem_found_foldl]
        by_cases hki : k = i
        · exact Or.inl (edge_none_iff.1 (hki ▸ hedge))
        · have hktodo : k ∉ i :: todo := List.not_mem_cons_of_ne_of_not_mem hki hnot.2
          exact Or.inr (hlooked k hkfound hktodo j hedge)

theorem Invariant.iterate (h : Invariant n s q) (k : Nat) :
    Invariant n s ((Search.step n)^[k] q) := by
  induction k with
  | zero => exact h
  | succ k ih =>
      rw [Function.iterate_succ_apply']
      exact ih.step

/-- A search that is over has found the closure. -/
theorem Invariant.found_eq (h : Invariant n s q) (htodo : q.todo = []) : q.found = n.closure s := by
  have hclosed : n.Closed {i | i ∈ q.found} := fun i hi =>
    h.looked i hi (htodo ▸ List.not_mem_nil)
  refine SortedSet.ext_mem fun i => ⟨fun hi => mem_closure_iff.2 (h.sound i hi), fun hi => ?_⟩
  exact (n.isLeast_closure s).2 ⟨h.given, hclosed⟩ hi

/-! ### How long it takes -/

/-- A step takes one number from the stack, if there is any. -/
theorem size_step (h : q.todo ≠ []) :
    (q.step n).found.size + q.todo.length = (q.step n).todo.length + q.found.size + 1 := by
  obtain ⟨i, todo, htodo⟩ := List.exists_cons_of_ne_nil h
  rw [step_of_todo_eq_cons htodo, htodo, List.length_cons, ← Nat.add_assoc, size_foldl]

/-- A step takes one number from the list, if there is any. -/
structure TakesOne (step : Search → Search) : Prop where
  rests : ∀ q, q.todo = [] → step q = q
  one : ∀ q, q.todo ≠ [] →
    (step q).found.size + q.todo.length = (step q).todo.length + q.found.size + 1

theorem takesOne_step (n : Nfa) : TakesOne (step n) where
  rests _ := step_of_todo_eq_nil
  one _ := size_step

/-- As many numbers were looked at as steps were made, as long as there were any left. -/
theorem TakesOne.size_iterate {step : Search → Search} (h : TakesOne step)
    (hsize : q.todo.length = q.found.size) (k : Nat) :
    (step^[k] q).found.size ≤ (step^[k] q).todo.length + k ∧
      ((step^[k] q).todo ≠ [] → (step^[k] q).found.size = (step^[k] q).todo.length + k) := by
  induction k with
  | zero => exact ⟨Nat.le_of_eq hsize.symm, fun _ => hsize.symm⟩
  | succ k ih =>
      rw [Function.iterate_succ_apply']
      generalize step^[k] q = p at ih ⊢
      by_cases htodo : p.todo = []
      · rw [h.rests p htodo]
        exact ⟨Nat.le_succ_of_le ih.1, fun hne => absurd htodo hne⟩
      · have hstep := h.one p htodo
        have hfound := ih.2 htodo
        omega

/-- A search that finds nothing outside of `t`, and is over only if it has found all of it,
is over after as many steps as `t` has members, and not before. -/
theorem TakesOne.todo_iterate_eq_nil_iff {step : Search → Search} (h : TakesOne step)
    (hsize : q.todo.length = q.found.size) (hsub : ∀ k, ∀ i ∈ (step^[k] q).found, i ∈ t)
    (hover : ∀ k, (step^[k] q).todo = [] → (step^[k] q).found = t) (k : Nat) :
    (step^[k] q).todo = [] ↔ t.size ≤ k := by
  obtain ⟨hle, hlooked⟩ := h.size_iterate hsize k
  constructor
  · intro htodo
    rw [hover k htodo, htodo] at hle
    simpa using hle
  · intro hk
    by_contra htodo
    have hfound := SortedSet.size_le_of_subset (hsub k)
    have hpos := List.length_pos_iff.2 htodo
    have heq := hlooked htodo
    omega

/-- The search is over after as many steps as the closure has members, and not before. -/
theorem todo_iterate_eq_nil_iff (n : Nfa) (s : IdSet) (k : Nat) :
    ((step n)^[k] (start s)).todo = [] ↔ (n.closure s).size ≤ k := by
  have hinv := (invariant_start n s).iterate
  have hsize : (start s).todo.length = (start s).found.size := List.length_reverse
  refine (takesOne_step n).todo_iterate_eq_nil_iff hsize (fun k i hi => ?_) (fun k => ?_) k
  · exact mem_closure_iff.2 ((hinv k).sound i hi)
  · exact (hinv k).found_eq

theorem found_iterate (n : Nfa) (s : IdSet) (hk : (n.closure s).size ≤ k) :
    ((step n)^[k] (start s)).found = n.closure s :=
  ((invariant_start n s).iterate k).found_eq ((todo_iterate_eq_nil_iff n s k).2 hk)

end Search

/-- The closure of any numbers, whether or not there are states of these numbers, has
precisely what silent ways lead to from them. It is the least set with the numbers that is
closed under silent edges, it is its own closure, larger sets have larger closures, and the
closure of a union is the union of the closures. A search that looks at one number after the
other is over after as many steps as the closure has members, and not before, and has then
found the closure. -/
theorem search_finds_closure (n : Nfa) (s : IdSet) :
    (∀ i, i ∈ n.closure s ↔ ∃ j ∈ s, n.SilentWay j i) ∧
    IsLeast {t | {i | i ∈ s} ⊆ t ∧ n.Closed t} {i | i ∈ n.closure s} ∧
    n.closure (n.closure s) = n.closure s ∧
    (∀ t : IdSet, (∀ i ∈ s, i ∈ t) → ∀ i ∈ n.closure s, i ∈ n.closure t) ∧
    (∀ t, n.closure (s ∪ t) = n.closure s ∪ n.closure t) ∧
    ∀ k, (((Search.step n)^[k] (.start s)).todo = [] ↔ (n.closure s).size ≤ k) ∧
      ((n.closure s).size ≤ k → ((Search.step n)^[k] (.start s)).found = n.closure s) :=
  ⟨fun _ => mem_closure_iff, n.isLeast_closure s, n.closure_closure s, fun _ => closure_mono,
    n.closure_union s, fun k => ⟨Search.todo_iterate_eq_nil_iff n s k, Search.found_iterate n s⟩⟩

/-- Two states on a silent cycle, one of them with a silent edge to the missing 7. -/
theorem search_finds_closure_cycle : ∃ n : Nfa, n.size = 2 ∧
    n.Edge 0 none 1 ∧ n.Edge 1 none 0 ∧ n.Edge 1 none 7 ∧
    (n.closure (.singleton 0)).toList = [0, 1, 7] ∧
    ((Search.step n)^[2] (.start (.singleton 0))).todo ≠ [] ∧
    ((Search.step n)^[3] (.start (.singleton 0))).todo = [] ∧
    ((Search.step n)^[3] (.start (.singleton 0))).found = n.closure (.singleton 0) ∧
    ∀ i ∈ n.closure (.singleton 0), i ∈ n.closure (.singleton 0 ∪ .singleton 5) := by
  let pair := (empty.addNode false).addNode false
  let n := ((pair.connect 0 1 none).connect 1 0 none).connect 1 7 none
  obtain ⟨-, -, -, hmono, -, hsearch⟩ := search_finds_closure n (.singleton 0)
  have hclosure : (n.closure (.singleton 0)).toList = [0, 1, 7] := by cbv
  have hsize : (n.closure (.singleton 0)).size = 3 := congrArg List.length hclosure
  have hedges : n.edgesFrom 0 = [(none, 1)] ∧ n.edgesFrom 1 = [(none, 0), (none, 7)] := ⟨rfl, rfl⟩
  refine ⟨n, rfl, ?_, ?_, ?_, hclosure, fun htodo => ?_, (hsearch 3).1.2 (Nat.le_of_eq hsize),
    (hsearch 3).2 (Nat.le_of_eq hsize), hmono _ fun i hi => SortedSet.mem_union.2 (Or.inl hi)⟩
  · rw [Edge, hedges.1]
    decide
  · rw [Edge, hedges.2]
    decide
  · rw [Edge, hedges.2]
    decide
  · have hlate := (hsearch 2).1.1 htodo
    rw [hsize] at hlate
    exact absurd hlate (by decide)

end Nfa

end Regular
