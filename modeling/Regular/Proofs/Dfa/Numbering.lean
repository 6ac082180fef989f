import Mathlib.Data.List.Shortlex
import Regular.Proofs.Dfa.Subset
import Regular.Proofs.Dfa.Walk

/-!
# Breadth-first numbers are shortlex numbers

Words are compared by length first and then by their characters. When states are numbered as
they are met (`Dfa.Searched`), their numbers are in the order of the earliest words that lead
to the states (`Dfa.Searched.ordered`). The automaton of the sets of states of another one is
numbered in this way (`Subset.Determinizes.searched`).

A name is built along first moves: the state `j` is first met from `p` by `c`, so its name is
that of `p` followed by `c` (`Dfa.Name`). That names grow with the numbers is an induction
over the construction of the larger name; that a name is least is an induction over the other
word, from its end, where the move that ends it cannot come before the first move.
-/

namespace Regular

/-! ## The order of words -/

/-- Shorter words come first, and words of one length in the order of their characters. -/
def Earlier (u v : List Char) : Prop := List.Shortlex (· < ·) u v

namespace Earlier

variable {u v w : List Char} {a b : Char}

theorem irrefl (u : List Char) : ¬Earlier u u := by
  intro h
  rcases List.shortlex_def.1 h with hlt | ⟨-, hlex⟩
  · exact Nat.lt_irrefl _ hlt
  · exact List.lt_irrefl u hlex

theorem trans (h : Earlier u v) (h' : Earlier v w) : Earlier u w := by
  refine List.shortlex_def.2 ?_
  rcases List.shortlex_def.1 h with hlt | ⟨heq, hlex⟩ <;>
    rcases List.shortlex_def.1 h' with hlt' | ⟨heq', hlex'⟩
  · exact Or.inl (by omega)
  · exact Or.inl (by omega)
  · exact Or.inl (by omega)
  · exact Or.inr ⟨heq.trans heq', List.lt_trans hlex hlex'⟩

theorem nil_append_singleton (u : List Char) (a : Char) : Earlier [] (u ++ [a]) :=
  List.Shortlex.of_length_lt (by simp)

/-- Words of one length compare before anything that is put behind them does. -/
theorem lex_append (hlen : u.length = v.length) (h : List.Lex (· < ·) u v) :
    List.Lex (· < ·) (u ++ [a]) (v ++ [b]) := by
  induction h with
  | nil => simp at hlen
  | cons _ ih => exact .cons (ih (Nat.succ.inj hlen))
  | rel hab => exact .rel hab

theorem append_singleton (h : Earlier u v) : Earlier (u ++ [a]) (v ++ [b]) := by
  refine List.shortlex_def.2 ?_
  simp only [List.length_append, List.length_singleton]
  rcases List.shortlex_def.1 h with hlt | ⟨heq, hlex⟩
  · exact Or.inl (by omega)
  · exact Or.inr ⟨by omega, lex_append heq hlex⟩

theorem append_singleton_of_lt (u : List Char) (h : a < b) : Earlier (u ++ [a]) (u ++ [b]) :=
  List.Shortlex.append_left ((List.shortlex_singleton_iff a b).2 h) u

end Earlier

namespace Dfa

open Subset (Before before_or_eq_or_before)

variable {d : Dfa} {i j p q : Nat} {c : Char} {u w : List Char}

/-! ## Names -/

/-- The state `j` is first met as the target of the move of `p` by `c`: the moves before that
one, those of lower states and those of `p` by lower characters, lead to lower states. -/
structure FirstMove (d : Dfa) (j p : Nat) (c : Char) : Prop where
  lt : p < j
  move : d.move? p c = some j
  earlier : ∀ q a i, Before q a p c → d.move? q a = some i → i < j

/-- States are numbered in the order in which a breadth-first search meets them. -/
def Searched (d : Dfa) : Prop := ∀ j < d.size, 0 < j → ∃ p c, d.FirstMove j p c

/-- The word along the first moves that lead to a state. -/
inductive Name (d : Dfa) : Nat → List Char → Prop
  | start : Name d 0 []
  | step {j p : Nat} {c : Char} {u : List Char} :
      d.FirstMove j p c → Name d p u → Name d j (u ++ [c])

theorem Searched.exists_name (h : d.Searched) (hj : j < d.size) : ∃ w, d.Name j w := by
  induction j using Nat.strongRecOn with
  | ind j ih =>
      rcases Nat.eq_zero_or_pos j with rfl | hpos
      · exact ⟨[], .start⟩
      · obtain ⟨p, c, hfirst⟩ := h j hj hpos
        obtain ⟨u, hu⟩ := ih p hfirst.lt (Nat.lt_trans hfirst.lt hj)
        exact ⟨u ++ [c], .step hfirst hu⟩

theorem Name.walk (h : d.Name j w) : d.walk? 0 w = some j := by
  induction h with
  | start => rfl
  | step hfirst _ ih =>
      exact walk?_append_eq_some_iff.2 ⟨_, ih, walk?_cons_eq_some_iff.2 ⟨_, hfirst.move, rfl⟩⟩

/-- No move to a state comes before the first one. -/
theorem FirstMove.eq_or_before {a : Char} (hj : d.FirstMove j p c) (h : d.move? q a = some j) :
    (p = q ∧ c = a) ∨ Before p c q a := by
  rcases before_or_eq_or_before q a p c with hbefore | ⟨rfl, rfl⟩ | hbefore
  · exact absurd (hj.earlier q a j hbefore h) (Nat.lt_irrefl j)
  · exact Or.inl ⟨rfl, rfl⟩
  · exact Or.inr hbefore

/-- First moves are in the order of their targets. -/
theorem FirstMove.before {a : Char} (hi : d.FirstMove i q a) (hj : d.FirstMove j p c)
    (hij : i < j) : Before q a p c := by
  rcases before_or_eq_or_before q a p c with hbefore | ⟨rfl, rfl⟩ | hbefore
  · exact hbefore
  · have heq := hi.move.symm.trans hj.move
    exact absurd (Option.some.inj heq) (Nat.ne_of_lt hij)
  · exact absurd (hi.earlier p c j hbefore hj.move) (Nat.lt_asymm hij)

/-- Names of one state are one word. -/
theorem Name.unique (h : d.Name j u) (h' : d.Name j w) : u = w := by
  induction h generalizing w with
  | start =>
      cases h' with
      | start => rfl
      | step hfirst _ => exact absurd hfirst.lt (Nat.not_lt_zero _)
  | @step j p c u hfirst _ ih =>
      cases h' with
      | start => exact absurd hfirst.lt (Nat.not_lt_zero _)
      | @step _ q a v hfirst' hname' =>
          have hsame : p = q ∧ c = a := by
            rcases hfirst.eq_or_before hfirst'.move with heq | hbefore
            · exact heq
            · exact absurd (hfirst'.earlier p c j hbefore hfirst.move) (Nat.lt_irrefl j)
          obtain ⟨rfl, rfl⟩ := hsame
          rw [ih hname']

/-- Names grow with the numbers. -/
theorem Name.earlier (hi : d.Name i u) (hj : d.Name j w) (hij : i < j) : Earlier u w := by
  induction hj generalizing i u with
  | start => exact absurd hij (Nat.not_lt_zero i)
  | @step j p c v hfirst hname ih =>
      cases hi with
      | start => exact Earlier.nil_append_singleton v c
      | @step _ q a u hfirst' hname' =>
          rcases hfirst'.before hfirst hij with hlt | ⟨rfl, hac⟩
          · exact (ih hname' hlt).append_singleton
          · rw [hname'.unique hname]
            exact Earlier.append_singleton_of_lt v hac

/-- A name comes before all other words that lead to its state. -/
theorem Name.least (h : d.Searched) (hpos : 0 < d.size) (hj : d.Name j w)
    (hu : d.walk? 0 u = some j) : w = u ∨ Earlier w u := by
  induction u using List.reverseRecOn generalizing j w with
  | nil =>
      obtain rfl := Option.some.inj hu
      exact Or.inl (hj.unique .start)
  | append_singleton u a ih =>
      obtain ⟨q, hq, hlast⟩ := walk?_append_eq_some_iff.1 hu
      obtain ⟨_, hmove, hend⟩ := walk?_cons_eq_some_iff.1 hlast
      obtain rfl := Option.some.inj hend
      obtain ⟨v, hv⟩ := h.exists_name (walk?_lt_size hpos hq)
      cases hj with
      | start => exact Or.inr (Earlier.nil_append_singleton u a)
      | @step _ p c w hfirst hname =>
          -- the move that ends the other word does not come before the first move
          rcases hfirst.eq_or_before hmove with ⟨rfl, rfl⟩ | hlt | ⟨rfl, hca⟩
          · rcases ih hname hq with rfl | hwu
            · exact Or.inl rfl
            · exact Or.inr hwu.append_singleton
          · have hwv := hname.earlier hv hlt
            rcases ih hv hq with rfl | hvu
            · exact Or.inr hwv.append_singleton
            · exact Or.inr (hwv.trans hvu).append_singleton
          · rcases ih hname hq with rfl | hwu
            · exact Or.inr (Earlier.append_singleton_of_lt w hca)
            · exact Or.inr hwu.append_singleton

/-! ## States in the order of their earliest words -/

/-- Of all words that lead to `j`, the word `w` comes first. -/
structure EarliestWord (d : Dfa) (j : Nat) (w : List Char) : Prop where
  walk : d.walk? 0 w = some j
  least : ∀ u, d.walk? 0 u = some j → w = u ∨ Earlier w u

/-- Words lead to all states, and the earliest of them are in the order of the states. -/
structure Ordered (d : Dfa) : Prop where
  exists_word : ∀ j < d.size, ∃ w, d.EarliestWord j w
  earlier : ∀ i j u w, i < j → d.EarliestWord i u → d.EarliestWord j w → Earlier u w

theorem EarliestWord.unique (h : d.EarliestWord j u) (h' : d.EarliestWord j w) : u = w := by
  rcases h.least w h'.walk with heq | huw
  · exact heq
  · rcases h'.least u h.walk with heq | hwu
    · exact heq.symm
    · exact absurd (huw.trans hwu) (Earlier.irrefl u)

theorem Searched.ordered (h : d.Searched) (hpos : 0 < d.size) : d.Ordered := by
  have hearliest : ∀ {j w}, d.Name j w → d.EarliestWord j w := fun hname =>
    ⟨hname.walk, fun u hu => hname.least h hpos hu⟩
  refine ⟨fun j hj => ?_, fun i j u w hij hi hj => ?_⟩
  · obtain ⟨w, hw⟩ := h.exists_name hj
    exact ⟨w, hearliest hw⟩
  · have hjsize := walk?_lt_size hpos hj.walk
    obtain ⟨u', hu'⟩ := h.exists_name (Nat.lt_trans hij hjsize)
    obtain ⟨w', hw'⟩ := h.exists_name hjsize
    rw [hi.unique (hearliest hu'), hj.unique (hearliest hw')]
    exact hu'.earlier hw' hij

end Dfa

/-! ## The automaton of the sets -/

namespace Subset.Determinizes

variable {n : Nfa} {sets : Array IdSet} {d : Dfa}

theorem next?_lt_size (h : Determinizes n sets d) {i j : Nat} {c : Char}
    (hij : d.next? i c = some j) : j < d.size := by
  obtain ⟨s, hs⟩ := h.exists_set (Dfa.lt_size_of_next? hij)
  rw [h.size]
  exact lt_size ((h.next?_eq_some_iff hs).1 hij).2

theorem move?_eq_next? (h : Determinizes n sets d) (i : Nat) (c : Char) :
    d.move? i c = d.next? i c := by
  refine Option.ext fun j => ?_
  rw [Dfa.move?_eq_some_iff, and_iff_left_of_imp h.next?_lt_size]

theorem size_pos (h : Determinizes n sets d) : 0 < d.size := by
  rw [h.size]
  exact lt_size h.first

theorem searched (h : Determinizes n sets d) : d.Searched := by
  intro j hj hpos
  rw [h.size] at hj
  obtain ⟨p, c, hmet⟩ := h.met j hj hpos
  obtain ⟨s, hp, hstep⟩ := hmet.step
  refine ⟨p, c, hmet.lt, ?_, fun q a i hbefore hmove => ?_⟩
  · rw [h.move?_eq_next?, h.next?_eq_some_iff hp]
    exact ⟨h.nonempty j _ hstep, hstep⟩
  · rw [h.move?_eq_next?] at hmove
    obtain ⟨t, ht⟩ := h.exists_set (Dfa.lt_size_of_next? hmove)
    obtain ⟨hne, hi⟩ := (h.next?_eq_some_iff ht).1 hmove
    obtain ⟨j', hj', hlower⟩ := hmet.earlier q a t hbefore ht hne
    rw [h.injective i j' _ hi hlower]
    exact hj'

/-- Each state is the set in which some run of the other automaton ends. -/
theorem exists_statesAfter (h : Determinizes n sets d) {j : Nat} (hj : j < d.size) :
    ∃ u, sets[j]? = some (n.statesAfter n.initial u) := by
  obtain ⟨u, hu⟩ := h.searched.exists_name hj
  exact ⟨u, (h.runFrom?_eq_some_iff h.first).1 (Dfa.runFrom?_of_walk? hu.walk)⟩

/-- If the other automaton has no dead states, there are none. -/
theorem live (h : Determinizes n sets d)
    (hlive : ∀ i u, n.Path n.start u i → ∃ w k, n.Path i w k ∧ n.isFinal k = true)
    {j : Nat} (hj : j < d.size) : ∃ w, d.acceptsFrom j w = true := by
  obtain ⟨u, hu⟩ := h.exists_statesAfter hj
  obtain ⟨i, hi⟩ := SortedSet.exists_mem_of_ne_empty (h.nonempty j _ hu)
  obtain ⟨w, k, hpath, hfinal⟩ := hlive i u (Nfa.mem_statesAfter_initial_iff.1 hi)
  refine ⟨w, ?_⟩
  rw [h.acceptsFrom_eq hu, Nfa.acceptsFrom_eq, ← Nfa.statesAfter_append,
    Nfa.containsFinal_eq_true_iff]
  have hstart := Nfa.mem_statesAfter_initial_iff.1 hi
  exact ⟨k, Nfa.mem_statesAfter_initial_iff.2 (hstart.append hpath), hfinal⟩

end Subset.Determinizes

end Regular
