import Regular.Proofs.Dfa.Subset

/-!
# Determinizing keeps the language

The automaton of the sets of states accepts what the automaton it is made from accepts
(`Nfa.toDfa_accepts`), whatever that one looks like: it may have silent cycles, several final
states, edges that dangle, states on no way from the start, a start that is no state, or no
states.

A set is followed for the characters that can be read in some state of it. This comes to the
same as trying the whole alphabet, the characters that can be read in states on a way from
the start, in every set (`Nfa.toDfaWith_alphabet`). The sets may hold numbers that no state
has, but nothing can be read there; and the states in them are on ways from the start
(`Subset.Invariant.exists_path`), so what can be read in a set is in the alphabet. For the
other characters of the alphabet the step is empty, and such steps leave no trace
(`Subset.follow_filter`).
-/

namespace Regular

namespace Subset

variable {n : Nfa} {limit : Option Nat} {r r' : Registry} {s : IdSet} {i j k : StateId} {c : Char}
  {w : List Char}

/-! ## What can be read in a set is in the alphabet -/

/-- A set that is met holds nothing but ends of paths from the start. -/
theorem Invariant.exists_path {done : Char → Prop} (hinv : Invariant n r k done)
    (hi : r.sets[i]? = some s) (hj : j ∈ s) : ∃ w, n.Path n.start w j := by
  induction i using Nat.strongRecOn generalizing s j with
  | ind i ih =>
      rcases Nat.eq_zero_or_pos i with rfl | hpos
      · rw [hinv.first] at hi
        obtain rfl := Option.some.inj hi
        exact ⟨[], Nfa.mem_statesAfter_initial_iff.1 hj⟩
      · obtain ⟨p, c, hmet⟩ := hinv.met i (lt_size hi) hpos
        obtain ⟨t, hp, ht⟩ := hmet.step
        rw [ht] at hi
        obtain rfl := Option.some.inj hi
        obtain ⟨a, ha, b, hedge, hway⟩ := Nfa.mem_step_iff.1 hj
        obtain ⟨w, hw⟩ := ih p hmet.lt hp ha
        exact ⟨w ++ [c], hw.append (.read hedge (hway.path (.nil j)))⟩

theorem alphabet_eq (n : Nfa) : n.alphabet = symbols n n.states := rfl

theorem mem_alphabet_of_mem_symbols (hs : ∀ i ∈ s, ∃ w, n.Path n.start w i)
    (hc : c ∈ symbols n s) : c ∈ n.alphabet := by
  obtain ⟨i, hi, t, node, hnode, hget⟩ := mem_symbols_iff.1 hc
  have hlt : i < n.size := (Array.getElem?_eq_some_iff.1 hnode).1
  rw [alphabet_eq]
  exact mem_symbols_iff.2 ⟨i, Nfa.mem_states_iff.2 ⟨hlt, hs i hi⟩, t, node, hnode, hget⟩

/-! ## The whole alphabet in every set -/

/-- Characters for which the step is empty are passed over. -/
theorem follow_filter (n : Nfa) (limit : Option Nat) (k : StateId) (s : IdSet) (cs : List Char)
    (r : Registry) :
    follow n limit k s (cs.filter fun c => !(n.step s c).isEmpty) r = follow n limit k s cs r := by
  induction cs generalizing r with
  | nil => rfl
  | cons c cs ih =>
      cases hempty : (n.step s c).isEmpty with
      | true =>
          rw [List.filter_cons_of_neg (by simp [hempty]), ih]
          simp only [follow, hempty, if_true]
      | false =>
          rw [List.filter_cons_of_pos (by simp [hempty])]
          simp only [follow, hempty, ih]

/-- Following a set for the whole alphabet is following it for what can be read in it. -/
theorem follow_alphabet (hs : ∀ i ∈ s, ∃ w, n.Path n.start w i) :
    follow n limit k s n.alphabet.toList r = follow n limit k s (symbols n s).toList r := by
  have hsame : (n.alphabet.filter fun c => !(n.step s c).isEmpty) =
      (symbols n s).filter fun c => !(n.step s c).isEmpty := by
    refine SortedSet.ext_mem fun c => ?_
    simp only [SortedSet.mem_filter, Bool.not_eq_true', and_congr_left_iff]
    intro hne
    constructor
    · intro _
      by_contra hnot
      rw [step_eq_empty hnot] at hne
      cases hne
    · exact mem_alphabet_of_mem_symbols hs
  rw [← follow_filter, ← SortedSet.toList_filter, hsame, SortedSet.toList_filter, follow_filter]

/-- `explore`, but with the same characters for every set. -/
def exploreWith (n : Nfa) (limit : Option Nat) (cs : List Char) :
    Nat → Registry → Array Dfa.Node → Except (Array Event) (Registry × Array Dfa.Node)
  | 0, r, nodes => .ok (r, nodes)
  | fuel + 1, r, nodes =>
    match r.sets[nodes.size]? with
    | none => .ok (r, nodes)
    | some s => do
      let (r, moves) ← follow n limit nodes.size s cs r
      exploreWith n limit cs fuel r (nodes.push ⟨n.containsFinal s, .ofList moves, some s⟩)

theorem Invariant.exploreWith_eq {fuel : Nat} {nodes : Array Dfa.Node}
    (hinv : Invariant n r nodes.size fun _ => False) :
    exploreWith n limit n.alphabet.toList fuel r nodes = Subset.explore n limit fuel r nodes := by
  induction fuel generalizing r nodes with
  | zero => rfl
  | succ fuel ih =>
      rw [exploreWith, Subset.explore]
      cases hs : r.sets[nodes.size]? with
      | none => rfl
      | some s =>
          simp only [follow_alphabet fun i hi => hinv.exists_path hs hi]
          cases hfollow : Subset.follow n limit nodes.size s (symbols n s).toList r with
          | error events => rfl
          | ok p => exact ih (hinv.next_push hs hfollow _)

end Subset

namespace Nfa

/-- `toDfaObserved`, but with the same characters for every set. -/
def toDfaWith (n : Nfa) (limit : Option Nat) (cs : List Char) :
    Observed (Except LimitExceeded Dfa) :=
  let run := do
    let (r, _) ← Subset.Registry.empty.locate n limit n.initial
    Subset.exploreWith n limit cs (Subset.bound n) r #[]
  match run with
  | .ok (r, nodes) => ⟨r.events.toList, .ok ⟨nodes⟩⟩
  | .error events => ⟨events.toList, .error ⟨limit.getD 0⟩⟩

/-- The construction, which takes what can be read in a set, makes the same states with the
same numbers, reports the same events and stops at the same ceiling as one that takes the
whole alphabet for every set. -/
theorem toDfaWith_alphabet (n : Nfa) (limit : Option Nat) :
    n.toDfaWith limit n.alphabet.toList = n.toDfaObserved limit := by
  rw [toDfaWith, toDfaObserved]
  cases hlocate : Subset.Registry.empty.locate n limit n.initial with
  | error events => rfl
  | ok p =>
      have hinv : Subset.Invariant n p.1 (#[] : Array Dfa.Node).size fun _ => False :=
        Subset.invariant_initial hlocate
      have hrun : Subset.exploreWith n limit n.alphabet.toList (Subset.bound n) p.1 #[] =
          Subset.explore n limit (Subset.bound n) p.1 #[] := hinv.exploreWith_eq
      simp only [bind, Except.bind]
      exact hrun ▸ rfl

/-! ## The language -/

/-- The automaton of the sets is what the construction without a ceiling ends in. -/
theorem toDfaObserved_none (n : Nfa) : (n.toDfaObserved none).result = .ok n.toDfa := by
  obtain ⟨d, hd⟩ := Subset.exists_toDfaObserved n
  rw [toDfa, hd]

/-- Every nondeterministic automaton and the automaton of its sets give one verdict on every
input.
-/
theorem toDfa_accepts (n : Nfa) (input : String) : n.toDfa.accepts input = n.accepts input := by
  obtain ⟨sets, hsets⟩ := Subset.exists_determinizes n.toDfaObserved_none
  exact hsets.accepts_eq input

end Nfa

end Regular
