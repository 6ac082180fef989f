import Regular.Proofs.Compile
import Regular.Proofs.Dfa.Export
import Regular.Proofs.Dfa.Origin

/-!
# Exporting an automaton and determinizing it again

Where a deterministic automaton is in the state `q`, the exported one is in `q` and, if `q`
is final, in the new state as well (`Dfa.exported`). As nothing is read in the new state, a
step from this set leads to the set of the target of the move of `q`, or nowhere
(`Dfa.step_exported_of_some`, `Dfa.step_exported_of_none`). So the construction meets the
sets of the states on ways from the start and no others: the one half is an induction along
the moves by which sets are first met, the other one along the moves of the given automaton.
The result is the given automaton, as far as it is reached, under other numbers
(`Dfa.isomorphism_toNfa_toDfa`).

An isomorphism takes earliest words to earliest words. If both automata have their states in
the order of these words, it goes up with the numbers and therefore leaves them as they are
(`Dfa.Isomorphism.eq_self`). The states of the automaton of sets always have this order, and
the minimal automaton of an expression has it too, so exporting that one and determinizing it
again gives the same table.
-/

namespace Regular.Dfa

variable {d e : Dfa} {f : StateId → StateId} {i j k l q t : Nat} {c : Char} {w : List Char}

/-! ## Isomorphisms -/

/-- The function takes the states of `e` one to one to the states of `d` on ways from the
start. It takes the start to the start, a state to one of the same finality, and moves to
moves. -/
structure Isomorphism (e d : Dfa) (f : StateId → StateId) : Prop where
  closed : ∀ k c l, e.next? k c = some l → l < e.size
  bijOn : Set.BijOn f {k | k < e.size} {q | q ∈ d.states}
  start : f 0 = 0
  final : ∀ k < e.size, e.isFinal k = d.isFinal (f k)
  next : ∀ k < e.size, ∀ c, (e.next? k c).map f = d.next? (f k) c

namespace Isomorphism

theorem mem_states (h : e.Isomorphism d f) (hk : k < e.size) : f k ∈ d.states := h.bijOn.mapsTo hk

theorem map_move? (h : e.Isomorphism d f) (hk : k < e.size) (c : Char) :
    (e.move? k c).map f = d.move? (f k) c := by
  rw [move?, move?, ← h.next k hk]
  cases hnext : e.next? k c with
  | none => rfl
  | some l =>
      have hl := h.closed k c l hnext
      have hfl := lt_size_of_mem_states (h.mem_states hl)
      rw [Option.filter_some_pos (by simpa using hl), Option.map_some,
        Option.filter_some_pos (by simpa using hfl)]

theorem map_walk? (h : e.Isomorphism d f) (hk : k < e.size) (w : List Char) :
    (e.walk? k w).map f = d.walk? (f k) w := by
  induction w generalizing k with
  | nil => rfl
  | cons c w ih =>
      rw [walk?, walk?, ← h.map_move? hk]
      cases hmove : e.move? k c with
      | none => rfl
      | some l => exact ih (move?_eq_some_iff.1 hmove).2

/-- The same words lead to a state and to that to which it is taken. -/
theorem walk?_zero_iff (h : e.Isomorphism d f) (hk : k < e.size) :
    d.walk? 0 w = some (f k) ↔ e.walk? 0 w = some k := by
  have hpos := Nat.zero_lt_of_lt hk
  have hmap := h.map_walk? hpos w
  rw [h.start] at hmap
  rw [← hmap, Option.map_eq_some_iff]
  constructor
  · rintro ⟨l, hl, heq⟩
    rw [hl, h.bijOn.injOn (walk?_lt_size hpos hl) hk heq]
  · intro hw
    exact ⟨k, hw, rfl⟩

theorem earliestWord_iff (h : e.Isomorphism d f) (hk : k < e.size) :
    d.EarliestWord (f k) w ↔ e.EarliestWord k w := by
  constructor <;> intro hw
  · exact ⟨(h.walk?_zero_iff hk).1 hw.walk, fun u hu => hw.least u ((h.walk?_zero_iff hk).2 hu)⟩
  · exact ⟨(h.walk?_zero_iff hk).2 hw.walk, fun u hu => hw.least u ((h.walk?_zero_iff hk).1 hu)⟩

/-- Between automata in the order of earliest words, isomorphisms are monotone. -/
theorem lt_of_lt (h : e.Isomorphism d f) (he : e.Ordered) (hd : d.Ordered) (hl : l < e.size)
    (hkl : k < l) : f k < f l := by
  have hk := Nat.lt_trans hkl hl
  obtain ⟨u, hu⟩ := he.exists_word k hk
  obtain ⟨w, hw⟩ := he.exists_word l hl
  exact (hd.lt_iff ((h.earliestWord_iff hk).2 hu) ((h.earliestWord_iff hl).2 hw)).2
    (he.earlier k l u w hkl hu hw)

/-- Between automata in the order of earliest words, isomorphisms keep the numbers: the lower
ones are used up by lower states, and the number itself by none above, as the function is
monotone. -/
theorem eq_self (h : e.Isomorphism d f) (he : e.Ordered) (hd : d.Ordered) (hk : k < e.size) :
    f k = k := by
  induction k using Nat.strongRecOn with
  | ind k ih =>
      have hfk := lt_size_of_mem_states (h.mem_states hk)
      have hle : k ≤ f k := by
        by_contra hlt
        rw [Nat.not_le] at hlt
        have hsame := ih (f k) hlt (Nat.lt_trans hlt hk)
        exact Nat.ne_of_lt hlt (h.bijOn.injOn (Nat.lt_trans hlt hk) hk hsame)
      have hmem : k ∈ d.states := by
        obtain ⟨w, hw⟩ := hd.exists_word k (Nat.lt_of_le_of_lt hle hfk)
        exact mem_states_iff.2 ⟨Nat.zero_lt_of_lt hfk, w, hw.walk⟩
      obtain ⟨l, hl, hfl⟩ := h.bijOn.surjOn hmem
      rcases Nat.lt_trichotomy l k with hlt | rfl | hgt
      · exact absurd ((ih l hlt hl).symm.trans hfl) (Nat.ne_of_lt hlt)
      · exact hfl
      · have hmono := h.lt_of_lt he hd hl hgt
        rw [hfl] at hmono
        exact absurd hmono (Nat.not_lt.2 hle)

theorem toTable_eq (h : e.Isomorphism d f) (he : e.Ordered) (hd : d.Ordered) (hpos : 0 < d.size) :
    e.toTable = d.toTable := by
  have hsame : ∀ {k}, k < e.size → f k = k := fun hk => h.eq_self he hd hk
  have hsize : ∀ k, k < e.size ↔ k < d.size := by
    intro k
    constructor
    · intro hk
      exact hsame hk ▸ lt_size_of_mem_states (h.mem_states hk)
    · intro hk
      obtain ⟨w, hw⟩ := hd.exists_word k hk
      obtain ⟨l, hl, hfl⟩ := h.bijOn.surjOn (mem_states_iff.2 ⟨hpos, w, hw.walk⟩)
      exact (hsame hl).symm.trans hfl ▸ hl
  refine toTable_congr (Nat.le_antisymm ?_ ?_) (fun k hk => ?_) fun k hk c => ?_
  · exact Nat.le_of_not_lt fun hlt => Nat.lt_irrefl _ ((hsize _).1 hlt)
  · exact Nat.le_of_not_lt fun hlt => Nat.lt_irrefl _ ((hsize _).2 hlt)
  · rw [h.final k hk, hsame hk]
  · have hnext := h.next k hk c
    rw [hsame hk] at hnext
    rw [← hnext]
    cases hl : e.next? k c with
    | none => rfl
    | some l => rw [Option.map_some, hsame (h.closed k c l hl)]

end Isomorphism

/-! ## The sets of the exported automaton -/

/-- Where the exported automaton is when the given one is in the state `q`. -/
def exported (d : Dfa) (q : StateId) : IdSet :=
  if d.isFinal q then (SortedSet.singleton q).insert d.size else .singleton q

theorem mem_exported_iff : i ∈ d.exported q ↔ i = q ∨ d.isFinal q = true ∧ i = d.size := by
  rw [exported]
  split
  · next hfinal => simp [hfinal, or_comm]
  · next hfinal => simp [hfinal]

theorem self_mem_exported (d : Dfa) (q : Nat) : q ∈ d.exported q := mem_exported_iff.2 (Or.inl rfl)

theorem exported_ne_empty (d : Dfa) (q : Nat) : d.exported q ≠ ∅ := by
  intro hempty
  have hmem := d.self_mem_exported q
  rw [hempty] at hmem
  exact SortedSet.not_mem_empty hmem

/-- The set tells the state. -/
theorem exported_inj (hq : q < d.size) (h : d.exported q = d.exported t) : q = t := by
  have hmem := d.self_mem_exported q
  rw [h, mem_exported_iff] at hmem
  rcases hmem with heq | ⟨-, heq⟩
  · exact heq
  · exact absurd heq (Nat.ne_of_lt hq)

theorem containsFinal_exported (hq : q < d.size) :
    d.toNfa.containsFinal (d.exported q) = d.isFinal q := by
  rw [Bool.eq_iff_iff, Nfa.containsFinal_eq_true_iff]
  simp only [isFinal_toNfa, exists_eq_right, mem_exported_iff, and_true]
  exact or_iff_right (Nat.ne_of_gt hq)

theorem silentWay_toNfa_iff : d.toNfa.SilentWay q i ↔ i ∈ d.exported q := by
  rw [mem_exported_iff]
  constructor
  · intro h
    induction h with
    | refl => exact Or.inl rfl
    | @tail a b _ hedge ih =>
        obtain ⟨hfinal, rfl⟩ := edge_toNfa_none.1 hedge
        rcases ih with rfl | ⟨hq, -⟩
        · exact Or.inr ⟨hfinal, rfl⟩
        · exact Or.inr ⟨hq, rfl⟩
  · rintro (rfl | ⟨hfinal, rfl⟩)
    · exact .refl
    · exact .single (edge_toNfa_none.2 ⟨hfinal, rfl⟩)

theorem initial_toNfa (d : Dfa) : d.toNfa.initial = d.exported 0 :=
  SortedSet.ext_mem fun i => by
    rw [Nfa.initial, Nfa.mem_closure_iff]
    simp only [SortedSet.mem_singleton, exists_eq_left]
    exact silentWay_toNfa_iff

/-- Nothing is read in the new state, so a step goes where the move of the state does. -/
theorem mem_step_exported_iff :
    i ∈ d.toNfa.step (d.exported q) c ↔ ∃ t, d.next? q c = some t ∧ i ∈ d.exported t := by
  rw [Nfa.mem_step_iff]
  simp only [edge_toNfa_some, silentWay_toNfa_iff, mem_exported_iff (q := q)]
  constructor
  · rintro ⟨a, rfl | ⟨-, rfl⟩, t, hnext, hi⟩
    · exact ⟨t, hnext, hi⟩
    · exact absurd (lt_size_of_next? hnext) (Nat.lt_irrefl _)
  · rintro ⟨t, hnext, hi⟩
    exact ⟨q, Or.inl rfl, t, hnext, hi⟩

theorem step_exported_of_some (h : d.next? q c = some t) :
    d.toNfa.step (d.exported q) c = d.exported t :=
  SortedSet.ext_mem fun i => by
    rw [mem_step_exported_iff, h]
    simp only [Option.some.injEq, exists_eq_left']

theorem step_exported_of_none (h : d.next? q c = none) : d.toNfa.step (d.exported q) c = ∅ :=
  SortedSet.ext_mem fun i => by
    rw [mem_step_exported_iff, h]
    simp

/-! ## The automaton of these sets -/

/-- No move of a state on a way from the start dangles. -/
def ClosedReached (d : Dfa) : Prop := ∀ q ∈ d.states, ∀ c t, d.next? q c = some t → t < d.size

theorem ClosedReached.mem_states (h : d.ClosedReached) (hq : q ∈ d.states)
    (hnext : d.next? q c = some t) : t ∈ d.states :=
  mem_states_of_move? hq (move?_eq_some_iff.2 ⟨hnext, h q hq c t hnext⟩)

section Construction

open Subset (Determinizes)

variable {sets : Array IdSet} {s : IdSet}

/-- The sets that are met are those of states on ways from the start. -/
theorem exists_exported (h : Determinizes d.toNfa sets e) (hpos : 0 < d.size)
    (hclosed : d.ClosedReached) (hk : sets[k]? = some s) : ∃ q ∈ d.states, s = d.exported q := by
  induction k using Nat.strongRecOn generalizing s with
  | ind k ih =>
      rcases Nat.eq_zero_or_pos k with rfl | hkpos
      · rw [h.first] at hk
        obtain rfl := Option.some.inj hk
        exact ⟨0, zero_mem_states hpos, d.initial_toNfa⟩
      · obtain ⟨p, c, hmet⟩ := h.met k (Subset.lt_size hk) hkpos
        obtain ⟨s', hp, hstep⟩ := hmet.step
        obtain ⟨q, hq, rfl⟩ := ih p hmet.lt hp
        rw [hk] at hstep
        obtain rfl := Option.some.inj hstep
        cases hnext : d.next? q c with
        | none => exact absurd (step_exported_of_none hnext) (h.nonempty k _ hk)
        | some t => exact ⟨t, hclosed.mem_states hq hnext, step_exported_of_some hnext⟩

/-- The set of each state on a way from the start is met. -/
theorem exists_number (h : Determinizes d.toNfa sets e) (hq : q ∈ d.states) :
    ∃ k : Nat, sets[k]? = some (d.exported q) := by
  refine states_induction hq ⟨0, d.initial_toNfa ▸ h.first⟩ fun q c t hq hmove => ?_
  obtain ⟨k, hk⟩ := hq
  have hstep := step_exported_of_some (move?_eq_some_iff.1 hmove).1
  cases hnext : e.next? k c with
  | none =>
      rw [h.next?_eq_none_iff hk, hstep] at hnext
      exact absurd hnext (d.exported_ne_empty t)
  | some l => exact ⟨l, hstep ▸ ((h.next?_eq_some_iff hk).1 hnext).2⟩

/-- A state of the automaton of sets moves as the state does for whose set it stands. -/
theorem next?_eq_some_iff_exported (h : Determinizes d.toNfa sets e)
    (hk : sets[k]? = some (d.exported q)) :
    e.next? k c = some l ↔ ∃ t, d.next? q c = some t ∧ sets[l]? = some (d.exported t) := by
  rw [h.next?_eq_some_iff hk, Subset.Leads]
  cases hnext : d.next? q c with
  | none => simp [step_exported_of_none hnext]
  | some t => simp [step_exported_of_some hnext, d.exported_ne_empty t]

/-- A numbering of these sets by states is an isomorphism. -/
theorem isomorphism_of_determinizes (h : Determinizes d.toNfa sets e)
    (hf : ∀ k < e.size, f k ∈ d.states ∧ sets[k]? = some (d.exported (f k))) :
    e.Isomorphism d f := by
  have hinj : ∀ {k q : Nat}, k < e.size → sets[k]? = some (d.exported q) → f k = q := by
    intro k q hk hset
    obtain ⟨hfk, hset'⟩ := hf k hk
    have heq := Option.some.inj (hset'.symm.trans hset)
    exact exported_inj (lt_size_of_mem_states hfk) heq
  have hlt : ∀ {k : Nat} {s}, sets[k]? = some s → k < e.size := fun hk => h.size ▸ Subset.lt_size hk
  refine ⟨h.trim.closed, ⟨fun k hk => (hf k hk).1, ?injOn, ?surjOn⟩, ?start, ?final, ?next⟩
  case injOn =>
    intro k hk l hl heq
    have hset := (hf k hk).2
    rw [heq] at hset
    exact h.injective k l _ hset (hf l hl).2
  case surjOn =>
    intro q hq
    obtain ⟨k, hk⟩ := exists_number h hq
    exact ⟨k, hlt hk, hinj (hlt hk) hk⟩
  case start =>
    have hset := h.first
    rw [initial_toNfa] at hset
    exact hinj h.size_pos hset
  case final =>
    intro k hk
    obtain ⟨hq, hset⟩ := hf k hk
    rw [h.isFinal_eq hset, containsFinal_exported (lt_size_of_mem_states hq)]
  case next =>
    intro k hk c
    obtain ⟨hq, hset⟩ := hf k hk
    cases hnext : e.next? k c with
    | none =>
        cases ht : d.next? (f k) c with
        | none => rfl
        | some t =>
            rw [h.next?_eq_none_iff hset, step_exported_of_some ht] at hnext
            exact absurd hnext (d.exported_ne_empty t)
    | some l =>
        obtain ⟨t, ht, hl⟩ := (next?_eq_some_iff_exported h hset).1 hnext
        rw [Option.map_some, ht, hinj (hlt hl) hl]

end Construction

/-- Exporting an automaton and determinizing it again gives its reached part under other
numbers, and as origins of the states the sets of the states to which they are taken. -/
theorem isomorphism_toNfa_toDfa (hpos : 0 < d.size) (hclosed : d.ClosedReached) :
    ∃ f, d.toNfa.toDfa.Isomorphism d f ∧
      ∀ k < d.toNfa.toDfa.size, d.toNfa.toDfa.origin? k = some (d.exported (f k)) := by
  obtain ⟨sets, h⟩ := Subset.exists_determinizes d.toNfa.toDfaObserved_none
  have hexists : ∀ k < d.toNfa.toDfa.size, ∃ q ∈ d.states, sets[k]? = some (d.exported q) := by
    intro k hk
    obtain ⟨s, hs⟩ := h.exists_set hk
    obtain ⟨q, hq, rfl⟩ := exists_exported h hpos hclosed hs
    exact ⟨q, hq, hs⟩
  choose! f hf using hexists
  exact ⟨f, isomorphism_of_determinizes h hf,
    fun k hk => h.origin?_eq_some_iff.2 (hf k hk).2⟩

/-- Where the states are in the order of their earliest words, the numbers are the same. -/
theorem Ordered.toTable_toNfa_toDfa (h : d.Ordered) (hpos : 0 < d.size)
    (hclosed : d.ClosedReached) : d.toNfa.toDfa.toTable = d.toTable := by
  obtain ⟨sets, hsets⟩ := Subset.exists_determinizes d.toNfa.toDfaObserved_none
  obtain ⟨f, hf, -⟩ := isomorphism_toNfa_toDfa hpos hclosed
  exact hf.toTable_eq (hsets.searched.ordered hsets.size_pos) h hpos

/-- An automaton with states, in which no move of a reached state dangles, comes back from
being exported and determinized as its reached part under other numbers. The origin of a
state is the state to which it is taken, together with the new state of the exported
automaton if that one is final. The minimal automaton of an expression comes back with the
same numbers. -/
theorem toNfa_toDfa :
    (∀ d : Dfa, 0 < d.size → d.ClosedReached → ∃ f, d.toNfa.toDfa.Isomorphism d f ∧
      ∀ k < d.toNfa.toDfa.size, d.toNfa.toDfa.origin? k =
        some (if d.isFinal (f k) then (SortedSet.singleton (f k)).insert d.size
          else .singleton (f k))) ∧
    ∀ config text c, compile config text = .ok c →
      c.minimized.toNfa.toDfa.toTable = c.minimized.toTable := by
  refine ⟨fun d hpos hclosed => isomorphism_toNfa_toDfa hpos hclosed, fun config text c hc => ?_⟩
  have hcanonical := (staged_of_compile hc).2.canonical
  exact hcanonical.ordered.toTable_toNfa_toDfa hcanonical.pos fun q _ => hcanonical.closed q

/-- The start moves to a final state. A state between the two is on no way, and its move
dangles. -/
def passedOver : Dfa where
  nodes := #[⟨false, ⟨[('w', 2)], List.pairwise_singleton ..⟩, none⟩,
    ⟨false, ⟨[('w', 7)], List.pairwise_singleton ..⟩, none⟩, .new true]

/-- Only the state that is on no way moves elsewhere than to the last one. -/
theorem passedOver_next? (hq : q ≠ 1) (h : passedOver.next? q c = some t) : t = 2 := by
  have hlt : q < 3 := lt_size_of_next? h
  have hmem := mem_movesFrom_iff.2 h
  obtain rfl | rfl : q = 0 ∨ q = 2 := by omega
  · exact (Prod.mk.inj (List.mem_singleton.1 hmem)).2
  · exact absurd hmem List.not_mem_nil

theorem closedReached_passedOver : passedOver.ClosedReached := by
  intro q hq c t hnext
  have hreached : q ≠ 1 := by
    refine states_induction hq (by decide) fun q c t hq hmove => ?_
    rw [passedOver_next? hq (move?_eq_some_iff.1 hmove).1]
    decide
  rw [passedOver_next? hreached hnext]
  decide

/-- An automaton that comes back with fewer states, and the minimal one of an expression. -/
theorem toNfa_toDfa_passedOver :
    (0 < passedOver.size ∧ passedOver.ClosedReached ∧
      ∃ f, passedOver.toNfa.toDfa.Isomorphism passedOver f) ∧
    ∃ c, compile { maxDfaStates := none } "ab|ac" = .ok c ∧
      c.minimized.toNfa.toDfa.toTable = c.minimized.toTable := by
  obtain ⟨c, hc, -⟩ : ∃ c, compile { maxDfaStates := none } "ab|ac" = .ok c ∧ c.expr = _ :=
    exists_compile rfl (e := .union (.concat (.literal 'a') (.literal 'b'))
      (.concat (.literal 'a') (.literal 'c'))) rfl
  obtain ⟨hback, hcompiled⟩ := toNfa_toDfa
  have hpos : 0 < passedOver.size := by decide
  obtain ⟨f, hf, -⟩ := hback passedOver hpos closedReached_passedOver
  exact ⟨⟨hpos, closedReached_passedOver, f, hf⟩, c, hc, hcompiled _ _ _ hc⟩

end Regular.Dfa
