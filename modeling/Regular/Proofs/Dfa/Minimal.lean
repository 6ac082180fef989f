import Regular.Proofs.Dfa.Canonical
import Regular.Proofs.Dfa.Refinement

/-!
# The minimal automaton

The states of the minimal automaton are the classes of equivalent states (`Dfa.minimize_eq`).
A walk in it passes the classes of the states that a walk in the original passes
(`Dfa.IsClasses.walk?_quotient`), so the two accept the same words (`Dfa.minimize_accepts`).

Where something is accepted from each state of the original, and its states are in the order
of their earliest words, the minimal automaton is canonical (`Dfa.canonical_minimize`): the
earliest word that leads to a class is that of its least member, and equivalence, which tells
a missing move from a dead one, is to accept the same words.
-/

namespace Regular.Dfa

variable {d : Dfa} {blocks : List IdSet} {b : IdSet} {i j k l : Nat} {c : Char} {w : List Char}

/-! ## States and moves of the quotient -/

theorem size_quotient (d : Dfa) (blocks : List IdSet) :
    (d.quotient blocks).size = blocks.length := by
  simp [quotient, size]

theorem IsPartition.exists_least (h : d.IsPartition blocks) (hk : k < blocks.length) :
    ∃ i, InBlock blocks k i ∧ ∀ j, InBlock blocks k j → i ≤ j := by
  have hb := List.getElem?_eq_getElem hk
  obtain ⟨i, hi⟩ := IdSet.exists_first? (h.nonempty _ (List.getElem_mem hk))
  obtain ⟨hmem, hleast⟩ := IdSet.first?_eq_some_iff.1 hi
  refine ⟨i, ⟨_, hb, hmem⟩, ?_⟩
  rintro j ⟨b, hb', hj⟩
  obtain rfl := Option.some.inj (hb.symm.trans hb')
  exact hleast j hj

theorem IsPartition.mem_states (h : d.IsPartition blocks) (hk : InBlock blocks k i) :
    i ∈ d.states := h.inBlock_iff.1 ⟨k, hk⟩

theorem IsPartition.isFinal_quotient (h : d.IsPartition blocks) (hk : InBlock blocks k i) :
    (d.quotient blocks).isFinal k = d.isFinal i := by
  obtain ⟨b, hb, hi⟩ := hk
  have hany : b.toList.any d.isFinal = d.isFinal i := by
    rw [Bool.eq_iff_iff, List.any_eq_true]
    constructor
    · rintro ⟨j, hj, hfinal⟩
      rw [h.uniform b (List.mem_of_getElem? hb) i hi j hj]
      exact hfinal
    · intro hfinal
      exact ⟨i, hi, hfinal⟩
  rw [isFinal, node?, quotient, List.getElem?_toArray, List.getElem?_map, hb]
  exact hany

/-- The moves of a block are those of its least member. -/
theorem IsPartition.next?_quotient (h : d.IsPartition blocks) (hb : blocks[k]? = some b)
    (hi : b.first? = some i) :
    (d.quotient blocks).next? k c = some l ↔ ∃ a, d.move? i c = some a ∧ InBlock blocks l a := by
  have hstates : i ∈ d.states := h.mem_states ⟨b, hb, (IdSet.first?_eq_some_iff.1 hi).1⟩
  obtain ⟨node, hnode⟩ := exists_node? (lt_size_of_mem_states hstates)
  have hnext : (d.quotient blocks).next? k c =
      (d.next? i c).bind fun target => (blockNumbers d.size blocks).getD target none := by
    rw [next?, node?, quotient, List.getElem?_toArray, List.getElem?_map, hb, next?, hnode]
    simp only [Option.map_some, Option.bind_eq_bind, Option.bind_some, hi, hnode]
    exact CharMap.get?_filterMap
  rw [hnext, h.number_eq]

/-- The moves of a block are those of any of its members. -/
theorem IsClasses.next?_quotient (h : d.IsClasses blocks) (hk : InBlock blocks k i) :
    (d.quotient blocks).next? k c = some l ↔ ∃ a, d.move? i c = some a ∧ InBlock blocks l a := by
  obtain ⟨b, hb, hi⟩ := hk
  obtain ⟨f, hf⟩ := IdSet.exists_first? (h.partition.nonempty b (List.mem_of_getElem? hb))
  have hfb := (IdSet.first?_eq_some_iff.1 hf).1
  have hmoves := h.stable f i ⟨b, List.mem_of_getElem? hb, hfb, hi⟩ c
  rw [h.partition.next?_quotient hb hf]
  cases hmf : d.move? f c with
  | none =>
      cases hmi : d.move? i c with
      | none => simp
      | some a => simp [hmf, hmi] at hmoves
  | some a =>
      cases hmi : d.move? i c with
      | none => simp [hmf, hmi] at hmoves
      | some a' =>
          simp only [hmf, hmi] at hmoves
          obtain ⟨m, hma, hma'⟩ := Dfa.sameBlock_iff.1 hmoves
          simp only [Option.some.injEq, exists_eq_left']
          have hdisjoint := h.partition.disjoint
          constructor
          · intro hl
            exact hdisjoint.inBlock_unique hma hl ▸ hma'
          · intro hl
            exact hdisjoint.inBlock_unique hma' hl ▸ hma

theorem IsClasses.closed_quotient (h : d.IsClasses blocks)
    (hnext : (d.quotient blocks).next? k c = some l) : l < (d.quotient blocks).size := by
  have hk := lt_size_of_next? hnext
  rw [size_quotient] at hk ⊢
  obtain ⟨i, hi, -⟩ := h.partition.exists_least hk
  obtain ⟨a, -, ha⟩ := (h.next?_quotient hi).1 hnext
  exact ha.lt_length

/-! ## Walks in the quotient -/

/-- A walk between blocks is a walk between their members. -/
theorem IsClasses.walk?_quotient (h : d.IsClasses blocks) (hk : InBlock blocks k i) :
    (d.quotient blocks).walk? k w = some l ↔ ∃ j, d.walk? i w = some j ∧ InBlock blocks l j := by
  induction w generalizing k i with
  | nil =>
      simp only [walk?_nil, Option.some.injEq, exists_eq_left']
      constructor
      · rintro rfl
        exact hk
      · intro hl
        exact h.partition.disjoint.inBlock_unique hk hl
  | cons c w ih =>
      simp only [walk?_cons_eq_some_iff, move?_eq_some_iff (d := d.quotient blocks)]
      constructor
      · rintro ⟨m, ⟨hm, -⟩, hwalk⟩
        obtain ⟨a, ha, hma⟩ := (h.next?_quotient hk).1 hm
        obtain ⟨j, hj, hl⟩ := (ih hma).1 hwalk
        exact ⟨j, ⟨a, ha, hj⟩, hl⟩
      · rintro ⟨j, ⟨a, ha, hj⟩, hl⟩
        have hstates := mem_states_of_move? (h.partition.mem_states hk) ha
        obtain ⟨m, hm⟩ := h.partition.inBlock_iff.2 hstates
        have hnext := (h.next?_quotient hk).2 ⟨a, ha, hm⟩
        exact ⟨m, ⟨hnext, h.closed_quotient hnext⟩, (ih hm).2 ⟨j, hj, hl⟩⟩

/-- A block accepts what its members accept. -/
theorem IsClasses.acceptsFrom_quotient (h : d.IsClasses blocks) (hk : InBlock blocks k i) :
    (d.quotient blocks).acceptsFrom k w = d.acceptsFrom i w := by
  rw [Bool.eq_iff_iff, acceptsFrom_eq_true_iff, acceptsFrom_eq_true_iff]
  constructor
  · rintro ⟨l, hl, hfinal⟩
    obtain ⟨j, hj, hlj⟩ := (h.walk?_quotient hk).1 hl
    exact ⟨j, hj, h.partition.isFinal_quotient hlj ▸ hfinal⟩
  · rintro ⟨j, hj, hfinal⟩
    have hstates := mem_states_of_walk? (h.partition.mem_states hk) hj
    obtain ⟨l, hl⟩ := h.partition.inBlock_iff.2 hstates
    exact ⟨l, (h.walk?_quotient hk).2 ⟨j, hj, hl⟩, (h.partition.isFinal_quotient hl).trans hfinal⟩

/-- The start is in the block with the number zero. -/
theorem IsClasses.inBlock_zero (h : d.IsClasses blocks) (hpos : 0 < d.size) :
    InBlock blocks 0 0 := by
  obtain ⟨k, b, hb, hmem⟩ := h.partition.inBlock_iff.2 (zero_mem_states hpos)
  have hfirst : b.first? = some 0 := IdSet.first?_eq_some_iff.2 ⟨hmem, fun j _ => Nat.zero_le j⟩
  rcases Nat.eq_zero_or_pos k with rfl | hk
  · exact ⟨b, hb, hmem⟩
  · obtain ⟨hlt, heq⟩ := List.getElem?_eq_some_iff.1 hb
    obtain ⟨i, hi⟩ := IdSet.exists_first? (h.partition.nonempty _
      (List.getElem_mem (Nat.lt_trans hk hlt)))
    have hless := List.pairwise_iff_getElem.1 h.ascending 0 k (Nat.lt_trans hk hlt) hlt hk i 0 hi
      (heq ▸ hfirst)
    exact absurd hless (Nat.not_lt_zero i)

/-! ## Minimizing -/

theorem minimize_eq (hpos : 0 < d.size) :
    ∃ blocks, d.IsClasses blocks ∧ d.minimize = d.quotient blocks := by
  refine ⟨_, isClasses_refinePasses hpos 1, ?_⟩
  rw [minimize, minimizeObserved, if_neg (Nat.ne_of_gt hpos)]

theorem IsClasses.minimize_eq (h : d.IsClasses blocks) (hpos : 0 < d.size) :
    d.minimize = d.quotient blocks := by
  obtain ⟨blocks', h', heq⟩ := Dfa.minimize_eq hpos
  rw [heq, h.unique h']

theorem minimize_eq_empty (h : d.size = 0) : d.minimize = .empty := by
  rw [minimize, minimizeObserved, if_pos h]

/-- The minimal automaton accepts what the original accepts, whatever the original is. -/
theorem minimize_acceptsFrom (d : Dfa) (w : List Char) :
    d.minimize.acceptsFrom 0 w = d.acceptsFrom 0 w := by
  rcases Nat.eq_zero_or_pos d.size with hzero | hpos
  · rw [minimize_eq_empty hzero, acceptsFrom_eq_false (Nat.le_of_eq hzero),
      acceptsFrom_eq_false (Nat.le_refl 0)]
  · obtain ⟨blocks, hclasses, heq⟩ := minimize_eq hpos
    rw [heq]
    exact hclasses.acceptsFrom_quotient (hclasses.inBlock_zero hpos)

theorem minimize_accepts (d : Dfa) (input : String) : d.minimize.accepts input = d.accepts input :=
  d.minimize_acceptsFrom input.toList

/-! ## The minimal automaton is canonical -/

/-- The block of a state is reached by the earliest word that leads to its least member, and
by no earlier one. -/
theorem IsClasses.earliestWord (h : d.IsClasses blocks) (hpos : 0 < d.size) (hd : d.Ordered)
    (hk : InBlock blocks k i) (hleast : ∀ j, InBlock blocks k j → i ≤ j)
    (hw : d.EarliestWord i w) : (d.quotient blocks).EarliestWord k w := by
  have hzero := h.inBlock_zero hpos
  refine ⟨(h.walk?_quotient hzero).2 ⟨i, hw.walk, hk⟩, fun u hu => ?_⟩
  obtain ⟨j, hj, hkj⟩ := (h.walk?_quotient hzero).1 hu
  rcases Nat.lt_or_eq_of_le (hleast j hkj) with hlt | rfl
  · obtain ⟨v, hv⟩ := hd.exists_word j (walk?_lt_size hpos hj)
    have hwv := hd.earlier i j w v hlt hw hv
    rcases hv.least u hj with rfl | hvu
    · exact Or.inr hwv
    · exact Or.inr (hwv.trans hvu)
  · exact hw.least u hj

theorem IsClasses.least_lt (h : d.IsClasses blocks) (hi : InBlock blocks k i)
    (hleasti : ∀ j, InBlock blocks k j → i ≤ j) (hj : InBlock blocks l j)
    (hleastj : ∀ i, InBlock blocks l i → j ≤ i) (hkl : k < l) : i < j := by
  obtain ⟨a, ha, hia⟩ := hi
  obtain ⟨b, hb, hjb⟩ := hj
  have hfirsta : a.first? = some i :=
    IdSet.first?_eq_some_iff.2 ⟨hia, fun x hx => hleasti x ⟨a, ha, hx⟩⟩
  have hfirstb : b.first? = some j :=
    IdSet.first?_eq_some_iff.2 ⟨hjb, fun x hx => hleastj x ⟨b, hb, hx⟩⟩
  obtain ⟨hk, rfl⟩ := List.getElem?_eq_some_iff.1 ha
  obtain ⟨hl, rfl⟩ := List.getElem?_eq_some_iff.1 hb
  exact List.pairwise_iff_getElem.1 h.ascending k l hk hl hkl i j hfirsta hfirstb

theorem IsClasses.ordered_quotient (h : d.IsClasses blocks) (hpos : 0 < d.size)
    (hd : d.Ordered) : (d.quotient blocks).Ordered := by
  have hword : ∀ k < blocks.length, ∃ i w, InBlock blocks k i ∧
      (∀ j, InBlock blocks k j → i ≤ j) ∧ d.EarliestWord i w ∧
      (d.quotient blocks).EarliestWord k w := by
    intro k hk
    obtain ⟨i, hi, hleast⟩ := h.partition.exists_least hk
    obtain ⟨w, hw⟩ := hd.exists_word i (lt_size_of_mem_states (h.partition.mem_states hi))
    exact ⟨i, w, hi, hleast, hw, h.earliestWord hpos hd hi hleast hw⟩
  refine ⟨fun k hk => ?_, fun k l u v hkl hu hv => ?_⟩
  · obtain ⟨_, w, -, -, -, hw⟩ := hword k (by rwa [size_quotient] at hk)
    exact ⟨w, hw⟩
  · have hsize : 0 < (d.quotient blocks).size := by
      rw [size_quotient]
      exact (h.inBlock_zero hpos).lt_length
    have hl := walk?_lt_size hsize hv.walk
    rw [size_quotient] at hl
    obtain ⟨i, u', hi, hleasti, hu', hku⟩ := hword k (Nat.lt_trans hkl hl)
    obtain ⟨j, v', hj, hleastj, hv', hlv⟩ := hword l hl
    rw [hu.unique hku, hv.unique hlv]
    exact hd.earlier i j u' v' (h.least_lt hi hleasti hj hleastj hkl) hu' hv'

/-- States that accept the same words are equivalent if the same words lead from both to
states. -/
theorem equivalent_of_isSome (hsome : ∀ w, (d.walk? i w).isSome = (d.walk? j w).isSome)
    (h : ∀ w, d.acceptsFrom i w = d.acceptsFrom j w) : d.Equivalent i j := by
  intro w
  have hw := h w
  have hsw := hsome w
  rw [acceptsFrom_eq, acceptsFrom_eq] at hw
  cases hp : d.walk? i w with
  | none =>
      rw [hp, Option.isSome_none, eq_comm, Option.isSome_eq_false_iff, Option.isNone_iff_eq_none]
        at hsw
      rw [hsw]
  | some p =>
      rw [hp, Option.isSome_some, eq_comm, Option.isSome_iff_exists] at hsw
      obtain ⟨q, hq⟩ := hsw
      rw [hp, hq, Option.any_some, Option.any_some] at hw
      rw [hq, Option.map_some, Option.map_some, hw]

/-- Where something is accepted from each state, states that accept the same words are
equivalent: a walk that ends in a state can be continued to an accepted word, so it is
missing on neither side. -/
theorem equivalent_of_acceptsFrom (hlive : ∀ i ∈ d.states, ∃ w, d.acceptsFrom i w = true)
    (hi : i ∈ d.states) (hj : j ∈ d.states) (h : ∀ w, d.acceptsFrom i w = d.acceptsFrom j w) :
    d.Equivalent i j := by
  have hwalk : ∀ {i j}, i ∈ d.states → (∀ w, d.acceptsFrom i w = d.acceptsFrom j w) → ∀ {w},
      (d.walk? i w).isSome = true → (d.walk? j w).isSome = true := by
    intro i j hi h w hp
    obtain ⟨p, hp⟩ := Option.isSome_iff_exists.1 hp
    obtain ⟨v, hv⟩ := hlive p (mem_states_of_walk? hi hp)
    rw [← acceptsFrom_append hp, h] at hv
    obtain ⟨k, hk, -⟩ := acceptsFrom_eq_true_iff.1 hv
    obtain ⟨q, hq, -⟩ := walk?_append_eq_some_iff.1 hk
    exact Option.isSome_iff_exists.2 ⟨q, hq⟩
  refine equivalent_of_isSome (fun w => Bool.eq_iff_iff.2 ⟨hwalk hi h, ?_⟩) h
  exact hwalk hj fun w => (h w).symm

theorem canonical_minimize (hpos : 0 < d.size) (hd : d.Ordered)
    (hlive : ∀ i < d.size, ∃ w, d.acceptsFrom i w = true) : d.minimize.Canonical := by
  obtain ⟨blocks, h, heq⟩ := minimize_eq hpos
  rw [heq]
  have hmember : ∀ k < (d.quotient blocks).size, ∃ i < d.size, InBlock blocks k i := by
    intro k hk
    rw [size_quotient] at hk
    obtain ⟨i, hi, -⟩ := h.partition.exists_least hk
    exact ⟨i, lt_size_of_mem_states (h.partition.mem_states hi), hi⟩
  refine ⟨?_, fun k c l => h.closed_quotient, h.ordered_quotient hpos hd, ?_, ?_⟩
  · rw [size_quotient]
    exact (h.inBlock_zero hpos).lt_length
  · intro k hk
    obtain ⟨i, hi, hki⟩ := hmember k hk
    obtain ⟨w, hw⟩ := hlive i hi
    exact ⟨w, (h.acceptsFrom_quotient hki).trans hw⟩
  · intro k hk l hl hsame
    obtain ⟨i, hi, hki⟩ := hmember k hk
    obtain ⟨j, hj, hlj⟩ := hmember l hl
    have his := h.partition.mem_states hki
    have hjs := h.partition.mem_states hlj
    have hequiv : d.Equivalent i j :=
      equivalent_of_acceptsFrom (fun i hi => hlive i (lt_size_of_mem_states hi)) his hjs fun w => by
        rw [← h.acceptsFrom_quotient hki, ← h.acceptsFrom_quotient hlj, hsame]
    have hblock : SameBlock blocks i j := h.sameBlock_iff.2 ⟨his, hjs, hequiv⟩
    have hkj := (h.partition.disjoint.sameBlock_iff hki).1 hblock
    exact h.partition.disjoint.inBlock_unique hkj hlj

end Regular.Dfa
