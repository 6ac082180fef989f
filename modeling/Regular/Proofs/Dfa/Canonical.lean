import Regular.Proofs.Dfa.Numbering

/-!
# Canonical automata

An automaton is canonical if it has nothing in it that does not matter to its language: moves
lead to states, from each state something is accepted, different states accept different
words, and the states are numbered by the earliest words that lead to them. Canonical
automata of one language have one table (`Dfa.Canonical.toTable_eq`).

States of two such automata correspond if they accept the same words. As corresponding states
have the same earliest word, the correspondence is monotone in both directions; so it takes
each number to itself.

Where only one of the two is canonical, the other may have dead states and states that accept
the same words. It has no fewer states for that (`Dfa.Canonical.size_le_states`).
-/

namespace Regular.Dfa

variable {d d' : Dfa} {i j i' j' : Nat} {c : Char} {u w : List Char}

/-- The automaton has nothing in it that does not matter to its language. -/
structure Canonical (d : Dfa) : Prop where
  pos : 0 < d.size
  closed : ∀ i c j, d.next? i c = some j → j < d.size
  ordered : d.Ordered
  live : ∀ i < d.size, ∃ w, d.acceptsFrom i w = true
  separated : ∀ i < d.size, ∀ j < d.size,
    (∀ w, d.acceptsFrom i w = d.acceptsFrom j w) → i = j

/-- The two automata accept the same words. -/
def SameLanguage (d d' : Dfa) : Prop := ∀ w, d.acceptsFrom 0 w = d'.acceptsFrom 0 w

/-- The two states, one of each automaton, accept the same words. -/
def Corresponds (d d' : Dfa) (i i' : Nat) : Prop :=
  ∀ w, d.acceptsFrom i w = d'.acceptsFrom i' w

theorem SameLanguage.symm (h : SameLanguage d d') : SameLanguage d' d := fun w => (h w).symm

theorem Corresponds.symm (h : Corresponds d d' i i') : Corresponds d' d i' i := fun w => (h w).symm

theorem sameLanguage_of_accepts (h : ∀ input, d.accepts input = d'.accepts input) :
    SameLanguage d d' := by
  intro w
  have hw := h (String.ofList w)
  rwa [accepts, accepts, String.toList_ofList] at hw

/-- A word that leads to a state of one automaton leads to a state of the other. -/
theorem exists_corresponds (h : Canonical d) (hlang : SameLanguage d d')
    (hw : d.walk? 0 w = some i) : ∃ i', d'.walk? 0 w = some i' ∧ Corresponds d d' i i' := by
  obtain ⟨v, hv⟩ := h.live i (walk?_lt_size h.pos hw)
  have haccept : d'.acceptsFrom 0 (w ++ v) = true := by
    rw [← hlang, acceptsFrom_append hw, hv]
  obtain ⟨i', -, hi'⟩ := exists_mem_states haccept
  refine ⟨i', hi', fun x => ?_⟩
  rw [← acceptsFrom_append hw, ← acceptsFrom_append hi', hlang]

/-- Only one state of a canonical automaton corresponds to a given one. -/
theorem Canonical.corresponds_unique (h' : Canonical d') (hi' : i' < d'.size) (hj' : j' < d'.size)
    (hi : Corresponds d d' i i') (hj : Corresponds d d' i j') : i' = j' :=
  h'.separated i' hi' j' hj' fun w => (hi w).symm.trans (hj w)

/-- The earliest word that leads to a state is also the earliest one that leads to the state
that corresponds to it. -/
theorem EarliestWord.transfer (h : Canonical d) (h' : Canonical d') (hlang : SameLanguage d d')
    (hw : d.EarliestWord i w) : ∃ i', d'.EarliestWord i' w ∧ Corresponds d d' i i' := by
  obtain ⟨i', hi', hcorr⟩ := exists_corresponds h hlang hw.walk
  refine ⟨i', ⟨hi', fun u hu => hw.least u ?_⟩, hcorr⟩
  obtain ⟨j, hj, hcorr'⟩ := exists_corresponds h' hlang.symm hu
  rw [hj, h.corresponds_unique (walk?_lt_size h.pos hj) (walk?_lt_size h.pos hw.walk) hcorr'
    hcorr.symm]

/-- Corresponding states have a common earliest word, so the lower of two states corresponds
to the lower one. -/
theorem Corresponds.lt (h : Canonical d) (h' : Canonical d') (hlang : SameLanguage d d')
    (hj : j < d.size) (hi' : i' < d'.size) (hj' : j' < d'.size) (hii : Corresponds d d' i i')
    (hjj : Corresponds d d' j j') (hij : i < j) : i' < j' := by
  obtain ⟨u, hu⟩ := h.ordered.exists_word i (Nat.lt_trans hij hj)
  obtain ⟨w, hw⟩ := h.ordered.exists_word j hj
  have hearlier := h.ordered.earlier i j u w hij hu hw
  obtain ⟨a, ha, hcorra⟩ := hu.transfer h h' hlang
  obtain ⟨b, hb, hcorrb⟩ := hw.transfer h h' hlang
  obtain rfl := h'.corresponds_unique (walk?_lt_size h'.pos ha.walk) hi' hcorra hii
  obtain rfl := h'.corresponds_unique (walk?_lt_size h'.pos hb.walk) hj' hcorrb hjj
  rcases Nat.lt_trichotomy a b with hlt | rfl | hgt
  · exact hlt
  · rw [ha.unique hb] at hearlier
    exact absurd hearlier (Earlier.irrefl w)
  · exact absurd (hearlier.trans (h'.ordered.earlier b a w u hgt hb ha)) (Earlier.irrefl u)

theorem exists_state (h : Canonical d) (h' : Canonical d') (hlang : SameLanguage d d')
    (hi : i < d.size) : ∃ i' < d'.size, Corresponds d d' i i' := by
  obtain ⟨w, hw⟩ := h.ordered.exists_word i hi
  obtain ⟨i', hi', hcorr⟩ := exists_corresponds h hlang hw.walk
  exact ⟨i', walk?_lt_size h'.pos hi', hcorr⟩

/-- A monotone correspondence takes no number to a lower one. -/
theorem Corresponds.le (h : Canonical d) (h' : Canonical d') (hlang : SameLanguage d d')
    (hi : i < d.size) (hi' : i' < d'.size) (hcorr : Corresponds d d' i i') : i ≤ i' := by
  induction i generalizing i' with
  | zero => exact Nat.zero_le i'
  | succ i ih =>
      have hlt : i < d.size := Nat.lt_of_succ_lt hi
      obtain ⟨j', hj', hcorr'⟩ := exists_state h h' hlang hlt
      have hle := ih hlt hj' hcorr'
      have hmono := hcorr'.lt h h' hlang hi hj' hi' hcorr (Nat.lt_succ_self i)
      omega

/-- Corresponding states have the same number. -/
theorem Corresponds.eq (h : Canonical d) (h' : Canonical d') (hlang : SameLanguage d d')
    (hi : i < d.size) (hi' : i' < d'.size) (hcorr : Corresponds d d' i i') : i = i' :=
  Nat.le_antisymm (hcorr.le h h' hlang hi hi') (hcorr.symm.le h' h hlang.symm hi' hi)

theorem corresponds_self (h : Canonical d) (h' : Canonical d') (hlang : SameLanguage d d')
    (hi : i < d.size) : i < d'.size ∧ Corresponds d d' i i := by
  obtain ⟨i', hi', hcorr⟩ := exists_state h h' hlang hi
  obtain rfl := hcorr.eq h h' hlang hi hi'
  exact ⟨hi', hcorr⟩

/-- No automaton for the language of a canonical one has fewer states on ways from its start:
the words that lead to the states of the canonical one are told apart by the language
alone. -/
theorem Canonical.size_le_states (h : Canonical d) (hlang : SameLanguage d d') :
    d.size ≤ d'.states.size := by
  have hexists : ∀ i < d.size, ∃ w, d.walk? 0 w = some i := by
    intro i hi
    obtain ⟨w, hw⟩ := h.ordered.exists_word i hi
    exact ⟨w, hw.walk⟩
  choose! word hword using hexists
  have happend : ∀ i < d.size, ∀ w, d'.acceptsFrom 0 (word i ++ w) = d.acceptsFrom i w := by
    intro i hi w
    rw [← hlang, acceptsFrom_append (hword i hi)]
  have hlive : ∀ u ∈ (List.range d.size).map word, ∃ w, d'.acceptsFrom 0 (u ++ w) = true := by
    intro u hu
    obtain ⟨i, hi, rfl⟩ := List.mem_map.1 hu
    rw [List.mem_range] at hi
    obtain ⟨w, hw⟩ := h.live i hi
    exact ⟨w, (happend i hi w).trans hw⟩
  have hapart : ((List.range d.size).map word).Pairwise fun u v =>
      ∃ w, d'.acceptsFrom 0 (u ++ w) ≠ d'.acceptsFrom 0 (v ++ w) := by
    refine List.pairwise_map.2 (List.nodup_range.imp_of_mem ?_)
    intro i j hi hj hne
    rw [List.mem_range] at hi hj
    by_contra hsame
    refine hne (h.separated i hi j hj fun w => ?_)
    rw [← happend i hi, ← happend j hj]
    by_contra hdiffer
    exact hsame ⟨w, hdiffer⟩
  have hle := length_le_size_states hlive hapart
  rwa [List.length_map, List.length_range] at hle

/-- A move of one automaton is a move of the other. -/
theorem next?_of_next? (h : Canonical d) (h' : Canonical d') (hlang : SameLanguage d d')
    (hnext : d.next? i c = some j) : d'.next? i c = some j := by
  have hi := lt_size_of_next? hnext
  have hj := h.closed i c j hnext
  obtain ⟨hi', hcorr⟩ := corresponds_self h h' hlang hi
  have hwalk : d.walk? i [c] = some j :=
    walk?_cons_eq_some_iff.2 ⟨j, move?_eq_some_iff.2 ⟨hnext, hj⟩, rfl⟩
  obtain ⟨v, hv⟩ := h.live j hj
  have haccept : d'.acceptsFrom i ([c] ++ v) = true := by
    rw [← hcorr, acceptsFrom_append hwalk, hv]
  obtain ⟨k, hk, -⟩ := acceptsFrom_eq_true_iff.1 haccept
  obtain ⟨j', hj', -⟩ := walk?_append_eq_some_iff.1 hk
  have hjj : Corresponds d d' j j' := by
    intro x
    rw [← acceptsFrom_append hwalk, ← acceptsFrom_append hj', hcorr]
  obtain ⟨_, hmove, hend⟩ := walk?_cons_eq_some_iff.1 hj'
  obtain rfl := Option.some.inj hend
  obtain ⟨hnext', hlt⟩ := move?_eq_some_iff.1 hmove
  rw [hjj.eq h h' hlang hj hlt]
  exact hnext'

/-! ## Tables -/

theorem finals_eq (d : Dfa) : d.nodes.toList.map (·.final) = (List.range d.size).map d.isFinal := by
  refine List.ext_getElem (by simp [size]) fun i hi hi' => ?_
  rw [List.getElem_map, List.getElem_map, List.getElem_range, isFinal, node?]
  rw [List.length_map, Array.length_toList] at hi
  rw [Array.getElem?_eq_getElem hi, Option.any_some, Array.getElem_toList]

theorem moves_eq {node node' : Node} (h : ∀ c, d.next? i c = d'.next? i c)
    (hnode : d.node? i = some node) (hnode' : d'.node? i = some node') :
    node.moves = node'.moves := by
  refine CharMap.ext_get? fun c => ?_
  have hc := h c
  simp only [next?, hnode, hnode'] at hc
  exact hc

theorem movesFrom_eq (h : ∀ c, d.next? i c = d'.next? i c) (hi : i < d.size) (hi' : i < d'.size) :
    d.movesFrom i = d'.movesFrom i := by
  obtain ⟨node, hnode⟩ := exists_node? hi
  obtain ⟨node', hnode'⟩ := exists_node? hi'
  rw [movesFrom, movesFrom, hnode, hnode', Option.map_some, Option.map_some,
    moves_eq h hnode hnode']

/-- Automata with the same states and moves have the same table. -/
theorem toTable_congr (hsize : d.size = d'.size) (hfinal : ∀ i < d.size, d.isFinal i = d'.isFinal i)
    (hnext : ∀ i < d.size, ∀ c, d.next? i c = d'.next? i c) : d.toTable = d'.toTable := by
  have hfinals : d.nodes.toList.map (·.final) = d'.nodes.toList.map (·.final) := by
    rw [finals_eq, finals_eq, ← hsize]
    exact List.map_congr_left fun i hi => hfinal i (List.mem_range.1 hi)
  have hedges : d.edges = d'.edges := by
    rw [edges, edges, ← hsize]
    refine List.flatMap_congr fun i hi => ?_
    rw [List.mem_range] at hi
    rw [movesFrom_eq (hnext i hi) hi (hsize ▸ hi)]
  rw [toTable, toTable, hfinals, hedges]

theorem mem_edges_iff : (i, c, j) ∈ d.edges ↔ d.next? i c = some j := by
  simp only [edges, List.mem_flatMap, List.mem_range, List.mem_map, Prod.mk.injEq]
  constructor
  · rintro ⟨a, -, b, hb, rfl, rfl⟩
    exact mem_movesFrom_iff.1 hb
  · intro h
    exact ⟨i, lt_size_of_next? h, (c, j), mem_movesFrom_iff.2 h, rfl, rfl⟩

/-- The table says what is accepted. -/
theorem acceptsFrom_of_toTable_eq (h : d.toTable = d'.toTable) (i : Nat) (w : List Char) :
    d.acceptsFrom i w = d'.acceptsFrom i w := by
  have hfinals : (List.range d.size).map d.isFinal = (List.range d'.size).map d'.isFinal := by
    rw [← finals_eq, ← finals_eq]
    exact congrArg Table.finals h
  have hsize : d.size = d'.size := by
    have hlen := congrArg List.length hfinals
    rwa [List.length_map, List.length_map, List.length_range, List.length_range] at hlen
  have hfinal : ∀ j : Nat, d.isFinal j = d'.isFinal j := by
    intro j
    by_cases hj : j < d.size
    · rw [← hsize] at hfinals
      exact List.map_inj_left.1 hfinals j (List.mem_range.2 hj)
    · rw [isFinal_eq_false (Nat.not_lt.1 hj), isFinal_eq_false (by omega)]
  have hnext : ∀ (j : Nat) c, d.next? j c = d'.next? j c := fun j c => Option.ext fun k => by
    have hedges : d.edges = d'.edges := congrArg Table.edges h
    rw [← mem_edges_iff, ← mem_edges_iff, hedges]
  have hrun : d.runFrom? i w = d'.runFrom? i w := by
    induction w generalizing i with
    | nil => rfl
    | cons c w ih =>
        rw [runFrom?, runFrom?, hnext]
        exact congrArg (Option.bind (d'.next? i c)) (funext fun j => ih j)
  rw [acceptsFrom, acceptsFrom, hrun, funext hfinal]

/-- Canonical automata of one language have one table. -/
theorem Canonical.toTable_eq (h : Canonical d) (h' : Canonical d') (hlang : SameLanguage d d') :
    d.toTable = d'.toTable := by
  have hsize : d.size = d'.size := Nat.le_antisymm
    ((h.size_le_states hlang).trans d'.size_states_le)
    ((h'.size_le_states hlang.symm).trans d.size_states_le)
  refine toTable_congr hsize (fun i hi => ?_) fun i hi c => Option.ext fun j => ?_
  · have hcorr := (corresponds_self h h' hlang hi).2 []
    exact hcorr
  · exact ⟨next?_of_next? h h' hlang, next?_of_next? h' h hlang.symm⟩

end Regular.Dfa
