import Regular.Dfa.Minimize
import Regular.Proofs.Dfa.Walk

/-!
# Divisions into blocks

A division of the states on a way from the start is a list of disjoint, non-empty blocks that
cover them, each of which is uniform in finality (`Dfa.IsPartition`). How the blocks are
listed does not matter to that, so it survives the sorting by least members; what it takes to
number the members of the blocks (`Dfa.blockNumbers_eq_some_iff`) and to bound the number of
blocks (`Dfa.IsPartition.length_le`) is here too.
-/

namespace Regular

/-! ## Groups and least members -/

theorem nodup_eraseDups {κ : Type} [BEq κ] [LawfulBEq κ] (ks : List κ) : ks.eraseDups.Nodup := by
  induction h : ks.length using Nat.strongRecOn generalizing ks with
  | ind n ih =>
      cases ks with
      | nil => exact List.nodup_nil
      | cons k ks =>
          rw [List.eraseDups_cons, List.nodup_cons]
          have hlen : (ks.filter fun b => !b == k).length < n := by
            have hle := List.length_filter_le (fun b => !b == k) ks
            rw [← h, List.length_cons]
            omega
          exact ⟨by simp, ih _ hlen _ rfl⟩

namespace SortedSet

variable {α κ : Type} [LT α] [BEq κ] [LawfulBEq κ] {key : α → κ} {s t : SortedSet α} {x y : α}

theorem mem_groupBy_iff :
    t ∈ s.groupBy key ↔ ∃ x ∈ s, t = s.filter fun y => key y == key x := by
  simp only [groupBy, List.mem_map, List.mem_eraseDups, mem_def]
  constructor
  · rintro ⟨k, ⟨x, hx, rfl⟩, rfl⟩
    exact ⟨x, hx, rfl⟩
  · rintro ⟨x, hx, rfl⟩
    exact ⟨key x, ⟨x, hx, rfl⟩, rfl⟩

/-- Two members are in one group if their keys are equal. -/
theorem exists_group_iff :
    (∃ t ∈ s.groupBy key, x ∈ t ∧ y ∈ t) ↔ x ∈ s ∧ y ∈ s ∧ key x = key y := by
  constructor
  · rintro ⟨t, ht, hx, hy⟩
    obtain ⟨z, -, rfl⟩ := mem_groupBy_iff.1 ht
    rw [mem_filter, beq_iff_eq] at hx hy
    exact ⟨hx.1, hy.1, hx.2.trans hy.2.symm⟩
  · rintro ⟨hx, hy, heq⟩
    refine ⟨_, mem_groupBy_iff.2 ⟨x, hx, rfl⟩, ?_, ?_⟩
    · exact mem_filter.2 ⟨hx, beq_self_eq_true _⟩
    · exact mem_filter.2 ⟨hy, beq_iff_eq.2 heq.symm⟩

theorem exists_mem_groupBy (key : α → κ) (h : x ∈ s) : ∃ t ∈ s.groupBy key, x ∈ t := by
  obtain ⟨t, ht, hx, -⟩ := exists_group_iff.2 ⟨h, h, (rfl : key x = key x)⟩
  exact ⟨t, ht, hx⟩

theorem mem_of_mem_groupBy (h : t ∈ s.groupBy key) (hx : x ∈ t) : x ∈ s := by
  obtain ⟨y, _, rfl⟩ := mem_groupBy_iff.1 h
  exact (mem_filter.1 hx).1

theorem ne_empty_of_mem_groupBy (h : t ∈ s.groupBy key) : t ≠ ∅ := by
  obtain ⟨x, hx, rfl⟩ := mem_groupBy_iff.1 h
  intro hempty
  have hmem : x ∈ s.filter fun y => key y == key x := mem_filter.2 ⟨hx, beq_self_eq_true _⟩
  rw [hempty] at hmem
  exact not_mem_empty hmem

theorem disjoint_groupBy (key : α → κ) (s : SortedSet α) :
    (s.groupBy key).Pairwise fun a b => ∀ x ∈ a, x ∉ b := by
  refine List.pairwise_map.2 ((nodup_eraseDups _).imp fun hne x hx hx' => ?_)
  rw [mem_filter, beq_iff_eq] at hx hx'
  exact hne (hx.2.symm.trans hx'.2)

theorem groupBy_ne_nil (h : x ∈ s) : s.groupBy key ≠ [] :=
  List.ne_nil_of_mem (mem_groupBy_iff.2 ⟨x, h, rfl⟩)

end SortedSet

theorem IdSet.first?_eq_some_iff {s : IdSet} {i : Nat} :
    s.first? = some i ↔ i ∈ s ∧ ∀ j ∈ s, i ≤ j := by
  obtain ⟨l, h⟩ := s
  simp only [SortedSet.first?, SortedSet.mem_def]
  cases l with
  | nil => simp
  | cons a as =>
      rw [List.pairwise_cons] at h
      rw [List.head?_cons, Option.some.injEq]
      constructor
      · rintro rfl
        refine ⟨List.mem_cons_self .., fun j hj => ?_⟩
        rcases List.mem_cons.1 hj with rfl | hj
        · exact Nat.le_refl _
        · exact Nat.le_of_lt (h.1 j hj)
      · rintro ⟨hi, hleast⟩
        rcases List.mem_cons.1 hi with rfl | hi
        · rfl
        · exact Nat.le_antisymm (Nat.le_of_lt (h.1 i hi)) (hleast a (List.mem_cons_self ..))

theorem IdSet.exists_first? {s : IdSet} (h : s ≠ ∅) : ∃ i, s.first? = some i := by
  obtain ⟨l, hl⟩ := s
  cases l with
  | nil => exact absurd rfl h
  | cons a as => exact ⟨a, rfl⟩

namespace Dfa

variable {d : Dfa} {blocks blocks' : List IdSet} {b : IdSet} {i j k l : Nat}

/-! ## Being in a block -/

/-- The state `i` is in the block with the number `k`. -/
def InBlock (blocks : List IdSet) (k i : Nat) : Prop := ∃ b, blocks[k]? = some b ∧ i ∈ b

/-- The two states are in one block. -/
def SameBlock (blocks : List IdSet) (i j : Nat) : Prop := ∃ b ∈ blocks, i ∈ b ∧ j ∈ b

/-- No state is in two blocks. -/
def Disjoint (blocks : List IdSet) : Prop := blocks.Pairwise fun a b => ∀ i ∈ a, i ∉ b

theorem InBlock.lt_length (h : InBlock blocks k i) : k < blocks.length := by
  obtain ⟨b, hb, -⟩ := h
  exact (List.getElem?_eq_some_iff.1 hb).1

theorem exists_inBlock_iff : (∃ k, InBlock blocks k i) ↔ ∃ b ∈ blocks, i ∈ b := by
  constructor
  · rintro ⟨k, b, hb, hi⟩
    exact ⟨b, List.mem_of_getElem? hb, hi⟩
  · rintro ⟨b, hb, hi⟩
    obtain ⟨k, hk⟩ := List.getElem?_of_mem hb
    exact ⟨k, b, hk, hi⟩

theorem sameBlock_iff : SameBlock blocks i j ↔ ∃ k, InBlock blocks k i ∧ InBlock blocks k j := by
  constructor
  · rintro ⟨b, hb, hi, hj⟩
    obtain ⟨k, hk⟩ := List.getElem?_of_mem hb
    exact ⟨k, ⟨b, hk, hi⟩, b, hk, hj⟩
  · rintro ⟨k, ⟨b, hb, hi⟩, b', hb', hj⟩
    obtain rfl := Option.some.inj (hb.symm.trans hb')
    exact ⟨b, List.mem_of_getElem? hb, hi, hj⟩

theorem Disjoint.inBlock_unique (h : Disjoint blocks) (hk : InBlock blocks k i)
    (hl : InBlock blocks l i) : k = l := by
  obtain ⟨a, ha, hia⟩ := hk
  obtain ⟨b, hb, hib⟩ := hl
  obtain ⟨hka, rfl⟩ := List.getElem?_eq_some_iff.1 ha
  obtain ⟨hlb, rfl⟩ := List.getElem?_eq_some_iff.1 hb
  have hpairwise := List.pairwise_iff_getElem.1 h
  rcases Nat.lt_trichotomy k l with hlt | rfl | hlt
  · exact absurd hib (hpairwise k l hka hlb hlt i hia)
  · rfl
  · exact absurd hia (hpairwise l k hlb hka hlt i hib)

theorem Disjoint.sameBlock_iff (h : Disjoint blocks) (hi : InBlock blocks k i) :
    SameBlock blocks i j ↔ InBlock blocks k j := by
  rw [Dfa.sameBlock_iff]
  constructor
  · rintro ⟨l, hl, hj⟩
    exact h.inBlock_unique hl hi ▸ hj
  · intro hj
    exact ⟨k, hi, hj⟩

theorem Disjoint.sameBlock_iff_mem (h : Disjoint blocks) (hb : b ∈ blocks) (hi : i ∈ b) :
    SameBlock blocks i j ↔ j ∈ b := by
  obtain ⟨k, hk⟩ := List.getElem?_of_mem hb
  rw [h.sameBlock_iff ⟨b, hk, hi⟩]
  constructor
  · rintro ⟨b', hb', hj⟩
    obtain rfl := Option.some.inj (hk.symm.trans hb')
    exact hj
  · intro hj
    exact ⟨b, hk, hj⟩

/-! ## The numbers of the blocks -/

theorem getD_setIfInBounds (numbers : Array (Option Nat)) (ids : List StateId) (k i : Nat) :
    (ids.foldl (fun numbers i => numbers.setIfInBounds i (some k)) numbers).getD i none =
      if i ∈ ids ∧ i < numbers.size then some k else numbers.getD i none := by
  induction ids generalizing numbers with
  | nil => simp
  | cons a as ih =>
      rw [List.foldl_cons, ih, Array.size_setIfInBounds]
      simp only [Array.getD_eq_getD_getElem?, Array.getElem?_setIfInBounds, List.mem_cons]
      by_cases hia : a = i
      · subst hia
        by_cases hlt : a < numbers.size <;> simp [hlt]
      · simp [hia, Ne.symm hia]

theorem size_setIfInBounds (numbers : Array (Option Nat)) (ids : List StateId) (k : Nat) :
    (ids.foldl (fun numbers i => numbers.setIfInBounds i (some k)) numbers).size =
      numbers.size := by
  induction ids generalizing numbers with
  | nil => rfl
  | cons a as ih => rw [List.foldl_cons, ih, Array.size_setIfInBounds]

/-- `blockNumbers` with any numbers to begin with and any number for the first block. -/
def numbersFrom (blocks : List IdSet) (start : Nat) (numbers : Array (Option Nat)) :
    Array (Option Nat) :=
  (blocks.zipIdx start).foldl (fun numbers (block, k) =>
    block.toList.foldl (fun numbers i => numbers.setIfInBounds i (some k)) numbers) numbers

theorem numbersFrom_cons (b : IdSet) (bs : List IdSet) (start : Nat)
    (numbers : Array (Option Nat)) :
    numbersFrom (b :: bs) start numbers = numbersFrom bs (start + 1)
      (b.toList.foldl (fun numbers i => numbers.setIfInBounds i (some start)) numbers) := rfl

theorem size_numbersFrom (blocks : List IdSet) (start : Nat) (numbers : Array (Option Nat)) :
    (numbersFrom blocks start numbers).size = numbers.size := by
  induction blocks generalizing start numbers with
  | nil => rfl
  | cons b bs ih => rw [numbersFrom_cons, ih, size_setIfInBounds]

theorem getD_numbersFrom_of_not_mem (h : ∀ b ∈ blocks, i ∉ b) (start : Nat)
    (numbers : Array (Option Nat)) :
    (numbersFrom blocks start numbers).getD i none = numbers.getD i none := by
  induction blocks generalizing start numbers with
  | nil => rfl
  | cons b bs ih =>
      rw [List.forall_mem_cons] at h
      rw [numbersFrom_cons, ih h.2, getD_setIfInBounds, if_neg fun hi => h.1 hi.1]

theorem getD_numbersFrom (h : Disjoint blocks) {numbers : Array (Option Nat)}
    (hi : i < numbers.size) (hk : InBlock blocks k i) (start : Nat) :
    (numbersFrom blocks start numbers).getD i none = some (start + k) := by
  induction blocks generalizing k start numbers with
  | nil => exact absurd hk.lt_length (Nat.not_lt_zero k)
  | cons b bs ih =>
      rw [Disjoint, List.pairwise_cons] at h
      obtain ⟨b', hb', hmem⟩ := hk
      cases k with
      | zero =>
          obtain rfl := Option.some.inj hb'
          rw [numbersFrom_cons, getD_numbersFrom_of_not_mem fun b' hb' => h.1 b' hb' i hmem,
            getD_setIfInBounds, if_pos ⟨hmem, hi⟩, Nat.add_zero]
      | succ k =>
          rw [numbersFrom_cons, ih h.2 (by rwa [size_setIfInBounds]) ⟨b', hb', hmem⟩]
          congr 1
          omega

/-- The number of a state is that of its block. -/
theorem blockNumbers_eq_some_iff (h : Disjoint blocks) {size : Nat} :
    (blockNumbers size blocks).getD i none = some k ↔ i < size ∧ InBlock blocks k i := by
  have hdef : blockNumbers size blocks = numbersFrom blocks 0 (Array.replicate size none) := rfl
  by_cases hi : i < size
  · have hsize : i < (Array.replicate size (none : Option Nat)).size := by simpa using hi
    by_cases hmem : ∃ m, InBlock blocks m i
    · obtain ⟨m, hm⟩ := hmem
      rw [hdef, getD_numbersFrom h hsize hm, Nat.zero_add, Option.some.injEq]
      constructor
      · rintro rfl
        exact ⟨hi, hm⟩
      · rintro ⟨-, hk⟩
        exact h.inBlock_unique hm hk
    · have hnone : (blockNumbers size blocks).getD i none = none := by
        rw [hdef, getD_numbersFrom_of_not_mem fun b hb hib =>
          hmem (exists_inBlock_iff.2 ⟨b, hb, hib⟩)]
        simp [hi]
      rw [hnone]
      exact iff_of_false (by simp) fun hk => hmem ⟨k, hk.2⟩
  · have hnone : (blockNumbers size blocks).getD i none = none := by
      have hsize : (blockNumbers size blocks).size = size := by
        rw [hdef, size_numbersFrom, Array.size_replicate]
      rw [Array.getD_eq_getD_getElem?, Array.getElem?_eq_none (by omega)]
      rfl
    rw [hnone]
    exact iff_of_false (by simp) fun hk => hi hk.1

/-! ## Divisions -/

/-- The blocks divide the states on a way from the start, and no block mixes finality. -/
structure IsPartition (d : Dfa) (blocks : List IdSet) : Prop where
  nonempty : ∀ b ∈ blocks, b ≠ ∅
  cover : ∀ i, i ∈ d.states ↔ ∃ b ∈ blocks, i ∈ b
  disjoint : Disjoint blocks
  uniform : ∀ b ∈ blocks, ∀ i ∈ b, ∀ j ∈ b, d.isFinal i = d.isFinal j

theorem Disjoint.perm (h : Disjoint blocks) (hperm : blocks.Perm blocks') : Disjoint blocks' :=
  List.Pairwise.perm h hperm fun hab i hb ha => hab i ha hb

theorem IsPartition.perm (h : d.IsPartition blocks) (hperm : blocks.Perm blocks') :
    d.IsPartition blocks' where
  nonempty b hb := h.nonempty b (hperm.mem_iff.2 hb)
  cover i := by
    rw [h.cover]
    simp only [hperm.mem_iff]
  disjoint := h.disjoint.perm hperm
  uniform b hb := h.uniform b (hperm.mem_iff.2 hb)

theorem sameBlock_perm (hperm : blocks.Perm blocks') :
    SameBlock blocks i j ↔ SameBlock blocks' i j := by
  simp only [SameBlock, hperm.mem_iff]

theorem IsPartition.nodup (h : d.IsPartition blocks) : blocks.Nodup := by
  refine h.disjoint.imp_of_mem fun {a b} ha _ hab heq => ?_
  obtain ⟨i, hi⟩ := SortedSet.exists_mem_of_ne_empty (h.nonempty a ha)
  exact hab i hi (heq ▸ hi)

/-- A division into blocks has no more blocks than there are states: the least members of the
blocks are distinct states. -/
theorem IsPartition.length_le (h : d.IsPartition blocks) : blocks.length ≤ d.states.size := by
  have hfirst : ∀ b ∈ blocks, b.first?.getD 0 ∈ b := by
    intro b hb
    obtain ⟨i, hi⟩ := IdSet.exists_first? (h.nonempty b hb)
    rw [hi, Option.getD_some]
    exact (IdSet.first?_eq_some_iff.1 hi).1
  have hnodup : (blocks.map fun b => b.first?.getD 0).Nodup := by
    refine List.pairwise_map.2 (List.Pairwise.imp_of_mem ?_ h.disjoint)
    intro a b ha hb hdisjoint heq
    exact hdisjoint _ (hfirst a ha) (heq ▸ hfirst b hb)
  have hsub : (blocks.map fun b => b.first?.getD 0) ⊆ d.states.toList := by
    intro i hi
    obtain ⟨b, hb, rfl⟩ := List.mem_map.1 hi
    exact (h.cover _).2 ⟨b, hb, hfirst b hb⟩
  have hle := (List.subperm_of_subset hnodup hsub).length_le
  rwa [List.length_map] at hle

/-! ## Sorting -/

theorem sortBlocks_perm (blocks : List IdSet) : (sortBlocks blocks).Perm blocks :=
  List.mergeSort_perm ..

/-- The blocks are in the order of their least members. -/
def Ascending (blocks : List IdSet) : Prop :=
  blocks.Pairwise fun a b => ∀ i j, a.first? = some i → b.first? = some j → i < j

theorem ascending_sortBlocks (h : d.IsPartition blocks) : Ascending (sortBlocks blocks) := by
  have hle : (sortBlocks blocks).Pairwise fun a b => a.first?.getD 0 ≤ b.first?.getD 0 := by
    refine (List.pairwise_mergeSort ?_ ?_ blocks).imp fun hab => by simpa using hab
    · intro a b c hab hbc
      simp only [decide_eq_true_eq] at *
      exact Nat.le_trans hab hbc
    · intro a b
      simpa using Nat.le_total _ _
  refine (hle.and (h.disjoint.perm (sortBlocks_perm blocks).symm)).imp ?_
  rintro a b ⟨hab, hdisjoint⟩ i j hi hj
  rw [hi, hj] at hab
  rcases Nat.lt_or_eq_of_le hab with hlt | heq
  · exact hlt
  · have hib : i ∈ b := by
      have hjb := (IdSet.first?_eq_some_iff.1 hj).1
      simp only [Option.getD_some] at heq
      exact heq ▸ hjb
    exact absurd hib (hdisjoint i (IdSet.first?_eq_some_iff.1 hi).1)

end Dfa

end Regular
