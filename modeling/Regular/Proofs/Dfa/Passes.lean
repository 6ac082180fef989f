import Mathlib.Data.List.Permutation
import Regular.Proofs.Dfa.Minimal

/-!
# The course of the refinement

`Dfa.blocksAfter` follows the blocks from pass to pass. Each of these lists is a division of
the states on ways from the start (`Dfa.isPartition_blocksAfter`), so no two blocks of it are
equal, and counting blocks is enough to see whether a pass has split any: every block gives
at least one part, and the count goes up by the parts that are reported beyond the first of
each block that is split (`Dfa.IsPartition.reports`).

As there are no more blocks than states, some pass leaves the count as it is. The first such
pass is the last one, and it comes no later than there are states. From the list of its
predecessors all that is reported is known, whatever the fuel, as long as there is some for
each pass (`Dfa.refinePasses_eq`). `Dfa.minimizeObserved_course` puts this together.
-/

namespace Regular.Dfa

variable {d : Dfa} {blocks : List IdSet} {i k last fuel : Nat}

/-! ## What one pass reports -/

/-- The blocks that a pass splits, with their parts. -/
def splitsOf (d : Dfa) (blocks : List IdSet) : List (IdSet × List IdSet) :=
  (blocks.map fun b => (b, d.splitBlock (blockNumbers d.size blocks) b)).filter fun s =>
    1 < s.2.length

theorem mem_splitsOf_iff {s : IdSet × List IdSet} :
    s ∈ d.splitsOf blocks ↔
      s.1 ∈ blocks ∧ s.2 = d.splitBlock (blockNumbers d.size blocks) s.1 ∧ 1 < s.2.length := by
  obtain ⟨b, parts⟩ := s
  simp only [splitsOf, List.mem_filter, List.mem_map, Prod.mk.injEq, decide_eq_true_eq]
  constructor
  · rintro ⟨⟨a, ha, rfl, rfl⟩, hlt⟩
    exact ⟨ha, rfl, hlt⟩
  · rintro ⟨hb, rfl, hlt⟩
    exact ⟨⟨b, hb, rfl, rfl⟩, hlt⟩

/-- The events of a pass are its splits. -/
theorem refine_events (d : Dfa) (blocks : List IdSet) :
    (d.refine blocks).1 = (d.splitsOf blocks).map fun s => .split s.1 s.2 := by
  simp only [refine, splitsOf]
  generalize (blocks.map fun b => (b, d.splitBlock (blockNumbers d.size blocks) b)) = divided
  induction divided with
  | nil => rfl
  | cons s divided ih =>
      rw [List.filterMap_cons, List.filter_cons, ih]
      by_cases hlt : 1 < s.2.length <;> simp [hlt]

/-- The parts are not empty, no two of them share a member, and together they are the
block. -/
structure Divides (parts : List IdSet) (b : IdSet) : Prop where
  nonempty : ∀ part ∈ parts, part ≠ ∅
  disjoint : Disjoint parts
  cover : ∀ i, i ∈ b ↔ ∃ part ∈ parts, i ∈ part

/-- The splits tell how a pass makes `blocks'` of `blocks`: each block that is split is
reported once, with two parts or more that divide it, in the order of the blocks; its parts
take its place, and the other blocks stay. -/
structure Reports (splits : List (IdSet × List IdSet)) (blocks blocks' : List IdSet) : Prop where
  once : (splits.map (·.1)).Sublist blocks
  divided : ∀ s ∈ splits, 2 ≤ s.2.length ∧ Divides s.2 s.1
  replaced : ∀ b, b ∈ blocks' ↔
    (∃ s ∈ splits, b ∈ s.2) ∨ b ∈ blocks ∧ ∀ s ∈ splits, s.1 ≠ b
  grown : blocks'.length = blocks.length + (splits.map fun s => s.2.length - 1).sum

/-- Of lists that replace the items of a list, only those count that have more than one
item. -/
theorem length_flatMap_eq {α β : Type} {f : α → List β} {xs : List α} (h : ∀ x ∈ xs, f x ≠ []) :
    (xs.flatMap f).length = xs.length +
      (((xs.map fun x => (x, f x)).filter fun s => 1 < s.2.length).map
        fun s => s.2.length - 1).sum := by
  induction xs with
  | nil => rfl
  | cons x xs ih =>
      rw [List.forall_mem_cons] at h
      have hpos := List.length_pos_iff.2 h.1
      rw [List.flatMap_cons, List.length_append, ih h.2, List.map_cons, List.filter_cons,
        List.length_cons]
      by_cases hlt : 1 < (f x).length
      · simp only [hlt, decide_true, if_true, List.map_cons, List.sum_cons]
        omega
      · simp only [hlt, decide_false, Bool.false_eq_true, if_false]
        omega

theorem divides_splitBlock (d : Dfa) (numbers : Array (Option Nat)) (b : IdSet) :
    Divides (d.splitBlock numbers b) b where
  nonempty _ hpart := SortedSet.ne_empty_of_mem_groupBy hpart
  disjoint := SortedSet.disjoint_groupBy _ b
  cover i := by
    constructor
    · exact SortedSet.exists_mem_groupBy _
    · rintro ⟨part, hpart, hi⟩
      exact SortedSet.mem_of_mem_groupBy hpart hi

/-- A block that is not split is its only part. -/
theorem splitBlock_eq_singleton {numbers : Array (Option Nat)} {b : IdSet}
    (h : d.splitBlock numbers b ≠ []) (hlt : ¬1 < (d.splitBlock numbers b).length) :
    d.splitBlock numbers b = [b] := by
  have hpos := List.length_pos_iff.2 h
  obtain ⟨part, hpart⟩ := List.length_eq_one_iff.1
    (show (d.splitBlock numbers b).length = 1 by omega)
  have hcover := (d.divides_splitBlock numbers b).cover
  rw [hpart] at hcover ⊢
  have heq : b = part := SortedSet.ext_mem fun i => by
    rw [hcover]
    simp only [List.mem_singleton, exists_eq_left]
  rw [heq]

theorem IsPartition.reports (h : d.IsPartition blocks) :
    Reports (d.splitsOf blocks) blocks (d.refine blocks).2 where
  once := by
    have hmap : (blocks.map fun b =>
        (b, d.splitBlock (blockNumbers d.size blocks) b)).map (·.1) = blocks := by
      rw [List.map_map]
      exact List.map_id _
    have hsub := (List.filter_sublist (p := fun s : IdSet × List IdSet => 1 < s.2.length)
      (l := blocks.map fun b => (b, d.splitBlock (blockNumbers d.size blocks) b))).map (·.1)
    rwa [hmap] at hsub
  divided s hs := by
    obtain ⟨-, heq, hlt⟩ := mem_splitsOf_iff.1 hs
    exact ⟨hlt, heq ▸ d.divides_splitBlock _ s.1⟩
  replaced b := by
    have hone : ∀ a ∈ blocks,
        ¬1 < (d.splitBlock (blockNumbers d.size blocks) a).length →
          d.splitBlock (blockNumbers d.size blocks) a = [a] := fun a ha =>
      splitBlock_eq_singleton (h.splitBlock_ne_nil a ha)
    rw [refine_eq, (sortBlocks_perm _).mem_iff, splitBlocks, List.mem_flatMap]
    constructor
    · rintro ⟨a, ha, hb⟩
      by_cases hlt : 1 < (d.splitBlock (blockNumbers d.size blocks) a).length
      · exact Or.inl ⟨(a, _), mem_splitsOf_iff.2 ⟨ha, rfl, hlt⟩, hb⟩
      · rw [hone a ha hlt, List.mem_singleton] at hb
        subst hb
        refine Or.inr ⟨ha, fun s hs heq => hlt ?_⟩
        obtain ⟨-, hparts, hlen⟩ := mem_splitsOf_iff.1 hs
        rwa [hparts, heq] at hlen
    · rintro (⟨s, hs, hb⟩ | ⟨hb, hnot⟩)
      · obtain ⟨hmem, heq, -⟩ := mem_splitsOf_iff.1 hs
        exact ⟨s.1, hmem, heq ▸ hb⟩
      · refine ⟨b, hb, ?_⟩
        rw [hone b hb fun hlt => hnot (b, _) (mem_splitsOf_iff.2 ⟨hb, rfl, hlt⟩) rfl]
        exact List.mem_singleton_self b
  grown := by
    rw [refine_eq, (sortBlocks_perm _).length_eq]
    exact length_flatMap_eq h.splitBlock_ne_nil

theorem Reports.le_length {splits : List (IdSet × List IdSet)} {blocks' : List IdSet}
    (h : Reports splits blocks blocks') : blocks.length ≤ blocks'.length := by
  have hgrown := h.grown
  omega

/-- A pass that adds no block reports no split. -/
theorem Reports.eq_nil {splits : List (IdSet × List IdSet)} {blocks' : List IdSet}
    (h : Reports splits blocks blocks') (hlen : blocks'.length = blocks.length) : splits = [] := by
  cases splits with
  | nil => rfl
  | cons s splits =>
      have hgrown := h.grown
      have htwo := (h.divided s (List.mem_cons_self ..)).1
      rw [List.map_cons, List.sum_cons] at hgrown
      omega

/-! ## From pass to pass -/

/-- The blocks after so many passes. -/
def blocksAfter (d : Dfa) : Nat → List IdSet
  | 0 => d.initialBlocks
  | k + 1 => (d.refine (d.blocksAfter k)).2

/-- What is reported by the pass that comes after `k` others. -/
def passEvents (d : Dfa) (k : Nat) : List Event :=
  (d.splitsOf (d.blocksAfter k)).map (fun s => .split s.1 s.2) ++
    [.pass (k + 1) (d.blocksAfter (k + 1)).length]

/-- A pass makes a division of a division. -/
theorem IsPartition.refine (h : d.IsPartition blocks) : d.IsPartition (d.refine blocks).2 := by
  rw [refine_eq]
  exact (isPartition_splitBlocks h).perm (sortBlocks_perm _).symm

theorem isPartition_blocksAfter (d : Dfa) (k : Nat) : d.IsPartition (d.blocksAfter k) := by
  induction k with
  | zero => exact d.isPartition_initialBlocks
  | succ k ih => exact ih.refine

theorem reports_blocksAfter (d : Dfa) (k : Nat) :
    Reports (d.splitsOf (d.blocksAfter k)) (d.blocksAfter k) (d.blocksAfter (k + 1)) :=
  (d.isPartition_blocksAfter k).reports

/-- The passes from the one after `k` others to the one after `last` others, which is the
first that adds no block. -/
theorem refinePasses_eq (hstop : (d.blocksAfter (last + 1)).length = (d.blocksAfter last).length)
    (hmore : ∀ k < last, (d.blocksAfter (k + 1)).length ≠ (d.blocksAfter k).length)
    (hk : k ≤ last) (hfuel : last < k + fuel) :
    d.refinePasses fuel (k + 1) (d.blocksAfter k) =
      ((List.range' k (last + 1 - k)).flatMap d.passEvents, d.blocksAfter (last + 1)) := by
  induction fuel generalizing k with
  | zero => omega
  | succ fuel ih =>
      have hrange : List.range' k (last + 1 - k) = k :: List.range' (k + 1) (last - k) := by
        rw [show last + 1 - k = last - k + 1 by omega, List.range'_succ]
      have hevents : (d.refine (d.blocksAfter k)).1 ++
          [.pass (k + 1) (d.blocksAfter (k + 1)).length] = d.passEvents k := by
        rw [refine_events]
        rfl
      have hblocks : (d.refine (d.blocksAfter k)).2 = d.blocksAfter (k + 1) := rfl
      rw [refinePasses, hrange, List.flatMap_cons]
      simp only [hblocks, hevents]
      rcases Nat.lt_or_eq_of_le hk with hlt | rfl
      · rw [if_neg (hmore k hlt), ih hlt (by omega), Nat.add_sub_add_right]
      · rw [if_pos hstop, Nat.sub_self, List.range'_zero, List.flatMap_nil, List.append_nil]

/-- The course of a refinement that takes so many passes: the blocks are a division all the
time, each pass reports what it splits, and each pass but the last adds a block. -/
structure Course (d : Dfa) (passes : Nat) : Prop where
  pos : 0 < passes
  le : passes ≤ d.states.size
  partition : ∀ k ≤ passes, d.IsPartition (d.blocksAfter k)
  reports : ∀ k < passes,
    Reports (d.splitsOf (d.blocksAfter k)) (d.blocksAfter k) (d.blocksAfter (k + 1))
  adds : ∀ k, k + 1 < passes → (d.blocksAfter k).length < (d.blocksAfter (k + 1)).length
  stops : (d.blocksAfter passes).length = (d.blocksAfter (passes - 1)).length
  quiet : d.splitsOf (d.blocksAfter (passes - 1)) = []

/-- Before the first pass that adds no block, there are more blocks than there have been
passes. -/
theorem lt_length_blocksAfter (hpos : 0 < d.size)
    (hmore : ∀ k < last, (d.blocksAfter (k + 1)).length ≠ (d.blocksAfter k).length) :
    last < (d.blocksAfter last).length := by
  induction last with
  | zero =>
      obtain ⟨b, hb, -⟩ := ((d.isPartition_blocksAfter 0).cover 0).1 (zero_mem_states hpos)
      exact List.length_pos_of_mem hb
  | succ last ih =>
      have hlt := ih fun k hk => hmore k (Nat.lt_succ_of_lt hk)
      have hle := (d.reports_blocksAfter last).le_length
      have hne := hmore last (Nat.lt_succ_self last)
      omega

/-- Some pass adds no block, since there are no more blocks than states; the first such pass
ends the refinement. -/
theorem exists_course (hpos : 0 < d.size) : ∃ passes, d.Course passes ∧
    ∀ fuel ≥ passes, d.refinePasses fuel 1 d.initialBlocks =
      ((List.range passes).flatMap d.passEvents, d.blocksAfter passes) := by
  have hexists : ∃ k, (d.blocksAfter (k + 1)).length = (d.blocksAfter k).length := by
    by_contra hnone
    have hlt : d.states.size < (d.blocksAfter d.states.size).length :=
      lt_length_blocksAfter hpos fun k _ heq => hnone ⟨k, heq⟩
    exact Nat.not_le.2 hlt (d.isPartition_blocksAfter _).length_le
  obtain ⟨last, hstop, hmore⟩ : ∃ last,
      (d.blocksAfter (last + 1)).length = (d.blocksAfter last).length ∧
      ∀ k < last, (d.blocksAfter (k + 1)).length ≠ (d.blocksAfter k).length :=
    ⟨Nat.find hexists, Nat.find_spec hexists, fun _ => Nat.find_min hexists⟩
  refine ⟨last + 1, ?course, fun fuel hfuel => ?passes⟩
  case course =>
    refine ⟨Nat.succ_pos last, ?_, fun k _ => d.isPartition_blocksAfter k,
      fun k _ => d.reports_blocksAfter k, fun k hk => ?_, hstop,
      (d.reports_blocksAfter last).eq_nil hstop⟩
    · exact Nat.lt_of_lt_of_le (lt_length_blocksAfter hpos hmore)
        (d.isPartition_blocksAfter last).length_le
    · have hne := hmore k (Nat.lt_of_succ_lt_succ hk)
      exact Nat.lt_of_le_of_ne (d.reports_blocksAfter k).le_length hne.symm
  case passes =>
    have hpasses := refinePasses_eq hstop hmore (Nat.zero_le last) (show last < 0 + fuel by omega)
    rw [Nat.sub_zero, ← List.range_eq_range'] at hpasses
    exact hpasses

/-- With fuel for as many passes as there are states on ways from the start, more of it makes
no difference. -/
theorem refinePasses_fuel {fuel' : Nat} (hpos : 0 < d.size) (hfuel : d.states.size ≤ fuel)
    (hfuel' : d.states.size ≤ fuel') :
    d.refinePasses fuel 1 d.initialBlocks = d.refinePasses fuel' 1 d.initialBlocks := by
  obtain ⟨passes, hcourse, hall⟩ := exists_course hpos
  rw [hall fuel (Nat.le_trans hcourse.le hfuel), hall fuel' (Nat.le_trans hcourse.le hfuel')]

/-- Minimizing an automaton that has states takes at most as many passes as there are states
on ways from the start, and ends for no lack of fuel. Reported are first, if there are any,
the states on no way from the start, all at once, and then pass by pass the splits and the
number of blocks, from which the minimal automaton has its number of states. -/
theorem minimizeObserved_course (hpos : 0 < d.size) : ∃ passes, d.Course passes ∧
    (∀ fuel ≥ passes, d.refinePasses fuel 1 d.initialBlocks =
      ((List.range passes).flatMap d.passEvents, d.blocksAfter passes)) ∧
    d.minimizeObserved.events = (if d.unreachable = ∅ then [] else [.pruned d.unreachable]) ++
      (List.range passes).flatMap d.passEvents ∧
    (∀ i, i ∈ d.unreachable ↔ i < d.size ∧ i ∉ d.states) ∧
    d.minimize.size = (d.blocksAfter passes).length := by
  obtain ⟨passes, hcourse, hall⟩ := exists_course hpos
  have hrun := hall d.size (Nat.le_trans hcourse.le d.size_states_le)
  refine ⟨passes, hcourse, hall, ?_, fun i => ?_, ?_⟩
  · rw [minimizeObserved, if_neg (Nat.ne_of_gt hpos)]
    simp only [hrun, SortedSet.isEmpty_iff]
  · rw [unreachable, IdSet.mem_below, decide_eq_true_eq]
  · rw [minimize, minimizeObserved, if_neg (Nat.ne_of_gt hpos)]
    simp only [hrun, size_quotient]

/-- Three states in a row, the last of them final, and a final state on no way from the
start. -/
def inARow : Dfa where
  nodes := #[⟨false, ⟨[('r', 1)], List.pairwise_singleton ..⟩, none⟩,
    ⟨false, ⟨[('s', 2)], List.pairwise_singleton ..⟩, none⟩, .new true, .new true]

theorem minimizeObserved_course_inARow :
    0 < inARow.size ∧
    inARow.minimizeObserved.events =
      [.pruned (.singleton 3),
        .split ((SortedSet.singleton 0).insert 1) [.singleton 0, .singleton 1],
        .pass 1 3, .pass 2 3] ∧
    ∃ passes, inARow.Course passes ∧
      inARow.minimize.size = (inARow.blocksAfter passes).length := by
  have hpos : 0 < inARow.size := by decide
  obtain ⟨passes, hcourse, -, -, -, hsize⟩ := minimizeObserved_course hpos
  exact ⟨hpos, by cbv, passes, hcourse, hsize⟩

end Regular.Dfa
