import Regular.Proofs.Dfa.Blocks

/-!
# The refinement finds the equivalent states

Two states are equivalent if every word leads from both to states of one finality or from
neither to a state (`Dfa.Equivalent`). A missing move counts as a difference to a move into a
state from which nothing is accepted.

`Dfa.refinePasses` goes through divisions that all keep equivalent states together
(`Dfa.IsCoarse`), because a pass separates states only by the blocks of their targets. When a
pass splits nothing, the division is stable (`Dfa.IsStable`): the states of a block move to
states of a block. Then a block holds nothing but equivalent states, by induction on the
word. So the last division is that into classes of equivalent states
(`Dfa.refinePasses_spec`).

A pass that is not the last adds a block, and there are no more blocks than states; so fuel
for as many passes as there are states is enough.
-/

namespace Regular.Dfa

variable {d : Dfa} {blocks blocks' : List IdSet} {i j k : Nat} {c : Char} {w : List Char}

/-! ## Equivalent states -/

/-- Every word leads from both states to states of one finality, or from neither to a
state. -/
def Equivalent (d : Dfa) (i j : Nat) : Prop :=
  ∀ w, (d.walk? i w).map d.isFinal = (d.walk? j w).map d.isFinal

theorem Equivalent.isFinal_eq (h : d.Equivalent i j) : d.isFinal i = d.isFinal j :=
  Option.some.inj (h [])

/-- What holds of the targets of two states for every character: either both are missing or
both are there and related. -/
def MovesRelated (d : Dfa) (related : Nat → Nat → Prop) (i j : Nat) : Prop :=
  ∀ c, match d.move? i c, d.move? j c with
    | none, none => True
    | some a, some b => related a b
    | _, _ => False

theorem MovesRelated.mono {related related' : Nat → Nat → Prop}
    (himp : ∀ a b, related a b → related' a b) (h : d.MovesRelated related i j) :
    d.MovesRelated related' i j := by
  intro c
  have hc := h c
  revert hc
  cases d.move? i c <;> cases d.move? j c
  · exact id
  · exact id
  · exact id
  · exact himp _ _

theorem Equivalent.acceptsFrom_eq (h : d.Equivalent i j) (w : List Char) :
    d.acceptsFrom i w = d.acceptsFrom j w := by
  have hany := congrArg (Option.any id) (h w)
  rw [Option.any_map, Option.any_map] at hany
  rw [Dfa.acceptsFrom_eq, Dfa.acceptsFrom_eq]
  exact hany

theorem Equivalent.movesRelated (h : d.Equivalent i j) : d.MovesRelated d.Equivalent i j := by
  intro c
  have hwalk : ∀ w, ((d.move? i c).bind (d.walk? · w)).map d.isFinal =
      ((d.move? j c).bind (d.walk? · w)).map d.isFinal := fun w => h (c :: w)
  revert hwalk
  cases d.move? i c with
  | none =>
      cases d.move? j c with
      | none => exact fun _ => trivial
      | some b => exact fun hwalk => nomatch hwalk []
  | some a =>
      cases d.move? j c with
      | none => exact fun hwalk => nomatch hwalk []
      | some b => exact fun hwalk => hwalk

/-- States are equivalent once they are in a relation that respects finality and moves. -/
theorem equivalent_of_related {related : Nat → Nat → Prop}
    (hfinal : ∀ i j, related i j → d.isFinal i = d.isFinal j)
    (hmoves : ∀ i j, related i j → d.MovesRelated related i j) (h : related i j) :
    d.Equivalent i j := by
  intro w
  induction w generalizing i j with
  | nil => exact congrArg some (hfinal i j h)
  | cons c w ih =>
      have hc := hmoves i j h c
      rw [walk?, walk?]
      revert hc
      cases d.move? i c with
      | none =>
          cases d.move? j c with
          | none => exact fun _ => rfl
          | some b => exact False.elim
      | some a =>
          cases d.move? j c with
          | none => exact False.elim
          | some b => exact fun hab => ih hab

/-! ## One pass -/

/-- Equivalent states are in one block. -/
def IsCoarse (d : Dfa) (blocks : List IdSet) : Prop :=
  ∀ i ∈ d.states, ∀ j ∈ d.states, d.Equivalent i j → SameBlock blocks i j

/-- The states of a block move to states of a block. -/
def IsStable (d : Dfa) (blocks : List IdSet) : Prop :=
  ∀ i j, SameBlock blocks i j → d.MovesRelated (SameBlock blocks) i j

theorem IsPartition.inBlock_iff (h : d.IsPartition blocks) :
    (∃ k, InBlock blocks k i) ↔ i ∈ d.states := by
  rw [exists_inBlock_iff, ← h.cover]

theorem SameBlock.mem_states (h : d.IsPartition blocks) (hij : SameBlock blocks i j) :
    i ∈ d.states ∧ j ∈ d.states := by
  obtain ⟨b, hb, hi, hj⟩ := hij
  exact ⟨(h.cover i).2 ⟨b, hb, hi⟩, (h.cover j).2 ⟨b, hb, hj⟩⟩

theorem behaviour_eq_entries (numbers : Array (Option Nat)) (i : Nat) :
    ∃ m : CharMap Nat, d.behaviour numbers i = m.entries ∧
      ∀ c, m.get? c = (d.next? i c).bind fun target => numbers.getD target none := by
  rw [behaviour, movesFrom]
  cases hnode : d.node? i with
  | none =>
      refine ⟨∅, rfl, fun c => ?_⟩
      rw [next?, hnode]
      rfl
  | some node =>
      refine ⟨node.moves.filterMap fun target => numbers.getD target none, rfl, fun c => ?_⟩
      rw [CharMap.get?_filterMap, next?, hnode]
      rfl

/-- Behaviours are equal if the targets have equal numbers. -/
theorem behaviour_eq_iff (numbers : Array (Option Nat)) :
    d.behaviour numbers i = d.behaviour numbers j ↔
      ∀ c, ((d.next? i c).bind fun target => numbers.getD target none) =
        (d.next? j c).bind fun target => numbers.getD target none := by
  obtain ⟨m, hm, hget⟩ := behaviour_eq_entries (d := d) numbers i
  obtain ⟨m', hm', hget'⟩ := behaviour_eq_entries (d := d) numbers j
  rw [hm, hm']
  constructor
  · intro heq c
    rw [← hget, ← hget', CharMap.get?, CharMap.get?, heq]
  · intro h
    have heq : m = m' := CharMap.ext_get? fun c => by rw [hget, hget', h]
    rw [heq]

/-- The number of the block to which a state on a way from the start moves. -/
theorem IsPartition.number_eq (h : d.IsPartition blocks) :
    ((d.next? i c).bind fun target => (blockNumbers d.size blocks).getD target none) = some k ↔
      ∃ a, d.move? i c = some a ∧ InBlock blocks k a := by
  simp only [Option.bind_eq_some_iff, blockNumbers_eq_some_iff h.disjoint, move?_eq_some_iff,
    and_assoc]

theorem IsPartition.number_eq_none (h : d.IsPartition blocks) (hi : i ∈ d.states) :
    ((d.next? i c).bind fun target => (blockNumbers d.size blocks).getD target none) = none ↔
      d.move? i c = none := by
  rw [Option.eq_none_iff_forall_ne_some, Option.eq_none_iff_forall_ne_some]
  constructor
  · intro hnone a ha
    obtain ⟨k, hk⟩ := h.inBlock_iff.2 (mem_states_of_move? hi ha)
    exact hnone k (h.number_eq.2 ⟨a, ha, hk⟩)
  · intro hnone k hk
    obtain ⟨a, ha, -⟩ := h.number_eq.1 hk
    exact hnone a ha

/-- States behave in the same way if they move to the same blocks. -/
theorem IsPartition.behaviour_eq_iff (h : d.IsPartition blocks) (hi : i ∈ d.states)
    (hj : j ∈ d.states) :
    d.behaviour (blockNumbers d.size blocks) i = d.behaviour (blockNumbers d.size blocks) j ↔
      d.MovesRelated (SameBlock blocks) i j := by
  rw [Dfa.behaviour_eq_iff]
  refine forall_congr' fun c => ?_
  cases hmi : d.move? i c with
  | none =>
      rw [(h.number_eq_none hi).2 hmi, eq_comm, h.number_eq_none hj]
      cases d.move? j c <;> simp
  | some a =>
      obtain ⟨k, hk⟩ := h.inBlock_iff.2 (mem_states_of_move? hi hmi)
      rw [h.number_eq.2 ⟨a, hmi, hk⟩, eq_comm, h.number_eq]
      cases d.move? j c with
      | none => simp
      | some b => simp [h.disjoint.sameBlock_iff hk]

/-- The blocks after a pass, before they are sorted. -/
def splitBlocks (d : Dfa) (blocks : List IdSet) : List IdSet :=
  blocks.flatMap (d.splitBlock (blockNumbers d.size blocks))

theorem refine_eq (d : Dfa) (blocks : List IdSet) :
    (d.refine blocks).2 = sortBlocks (d.splitBlocks blocks) := by
  show sortBlocks ((blocks.map fun b => (b, d.splitBlock (blockNumbers d.size blocks) b)).flatMap
    (·.2)) = _
  rw [List.flatMap_map]
  rfl

/-- A pass separates the states of a block that move to different blocks. -/
theorem IsPartition.sameBlock_splitBlocks (h : d.IsPartition blocks) :
    SameBlock (d.splitBlocks blocks) i j ↔
      SameBlock blocks i j ∧ d.MovesRelated (SameBlock blocks) i j := by
  constructor
  · rintro ⟨part, hpart, hi, hj⟩
    obtain ⟨b, hb, hpart⟩ := List.mem_flatMap.1 hpart
    obtain ⟨hib, hjb, hbehave⟩ := SortedSet.exists_group_iff.1 ⟨part, hpart, hi, hj⟩
    have hij : SameBlock blocks i j := ⟨b, hb, hib, hjb⟩
    obtain ⟨his, hjs⟩ := hij.mem_states h
    exact ⟨hij, (h.behaviour_eq_iff his hjs).1 hbehave⟩
  · rintro ⟨hij, hmoves⟩
    obtain ⟨his, hjs⟩ := hij.mem_states h
    obtain ⟨b, hb, hib, hjb⟩ := hij
    obtain ⟨part, hpart, hi, hj⟩ :=
      SortedSet.exists_group_iff.2 ⟨hib, hjb, (h.behaviour_eq_iff his hjs).2 hmoves⟩
    exact ⟨part, List.mem_flatMap.2 ⟨b, hb, hpart⟩, hi, hj⟩

theorem mem_splitBlocks_iff {part : IdSet} :
    part ∈ d.splitBlocks blocks ↔
      ∃ b ∈ blocks, part ∈ b.groupBy (d.behaviour (blockNumbers d.size blocks)) :=
  List.mem_flatMap

theorem isPartition_splitBlocks (h : d.IsPartition blocks) :
    d.IsPartition (d.splitBlocks blocks) where
  nonempty part hpart := by
    obtain ⟨b, _, hpart⟩ := mem_splitBlocks_iff.1 hpart
    exact SortedSet.ne_empty_of_mem_groupBy hpart
  cover i := by
    rw [h.cover]
    constructor
    · rintro ⟨b, hb, hi⟩
      obtain ⟨part, hpart, hmem⟩ := SortedSet.exists_mem_groupBy
        (d.behaviour (blockNumbers d.size blocks)) hi
      exact ⟨part, mem_splitBlocks_iff.2 ⟨b, hb, hpart⟩, hmem⟩
    · rintro ⟨part, hpart, hi⟩
      obtain ⟨b, hb, hpart⟩ := mem_splitBlocks_iff.1 hpart
      exact ⟨b, hb, SortedSet.mem_of_mem_groupBy hpart hi⟩
  disjoint := by
    refine List.pairwise_flatMap.2 ⟨fun b _ => SortedSet.disjoint_groupBy _ b, ?_⟩
    refine h.disjoint.imp fun {a b} hab part hpart part' hpart' i hi hi' => ?_
    exact hab i (SortedSet.mem_of_mem_groupBy hpart hi) (SortedSet.mem_of_mem_groupBy hpart' hi')
  uniform part hpart i hi j hj := by
    obtain ⟨b, hb, hpart⟩ := mem_splitBlocks_iff.1 hpart
    exact h.uniform b hb i (SortedSet.mem_of_mem_groupBy hpart hi) j
      (SortedSet.mem_of_mem_groupBy hpart hj)

/-- Equivalent states move to one block where equivalent states are in one. -/
theorem IsCoarse.movesRelated (h : d.IsCoarse blocks) (hi : i ∈ d.states) (hj : j ∈ d.states)
    (hij : d.Equivalent i j) : d.MovesRelated (SameBlock blocks) i j := by
  intro c
  have hc := hij.movesRelated c
  cases hmi : d.move? i c <;> cases hmj : d.move? j c <;> simp only [hmi, hmj] at hc ⊢
  exact h _ (mem_states_of_move? hi hmi) _ (mem_states_of_move? hj hmj) hc

theorem isCoarse_splitBlocks (h : d.IsPartition blocks) (hcoarse : d.IsCoarse blocks) :
    d.IsCoarse (d.splitBlocks blocks) := by
  intro i hi j hj hij
  exact h.sameBlock_splitBlocks.2 ⟨hcoarse i hi j hj hij, hcoarse.movesRelated hi hj hij⟩

/-! ## All passes -/

/-- When each item gives at least one part, there are at least as many parts as items, and if
there are no more, each item gives one. -/
theorem length_le_flatMap {α β : Type} {f : α → List β} {xs : List α} (h : ∀ x ∈ xs, f x ≠ []) :
    xs.length ≤ (xs.flatMap f).length ∧
      ((xs.flatMap f).length = xs.length → ∀ x ∈ xs, (f x).length = 1) := by
  induction xs with
  | nil => simp
  | cons x xs ih =>
      rw [List.forall_mem_cons] at h
      obtain ⟨hle, hone⟩ := ih h.2
      have hpos := List.length_pos_iff.2 h.1
      rw [List.flatMap_cons, List.length_append, List.length_cons]
      refine ⟨by omega, fun heq => ?_⟩
      rw [List.forall_mem_cons]
      exact ⟨by omega, hone (by omega)⟩

theorem IsPartition.splitBlock_ne_nil (h : d.IsPartition blocks) :
    ∀ b ∈ blocks, d.splitBlock (blockNumbers d.size blocks) b ≠ [] := by
  intro b hb
  obtain ⟨i, hi⟩ := IdSet.exists_first? (h.nonempty b hb)
  exact SortedSet.groupBy_ne_nil (IdSet.first?_eq_some_iff.1 hi).1

/-- A pass that adds no block has split none. -/
theorem isStable_of_length_eq (h : d.IsPartition blocks)
    (hlen : (d.splitBlocks blocks).length = blocks.length) : d.IsStable (d.splitBlocks blocks) := by
  have hone := (length_le_flatMap h.splitBlock_ne_nil).2 hlen
  have hkeep : ∀ i j, SameBlock blocks i j → SameBlock (d.splitBlocks blocks) i j := by
    rintro i j ⟨b, hb, hi, hj⟩
    obtain ⟨part, hpart⟩ := List.length_eq_one_iff.1 (hone b hb)
    have hmem : part ∈ b.groupBy (d.behaviour (blockNumbers d.size blocks)) := by
      rw [show b.groupBy _ = [part] from hpart]
      exact List.mem_singleton_self part
    have hall : ∀ x ∈ b, x ∈ part := by
      intro x hx
      obtain ⟨part', hpart', hx'⟩ := SortedSet.exists_mem_groupBy
        (d.behaviour (blockNumbers d.size blocks)) hx
      rw [show b.groupBy _ = [part] from hpart, List.mem_singleton] at hpart'
      exact hpart' ▸ hx'
    exact ⟨part, mem_splitBlocks_iff.2 ⟨b, hb, hmem⟩, hall i hi, hall j hj⟩
  intro i j hij
  exact (h.sameBlock_splitBlocks.1 hij).2.mono hkeep

/-- The blocks are the classes of equivalent states, in the order of their least members. -/
structure IsClasses (d : Dfa) (blocks : List IdSet) : Prop where
  partition : d.IsPartition blocks
  coarse : d.IsCoarse blocks
  stable : d.IsStable blocks
  ascending : Ascending blocks

theorem IsPartition.isFinal_eq (h : d.IsPartition blocks) (hij : SameBlock blocks i j) :
    d.isFinal i = d.isFinal j := by
  obtain ⟨b, hb, hi, hj⟩ := hij
  exact h.uniform b hb i hi j hj

theorem IsClasses.sameBlock_iff (h : d.IsClasses blocks) :
    SameBlock blocks i j ↔ i ∈ d.states ∧ j ∈ d.states ∧ d.Equivalent i j := by
  constructor
  · intro hij
    obtain ⟨hi, hj⟩ := hij.mem_states h.partition
    exact ⟨hi, hj, equivalent_of_related (fun _ _ => h.partition.isFinal_eq) h.stable hij⟩
  · rintro ⟨hi, hj, hij⟩
    exact h.coarse i hi j hj hij

/-- A division that holds together precisely the equivalent states is that into classes. -/
theorem isClasses_of_sameBlock_iff (hpart : d.IsPartition blocks) (hasc : Ascending blocks)
    (hsame : ∀ i ∈ d.states, ∀ j ∈ d.states, (SameBlock blocks i j ↔ d.Equivalent i j)) :
    d.IsClasses blocks where
  partition := hpart
  coarse i hi j hj := (hsame i hi j hj).2
  stable i j hij := by
    obtain ⟨hi, hj⟩ := hij.mem_states hpart
    have hcoarse : d.IsCoarse blocks := fun a ha b hb => (hsame a ha b hb).2
    exact hcoarse.movesRelated hi hj ((hsame i hi j hj).1 hij)
  ascending := hasc

/-- There is no other list of the classes. -/
theorem IsClasses.unique (h : d.IsClasses blocks) (h' : d.IsClasses blocks') :
    blocks = blocks' := by
  have hsub : ∀ {bs bs'}, d.IsClasses bs → d.IsClasses bs' → ∀ b ∈ bs, b ∈ bs' := by
    intro bs bs' h h' b hb
    obtain ⟨i, hi⟩ := SortedSet.exists_mem_of_ne_empty (h.partition.nonempty b hb)
    obtain ⟨b', hb', hi'⟩ := (h'.partition.cover i).1 ((h.partition.cover i).2 ⟨b, hb, hi⟩)
    have heq : b = b' := SortedSet.ext_mem fun j => by
      rw [← h.partition.disjoint.sameBlock_iff_mem hb hi, h.sameBlock_iff, ← h'.sameBlock_iff,
        h'.partition.disjoint.sameBlock_iff_mem hb' hi']
    exact heq ▸ hb'
  have hperm : blocks.Perm blocks' :=
    (List.perm_ext_iff_of_nodup h.partition.nodup h'.partition.nodup).2 fun b =>
      ⟨hsub h h' b, hsub h' h b⟩
  refine List.Perm.eq_of_pairwise (fun a b ha hb hab hba => ?_) h.ascending h'.ascending hperm
  obtain ⟨i, hi⟩ := IdSet.exists_first? (h.partition.nonempty a ha)
  obtain ⟨j, hj⟩ := IdSet.exists_first? (h'.partition.nonempty b hb)
  exact absurd (hab i j hi hj) (Nat.lt_asymm (hba j i hj hi))

theorem isStable_perm (hperm : blocks.Perm blocks') (h : d.IsStable blocks) :
    d.IsStable blocks' := by
  intro i j hij
  refine (h i j ((sameBlock_perm hperm).2 hij)).mono fun a b hab => ?_
  exact (sameBlock_perm hperm).1 hab

theorem isCoarse_perm (hperm : blocks.Perm blocks') (h : d.IsCoarse blocks) :
    d.IsCoarse blocks' := by
  intro i hi j hj hij
  exact (sameBlock_perm hperm).1 (h i hi j hj hij)

/-- With fuel for as many passes as there are states, the passes end in the classes. -/
theorem refinePasses_spec {fuel : Nat} (number : Nat) (h : d.IsPartition blocks)
    (hcoarse : d.IsCoarse blocks) (hfuel : d.size < blocks.length + fuel) :
    d.IsClasses (d.refinePasses fuel number blocks).2 := by
  induction fuel generalizing number blocks with
  | zero =>
      have hle := h.length_le
      have hle' := d.size_states_le
      omega
  | succ fuel ih =>
      have hpart := isPartition_splitBlocks h
      have hcoarse' := isCoarse_splitBlocks h hcoarse
      have hperm := (sortBlocks_perm (d.splitBlocks blocks)).symm
      have hlen := hperm.length_eq
      have heq := d.refine_eq blocks
      unfold refinePasses
      simp only [heq]
      split
      · next hsame =>
        exact ⟨hpart.perm hperm, isCoarse_perm hperm hcoarse',
          isStable_perm hperm (isStable_of_length_eq h (hlen.trans hsame)),
          ascending_sortBlocks hpart⟩
      · next hmore =>
        refine ih (number + 1) (hpart.perm hperm) (isCoarse_perm hperm hcoarse') ?_
        have hle : blocks.length ≤ (d.splitBlocks blocks).length :=
          (length_le_flatMap h.splitBlock_ne_nil).1
        omega

theorem isPartition_initialBlocks (d : Dfa) : d.IsPartition d.initialBlocks where
  nonempty _ hb := SortedSet.ne_empty_of_mem_groupBy hb
  cover _ := ⟨SortedSet.exists_mem_groupBy d.isFinal, fun ⟨_, hb, hi⟩ =>
    SortedSet.mem_of_mem_groupBy hb hi⟩
  disjoint := SortedSet.disjoint_groupBy _ _
  uniform b hb _ hi _ hj := (SortedSet.exists_group_iff.1 ⟨b, hb, hi, hj⟩).2.2

theorem isCoarse_initialBlocks (d : Dfa) : d.IsCoarse d.initialBlocks := by
  intro i hi j hj hij
  exact SortedSet.exists_group_iff.2 ⟨hi, hj, hij.isFinal_eq⟩

/-- The blocks with which the refinement ends are the classes of equivalent states. -/
theorem isClasses_refinePasses (hpos : 0 < d.size) (number : Nat) :
    d.IsClasses (d.refinePasses d.size number d.initialBlocks).2 := by
  refine refinePasses_spec number d.isPartition_initialBlocks d.isCoarse_initialBlocks ?_
  obtain ⟨b, hb, -⟩ := (d.isPartition_initialBlocks.cover 0).1 (zero_mem_states hpos)
  have hlen := List.length_pos_of_mem hb
  omega

end Regular.Dfa
