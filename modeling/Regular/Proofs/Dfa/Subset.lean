import Mathlib.Data.Char
import Mathlib.Data.Finset.Powerset
import Mathlib.Data.Fintype.Card
import Regular.Dfa.Subset
import Regular.Proofs.Nfa.Path
import Regular.Proofs.Outcome

/-!
# The states of the deterministic automaton are the sets met

`Subset.explore` follows the sets in the order of their numbers while `Subset.follow` adds to
them. `Subset.Invariant` says what holds in the middle of the work, when the set numbered `k`
is being followed and its steps for some characters are done: the sets have distinct numbers,
each of them was first met as a step of an earlier one (`Subset.FirstMet`), and every step
that is done leads to a numbered set.

`Subset.FirstMet` carries the order of the search too: whatever comes before the step at
which a set was met leads to smaller numbers. From it the numbering is determined later.

The search runs with fuel. As there are only so many sets (`Subset.Invariant.size_le_bound`),
it never ends for lack of it, and the result is described by `Subset.Determinizes`.
-/

namespace Regular

namespace Subset

variable {n : Nfa} {limit : Option Nat} {r r' : Registry} {sets sets' : Array IdSet} {s t : IdSet}
  {i j k : StateId} {c : Char} {cs : List Char} {moves : List (Char × StateId)}

/-! ## The order in which sets are met -/

/-- The step of the set numbered `q` for `a` is taken before that of the set numbered `p` for
`c`.
-/
def Before (q : StateId) (a : Char) (p : StateId) (c : Char) : Prop := q < p ∨ q = p ∧ a < c

theorem before_or_eq_or_before (q : StateId) (a : Char) (p : StateId) (c : Char) :
    Before q a p c ∨ (q = p ∧ a = c) ∨ Before p c q a := by
  rcases Nat.lt_trichotomy q p with hlt | rfl | hlt
  · exact Or.inl (Or.inl hlt)
  · rcases lt_trichotomy a c with hac | rfl | hca
    · exact Or.inl (Or.inr ⟨rfl, hac⟩)
    · exact Or.inr (Or.inl ⟨rfl, rfl⟩)
    · exact Or.inr (Or.inr (Or.inr ⟨rfl, hca⟩))
  · exact Or.inr (Or.inr (Or.inl hlt))

/-- The set numbered `j` was first met as the step of the set numbered `p` for `c`. -/
structure FirstMet (n : Nfa) (sets : Array IdSet) (j p : StateId) (c : Char) : Prop where
  lt : p < j
  step : ∃ s, sets[p]? = some s ∧ sets[j]? = some (n.step s c)
  earlier : ∀ q a s, Before q a p c → sets[q]? = some s → n.step s a ≠ ∅ →
    ∃ j' < j, sets[j']? = some (n.step s a)

/-- All sets keep their numbers. -/
def Extends (sets sets' : Array IdSet) : Prop :=
  ∀ (i : StateId) (s : IdSet), sets[i]? = some s → sets'[i]? = some s

theorem Extends.refl (sets : Array IdSet) : Extends sets sets := fun _ _ h => h

theorem Extends.trans {sets'' : Array IdSet} (h : Extends sets sets') (h' : Extends sets' sets'') :
    Extends sets sets'' := fun i s hi => h' i s (h i s hi)

theorem extends_push (sets : Array IdSet) (t : IdSet) : Extends sets (sets.push t) := by
  intro i s h
  rw [Array.getElem?_push, if_neg (Nat.ne_of_lt (Array.getElem?_eq_some_iff.1 h).1), h]

theorem lt_size (h : sets[i]? = some s) : i < sets.size := (Array.getElem?_eq_some_iff.1 h).1

/-- A set that keeps its number was met where it was met before. -/
theorem FirstMet.extends {p : StateId} (h : FirstMet n sets j p c) (hext : Extends sets sets') :
    FirstMet n sets' j p c := by
  obtain ⟨s, hp, hj⟩ := h.step
  refine ⟨h.lt, ⟨s, hext _ _ hp, hext _ _ hj⟩, fun q a s' hbefore hq hne => ?_⟩
  have hqj : q < j := by
    rcases hbefore with hlt | ⟨rfl, -⟩
    · exact lt_trans hlt h.lt
    · exact h.lt
  have hq' : sets[q]? = some s' := by
    have hsome := Array.getElem?_eq_getElem (lt_trans hqj (lt_size hj))
    rw [hsome, ← hext _ _ hsome, hq]
  obtain ⟨j', hlt, hj'⟩ := h.earlier q a s' hbefore hq' hne
  exact ⟨j', hlt, hext _ _ hj'⟩

/-! ## Numbering a set -/

/-- The numbers by value are the numbers by position. -/
def Registry.Consistent (r : Registry) : Prop :=
  ∀ (s : IdSet) (id : StateId), r.ids[s]? = some id ↔ r.sets[id]? = some s

theorem Registry.Consistent.injective (h : r.Consistent) (hi : r.sets[i]? = some s)
    (hj : r.sets[j]? = some s) : i = j :=
  Option.some.inj (((h s i).2 hi).symm.trans ((h s j).2 hj))

/-- What numbering a set does: nothing if it has a number, else it gets the next one. -/
theorem Registry.locate_eq_ok (hr : r.Consistent) (h : r.locate n limit t = .ok (r', j)) :
    r'.Consistent ∧ r'.sets[j]? = some t ∧
      (r'.sets = r.sets ∨ j = r.sets.size ∧ r'.sets = r.sets.push t) := by
  unfold Registry.locate at h
  split at h
  · next id hid =>
    obtain ⟨rfl, rfl⟩ := Prod.mk.inj (Except.ok.inj h)
    exact ⟨hr, (hr t id).1 hid, Or.inl rfl⟩
  · next hnone =>
    simp only at h
    split at h
    · cases h
    · obtain ⟨rfl, rfl⟩ := Prod.mk.inj (Except.ok.inj h)
      refine ⟨fun s id => ?_, Array.getElem?_push_size, Or.inr ⟨rfl, rfl⟩⟩
      simp only [Registry.report, Std.HashMap.getElem?_insert, Array.getElem?_push, beq_iff_eq]
      by_cases hst : t = s
      · subst hst
        have hnot : ∀ id : Nat, r.sets[id]? ≠ some t := by
          intro id hid
          rw [(hr t id).2 hid] at hnone
          cases hnone
        by_cases hid : id = r.sets.size
        · simp [hid]
        · simp [hid, Ne.symm hid, hnot]
      · by_cases hid : id = r.sets.size
        · have hnot : r.ids[s]? ≠ some r.sets.size := by
            intro h
            exact Nat.lt_irrefl _ (lt_size ((hr s _).1 h))
          simp [hst, hid, hnot]
        · simp [hst, hid, hr s id]

/-! ## Following one set -/

/-- What holds while the set numbered `k` is followed and its steps for the characters in
`done` have been taken. -/
structure Invariant (n : Nfa) (r : Registry) (k : StateId) (done : Char → Prop) : Prop where
  consistent : r.Consistent
  first : r.sets[0]? = some n.initial
  nonempty : ∀ (i : StateId) (s : IdSet), r.sets[i]? = some s → s ≠ ∅
  met : ∀ j < r.sets.size, 0 < j → ∃ p c, FirstMet n r.sets j p c
  followed : ∀ (q : StateId) a (s : IdSet), q < k ∨ q = k ∧ done a → r.sets[q]? = some s →
    n.step s a ≠ ∅ → ∃ j : StateId, r.sets[j]? = some (n.step s a)

theorem mem_symbols_iff : c ∈ symbols n s ↔ ∃ i ∈ s, ∃ j, ∃ node, n.node? i = some node ∧
    node.moves.get? c = some j := by
  simp only [symbols, SortedSet.mem_foldr_union, CharMap.mem_keys_iff, List.mem_filterMap,
    ← SortedSet.mem_def]
  constructor
  · rintro ⟨node, ⟨i, hi, hnode⟩, j, hj⟩
    exact ⟨i, hi, j, node, hnode, hj⟩
  · rintro ⟨i, hi, j, node, hnode, hj⟩
    exact ⟨node, ⟨i, hi, hnode⟩, j, hj⟩

/-- Only the symbols of a set lead anywhere. -/
theorem step_eq_empty (h : c ∉ symbols n s) : n.step s c = ∅ := by
  refine SortedSet.ext_mem fun i => ⟨fun hi => ?_, fun hi => absurd hi SortedSet.not_mem_empty⟩
  obtain ⟨a, ha, j, hedge, -⟩ := Nfa.mem_step_iff.1 hi
  obtain ⟨t, ht, -⟩ := Nfa.edge_some_iff.1 hedge
  obtain ⟨node, hnode, hget⟩ := Option.bind_eq_some_iff.1 ht
  exact absurd (mem_symbols_iff.2 ⟨a, ha, t, node, hnode, hget⟩) h

/-- Taking one step keeps the invariant, with one more character done. -/
theorem Invariant.locate {done : Char → Prop} (hinv : Invariant n r k done)
    (hk : r.sets[k]? = some s) (hdone : ∀ a < c, n.step s a ≠ ∅ → done a) (hne : n.step s c ≠ ∅)
    (h : r.locate n limit (n.step s c) = .ok (r', j)) :
    Invariant n r' k (fun a => a = c ∨ done a) ∧ r'.sets[j]? = some (n.step s c) ∧
      Extends r.sets r'.sets := by
  obtain ⟨hcons, hj, hcases⟩ := Registry.locate_eq_ok hinv.consistent h
  have hext : Extends r.sets r'.sets := by
    rcases hcases with heq | ⟨-, heq⟩ <;> rw [heq]
    · exact Extends.refl _
    · exact extends_push _ _
  have hold : ∀ i < r.sets.size, ∀ s, r'.sets[i]? = some s → r.sets[i]? = some s :=
    fun i hi s hs => by
      have hsome := Array.getElem?_eq_getElem hi
      rw [hsome, ← hext _ _ hsome, hs]
  -- an index of the new sets is old or that of the step
  have hindex : ∀ i < r'.sets.size, i < r.sets.size ∨ i = j ∧ j = r.sets.size := by
    intro i hi
    rcases hcases with heq | ⟨hjsize, heq⟩ <;> rw [heq] at hi
    · exact Or.inl hi
    · rw [Array.size_push] at hi
      lia
  refine ⟨⟨hcons, hext _ _ hinv.first, fun i t hi => ?_, fun i hi hpos => ?_, ?_⟩, hj, hext⟩
  · rcases hindex i (lt_size hi) with hlt | ⟨rfl, -⟩
    · exact hinv.nonempty i t (hold i hlt t hi)
    · rw [hj] at hi
      exact Option.some.inj hi ▸ hne
  · rcases hindex i hi with hlt | ⟨rfl, hnew⟩
    · obtain ⟨p, a, hmet⟩ := hinv.met i hlt hpos
      exact ⟨p, a, hmet.extends hext⟩
    · refine ⟨k, c, hnew ▸ lt_size hk, ⟨s, hext _ _ hk, hj⟩, fun q a s' hbefore hq hstep => ?_⟩
      have hqk : q < k ∨ q = k ∧ done a := by
        rcases hbefore with hlt | ⟨rfl, hac⟩
        · exact Or.inl hlt
        · rw [hext _ _ hk] at hq
          obtain rfl := Option.some.inj hq
          exact Or.inr ⟨rfl, hdone a hac hstep⟩
      have hqlt : q < r.sets.size := by
        have := lt_size hk
        lia
      obtain ⟨j', hj'⟩ := hinv.followed q a s' hqk (hold q hqlt s' hq) hstep
      exact ⟨j', hnew ▸ lt_size hj', hext _ _ hj'⟩
  · intro q a s' hqk hq hstep
    have hqlt : q < r.sets.size := by
      have := lt_size hk
      lia
    rcases hqk with hlt | ⟨rfl, rfl | ha⟩
    · obtain ⟨j', hj'⟩ := hinv.followed q a s' (Or.inl hlt) (hold q hqlt s' hq) hstep
      exact ⟨j', hext _ _ hj'⟩
    · rw [hext _ _ hk] at hq
      exact ⟨j, Option.some.inj hq ▸ hj⟩
    · obtain ⟨j', hj'⟩ := hinv.followed q a s' (Or.inr ⟨rfl, ha⟩) (hold q hqlt s' hq) hstep
      exact ⟨j', hext _ _ hj'⟩

theorem Invariant.mono {done done' : Char → Prop} (hinv : Invariant n r k done)
    (hk : r.sets[k]? = some s) (h : ∀ a, n.step s a ≠ ∅ → done' a → done a) :
    Invariant n r k done' := by
  refine { hinv with followed := fun q a s' hqk hq hne => ?_ }
  refine hinv.followed q a s' (hqk.imp_right fun ⟨hqk, ha⟩ => ⟨hqk, ?_⟩) hq hne
  subst hqk
  rw [hk] at hq
  exact h a (Option.some.inj hq ▸ hne) ha

/-- A move leads to the number of the step. -/
def Leads (n : Nfa) (sets : Array IdSet) (s : IdSet) (c : Char) (j : StateId) : Prop :=
  n.step s c ≠ ∅ ∧ sets[j]? = some (n.step s c)

/-- Following a set for some characters: they are done afterwards, and the moves are the
steps. -/
theorem Invariant.follow (hinv : Invariant n r k (· ∉ cs)) (hk : r.sets[k]? = some s)
    (hcs : cs.Pairwise (· < ·)) (h : follow n limit k s cs r = .ok (r', moves)) :
    Invariant n r' k (fun _ => True) ∧ Extends r.sets r'.sets ∧ (moves.map (·.1)).Sublist cs ∧
      (∀ c j, (c, j) ∈ moves → Leads n r'.sets s c j) ∧
      ∀ c ∈ cs, n.step s c ≠ ∅ → ∃ j, (c, j) ∈ moves := by
  induction cs generalizing r moves with
  | nil =>
      obtain ⟨rfl, rfl⟩ := Prod.mk.inj (Except.ok.inj h)
      refine ⟨hinv.mono hk fun _ _ _ => List.not_mem_nil, Extends.refl _, .slnil, ?_, ?_⟩ <;> simp
  | cons c cs ih =>
      rw [List.pairwise_cons] at hcs
      rw [Subset.follow] at h
      split at h
      · next hempty =>
        rw [SortedSet.isEmpty_iff] at hempty
        have hinv' : Invariant n r k (· ∉ cs) := hinv.mono hk fun a ha hnot hmem => by
          rcases List.mem_cons.1 hmem with rfl | hmem
          · exact ha hempty
          · exact hnot hmem
        obtain ⟨hinv', hext, hsub, hmoves, hall⟩ := ih hinv' hk hcs.2 h
        refine ⟨hinv', hext, hsub.cons c, hmoves, fun a ha hne => ?_⟩
        rcases List.mem_cons.1 ha with rfl | ha
        · exact absurd hempty hne
        · exact hall a ha hne
      · next hempty =>
        rw [SortedSet.isEmpty_iff] at hempty
        obtain ⟨⟨r₁, j⟩, hlocate, h⟩ := bind_eq_ok_iff.1 h
        obtain ⟨⟨r₂, later⟩, hfollow, h⟩ := bind_eq_ok_iff.1 h
        obtain ⟨rfl, rfl⟩ := Prod.mk.inj (Except.ok.inj h)
        have hnotmem : ∀ a < c, a ∉ c :: cs := by
          intro a hac hmem
          rcases List.mem_cons.1 hmem with rfl | hmem
          · exact Std.lt_irrefl hac
          · exact Std.lt_irrefl (Std.lt_trans hac (hcs.1 a hmem))
        obtain ⟨hinv₁, hj, hext₁⟩ :=
          hinv.locate hk (fun a hac _ => hnotmem a hac) hempty hlocate
        have hinv₁' : Invariant n (r₁.report (.subsetMove k c j)) k (· ∉ cs) := by
          obtain ⟨hcons, hfirst, hnonempty, hmet, hfollowed⟩ : Invariant n r₁ k (· ∉ cs) :=
            hinv₁.mono (hext₁ _ _ hk) fun a _ hnot => by
              by_cases hac : a = c
              · exact Or.inl hac
              · exact Or.inr fun hmem => (List.mem_cons.1 hmem).elim hac hnot
          exact ⟨hcons, hfirst, hnonempty, hmet, hfollowed⟩
        obtain ⟨hinv₂, hext₂, hsub, hmoves, hall⟩ := ih hinv₁' (hext₁ _ _ hk) hcs.2 hfollow
        refine ⟨hinv₂, hext₁.trans hext₂, hsub.cons_cons c, fun a i hmem => ?_, fun a ha hne => ?_⟩
        · rcases List.mem_cons.1 hmem with heq | hmem
          · obtain ⟨rfl, rfl⟩ := Prod.mk.inj heq
            exact ⟨hempty, hext₂ _ _ hj⟩
          · exact hmoves a i hmem
        · rcases List.mem_cons.1 ha with rfl | ha
          · exact ⟨j, List.mem_cons_self ..⟩
          · obtain ⟨i, hi⟩ := hall a ha hne
            exact ⟨i, List.mem_cons_of_mem _ hi⟩

/-! ## There are only so many sets -/

theorem mem_edges_iff {i j : Nat} {label : Option Char} :
    (i, label, j) ∈ n.edges ↔ n.Edge i label j := by
  simp only [Nfa.edges, List.mem_flatMap, List.mem_range, List.mem_map, Prod.mk.injEq]
  constructor
  · rintro ⟨a, _, b, hb, rfl, rfl⟩
    exact hb
  · intro h
    exact ⟨i, h.lt_size, (label, j), h, rfl, rfl⟩

/-- All numbers that can be in a set that is met: the start and the targets of the edges. -/
def entered (n : Nfa) : Finset Nat := (n.start :: n.edges.map (·.2.2)).toFinset

theorem target_mem_entered {i j : Nat} {label : Option Char} (h : n.Edge i label j) :
    j ∈ entered n := by
  rw [entered, List.mem_toFinset, List.mem_cons, List.mem_map]
  exact Or.inr ⟨(i, label, j), mem_edges_iff.2 h, rfl⟩

theorem silentWay_mem_entered {i j : Nat} (hi : i ∈ entered n) (h : n.SilentWay i j) :
    j ∈ entered n := by
  cases h with
  | refl => exact hi
  | tail _ hedge => exact target_mem_entered hedge

theorem mem_entered_of_mem_step {j : Nat} (h : j ∈ n.step s c) : j ∈ entered n := by
  obtain ⟨i, _, k, hedge, hway⟩ := Nfa.mem_step_iff.1 h
  exact silentWay_mem_entered (target_mem_entered hedge) hway

theorem mem_entered_of_mem_initial {j : Nat} (h : j ∈ n.initial) : j ∈ entered n := by
  obtain ⟨i, hi, hway⟩ := Nfa.mem_closure_iff.1 h
  rw [SortedSet.mem_singleton] at hi
  subst hi
  refine silentWay_mem_entered ?_ hway
  rw [entered, List.mem_toFinset]
  exact List.mem_cons_self ..

theorem Invariant.mem_entered {done : Char → Prop} (hinv : Invariant n r k done) {i j : Nat}
    (hi : r.sets[i]? = some s) (hj : j ∈ s) : j ∈ entered n := by
  rcases Nat.eq_zero_or_pos i with rfl | hpos
  · rw [hinv.first] at hi
    exact mem_entered_of_mem_initial (Option.some.inj hi ▸ hj)
  · obtain ⟨p, c, hmet⟩ := hinv.met i (lt_size hi) hpos
    obtain ⟨t, -, ht⟩ := hmet.step
    rw [ht] at hi
    exact mem_entered_of_mem_step (Option.some.inj hi ▸ hj)

/-- The sets are distinct subsets of `entered`, so there are at most as many as these
have. -/
theorem Invariant.size_le_bound {done : Char → Prop} (hinv : Invariant n r k done) :
    r.sets.size ≤ bound n := by
  have hget : ∀ i : Fin r.sets.size, r.sets[(i : Nat)]? = some r.sets[i] := fun i =>
    Array.getElem?_eq_getElem i.isLt
  have hmaps : ∀ i ∈ (Finset.univ : Finset (Fin r.sets.size)),
      r.sets[i].toList.toFinset ∈ (entered n).powerset := by
    intro i _
    rw [Finset.mem_powerset]
    intro j hj
    exact hinv.mem_entered (hget i) (List.mem_toFinset.1 hj)
  have hinj : Set.InjOn (fun i : Fin r.sets.size => r.sets[i].toList.toFinset)
      (Finset.univ : Finset (Fin r.sets.size)) := by
    intro i _ j _ hij
    have hsame : r.sets[i] = r.sets[j] := by
      refine SortedSet.ext_mem fun x => ?_
      rw [SortedSet.mem_def, SortedSet.mem_def, ← List.mem_toFinset, ← List.mem_toFinset]
      exact iff_of_eq (congrArg (x ∈ ·) hij)
    exact Fin.ext (hinv.consistent.injective (hget i) (hsame ▸ hget j))
  have hcard : (entered n).card ≤ n.edges.length + 1 := by
    refine (List.toFinset_card_le _).trans ?_
    simp
  calc r.sets.size = (Finset.univ : Finset (Fin r.sets.size)).card := (Finset.card_fin _).symm
    _ ≤ (entered n).powerset.card := Finset.card_le_card_of_injOn _ hmaps hinj
    _ = 2 ^ (entered n).card := Finset.card_powerset _
    _ ≤ 2 ^ (n.edges.length + 1) := Nat.pow_le_pow_right (by decide) hcard

/-! ## Following all sets -/

/-- The node says what its set does. -/
structure Describes (n : Nfa) (sets : Array IdSet) (s : IdSet) (node : Dfa.Node) : Prop where
  final : node.final = n.containsFinal s
  origin : node.origin = some s
  leads : ∀ c j, node.moves.get? c = some j → Leads n sets s c j
  stuck : ∀ c, node.moves.get? c = none → n.step s c = ∅

theorem Describes.extends {node : Dfa.Node} (h : Describes n sets s node)
    (hext : Extends sets sets') : Describes n sets' s node := by
  refine { h with leads := fun c j hj => ?_ }
  obtain ⟨hne, hstep⟩ := h.leads c j hj
  exact ⟨hne, hext _ _ hstep⟩

/-- The moves that `follow` lists describe the set for all of its symbols. -/
theorem describes_follow (hsub : (moves.map (·.1)).Sublist (symbols n s).toList)
    (hmoves : ∀ c j, (c, j) ∈ moves → Leads n sets s c j)
    (hall : ∀ c ∈ (symbols n s).toList, n.step s c ≠ ∅ → ∃ j, (c, j) ∈ moves) :
    Describes n sets s ⟨n.containsFinal s, .ofList moves, some s⟩ := by
  have hnodup : (moves.map (·.1)).Nodup :=
    hsub.nodup ((symbols n s).ascending.imp Std.ne_of_lt)
  refine ⟨rfl, rfl, fun c j hj => ?_, fun c hnone => ?_⟩
  · exact hmoves c j ((CharMap.get?_ofList hnodup).1 hj)
  · by_contra hne
    have hc : c ∈ symbols n s := by
      by_contra hnot
      exact hne (step_eq_empty hnot)
    obtain ⟨j, hj⟩ := hall c hc hne
    rw [(CharMap.get?_ofList hnodup).2 hj] at hnone
    cases hnone

/-- Following one set to the end: its node describes it, and the next set is to be
followed. -/
theorem Invariant.next (hinv : Invariant n r k fun _ => False) (hk : r.sets[k]? = some s)
    (h : Subset.follow n limit k s (symbols n s).toList r = .ok (r', moves)) :
    Invariant n r' (k + 1) (fun _ => False) ∧ Extends r.sets r'.sets ∧
      Describes n r'.sets s ⟨n.containsFinal s, .ofList moves, some s⟩ := by
  have hstart : Invariant n r k (· ∉ (symbols n s).toList) :=
    hinv.mono hk fun a hne hnot => hne (step_eq_empty hnot)
  obtain ⟨hinv', hext, hsub, hmoves, hall⟩ := hstart.follow hk (symbols n s).ascending h
  refine ⟨{ hinv' with followed := fun q a t hq ht hne => ?_ }, hext,
    describes_follow hsub hmoves hall⟩
  have hle : q < k ∨ q = k := by lia
  exact hinv'.followed q a t (hle.imp_right fun heq => ⟨heq, trivial⟩) ht hne

/-- The set that was followed has its node, and the first set without a node is the next
one. -/
theorem Invariant.next_push {nodes : Array Dfa.Node}
    (hinv : Invariant n r nodes.size fun _ => False) (hk : r.sets[nodes.size]? = some s)
    (h : Subset.follow n limit nodes.size s (symbols n s).toList r = .ok (r', moves))
    (node : Dfa.Node) : Invariant n r' (nodes.push node).size fun _ => False := by
  rw [Array.size_push]
  exact (hinv.next hk h).1

/-- Following all sets, either to the end or until the fuel is used up. -/
theorem Invariant.explore {fuel : Nat} {nodes nodes' : Array Dfa.Node}
    (hinv : Invariant n r nodes.size fun _ => False) (hsize : nodes.size ≤ r.sets.size)
    (hnodes : ∀ (i : Nat) node, nodes[i]? = some node →
      ∃ s, r.sets[i]? = some s ∧ Describes n r.sets s node)
    (h : explore n limit fuel r nodes = .ok (r', nodes')) :
    Invariant n r' nodes'.size (fun _ => False) ∧ nodes'.size ≤ r'.sets.size ∧
      (∀ (i : Nat) node, nodes'[i]? = some node →
        ∃ s, r'.sets[i]? = some s ∧ Describes n r'.sets s node) ∧
      (nodes'.size = r'.sets.size ∨ nodes'.size = nodes.size + fuel) := by
  induction fuel generalizing r nodes with
  | zero =>
      obtain ⟨rfl, rfl⟩ := Prod.mk.inj (Except.ok.inj h)
      exact ⟨hinv, hsize, hnodes, Or.inr rfl⟩
  | succ fuel ih =>
      rw [Subset.explore] at h
      split at h
      · next hnone =>
        obtain ⟨rfl, rfl⟩ := Prod.mk.inj (Except.ok.inj h)
        rw [Array.getElem?_eq_none_iff] at hnone
        exact ⟨hinv, hsize, hnodes, Or.inl (Nat.le_antisymm hsize hnone)⟩
      · next s hs =>
        obtain ⟨⟨r₁, moves⟩, hfollow, h⟩ := bind_eq_ok_iff.1 h
        obtain ⟨-, hext, hdesc⟩ := hinv.next hs hfollow
        have hnodes₁ : ∀ (i : Nat) node,
            (nodes.push ⟨n.containsFinal s, .ofList moves, some s⟩)[i]? = some node →
              ∃ t, r₁.sets[i]? = some t ∧ Describes n r₁.sets t node := by
          intro i node hi
          rw [Array.getElem?_push] at hi
          split at hi
          · next heq =>
            subst heq
            exact ⟨s, hext _ _ hs, Option.some.inj hi ▸ hdesc⟩
          · obtain ⟨t, ht, hdesc'⟩ := hnodes i node hi
            exact ⟨t, hext _ _ ht, hdesc'.extends hext⟩
        obtain ⟨hinv', hsize', hnodes', hend⟩ := ih (hinv.next_push hs hfollow _)
          (by rw [Array.size_push]; exact lt_size (hext _ _ hs)) hnodes₁ h
        rw [Array.size_push] at hend
        exact ⟨hinv', hsize', hnodes', hend.imp_right fun heq => by omega⟩

/-! ## The automaton of the sets -/

variable {d : Dfa} {w : List Char}

/-- The states of `d` are the numbered sets. -/
structure Determinizes (n : Nfa) (sets : Array IdSet) (d : Dfa) : Prop where
  size : d.size = sets.size
  first : sets[0]? = some n.initial
  nonempty : ∀ (i : Nat) (s : IdSet), sets[i]? = some s → s ≠ ∅
  injective : ∀ (i j : Nat) (s : IdSet), sets[i]? = some s → sets[j]? = some s → i = j
  met : ∀ j < sets.size, 0 < j → ∃ p c, FirstMet n sets j p c
  describes : ∀ (i : Nat) (s : IdSet), sets[i]? = some s →
    ∃ node, d.node? i = some node ∧ Describes n sets s node

theorem initial_ne_empty (n : Nfa) : n.initial ≠ ∅ := by
  intro h
  have hmem : n.start ∈ n.initial := Nfa.mem_closure_of_mem (SortedSet.mem_singleton.2 rfl)
  rw [h] at hmem
  exact SortedSet.not_mem_empty hmem

theorem Registry.consistent_empty : Registry.empty.Consistent := by
  intro s id
  simp [Registry.empty]

theorem invariant_initial (h : Registry.empty.locate n limit n.initial = .ok (r, j)) :
    Invariant n r 0 fun _ => False := by
  obtain ⟨hcons, hj, hcases⟩ := Registry.locate_eq_ok Registry.consistent_empty h
  rcases hcases with heq | ⟨rfl, heq⟩
  · have hlt := lt_size hj
    rw [heq] at hlt
    exact absurd hlt (Nat.not_lt_zero _)
  · have hsize : r.sets.size = 1 := by rw [heq]; rfl
    refine ⟨hcons, hj, fun i s hi => ?_, fun i hi hpos => by omega, fun q a s hq => by lia⟩
    have hlt := lt_size hi
    obtain rfl : i = 0 := by lia
    rw [show r.sets[0]? = some n.initial from hj] at hi
    exact Option.some.inj hi ▸ initial_ne_empty n

/-- A search that ends has followed all sets, for its fuel is enough. -/
theorem determinizes_of_explore {r₀ : Registry} {nodes : Array Dfa.Node}
    (hlocate : Registry.empty.locate n limit n.initial = .ok (r₀, j))
    (hexplore : explore n limit (bound n) r₀ #[] = .ok (r, nodes)) :
    Determinizes n r.sets ⟨nodes⟩ := by
  obtain ⟨hinv, hsize, hnodes, hend⟩ := (invariant_initial hlocate).explore (Nat.zero_le _)
    (fun i node hi => by simp at hi) hexplore
  have hall : nodes.size = r.sets.size := by
    have hbound := hinv.size_le_bound
    rw [Array.size_empty, Nat.zero_add] at hend
    omega
  refine ⟨hall, hinv.first, hinv.nonempty, fun i j s => hinv.consistent.injective,
    hinv.met, fun i s hi => ?_⟩
  have hlt : i < nodes.size := hall ▸ lt_size hi
  obtain ⟨t, ht, hdesc⟩ := hnodes i _ (Array.getElem?_eq_getElem hlt)
  rw [hi] at ht
  exact ⟨_, Array.getElem?_eq_getElem hlt, Option.some.inj ht ▸ hdesc⟩

/-- The construction, if it ends below the ceiling, gives the automaton of the sets met. -/
theorem exists_determinizes (h : (n.toDfaObserved limit).result = .ok d) :
    ∃ sets, Determinizes n sets d := by
  unfold Nfa.toDfaObserved at h
  simp only at h
  split at h
  · next r nodes hrun =>
    obtain rfl := Except.ok.inj h
    obtain ⟨⟨r₀, j⟩, hlocate, hexplore⟩ := bind_eq_ok_iff.1 hrun
    exact ⟨r.sets, determinizes_of_explore hlocate hexplore⟩
  · cases h

/-! ## Without a ceiling the construction ends -/

theorem Registry.exists_locate (r : Registry) (t : IdSet) : ∃ p, r.locate n none t = .ok p := by
  unfold Registry.locate
  split
  · exact ⟨_, rfl⟩
  · exact ⟨_, rfl⟩

theorem exists_follow (n : Nfa) (k : StateId) (s : IdSet) (cs : List Char) (r : Registry) :
    ∃ p, follow n none k s cs r = .ok p := by
  induction cs generalizing r with
  | nil => exact ⟨_, rfl⟩
  | cons c cs ih =>
      rw [Subset.follow]
      split
      · exact ih r
      · obtain ⟨⟨r₁, j⟩, hlocate⟩ := r.exists_locate (n.step s c)
        obtain ⟨⟨r₂, moves⟩, hfollow⟩ := ih (r₁.report (.subsetMove k c j))
        exact ⟨_, bind_eq_ok_iff.2 ⟨_, hlocate, bind_eq_ok_iff.2 ⟨_, hfollow, rfl⟩⟩⟩

theorem exists_explore (n : Nfa) (fuel : Nat) (r : Registry) (nodes : Array Dfa.Node) :
    ∃ p, explore n none fuel r nodes = .ok p := by
  induction fuel generalizing r nodes with
  | zero => exact ⟨_, rfl⟩
  | succ fuel ih =>
      rw [Subset.explore]
      split
      · exact ⟨_, rfl⟩
      · next s _ =>
        obtain ⟨⟨r₁, moves⟩, hfollow⟩ := exists_follow n nodes.size s (symbols n s).toList r
        obtain ⟨p, hp⟩ := ih r₁ (nodes.push ⟨n.containsFinal s, .ofList moves, some s⟩)
        exact ⟨p, bind_eq_ok_iff.2 ⟨_, hfollow, hp⟩⟩

theorem exists_toDfaObserved (n : Nfa) : ∃ d, (n.toDfaObserved none).result = .ok d := by
  obtain ⟨⟨r, j⟩, hlocate⟩ := Registry.empty.exists_locate n.initial
  obtain ⟨⟨r', nodes⟩, hexplore⟩ := exists_explore n (bound n) r #[]
  rw [Nfa.toDfaObserved, bind_eq_ok_iff.2 ⟨_, hlocate, hexplore⟩]
  exact ⟨_, rfl⟩

namespace Determinizes

theorem exists_set (h : Determinizes n sets d) {i : Nat} (hi : i < d.size) :
    ∃ s, sets[i]? = some s :=
  ⟨_, Array.getElem?_eq_getElem (h.size ▸ hi)⟩

theorem isFinal_eq (h : Determinizes n sets d) (hi : sets[i]? = some s) :
    d.isFinal i = n.containsFinal s := by
  obtain ⟨node, hnode, hdesc⟩ := h.describes i s hi
  rw [Dfa.isFinal, hnode, Option.any_some, hdesc.final]

theorem next?_eq_some_iff (h : Determinizes n sets d) (hi : sets[i]? = some s) :
    d.next? i c = some j ↔ Leads n sets s c j := by
  obtain ⟨node, hnode, hdesc⟩ := h.describes i s hi
  have hnext : d.next? i c = node.moves.get? c := by rw [Dfa.next?, hnode]; rfl
  rw [hnext]
  refine ⟨hdesc.leads c j, fun ⟨hne, hstep⟩ => ?_⟩
  cases hget : node.moves.get? c with
  | none => exact absurd (hdesc.stuck c hget) hne
  | some j' => rw [h.injective j j' _ hstep (hdesc.leads c j' hget).2]

theorem next?_eq_none_iff (h : Determinizes n sets d) (hi : sets[i]? = some s) :
    d.next? i c = none ↔ n.step s c = ∅ := by
  obtain ⟨node, hnode, hdesc⟩ := h.describes i s hi
  have hnext : d.next? i c = node.moves.get? c := by rw [Dfa.next?, hnode]; rfl
  rw [hnext]
  refine ⟨hdesc.stuck c, fun hempty => ?_⟩
  cases hget : node.moves.get? c with
  | none => rfl
  | some j => exact absurd hempty (hdesc.leads c j hget).1

/-- A run of `d` ends in the state of the set in which a run of `n` ends. -/
theorem runFrom?_eq_some_iff (h : Determinizes n sets d) (hi : sets[i]? = some s) :
    d.runFrom? i w = some j ↔ sets[j]? = some (n.statesAfter s w) := by
  induction w generalizing i s with
  | nil =>
      rw [Dfa.runFrom?, Nfa.statesAfter_nil]
      constructor
      · intro hij
        obtain rfl := Option.some.inj hij
        exact hi
      · intro hj
        rw [h.injective i j s hi hj]
  | cons c w ih =>
      rw [Dfa.runFrom?, Nfa.statesAfter_cons]
      by_cases hempty : n.step s c = ∅
      · rw [(h.next?_eq_none_iff hi).2 hempty, hempty, Nfa.statesAfter_empty]
        exact iff_of_false (by simp) fun hj => h.nonempty j ∅ hj rfl
      · cases hnext : d.next? i c with
        | none => exact absurd ((h.next?_eq_none_iff hi).1 hnext) hempty
        | some j' =>
            obtain ⟨_, hj'⟩ := (h.next?_eq_some_iff hi).1 hnext
            exact ih hj'

theorem runFrom?_eq_none_iff (h : Determinizes n sets d) (hi : sets[i]? = some s) :
    d.runFrom? i w = none ↔ n.statesAfter s w = ∅ := by
  induction w generalizing i s with
  | nil =>
      rw [Dfa.runFrom?, Nfa.statesAfter_nil]
      exact iff_of_false (by simp) (h.nonempty i s hi)
  | cons c w ih =>
      rw [Dfa.runFrom?, Nfa.statesAfter_cons]
      cases hnext : d.next? i c with
      | none =>
          rw [(h.next?_eq_none_iff hi).1 hnext, Nfa.statesAfter_empty]
          exact iff_of_true rfl rfl
      | some j => exact ih ((h.next?_eq_some_iff hi).1 hnext).2

theorem acceptsFrom_eq (h : Determinizes n sets d) (hi : sets[i]? = some s) :
    d.acceptsFrom i w = n.acceptsFrom s w := by
  rw [Nfa.acceptsFrom_eq, Dfa.acceptsFrom]
  cases hrun : d.runFrom? i w with
  | some j =>
      rw [Option.any_some]
      exact h.isFinal_eq ((h.runFrom?_eq_some_iff hi).1 hrun)
  | none =>
      rw [(h.runFrom?_eq_none_iff hi).1 hrun]
      rfl

theorem accepts_eq (h : Determinizes n sets d) (input : String) :
    d.accepts input = n.accepts input :=
  h.acceptsFrom_eq h.first

end Determinizes

end Subset

end Regular
