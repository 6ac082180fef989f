import Regular.Proofs.Dfa.Determinize

/-!
# The ceiling on the number of states

A ceiling decides where the construction stops and changes nothing else
(`Nfa.toDfaObserved_some`): if the automaton of the sets has no more states than allowed, the
construction gives it with the same events, and otherwise it fails with the events up to the
one that would announce the first state too many.

The construction under the ceiling `k` and the one without a ceiling are run side by side.
They do the same as long as `k` sets or fewer have numbers. When one more set is met, the one
stops and the other goes on; what it has reported when it ends begins with what the first one
has reported, and in between stands the announcement of the state `k` (`Subset.Capped`). This
announcement is the only one, because announcements that come later are of higher numbers
(`Subset.Registry.Later`).
-/

namespace Regular

/-- The event says that a set of states has become the state `id`. -/
def Event.Announces (e : Event) (id : StateId) : Prop :=
  ∃ subset final, e = .subsetState id subset final

namespace Subset

variable {n : Nfa} {limit : Option Nat} {r r' r'' : Registry} {s t : IdSet} {i j k : StateId}
  {cs : List Char} {moves : List (Char × StateId)} {events : Array Event} {α β : Type}

/-! ## What a search adds -/

/-- The search has gone on from `r` to `r'`: sets may have got numbers, and the events that
have been added announce no others than these. -/
structure Registry.Later (r r' : Registry) : Prop where
  size : r.sets.size ≤ r'.sets.size
  events : ∃ added, r'.events.toList = r.events.toList ++ added ∧
    ∀ e ∈ added, ∀ id, e.Announces id → r.sets.size ≤ id ∧ id < r'.sets.size

namespace Registry

theorem Later.refl (r : Registry) : r.Later r :=
  ⟨Nat.le_refl _, [], (List.append_nil _).symm, fun _ he => absurd he List.not_mem_nil⟩

theorem Later.trans (h : r.Later r') (h' : r'.Later r'') : r.Later r'' := by
  obtain ⟨added, heq, hadded⟩ := h.events
  obtain ⟨added', heq', hadded'⟩ := h'.events
  refine ⟨Nat.le_trans h.size h'.size, added ++ added', by rw [heq', heq, List.append_assoc], ?_⟩
  intro e he id hid
  rcases List.mem_append.1 he with he | he
  · obtain ⟨hle, hlt⟩ := hadded e he id hid
    exact ⟨hle, Nat.lt_of_lt_of_le hlt h'.size⟩
  · obtain ⟨hle, hlt⟩ := hadded' e he id hid
    exact ⟨Nat.le_trans h.size hle, hlt⟩

theorem later_report_move (r : Registry) (source : StateId) (c : Char) (target : StateId) :
    r.Later (r.report (.subsetMove source c target)) := by
  refine ⟨Nat.le_refl _, [.subsetMove source c target], Array.toList_push, ?_⟩
  intro e he id hid
  obtain ⟨subset, final, rfl⟩ := hid
  cases List.mem_singleton.1 he

theorem later_announce (r : Registry) (s : IdSet) (final : Bool) (ids : Std.HashMap IdSet StateId) :
    r.Later (report ⟨r.sets.push s, ids, r.events⟩ (.subsetState r.sets.size s final)) := by
  have hsize : (r.sets.push s).size = r.sets.size + 1 := Array.size_push s
  refine ⟨hsize ▸ Nat.le_succ _, [.subsetState r.sets.size s final], Array.toList_push, ?_⟩
  intro e he id hid
  obtain ⟨subset, final', rfl⟩ := hid
  obtain ⟨rfl, -, -⟩ := Event.subsetState.inj (List.mem_singleton.1 he)
  exact ⟨Nat.le_refl _, hsize ▸ Nat.lt_succ_self _⟩

theorem later_locate (h : r.locate n limit t = .ok (r', j)) : r.Later r' := by
  unfold locate at h
  split at h
  · obtain ⟨rfl, -⟩ := Prod.mk.inj (Except.ok.inj h)
    exact Later.refl r
  · simp only at h
    split at h
    · cases h
    · obtain ⟨rfl, -⟩ := Prod.mk.inj (Except.ok.inj h)
      exact later_announce r t _ _

end Registry

theorem later_follow (h : follow n limit k s cs r = .ok (r', moves)) : r.Later r' := by
  induction cs generalizing r moves with
  | nil =>
      obtain ⟨rfl, -⟩ := Prod.mk.inj (Except.ok.inj h)
      exact Registry.Later.refl r
  | cons c cs ih =>
      rw [follow] at h
      split at h
      · exact ih h
      · obtain ⟨⟨r₁, j⟩, hlocate, h⟩ := bind_eq_ok_iff.1 h
        obtain ⟨⟨r₂, later⟩, hfollow, h⟩ := bind_eq_ok_iff.1 h
        obtain ⟨rfl, -⟩ := Prod.mk.inj (Except.ok.inj h)
        exact ((Registry.later_locate hlocate).trans (r₁.later_report_move k c j)).trans
          (ih hfollow)

theorem later_explore {fuel : Nat} {nodes nodes' : Array Dfa.Node}
    (h : explore n limit fuel r nodes = .ok (r', nodes')) : r.Later r' := by
  induction fuel generalizing r nodes with
  | zero =>
      obtain ⟨rfl, -⟩ := Prod.mk.inj (Except.ok.inj h)
      exact Registry.Later.refl r
  | succ fuel ih =>
      rw [explore] at h
      split at h
      · obtain ⟨rfl, -⟩ := Prod.mk.inj (Except.ok.inj h)
        exact Registry.Later.refl r
      · obtain ⟨⟨r₁, moves⟩, hfollow, h⟩ := bind_eq_ok_iff.1 h
        exact (later_follow hfollow).trans (ih h)

/-! ## Two searches side by side -/

/-- What is reported in `r` begins with `events`, goes on with the announcement of the state
`k`, and has no other announcement of it. -/
def BreaksOffAt (n : Nfa) (k : Nat) (events : Array Event) (r : Registry) : Prop :=
  ∃ s later, r.events.toList = events.toList ++ .subsetState k s (n.containsFinal s) :: later ∧
    ∀ e ∈ events.toList ++ later, ¬e.Announces k

/-- How the outcome of a search without a ceiling, the first one, compares with the outcome
of the same search under the ceiling `k`. -/
inductive Capped (n : Nfa) (k : Nat) :
    Except (Array Event) (Registry × α) → Except (Array Event) (Registry × α) → Prop
  | within {r : Registry} {a : α} :
      r.sets.size ≤ k → Registry.empty.Later r → Capped n k (.ok (r, a)) (.ok (r, a))
  | beyond {r : Registry} {a : α} {events : Array Event} :
      k < r.sets.size → BreaksOffAt n k events r → Capped n k (.ok (r, a)) (.error events)

/-- What is added later announces higher states. -/
theorem BreaksOffAt.later (h : BreaksOffAt n k events r) (hlt : k < r.sets.size)
    (hlater : r.Later r') : BreaksOffAt n k events r' := by
  obtain ⟨s, later, heq, hnone⟩ := h
  obtain ⟨added, heq', hadded⟩ := hlater.events
  refine ⟨s, later ++ added, by rw [heq', heq, List.append_assoc, List.cons_append], ?_⟩
  intro e he hk
  rw [← List.append_assoc] at he
  rcases List.mem_append.1 he with he | he
  · exact hnone e he hk
  · exact Nat.not_le_of_lt hlt (hadded e he k hk).1

/-- Of searches in two parts the second parts have to be compared below the ceiling only;
above it the one without a ceiling has to go on to its end. -/
theorem Capped.bind {x y : Except (Array Event) (Registry × α)}
    {f g : Registry × α → Except (Array Event) (Registry × β)} (h : Capped n k x y)
    (hwithin : ∀ r a, r.sets.size ≤ k → Registry.empty.Later r →
      Capped n k (f (r, a)) (g (r, a)))
    (hbeyond : ∀ r a, ∃ r' b, f (r, a) = .ok (r', b) ∧ r.Later r') :
    Capped n k (x >>= f) (y >>= g) := by
  cases h with
  | within hle hlater => exact hwithin _ _ hle hlater
  | @beyond r a events hlt hbreak =>
      obtain ⟨r', b, hf, hlater⟩ := hbeyond r a
      have hend : Capped n k (.ok (r', b)) (.error events) :=
        .beyond (Nat.lt_of_lt_of_le hlt hlater.size) (hbreak.later hlt hlater)
      rw [← hf] at hend
      exact hend

/-- The step that decides: a new set gets the number `r.sets.size`, or the search stops
before it is announced. -/
theorem capped_locate (hle : r.sets.size ≤ k) (hlater : Registry.empty.Later r) (t : IdSet) :
    Capped n k (r.locate n none t) (r.locate n (some k) t) := by
  unfold Registry.locate
  cases hids : r.ids[t]? with
  | some id => exact .within hle hlater
  | none =>
      have hannounce := r.later_announce t (n.containsFinal t) (r.ids.insert t r.sets.size)
      have hsize : (r.sets.push t).size = r.sets.size + 1 := Array.size_push t
      simp only [Option.any_none, Option.any_some, decide_eq_true_eq, Bool.false_eq_true, if_false]
      split
      · next hge =>
        -- all numbers below `k` are taken, and nothing else has been announced
        obtain rfl := Nat.le_antisymm hle hge
        refine .beyond (hsize ▸ Nat.lt_succ_self _) ⟨t, [], Array.toList_push, fun e he hk => ?_⟩
        obtain ⟨added, heq, hadded⟩ := hlater.events
        rw [List.append_nil, heq] at he
        exact Nat.lt_irrefl _ (hadded e he _ hk).2
      · next hlt => exact .within (hsize ▸ Nat.lt_of_not_le hlt) (hlater.trans hannounce)

theorem capped_follow (i : StateId) (s : IdSet) (cs : List Char) (hle : r.sets.size ≤ k)
    (hlater : Registry.empty.Later r) :
    Capped n k (follow n none i s cs r) (follow n (some k) i s cs r) := by
  induction cs generalizing r with
  | nil => exact .within hle hlater
  | cons c cs ih =>
      rw [follow, follow]
      split
      · exact ih hle hlater
      · refine (capped_locate hle hlater _).bind (fun r₁ j hle₁ hlater₁ => ?_) fun r₁ j => ?_
        · have hmove := r₁.later_report_move i c j
          have hsize : (r₁.report (.subsetMove i c j)).sets.size ≤ k := hle₁
          refine (ih hsize (hlater₁.trans hmove)).bind (fun r₂ moves hle₂ hlater₂ => ?_)
            fun r₂ moves => ?_
          · exact .within hle₂ hlater₂
          · exact ⟨r₂, _, rfl, Registry.Later.refl r₂⟩
        · obtain ⟨⟨r₂, moves⟩, hfollow⟩ := exists_follow n i s cs (r₁.report (.subsetMove i c j))
          refine ⟨r₂, _, bind_eq_ok_iff.2 ⟨_, hfollow, rfl⟩, ?_⟩
          exact (r₁.later_report_move i c j).trans (later_follow hfollow)

theorem capped_explore (fuel : Nat) (nodes : Array Dfa.Node) (hle : r.sets.size ≤ k)
    (hlater : Registry.empty.Later r) :
    Capped n k (explore n none fuel r nodes) (explore n (some k) fuel r nodes) := by
  induction fuel generalizing r nodes with
  | zero => exact .within hle hlater
  | succ fuel ih =>
      rw [explore, explore]
      split
      · exact .within hle hlater
      · next s _ =>
        refine (capped_follow nodes.size s _ hle hlater).bind (fun r₁ moves hle₁ hlater₁ => ?_)
          fun r₁ moves => ?_
        · exact ih _ hle₁ hlater₁
        · obtain ⟨⟨r₂, nodes'⟩, hexplore⟩ := exists_explore n fuel r₁
            (nodes.push ⟨n.containsFinal s, .ofList moves, some s⟩)
          exact ⟨r₂, nodes', hexplore, later_explore hexplore⟩

theorem capped_search (n : Nfa) (k : Nat) :
    Capped n k
      (Registry.empty.locate n none n.initial >>= fun p => explore n none (bound n) p.1 #[])
      (Registry.empty.locate n (some k) n.initial >>= fun p =>
        explore n (some k) (bound n) p.1 #[]) := by
  refine (capped_locate (Nat.zero_le k) (Registry.Later.refl _) _).bind
    (fun r j hle hlater => capped_explore _ _ hle hlater) fun r j => ?_
  obtain ⟨⟨r', nodes⟩, hexplore⟩ := exists_explore n (bound n) r #[]
  exact ⟨r', nodes, hexplore, later_explore hexplore⟩

end Subset

/-! ## The construction under a ceiling -/

namespace Nfa

open Subset

/-- What the construction reports and gives without a ceiling, and what it does under one, in
terms of the sets that are numbered in the end. -/
theorem exists_capped (n : Nfa) (k : Nat) : ∃ r,
    n.toDfaObserved none = ⟨r.events.toList, .ok n.toDfa⟩ ∧ n.toDfa.size = r.sets.size ∧
    ((r.sets.size ≤ k ∧ n.toDfaObserved (some k) = ⟨r.events.toList, .ok n.toDfa⟩) ∨
      (k < r.sets.size ∧ ∃ events, BreaksOffAt n k events r ∧
        n.toDfaObserved (some k) = ⟨events.toList, .error ⟨k⟩⟩)) := by
  obtain ⟨⟨r₀, j⟩, hlocate⟩ := Registry.empty.exists_locate n.initial
  obtain ⟨⟨r, nodes⟩, hexplore⟩ := exists_explore n (bound n) r₀ #[]
  have hobserved : n.toDfaObserved none = ⟨r.events.toList, .ok ⟨nodes⟩⟩ := by
    rw [toDfaObserved, bind_eq_ok_iff.2 ⟨_, hlocate, hexplore⟩]
  have hdfa : n.toDfa = ⟨nodes⟩ := by rw [toDfa, hobserved]
  have hcapped := capped_search n k
  rw [bind_eq_ok_iff.2 ⟨_, hlocate, hexplore⟩] at hcapped
  rw [hdfa]
  refine ⟨r, hobserved, (determinizes_of_explore hlocate hexplore).size, ?_⟩
  unfold toDfaObserved
  simp only
  split
  · next r' nodes' hrun =>
    have hsame : Capped n k (.ok (r, nodes)) (.ok (r', nodes')) := by
      rw [← hrun]
      exact hcapped
    cases hsame with
    | within hle => exact Or.inl ⟨hle, rfl⟩
  · next events hrun =>
    have hstop : Capped n k (.ok (r, nodes)) (.error events) := by
      rw [← hrun]
      exact hcapped
    cases hstop with
    | beyond hlt hbreak => exact Or.inr ⟨hlt, events, hbreak, rfl⟩

/-- Under a ceiling of `k` states the construction succeeds precisely if the automaton of the
sets has no more than `k` states. Then it gives this automaton and reports what it reports
without a ceiling. Otherwise it fails with the ceiling, and has reported what comes before
the announcement of the state `k`, which there is one of. -/
theorem toDfaObserved_some (n : Nfa) (k : Nat) :
    ((∃ d, (n.toDfaObserved (some k)).result = .ok d) ↔ n.toDfa.size ≤ k) ∧
    (n.toDfaObserved none).result = .ok n.toDfa ∧
    (n.toDfa.size ≤ k → n.toDfaObserved (some k) = n.toDfaObserved none) ∧
    (k < n.toDfa.size → ∃ before s later,
      n.toDfaObserved (some k) = ⟨before, .error ⟨k⟩⟩ ∧
      (n.toDfaObserved none).events = before ++ .subsetState k s (n.containsFinal s) :: later ∧
      ∀ e ∈ before ++ later, ¬e.Announces k) := by
  obtain ⟨r, hnone, hsize, hwithin | hbeyond⟩ := n.exists_capped k
  · obtain ⟨hle, hsome⟩ := hwithin
    rw [hnone, hsome, hsize]
    exact ⟨iff_of_true ⟨_, rfl⟩ hle, rfl, fun _ => rfl, fun hlt => absurd hle (Nat.not_le.2 hlt)⟩
  · obtain ⟨hlt, events, ⟨s, later, heq, hother⟩, hsome⟩ := hbeyond
    rw [hnone, hsome, hsize]
    refine ⟨iff_of_false (by simp) (Nat.not_le.2 hlt), rfl,
      fun hle => absurd hle (Nat.not_le.2 hlt), fun _ => ?_⟩
    exact ⟨events.toList, s, later, rfl, heq, hother⟩

end Nfa

end Regular
