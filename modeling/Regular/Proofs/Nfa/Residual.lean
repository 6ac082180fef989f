import Regular.Proofs.Nfa.Thompson

/-!
# What may still be read in the states of a fragment

`Expr.residual lo after e i` is the language of what may still be read in state `i` of the
fragment of `e` that begins at `lo`, when `after` is what may be read behind the fragment. It
is `e.language * after` at the start and `after` at the stop.

Residuals are compared with paths in both directions. An edge of the fragment prepends its
label to what is left (`Expr.residualsFollow`), so by induction on a path every word that
leads to the stop is in the residual. In the other direction each word of the residual is
spelled by a path (`Nfa.Holds.spellsResiduals`). Both are shown by induction on the tree,
with a lemma for each constructor, and over all `after` at once, because a fragment inside a
star is followed by further rounds of the star.

The main statements are `Expr.acceptsFrom_toNfa_iff`, that the automaton of an expression
accepts the language of the expression, and `Expr.toNfa_live`, that something can be accepted
from each of its states.
-/

namespace Regular

open scoped Computability

variable {n : Nfa} {e : Expr} {lo : Nat} {i j k : StateId} {label : Option Char}
  {after : Language Char} {w : List Char}

namespace Expr

/-- What may be read in state `i` of the fragment, up to its end and then in `after`. -/
def residual (lo : Nat) (after : Language Char) : Expr → StateId → Language Char
  | literal c, i => if i = lo then {[c]} * after else after
  | epsilon, _ => after
  | concat l r, i =>
    if i < lo + l.width then l.residual lo (r.language * after) i
    else r.residual (lo + l.width) after i
  | union l r, i =>
    if i = lo + l.width + r.width then (l.language + r.language) * after
    else if i = lo + l.width + r.width + 1 then after
    else if i < lo + l.width then l.residual lo after i
    else r.residual (lo + l.width) after i
  | star e, i =>
    if i = lo + e.width then e.language∗ * after
    else if i = lo + e.width + 1 then after
    else e.residual lo (e.language∗ * after) i

theorem residual_start (e : Expr) (lo : Nat) (after : Language Char) :
    e.residual lo after (e.fragmentAt lo).start = e.language * after := by
  induction e generalizing lo after with
  | literal c => rw [residual, fragmentAt, if_pos rfl, language]
  | epsilon => rw [residual, language, one_mul]
  | concat l r ihl _ =>
      have bl := l.fragmentAt_bounds lo
      rw [residual, fragmentAt, if_pos (by lia), ihl, language, mul_assoc]
  | union l r _ _ => rw [residual, fragmentAt, if_pos rfl, language]
  | star e _ => rw [residual, fragmentAt, if_pos rfl, language]

theorem residual_stop (e : Expr) (lo : Nat) (after : Language Char) :
    e.residual lo after (e.fragmentAt lo).stop = after := by
  induction e generalizing lo after with
  | literal c => rw [residual, fragmentAt, if_neg (by lia)]
  | epsilon => rw [residual]
  | concat l r _ ihr =>
      have br := r.fragmentAt_bounds (lo + l.width)
      rw [residual, fragmentAt, if_neg (by lia), ihr]
  | union l r _ _ => rw [residual, fragmentAt, if_neg (by lia), if_pos rfl]
  | star e _ => rw [residual, fragmentAt, if_neg (by lia), if_pos rfl]

/-- Something is left to be read in every state. -/
theorem exists_mem_residual (e : Expr) (hafter : ∃ w, w ∈ after) (i : StateId) :
    ∃ w, w ∈ e.residual lo after i := by
  have hmul : ∀ (l : Language Char), (∃ u, u ∈ l) → ∀ {k : Language Char}, (∃ w, w ∈ k) →
      ∃ w, w ∈ l * k := by
    rintro l ⟨u, hu⟩ k ⟨w, hw⟩
    exact ⟨u ++ w, Language.append_mem_mul hu hw⟩
  induction e generalizing lo after with
  | literal c =>
      rw [residual]
      split
      · exact hmul _ (literal c).exists_mem_language hafter
      · exact hafter
  | epsilon => exact hafter
  | concat l r ihl ihr =>
      rw [residual]
      split
      · exact ihl (hmul _ r.exists_mem_language hafter)
      · exact ihr hafter
  | union l r ihl ihr =>
      rw [residual]
      split
      · exact hmul _ (union l r).exists_mem_language hafter
      · split
        · exact hafter
        · split
          · exact ihl hafter
          · exact ihr hafter
  | star e ih =>
      have hstar := hmul _ (star e).exists_mem_language hafter
      rw [residual]
      split
      · exact hstar
      · split
        · exact hafter
        · exact ih hstar

/-! ### Region by region -/

theorem residual_concat_left {l r : Expr} (hi : i < lo + l.width) :
    (concat l r).residual lo after i = l.residual lo (r.language * after) i := if_pos hi

theorem residual_concat_right {l r : Expr} (hi : lo + l.width ≤ i) :
    (concat l r).residual lo after i = r.residual (lo + l.width) after i :=
  if_neg (Nat.not_lt.2 hi)

theorem residual_union_start {l r : Expr} :
    (union l r).residual lo after (lo + l.width + r.width) =
      (l.language + r.language) * after := residual_start (union l r) lo after

theorem residual_union_stop {l r : Expr} :
    (union l r).residual lo after (lo + l.width + r.width + 1) = after :=
  residual_stop (union l r) lo after

theorem residual_union_left {l r : Expr} (hi : i < lo + l.width) :
    (union l r).residual lo after i = l.residual lo after i := by
  rw [residual, if_neg (by lia), if_neg (by lia), if_pos hi]

theorem residual_union_right {l r : Expr} (hlo : lo + l.width ≤ i)
    (hhi : i < lo + l.width + r.width) :
    (union l r).residual lo after i = r.residual (lo + l.width) after i := by
  rw [residual, if_neg (by lia), if_neg (by lia), if_neg (by lia)]

theorem residual_star_start :
    (star e).residual lo after (lo + e.width) = e.language∗ * after :=
  residual_start (star e) lo after

theorem residual_star_stop : (star e).residual lo after (lo + e.width + 1) = after :=
  residual_stop (star e) lo after

theorem residual_star_body (hi : i < lo + e.width) :
    (star e).residual lo after i = e.residual lo (e.language∗ * after) i := by
  rw [residual, if_neg (by lia), if_neg (by lia)]

end Expr

/-! ## Along an edge -/

/-- No round at all. -/
theorem mem_kstar_mul {L : Language Char} (hw : w ∈ after) : w ∈ L∗ * after :=
  Language.append_mem_mul (Language.nil_mem_kstar L) hw

/-- One more round. -/
theorem mem_kstar_mul_of_round {L : Language Char} (hw : w ∈ L * (L∗ * after)) :
    w ∈ L∗ * after := by
  rw [← mul_assoc] at hw
  exact mul_le_mul_left (mul_kstar_le_kstar (a := L)) after hw

namespace Expr

/-- What may be read before an edge of the fragment is its label and what may be read behind
it. -/
def ResidualsFollow (e : Expr) (lo : Nat) : Prop :=
  ∀ ⦃after : Language Char⦄ ⦃i j : StateId⦄ ⦃label : Option Char⦄ ⦃w : List Char⦄,
    e.FragmentEdge lo i label j → w ∈ e.residual lo after j →
      label.toList ++ w ∈ e.residual lo after i

theorem residualsFollow_literal (c : Char) (lo : Nat) : (literal c).ResidualsFollow lo := by
  intro after i j label w h hw
  cases h
  rw [residual, if_neg (Nat.succ_ne_self _)] at hw
  rw [residual, if_pos rfl]
  exact Language.append_mem_mul rfl hw

theorem residualsFollow_epsilon (lo : Nat) : epsilon.ResidualsFollow lo := by
  intro after i j label w h hw
  cases h
  exact hw

theorem residualsFollow_concat {l r : Expr} (hl : l.ResidualsFollow lo)
    (hr : r.ResidualsFollow (lo + l.width)) : (concat l r).ResidualsFollow lo := by
  intro after i j label w h hw
  have bl := l.fragmentAt_bounds lo
  have br := r.fragmentAt_bounds (lo + l.width)
  cases h with
  | concatLeft h =>
      obtain ⟨⟨-, hi, -⟩, -, hj, -⟩ := h.bounds
      rw [residual_concat_left hj] at hw
      rw [residual_concat_left hi]
      exact hl h hw
  | concatRight h =>
      obtain ⟨⟨hi, -, -⟩, hj, -, -⟩ := h.bounds
      rw [residual_concat_right hj] at hw
      rw [residual_concat_right hi]
      exact hr h hw
  | concatJoin =>
      rw [residual_concat_right br.1, residual_start] at hw
      rw [residual_concat_left bl.2.2.2, residual_stop]
      exact hw

theorem residualsFollow_union {l r : Expr} (hl : l.ResidualsFollow lo)
    (hr : r.ResidualsFollow (lo + l.width)) : (union l r).ResidualsFollow lo := by
  intro after i j label w h hw
  have bl := l.fragmentAt_bounds lo
  have br := r.fragmentAt_bounds (lo + l.width)
  cases h with
  | unionLeft h =>
      obtain ⟨⟨-, hi, -⟩, -, hj, -⟩ := h.bounds
      rw [residual_union_left hj] at hw
      rw [residual_union_left hi]
      exact hl h hw
  | unionRight h =>
      obtain ⟨⟨hlo, hi, -⟩, hlo', hj, -⟩ := h.bounds
      rw [residual_union_right hlo' hj] at hw
      rw [residual_union_right hlo hi]
      exact hr h hw
  | enterLeft =>
      rw [residual_union_left bl.2.1, residual_start] at hw
      rw [residual_union_start, add_mul]
      exact Or.inl hw
  | enterRight =>
      rw [residual_union_right br.1 br.2.1, residual_start] at hw
      rw [residual_union_start, add_mul]
      exact Or.inr hw
  | leaveLeft =>
      rw [residual_union_stop] at hw
      rw [residual_union_left bl.2.2.2, residual_stop]
      exact hw
  | leaveRight =>
      rw [residual_union_stop] at hw
      rw [residual_union_right br.2.2.1 br.2.2.2, residual_stop]
      exact hw

theorem residualsFollow_star (he : e.ResidualsFollow lo) : (star e).ResidualsFollow lo := by
  intro after i j label w h hw
  have be := e.fragmentAt_bounds lo
  cases h with
  | starBody h =>
      obtain ⟨⟨-, hi, -⟩, -, hj, -⟩ := h.bounds
      rw [residual_star_body hj] at hw
      rw [residual_star_body hi]
      exact he h hw
  | starSkip =>
      rw [residual_star_stop] at hw
      rw [residual_star_start]
      exact mem_kstar_mul hw
  | starEnter =>
      rw [residual_star_body be.2.1, residual_start] at hw
      rw [residual_star_start]
      exact mem_kstar_mul_of_round hw
  | starAgain =>
      rw [residual_star_body be.2.1, residual_start] at hw
      rw [residual_star_body be.2.2.2, residual_stop]
      exact mem_kstar_mul_of_round hw
  | starLeave =>
      rw [residual_star_stop] at hw
      rw [residual_star_body be.2.2.2, residual_stop]
      exact mem_kstar_mul hw

theorem residualsFollow (e : Expr) (lo : Nat) : e.ResidualsFollow lo := by
  induction e generalizing lo with
  | literal c => exact residualsFollow_literal c lo
  | epsilon => exact residualsFollow_epsilon lo
  | concat l r ihl ihr => exact residualsFollow_concat (ihl lo) (ihr _)
  | union l r ihl ihr => exact residualsFollow_union (ihl lo) (ihr _)
  | star e ih => exact residualsFollow_star (ih lo)

end Expr

/-! ## Along a path -/

namespace Nfa

/-- The residuals in the fragment are spelled by paths to `k`, once what may be read behind
the fragment is spelled by paths from its stop. -/
def SpellsResiduals (n : Nfa) (k : StateId) (lo : Nat) (e : Expr) : Prop :=
  ∀ ⦃after : Language Char⦄ ⦃i : StateId⦄ ⦃w : List Char⦄,
    (∀ v ∈ after, n.Path (e.fragmentAt lo).stop v k) → lo ≤ i → i < lo + e.width →
      w ∈ e.residual lo after i → n.Path i w k

/-- The words of the language of the fragment are spelled by paths through all of it. -/
theorem SpellsResiduals.through (h : n.SpellsResiduals k lo e) {u v : List Char}
    (hu : u ∈ e.language) (hv : n.Path (e.fragmentAt lo).stop v k) :
    n.Path (e.fragmentAt lo).start (u ++ v) k := by
  have be := e.fragmentAt_bounds lo
  have hafter : ∀ x ∈ ({v} : Language Char), n.Path (e.fragmentAt lo).stop x k :=
    fun x hx => hx ▸ hv
  refine h hafter be.1 be.2.1 ?_
  rw [Expr.residual_start]
  exact Language.append_mem_mul hu rfl

theorem spellsResiduals_literal {c : Char} (h : n.Holds lo (.literal c)) :
    n.SpellsResiduals k lo (.literal c) := by
  intro after i w hafter hlo hhi hw
  simp only [Expr.width] at hhi
  rw [Expr.residual] at hw
  split at hw
  · next hi =>
    subst hi
    obtain ⟨u, rfl, v, hv, rfl⟩ := Language.mem_mul.1 hw
    exact .read (h.edge .literal) (hafter v hv)
  · next hi =>
    obtain rfl : i = lo + 1 := by lia
    exact hafter w hw

theorem spellsResiduals_epsilon (h : n.Holds lo .epsilon) :
    n.SpellsResiduals k lo .epsilon := by
  intro after i w hafter hlo hhi hw
  simp only [Expr.width] at hhi
  by_cases hi : i = lo
  · subst hi
    exact .silent (h.edge .epsilon) (hafter w hw)
  · obtain rfl : i = lo + 1 := by lia
    exact hafter w hw

theorem spellsResiduals_concat {l r : Expr} (h : n.Holds lo (.concat l r))
    (hl : n.SpellsResiduals k lo l) (hr : n.SpellsResiduals k (lo + l.width) r) :
    n.SpellsResiduals k lo (.concat l r) := by
  intro after i w hafter hlo hhi hw
  simp only [Expr.width] at hhi
  by_cases hil : i < lo + l.width
  · rw [Expr.residual_concat_left hil] at hw
    refine hl (fun x hx => ?_) hlo hil hw
    obtain ⟨u, hu, v, hv, rfl⟩ := Language.mem_mul.1 hx
    exact .silent (h.edge .concatJoin) (hr.through hu (hafter v hv))
  · rw [Expr.residual_concat_right (Nat.not_lt.1 hil)] at hw
    exact hr hafter (Nat.not_lt.1 hil) (by lia) hw

theorem spellsResiduals_union {l r : Expr} (h : n.Holds lo (.union l r))
    (hl : n.SpellsResiduals k lo l) (hr : n.SpellsResiduals k (lo + l.width) r) :
    n.SpellsResiduals k lo (.union l r) := by
  intro after i w hafter hlo hhi hw
  have hlstop : ∀ v ∈ after, n.Path (l.fragmentAt lo).stop v k := fun v hv =>
    .silent (h.edge .leaveLeft) (hafter v hv)
  have hrstop : ∀ v ∈ after, n.Path (r.fragmentAt (lo + l.width)).stop v k := fun v hv =>
    .silent (h.edge .leaveRight) (hafter v hv)
  simp only [Expr.width] at hhi
  by_cases hil : i < lo + l.width
  · rw [Expr.residual_union_left hil] at hw
    exact hl hlstop hlo hil hw
  by_cases hir : i < lo + l.width + r.width
  · rw [Expr.residual_union_right (Nat.not_lt.1 hil) hir] at hw
    exact hr hrstop (Nat.not_lt.1 hil) hir hw
  by_cases hi : i = lo + l.width + r.width
  · subst hi
    rw [Expr.residual_union_start, add_mul] at hw
    rcases hw with hw | hw
    · obtain ⟨u, hu, v, hv, rfl⟩ := Language.mem_mul.1 hw
      exact .silent (h.edge .enterLeft) (hl.through hu (hlstop v hv))
    · obtain ⟨u, hu, v, hv, rfl⟩ := Language.mem_mul.1 hw
      exact .silent (h.edge .enterRight) (hr.through hu (hrstop v hv))
  · obtain rfl : i = lo + l.width + r.width + 1 := by lia
    rw [Expr.residual_union_stop] at hw
    exact hafter w hw

/-- A loop whose body leads from `first` to `back`, which is where it is entered again or
left for `out`: any number of rounds can be spelled before what may be read behind the
loop. -/
theorem path_of_mem_rounds {body : Language Char} {back first out : StateId}
    (hbody : ∀ u ∈ body, ∀ v, n.Path back v k → n.Path first (u ++ v) k)
    (hafter : ∀ v ∈ after, n.Path out v k) (hfirst : n.Edge back none first)
    (hout : n.Edge back none out) (hw : w ∈ body∗ * after) : n.Path back w k := by
  obtain ⟨u, hu, v, hv, rfl⟩ := Language.mem_mul.1 hw
  obtain ⟨us, rfl, hus⟩ := Language.mem_kstar.1 hu
  clear hu hw
  induction us with
  | nil => exact .silent hout (hafter v hv)
  | cons u us ih =>
      rw [List.flatten_cons, List.append_assoc]
      exact .silent hfirst (hbody u (hus u (List.mem_cons_self ..)) _
        (ih fun u' hu' => hus u' (List.mem_cons_of_mem _ hu')))

theorem spellsResiduals_star (h : n.Holds lo (.star e)) (he : n.SpellsResiduals k lo e) :
    n.SpellsResiduals k lo (.star e) := by
  intro after i w hafter hlo hhi hw
  have hback : ∀ v ∈ e.language∗ * after, n.Path (e.fragmentAt lo).stop v k := fun v hv =>
    path_of_mem_rounds (fun u hu v => he.through hu) hafter (h.edge .starAgain)
      (h.edge .starLeave) hv
  simp only [Expr.width] at hhi
  by_cases hie : i < lo + e.width
  · rw [Expr.residual_star_body hie] at hw
    exact he hback hlo hie hw
  by_cases hi : i = lo + e.width
  · subst hi
    rw [Expr.residual_star_start, ← Language.one_add_self_mul_kstar_eq_kstar, add_mul, one_mul,
      mul_assoc] at hw
    rcases hw with hw | hw
    · exact .silent (h.edge .starSkip) (hafter w hw)
    · obtain ⟨u, hu, v, hv, rfl⟩ := Language.mem_mul.1 hw
      exact .silent (h.edge .starEnter) (he.through hu (hback v hv))
  · obtain rfl : i = lo + e.width + 1 := by lia
    rw [Expr.residual_star_stop] at hw
    exact hafter w hw

theorem Holds.spellsResiduals (h : n.Holds lo e) : n.SpellsResiduals k lo e := by
  induction e generalizing lo with
  | literal c => exact spellsResiduals_literal h
  | epsilon => exact spellsResiduals_epsilon h
  | concat l r ihl ihr => exact spellsResiduals_concat h (ihl h.1) (ihr h.2.1)
  | union l r ihl ihr => exact spellsResiduals_union h (ihl h.1) (ihr h.2.1)
  | star e ih => exact spellsResiduals_star h (ih h.1)

theorem Holds.isFinal_eq_false (h : n.Holds lo e) (hlo : lo ≤ i) (hhi : i < lo + e.width)
    (hne : i ≠ (e.fragmentAt lo).stop) : n.isFinal i = false := by
  obtain ⟨node, hnode, hinner⟩ := h.exists_inner hlo hhi hne
  rw [isFinal, hnode, Option.any_some]
  cases hinner with
  | one j label => cases label <;> rfl
  | two => rfl

end Nfa

/-! ## The automaton of an expression -/

namespace Expr

theorem toNfa_start (e : Expr) : e.toNfa.start = (e.fragmentAt 0).start := by
  rw [toNfa, toNfaObserved_eq, ← Nfa.size_empty, ← (Fragment.placed_build e .empty).fragment]

theorem node?_toNfa (e : Expr) : e.toNfa.node? = (e.build .empty).result.1.node? := by
  rw [toNfa, toNfaObserved_eq]
  rfl

theorem size_toNfa (e : Expr) : e.toNfa.size = e.width := by
  have hsize := (Fragment.placed_build e .empty).size
  rw [Nfa.size_empty, Nat.zero_add] at hsize
  rw [toNfa, toNfaObserved_eq, ← hsize]
  rfl

theorem holds_toNfa (e : Expr) : e.toNfa.Holds 0 e :=
  (Fragment.placed_build e .empty).holds.frame fun _ _ _ _ => by rw [node?_toNfa]

theorem node?_toNfa_stop (e : Expr) : e.toNfa.node? (e.fragmentAt 0).stop = some (.new true) := by
  rw [node?_toNfa]
  exact (Fragment.placed_build e .empty).stop

theorem edge_toNfa_ne_stop (h : e.toNfa.Edge i label j) : i ≠ (e.fragmentAt 0).stop := by
  rintro rfl
  exact Nfa.Node.mem_edges_new true ((Nfa.edge_iff_of_node? e.node?_toNfa_stop).1 h)

/-- The stop is the only final state. -/
theorem isFinal_toNfa_iff : e.toNfa.isFinal i = true ↔ i = (e.fragmentAt 0).stop := by
  constructor
  · intro h
    by_contra hne
    have hi : i < e.width := by
      rw [← size_toNfa]
      by_contra hge
      simp [Nfa.isFinal, Nfa.node?_eq_none_iff.2 (Nat.not_lt.1 hge)] at h
    rw [e.holds_toNfa.isFinal_eq_false (Nat.zero_le i) (by lia) hne] at h
    cases h
  · rintro rfl
    rw [Nfa.isFinal, node?_toNfa_stop]
    rfl

/-- There are no edges but those of the fragment. -/
theorem fragmentEdge_toNfa (h : e.toNfa.Edge i label j) : e.FragmentEdge 0 i label j := by
  have hi := h.lt_size
  rw [size_toNfa] at hi
  exact e.holds_toNfa.fragmentEdge (Nat.zero_le i) (by lia) (edge_toNfa_ne_stop h) h

/-- Edges lead to states. -/
theorem edge_toNfa_lt (h : e.toNfa.Edge i label j) : j < e.toNfa.size := by
  obtain ⟨-, -, hj, -⟩ := (fragmentEdge_toNfa h).bounds
  rw [size_toNfa]
  lia

/-- The words that lead from a state to the stop are those of its residual. -/
theorem path_toNfa_iff (hi : i < e.toNfa.size) :
    e.toNfa.Path i w (e.fragmentAt 0).stop ↔ w ∈ e.residual 0 1 i := by
  constructor
  · intro h
    generalize hk : (e.fragmentAt 0).stop = k at h
    induction h with
    | nil i => exact hk ▸ (e.residual_stop 0 1).symm ▸ Language.nil_mem_one
    | silent hedge _ ih =>
        exact e.residualsFollow 0 (fragmentEdge_toNfa hedge) (ih (edge_toNfa_lt hedge) hk)
    | read hedge _ ih =>
        exact e.residualsFollow 0 (fragmentEdge_toNfa hedge) (ih (edge_toNfa_lt hedge) hk)
  · intro hw
    rw [size_toNfa, ← Nat.zero_add e.width] at hi
    refine e.holds_toNfa.spellsResiduals ?_ (Nat.zero_le i) hi hw
    rintro v rfl
    exact .nil _

theorem toNfa_start_lt (e : Expr) : e.toNfa.start < e.toNfa.size := by
  rw [toNfa_start, size_toNfa]
  have be := e.fragmentAt_bounds 0
  lia

/-- The automaton of an expression accepts the words of its language. -/
theorem acceptsFrom_toNfa_iff (e : Expr) (w : List Char) :
    e.toNfa.acceptsFrom e.toNfa.initial w = true ↔ w ∈ e.language := by
  have hstart := e.toNfa_start_lt
  rw [Nfa.acceptsFrom_initial_iff]
  simp only [isFinal_toNfa_iff, exists_eq_right, path_toNfa_iff hstart]
  rw [toNfa_start, residual_start, mul_one]

/-- Whatever the tree, its automaton gives the verdict yes on the texts that the tree denotes
and on no others. -/
theorem toNfa_accepts_iff (e : Expr) (input : String) :
    e.toNfa.accepts input = true ↔ input.toList ∈ e.language :=
  e.acceptsFrom_toNfa_iff input.toList

/-- From each state something can be accepted. -/
theorem toNfa_live (hi : i < e.toNfa.size) :
    ∃ w k, e.toNfa.Path i w k ∧ e.toNfa.isFinal k = true := by
  obtain ⟨w, hw⟩ : ∃ w, w ∈ e.residual 0 1 i := e.exists_mem_residual ⟨[], Language.nil_mem_one⟩ i
  exact ⟨w, _, (path_toNfa_iff hi).2 hw, isFinal_toNfa_iff.2 rfl⟩

end Expr

end Regular
