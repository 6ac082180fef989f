import Regular.Proofs.Defect
import Regular.Proofs.Nfa.Residual

/-!
# The automaton of an expression is in order

The automaton of an expression is in order (`Expr.inOrder_toNfa`), so nothing is found wrong
with it (`Expr.defects_toNfa`). Its start is a state, its edges lead to states and one state
is final; what remains to be shown is that its states are on ways from the start: inside of a
fragment each state is on a way from the start of the fragment
(`Nfa.Holds.exists_path_start`), by induction on the tree.
-/

namespace Regular

variable {n : Nfa} {e : Expr} {lo : Nat} {i : StateId}

namespace Nfa

/-- Each state of a fragment is on a way from its start. -/
theorem Holds.exists_path_start (h : n.Holds lo e) (hlo : lo ≤ i) (hhi : i < lo + e.width) :
    ∃ w, n.Path (e.fragmentAt lo).start w i := by
  induction e generalizing lo i with
  | literal c =>
      simp only [Expr.width, Expr.fragmentAt] at *
      by_cases hi : i = lo
      · exact ⟨[], hi ▸ .nil i⟩
      · obtain rfl : i = lo + 1 := by lia
        exact ⟨[c], .read (h.edge .literal) (.nil _)⟩
  | epsilon =>
      simp only [Expr.width, Expr.fragmentAt] at *
      by_cases hi : i = lo
      · exact ⟨[], hi ▸ .nil i⟩
      · obtain rfl : i = lo + 1 := by lia
        exact ⟨[], .silent (h.edge .epsilon) (.nil _)⟩
  | concat l r ihl ihr =>
      have bl := l.fragmentAt_bounds lo
      simp only [Expr.width, Expr.fragmentAt] at *
      by_cases hil : i < lo + l.width
      · exact ihl h.1 hlo hil
      · -- all of the first operand is passed before the second one is entered
        obtain ⟨u, hu⟩ := ihl h.1 bl.2.2.1 bl.2.2.2
        obtain ⟨w, hw⟩ := ihr h.2.1 (i := i) (by lia) (by lia)
        exact ⟨u ++ w, hu.append (.silent (h.edge .concatJoin) hw)⟩
  | union l r ihl ihr =>
      have bl := l.fragmentAt_bounds lo
      simp only [Expr.width, Expr.fragmentAt] at *
      by_cases hil : i < lo + l.width
      · obtain ⟨w, hw⟩ := ihl h.1 hlo hil
        exact ⟨w, .silent (h.edge .enterLeft) hw⟩
      · by_cases hir : i < lo + l.width + r.width
        · obtain ⟨w, hw⟩ := ihr h.2.1 (i := i) (by lia) hir
          exact ⟨w, .silent (h.edge .enterRight) hw⟩
        · by_cases hi : i = lo + l.width + r.width
          · exact ⟨[], hi ▸ .nil i⟩
          · obtain rfl : i = lo + l.width + r.width + 1 := by lia
            obtain ⟨w, hw⟩ := ihl h.1 bl.2.2.1 bl.2.2.2
            have hend := hw.append (.silent (h.edge .leaveLeft) (.nil _))
            exact ⟨_, .silent (h.edge .enterLeft) hend⟩
  | star e ih =>
      simp only [Expr.width, Expr.fragmentAt] at *
      by_cases hie : i < lo + e.width
      · obtain ⟨w, hw⟩ := ih h.1 hlo hie
        exact ⟨w, .silent (h.edge .starEnter) hw⟩
      · by_cases hi : i = lo + e.width
        · exact ⟨[], hi ▸ .nil i⟩
        · obtain rfl : i = lo + e.width + 1 := by lia
          exact ⟨[], .silent (h.edge .starSkip) (.nil _)⟩

end Nfa

namespace Expr

/-- Each state is on a way from the start. -/
theorem exists_path_toNfa (hi : i < e.toNfa.size) : ∃ w, e.toNfa.Path e.toNfa.start w i := by
  rw [size_toNfa] at hi
  rw [toNfa_start]
  exact e.holds_toNfa.exists_path_start (Nat.zero_le i) (by lia)

theorem mem_states_toNfa (hi : i < e.toNfa.size) : i ∈ e.toNfa.states :=
  Nfa.mem_states_iff.2 ⟨hi, exists_path_toNfa hi⟩

theorem inOrder_toNfa (e : Expr) : e.toNfa.InOrder where
  start := e.toNfa_start_lt
  closed _ _ _ := edge_toNfa_lt
  final := by
    have bounds := e.fragmentAt_bounds 0
    refine ⟨_, ⟨Nfa.mem_states_iff_reached.1 (mem_states_toNfa ?_), isFinal_toNfa_iff.2 rfl⟩,
      fun i hi => isFinal_toNfa_iff.1 hi.2⟩
    rw [size_toNfa]
    lia
  reached _ hi := Nfa.mem_states_iff_reached.1 (mem_states_toNfa hi)

/-- Nothing is found wrong with the automaton of an expression. -/
theorem defects_toNfa (e : Expr) : e.toNfa.defects = [] :=
  Nfa.defects_eq_nil_iff.2 e.inOrder_toNfa

end Expr

end Regular
