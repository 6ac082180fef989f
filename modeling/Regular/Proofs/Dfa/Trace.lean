import Regular.Proofs.Dfa.Origin

/-!
# Traces of an automaton and of the automaton of its sets

A trace comes with a verdict of its own. That of a deterministic automaton looks at the last
state of the path, unless a move is missing; that of a nondeterministic one at the last set,
which is empty if the run got stuck. Both are the verdicts of the runs that keep no trace
(`Dfa.fst_trace`, `Nfa.fst_trace`).

The automaton of the sets passes the states that stand for the sets through which the given
automaton goes. The two stop together, but not alike: the nondeterministic automaton records
the step that leaves it without states, and the deterministic one records nothing for the
move that it lacks. The path and the steps are put side by side by `Dfa.Alongside`, from
which all that can be asked about their lengths and places follows (`Nfa.toDfa_trace`).
-/

namespace Regular

/-! ## The verdict of a trace -/

namespace Dfa

variable {d : Dfa} {i : StateId} {c : Char} {w : List Char}

theorem fst_traceFrom (d : Dfa) (i : StateId) (w : List Char) :
    (d.traceFrom i w).1 = d.acceptsFrom i w := by
  induction w generalizing i with
  | nil => rfl
  | cons c w ih =>
      rw [traceFrom, acceptsFrom_cons]
      cases d.next? i c with
      | none => rfl
      | some j => exact ih j

theorem fst_trace (d : Dfa) (input : String) : (d.trace input).1 = d.accepts input := by
  rw [trace]
  split
  · next hzero =>
    cases haccept : d.accepts input with
    | false => rfl
    | true => exact absurd hzero (Nat.ne_of_gt (size_pos_of_acceptsFrom haccept))
  · exact d.fst_traceFrom 0 input.toList

end Dfa

namespace Nfa

/-- What the last step has led to decides. -/
theorem containsFinal_last (n : Nfa) (step : Step) (w : List Char) :
    n.containsFinal
        ((((step :: n.stepsFrom step.closed w).getLast?).map (·.closed)).getD ∅) =
      n.acceptsFrom step.closed w := by
  induction w generalizing step with
  | nil => rfl
  | cons c w ih =>
      rw [stepsFrom, List.getLast?_cons_cons, acceptsFrom, Nfa.step]
      split
      · next hempty =>
        rw [List.getLast?_singleton, Option.map_some, Option.getD_some,
          SortedSet.isEmpty_iff.1 hempty]
        rfl
      · exact ih _

theorem fst_trace (n : Nfa) (input : String) : (n.trace input).1 = n.accepts input :=
  n.containsFinal_last ⟨none, .singleton n.start, n.initial⟩ input.toList

end Nfa

/-! ## A path and the steps of a run -/

/-- Has the step led to any states? -/
def Nfa.Step.isLive (step : Nfa.Step) : Bool := !step.closed.isEmpty

theorem Nfa.Step.isLive_iff {step : Nfa.Step} : step.isLive = true ↔ step.closed ≠ ∅ := by
  rw [isLive, Bool.not_eq_true', ← Bool.not_eq_true, SortedSet.isEmpty_iff]

namespace Dfa

variable {d : Dfa} {path : List StateId} {steps : List Nfa.Step} {i : Nat} {q : StateId}
  {step : Nfa.Step}

/-- The states stand for what the steps have led to, one after the other. There may be one
more step, which has led to nothing. -/
inductive Alongside (d : Dfa) : List StateId → List Nfa.Step → Prop
  | done : Alongside d [] []
  | stuck {step : Nfa.Step} : step.closed = ∅ → Alongside d [] [step]
  | next {q : StateId} {step : Nfa.Step} {path : List StateId} {steps : List Nfa.Step} :
      step.closed ≠ ∅ → d.origin? q = some step.closed → Alongside d path steps →
      Alongside d (q :: path) (step :: steps)

theorem Alongside.length_eq (h : d.Alongside path steps) :
    path.length = steps.countP Nfa.Step.isLive := by
  induction h with
  | done => rfl
  | stuck hempty =>
      rw [List.countP_singleton, if_neg fun hlive => Nfa.Step.isLive_iff.1 hlive hempty]
      rfl
  | next hne _ _ ih =>
      rw [List.countP_cons_of_pos (Nfa.Step.isLive_iff.2 hne), List.length_cons, ih]

theorem Alongside.exists_step (h : d.Alongside path steps) (hq : path[i]? = some q) :
    ∃ step, steps[i]? = some step ∧ d.origin? q = some step.closed := by
  induction h generalizing i with
  | done | stuck => simp at hq
  | @next q' step path steps _ horigin _ ih =>
      cases i with
      | zero =>
          obtain rfl := Option.some.inj hq
          exact ⟨step, rfl, horigin⟩
      | succ i => exact ih hq

theorem Alongside.last_of_empty (h : d.Alongside path steps) (hstep : steps[i]? = some step)
    (hempty : step.closed = ∅) : i + 1 = steps.length := by
  induction h generalizing i with
  | done => simp at hstep
  | stuck =>
      cases i with
      | zero => rfl
      | succ i => simp at hstep
  | next hne _ _ ih =>
      cases i with
      | zero =>
          obtain rfl := Option.some.inj hstep
          exact absurd hempty hne
      | succ i => rw [List.length_cons, ih hstep]

end Dfa

/-! ## Side by side -/

namespace Subset

variable {n : Nfa} {sets : Array IdSet} {d : Dfa} {i : StateId} {step : Nfa.Step}

/-- Where a state stands for what a step has led to, the runs go on side by side. -/
theorem Determinizes.alongside (h : Determinizes n sets d) (hi : sets[i]? = some step.closed)
    (w : List Char) :
    d.Alongside (d.traceFrom i w).2 (step :: n.stepsFrom step.closed w) := by
  have hne := h.nonempty i _ hi
  have horigin := h.origin?_eq_some_iff.2 hi
  induction w generalizing i step with
  | nil => exact .next hne horigin .done
  | cons c w ih =>
      rw [Dfa.traceFrom, Nfa.stepsFrom]
      cases hnext : d.next? i c with
      | none =>
          -- the missing move is a step to the empty set, which only the steps record
          have hempty : n.closure (n.advance step.closed c) = ∅ := (h.next?_eq_none_iff hi).1 hnext
          simp only [hempty]
          exact .next hne horigin (.stuck rfl)
      | some j =>
          obtain ⟨hstep, hj⟩ := (h.next?_eq_some_iff hi).1 hnext
          have hlive : (n.closure (n.advance step.closed c)).isEmpty = false :=
            Bool.eq_false_iff.2 fun hempty => hstep (SortedSet.isEmpty_iff.1 hempty)
          simp only [hlive]
          exact .next hne horigin (ih hj hstep (h.origin?_eq_some_iff.2 hj))

end Subset

/-- On every input an automaton and the automaton of its sets give one verdict, whether or
not they keep a trace. The path of the one has as many states as the trace of the other has
steps that lead to any states, and each state on it stands for what the step at the same
place has led to; only the last step may have led to nothing. -/
theorem Nfa.toDfa_trace (n : Nfa) (input : String) :
    ((n.trace input).1 = n.accepts input ∧ (n.toDfa.trace input).1 = n.accepts input ∧
      n.toDfa.accepts input = n.accepts input) ∧
    (n.toDfa.trace input).2.length = (n.trace input).2.countP Step.isLive ∧
    (∀ (i : Nat) (q : StateId), (n.toDfa.trace input).2[i]? = some q →
      ∃ step : Step, (n.trace input).2[i]? = some step ∧
        n.toDfa.origin? q = some step.closed) ∧
    ∀ (i : Nat) (step : Step), (n.trace input).2[i]? = some step → step.closed = ∅ →
      i + 1 = (n.trace input).2.length := by
  obtain ⟨sets, h⟩ := Subset.exists_determinizes n.toDfaObserved_none
  have haccepts : n.toDfa.accepts input = n.accepts input := h.accepts_eq input
  have halong : n.toDfa.Alongside (n.toDfa.trace input).2 (n.trace input).2 := by
    have hstart : sets[0]? = some (Step.mk none (.singleton n.start) n.initial).closed := h.first
    rw [Dfa.trace, if_neg (Nat.ne_of_gt h.size_pos)]
    exact h.alongside hstart input.toList
  refine ⟨⟨n.fst_trace input, ?_, haccepts⟩, halong.length_eq, fun i q => halong.exists_step,
    fun i step => halong.last_of_empty⟩
  rw [Dfa.fst_trace, haccepts]

end Regular
