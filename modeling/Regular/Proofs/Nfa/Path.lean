import Mathlib.Data.List.ReduceOption
import Regular.Proofs.Reachability

/-!
# Paths, and what a run computes

`Nfa.Path` is acceptance without sets: a path follows one edge after the other and spells the
characters of their labels. `Nfa.mem_statesAfter_closure_iff` says that a run, which keeps
sets of states and closes them under silent edges after every character, computes precisely
the states at the ends of paths. `Nfa.acceptsFrom_closure_iff` is acceptance in the same
terms; that a run stops early when no state is left makes no difference, since no path goes
on from the empty set.

Edges may dangle, so the last state of a path need not exist. The states on a way from the
start are those at the ends of paths (`Nfa.mem_states_iff`). A route (`Nfa.Route`) passes
through states only and keeps the labels of its edges, the empty ones too. Paths to states
are routes (`Nfa.path_iff_exists_route`), and as what is final is a state, acceptance can be
told by routes (`Nfa.accepts_iff_exists_route`).
-/

namespace Regular.Nfa

open Relation

variable {n : Nfa} {i j k : StateId} {s : IdSet} {c : Char} {u w : List Char}

/-! ## Edges -/

/-- An edge from `i` to `j`, whether or not `j` is a state. -/
def Edge (n : Nfa) (i : StateId) (label : Option Char) (j : StateId) : Prop :=
  (label, j) ∈ n.edgesFrom i

theorem Node.mem_edges_none {node : Node} : (none, j) ∈ node.edges ↔ j ∈ node.epsilon := by
  simp only [Node.edges, List.mem_append, List.mem_map, List.mem_flatMap, Prod.mk.injEq,
    reduceCtorEq, false_and, and_false, exists_false, or_false, true_and, exists_eq_right,
    SortedSet.mem_def]

theorem Node.mem_edges_some {node : Node} :
    (some c, j) ∈ node.edges ↔ ∃ t, node.moves.get? c = some t ∧ j ∈ t := by
  simp only [Node.edges, List.mem_append, List.mem_map, List.mem_flatMap, Prod.mk.injEq,
    reduceCtorEq, false_and, and_false, exists_false, false_or, Option.some.injEq,
    SortedSet.mem_def, CharMap.get?_eq_some_iff]
  constructor
  · rintro ⟨⟨d, t⟩, hmem, x, hx, rfl, rfl⟩
    exact ⟨t, hmem, hx⟩
  · rintro ⟨t, hmem, hj⟩
    exact ⟨(c, t), hmem, j, hj, rfl, rfl⟩

theorem edge_iff {label : Option Char} :
    n.Edge i label j ↔ ∃ node, n.node? i = some node ∧ (label, j) ∈ node.edges := by
  unfold Edge edgesFrom
  cases n.node? i <;> simp

theorem edge_none_iff : n.Edge i none j ↔ j ∈ n.epsilonTargets i := by
  rw [edge_iff, epsilonTargets]
  cases n.node? i <;> simp [Node.mem_edges_none, SortedSet.mem_def]

theorem edge_some_iff :
    n.Edge i (some c) j ↔ ∃ t, n.node? i >>= (·.moves.get? c) = some t ∧ j ∈ t := by
  rw [edge_iff]
  cases n.node? i <;> simp [Node.mem_edges_some]

theorem node?_eq_none_iff : n.node? i = none ↔ n.size ≤ i := Array.getElem?_eq_none_iff

theorem Edge.lt_size {label : Option Char} (h : n.Edge i label j) : i < n.size := by
  obtain ⟨node, hnode, -⟩ := edge_iff.1 h
  exact (Array.getElem?_eq_some_iff.1 hnode).1

/-! ## Silent ways and the closure -/

/-- A way of any length along edges that read nothing. -/
def SilentWay (n : Nfa) : StateId → StateId → Prop := ReflTransGen fun a b => n.Edge a none b

/-- On a silent way to a state, every state exists: the last one by assumption, the others
because an edge leaves them. -/
theorem SilentWay.leads (h : n.SilentWay i j) (hj : j < n.size) :
    i < n.size ∧ ReflTransGen (Leads n.epsilonTargets n.size) i j := by
  induction h with
  | refl => exact ⟨hj, .refl⟩
  | tail _ hstep ih =>
      obtain ⟨hi, hway⟩ := ih hstep.lt_size
      exact ⟨hi, hway.tail ⟨edge_none_iff.1 hstep, hj⟩⟩

theorem mem_closure_iff : i ∈ n.closure s ↔ ∃ j ∈ s, n.SilentWay j i := by
  have hway : ∀ {a b}, ReflTransGen (Leads n.epsilonTargets n.size) a b → n.SilentWay a b :=
    fun h => ReflTransGen.mono (fun _ _ hab => edge_none_iff.2 hab.1) _ _ h
  simp only [closure, SortedSet.mem_union, SortedSet.mem_ofList, List.mem_flatMap,
    ← SortedSet.mem_def, mem_reachable_iff]
  constructor
  · rintro (hi | ⟨a, ⟨j, hj, -, hja⟩, hai⟩)
    · exact ⟨i, hi, .refl⟩
    · exact ⟨j, hj, (hway hja).tail (edge_none_iff.2 hai)⟩
  · rintro ⟨j, hj, hji⟩
    cases hji with
    | refl => exact Or.inl hj
    | tail hja hai =>
        obtain ⟨hlt, hleads⟩ := SilentWay.leads hja hai.lt_size
        exact Or.inr ⟨_, ⟨j, hj, hlt, hleads⟩, edge_none_iff.1 hai⟩

theorem mem_closure_of_mem (h : i ∈ s) : i ∈ n.closure s := mem_closure_iff.2 ⟨i, h, .refl⟩

@[simp] theorem closure_closure (n : Nfa) (s : IdSet) : n.closure (n.closure s) = n.closure s := by
  refine SortedSet.ext_mem fun i => ⟨fun hi => ?_, mem_closure_of_mem⟩
  obtain ⟨j, hj, hji⟩ := mem_closure_iff.1 hi
  obtain ⟨k, hk, hkj⟩ := mem_closure_iff.1 hj
  exact mem_closure_iff.2 ⟨k, hk, hkj.trans hji⟩

theorem mem_advance_iff : j ∈ n.advance s c ↔ ∃ i ∈ s, n.Edge i (some c) j := by
  simp only [advance, SortedSet.mem_def (s := s)]
  induction s.toList with
  | nil => simp
  | cons a as ih =>
      rw [List.foldr_cons]
      simp only [List.mem_cons, exists_eq_or_imp]
      rw [← ih, edge_some_iff]
      split
      · next t ht => simp only [ht, SortedSet.mem_union, Option.some.injEq, exists_eq_left']
      · next ht => simp only [ht, reduceCtorEq, false_and, exists_false, false_or]

theorem mem_step_iff :
    j ∈ n.step s c ↔ ∃ i ∈ s, ∃ k, n.Edge i (some c) k ∧ n.SilentWay k j := by
  simp only [step, mem_closure_iff, mem_advance_iff]
  constructor
  · rintro ⟨k, ⟨i, hi, hik⟩, hkj⟩
    exact ⟨i, hi, k, hik, hkj⟩
  · rintro ⟨i, hi, k, hik, hkj⟩
    exact ⟨k, ⟨i, hi, hik⟩, hkj⟩

/-! ## Paths -/

/-- A way from one state to another that spells a word. -/
inductive Path (n : Nfa) : StateId → List Char → StateId → Prop
  | nil (i : StateId) : Path n i [] i
  | silent {i j k : StateId} {w : List Char} : n.Edge i none j → Path n j w k → Path n i w k
  | read {i j k : StateId} {c : Char} {w : List Char} :
      n.Edge i (some c) j → Path n j w k → Path n i (c :: w) k

theorem SilentWay.path (h : n.SilentWay i j) (hp : n.Path j w k) : n.Path i w k := by
  induction h using ReflTransGen.head_induction_on with
  | refl => exact hp
  | head hstep _ ih => exact .silent hstep ih

theorem Path.append (h : n.Path i u j) (h' : n.Path j w k) : n.Path i (u ++ w) k := by
  induction h with
  | nil => exact h'
  | silent hstep _ ih => exact .silent hstep (ih h')
  | read hstep _ ih => exact .read hstep (ih h')

/-- A path up to the first character that it reads. -/
theorem Path.split (h : n.Path i w k) :
    match w with
    | [] => n.SilentWay i k
    | c :: w => ∃ a b, n.SilentWay i a ∧ n.Edge a (some c) b ∧ n.Path b w k := by
  induction h with
  | nil i => exact .refl
  | @silent i j k w hstep hp ih =>
      cases w with
      | nil => exact .head hstep ih
      | cons c w =>
          obtain ⟨a, b, hja, hab, hbk⟩ := ih
          exact ⟨a, b, .head hstep hja, hab, hbk⟩
  | read hstep hp _ => exact ⟨_, _, .refl, hstep, hp⟩

theorem path_nil_iff : n.Path i [] k ↔ n.SilentWay i k := ⟨Path.split, fun h => h.path (.nil k)⟩

theorem path_cons_iff :
    n.Path i (c :: w) k ↔ ∃ a b, n.SilentWay i a ∧ n.Edge a (some c) b ∧ n.Path b w k :=
  ⟨Path.split, fun ⟨_, _, hia, hab, hbk⟩ => hia.path (.read hab hbk)⟩

/-! ## The states on a way from the start -/

theorem leads_iff :
    Leads (fun i => (n.edgesFrom i).map (·.2)) n.size i j ↔
      (∃ label, n.Edge i label j) ∧ j < n.size := by
  simp only [Leads, Edge, List.mem_map, Prod.exists, exists_eq_right]

theorem exists_path_of_leads
    (h : ReflTransGen (Leads (fun i => (n.edgesFrom i).map (·.2)) n.size) i j) :
    ∃ w, n.Path i w j := by
  induction h using ReflTransGen.head_induction_on with
  | refl => exact ⟨[], .nil j⟩
  | head hstep _ ih =>
      obtain ⟨⟨label, hedge⟩, -⟩ := leads_iff.1 hstep
      obtain ⟨w, hw⟩ := ih
      cases label with
      | none => exact ⟨w, .silent hedge hw⟩
      | some c => exact ⟨c :: w, .read hedge hw⟩

/-- On a path to a state, every state exists. -/
theorem Path.leads (h : n.Path i w j) (hj : j < n.size) :
    i < n.size ∧ ReflTransGen (Leads (fun i => (n.edgesFrom i).map (·.2)) n.size) i j := by
  induction h with
  | nil => exact ⟨hj, .refl⟩
  | silent hstep _ ih =>
      obtain ⟨hlt, hway⟩ := ih hj
      exact ⟨hstep.lt_size, .head (leads_iff.2 ⟨⟨_, hstep⟩, hlt⟩) hway⟩
  | read hstep _ ih =>
      obtain ⟨hlt, hway⟩ := ih hj
      exact ⟨hstep.lt_size, .head (leads_iff.2 ⟨⟨_, hstep⟩, hlt⟩) hway⟩

theorem mem_states_iff : i ∈ n.states ↔ i < n.size ∧ ∃ w, n.Path n.start w i := by
  simp only [states, mem_reachable_iff, List.mem_singleton, exists_eq_left]
  constructor
  · rintro ⟨hstart, hway⟩
    refine ⟨?_, exists_path_of_leads hway⟩
    rcases hway.cases_tail with rfl | ⟨_, _, hstep⟩
    · exact hstart
    · exact hstep.2
  · rintro ⟨hi, w, hw⟩
    exact hw.leads hi

/-! ## Runs -/

/-- The states in which the automaton may be when it has read a word. -/
def statesAfter (n : Nfa) (s : IdSet) (w : List Char) : IdSet := w.foldl n.step s

@[simp] theorem statesAfter_nil : n.statesAfter s [] = s := rfl

@[simp] theorem statesAfter_cons :
    n.statesAfter s (c :: w) = n.statesAfter (n.step s c) w := rfl

theorem statesAfter_append : n.statesAfter s (u ++ w) = n.statesAfter (n.statesAfter s u) w :=
  List.foldl_append ..

theorem mem_statesAfter_closure_iff :
    i ∈ n.statesAfter (n.closure s) w ↔ ∃ j ∈ s, n.Path j w i := by
  induction w generalizing s with
  | nil => simp only [statesAfter_nil, mem_closure_iff, path_nil_iff]
  | cons c w ih =>
      rw [statesAfter_cons, step, ih]
      simp only [mem_advance_iff, mem_closure_iff, path_cons_iff]
      constructor
      · rintro ⟨b, ⟨a, ⟨j, hj, hja⟩, hab⟩, hbi⟩
        exact ⟨j, hj, a, b, hja, hab, hbi⟩
      · rintro ⟨j, hj, a, b, hja, hab, hbi⟩
        exact ⟨b, ⟨a, ⟨j, hj, hja⟩, hab⟩, hbi⟩

theorem mem_statesAfter_initial_iff :
    i ∈ n.statesAfter n.initial w ↔ n.Path n.start w i := by
  rw [initial, mem_statesAfter_closure_iff]
  simp

@[simp] theorem step_empty (n : Nfa) (c : Char) : n.step ∅ c = ∅ := by
  refine SortedSet.ext_mem fun i => ?_
  simp [mem_step_iff]

theorem statesAfter_empty (n : Nfa) (w : List Char) : n.statesAfter ∅ w = ∅ := by
  induction w with
  | nil => rfl
  | cons c w ih => rw [statesAfter_cons, step_empty, ih]

theorem containsFinal_eq_true_iff : n.containsFinal s = true ↔ ∃ i ∈ s, n.isFinal i = true :=
  List.any_eq_true

/-- Stopping at the empty set gives the answer that reading on would give. -/
theorem acceptsFrom_eq (n : Nfa) (s : IdSet) (w : List Char) :
    n.acceptsFrom s w = n.containsFinal (n.statesAfter s w) := by
  induction w generalizing s with
  | nil => rfl
  | cons c w ih =>
      simp only [acceptsFrom, statesAfter_cons]
      split
      · next hempty =>
        rw [SortedSet.isEmpty_iff.1 hempty, statesAfter_empty]
        rfl
      · exact ih _

theorem acceptsFrom_closure_iff :
    n.acceptsFrom (n.closure s) w = true ↔
      ∃ i ∈ s, ∃ k, n.Path i w k ∧ n.isFinal k = true := by
  rw [acceptsFrom_eq, containsFinal_eq_true_iff]
  simp only [mem_statesAfter_closure_iff]
  constructor
  · rintro ⟨k, ⟨i, hi, hp⟩, hk⟩
    exact ⟨i, hi, k, hp, hk⟩
  · rintro ⟨i, hi, k, hp, hk⟩
    exact ⟨k, ⟨i, hi, hp⟩, hk⟩

theorem acceptsFrom_initial_iff :
    n.acceptsFrom n.initial w = true ↔ ∃ k, n.Path n.start w k ∧ n.isFinal k = true := by
  rw [initial, acceptsFrom_closure_iff]
  simp only [SortedSet.mem_singleton, exists_eq_left]

/-! ## Routes -/

/-- A way from state to state, with the labels of its edges. -/
inductive Route (n : Nfa) : StateId → List (Option Char) → StateId → Prop
  | nil {i : StateId} : i < n.size → Route n i [] i
  | cons {i j k : StateId} {label : Option Char} {labels : List (Option Char)} :
      i < n.size → n.Edge i label j → Route n j labels k → Route n i (label :: labels) k

theorem Route.path {labels : List (Option Char)} (h : n.Route i labels k) :
    n.Path i labels.reduceOption k ∧ k < n.size := by
  induction h with
  | nil hi => exact ⟨.nil _, hi⟩
  | @cons i j k label labels _ hedge _ ih =>
      obtain ⟨hp, hk⟩ := ih
      cases label with
      | none => exact ⟨.silent hedge hp, hk⟩
      | some c => exact ⟨.read hedge hp, hk⟩

/-- A path to a state passes through states only, since an edge leaves each of the others. -/
theorem path_iff_exists_route :
    n.Path i w k ∧ k < n.size ↔ ∃ labels, n.Route i labels k ∧ labels.reduceOption = w := by
  constructor
  · rintro ⟨hp, hk⟩
    induction hp with
    | nil i => exact ⟨[], .nil hk, rfl⟩
    | silent hedge _ ih =>
        obtain ⟨labels, hroute, rfl⟩ := ih hk
        exact ⟨none :: labels, .cons hedge.lt_size hedge hroute, List.reduceOption_cons_of_none _⟩
    | read hedge _ ih =>
        obtain ⟨labels, hroute, rfl⟩ := ih hk
        exact ⟨some _ :: labels, .cons hedge.lt_size hedge hroute, rfl⟩
  · rintro ⟨labels, hroute, rfl⟩
    exact hroute.path

theorem lt_size_of_isFinal (h : n.isFinal i = true) : i < n.size := by
  obtain ⟨node, hnode, -⟩ := (Option.any_eq_true ..).1 h
  exact (Array.getElem?_eq_some_iff.1 hnode).1

/-- Whatever the automaton, a text is accepted precisely if some route from the start to a
final state spells it, the empty labels left out. To stop when no state is left gives the
answer that reading on would give, from whatever states and whatever is still to be read. -/
theorem accepts_iff_exists_route (n : Nfa) :
    (∀ input, n.accepts input = true ↔ ∃ labels k, n.Route n.start labels k ∧
      n.isFinal k = true ∧ labels.reduceOption = input.toList) ∧
    ∀ s w, n.acceptsFrom s w = n.containsFinal (w.foldl n.step s) := by
  refine ⟨fun input => ?_, n.acceptsFrom_eq⟩
  rw [accepts, acceptsFrom_initial_iff]
  constructor
  · rintro ⟨k, hp, hk⟩
    obtain ⟨labels, hroute, hspell⟩ := path_iff_exists_route.1 ⟨hp, lt_size_of_isFinal hk⟩
    exact ⟨labels, k, hroute, hk, hspell⟩
  · rintro ⟨labels, k, hroute, hk, hspell⟩
    exact ⟨k, hspell ▸ hroute.path.1, hk⟩

end Regular.Nfa
