import Regular.Compile
import Regular.Proofs.Dfa.Minimal
import Regular.Proofs.Nfa.Residual

/-!
# The stages of a compiled expression

Whatever the configuration, a compiled expression consists of a tree, the automaton of the
tree, the automaton of the sets of its states, and the minimal automaton of that one
(`Compiled.Staged`). The three automata answer alike, and yes for the words of the language
of the tree (`Compiled.Staged.verdicts_eq`).

Since automata of trees have no dead states, the minimal automaton is canonical
(`Compiled.Staged.canonical`): it depends on nothing but the language, and no automaton for
the language has fewer states (`size_minimized_le`).
-/

namespace Regular

variable {config : Config} {text : String} {c : Compiled}

/-- Each stage is made of the one before it. -/
structure Compiled.Staged (c : Compiled) : Prop where
  nfa : c.nfa = c.expr.toNfa
  dfa : ∃ limit, (c.nfa.toDfaObserved limit).result = .ok c.dfa
  minimized : c.minimized = c.dfa.minimize

theorem staged_of_compile (h : compile config text = .ok c) :
    Expr.parseWithLimit config.maxDepth text = .ok c.expr ∧ c.Staged := by
  unfold compile compileObserved at h
  simp only at h
  split at h
  · cases h
  · next expr hparse =>
    split at h
    · cases h
    · next dfa hdfa =>
      obtain rfl := Except.ok.inj h
      exact ⟨hparse, rfl, ⟨config.maxDfaStates, hdfa⟩, rfl⟩

theorem compile_of_parse_error {e : SyntaxError}
    (h : Expr.parseWithLimit config.maxDepth text = .error e) :
    compile config text = .error (.badSyntax e) := by
  unfold Expr.parseWithLimit at h
  unfold compile compileObserved
  simp only [h]

/-- Without a ceiling on the states, whatever can be parsed can be compiled. -/
theorem exists_compile (hlimit : config.maxDfaStates = none) {e : Expr}
    (h : Expr.parseWithLimit config.maxDepth text = .ok e) :
    ∃ c, compile config text = .ok c ∧ c.expr = e := by
  obtain ⟨d, hd⟩ := Subset.exists_toDfaObserved e.toNfa
  rw [← hlimit] at hd
  unfold Expr.parseWithLimit at h
  unfold compile compileObserved
  simp only [h]
  rw [show e.toNfaObserved.result = e.toNfa from rfl, hd]
  exact ⟨_, rfl, rfl⟩

namespace Compiled.Staged

theorem accepts_nfa_iff (h : c.Staged) (input : String) :
    c.nfa.accepts input = true ↔ input.toList ∈ c.expr.language := by
  rw [h.nfa]
  exact c.expr.acceptsFrom_toNfa_iff input.toList

theorem accepts_dfa_eq (h : c.Staged) (input : String) :
    c.dfa.accepts input = c.nfa.accepts input := by
  obtain ⟨limit, hdfa⟩ := h.dfa
  obtain ⟨sets, hsets⟩ := Subset.exists_determinizes hdfa
  exact hsets.accepts_eq input

theorem accepts_minimized_eq (h : c.Staged) (input : String) :
    c.minimized.accepts input = c.nfa.accepts input := by
  rw [h.minimized, Dfa.minimize_accepts, h.accepts_dfa_eq]

/-- The three automata give one answer, which is whether the tree's language has the
input. -/
theorem verdicts_eq (h : c.Staged) (input : String) :
    ∃ b, c.verdicts input = ⟨b, b, b⟩ ∧ (b = true ↔ input.toList ∈ c.expr.language) := by
  refine ⟨c.nfa.accepts input, ?_, h.accepts_nfa_iff input⟩
  rw [verdicts, h.accepts_dfa_eq, h.accepts_minimized_eq]

theorem path_lt_size {e : Expr} {i k : Nat} {w : List Char} (hi : i < e.toNfa.size)
    (h : e.toNfa.Path i w k) : k < e.toNfa.size := by
  induction h with
  | nil => exact hi
  | silent hedge _ ih => exact ih (Expr.edge_toNfa_lt hedge)
  | read hedge _ ih => exact ih (Expr.edge_toNfa_lt hedge)

/-- Something is accepted from each state of the automaton of the sets of a tree's
automaton. -/
theorem live_determinizes {e : Expr} {sets : Array IdSet} {d : Dfa} {j : StateId}
    (h : Subset.Determinizes e.toNfa sets d) (hj : j < d.size) :
    ∃ w, d.acceptsFrom j w = true :=
  h.live (fun _ _ hpath => Expr.toNfa_live (path_lt_size e.toNfa_start_lt hpath)) hj

theorem live_dfa (h : c.Staged) : ∀ j < c.dfa.size, ∃ w, c.dfa.acceptsFrom j w = true := by
  obtain ⟨limit, hdfa⟩ := h.dfa
  obtain ⟨sets, hsets⟩ := Subset.exists_determinizes hdfa
  rw [h.nfa] at hsets
  exact fun j hj => live_determinizes hsets hj

/-- The minimal automaton has nothing in it that does not matter to its language. -/
theorem canonical (h : c.Staged) : c.minimized.Canonical := by
  obtain ⟨limit, hdfa⟩ := h.dfa
  obtain ⟨sets, hsets⟩ := Subset.exists_determinizes hdfa
  rw [h.minimized]
  exact Dfa.canonical_minimize hsets.size_pos (hsets.searched.ordered hsets.size_pos) h.live_dfa

end Compiled.Staged

/-! ## The minimal automaton depends on nothing but the language -/

/-- Two texts, whatever their shape and however they are compiled, have minimal automata with
one table precisely if these give one verdict on every input. -/
theorem minimized_toTable_eq_iff {config₁ config₂ : Config} {text₁ text₂ : String}
    {c₁ c₂ : Compiled} (h₁ : compile config₁ text₁ = .ok c₁)
    (h₂ : compile config₂ text₂ = .ok c₂) :
    c₁.minimized.toTable = c₂.minimized.toTable ↔
      ∀ input, c₁.minimized.accepts input = c₂.minimized.accepts input := by
  constructor
  · intro htable input
    exact Dfa.acceptsFrom_of_toTable_eq htable 0 input.toList
  · intro hsame
    refine (staged_of_compile h₁).2.canonical.toTable_eq (staged_of_compile h₂).2.canonical ?_
    intro w
    have hw := hsame (String.ofList w)
    rwa [Dfa.accepts, Dfa.accepts, String.toList_ofList] at hw

/-- A union and the same union the other way round have different trees but one table. -/
theorem minimized_toTable_union_comm : ∃ c₁ c₂ : Compiled,
    compile { maxDfaStates := none } "ab|c" = .ok c₁ ∧
    compile { maxDfaStates := none } "c|ab" = .ok c₂ ∧
    c₁.expr ≠ c₂.expr ∧ c₁.minimized.toTable = c₂.minimized.toTable := by
  obtain ⟨c₁, h₁, he₁⟩ : ∃ c, compile { maxDfaStates := none } "ab|c" = .ok c ∧
      c.expr = .union (.concat (.literal 'a') (.literal 'b')) (.literal 'c') :=
    exists_compile rfl rfl
  obtain ⟨c₂, h₂, he₂⟩ : ∃ c, compile { maxDfaStates := none } "c|ab" = .ok c ∧
      c.expr = .union (.literal 'c') (.concat (.literal 'a') (.literal 'b')) :=
    exists_compile rfl rfl
  refine ⟨c₁, c₂, h₁, h₂, by rw [he₁, he₂]; decide, ?_⟩
  refine (minimized_toTable_eq_iff h₁ h₂).2 fun input => ?_
  obtain ⟨-, s₁⟩ := staged_of_compile h₁
  obtain ⟨-, s₂⟩ := staged_of_compile h₂
  rw [Bool.eq_iff_iff, s₁.accepts_minimized_eq, s₂.accepts_minimized_eq, s₁.accepts_nfa_iff,
    s₂.accepts_nfa_iff, he₁, he₂, Expr.language_union, Expr.language_union, add_comm]

/-! ## No automaton for the language has fewer states -/

/-- An automaton that gives the verdicts of the minimal automaton, however it is made and
whether or not it has dead states, has at least as many states on ways from its start. -/
theorem size_minimized_le (h : compile config text = .ok c) {d : Dfa}
    (hsame : ∀ input, d.accepts input = c.minimized.accepts input) :
    c.minimized.size ≤ d.states.size :=
  (staged_of_compile h).2.canonical.size_le_states (Dfa.sameLanguage_of_accepts hsame).symm

/-- Two final states that take turns, and a dead state. -/
def Dfa.turns : Dfa where
  nodes := #[⟨true, ⟨[('a', 1), ('b', 2)], by decide⟩, none⟩, ⟨true, ⟨[('a', 0)], by decide⟩, none⟩,
    .new false]

theorem Dfa.turns_next? (c : Char) :
    turns.next? 0 c = (if c = 'a' then some 1 else if c = 'b' then some 2 else none) ∧
      turns.next? 1 c = (if c = 'a' then some 0 else none) :=
  ⟨CharMap.lookup_cons_eq.trans (by rw [CharMap.lookup_cons_eq]; rfl), CharMap.lookup_cons_eq⟩

theorem Dfa.turns_acceptsFrom (w : List Char) :
    turns.acceptsFrom 0 w = w.all (· = 'a') ∧ turns.acceptsFrom 1 w = w.all (· = 'a') := by
  have hdead : ∀ w, turns.acceptsFrom 2 w = false := by
    intro w
    cases w <;> rfl
  induction w with
  | nil => exact ⟨rfl, rfl⟩
  | cons c w ih =>
      obtain ⟨hzero, hone⟩ := turns_next? c
      rw [acceptsFrom_cons, acceptsFrom_cons, hzero, hone, List.all_cons]
      by_cases ha : c = 'a'
      · simp [ha, ih]
      · by_cases hb : c = 'b' <;> simp [ha, hb, hdead]

theorem Expr.mem_language_star_literal {x : Char} {w : List Char} :
    w ∈ (Expr.star (.literal x)).language ↔ ∀ y ∈ w, y = x := by
  rw [Expr.language_star, Expr.language_literal, Language.mem_kstar]
  constructor
  · rintro ⟨us, rfl, hus⟩ y hy
    obtain ⟨u, hu, hyu⟩ := List.mem_flatten.1 hy
    obtain rfl : u = [x] := hus u hu
    exact List.mem_singleton.1 hyu
  · intro h
    refine ⟨w.map ([·]), by rw [← List.flatMap_def, List.flatMap_singleton'], ?_⟩
    intro u hu
    obtain ⟨y, hy, rfl⟩ := List.mem_map.1 hu
    rw [h y hy]
    rfl

/-- The minimal automaton of `a*` has no more states than one whose two final states take
turns and which has a dead state as well. -/
theorem size_minimized_le_turns : ∃ c, compile { maxDfaStates := none } "a*" = .ok c ∧
    (∀ input, Dfa.turns.accepts input = c.minimized.accepts input) ∧
    c.minimized.size ≤ Dfa.turns.states.size := by
  obtain ⟨c, hc, hexpr⟩ : ∃ c, compile { maxDfaStates := none } "a*" = .ok c ∧
      c.expr = .star (.literal 'a') := exists_compile rfl rfl
  have hsame : ∀ input, Dfa.turns.accepts input = c.minimized.accepts input := by
    intro input
    obtain ⟨-, hstaged⟩ := staged_of_compile hc
    rw [Bool.eq_iff_iff, hstaged.accepts_minimized_eq, hstaged.accepts_nfa_iff, hexpr,
      Expr.mem_language_star_literal, Dfa.accepts, (Dfa.turns_acceptsFrom _).1]
    simp
  exact ⟨c, hc, hsame, size_minimized_le hc hsame⟩

end Regular
