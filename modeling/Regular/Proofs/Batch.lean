import Regular.Proofs.Validation

/-!
# The expressions of a batch do not influence each other

A batch compiles every expression as if it were alone. All of them write to one report, but
all that is ever written about an expression is its own error, under its own number
(`Config.problem?`): what compiles is in order, so no warnings stand between the errors. The
report is therefore a map of the numbered expressions, its numbers go up, and a batch
followed by another is one batch whose later problems are renumbered
(`compileAllObserved_append`).
-/

namespace Regular

/-- What is reported about the expression number `index`: its error, if it does not
compile. -/
def Config.problem? (config : Config) (index : Nat) (text : String) : Option Report.Entry :=
  match compile config text with
  | .ok _ => none
  | .error e => some ⟨.error, e.summary, index, e.span text⟩

/-- The same problem in a batch with `n` more expressions in front. -/
def Report.Entry.shift (n : Nat) (entry : Report.Entry) : Report.Entry :=
  { entry with index := n + entry.index }

variable {config : Config}

namespace Config

theorem ofResult_eq_problem? (config : Config) (index : Nat) (text : String) :
    Report.ofResult index text (compile config text) = (config.problem? index text).toList := by
  rw [Report.ofResult_compile, problem?]
  cases compile config text <;> rfl

theorem index_of_problem? {index : Nat} {text : String} {entry : Report.Entry}
    (h : config.problem? index text = some entry) : entry.index = index := by
  unfold problem? at h
  split at h
  · cases h
  · exact Option.some.inj h ▸ rfl

theorem problem?_add (config : Config) (n index : Nat) (text : String) :
    config.problem? (n + index) text = (config.problem? index text).map (·.shift n) := by
  unfold problem?
  split <;> rfl

/-- What is reported about expressions that are numbered from `start` on. -/
def problemsFrom (config : Config) (start : Nat) (texts : List String) : List Report.Entry :=
  (texts.zipIdx start).filterMap fun p => config.problem? p.2 p.1

theorem problemsFrom_cons (config : Config) (start : Nat) (text : String) (texts : List String) :
    config.problemsFrom start (text :: texts) =
      (config.problem? start text).toList ++ config.problemsFrom (start + 1) texts := by
  rw [problemsFrom, List.zipIdx_cons, List.filterMap_cons]
  cases h : config.problem? start text with
  | none => rfl
  | some entry => rfl

theorem le_index_of_mem_problemsFrom {start : Nat} {texts : List String} {entry : Report.Entry}
    (h : entry ∈ config.problemsFrom start texts) : start ≤ entry.index := by
  obtain ⟨p, hp, hentry⟩ := List.mem_filterMap.1 h
  rw [index_of_problem? hentry]
  exact List.le_snd_of_mem_zipIdx hp

/-- The numbers of the problems go up. -/
theorem pairwise_problemsFrom (config : Config) (texts : List String) (start : Nat) :
    (config.problemsFrom start texts).Pairwise (·.index < ·.index) := by
  induction texts generalizing start with
  | nil => exact .nil
  | cons text texts ih =>
    rw [problemsFrom_cons]
    cases hproblem : config.problem? start text with
    | none => exact ih (start + 1)
    | some entry =>
      refine .cons (fun later hlater => ?_) (ih (start + 1))
      rw [index_of_problem? hproblem]
      exact le_index_of_mem_problemsFrom hlater

/-- The problem of one expression, among those of all. -/
theorem filter_problemsFrom (config : Config) (texts : List String) (start i : Nat) :
    (config.problemsFrom start texts).filter (·.index = start + i) =
      (texts[i]?.bind (config.problem? (start + i))).toList := by
  induction texts generalizing start i with
  | nil => rfl
  | cons text texts ih =>
    rw [problemsFrom_cons, List.filter_append]
    cases i with
    | zero =>
      have hlater : (config.problemsFrom (start + 1) texts).filter (·.index = start + 0) = [] := by
        refine List.filter_eq_nil_iff.2 fun entry hentry => ?_
        have := le_index_of_mem_problemsFrom hentry
        simp only [decide_eq_true_eq]
        omega
      rw [hlater, List.append_nil, List.getElem?_cons_zero, Option.bind_some, Nat.add_zero]
      refine List.filter_eq_self.2 fun entry hentry => ?_
      simpa using index_of_problem? (Option.mem_toList.1 hentry)
    | succ i =>
      have hfirst :
          (config.problem? start text).toList.filter (·.index = start + (i + 1)) = [] := by
        refine List.filter_eq_nil_iff.2 fun entry hentry => ?_
        have := index_of_problem? (Option.mem_toList.1 hentry)
        simp only [decide_eq_true_eq]
        omega
      rw [hfirst, List.nil_append, List.getElem?_cons_succ, ← Nat.add_assoc,
        Nat.add_right_comm start i 1]
      exact ih (start + 1) i

theorem problemsFrom_append (config : Config) (start : Nat) (xs ys : List String) :
    config.problemsFrom start (xs ++ ys) =
      config.problemsFrom start xs ++ config.problemsFrom (start + xs.length) ys := by
  rw [problemsFrom, List.zipIdx_append, List.filterMap_append, problemsFrom, problemsFrom]

theorem problemsFrom_add (config : Config) (n start : Nat) (texts : List String) :
    config.problemsFrom (n + start) texts = (config.problemsFrom start texts).map (·.shift n) := by
  induction texts generalizing start with
  | nil => rfl
  | cons text texts ih =>
    rw [problemsFrom_cons, problemsFrom_cons, List.map_append, problem?_add, Nat.add_assoc, ih,
      Option.toList_map]

end Config

/-! ## The three parts of a batch -/

theorem fst_compileAll (config : Config) (texts : List String) :
    (compileAll config texts).1 = texts.map fun text => (compile config text).toOption := by
  have hfst : texts = texts.zipIdx.map Prod.fst := (List.zipIdx_map_fst 0 texts).symm
  conv_rhs => rw [hfst, List.map_map]
  exact List.map_map

theorem entries_compileAll_eq (config : Config) (texts : List String) :
    (compileAll config texts).2.entries = config.problemsFrom 0 texts := by
  rw [entries_compileAll, Config.problemsFrom, List.filterMap_eq_flatMap_toList]
  exact List.flatMap_congr fun p _ => config.ofResult_eq_problem? p.2 p.1

/-- The problem of one expression of a batch. -/
theorem entriesFor_compileAll (config : Config) (texts : List String) (i : Nat) :
    (compileAll config texts).2.entriesFor i = (texts[i]?.bind (config.problem? i)).toList := by
  rw [Report.entriesFor, entries_compileAll_eq]
  have hfilter := config.filter_problemsFrom texts 0 i
  rwa [Nat.zero_add] at hfilter

theorem events_compileAllObserved (config : Config) (texts : List String) :
    (compileAllObserved config texts).events =
      texts.flatMap fun text => (compileObserved config text).events := by
  have hfst : texts = texts.zipIdx.map Prod.fst := (List.zipIdx_map_fst 0 texts).symm
  conv_rhs => rw [hfst, List.flatMap_map]
  exact List.flatMap_map ..

/-- A batch in front of another one. -/
theorem compileAllObserved_append (config : Config) (xs ys : List String) :
    compileAllObserved config (xs ++ ys) =
      { events :=
          (compileAllObserved config xs).events ++ (compileAllObserved config ys).events
        result :=
          ((compileAll config xs).1 ++ (compileAll config ys).1,
            ⟨(compileAll config xs).2.entries ++
              (compileAll config ys).2.entries.map (·.shift xs.length)⟩) } := by
  have hevents := events_compileAllObserved config (xs ++ ys)
  have hcompiled := fst_compileAll config (xs ++ ys)
  have hentries := entries_compileAll_eq config (xs ++ ys)
  rw [List.flatMap_append, ← events_compileAllObserved, ← events_compileAllObserved] at hevents
  rw [List.map_append, ← fst_compileAll, ← fst_compileAll] at hcompiled
  rw [Config.problemsFrom_append, Nat.zero_add, ← Nat.add_zero xs.length, Config.problemsFrom_add,
    ← entries_compileAll_eq, ← entries_compileAll_eq] at hentries
  calc compileAllObserved config (xs ++ ys)
      = { events := (compileAllObserved config (xs ++ ys)).events
          result := ((compileAll config (xs ++ ys)).1,
            ⟨(compileAll config (xs ++ ys)).2.entries⟩) } := rfl
    _ = _ := by rw [hevents, hcompiled, hentries]

/-- Every expression of a batch is compiled as it is alone. The report has, in the order of
their numbers, the error of each expression that does not compile, once, and nothing about
the others. So batches can be put together, and what is observed of a batch is what is
observed of each run. -/
theorem compileAll_independent (config : Config) (texts : List String) :
    (compileAll config texts).1 = texts.map (fun text => (compile config text).toOption) ∧
    (∀ i, (compileAll config texts).2.entriesFor i =
      (texts[i]?.bind (config.problem? i)).toList) ∧
    (compileAll config texts).2.entries.Pairwise (·.index < ·.index) ∧
    (compileAllObserved config texts).events =
      texts.flatMap (fun text => (compileObserved config text).events) ∧
    ∀ more, compileAllObserved config (texts ++ more) =
      { events :=
          (compileAllObserved config texts).events ++ (compileAllObserved config more).events
        result :=
          ((compileAll config texts).1 ++ (compileAll config more).1,
            ⟨(compileAll config texts).2.entries ++
              (compileAll config more).2.entries.map (·.shift texts.length)⟩) } := by
  refine ⟨fst_compileAll config texts, entriesFor_compileAll config texts, ?_,
    events_compileAllObserved config texts, compileAllObserved_append config texts⟩
  rw [entries_compileAll_eq]
  exact config.pairwise_problemsFrom texts 0

end Regular
