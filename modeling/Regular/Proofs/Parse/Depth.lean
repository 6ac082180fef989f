import Regular.Proofs.Parse

/-!
# The limit on the depth

The check follows the depths of the operands without the operands. A step puts one operand on
the stack; those that it takes off are part of that one, so what is too deep stays on the
stack inside of something deeper (`Postfix.operandsAfter_eq_ok`). Hence the stream of a tree
fails the check precisely if the tree is too deep (`Postfix.checkDepth_eq_ok_iff`), whatever
the order in which its parts are built, and a limit says nothing but how deep the tree of a
text may be (`Expr.parseWithLimit_some`).
-/

namespace Regular

variable {ts : List Token} {t : Token} {es es' : List Expr} {e : Expr} {limit : Nat} {text : String}

namespace Expr

theorem depth_pos (e : Expr) : 0 < e.depth := by
  cases e <;> exact Nat.succ_pos _

theorem depth_plus (e : Expr) : e.plus.depth = e.depth + 2 := by
  rw [plus, depth, depth, Nat.max_eq_right (Nat.le_succ _)]

theorem depth_optional (e : Expr) : e.optional.depth = e.depth + 1 := by
  rw [optional, depth, depth, Nat.max_eq_left e.depth_pos]

end Expr

namespace Postfix

/-! ## One step -/

/-- A step takes operands off the stack and puts one on it that is deeper than they are. The
depths on the stack are what they are said to be. -/
theorem operandsAfter_eq_ok (h : operandsAfter es t = .ok es') :
    (t.kind ≠ .openParen ∧ t.kind ≠ .closeParen) ∧
      depthsAfter (es.map Expr.depth) t.kind = es'.map Expr.depth ∧
      ∃ e taken below, es = taken ++ below ∧ es' = e :: below ∧ ∀ x ∈ taken, x.depth < e.depth := by
  unfold operandsAfter at h
  cases hkind : t.kind <;> rw [hkind] at h
  case openParen | closeParen => cases h
  all_goals refine ⟨⟨nofun, nofun⟩, ?_⟩
  case literal c =>
    obtain rfl := Except.ok.inj h
    exact ⟨rfl, _, [], es, rfl, rfl, by simp⟩
  case epsilon =>
    obtain rfl := Except.ok.inj h
    exact ⟨rfl, _, [], es, rfl, rfl, by simp⟩
  case star =>
    obtain ⟨e, below, rfl, rfl⟩ := applyUnary_eq_ok h
    exact ⟨rfl, _, [e], below, rfl, rfl, by simp [Expr.depth]⟩
  case plus =>
    obtain ⟨e, below, rfl, rfl⟩ := applyUnary_eq_ok h
    refine ⟨?_, _, [e], below, rfl, rfl, by simp [e.depth_plus]⟩
    rw [List.map_cons, List.map_cons, e.depth_plus]
    rfl
  case question =>
    obtain ⟨e, below, rfl, rfl⟩ := applyUnary_eq_ok h
    refine ⟨?_, _, [e], below, rfl, rfl, by simp [e.depth_optional]⟩
    rw [List.map_cons, List.map_cons, e.depth_optional]
    rfl
  case concat | union =>
    obtain ⟨l, r, below, rfl, rfl⟩ := applyBinary_eq_ok h
    refine ⟨rfl, _, [r, l], below, rfl, rfl, fun x hx => ?_⟩
    rcases List.mem_pair.1 hx with rfl | rfl
    · exact Nat.lt_succ_of_le (Nat.le_max_right _ _)
    · exact Nat.lt_succ_of_le (Nat.le_max_left _ _)

/-! ## A whole stream -/

/-- An operand that is too deep never leaves the stack but as part of another one. -/
theorem exists_deep (h : ts.foldlM operandsAfter es = .ok es') (hdeep : ∃ e ∈ es, limit < e.depth) :
    ∃ e ∈ es', limit < e.depth := by
  induction ts generalizing es with
  | nil =>
      obtain rfl := Except.ok.inj h
      exact hdeep
  | cons t ts ih =>
      rw [List.foldlM_cons] at h
      obtain ⟨es₁, hstep, hrest⟩ := bind_eq_ok_iff.1 h
      obtain ⟨-, -, e, taken, below, rfl, rfl, hdeeper⟩ := operandsAfter_eq_ok hstep
      obtain ⟨x, hx, hlt⟩ := hdeep
      refine ih hrest ?_
      rcases List.mem_append.1 hx with hx | hx
      · exact ⟨e, List.mem_cons_self, Nat.lt_trans hlt (hdeeper x hx)⟩
      · exact ⟨x, List.mem_cons_of_mem _ hx, hlt⟩

theorem checkDepthFrom_of_le (h : ts.foldlM operandsAfter es = .ok es')
    (hes' : ∀ e ∈ es', e.depth ≤ limit) :
    checkDepthFrom limit (es.map Expr.depth) ts = .ok () := by
  induction ts generalizing es with
  | nil => rfl
  | cons t ts ih =>
      rw [List.foldlM_cons] at h
      obtain ⟨es₁, hstep, hrest⟩ := bind_eq_ok_iff.1 h
      obtain ⟨-, hdepths, e, taken, below, rfl, rfl, -⟩ := operandsAfter_eq_ok hstep
      have hle : e.depth ≤ limit := by
        by_contra hdeep
        obtain ⟨x, hx, hlt⟩ := exists_deep hrest ⟨e, List.mem_cons_self, Nat.lt_of_not_le hdeep⟩
        exact Nat.not_le_of_lt hlt (hes' x hx)
      rw [checkDepthFrom, hdepths, if_neg, ih hrest]
      rintro ⟨-, -, hlt⟩
      exact Nat.not_le_of_lt hlt hle

theorem checkDepthFrom_of_lt (h : ts.foldlM operandsAfter es = .ok es')
    (hes : ∀ e ∈ es, e.depth ≤ limit) (hdeep : ∃ e ∈ es', limit < e.depth) :
    ∃ span, checkDepthFrom limit (es.map Expr.depth) ts =
      .error (.malformedExpression .tooDeep span) := by
  induction ts generalizing es with
  | nil =>
      obtain rfl := Except.ok.inj h
      obtain ⟨e, he, hlt⟩ := hdeep
      exact absurd (hes e he) (Nat.not_le_of_lt hlt)
  | cons t ts ih =>
      rw [List.foldlM_cons] at h
      obtain ⟨es₁, hstep, hrest⟩ := bind_eq_ok_iff.1 h
      obtain ⟨⟨hopen, hclose⟩, hdepths, e, taken, below, rfl, rfl, -⟩ := operandsAfter_eq_ok hstep
      rw [checkDepthFrom, hdepths]
      by_cases hlt : limit < e.depth
      · exact ⟨t.span, if_pos ⟨hopen, hclose, hlt⟩⟩
      · rw [if_neg fun hfail => hlt hfail.2.2]
        refine ih hrest (List.forall_mem_cons.2 ⟨Nat.le_of_not_lt hlt, fun x hx => ?_⟩)
        exact hes x (List.mem_append_right taken hx)

/-- The stream of a tree passes the check precisely if the tree is not too deep. -/
theorem checkDepth_of_depth_le (h : toExpr ts = .ok e) (hdepth : e.depth ≤ limit) :
    checkDepth limit ts = .ok () :=
  checkDepthFrom_of_le (foldlM_of_toExpr h) (by simpa using hdepth)

theorem checkDepth_of_lt_depth (h : toExpr ts = .ok e) (hdepth : limit < e.depth) :
    ∃ span, checkDepth limit ts = .error (.malformedExpression .tooDeep span) :=
  checkDepthFrom_of_lt (foldlM_of_toExpr h) (by simp) ⟨e, List.mem_singleton_self e, hdepth⟩

theorem checkDepth_eq_ok_iff (h : toExpr ts = .ok e) :
    checkDepth limit ts = .ok () ↔ e.depth ≤ limit := by
  refine ⟨fun hcheck => ?_, checkDepth_of_depth_le h⟩
  by_contra hlt
  obtain ⟨span, herror⟩ := checkDepth_of_lt_depth h (Nat.lt_of_not_le hlt)
  rw [hcheck] at herror
  cases herror

/-- The check fails for no other reason, whatever the tokens. -/
theorem exists_mem_of_checkDepthFrom {depths : List Nat} {err : SyntaxError}
    (h : checkDepthFrom limit depths ts = .error err) :
    ∃ t ∈ ts, err = .malformedExpression .tooDeep t.span := by
  induction ts generalizing depths with
  | nil => cases h
  | cons t ts ih =>
      rw [checkDepthFrom] at h
      split at h
      · exact ⟨t, List.mem_cons_self, (Except.error.inj h).symm⟩
      · obtain ⟨u, hu, herr⟩ := ih h
        exact ⟨u, List.mem_cons_of_mem t hu, herr⟩

end Postfix

/-! ## The limit of the parser -/

namespace Expr

theorem parseWithLimit_of_depth_le (h : parseWithLimit none text = .ok e)
    (hdepth : e.depth ≤ limit) : parseWithLimit (some limit) text = .ok e := by
  obtain ⟨ts, us, stream, hstages, -, htree⟩ := parseWithLimit_eq_ok_iff.1 h
  have hcheck := Postfix.checkDepth_of_depth_le htree hdepth
  exact parseWithLimit_eq_ok_iff.2 ⟨ts, us, stream, hstages, hcheck, htree⟩

theorem parseWithLimit_of_lt_depth (h : parseWithLimit none text = .ok e)
    (hdepth : limit < e.depth) : ∃ span,
      parseWithLimit (some limit) text = .error (.malformedExpression .tooDeep span) := by
  obtain ⟨ts, us, stream, hstages, -, htree⟩ := parseWithLimit_eq_ok_iff.1 h
  obtain ⟨span, hcheck⟩ := Postfix.checkDepth_of_lt_depth htree hdepth
  exact ⟨span, parseWithLimit_eq_error_iff.2 (.check hstages hcheck)⟩

/-- What is wrong with a text stays wrong with it, unless the limit shows first. -/
theorem parseWithLimit_of_error {err : SyntaxError} (h : parseWithLimit none text = .error err)
    (limit : Nat) :
    parseWithLimit (some limit) text = .error err ∨
      ∃ span, parseWithLimit (some limit) text = .error (.malformedExpression .tooDeep span) := by
  simp only [parseWithLimit_eq_error_iff] at h ⊢
  -- The stages up to the stream know nothing of the limit.
  cases h with
  | scan h => exact Or.inl (.scan h)
  | desugar hscan h => exact Or.inl (.desugar hscan h)
  | reorder hscan hus h => exact Or.inl (.reorder hscan hus h)
  | check _ h => cases h
  | @fold ts us stream hstages _ h =>
      cases hcheck : Postfix.checkDepth limit stream with
      | ok u => exact Or.inl (.fold hstages hcheck h)
      | error err' =>
          obtain ⟨t, -, rfl⟩ := Postfix.exists_mem_of_checkDepthFrom hcheck
          exact Or.inr ⟨t.span, .check hstages hcheck⟩

/-- The trees under a limit are those without it that are not too deep. -/
theorem parseWithLimit_some_eq_ok_iff :
    parseWithLimit (some limit) text = .ok e ↔
      parseWithLimit none text = .ok e ∧ e.depth ≤ limit := by
  refine ⟨fun h => ⟨parseWithLimit_none_of_ok h, ?_⟩, fun h => parseWithLimit_of_depth_le h.1 h.2⟩
  by_contra hlt
  obtain ⟨span, herror⟩ :=
    parseWithLimit_of_lt_depth (parseWithLimit_none_of_ok h) (Nat.lt_of_not_le hlt)
  rw [h] at herror
  cases herror

/-- With a limit on the depth a text has the tree that it has without one, if this is not
deeper than the limit, and is too deep otherwise. A text that has no tree has none under the
limit either. As for the check itself, any stream of tokens that is folded into a tree, be it
with signs for repetition and option in it, passes precisely if the tree is not deeper than
the limit. -/
theorem parseWithLimit_some (text : String) (limit : Nat) :
    (∀ e, parseWithLimit none text = .ok e →
      if e.depth ≤ limit then parseWithLimit (some limit) text = .ok e
      else ∃ span, parseWithLimit (some limit) text =
        .error (.malformedExpression .tooDeep span)) ∧
    (∀ err, parseWithLimit none text = .error err →
      parseWithLimit (some limit) text = .error err ∨
        ∃ span, parseWithLimit (some limit) text = .error (.malformedExpression .tooDeep span)) ∧
    ∀ stream e, Postfix.toExpr stream = .ok e →
      (Postfix.checkDepth limit stream = .ok () ↔ e.depth ≤ limit) := by
  refine ⟨fun e h => ?_, fun err h => parseWithLimit_of_error h limit,
    fun stream e h => Postfix.checkDepth_eq_ok_iff h⟩
  split
  · next hle => exact parseWithLimit_of_depth_le h hle
  · next hlt => exact parseWithLimit_of_lt_depth h (Nat.lt_of_not_le hlt)

end Expr

end Regular
