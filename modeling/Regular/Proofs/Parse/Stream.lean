import Regular.Proofs.Parse.Blame

/-!
# The stream that is folded into a tree

What reaches the last stage is in good order but for missing operands. Its operands are all
joined: wherever one operand may end and the next begins, there is a concatenation, so a
stream counts one operand at most, be the text well formed or not (`Expr.Stages.weight_le`).
And it consists of atoms, bars, concatenations and stars alone (`Expr.Stages.kind_notMem`):
the parentheses have been taken out with the reordering, and the signs for repetition and
option when they were written out.

So each error is one of a few that its stage has, and is about one of the stage's tokens.
-/

namespace Regular

variable {ts us before stream : List Token} {t u : Token} {e : SyntaxError} {es : List Expr}
  {limit : Option Nat} {text : String}

namespace Token

/-- What is not in order when a sign is written out is the sign, or a parenthesis before
it. -/
theorem foldlM_desugarStep_eq_error (h : ts.foldlM desugarStep before = .error e) :
    (∃ t ∈ ts, e = t.missingOperand ∨ e = .unbalancedParenthesis t.span) ∨
      ∃ u ∈ before, e = .unbalancedParenthesis u.span := by
  induction ts generalizing before with
  | nil => cases h
  | cons t ts ih =>
      rw [List.foldlM_cons] at h
      rcases bind_eq_error_iff.1 h with hstep | ⟨next, hstep, hrest⟩
      · rcases desugarStep_eq_error hstep with ⟨-, he, -⟩ | hbefore
        · exact Or.inl ⟨t, List.mem_cons_self, Or.inl he⟩
        · exact Or.inr hbefore
      · rcases ih hrest with ⟨t', ht', he⟩ | ⟨u, hu, he⟩
        · exact Or.inl ⟨t', List.mem_cons_of_mem t ht', he⟩
        · rcases mem_desugarStep hstep hu with hbefore | ⟨hspan, -⟩
          · exact Or.inr ⟨u, hbefore, he⟩
          · rw [hspan] at he
            exact Or.inl ⟨t, List.mem_cons_self, Or.inr he⟩

theorem desugar_eq_error (h : desugar ts = .error e) :
    ∃ t ∈ ts, e = t.missingOperand ∨ e = .unbalancedParenthesis t.span := by
  have hfold : ts.foldlM desugarStep [] = .error e := bind_pure_eq_error_iff.1 h
  exact (foldlM_desugarStep_eq_error hfold).resolve_right fun ⟨_, hu, _⟩ => List.not_mem_nil hu

end Token

namespace Postfix

theorem ofTokens_eq_error (h : ofTokens ts = .error e) :
    ∃ t ∈ ts, e = .unbalancedParenthesis t.span := by
  rcases ofTokens_cases ts with ⟨⟨out, hok⟩, -⟩ | ⟨t, herror, hfault⟩
  · cases h.symm.trans hok
  · exact ⟨t, hfault.mem, Except.error.inj (h.symm.trans herror)⟩

theorem isShortage_lacksOperand (t : Token) : (lacksOperand t).IsShortage := by
  rw [lacksOperand]
  split <;> exact trivial

/-- Without parentheses, only an operator can fail. -/
theorem foldlM_operandsAfter_eq_error
    (hparens : ∀ t ∈ ts, t.kind ≠ .openParen ∧ t.kind ≠ .closeParen)
    (h : ts.foldlM operandsAfter es = .error e) : ∃ t ∈ ts, e = lacksOperand t := by
  induction ts generalizing es with
  | nil => cases h
  | cons t ts ih =>
      obtain ⟨⟨hopen, hclose⟩, hrest⟩ := List.forall_mem_cons.1 hparens
      rw [List.foldlM_cons] at h
      rcases bind_eq_error_iff.1 h with hstep | ⟨es', -, hlater⟩
      · refine ⟨t, List.mem_cons_self, ?_⟩
        by_cases hatom : t.kind.isAtom = true
        · obtain ⟨x, hok⟩ := operandsAfter_atom es hatom
          cases hstep.symm.trans hok
        · exact (operandsAfter_eq_error hstep (TokenKind.one_lt_precedence hatom hopen hclose)).1
      · obtain ⟨u, hu, he⟩ := ih hrest hlater
        exact ⟨u, List.mem_cons_of_mem t hu, he⟩

/-- Each token leaves an operand, so where there is none there was no token. -/
theorem eq_nil_of_foldlM (h : ts.foldlM operandsAfter [] = .ok []) : ts = [] := by
  rcases List.eq_nil_or_concat ts with rfl | ⟨ts, t, rfl⟩
  · rfl
  · rw [List.concat_eq_append, List.foldlM_append] at h
    obtain ⟨es, -, hlast⟩ := bind_eq_ok_iff.1 h
    obtain ⟨es', hstep, hdone⟩ := bind_eq_ok_iff.1 hlast
    obtain rfl := Except.ok.inj hdone
    exact absurd rfl (Token.ne_nil_of_operandsAfter hstep)

end Postfix

open Token

namespace Expr

theorem checkLimit_eq_error (h : checkLimit limit ts = .error e) :
    ∃ t ∈ ts, e = .malformedExpression .tooDeep t.span := by
  cases limit with
  | none => cases h
  | some n => exact Postfix.exists_mem_of_checkDepthFrom h

namespace Stages

theorem mem_joinOperands (h : Stages text ts us stream) (ht : t ∈ stream) :
    t ∈ joinOperands us ∧ t.kind ≠ .openParen ∧ t.kind ≠ .closeParen := by
  have hmem := (Postfix.perm_of_ofTokens h.reorder).mem_iff.1 ht
  rw [Postfix.withoutParens, List.mem_filter, decide_eq_true_eq] at hmem
  exact hmem

theorem kind_notMem (h : Stages text ts us stream) (ht : t ∈ stream) :
    t.kind ∉ [.openParen, .closeParen, .plus, .question] := by
  obtain ⟨hmem, hopen, hclose⟩ := h.mem_joinOperands ht
  have hsign : t.kind ≠ .plus ∧ t.kind ≠ .question := by
    rw [joinOperands_eq] at hmem
    rcases mem_joinFrom hmem with hmem | ⟨u, -, rfl⟩
    · exact ne_of_mem_desugar h.desugar t.kind (List.mem_map_of_mem hmem)
    · exact ⟨nofun, nofun⟩
  simp [hopen, hclose, hsign]

/-- At most one operand is left: there are as many concatenations as it takes. -/
theorem weight_le (h : Stages text ts us stream) : weight stream ≤ 1 := by
  have hconcat := concat_notMem_desugar h.desugar (concat_notMem_scan h.scan)
  calc weight stream = weight (joinFrom false us) := by
        rw [weight_reorder h.reorder, weight_nil, Int.zero_add, joinOperands_eq]
    _ ≤ 1 - false.toNat := weight_joinFrom_le hconcat
    _ = 1 := Int.sub_zero 1

/-- The fold fails at an operator, or at the first byte because there is nothing to be
folded. -/
theorem toExpr_eq_error (h : Stages text ts us stream) (he : Postfix.toExpr stream = .error e) :
    (∃ t ∈ stream, e = Postfix.lacksOperand t) ∨
      e = .malformedExpression .emptyExpression (.byte 0) := by
  rcases Postfix.toExpr_eq_error he with hfold | ⟨hfold, rfl⟩ | ⟨es, hlen, hfold, -⟩
  · refine Or.inl (Postfix.foldlM_operandsAfter_eq_error (fun t ht => ?_) hfold)
    exact (h.mem_joinOperands ht).2
  · rw [Postfix.eq_nil_of_foldlM hfold]
    exact Or.inr rfl
  · have hcount := length_foldlM_operandsAfter hfold
    have hweight := h.weight_le
    rw [List.length_nil] at hcount
    omega

theorem isShortage_of_toExpr (h : Stages text ts us stream)
    (he : Postfix.toExpr stream = .error e) :
    e.IsShortage ∨ e = .malformedExpression .emptyExpression (.byte 0) := by
  refine (h.toExpr_eq_error he).imp_left ?_
  rintro ⟨t, -, rfl⟩
  exact Postfix.isShortage_lacksOperand t

theorem parseWithLimit_eq (h : Stages text ts us stream) (limit : Option Nat) :
    parseWithLimit limit text = checkLimit limit stream >>= fun _ => Postfix.toExpr stream := by
  rw [Expr.parseWithLimit_eq, bind_of_ok h.scan, bind_of_ok h.desugar, bind_of_ok h.reorder]

end Stages

/-- A parse fails before there is a stream, or in one of a few ways with the stream. -/
theorem parseWithLimit_error_cases (h : parseWithLimit limit text = .error e) :
    e.IsLexical ∨
    (∃ ts, Token.scan text = .ok ts ∧ (desugar ts = .error e ∨
      ∃ us, desugar ts = .ok us ∧ Postfix.ofTokens (joinOperands us) = .error e)) ∨
    (∃ span, e = .malformedExpression .tooDeep span) ∨
    e.IsShortage ∨ e = .malformedExpression .emptyExpression (.byte 0) := by
  cases parseWithLimit_eq_error_iff.1 h with
  | scan h => exact Or.inl (isLexical_of_scanFrom h)
  | desugar hscan h => exact Or.inr (Or.inl ⟨_, hscan, Or.inl h⟩)
  | reorder hscan hus h => exact Or.inr (Or.inl ⟨_, hscan, Or.inr ⟨_, hus, h⟩⟩)
  | check _ h =>
      obtain ⟨t, -, rfl⟩ := checkLimit_eq_error h
      exact Or.inr (Or.inr (Or.inl ⟨t.span, rfl⟩))
  | fold hstages _ h => exact Or.inr (Or.inr (Or.inr (hstages.isShortage_of_toExpr h)))

/-- No parse fails because operands are left that nothing joins. The stream that is folded
has no parentheses and no signs for repetition or option, and so the fold finds no
parenthesis either: if one is reported, then it was noticed while the signs were written out
or while the tokens were reordered. -/
theorem parseWithLimit_joins_operands (limit : Option Nat) (text : String) :
    (∀ span, parseWithLimit limit text ≠ .error (.malformedExpression .unjoinedOperands span)) ∧
    (∀ ts us stream, Stages text ts us stream →
      (parseWithLimit limit text = checkLimit limit stream >>= fun _ => Postfix.toExpr stream) ∧
        ∀ t ∈ stream, t.kind ∉ [.openParen, .closeParen, .plus, .question]) ∧
    ∀ span, parseWithLimit limit text = .error (.unbalancedParenthesis span) ↔
      ∃ ts, Token.scan text = .ok ts ∧ (desugar ts = .error (.unbalancedParenthesis span) ∨
        ∃ us, desugar ts = .ok us ∧
          Postfix.ofTokens (joinOperands us) = .error (.unbalancedParenthesis span)) := by
  refine ⟨fun span h => ?_, fun ts us stream hstages =>
    ⟨hstages.parseWithLimit_eq limit, fun t ht => hstages.kind_notMem ht⟩,
    fun span => ⟨fun h => ?_, ?_⟩⟩
  · rcases parseWithLimit_error_cases h with hlexical | ⟨ts, -, hfail | ⟨us, -, hfail⟩⟩ | ⟨_, he⟩ |
      hshortage | he
    · exact hlexical
    · obtain ⟨t, -, he | he⟩ := desugar_eq_error hfail <;> cases he
    · obtain ⟨t, -, he⟩ := Postfix.ofTokens_eq_error hfail
      cases he
    · cases he
    · exact hshortage
    · cases he
  · rcases parseWithLimit_error_cases h with hlexical | hearly | ⟨_, he⟩ | hshortage | he
    · exact hlexical.elim
    · exact hearly
    · cases he
    · exact hshortage.elim
    · cases he
  · rintro ⟨ts, hscan, h | ⟨us, hus, h⟩⟩
    · exact parseWithLimit_eq_error_iff.2 (.desugar hscan h)
    · exact parseWithLimit_eq_error_iff.2 (.reorder hscan hus h)

end Expr

end Regular
