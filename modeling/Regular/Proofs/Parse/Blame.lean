import Regular.Proofs.Parse.Parenthesis

/-!
# Which operator is blamed for a missing operand

None of the stages looks at two neighbouring tokens, so an operand may be noticed to be
missing elsewhere than it is missing. If a parse fails for a missing operand, there is a gap
in the text, a place with no operand on either side (`TokenKind.Gap`); but it need not be
next to the operator that is blamed, and a concatenation may be blamed although no group is
empty.

What can be said of the operator is this (`Expr.parseWithLimit_blames`). An option or a
repetition that is written out finds nothing but stars between itself and a gap
(`Token.Unfed`). Any other operator, be it written or an implicit concatenation, has a reason
next to it: a gap, or a group that is no phrase (`Token.Starved`). It comes from a token of
the text (`Token.ComesFrom`).
-/

namespace Regular

variable {ts us before pending back : List Token} {t u op : Token} {as : List TokenKind}
  {ends : Bool} {n : Nat} {e : SyntaxError}

open TokenKind (Placed)

/-! ## Gaps -/

namespace TokenKind

/-- Somewhere an operand is missing: what comes before does not end with one, and what comes
next, if anything, does not begin with one. -/
def Gap (as : List TokenKind) : Prop :=
  ∃ bs cs, as = bs ++ cs ∧ endsAfter false bs = false ∧ ∀ c ∈ cs.head?, c.startsOperand = false

theorem exists_gap (h : ¬Placed ends as) : ∃ bs cs, as = bs ++ cs ∧
    endsAfter ends bs = false ∧ ∀ c ∈ cs.head?, c.startsOperand = false := by
  induction as generalizing ends with
  | nil => exact ⟨[], [], rfl, Bool.eq_false_iff.2 h, nofun⟩
  | cons a as ih =>
      by_cases hplace : ends = true ∨ a.startsOperand = true
      · obtain ⟨bs, cs, rfl, hends, hstarts⟩ := ih fun hplaced => h ⟨hplace, hplaced⟩
        exact ⟨a :: bs, cs, rfl, hends, hstarts⟩
      · rw [not_or, Bool.not_eq_true, Bool.not_eq_true] at hplace
        refine ⟨[], a :: as, rfl, hplace.1, fun c hc => ?_⟩
        obtain rfl := Option.some.inj hc
        exact hplace.2

theorem gap_of_not_placed (h : ¬Placed false as) : Gap as := exists_gap h

end TokenKind

/-! ## Errors, by the stage that notices them -/

namespace SyntaxError

/-- The errors that blame an operator for a missing operand. -/
def IsShortage : SyntaxError → Prop
  | missingOperand _ _ | malformedExpression .emptyGroup _ => True
  | _ => False

/-- The errors of a text that does not fall apart into tokens. -/
def IsLexical : SyntaxError → Prop
  | malformedClass _ _ | malformedExpression .danglingEscape _ => True
  | _ => False

theorem IsLexical.not_isShortage (h : e.IsLexical) : ¬e.IsShortage := by
  cases e with
  | unbalancedParenthesis span => exact id
  | missingOperand operator span => exact fun _ => h
  | malformedClass fault span => exact id
  | malformedExpression fault span =>
      cases fault with
      | emptyGroup => exact fun _ => h
      | _ => exact id

end SyntaxError

theorem CharClass.isLexical_of_tokens {span : Span} {items : List ClassItem}
    (h : tokens span items = .error e) : e.IsLexical := by
  rw [tokens] at h
  split at h
  · obtain rfl := Except.error.inj h
    exact trivial
  · split at h
    · obtain rfl := Except.error.inj h
      exact trivial
    · cases h

namespace Token

theorem isLexical_of_scanFrom {pos : Nat} {k : Option OpenClass} {cs : List Char}
    (h : scanFrom pos k cs = .error e) : e.IsLexical := by
  fun_induction scanFrom pos k cs with
  | case1 => cases h
  | case2 | case6 | case7 =>
      obtain rfl := Except.error.inj h
      exact trivial
  | case3 pos c cs ih => exact ih (bind_pure_eq_error_iff.1 h)
  | case4 pos cs ih => exact ih h
  | case5 pos c cs _ _ _ ih => exact ih (bind_pure_eq_error_iff.1 h)
  | case8 pos k c cs ih => exact ih h
  | case9 pos k cs ih =>
      rcases bind_eq_error_iff.1 h with htokens | ⟨ts, -, hrest⟩
      · exact CharClass.isLexical_of_tokens htokens
      · exact ih (bind_pure_eq_error_iff.1 hrest)
  | case10 pos k c cs _ _ _ ih => exact ih h

end Token

namespace Postfix

/-- A fold fails at one of its tokens, or because what is left in the end is not one
operand. -/
theorem toExpr_eq_error (h : toExpr ts = .error e) :
    ts.foldlM operandsAfter [] = .error e ∨
    (ts.foldlM operandsAfter [] = .ok [] ∧
      e = .malformedExpression .emptyExpression (Token.spanOf ts)) ∨
    ∃ es, 1 < es.length ∧ ts.foldlM operandsAfter [] = .ok es ∧
      e = .malformedExpression .unjoinedOperands (Token.spanOf ts) := by
  rcases bind_eq_error_iff.1 h with hfold | ⟨es, hfold, hes⟩
  · exact Or.inl hfold
  · match es with
    | [] => exact Or.inr (Or.inl ⟨hfold, (Except.error.inj hes).symm⟩)
    | [_] => cases hes
    | _ :: _ :: below =>
        refine Or.inr (Or.inr ⟨_, ?_, hfold, (Except.error.inj hes).symm⟩)
        exact Nat.lt_add_left below.length Nat.one_lt_two

/-- What is left in the end is a fault of the expression as a whole, so an operator has
failed. -/
theorem foldlM_of_shortage (h : toExpr ts = .error e) (he : e.IsShortage) :
    ts.foldlM operandsAfter [] = .error e := by
  rcases toExpr_eq_error h with hfold | ⟨-, rfl⟩ | ⟨es, -, -, rfl⟩
  · exact hfold
  · exact he.elim
  · exact he.elim

end Postfix

/-! ## Signs that are written out -/

namespace Token

/-- Before the next token, in reverse: something that may end an operand, with stars behind
it. -/
def Fed (before : List Token) : Prop :=
  ∃ u ∈ (before.dropWhile isStar).head?, u.kind.isAtom = true ∨ u.kind = .closeParen

/-- Before the next token, in reverse: stars behind a gap. -/
def Bare (before : List Token) : Prop :=
  ∀ u ∈ (before.dropWhile isStar).head?, u.kind = .openParen ∨ u.kind = .union

theorem dropWhile_isStar (h : t.kind ≠ .star) (before : List Token) :
    (t :: before).dropWhile isStar = t :: before :=
  List.dropWhile_cons_of_neg fun hstar => h (beq_iff_eq.1 hstar)

theorem dropWhile_cons_star (h : t.kind = .star) (before : List Token) :
    (t :: before).dropWhile isStar = before.dropWhile isStar := by
  have hstar : isStar t = true := beq_iff_eq.2 h
  exact List.dropWhile_cons_of_pos hstar

theorem fed_cons (h : t.kind.isAtom = true ∨ t.kind = .closeParen) (before : List Token) :
    Fed (t :: before) := by
  have hne : t.kind ≠ .star := by
    rintro hstar
    rw [hstar] at h
    rcases h with h | h <;> cases h
  refine ⟨t, ?_, h⟩
  rw [dropWhile_isStar hne]
  rfl

theorem fed_cons_star (h : t.kind = .star) : Fed (t :: before) ↔ Fed before := by
  rw [Fed, dropWhile_cons_star h, Fed]

theorem Fed.append (h : Fed ts) (us : List Token) : Fed (ts ++ us) := by
  obtain ⟨u, hu, hends⟩ := h
  refine ⟨u, ?_, hends⟩
  rw [List.dropWhile_append]
  cases hdrop : ts.dropWhile isStar with
  | nil =>
      rw [hdrop] at hu
      cases hu
  | cons t ts' =>
      rw [hdrop] at hu
      exact hu

/-- The operand that is found is fed itself. -/
theorem fed_take (h : operandLength op before = .ok n) : Fed (before.take n) := by
  induction before generalizing n with
  | nil => cases h
  | cons t before ih =>
      by_cases hstar : t.kind = .star
      · rw [operandLength_star hstar] at h
        cases hlen : operandLength op before with
        | error e =>
            rw [hlen] at h
            cases h
        | ok m =>
            rw [hlen] at h
            obtain rfl := Except.ok.inj h
            exact (fed_cons_star hstar).2 (ih hlen)
      · have hneg : ¬isStar t = true := fun hpos => hstar (beq_iff_eq.1 hpos)
        rw [operandLength, List.dropWhile_cons_of_neg hneg, List.takeWhile_cons_of_neg hneg] at h
        simp only at h
        split at h
        · next hatom =>
          obtain rfl := Except.ok.inj h
          exact fed_cons (Or.inl hatom) _
        · split at h
          · next hclose =>
            split at h
            · next m _ =>
              obtain rfl := Except.ok.inj h
              rw [List.length_nil, Nat.zero_add, Nat.add_comm]
              exact fed_cons (Or.inr hclose) _
            · cases h
          · cases h

theorem operandLength_eq_error (h : operandLength op before = .error e) :
    e = op.missingOperand ∧ ¬Fed before ∨ ∃ u ∈ before, e = .unbalancedParenthesis u.span := by
  rw [operandLength] at h
  split at h
  · next hdrop =>
    refine Or.inl ⟨(Except.error.inj h).symm, ?_⟩
    rintro ⟨u, hu, -⟩
    rw [hdrop] at hu
    cases hu
  · next t ts hdrop =>
    split at h
    · cases h
    · next hatom =>
      split at h
      · split at h
        · cases h
        · refine Or.inr ⟨t, (List.dropWhile_suffix isStar).subset ?_, (Except.error.inj h).symm⟩
          rw [hdrop]
          exact List.mem_cons_self
      · next hclose =>
        refine Or.inl ⟨(Except.error.inj h).symm, ?_⟩
        rintro ⟨u, hu, hends⟩
        rw [hdrop] at hu
        obtain rfl := Option.some.inj hu
        exact hends.elim hatom hclose

/-- What is written out for a sign, or written down, is fed, but for stars and at a gap. -/
theorem bare_of_desugarStep {seen : List Token} (h : desugarStep before t = .ok back)
    (hconcat : t.kind ≠ .concat) (hseen : ¬Fed before → Bare seen) (hback : ¬Fed back) :
    Bare (t :: seen) := by
  by_cases hquestion : t.kind = .question
  · rw [desugarStep, hquestion] at h
    obtain ⟨m, -, h⟩ := bind_eq_ok_iff.1 h
    obtain rfl := Except.ok.inj h
    exact absurd (fed_cons (Or.inr rfl) _) hback
  by_cases hplus : t.kind = .plus
  · rw [desugarStep, hplus] at h
    obtain ⟨m, hm, h⟩ := bind_eq_ok_iff.1 h
    obtain rfl := Except.ok.inj h
    exact absurd ((fed_cons_star rfl).2 ((fed_take hm).append before)) hback
  obtain rfl := Except.ok.inj ((desugarStep_other hquestion hplus).symm.trans h)
  by_cases hstar : t.kind = .star
  · rw [Bare, dropWhile_cons_star hstar]
    exact hseen fun hfed => hback ((fed_cons_star hstar).2 hfed)
  intro u hu
  rw [dropWhile_isStar hstar] at hu
  obtain rfl := Option.some.inj hu
  cases hkind : t.kind with
  | openParen => exact Or.inl rfl
  | union => exact Or.inr rfl
  | literal c => exact absurd (fed_cons (Or.inl (by rw [hkind]; rfl)) _) hback
  | epsilon => exact absurd (fed_cons (Or.inl (by rw [hkind]; rfl)) _) hback
  | closeParen => exact absurd (fed_cons (Or.inr hkind) _) hback
  | concat => exact absurd hkind hconcat
  | star => exact absurd hkind hstar
  | plus => exact absurd hkind hplus
  | question => exact absurd hkind hquestion

theorem desugarStep_eq_error (h : desugarStep before t = .error e) :
    (t.kind = .plus ∨ t.kind = .question) ∧ e = t.missingOperand ∧ ¬Fed before ∨
      ∃ u ∈ before, e = .unbalancedParenthesis u.span := by
  rw [desugarStep] at h
  split at h
  · next hkind =>
    exact (operandLength_eq_error (bind_pure_eq_error_iff.1 h)).imp_left fun h => ⟨Or.inr hkind, h⟩
  · next hkind =>
    exact (operandLength_eq_error (bind_pure_eq_error_iff.1 h)).imp_left fun h => ⟨Or.inl hkind, h⟩
  · cases h

/-- A sign that finds no operand while it is written out has stars at a gap before it. -/
theorem exists_bare {seen : List Token} (h : ts.foldlM desugarStep before = .error e)
    (he : e.IsShortage) (hconcat : .concat ∉ kinds ts) (hseen : ¬Fed before → Bare seen) :
    ∃ ts₁ t ts₂, ts = ts₁ ++ t :: ts₂ ∧ (t.kind = .plus ∨ t.kind = .question) ∧
      e = t.missingOperand ∧ Bare (ts₁.reverse ++ seen) := by
  induction ts generalizing before seen with
  | nil => cases h
  | cons t ts ih =>
      rw [kinds_cons, List.mem_cons, not_or] at hconcat
      rw [List.foldlM_cons] at h
      rcases bind_eq_error_iff.1 h with hstep | ⟨back, hstep, hrest⟩
      · rcases desugarStep_eq_error hstep with ⟨hkind, he, hfed⟩ | ⟨u, -, rfl⟩
        · exact ⟨[], t, ts, rfl, hkind, he, hseen hfed⟩
        · exact he.elim
      · obtain ⟨ts₁, u, ts₂, rfl, hkind, he, hbare⟩ := ih hrest hconcat.2
          (bare_of_desugarStep hstep (Ne.symm hconcat.1) hseen)
        refine ⟨t :: ts₁, u, ts₂, rfl, hkind, he, ?_⟩
        rw [List.reverse_cons, List.append_assoc]
        exact hbare

/-- The error is that of a sign which is written out and has nothing before it but stars,
which come first or behind a bar or an open parenthesis. -/
def Unfed (ts : List Token) (e : SyntaxError) : Prop :=
  ∃ before stars t after, ts = before ++ (stars ++ t :: after) ∧
    (t.kind = .plus ∨ t.kind = .question) ∧ e = t.missingOperand ∧
    (∀ s ∈ stars, s.kind = .star) ∧
    ∀ u ∈ before.getLast?, u.kind = .openParen ∨ u.kind = .union

theorem unfed_of_desugar (h : desugar ts = .error e) (he : e.IsShortage)
    (hconcat : .concat ∉ kinds ts) : Unfed ts e := by
  have hfold : ts.foldlM desugarStep [] = .error e := bind_pure_eq_error_iff.1 h
  have hnil : Bare [] := fun _ hu => nomatch hu
  obtain ⟨ts₁, t, ts₂, rfl, hkind, he, hbare⟩ := exists_bare hfold he hconcat fun _ => hnil
  refine ⟨(ts₁.reverse.dropWhile isStar).reverse, (ts₁.reverse.takeWhile isStar).reverse, t, ts₂,
    ?_, hkind, he, fun s hs => ?_, ?_⟩
  · rw [← List.append_assoc, ← List.reverse_append, List.takeWhile_append_dropWhile,
      List.reverse_reverse]
  · have hstar : isStar s = true := List.mem_takeWhile_imp (List.mem_reverse.1 hs)
    exact beq_iff_eq.1 hstar
  · rw [List.getLast?_reverse]
    rwa [List.append_nil] at hbare

/-- The gap is between the stars and what comes before them. -/
theorem Unfed.gap (h : Unfed ts e) : TokenKind.Gap (kinds ts) := by
  obtain ⟨before, stars, t, after, rfl, hkind, -, hstars, hbefore⟩ := h
  refine ⟨kinds before, kinds (stars ++ t :: after), kinds_append, ?_, ?_⟩
  · rcases List.eq_nil_or_concat before with rfl | ⟨before, u, rfl⟩
    · rfl
    · rw [List.concat_eq_append] at hbefore ⊢
      rw [kinds_append, TokenKind.endsAfter_append]
      rcases hbefore u (by simp) with hu | hu <;> rw [kinds_cons, hu] <;> rfl
  · have hnext : ∀ c ∈ (kinds (stars ++ t :: after)).head?,
        c = .star ∨ c = .plus ∨ c = .question := by
      intro c hc
      cases stars with
      | nil =>
          obtain rfl := Option.some.inj hc
          exact Or.inr hkind
      | cons s stars =>
          obtain rfl := Option.some.inj hc
          exact Or.inl (hstars s List.mem_cons_self)
    intro c hc
    rcases hnext c hc with rfl | rfl | rfl <;> rfl

/-! ## The tokens of the text -/

/-- The token `u` is written for `t`: it is that token, or a part of what `t` is written out
as. -/
def WrittenFor (t u : Token) : Prop :=
  u.span = t.span ∧ (u.kind = t.kind ∨ t.kind = .plus ∧ u.kind = .star ∨
    t.kind = .question ∧ u.kind ∈ [.openParen, .union, .epsilon, .closeParen])

/-- The token `u` of the written-out tokens with explicit concatenation is written for a
token of the text, or it is the concatenation before one. -/
def ComesFrom (ts : List Token) (u : Token) : Prop :=
  ∃ t ∈ ts, WrittenFor t u ∨ u = ⟨.concat, .byte t.span.first⟩

theorem mem_desugarStep (h : desugarStep before t = .ok back) (hu : u ∈ back) :
    u ∈ before ∨ WrittenFor t u := by
  rw [desugarStep] at h
  split at h
  · next hkind =>
    obtain ⟨m, -, h⟩ := bind_eq_ok_iff.1 h
    obtain rfl := Except.ok.inj h
    simp only [List.mem_cons, List.mem_append] at hu
    rcases hu with rfl | rfl | rfl | hu | rfl | hu
    · exact Or.inr ⟨rfl, Or.inr (Or.inr ⟨hkind, by simp⟩)⟩
    · exact Or.inr ⟨rfl, Or.inr (Or.inr ⟨hkind, by simp⟩)⟩
    · exact Or.inr ⟨rfl, Or.inr (Or.inr ⟨hkind, by simp⟩)⟩
    · exact Or.inl (List.mem_of_mem_take hu)
    · exact Or.inr ⟨rfl, Or.inr (Or.inr ⟨hkind, by simp⟩)⟩
    · exact Or.inl (List.mem_of_mem_drop hu)
  · next hkind =>
    obtain ⟨m, -, h⟩ := bind_eq_ok_iff.1 h
    obtain rfl := Except.ok.inj h
    simp only [List.mem_cons, List.mem_append] at hu
    rcases hu with rfl | hu | hu
    · exact Or.inr ⟨rfl, Or.inr (Or.inl ⟨hkind, rfl⟩)⟩
    · exact Or.inl (List.mem_of_mem_take hu)
    · exact Or.inl hu
  · obtain rfl := Except.ok.inj h
    rcases List.mem_cons.1 hu with rfl | hu
    · exact Or.inr ⟨rfl, Or.inl rfl⟩
    · exact Or.inl hu

theorem mem_foldlM_desugarStep (h : ts.foldlM desugarStep before = .ok back) (hu : u ∈ back) :
    u ∈ before ∨ ∃ t ∈ ts, WrittenFor t u := by
  induction ts generalizing before with
  | nil =>
      obtain rfl := Except.ok.inj h
      exact Or.inl hu
  | cons t ts ih =>
      rw [List.foldlM_cons] at h
      obtain ⟨next, hstep, hrest⟩ := bind_eq_ok_iff.1 h
      rcases ih hrest with hnext | ⟨t', ht', hwritten⟩
      · rcases mem_desugarStep hstep hnext with hbefore | hwritten
        · exact Or.inl hbefore
        · exact Or.inr ⟨t, List.mem_cons_self, hwritten⟩
      · exact Or.inr ⟨t', List.mem_cons_of_mem t ht', hwritten⟩

theorem mem_joinFrom (hu : u ∈ joinFrom ends ts) :
    u ∈ ts ∨ ∃ t ∈ ts, u = ⟨.concat, .byte t.span.first⟩ := by
  induction ts generalizing ends with
  | nil => cases hu
  | cons t ts ih =>
      rw [joinFrom, List.mem_append, List.mem_cons] at hu
      rcases hu with hu | rfl | hu
      · split at hu
        · exact Or.inr ⟨t, List.mem_cons_self, List.mem_singleton.1 hu⟩
        · cases hu
      · exact Or.inl List.mem_cons_self
      · rcases ih hu with hu | ⟨t', ht', heq⟩
        · exact Or.inl (List.mem_cons_of_mem t hu)
        · exact Or.inr ⟨t', List.mem_cons_of_mem t ht', heq⟩

theorem comesFrom_of_mem (h : desugar ts = .ok us) (hu : u ∈ joinOperands us) :
    ComesFrom ts u := by
  have hwritten : ∀ u ∈ us, ∃ t ∈ ts, WrittenFor t u := by
    obtain ⟨back, hfold, h⟩ := bind_eq_ok_iff.1 h
    obtain rfl := Except.ok.inj h
    intro u hu
    exact (mem_foldlM_desugarStep hfold (List.mem_reverse.1 hu)).resolve_left List.not_mem_nil
  rw [joinOperands_eq] at hu
  rcases mem_joinFrom hu with hu | ⟨u', hu', rfl⟩
  · obtain ⟨t, ht, hwritten⟩ := hwritten u hu
    exact ⟨t, ht, Or.inl hwritten⟩
  · obtain ⟨t, ht, hspan, -⟩ := hwritten u' hu'
    exact ⟨t, ht, Or.inr (by rw [hspan])⟩

/-- Where the parentheses match and there is no tree, there is a gap. -/
theorem gap_of_reorder {stream : List Token} (hconcat : .concat ∉ kinds ts)
    (hus : desugar ts = .ok us) (hstream : Postfix.ofTokens (joinOperands us) = .ok stream)
    (h : Postfix.toExpr stream = .error e) : TokenKind.Gap (kinds ts) := by
  refine TokenKind.gap_of_not_placed fun hplaced => ?_
  have hcloses := hstream
  rw [joinOperands_eq] at hcloses
  have hwf : TokenKind.WellFormed (kinds ts) := ⟨hplaced,
    reflected_closes.of_desugar hus (closes_joinFrom.1 (closes_of_reorder hcloses))⟩
  obtain ⟨p, hp⟩ := TokenKind.exists_phrase hwf hconcat
  have hparse := parse_eq_of_phrase p hp
  rw [parse, hus] at hparse
  have htree : (Postfix.ofTokens (joinOperands us) >>= Postfix.toExpr) = .ok p.tree := hparse
  rw [hstream] at htree
  cases h.symm.trans htree

end Token

open Token

/-! ## Blame -/

namespace Expr

/-- A parse that fails for a missing operand has read the text as tokens and fails in one of
two stages. -/
theorem parseWithLimit_eq_shortage {limit : Option Nat} {text : String}
    (h : parseWithLimit limit text = .error e) (he : e.IsShortage) :
    ∃ ts, Token.scan text = .ok ts ∧ (desugar ts = .error e ∨ ∃ us stream, desugar ts = .ok us ∧
      Postfix.ofTokens (joinOperands us) = .ok stream ∧ Postfix.toExpr stream = .error e) := by
  cases parseWithLimit_eq_error_iff.1 h with
  | scan h => exact absurd he (isLexical_of_scanFrom h).not_isShortage
  | desugar hscan h => exact ⟨_, hscan, Or.inl h⟩
  | reorder hscan hus h =>
      rcases Postfix.ofTokens_cases (joinOperands _) with ⟨⟨stream, hok⟩, -⟩ | ⟨t, herror, -⟩
      · cases h.symm.trans hok
      · obtain rfl := Except.error.inj (h.symm.trans herror)
        exact he.elim
  | check stages h =>
      cases limit with
      | none => cases h
      | some n =>
          obtain ⟨t, -, rfl⟩ := Postfix.exists_mem_of_checkDepthFrom h
          exact he.elim
  | fold stages _ h =>
      exact ⟨_, stages.scan, Or.inr ⟨_, _, stages.desugar, stages.reorder, h⟩⟩

/-- If a parse fails for a missing operand, there is a gap in the text. The operator that is
blamed is an option or a repetition with nothing but stars between a gap and itself, or, once
those are written out, an operator with a gap or a malformed group next to it. -/
theorem parseWithLimit_blames {limit : Option Nat} {text : String}
    (h : parseWithLimit limit text = .error e) (he : e.IsShortage) :
    ∃ ts, Token.scan text = .ok ts ∧ TokenKind.Gap (Token.kinds ts) ∧
      (Unfed ts e ∨ ∃ us u, desugar ts = .ok us ∧ e = Postfix.lacksOperand u ∧
        Starved (joinOperands us) u ∧ ComesFrom ts u) := by
  obtain ⟨ts, hscan, hstage⟩ := parseWithLimit_eq_shortage h he
  have hconcat := concat_notMem_scan hscan
  refine ⟨ts, hscan, ?_⟩
  rcases hstage with hfail | ⟨us, stream, hus, hstream, hfail⟩
  · have hunfed := unfed_of_desugar hfail he hconcat
    exact ⟨hunfed.gap, Or.inl hunfed⟩
  · obtain ⟨u, rfl, hstarved⟩ :=
      starved_of_foldlM (concat_notMem_desugar hus hconcat) hstream
        (Postfix.foldlM_of_shortage hfail he)
    exact ⟨gap_of_reorder hconcat hus hstream hfail,
      Or.inr ⟨us, u, hus, rfl, hstarved, comesFrom_of_mem hus hstarved.mem⟩⟩

/-- A concatenation is blamed where no group is empty, a bar with operands on either side
instead of the star that has none, and an option that has a star before it. -/
theorem parseWithLimit_blames_group :
    parseWithLimit none "a(|b)" = .error (.malformedExpression .emptyGroup ⟨1, 1⟩) ∧
    parseWithLimit none "a|(*b)" = .error (.missingOperand '|' ⟨1, 1⟩) ∧
    parseWithLimit none "*?" = .error (.missingOperand '?' ⟨1, 1⟩) ∧
    ∃ ts, Token.scan "a(|b)" = .ok ts ∧ TokenKind.Gap (Token.kinds ts) ∧
      Token.kinds ts = [.literal 'a', .openParen, .union, .literal 'b', .closeParen] := by
  have hfail : parseWithLimit none "a(|b)" = .error (.malformedExpression .emptyGroup ⟨1, 1⟩) := rfl
  obtain ⟨ts, hscan, hgap, -⟩ := parseWithLimit_blames hfail trivial
  refine ⟨hfail, rfl, rfl, ts, hscan, hgap, ?_⟩
  obtain rfl := Except.ok.inj hscan
  rfl

end Expr

end Regular
