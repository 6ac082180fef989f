import Regular.Proofs.Compile
import Regular.Proofs.Repetition

/-!
# What a compiled text matches

From end to end: a text that compiles is spelled by a phrase over lexemes, and the automata
it is compiled to accept the words that the phrase denotes by the textbook meaning of the
grammar, as long as no star and no `?` stands right behind a `+` (`compile_verdicts`). What
remains to be shown for that is that symbols whose tokens spell a phrase spell one
themselves: a lexeme is read as an atom, so it stands where a single token may.
-/

namespace Regular

variable {ss : List (Symbol Lexeme)} {ts : List Token} {ends : Bool} {depth : Nat} {text : String}

open TokenKind (Placed Closes)

/-! ## From tokens to lexemes -/

theorem placed_outline_of_kinds (h : Placed ends (ss.flatMap Symbol.kinds)) :
    Placed ends (ss.map Symbol.outline) := by
  induction ss generalizing ends with
  | nil => exact h
  | cons s ss ih =>
      rw [List.flatMap_cons] at h
      cases s with
      | leaf l => exact ⟨Or.inr rfl, ih (l.atom.placed_kinds_append.1 h)⟩
      | _ => exact ⟨h.1, ih h.2⟩

theorem closes_outline_of_kinds (h : Closes depth (ss.flatMap Symbol.kinds)) :
    Closes depth (ss.map Symbol.outline) := by
  induction ss generalizing depth with
  | nil => exact h
  | cons s ss ih =>
      rw [List.flatMap_cons] at h
      cases s with
      | leaf l => exact ih ((l.atom.neutral_kinds _ _).1 h)
      | repetition op => cases op <;> exact ih h
      | union => exact ih h
      | openParen => exact ih h
      | closeParen => exact ⟨h.1, ih h.2⟩

/-- A text whose tokens spell a phrase is spelled by a phrase. -/
theorem exists_phrase_of_scan {q : Phrase Atom .union} (hscan : Token.scan text = .ok ts)
    (hq : Token.kinds ts = q.kinds) : ∃ p : Phrase Lexeme .union, p.chars = text.toList := by
  obtain ⟨ss, hss⟩ := Token.exists_symbols_of_scan hscan
  have hwf := q.wellFormed_kinds
  rw [← hq, Token.kinds_of_scan hscan hss] at hwf
  obtain ⟨p, rfl⟩ := Phrase.exists_of_wellFormed
    ⟨placed_outline_of_kinds hwf.placed, closes_outline_of_kinds hwf.closes⟩
  exact ⟨p, hss⟩

/-- The tokens of a text spell every phrase that spells the text. -/
theorem kinds_of_chars {p : Phrase Lexeme .union} (hscan : Token.scan text = .ok ts)
    (hp : p.chars = text.toList) : Token.kinds ts = (p.bind Lexeme.atom).kinds := by
  rw [Token.kinds_of_scan hscan hp, Phrase.kinds_bind_atom]

/-! ## From end to end -/

/-- A text that compiles, in which no star and no `?` stands right behind a `+`, is spelled
by a phrase, and whatever phrase spells it, the verdicts on an input are one, which is
whether the phrase denotes the input. -/
theorem compile_verdicts {config : Config} {c : Compiled} (hscan : Token.scan text = .ok ts)
    (hplus : PlusLast (Token.kinds ts)) (hc : compile config text = .ok c) :
    (∃ p : Phrase Lexeme .union, p.chars = text.toList) ∧
    ∀ p : Phrase Lexeme .union, p.chars = text.toList → ∀ input : String,
      ∃ b, c.verdicts input = ⟨b, b, b⟩ ∧
        (b = true ↔ input.toList ∈ p.language Lexeme.language) := by
  obtain ⟨hparse, hstaged⟩ := staged_of_compile hc
  have hunlimited := Expr.parseWithLimit_none_of_ok hparse
  rw [Expr.parseWithLimit_none, hscan] at hunlimited
  have hconcat := Token.concat_notMem_scan hscan
  obtain ⟨q, hq, -⟩ := (Token.parse_eq_ok_iff hconcat).1 hunlimited
  refine ⟨exists_phrase_of_scan hscan hq, fun p hp input => ?_⟩
  have hkinds := kinds_of_chars hscan hp
  have htree : c.expr = (p.bind Lexeme.atom).tree :=
    Except.ok.inj (hunlimited.symm.trans (Token.parse_eq_of_phrase _ hkinds))
  have hlang : c.expr.language = p.language Lexeme.language := by
    rw [hkinds] at hplus
    rw [htree, Phrase.language_tree_of_faithful _ (Phrase.faithful_of_plusLast _ hplus),
      Phrase.language_expr, Phrase.language_bind_atom]
  obtain ⟨b, hb, hiff⟩ := hstaged.verdicts_eq input
  rw [hlang] at hiff
  exact ⟨b, hb, hiff⟩

/-- The items of the class `[ab]`. -/
def ClassBody.ab : ClassBody where
  items := [⟨'a', false⟩, ⟨'b', false⟩]
  nonempty := List.cons_ne_nil _ _
  written := by
    intro i hi
    rcases List.mem_pair.1 hi with rfl | rfl <;> exact fun _ => ⟨by decide, by decide⟩
  ordered := trivial

open scoped Computability in
/-- One or more letters of a class and perhaps another one, or else a star. -/
theorem compile_verdicts_class : ∃ c, compile { maxDfaStates := none } "[ab]+c?|\\*" = .ok c ∧
    ∀ input : String, ∃ b, c.verdicts input = ⟨b, b, b⟩ ∧
      (b = true ↔ input.toList ∈ ((({['a']} + {['b']}) * ({['a']} + {['b']})∗ * ({['c']} + 1) +
        {['*']} : Language Char))) := by
  obtain ⟨c, hc, -⟩ : ∃ c, compile { maxDfaStates := none } "[ab]+c?|\\*" = .ok c ∧ c.expr = _ :=
    exists_compile rfl (e := .union (.concat (.concat (.union (.literal 'a') (.literal 'b'))
      (.star (.union (.literal 'a') (.literal 'b')))) (.union (.literal 'c') .epsilon))
      (.literal '*')) rfl
  have hscan : Token.scan "[ab]+c?|\\*" =
      .ok [⟨.openParen, ⟨0, 3⟩⟩, ⟨.literal 'a', ⟨0, 3⟩⟩, ⟨.union, ⟨0, 3⟩⟩, ⟨.literal 'b', ⟨0, 3⟩⟩,
        ⟨.closeParen, ⟨0, 3⟩⟩, ⟨.plus, ⟨4, 4⟩⟩, ⟨.literal 'c', ⟨5, 5⟩⟩, ⟨.question, ⟨6, 6⟩⟩,
        ⟨.union, ⟨7, 7⟩⟩, ⟨.literal '*', ⟨8, 9⟩⟩] := rfl
  have hplus : PlusLast [.openParen, .literal 'a', .union, .literal 'b', .closeParen, .plus,
      .literal 'c', .question, .union, .literal '*'] := by
    unfold PlusLast
    decide
  obtain ⟨-, hverdicts⟩ := compile_verdicts hscan hplus hc
  exact ⟨c, hc, hverdicts (.alternate
    (.ofConcat (.juxtapose (.ofFactor (.repeated (.ofAtom (.leaf (.charClass .ab))) .plus))
      (.repeated (.ofAtom (.leaf (.plain 'c' rfl))) .question)))
    (.ofFactor (.ofAtom (.leaf (.escaped '*'))))) rfl⟩

end Regular
