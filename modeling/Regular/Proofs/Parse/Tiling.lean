import Mathlib.Data.List.Destutter
import Regular.Proofs.Parse.Scan

/-!
# Where the tokens of a text stand

Reading a text leaves nothing behind that would tell what has been read: with the text
further back by some bytes the tokens are the same and only their spans move
(`Token.scanFrom_shift`), and so does the span of an error. The tokens of two texts, one
behind the other, are therefore those of the first and, moved by its length, those of the
second (`Token.scan_append`).

The tokens of a symbol all have its span, and the spans of the symbols of a text lie one
behind the other from its first byte to its last (`Symbol.tiles_spansFrom`).
-/

namespace Regular

open String (utf8Len utf8Len_append utf8Len_eq_zero)

variable {ss : List (Symbol Lexeme)} {text : String}

/-! ## A text with more text before it -/

theorem Span.ofChar_shift (n pos : Nat) (c : Char) :
    ofChar (pos + n) c = (ofChar pos c).shift n := by
  have hpos := c.utf8Size_pos
  have hlast : pos + n + c.utf8Size - 1 = pos + c.utf8Size - 1 + n := by omega
  exact congrArg (Span.mk (pos + n)) hlast

namespace OpenClass

/-- The same class in a text with `n` more bytes before it. -/
def shift (n : Nat) (k : OpenClass) : OpenClass := { k with span := k.span.shift n }

end OpenClass

namespace Token

/-- The same token in a text with `n` more bytes before it. -/
def shift (n : Nat) (t : Token) : Token := { t with span := t.span.shift n }

/-- What is read of a text with `n` more bytes before it. -/
def shiftRead (n : Nat) : Except SyntaxError (List Token) → Except SyntaxError (List Token)
  | .ok ts => .ok (ts.map (·.shift n))
  | .error e => .error (e.shift n)

theorem shiftRead_cons (n : Nat) (t : Token) (read : Except SyntaxError (List Token)) :
    shiftRead n (read >>= fun ts => pure (t :: ts)) =
      shiftRead n read >>= fun ts => pure (t.shift n :: ts) := by
  cases read <;> rfl

theorem shiftRead_append (n : Nat) (read rest : Except SyntaxError (List Token)) :
    shiftRead n (read >>= fun ts => rest >>= fun us => pure (ts ++ us)) =
      shiftRead n read >>= fun ts => shiftRead n rest >>= fun us => pure (ts ++ us) := by
  cases read with
  | error e => rfl
  | ok ts =>
      cases rest with
      | error e => rfl
      | ok us => exact congrArg Except.ok List.map_append

theorem tokens_shift (n : Nat) (span : Span) (items : List ClassItem) :
    CharClass.tokens (span.shift n) items = shiftRead n (CharClass.tokens span items) := by
  rw [CharClass.tokens, CharClass.tokens]
  split
  · rfl
  · split
    · rfl
    · rw [shiftRead, List.map_map]
      rfl

/-- The scanner has no memory but the open class: where it is does not matter to what it
reads. -/
theorem scanFrom_shift (n pos : Nat) (k : Option OpenClass) (cs : List Char) :
    scanFrom (pos + n) (k.map (·.shift n)) cs = shiftRead n (scanFrom pos k cs) := by
  -- Each step leaves the scanner `n` bytes ahead of where it would be, with every span it
  -- writes.
  fun_induction scanFrom pos k cs with
  | case1 pos => rfl
  | case2 pos => rfl
  | case3 pos c cs ih =>
      have hnext : pos + n + 1 + c.utf8Size = pos + 1 + c.utf8Size + n := by omega
      rw [shiftRead_cons, ← ih, Option.map_none, scanFrom, hnext, Nat.add_right_comm pos n]
      rfl
  | case4 pos cs ih =>
      rw [← ih, Option.map_none, scanFrom, Nat.add_right_comm]
      rfl
  | case5 pos c cs hback hback' hopen ih =>
      rw [shiftRead_cons, ← ih, Option.map_none, scanFrom, Nat.add_right_comm, Span.ofChar_shift]
      · rfl
      all_goals assumption
  | case6 pos k => rfl
  | case7 pos k => rfl
  | case8 pos k c cs ih =>
      have hnext : pos + n + 1 + c.utf8Size = pos + 1 + c.utf8Size + n := by omega
      have hlast : pos + n + c.utf8Size = pos + c.utf8Size + n := by omega
      rw [← ih, Option.map_some, scanFrom, hnext, hlast]
      rfl
  | case9 pos k cs ih =>
      rw [shiftRead_append, ← ih, ← tokens_shift, Option.map_some, scanFrom, Nat.add_right_comm]
      rfl
  | case10 pos k c cs hback hback' hclose ih =>
      have hpos := c.utf8Size_pos
      have hlast : pos + n + c.utf8Size - 1 = pos + c.utf8Size - 1 + n := by omega
      rw [← ih, Option.map_some, scanFrom, hlast, Nat.add_right_comm]
      · rfl
      all_goals assumption

theorem scan_append {r₁ r₂ : String} {ts : List Token} (h : scan r₁ = .ok ts) :
    scan (r₁ ++ r₂) = (ts ++ ·) <$> shiftRead r₁.utf8ByteSize (scan r₂) := by
  obtain ⟨ss, hss⟩ := exists_symbols_of_scan h
  obtain rfl := Except.ok.inj (h.symm.trans (scan_of_symbols hss))
  have hscan := scanFrom_symbols ss 0 r₂.toList
  rw [hss, ← String.toList_append, String.utf8Len_toList] at hscan
  rw [scan, hscan, scan, ← scanFrom_shift]
  rfl

end Token

/-! ## The spans of a text -/

namespace Span

/-- The spans lie one behind the other without a gap, from byte `lo` up to before byte
`hi`. -/
def Tiles : Nat → Nat → List Span → Prop
  | lo, hi, [] => lo = hi
  | lo, hi, s :: ss => s.first = lo ∧ s.first ≤ s.last ∧ Tiles (s.last + 1) hi ss

/-- The span begins and ends between two characters of the text. -/
structure IsBounded (text : String) (s : Span) : Prop where
  first : (⟨s.first⟩ : String.Pos.Raw).IsValid text
  last : (⟨s.last + 1⟩ : String.Pos.Raw).IsValid text

/-- Where characters end, the position is between two characters. -/
theorem isValid_utf8Len {ds es : List Char} (h : text.toList = ds ++ es) :
    (⟨utf8Len ds⟩ : String.Pos.Raw).IsValid text := by
  refine String.Pos.Raw.isValid_iff_exists_append.2 ⟨.ofList ds, .ofList es, ?_, ?_⟩
  · rw [← String.ofList_append, ← h, String.ofList_toList]
  · rw [String.rawEndPos_ofList]

end Span

namespace Symbol

/-- The spans of symbols that begin at byte `pos`. -/
def spansFrom : Nat → List (Symbol Lexeme) → List Span
  | _, [] => []
  | pos, s :: ss => .ofChars pos s.chars :: spansFrom (pos + utf8Len s.chars) ss

theorem utf8Len_chars_pos (s : Symbol Lexeme) : 0 < utf8Len s.chars := by
  rw [Nat.pos_iff_ne_zero, ne_eq, utf8Len_eq_zero]
  cases s with
  | leaf l => cases l <;> exact List.cons_ne_nil _ _
  | _ => exact List.cons_ne_nil _ _

theorem kinds_ne_nil (s : Symbol Lexeme) : s.kinds ≠ [] := by
  cases s with
  | leaf l => exact fun hnil => l.atom.symbols_ne_nil (List.map_eq_nil_iff.1 hnil)
  | _ => exact List.cons_ne_nil _ _

theorem succ_last_ofChars (pos : Nat) (s : Symbol Lexeme) :
    (Span.ofChars pos s.chars).last + 1 = pos + utf8Len s.chars := by
  have hpos := s.utf8Len_chars_pos
  show pos + utf8Len s.chars - 1 + 1 = _
  omega

theorem first_ofChars_lt (pos : Nat) (s : Symbol Lexeme) :
    (Span.ofChars pos s.chars).first < pos + utf8Len s.chars :=
  Nat.lt_add_of_pos_right s.utf8Len_chars_pos

/-- The tokens of the first symbol, which are some, have its span. -/
theorem exists_map_tokensFrom_cons (pos : Nat) (s : Symbol Lexeme) (ss : List (Symbol Lexeme)) :
    ∃ m, (tokensFrom pos (s :: ss)).map Token.span =
      .ofChars pos s.chars :: (List.replicate m (.ofChars pos s.chars) ++
        (tokensFrom (pos + utf8Len s.chars) ss).map Token.span) := by
  obtain ⟨k, ks, hks⟩ := List.exists_cons_of_ne_nil s.kinds_ne_nil
  refine ⟨ks.length, ?_⟩
  rw [tokensFrom, List.map_append, tokensAt, List.map_map, hks, List.map_cons, List.cons_append]
  exact congrArg (_ :: · ++ _) List.map_const'

theorem destutter'_replicate (s : Span) (m : Nat) (spans : List Span) :
    (List.replicate m s ++ spans).destutter' (· ≠ ·) s = spans.destutter' (· ≠ ·) s := by
  induction m with
  | zero => rfl
  | succ m ih =>
      rw [List.replicate_succ, List.cons_append, List.destutter'_cons_neg _ (not_not.2 rfl), ih]

theorem destutter'_tokensFrom (pos : Nat) (ss : List (Symbol Lexeme)) {span : Span}
    (h : span.first < pos) :
    ((tokensFrom pos ss).map Token.span).destutter' (· ≠ ·) span = span :: spansFrom pos ss := by
  induction ss generalizing pos span with
  | nil => rfl
  | cons s ss ih =>
      obtain ⟨m, hm⟩ := exists_map_tokensFrom_cons pos s ss
      have hne : span ≠ .ofChars pos s.chars := fun heq => h.ne (congrArg Span.first heq)
      rw [hm, List.destutter'_cons_pos _ hne, destutter'_replicate, ih _ (first_ofChars_lt pos s),
        spansFrom]

/-- The tokens repeat the spans of their symbols and have no others. -/
theorem destutter_tokensFrom (pos : Nat) (ss : List (Symbol Lexeme)) :
    ((tokensFrom pos ss).map Token.span).destutter (· ≠ ·) = spansFrom pos ss := by
  cases ss with
  | nil => rfl
  | cons s ss =>
      obtain ⟨m, hm⟩ := exists_map_tokensFrom_cons pos s ss
      rw [hm, List.destutter_cons', destutter'_replicate,
        destutter'_tokensFrom _ _ (first_ofChars_lt pos s), spansFrom]

theorem tiles_spansFrom (pos : Nat) (ss : List (Symbol Lexeme)) :
    Span.Tiles pos (pos + utf8Len (ss.flatMap chars)) (spansFrom pos ss) := by
  induction ss generalizing pos with
  | nil => rfl
  | cons s ss ih =>
      have hlt := first_ofChars_lt pos s
      rw [← succ_last_ofChars] at hlt
      refine ⟨rfl, Nat.le_of_lt_succ hlt, ?_⟩
      rw [succ_last_ofChars, List.flatMap_cons, utf8Len_append, ← Nat.add_assoc]
      exact ih _

theorem isBounded_of_mem_spansFrom {before : List Char} {span : Span}
    (htext : text.toList = before ++ ss.flatMap chars)
    (h : span ∈ spansFrom (utf8Len before) ss) : span.IsBounded text := by
  induction ss generalizing before with
  | nil => cases h
  | cons s ss ih =>
      rw [List.flatMap_cons, ← List.append_assoc] at htext
      rcases List.mem_cons.1 h with rfl | hmem
      · constructor
        · exact Span.isValid_utf8Len ((List.append_assoc ..).symm.trans htext.symm).symm
        · rw [succ_last_ofChars, ← utf8Len_append]
          exact Span.isValid_utf8Len htext
      · rw [← utf8Len_append] at hmem
        exact ih htext hmem

end Symbol

namespace Token

/-- A text behind another one is read as it is by itself, only further back, and the spans of
the tokens of a text make up the text: each begins where the one before it ends. -/
theorem scan_append_and_tiles_spans :
    (∀ (r₁ r₂ : String) (ts : List Token), scan r₁ = .ok ts →
      (∀ us, scan r₂ = .ok us →
        scan (r₁ ++ r₂) = .ok (ts ++ us.map (·.shift r₁.utf8ByteSize))) ∧
      (∀ e, scan r₂ = .error e → scan (r₁ ++ r₂) = .error (e.shift r₁.utf8ByteSize))) ∧
    (∀ (r : String) (ts : List Token), r ≠ "" → scan r = .ok ts →
      let spans := (ts.map Token.span).destutter (· ≠ ·)
      spans ≠ [] ∧ Span.Tiles 0 r.utf8ByteSize spans ∧ ∀ s ∈ spans, s.IsBounded r) := by
  refine ⟨fun r₁ r₂ ts h => ⟨fun us hr₂ => ?_, fun e hr₂ => ?_⟩, fun r ts hr h => ?_⟩
  · rw [scan_append h, hr₂]
    rfl
  · rw [scan_append h, hr₂]
    rfl
  · obtain ⟨ss, hss⟩ := exists_symbols_of_scan h
    obtain rfl := Except.ok.inj (h.symm.trans (scan_of_symbols hss))
    intro spans
    have hspans : spans = Symbol.spansFrom 0 ss := Symbol.destutter_tokensFrom 0 ss
    have htiles := Symbol.tiles_spansFrom 0 ss
    rw [hss, String.utf8Len_toList, Nat.zero_add, ← hspans] at htiles
    refine ⟨fun hnil => hr ?_, htiles, fun s hs => ?_⟩
    · rw [hnil] at htiles
      exact String.utf8ByteSize_eq_zero_iff.1 htiles.symm
    · have htext : r.toList = [] ++ ss.flatMap Symbol.chars := hss.symm
      rw [hspans] at hs
      exact Symbol.isBounded_of_mem_spansFrom htext hs

/-- An escape before a class and before a dangling escape, and a class of two characters. -/
theorem scan_append_and_tiles_spans_class :
    scan ("α\\*" ++ "[x]ε") = .ok [⟨.literal 'α', ⟨0, 1⟩⟩, ⟨.literal '*', ⟨2, 3⟩⟩,
      ⟨.literal 'x', ⟨4, 6⟩⟩, ⟨.epsilon, ⟨7, 8⟩⟩] ∧
    scan ("α\\*" ++ "β\\") = .error (.malformedExpression .danglingEscape ⟨6, 6⟩) ∧
    Span.Tiles 0 7 [⟨0, 5⟩, ⟨6, 6⟩] ∧ ∀ s ∈ [⟨0, 5⟩, ⟨6, 6⟩], Span.IsBounded "[βα]*" s := by
  obtain ⟨happend, htiles⟩ := scan_append_and_tiles_spans
  have hfirst : scan "α\\*" = .ok [⟨.literal 'α', ⟨0, 1⟩⟩, ⟨.literal '*', ⟨2, 3⟩⟩] := rfl
  refine ⟨(happend _ "[x]ε" _ hfirst).1 [⟨.literal 'x', ⟨0, 2⟩⟩, ⟨.epsilon, ⟨3, 4⟩⟩] rfl,
    (happend _ "β\\" _ hfirst).2 (.malformedExpression .danglingEscape ⟨2, 2⟩) rfl, ?_⟩
  have hclass : scan "[βα]*" = .ok [⟨.openParen, ⟨0, 5⟩⟩, ⟨.literal 'α', ⟨0, 5⟩⟩,
    ⟨.union, ⟨0, 5⟩⟩, ⟨.literal 'β', ⟨0, 5⟩⟩, ⟨.closeParen, ⟨0, 5⟩⟩, ⟨.star, ⟨6, 6⟩⟩] := rfl
  exact (htiles "[βα]*" _ (by decide) hclass).2

end Token

end Regular
