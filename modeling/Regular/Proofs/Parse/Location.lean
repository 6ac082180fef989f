import Regular.Proofs.Parse.Stream

/-!
# Where errors are located

A span of a text marks some of its characters (`Span.Marks`): it begins with the first byte
of the first one and ends with the last byte of the last one. The one exception is a single
byte, such as that of a concatenation that is not written, which is the first one of a
character that may have more.

Only the scanner makes spans, and those of what it reads mark what it has read, whether it
succeeds or fails (`Token.allWithin_scanFrom`). The later stages hand spans on or take the
first byte of one. So the span of any syntax error marks characters of the text, unless there
is nothing to be marked (`Expr.within_of_parseWithLimit`).
-/

namespace Regular

variable {before marked more cs : List Char} {s : Span} {ts us stream : List Token} {t u : Token}
  {e : SyntaxError} {pos : Nat} {limit : Option Nat} {text : String}

open String (utf8Len utf8Len_append utf8Len_eq_zero)

namespace Span

/-- The span marks the characters `marked`, which stand behind the characters `before`. It
goes up to the last byte of the last one, or is the first byte of the only one. -/
structure Marks (before marked : List Char) (s : Span) : Prop where
  nonempty : marked ≠ []
  first : s.first = utf8Len before
  last : s.last + 1 = utf8Len (before ++ marked) ∨ s.last = s.first ∧ marked.length = 1

/-- The span marks some of the characters. -/
def Within (cs : List Char) (s : Span) : Prop :=
  ∃ before marked after, cs = before ++ (marked ++ after) ∧ s.Marks before marked

theorem utf8Len_pos (h : marked ≠ []) : 0 < utf8Len marked :=
  Nat.pos_of_ne_zero fun hzero => h (utf8Len_eq_zero.1 hzero)

theorem marks_byte (before : List Char) (c : Char) : (byte (utf8Len before)).Marks before [c] :=
  ⟨List.cons_ne_nil c [], rfl, Or.inr ⟨rfl, rfl⟩⟩

theorem Marks.le_last (h : s.Marks before marked) : s.first ≤ s.last := by
  have hpos := utf8Len_pos h.nonempty
  rcases h.last with hlast | ⟨hlast, -⟩
  · rw [utf8Len_append, ← h.first] at hlast
    omega
  · exact Nat.le_of_eq hlast.symm

theorem Marks.last_lt (h : s.Marks before marked) : s.last < utf8Len (before ++ marked) := by
  have hpos := utf8Len_pos h.nonempty
  rcases h.last with hlast | ⟨hlast, -⟩
  · exact Nat.lt_of_succ_le (Nat.le_of_eq hlast)
  · rw [hlast, h.first, utf8Len_append]
    exact Nat.lt_add_of_pos_right hpos

/-- The span marks the last of the characters. -/
def MarksEnd (cs : List Char) (s : Span) : Prop :=
  ∃ before marked, cs = before ++ marked ∧ s.Marks before marked

theorem marksEnd_of_last (h : marked ≠ []) (hfirst : s.first = utf8Len before)
    (hlast : s.last + 1 = utf8Len (before ++ marked)) : s.MarksEnd (before ++ marked) :=
  ⟨before, marked, rfl, h, hfirst, Or.inl hlast⟩

theorem MarksEnd.within (h : s.MarksEnd cs) (after : List Char) : s.Within (cs ++ after) := by
  obtain ⟨before, marked, rfl, hmarks⟩ := h
  exact ⟨before, marked, after, List.append_assoc .., hmarks⟩

/-- A span that is drawn out to the end of what comes next. -/
theorem MarksEnd.extend (h : s.MarksEnd cs) {last : Nat} (hlast : last + 1 = utf8Len (cs ++ more)) :
    ({ s with last } : Span).MarksEnd (cs ++ more) := by
  obtain ⟨before, marked, rfl, hmarks⟩ := h
  rw [List.append_assoc] at hlast ⊢
  refine marksEnd_of_last (fun hnil => ?_) hmarks.first hlast
  exact hmarks.nonempty (List.append_eq_nil_iff.1 hnil).1

/-- The first byte of a span within a text is within the text. -/
theorem Within.byte (h : s.Within cs) : (Span.byte s.first).Within cs := by
  obtain ⟨before, marked, after, rfl, hmarks⟩ := h
  obtain ⟨c, rest, rfl⟩ := List.exists_cons_of_ne_nil hmarks.nonempty
  refine ⟨before, [c], rest ++ after, rfl, ?_⟩
  rw [hmarks.first]
  exact marks_byte before c

theorem within_byte_zero (h : cs ≠ []) : (Span.byte 0).Within cs := by
  obtain ⟨c, rest, rfl⟩ := List.exists_cons_of_ne_nil h
  exact ⟨[], [c], rest, rfl, marks_byte [] c⟩

end Span

/-! ## What the scanner makes -/

/-- The spans of what is read, or that of the error, mark some of the characters. -/
def Token.AllWithin (cs : List Char) : Except SyntaxError (List Token) → Prop
  | .ok ts => ∀ t ∈ ts, t.span.Within cs
  | .error e => e.span.Within cs

namespace Token

theorem AllWithin.cons {read : Except SyntaxError (List Token)} (h : AllWithin cs read)
    (ht : t.span.Within cs) : AllWithin cs (read >>= fun rest => pure (t :: rest)) := by
  cases read with
  | error e => exact h
  | ok rest => exact List.forall_mem_cons.2 ⟨ht, h⟩

theorem AllWithin.append {read later : Except SyntaxError (List Token)} (h : AllWithin cs read)
    (h' : AllWithin cs later) :
    AllWithin cs (read >>= fun ts => later >>= fun rest => pure (ts ++ rest)) := by
  cases read with
  | error e => exact h
  | ok ts =>
      cases later with
      | error e => exact h'
      | ok rest => exact List.forall_mem_append.2 ⟨h, h'⟩

theorem allWithin_tokens {items : List ClassItem} (h : s.Within cs) :
    AllWithin cs (CharClass.tokens s items) := by
  rw [CharClass.tokens]
  split
  · exact h
  · split
    · exact h
    · intro t ht
      obtain ⟨kind, -, rfl⟩ := List.mem_map.1 ht
      exact h

theorem utf8Len_concat (before : List Char) (c : Char) :
    utf8Len (before ++ [c]) = utf8Len before + c.utf8Size := by
  rw [utf8Len_append]
  exact congrArg (utf8Len before + ·) (Nat.zero_add c.utf8Size)

theorem utf8Len_escaped (before : List Char) (c : Char) :
    utf8Len (before ++ ['\\', c]) = utf8Len before + 1 + c.utf8Size := by
  rw [List.append_cons, utf8Len_concat, utf8Len_concat]
  rfl

/-- A character ends with the byte before the next one. -/
theorem last_concat (before : List Char) (c : Char) :
    utf8Len before + c.utf8Size - 1 + 1 = utf8Len (before ++ [c]) := by
  rw [utf8Len_concat]
  exact Nat.sub_add_cancel (Nat.le_add_left_of_le c.utf8Size_pos)

theorem last_escaped (before : List Char) (c : Char) :
    utf8Len before + c.utf8Size + 1 = utf8Len (before ++ ['\\', c]) := by
  rw [utf8Len_escaped, Nat.add_right_comm]

theorem marksEnd_of_mem_none : ∀ k ∈ (none : Option OpenClass), k.span.MarksEnd before := by
  intro k hk
  cases hk

/-- The spans mark what they are read from; that of a class that is still open marks what has
been read of it. -/
theorem allWithin_scanFrom {k : Option OpenClass} (hpos : pos = utf8Len before)
    (hk : ∀ c ∈ k, c.span.MarksEnd before) : AllWithin (before ++ cs) (scanFrom pos k cs) := by
  -- Each case moves the characters that are read behind those that come before.
  fun_induction scanFrom pos k cs generalizing before with
  | case1 => exact fun _ ht => absurd ht List.not_mem_nil
  | case2 pos =>
      subst hpos
      exact ⟨before, ['\\'], [], rfl, Span.marks_byte before '\\'⟩
  | case3 pos c cs ih =>
      subst hpos
      have hspan := Span.marksEnd_of_last (s := ⟨utf8Len before, _⟩) (List.cons_ne_nil _ _) rfl
        (last_escaped before c)
      show AllWithin (before ++ (['\\', c] ++ cs)) _
      rw [← List.append_assoc]
      exact (ih (utf8Len_escaped before c).symm marksEnd_of_mem_none).cons (hspan.within cs)
  | case4 pos cs ih =>
      subst hpos
      rw [List.append_cons]
      refine ih (utf8Len_concat before '[').symm fun k hk => ?_
      obtain rfl := Option.some.inj hk
      exact ⟨before, ['['], rfl, Span.marks_byte before '['⟩
  | case5 pos c cs _ _ _ ih =>
      subst hpos
      have hspan := Span.marksEnd_of_last (s := ⟨utf8Len before, _⟩) (List.cons_ne_nil _ _) rfl
        (last_concat before c)
      rw [List.append_cons]
      exact (ih (utf8Len_concat before c).symm marksEnd_of_mem_none).cons (hspan.within cs)
  | case6 pos k => exact (hk k rfl).within []
  | case7 pos k =>
      subst hpos
      rw [← List.append_nil ['\\'], ← List.append_assoc]
      exact ((hk k rfl).extend (utf8Len_concat before '\\').symm).within []
  | case8 pos k c cs ih =>
      subst hpos
      show AllWithin (before ++ (['\\', c] ++ cs)) _
      rw [← List.append_assoc]
      refine ih (utf8Len_escaped before c).symm fun k' hk' => ?_
      obtain rfl := Option.some.inj hk'
      exact (hk k rfl).extend (last_escaped before c)
  | case9 pos k cs ih =>
      subst hpos
      have hspan := (hk k rfl).extend (utf8Len_concat before ']').symm
      have hrest := ih (utf8Len_concat before ']').symm marksEnd_of_mem_none
      rw [List.append_cons]
      exact (allWithin_tokens (hspan.within cs)).append hrest
  | case10 pos k c cs _ _ _ ih =>
      subst hpos
      rw [List.append_cons]
      refine ih (utf8Len_concat before c).symm fun k' hk' => ?_
      obtain rfl := Option.some.inj hk'
      exact (hk k rfl).extend (last_concat before c)

theorem allWithin_scan (text : String) : AllWithin text.toList (scan text) := by
  have hnil : 0 = utf8Len [] := rfl
  exact allWithin_scanFrom hnil marksEnd_of_mem_none

theorem within_of_scan (h : scan text = .ok ts) : ∀ t ∈ ts, t.span.Within text.toList := by
  have hwithin := allWithin_scan text
  rwa [h] at hwithin

/-! ## What the other stages hand on -/

theorem ComesFrom.within (h : ComesFrom ts u) (hts : ∀ t ∈ ts, t.span.Within cs) :
    u.span.Within cs := by
  obtain ⟨t, ht, ⟨hspan, -⟩ | rfl⟩ := h
  · rw [hspan]
    exact hts t ht
  · exact (hts t ht).byte

end Token

open Token

theorem Postfix.span_lacksOperand (t : Token) : (lacksOperand t).span = t.span := by
  rw [lacksOperand]
  split <;> rfl

namespace Expr

theorem within_of_desugar (hscan : scan text = .ok ts) (hus : desugar ts = .ok us)
    (hu : u ∈ joinOperands us) : u.span.Within text.toList :=
  (comesFrom_of_mem hus hu).within (within_of_scan hscan)

theorem Stages.within (h : Stages text ts us stream) (ht : t ∈ stream) :
    t.span.Within text.toList :=
  within_of_desugar h.scan h.desugar (h.mem_joinOperands ht).1

/-- A syntax error is located within the text. -/
theorem within_of_parseWithLimit (hne : text ≠ "") (h : parseWithLimit limit text = .error e) :
    e.span.Within text.toList := by
  cases parseWithLimit_eq_error_iff.1 h with
  | scan h =>
      have hwithin := allWithin_scan text
      rwa [h] at hwithin
  | desugar hscan h =>
      obtain ⟨t, ht, rfl | rfl⟩ := desugar_eq_error h <;> exact within_of_scan hscan t ht
  | reorder hscan hus h =>
      obtain ⟨t, ht, rfl⟩ := Postfix.ofTokens_eq_error h
      exact within_of_desugar hscan hus ht
  | check hstages h =>
      obtain ⟨t, ht, rfl⟩ := checkLimit_eq_error h
      exact hstages.within ht
  | fold hstages _ h =>
      rcases hstages.toExpr_eq_error h with ⟨t, ht, rfl⟩ | rfl
      · rw [Postfix.span_lacksOperand]
        exact hstages.within ht
      · exact Span.within_byte_zero fun hnil => hne (String.toList_eq_nil_iff.1 hnil)

end Expr

end Regular
