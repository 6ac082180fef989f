import Regular.Proofs.Batch
import Regular.Proofs.Parse.Location
import Regular.Proofs.Parse.Tiling

/-!
# Carets under the part that is to blame

Spans count bytes, carets count characters. Under a span that marks characters of the text,
the carets are these: as many spaces as there are characters before, and one caret for each
that is marked (`Diagnostic.pointer_of_marks`). A span of a single byte inside of a longer
character has no number of characters and is given one caret, which is what it marks.

The span of a syntax error always marks characters of the text, and both ways in which it is
shown, by itself and as an entry of a report, put carets under them (`render_syntaxError`).
-/

namespace Regular

variable {before marked after : List Char} {c : Char} {s : Span} {e : SyntaxError}
  {limit : Option Nat} {text : String}

open String (utf8Len utf8Len_append utf8Len_cons utf8Len_toList)

namespace Diagnostic

/-! ## Characters in bytes -/

theorem charsIn?_append (before after : List Char) :
    charsIn? (utf8Len before) (before ++ after) = some before.length := by
  induction before with
  | nil => cases after <;> rfl
  | cons c before ih =>
      have hpos := c.utf8Size_pos
      rw [List.cons_append, charsIn?, utf8Len_cons, if_neg (by omega), if_neg (by omega),
        Nat.add_sub_cancel, ih]
      rfl

/-- The end of the bytes is inside of a character. -/
theorem charsIn?_inside {n : Nat} (hpos : 0 < n) (h : n < c.utf8Size) (before after : List Char) :
    charsIn? (utf8Len before + n) (before ++ c :: after) = none := by
  induction before with
  | nil =>
      rw [List.nil_append, charsIn?, String.utf8Len_nil, Nat.zero_add, if_neg hpos.ne', if_pos h]
  | cons d before ih =>
      have hd := d.utf8Size_pos
      rw [List.cons_append, charsIn?, utf8Len_cons, if_neg (by omega), if_neg (by omega),
        Nat.add_right_comm, Nat.add_sub_cancel, ih]
      rfl

/-! ## Carets -/

theorem column_of_marks (h : s.Marks before marked)
    (htext : text.toList = before ++ (marked ++ after)) : column text s = before.length := by
  rw [column, htext, h.first, charsIn?_append]
  rfl

theorem width_of_marks (h : s.Marks before marked)
    (htext : text.toList = before ++ (marked ++ after)) : width text s = marked.length := by
  have hfirst : charsIn? s.first text.toList = some before.length := by
    rw [htext, h.first, charsIn?_append]
  have hpos : 1 ≤ marked.length := List.length_pos_of_ne_nil h.nonempty
  rw [width, hfirst]
  by_cases hlast : s.last + 1 = utf8Len (before ++ marked)
  · rw [htext, hlast, ← List.append_assoc, charsIn?_append, List.length_append]
    simp only [Nat.add_sub_cancel_left]
    exact Nat.max_eq_right hpos
  · -- the first byte of a character that has more bytes
    obtain ⟨hbyte, hlen⟩ := h.last.resolve_left hlast
    obtain ⟨c, rfl⟩ := List.length_eq_one_iff.1 hlen
    have hlonger : 1 < c.utf8Size := by
      rw [hbyte, h.first, Token.utf8Len_concat] at hlast
      have hsize := c.utf8Size_pos
      omega
    rw [htext, hbyte, h.first, List.singleton_append, charsIn?_inside Nat.one_pos hlonger]
    rfl

/-- The text, with `width` carets behind `column` spaces in the line below. -/
def carets (text : String) (column width : Nat) : String :=
  "  |" ++ text ++ "\n  |" ++ String.ofList (List.replicate column ' ') ++
    String.ofList (List.replicate width '^') ++ "\n"

theorem pointer_of_marks (h : s.Marks before marked)
    (htext : text.toList = before ++ (marked ++ after)) :
    pointer text s = carets text before.length marked.length := by
  rw [pointer, column_of_marks h htext, width_of_marks h htext]
  rfl

end Diagnostic

open Diagnostic (carets pointer_of_marks)

/-- The one entry about a text that cannot be parsed. -/
theorem entriesFor_of_parse_error {config : Config} {texts : List String} {index : Nat}
    (h : Expr.parseWithLimit config.maxDepth text = .error e) (htext : texts[index]? = some text) :
    (compileAll config texts).2.entriesFor index = [⟨.error, e.summary, index, e.span⟩] := by
  rw [entriesFor_compileAll, htext, Option.bind_some, Config.problem?, compile_of_parse_error h]
  rfl

/-- The error of a text, unless this is empty, is located in it: it begins with a character
and ends within the text. It is shown with as many spaces as there are characters before it
and with carets under at least one character, which go no further than the text, be it by
itself or as the entry of the report on a batch. -/
theorem render_syntaxError (hne : text ≠ "") (h : Expr.parseWithLimit limit text = .error e) :
    e.span.first ≤ e.span.last ∧ e.span.last < text.utf8ByteSize ∧
    (⟨e.span.first⟩ : String.Pos.Raw).IsValid text ∧
    ∃ column width, (∃ before after, text.toList = before ++ after ∧
        utf8Len before = e.span.first ∧ before.length = column) ∧
      1 ≤ width ∧ column + width ≤ text.length ∧
      (CompileError.badSyntax e).diagnostic.render text =
        "Syntax error: " ++ e.summary ++ "!\n" ++ carets text column width ++ ">" ++
          e.message ++ "\n" ∧
      ∀ (config : Config) (texts : List String) (index : Nat), config.maxDepth = limit →
        texts[index]? = some text → compile config text = .error (.badSyntax e) ∧
          ∃ entry : Report.Entry, (compileAll config texts).2.entriesFor index = [entry] ∧
            entry.diagnostic.render text =
              "error: " ++ e.summary ++ "!\n" ++ carets text column width ++ ">" ++
                ("in regex #" ++ toString index) ++ "\n" := by
  obtain ⟨before, marked, after, htext, hmarks⟩ := Expr.within_of_parseWithLimit hne h
  have hpointer := pointer_of_marks hmarks htext
  have hlast : e.span.last < text.utf8ByteSize := by
    rw [← utf8Len_toList, htext, ← List.append_assoc, utf8Len_append]
    exact Nat.lt_add_right _ hmarks.last_lt
  have hlen : before.length + marked.length ≤ text.length := by
    rw [← String.length_toList, htext, List.length_append, List.length_append, ← Nat.add_assoc]
    exact Nat.le_add_right _ _
  have hvalid := Span.isValid_utf8Len htext
  rw [← hmarks.first] at hvalid
  refine ⟨hmarks.le_last, hlast, hvalid, before.length, marked.length,
    ⟨before, _, htext, hmarks.first.symm, rfl⟩, List.length_pos_of_ne_nil hmarks.nonempty, hlen, ?_,
    fun config texts index hlimit hindex => ?_⟩
  · rw [← hpointer]
    rfl
  · rw [← hlimit] at h
    refine ⟨compile_of_parse_error h, _, entriesFor_of_parse_error h hindex, ?_⟩
    rw [← hpointer]
    rfl

/-- The concatenation that lacks an operand is the first of the two bytes of a character. -/
theorem render_syntaxError_byte :
    Expr.parseWithLimit none "()é" = .error (.malformedExpression .emptyGroup ⟨2, 2⟩) ∧
    2 < "()é".utf8ByteSize ∧ (⟨2⟩ : String.Pos.Raw).IsValid "()é" ∧
    (CompileError.badSyntax (.malformedExpression .emptyGroup ⟨2, 2⟩)).diagnostic.render "()é" =
      "Syntax error: Malformed expression, empty group!\n" ++ "  |()é\n" ++ "  |  ^\n" ++
        ">malformed expression at 2: empty group\n" ∧
    ∃ entry : Report.Entry,
      (compileAll { maxDepth := none } ["a", "()é"]).2.entriesFor 1 = [entry] ∧
      entry.diagnostic.render "()é" =
        "error: Malformed expression, empty group!\n" ++ "  |()é\n" ++ "  |  ^\n" ++
          ">in regex #1\n" := by
  have hfail : Expr.parseWithLimit none "()é" = .error (.malformedExpression .emptyGroup ⟨2, 2⟩) :=
    rfl
  obtain ⟨-, hlast, hvalid, column, width, ⟨before, after, htext, hfirst, hcolumn⟩, hwidth, hlen,
    hrender, hentry⟩ := render_syntaxError (by decide) hfail
  obtain ⟨-, entry, hentries, hshown⟩ := hentry { maxDepth := none } ["a", "()é"] 1 rfl rfl
  have htwo : some column = some 2 := by
    rw [← hcolumn, ← Diagnostic.charsIn?_append before after, ← htext, hfirst]
    rfl
  obtain rfl : column = 2 := Option.some.inj htwo
  obtain rfl : width = 1 := Nat.le_antisymm (Nat.le_of_add_le_add_left hlen) hwidth
  exact ⟨hfail, hlast, hvalid, hrender.trans rfl, entry, hentries, hshown.trans rfl⟩

end Regular
