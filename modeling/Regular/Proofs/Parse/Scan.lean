import Mathlib.Data.String.Basic
import Regular.Proofs.Lexeme
import Regular.Proofs.Parse.Fold
import Regular.Token.Scan

/-!
# Reading a text as symbols

The tokens of a text are those of the symbols that spell it: reading symbols takes the
scanner from each to the next and leaves the tokens of each behind
(`Token.scanFrom_symbols`), all of them with the span of the symbol, and a text that can be
read is spelled by some symbols (`Token.spelled_of_scanFrom`). A class is read item by item;
it is closed when its items are known, and only then are they found to be none or out of
order.
-/

namespace Regular

open String (utf8Len utf8Len_append)

variable {pos : Nat} {cs : List Char} {c : Char} {k : OpenClass} {items : List ClassItem}
  {ts : List Token} {ss : List (Symbol Lexeme)} {text : String}

/-- The span of the characters when they begin at byte `pos`. -/
def Span.ofChars (pos : Nat) (cs : List Char) : Span := ⟨pos, pos + utf8Len cs - 1⟩

/-- The tokens that a symbol is read as when it begins at byte `pos`. -/
def Symbol.tokensAt (pos : Nat) (s : Symbol Lexeme) : List Token :=
  s.kinds.map (⟨·, .ofChars pos s.chars⟩)

/-- The tokens that symbols are read as when they begin at byte `pos`. -/
def Symbol.tokensFrom : Nat → List (Symbol Lexeme) → List Token
  | _, [] => []
  | pos, s :: ss => s.tokensAt pos ++ tokensFrom (pos + utf8Len s.chars) ss

namespace Token

@[simp] theorem kinds_tokensAt (pos : Nat) (s : Symbol Lexeme) :
    kinds (s.tokensAt pos) = s.kinds := by
  rw [Symbol.tokensAt, kinds, List.map_map]
  exact List.map_id _

/-! ## One symbol -/

theorem scanFrom_sign (hback : c ≠ '\\') (hopen : c ≠ '[') (pos : Nat) (cs : List Char) :
    scanFrom pos none (c :: cs) =
      ([⟨.ofChar c, .ofChar pos c⟩] ++ ·) <$> scanFrom (pos + c.utf8Size) none cs := by
  rw [scanFrom]
  · rfl
  all_goals intros; contradiction

/-- An item makes the class, which has been read up to byte `last`, longer. -/
theorem scanFrom_item {i : ClassItem} (h : i.Written) (first last : Nat) (read : List ClassItem)
    (cs : List Char) : scanFrom (last + 1) (some ⟨⟨first, last⟩, read⟩) (i.chars ++ cs) =
      scanFrom (last + utf8Len i.chars + 1)
        (some ⟨⟨first, last + utf8Len i.chars⟩, i :: read⟩) cs := by
  obtain ⟨c, escaped⟩ := i
  cases escaped with
  | true =>
      have hlen : utf8Len (ClassItem.chars ⟨c, true⟩) = 1 + c.utf8Size :=
        (Nat.add_comm ..).trans (congrArg (1 + ·) (Nat.zero_add _))
      rw [hlen, ← Nat.add_assoc, Nat.add_right_comm _ _ 1]
      rfl
  | false =>
      obtain ⟨hclose, hback⟩ := h rfl
      have hlen : utf8Len (ClassItem.chars ⟨c, false⟩) = c.utf8Size := Nat.zero_add _
      have hlast : last + 1 + c.utf8Size - 1 = last + c.utf8Size := by omega
      rw [hlen, Nat.add_right_comm, ← hlast]
      show scanFrom (last + 1) (some ⟨⟨first, last⟩, read⟩) (c :: cs) = _
      rw [scanFrom]
      · rfl
      all_goals intros; contradiction

theorem scanFrom_items (h : ∀ i ∈ items, i.Written) (first last : Nat) (read : List ClassItem)
    (cs : List Char) :
    scanFrom (last + 1) (some ⟨⟨first, last⟩, read⟩) (items.flatMap ClassItem.chars ++ cs) =
      scanFrom (last + utf8Len (items.flatMap ClassItem.chars) + 1)
        (some ⟨⟨first, last + utf8Len (items.flatMap ClassItem.chars)⟩, items.reverse ++ read⟩)
        cs := by
  induction items generalizing last read with
  | nil => rfl
  | cons i items ih =>
      obtain ⟨hi, hitems⟩ := List.forall_mem_cons.1 h
      rw [List.flatMap_cons, List.append_assoc, scanFrom_item hi, ih hitems, utf8Len_append,
        List.reverse_cons, List.append_assoc, ← Nat.add_assoc]
      rfl

/-- The span of a class that has not been closed is what has been read of it. -/
theorem scanFrom_open (h : ∀ i ∈ items, i.Written) (pos : Nat) (cs : List Char) :
    scanFrom pos none ('[' :: (items.flatMap ClassItem.chars ++ cs)) =
      scanFrom (pos + utf8Len ('[' :: items.flatMap ClassItem.chars))
        (some ⟨.ofChars pos ('[' :: items.flatMap ClassItem.chars), items.reverse⟩) cs := by
  rw [scanFrom, Span.byte, scanFrom_items h, List.append_nil]
  rfl

/-- Where the closing bracket comes the items are looked at, with the span of the whole
class. -/
theorem scanFrom_closed {chars : List Char} (h : ∀ i ∈ items, i.Written)
    (hchars : chars = '[' :: (items.flatMap ClassItem.chars ++ [']'])) (pos : Nat)
    (cs : List Char) : scanFrom pos none (chars ++ cs) =
      CharClass.tokens (.ofChars pos chars) items >>= fun ts =>
        (ts ++ ·) <$> scanFrom (pos + utf8Len chars) none cs := by
  have hlen : utf8Len chars = utf8Len ('[' :: items.flatMap ClassItem.chars) + 1 := by
    rw [hchars, ← List.cons_append, utf8Len_append]
    rfl
  have happend : chars ++ cs = '[' :: (items.flatMap ClassItem.chars ++ ']' :: cs) := by
    rw [hchars, List.cons_append, List.append_assoc]
    rfl
  rw [happend, scanFrom_open h, scanFrom, List.reverse_reverse, Span.ofChars, Span.ofChars, hlen]
  rfl

/-- The scanner reads a class as the tokens of its atom. -/
theorem scanFrom_class (b : ClassBody) (pos : Nat) (cs : List Char) :
    scanFrom pos none ((Lexeme.charClass b).chars ++ cs) =
      ((Symbol.leaf (.charClass b)).tokensAt pos ++ ·) <$>
        scanFrom (pos + utf8Len (Lexeme.charClass b).chars) none cs := by
  obtain ⟨k, hk, hkinds, -⟩ := Lexeme.exists_charClass b
  have hne : b.items.isEmpty = false := List.isEmpty_eq_false_iff.2 b.nonempty
  have hchars : (Lexeme.charClass b).chars =
      '[' :: (b.items.flatMap ClassItem.chars ++ [']']) := rfl
  rw [scanFrom_closed b.written hchars, CharClass.tokens, hne, hk, Symbol.tokensAt, Symbol.kinds,
    hkinds]
  rfl

theorem ne_of_isPlain {d : Char} (h : isPlain c = true) (hd : isPlain d = false) : c ≠ d := by
  rintro rfl
  rw [hd] at h
  cases h

theorem ofChar_plain (h : isPlain c = true) : TokenKind.ofChar c = .literal c := by
  have hne : ∀ d, isPlain d = false → c ≠ d := fun d => ne_of_isPlain h
  rw [TokenKind.ofChar, if_neg (hne _ (by decide)), if_neg (hne _ (by decide)),
    if_neg (hne _ (by decide)), if_neg (hne _ (by decide)), if_neg (hne _ (by decide)),
    if_neg (hne _ (by decide)), if_neg (hne _ (by decide))]

/-- The scanner reads a symbol as its tokens, which all have its span. -/
theorem scanFrom_symbol (s : Symbol Lexeme) (pos : Nat) (cs : List Char) :
    scanFrom pos none (s.chars ++ cs) =
      (s.tokensAt pos ++ ·) <$> scanFrom (pos + utf8Len s.chars) none cs := by
  have hsign : ∀ c, c ≠ '\\' → c ≠ '[' → s.chars = [c] → s.kinds = [.ofChar c] →
      scanFrom pos none (s.chars ++ cs) =
        (s.tokensAt pos ++ ·) <$> scanFrom (pos + utf8Len s.chars) none cs := by
    intro c hback hopen hchars hkinds
    have hlen : utf8Len [c] = c.utf8Size := Nat.zero_add _
    rw [Symbol.tokensAt, hkinds, hchars, Span.ofChars, hlen]
    exact scanFrom_sign hback hopen pos cs
  cases s with
  | leaf l =>
      cases l with
      | plain c h =>
          refine hsign c (ne_of_isPlain h rfl) (ne_of_isPlain h rfl) rfl ?_
          rw [ofChar_plain h]
          rfl
      | escaped c =>
          have hlen : utf8Len (Symbol.leaf (Lexeme.escaped c)).chars = c.utf8Size + 1 :=
            congrArg (· + 1) (Nat.zero_add _)
          have hnext : pos + (c.utf8Size + 1) = pos + 1 + c.utf8Size := by omega
          have hlast : pos + (c.utf8Size + 1) - 1 = pos + c.utf8Size := by omega
          rw [Symbol.tokensAt, Span.ofChars, hlen, hlast, hnext]
          rfl
      | epsilon => exact hsign epsilonSign (by decide) (by decide) rfl rfl
      | charClass b => exact scanFrom_class b pos cs
  | repetition op => cases op <;> exact hsign _ (by decide) (by decide) rfl rfl
  | union => exact hsign '|' (by decide) (by decide) rfl rfl
  | openParen => exact hsign '(' (by decide) (by decide) rfl rfl
  | closeParen => exact hsign ')' (by decide) (by decide) rfl rfl

/-- Symbols are read as the tokens of each of them, before whatever comes after them. -/
theorem scanFrom_symbols (ss : List (Symbol Lexeme)) (pos : Nat) (cs : List Char) :
    scanFrom pos none (ss.flatMap Symbol.chars ++ cs) =
      (Symbol.tokensFrom pos ss ++ ·) <$>
        scanFrom (pos + utf8Len (ss.flatMap Symbol.chars)) none cs := by
  induction ss generalizing pos with
  | nil => exact (id_map _).symm
  | cons s ss ih =>
      rw [List.flatMap_cons, List.append_assoc, scanFrom_symbol, ih, utf8Len_append,
        ← Nat.add_assoc, Functor.map_map, Symbol.tokensFrom]
      simp only [List.append_assoc]

theorem kinds_tokensFrom (pos : Nat) (ss : List (Symbol Lexeme)) :
    kinds (Symbol.tokensFrom pos ss) = ss.flatMap Symbol.kinds := by
  induction ss generalizing pos with
  | nil => rfl
  | cons s ss ih => rw [Symbol.tokensFrom, kinds_append, kinds_tokensAt, ih, List.flatMap_cons]

theorem scan_of_symbols (h : ss.flatMap Symbol.chars = text.toList) :
    scan text = .ok (Symbol.tokensFrom 0 ss) := by
  have hscan := scanFrom_symbols ss 0 []
  rw [List.append_nil, h] at hscan
  rw [scan, hscan]
  exact congrArg Except.ok (List.append_nil _)

/-! ## All symbols -/

/-- Every character that opens neither a class nor an escape is a symbol. -/
theorem exists_symbol (hback : c ≠ '\\') (hopen : c ≠ '[') :
    ∃ s : Symbol Lexeme, s.chars = [c] := by
  by_cases h : isPlain c = true
  · exact ⟨.leaf (.plain c h), rfl⟩
  · have hmeta : c ∈ metachars ∧ c ≠ ']' := by
      rw [isPlain, Bool.or_eq_true, not_or, Bool.not_eq_true', Bool.not_eq_false, beq_iff_eq] at h
      exact ⟨List.contains_iff_mem.1 h.1, h.2⟩
    simp only [metachars, List.mem_cons, List.not_mem_nil, or_false] at hmeta
    obtain ⟨rfl | rfl | rfl | rfl | rfl | rfl | rfl | rfl | rfl | rfl, hclose⟩ := hmeta
    · exact ⟨.openParen, rfl⟩
    · exact ⟨.closeParen, rfl⟩
    · contradiction
    · contradiction
    · exact ⟨.union, rfl⟩
    · exact ⟨.repetition .star, rfl⟩
    · exact ⟨.repetition .plus, rfl⟩
    · exact ⟨.repetition .question, rfl⟩
    · contradiction
    · exact ⟨.leaf .epsilon, rfl⟩

/-- The characters spell symbols, inside a class behind the items that close it. -/
def Spelled : Option OpenClass → List Char → Prop
  | none, cs => ∃ ss : List (Symbol Lexeme), ss.flatMap Symbol.chars = cs
  | some k, cs => ∃ (b : ClassBody) (items : List ClassItem) (ss : List (Symbol Lexeme)),
    b.items = k.items.reverse ++ items ∧
      items.flatMap ClassItem.chars ++ ']' :: ss.flatMap Symbol.chars = cs

theorem spelled_cons {s : Symbol Lexeme} {ds : List Char} (h : s.chars = ds)
    (hcs : Spelled none cs) : Spelled none (ds ++ cs) := by
  obtain ⟨ss, rfl⟩ := hcs
  exact ⟨s :: ss, by rw [List.flatMap_cons, h]⟩

theorem spelled_class {span : Span} (h : Spelled (some ⟨span, []⟩) cs) :
    Spelled none ('[' :: cs) := by
  obtain ⟨b, items, ss, rfl, rfl⟩ := h
  refine ⟨.leaf (.charClass b) :: ss, ?_⟩
  rw [List.flatMap_cons]
  show '[' :: (b.items.flatMap ClassItem.chars ++ [']']) ++ _ = _
  rw [List.cons_append, List.append_assoc]
  rfl

theorem spelled_item {i : ClassItem} {span : Span}
    (hcs : Spelled (some ⟨span, i :: k.items⟩) cs) : Spelled (some k) (i.chars ++ cs) := by
  obtain ⟨b, items, ss, hb, rfl⟩ := hcs
  refine ⟨b, i :: items, ss, ?_, ?_⟩
  · rw [hb, List.reverse_cons, List.append_assoc]
    rfl
  · rw [List.flatMap_cons, List.append_assoc]

/-- A class that is closed has items, and these are in order. -/
theorem spelled_close {span : Span} (hwritten : ∀ i ∈ k.items, i.Written)
    (htokens : CharClass.tokens span k.items.reverse = .ok ts) (hcs : Spelled none cs) :
    Spelled (some k) (']' :: cs) := by
  obtain ⟨ss, rfl⟩ := hcs
  rw [CharClass.tokens] at htokens
  split at htokens
  · cases htokens
  · next hne =>
    split at htokens
    · cases htokens
    · next hk =>
      refine ⟨⟨k.items.reverse, fun hnil => hne (List.isEmpty_iff.2 hnil), ?_,
        CharClass.ordered_of_ofItems hk⟩, [], ss, (List.append_nil _).symm, rfl⟩
      exact fun i hi => hwritten i (List.mem_reverse.1 hi)

theorem spelled_of_scanFrom {k : Option OpenClass} (h : scanFrom pos k cs = .ok ts)
    (hk : ∀ k' ∈ k, ∀ i ∈ k'.items, i.Written) : Spelled k cs := by
  have hnone : ∀ k' ∈ (none : Option OpenClass), ∀ i ∈ k'.items, i.Written :=
    fun _ hmem => nomatch hmem
  have hadd : ∀ (k : OpenClass) (i : ClassItem) (span : Span), i.Written →
      (∀ k' ∈ some k, ∀ i ∈ k'.items, i.Written) →
      ∀ k' ∈ some (⟨span, i :: k.items⟩ : OpenClass), ∀ i ∈ k'.items, i.Written := by
    intro k i span hi hk k' hk'
    obtain rfl := Option.some.inj hk'
    exact List.forall_mem_cons.2 ⟨hi, hk k rfl⟩
  fun_induction scanFrom pos k cs generalizing ts with
  | case1 pos => exact ⟨[], rfl⟩
  | case2 pos => cases h
  | case3 pos c cs ih =>
      obtain ⟨rest, hrest, -⟩ := bind_eq_ok_iff.1 h
      have hchars : (Symbol.leaf (Lexeme.escaped c)).chars = ['\\', c] := rfl
      exact spelled_cons hchars (ih hrest hnone)
  | case4 pos cs ih =>
      have hempty : ∀ k' ∈ some (⟨.byte pos, []⟩ : OpenClass), ∀ i ∈ k'.items, i.Written := by
        intro k' hk' i hi
        obtain rfl := Option.some.inj hk'
        cases hi
      exact spelled_class (ih h hempty)
  | case5 pos c cs hback hback' hopen ih =>
      obtain ⟨rest, hrest, -⟩ := bind_eq_ok_iff.1 h
      have hne : c ≠ '\\' := by
        intro heq
        cases cs with
        | nil => exact hback heq rfl
        | cons d ds => exact hback' d ds heq rfl
      obtain ⟨s, hs⟩ := exists_symbol hne hopen
      exact spelled_cons hs (ih hrest hnone)
  | case6 pos k => cases h
  | case7 pos k => cases h
  | case8 pos k c cs ih =>
      exact spelled_item (ih h (hadd k ⟨c, true⟩ _ (nomatch ·) hk))
  | case9 pos k cs ih =>
      obtain ⟨ts, htokens, hrest⟩ := bind_eq_ok_iff.1 h
      obtain ⟨rest, hrest, -⟩ := bind_eq_ok_iff.1 hrest
      exact spelled_close (hk k rfl) htokens (ih hrest hnone)
  | case10 pos k c cs hback hback' hclose ih =>
      have hne : c ≠ '\\' := by
        intro heq
        cases cs with
        | nil => exact hback heq rfl
        | cons d ds => exact hback' d ds heq rfl
      exact spelled_item (ih h (hadd k ⟨c, false⟩ _ (fun _ => ⟨hclose, hne⟩) hk))

theorem exists_symbols_of_scan (h : scan text = .ok ts) :
    ∃ ss : List (Symbol Lexeme), ss.flatMap Symbol.chars = text.toList :=
  spelled_of_scanFrom h fun _ hk => nomatch hk

/-- However a text is spelled, its tokens are those of the symbols. -/
theorem kinds_of_scan (h : scan text = .ok ts) (hss : ss.flatMap Symbol.chars = text.toList) :
    kinds ts = ss.flatMap Symbol.kinds := by
  obtain rfl := Except.ok.inj (h.symm.trans (scan_of_symbols hss))
  exact kinds_tokensFrom 0 ss

/-- Concatenation has no sign, so no text is read as one. -/
theorem concat_notMem_scan (h : scan text = .ok ts) : .concat ∉ kinds ts := by
  obtain ⟨ss, hss⟩ := exists_symbols_of_scan h
  rw [kinds_of_scan h hss, List.mem_flatMap]
  rintro ⟨s, -, hs⟩
  cases s with
  | leaf l => exact l.atom.concat_notMem_kinds hs
  | repetition op => cases op <;> exact absurd hs (by decide)
  | _ => exact absurd hs (by decide)

end Token

end Regular
