import Regular.Proofs.Parse.Scan

/-!
# What a character class is read as

The characters behind an opening bracket are items up to the first closing bracket that is
not escaped (`ClassItem.beforeClose`), and the items are parts, single ones and ranges
(`ClassPart.ofItems`). Everything about the tokens of the class can be read off its parts
(`Token.scan_class`): whether there are any, which characters they list, and whether the sign
for the empty string is among them.

The scanner and `CharClass.ofItems` know of no parts. What they make of the items is known in
terms of `ClassItem.Ordered` and `ClassItem.languageOf` already, so here these two are
expressed by the parts: a character is a member if it is, as a word, in the language of some
part.
-/

namespace Regular

open String (utf8Len utf8Len_append)

variable {items : List ClassItem} {cs : List Char} {c : Char} {w : List Char} {text : String}

/-! ## From characters to items -/

namespace ClassItem

/-- The items up to the first closing bracket that is not escaped, and what comes after it,
if it is there at all. A backslash at the very end escapes nothing and is no item. -/
def beforeClose : List Char → List ClassItem × Option (List Char)
  | [] | ['\\'] => ([], none)
  | '\\' :: c :: cs => (⟨c, true⟩ :: (beforeClose cs).1, (beforeClose cs).2)
  | ']' :: cs => ([], some cs)
  | c :: cs => (⟨c, false⟩ :: (beforeClose cs).1, (beforeClose cs).2)

theorem written_beforeClose (cs : List Char) : ∀ i ∈ (beforeClose cs).1, i.Written := by
  fun_induction beforeClose cs with
  | case1 => exact fun i hi => absurd hi List.not_mem_nil
  | case2 => exact fun i hi => absurd hi List.not_mem_nil
  | case3 c cs ih => exact List.forall_mem_cons.2 ⟨fun h => Bool.noConfusion h, ih⟩
  | case4 cs => exact fun i hi => absurd hi List.not_mem_nil
  | case5 c cs hend hback hclose ih =>
      refine List.forall_mem_cons.2 ⟨fun _ => ⟨hclose, fun heq => ?_⟩, ih⟩
      cases cs with
      | nil => exact hend heq rfl
      | cons d ds => exact hback d ds heq rfl

/-- Behind the items comes a closing bracket or, if there is none, at most a backslash. -/
theorem exists_tail_beforeClose (cs : List Char) :
    ∃ tail, (beforeClose cs).1.flatMap chars ++ tail = cs ∧
      match (beforeClose cs).2 with
      | some rest => tail = ']' :: rest
      | none => tail = [] ∨ tail = ['\\'] := by
  fun_induction beforeClose cs with
  | case1 => exact ⟨[], rfl, Or.inl rfl⟩
  | case2 => exact ⟨['\\'], rfl, Or.inr rfl⟩
  | case3 c cs ih =>
      obtain ⟨tail, hcs, htail⟩ := ih
      exact ⟨tail, congrArg ('\\' :: c :: ·) hcs, htail⟩
  | case4 cs => exact ⟨']' :: cs, rfl, rfl⟩
  | case5 c cs _ _ _ ih =>
      obtain ⟨tail, hcs, htail⟩ := ih
      exact ⟨tail, congrArg (c :: ·) hcs, htail⟩

theorem isEpsilon_eq_false (i : ClassItem) (h : i.isDash = true) : i.isEpsilon = false := by
  rw [isDash, Bool.and_eq_true, beq_iff_eq] at h
  rw [isEpsilon, h.1]
  rfl

end ClassItem

/-! ## From items to parts -/

/-- A part of a class: an item by itself, or a range between two items. -/
inductive ClassPart where
  | single (i : ClassItem)
  | range (low high : ClassItem)
deriving DecidableEq, Repr

namespace ClassPart

/-- The parts of a class, read from the left: an item with an unescaped dash and a further
item behind it begins a range, and any other item is a part by itself. -/
def ofItems : List ClassItem → List ClassPart
  | low :: dash :: high :: rest =>
    if dash.isDash then range low high :: ofItems rest
    else single low :: ofItems (dash :: high :: rest)
  | [i, j] => [single i, single j]
  | [i] => [single i]
  | [] => []

/-- A range is faulty if the sign for the empty string bounds it or it is the wrong way
round. -/
def IsFaulty : ClassPart → Prop
  | single _ => False
  | range low high => low.isEpsilon = true ∨ high.isEpsilon = true ∨ high.char < low.char

instance : DecidablePred IsFaulty
  | single _ => inferInstanceAs (Decidable False)
  | range _ _ => inferInstanceAs (Decidable (_ ∨ _ ∨ _))

/-- The characters that the part lists. -/
def Lists : ClassPart → Char → Prop
  | single i, c => i.isEpsilon = false ∧ c = i.char
  | range low high, c => low.char ≤ c ∧ c ≤ high.char

def language : ClassPart → Language Char
  | single i => i.language
  | range low high => ClassItem.between low high

theorem ordered_iff : ClassItem.Ordered items ↔ ∀ p ∈ ofItems items, ¬p.IsFaulty := by
  fun_induction ofItems items with
  | case1 low dash high rest hdash ih =>
      rw [ClassItem.Ordered, if_pos hdash, ih, List.forall_mem_cons]
      simp only [IsFaulty, not_or, Bool.not_eq_true, Char.not_lt, and_assoc]
  | case2 low dash high rest hdash ih =>
      rw [ClassItem.Ordered, if_neg hdash, ih, List.forall_mem_cons]
      exact (and_iff_right not_false).symm
  | case3 i j => simp [ClassItem.Ordered, IsFaulty]
  | case4 i => simp [ClassItem.Ordered, IsFaulty]
  | case5 => simp [ClassItem.Ordered]

theorem mem_languageOf_iff :
    w ∈ ClassItem.languageOf items ↔ ∃ p ∈ ofItems items, w ∈ p.language := by
  fun_induction ofItems items with
  | case1 low dash high rest hdash ih =>
      rw [ClassItem.languageOf, if_pos hdash, Language.mem_add, ih, List.exists_mem_cons_iff]
      rfl
  | case2 low dash high rest hdash ih =>
      rw [ClassItem.languageOf, if_neg hdash, Language.mem_add, ih, List.exists_mem_cons_iff]
      rfl
  | case3 i j => simp [ClassItem.languageOf, language, Language.mem_add]
  | case4 i => simp [ClassItem.languageOf, language]
  | case5 => simp [ClassItem.languageOf]

theorem singleton_mem_language_iff {p : ClassPart} : [c] ∈ p.language ↔ p.Lists c := by
  cases p with
  | single i =>
      rw [language, Lists, ClassItem.language]
      split
      · next h =>
        rw [Language.mem_one, h]
        exact iff_of_false (List.cons_ne_nil c []) fun hc => Bool.noConfusion hc.1
      · next h =>
        have hmem : [c] ∈ ({[i.char]} : Language Char) ↔ [c] = [i.char] := Iff.rfl
        rw [hmem, List.singleton_inj]
        exact (and_iff_right (Bool.eq_false_iff.2 h)).symm
  | range low high =>
      constructor
      · rintro ⟨d, hlow, hhigh, heq⟩
        obtain rfl := List.singleton_inj.1 heq
        exact ⟨hlow, hhigh⟩
      · rintro ⟨hlow, hhigh⟩
        exact ⟨c, hlow, hhigh, rfl⟩

theorem nil_mem_language_iff {p : ClassPart} :
    [] ∈ p.language ↔ ∃ i, p = single i ∧ i.isEpsilon = true := by
  cases p with
  | single i =>
      rw [language, ClassItem.language]
      split
      · next h => exact iff_of_true Language.nil_mem_one ⟨i, rfl, h⟩
      · next h =>
        constructor
        · exact fun heq => absurd (heq : [] = [i.char]) (List.cons_ne_nil _ _).symm
        · rintro ⟨j, heq, hj⟩
          cases heq
          exact absurd hj h
  | range low high =>
      constructor
      · rintro ⟨d, -, -, heq⟩
        cases heq
      · rintro ⟨i, heq, -⟩
        cases heq

/-- Where no range is faulty, the sign for the empty string is neither a bound nor a dash, so
it is a part by itself. -/
theorem exists_isEpsilon_iff (h : ∀ p ∈ ofItems items, ¬p.IsFaulty) :
    (∃ i ∈ items, i.isEpsilon = true) ↔ ∃ i, single i ∈ ofItems items ∧ i.isEpsilon = true := by
  have hsingle : ∀ (i : ClassItem) (ps : List ClassPart),
      (∃ j, single j ∈ single i :: ps ∧ j.isEpsilon = true) ↔
        i.isEpsilon = true ∨ ∃ j, single j ∈ ps ∧ j.isEpsilon = true := by
    intro i ps
    simp only [List.mem_cons, single.injEq, or_and_right, exists_or, exists_eq_left]
  fun_induction ofItems items with
  | case1 low dash high rest hdash ih =>
      obtain ⟨hrange, hrest⟩ := List.forall_mem_cons.1 h
      rw [IsFaulty, not_or, not_or] at hrange
      have hnot := Bool.not_eq_true _ ▸ dash.isEpsilon_eq_false hdash
      rw [List.exists_mem_cons_iff, or_iff_right hrange.1, List.exists_mem_cons_iff,
        or_iff_right hnot, List.exists_mem_cons_iff, or_iff_right hrange.2.1]
      refine (ih hrest).trans ?_
      simp only [List.mem_cons, reduceCtorEq, false_or]
  | case2 low dash high rest hdash ih =>
      rw [List.exists_mem_cons_iff, hsingle]
      exact or_congr_right (ih (List.forall_mem_cons.1 h).2)
  | case3 i j => simp
  | case4 i => simp
  | case5 => simp

end ClassPart

/-! ## From parts to tokens -/

namespace CharClass

variable {k : CharClass} {span : Span}

theorem exists_ofItems_iff :
    (∃ k, ofItems items = .ok k) ↔ ∀ p ∈ ClassPart.ofItems items, ¬p.IsFaulty := by
  rw [← ClassPart.ordered_iff]
  constructor
  · rintro ⟨k, hk⟩
    exact ordered_of_ofItems hk
  · intro h
    obtain ⟨k, hk, -⟩ := exists_ofItems h
    exact ⟨k, hk⟩

theorem mem_language_iff_exists_part (h : ofItems items = .ok k) :
    w ∈ k.language ↔ ∃ p ∈ ClassPart.ofItems items, w ∈ p.language := by
  obtain ⟨k', hk', hlang⟩ := exists_ofItems (ordered_of_ofItems h)
  obtain rfl := Except.ok.inj (h.symm.trans hk')
  rw [hlang, ClassPart.mem_languageOf_iff]

theorem mem_members_iff (h : ofItems items = .ok k) :
    c ∈ k.members ↔ ∃ p ∈ ClassPart.ofItems items, p.Lists c := by
  have hword : c ∈ k.members ↔ [c] ∈ k.language := by
    rw [mem_language]
    simp
  rw [hword, mem_language_iff_exists_part h]
  simp only [ClassPart.singleton_mem_language_iff]

theorem hasEpsilon_iff (h : ofItems items = .ok k) :
    k.hasEpsilon = true ↔ ∃ i, .single i ∈ ClassPart.ofItems items ∧ i.isEpsilon = true := by
  have hword : k.hasEpsilon = true ↔ [] ∈ k.language := by
    rw [mem_language]
    simp
  rw [hword, mem_language_iff_exists_part h]
  simp only [ClassPart.nil_mem_language_iff]
  constructor
  · rintro ⟨p, hp, i, rfl, hi⟩
    exact ⟨i, hp, hi⟩
  · rintro ⟨i, hp, hi⟩
    exact ⟨_, hp, i, rfl, hi⟩

/-- A class of one character and nothing else is that character. -/
theorem kinds_eq (k : CharClass) :
    k.kinds =
      if k.members.toList.length = 1 ∧ k.hasEpsilon = false then k.members.toList.map .literal
      else .openParen :: (k.alternatives.intersperse .union ++ [.closeParen]) := by
  obtain ⟨⟨ms, hms⟩, eps⟩ := k
  match ms, eps with
  | [], false => rfl
  | [], true => rfl
  | [c], false => rfl
  | [c], true => rfl
  | c :: d :: ms, eps => rfl

/-- Where there is an item and no range is faulty, there are tokens. The parts say which
characters they list, and the items whether the empty string is among them. -/
theorem exists_tokens_eq_ok
    (h : ¬(items = [] ∨ ∃ p ∈ ClassPart.ofItems items, p.IsFaulty)) :
    ∃ (ms : List Char) (eps : Bool), ms.Pairwise (· < ·) ∧
      (∀ c, c ∈ ms ↔ ∃ p ∈ ClassPart.ofItems items, p.Lists c) ∧
      (eps = true ↔ ∃ i, .single i ∈ ClassPart.ofItems items ∧ i.isEpsilon = true) ∧
      (eps = true ↔ ∃ i ∈ items, i.isEpsilon = true) ∧
      tokens span items = .ok (List.map (⟨·, span⟩)
        (if ms.length = 1 ∧ eps = false then ms.map TokenKind.literal
        else .openParen :: ((ms.map TokenKind.literal ++
          if eps then [TokenKind.epsilon] else []).intersperse .union ++
            [TokenKind.closeParen]))) := by
  obtain ⟨hne, hfine⟩ := not_or.1 h
  have hparts : ∀ p ∈ ClassPart.ofItems items, ¬p.IsFaulty := fun p hp hp' => hfine ⟨p, hp, hp'⟩
  obtain ⟨k, hk⟩ := exists_ofItems_iff.2 hparts
  refine ⟨k.members.toList, k.hasEpsilon, k.members.ascending, fun c => mem_members_iff hk,
    hasEpsilon_iff hk, ?_, ?_⟩
  · exact (hasEpsilon_iff hk).trans (ClassPart.exists_isEpsilon_iff hparts).symm
  · rw [tokens, List.isEmpty_eq_false_iff.2 hne, hk]
    exact congrArg (fun kinds => Except.ok (kinds.map (Token.mk · span))) k.kinds_eq

theorem exists_tokens_eq_error (h : items = [] ∨ ∃ p ∈ ClassPart.ofItems items, p.IsFaulty) :
    ∃ fault, tokens span items = .error (.malformedClass fault span) := by
  rcases h with rfl | ⟨p, hp, hfault⟩
  · exact ⟨.empty, rfl⟩
  · rw [tokens]
    split
    · exact ⟨.empty, rfl⟩
    · split
      · exact ⟨_, rfl⟩
      · next k hk => exact absurd hfault (exists_ofItems_iff.1 ⟨k, hk⟩ p hp)

end CharClass

namespace Token

theorem scanFrom_unclosed {tail : List Char} (h : ∀ i ∈ items, i.Written)
    (htail : tail = [] ∨ tail = ['\\']) (pos : Nat) :
    scanFrom pos none ('[' :: (items.flatMap ClassItem.chars ++ tail)) =
      .error (.malformedClass .unclosed
        (.ofChars pos ('[' :: (items.flatMap ClassItem.chars ++ tail)))) := by
  rw [scanFrom_open h]
  rcases htail with rfl | rfl
  · rw [List.append_nil]
    rfl
  · have hlen : utf8Len ('[' :: items.flatMap ClassItem.chars ++ ['\\']) =
        utf8Len ('[' :: items.flatMap ClassItem.chars) + 1 := by
      rw [utf8Len_append]
      rfl
    rw [← List.cons_append, Span.ofChars, Span.ofChars, hlen]
    rfl

/-- A class at the end of a text is all that there is to be read. -/
theorem scanFrom_closed_nil {chars : List Char} (h : ∀ i ∈ items, i.Written)
    (hchars : chars = '[' :: (items.flatMap ClassItem.chars ++ [']'])) (pos : Nat) :
    scanFrom pos none chars = CharClass.tokens (.ofChars pos chars) items := by
  have hscan := scanFrom_closed h hchars pos []
  rw [List.append_nil] at hscan
  rw [hscan]
  cases CharClass.tokens (.ofChars pos chars) items with
  | error e => rfl
  | ok ts => exact congrArg Except.ok (List.append_nil ts)

theorem ofChars_toList (text : String) :
    Span.ofChars 0 text.toList = .whole text.utf8ByteSize := by
  rw [Span.ofChars, String.utf8Len_toList, Nat.zero_add]
  rfl

theorem scan_unclosed (htext : text.toList = '[' :: cs) (h : (ClassItem.beforeClose cs).2 = none) :
    scan text = .error (.malformedClass .unclosed (.whole text.utf8ByteSize)) := by
  obtain ⟨tail, hcs, htail⟩ := ClassItem.exists_tail_beforeClose cs
  rw [h] at htail
  have hscan := scanFrom_unclosed (ClassItem.written_beforeClose cs) htail 0
  rwa [hcs, ← htext, ofChars_toList] at hscan

theorem scan_closed (htext : text.toList = '[' :: cs)
    (h : (ClassItem.beforeClose cs).2 = some []) :
    scan text =
      CharClass.tokens (.whole text.utf8ByteSize) (ClassItem.beforeClose cs).1 := by
  obtain ⟨tail, hcs, htail⟩ := ClassItem.exists_tail_beforeClose cs
  rw [h] at htail
  obtain rfl := htail
  have hscan := scanFrom_closed_nil (ClassItem.written_beforeClose cs) rfl 0
  rwa [hcs, ← htext, ofChars_toList] at hscan

/-- What a text is read as that is a single class, closed or not: the items before the
closing bracket and their parts say whether there are tokens and which. -/
theorem scan_class {text : String} {cs : List Char} (htext : text.toList = '[' :: cs)
    (hend : ∀ rest, (ClassItem.beforeClose cs).2 = some rest → rest = []) :
    let items := (ClassItem.beforeClose cs).1
    let parts := ClassPart.ofItems items
    let span := Span.whole text.utf8ByteSize
    ((∃ fault, scan text = .error (.malformedClass fault span)) ↔
      (ClassItem.beforeClose cs).2 = none ∨ items = [] ∨ ∃ p ∈ parts, p.IsFaulty) ∧
    (¬((ClassItem.beforeClose cs).2 = none ∨ items = [] ∨ ∃ p ∈ parts, p.IsFaulty) →
      ∃ (ms : List Char) (eps : Bool), ms.Pairwise (· < ·) ∧
        (∀ c, c ∈ ms ↔ ∃ p ∈ parts, p.Lists c) ∧
        (eps = true ↔ ∃ i, .single i ∈ parts ∧ i.isEpsilon = true) ∧
        (eps = true ↔ ∃ i ∈ items, i.isEpsilon = true) ∧
        scan text = .ok (List.map (⟨·, span⟩)
          (if ms.length = 1 ∧ eps = false then ms.map TokenKind.literal
          else .openParen :: ((ms.map TokenKind.literal ++
            if eps then [TokenKind.epsilon] else []).intersperse .union ++
              [TokenKind.closeParen])))) := by
  intro items parts span
  cases hclose : (ClassItem.beforeClose cs).2 with
  | none =>
      have hscan := scan_unclosed htext hclose
      exact ⟨iff_of_true ⟨_, hscan⟩ (Or.inl rfl), fun hfine => absurd (Or.inl rfl) hfine⟩
  | some rest =>
      obtain rfl := hend rest hclose
      rw [scan_closed htext hclose]
      have hfaulty : items = [] ∨ (∃ p ∈ parts, p.IsFaulty) ↔ some [] = none ∨ items = [] ∨
          ∃ p ∈ parts, p.IsFaulty :=
        (or_iff_right (Option.some_ne_none ([] : List Char))).symm
      rw [← hfaulty]
      refine ⟨⟨fun ⟨fault, herr⟩ => ?_, CharClass.exists_tokens_eq_error⟩,
        CharClass.exists_tokens_eq_ok⟩
      by_contra hfine
      obtain ⟨ms, eps, -, -, -, -, hok⟩ := CharClass.exists_tokens_eq_ok hfine
      cases hok.symm.trans herr

/-- A dash may be a bound, as in `[a--]`, which is a range the wrong way round; behind a
range it is a part by itself, as in `[\]-a-zε]`, whose other parts are a range from an
escaped bracket, a letter and the empty string. -/
theorem scan_class_dashes :
    (∃ fault, scan "[a--]" = .error (.malformedClass fault ⟨0, 4⟩)) ∧
    ∃ ms : List Char, ms.Pairwise (· < ·) ∧
      (∀ c, c ∈ ms ↔ (']' ≤ c ∧ c ≤ 'a') ∨ c = '-' ∨ c = 'z') ∧
      scan "[\\]-a-zε]" = .ok (List.map (⟨·, ⟨0, 9⟩⟩) (TokenKind.openParen ::
        ((ms.map TokenKind.literal ++ [TokenKind.epsilon]).intersperse .union ++
          [TokenKind.closeParen]))) := by
  constructor
  · have hend : ∀ rest, (ClassItem.beforeClose ['a', '-', '-', ']']).2 = some rest → rest = [] :=
      fun _ h => (Option.some.inj h).symm
    have htext : "[a--]".toList = ['[', 'a', '-', '-', ']'] := rfl
    exact (scan_class htext hend).1.2 (Or.inr (Or.inr ⟨.range ⟨'a', false⟩ ⟨'-', false⟩,
      by decide, Or.inr (Or.inr (by decide))⟩))
  · have hend : ∀ rest, (ClassItem.beforeClose ['\\', ']', '-', 'a', '-', 'z', 'ε', ']']).2 =
        some rest → rest = [] :=
      fun _ h => (Option.some.inj h).symm
    have hparts : ClassPart.ofItems
        (ClassItem.beforeClose ['\\', ']', '-', 'a', '-', 'z', 'ε', ']']).1 =
          [.range ⟨']', true⟩ ⟨'a', false⟩, .single ⟨'-', false⟩, .single ⟨'z', false⟩,
            .single ⟨'ε', false⟩] := rfl
    have htext : "[\\]-a-zε]".toList = ['[', '\\', ']', '-', 'a', '-', 'z', 'ε', ']'] := rfl
    have hscan := (scan_class htext hend).2
    rw [hparts] at hscan
    obtain ⟨ms, eps, hms, hmem, heps, -, hok⟩ := hscan (by decide)
    obtain rfl := heps.2 ⟨⟨'ε', false⟩, by decide, rfl⟩
    refine ⟨ms, hms, fun c => ?_, ?_⟩
    · rw [hmem]
      simp [ClassPart.Lists, ClassItem.isEpsilon, epsilonSign]
    · rw [hok, if_neg fun h => Bool.noConfusion h.2]
      rfl

end Token

end Regular
