import Regular.Proofs.Parse.Print

/-!
# What printed tokens tell

Printed with nothing between them, tokens are a text again, and the scanner reads each of
them as what it is printed as (`Token.scan_join`). That is the token itself unless it is a
concatenation, which has no sign and is printed as a dot. So the tokens of an expression,
with repetition and option written out, can be printed and parsed once more, and the tree
does not change (`Token.scan_join_text`).

Streams are printed with a space between two tokens. The scanner reads the spaces as
literals, so the text still tells everything about the kinds but which dots are
concatenations (`Token.listText_eq_iff`). A stream that is folded into a tree has as many
operands as its operators take, so two streams that are printed alike have equally many
literal dots; and where the one has none, they are the same stream, and of the same tree
(`Expr.listText_stream`). With literal dots they need not be: `ab.*` and `a(b.)*` are printed
alike.
-/

namespace Regular

variable {ts us stream stream' : List Token} {t u : Token} {ks ks' : List TokenKind}
  {a b : TokenKind} {e e' : Expr} {es es' : List Expr} {c : Char} {limit limit' : Option Nat}
  {text text' : String}

/-! ## What the spelling of a token is read as -/

namespace TokenKind

/-- The token that the spelling of a token is read as: a concatenation is spelled as a
dot. -/
def asRead : TokenKind → TokenKind
  | concat => literal '.'
  | a => a

theorem asRead_of_ne (h : a ≠ concat) : a.asRead = a := by
  cases a <;> first | rfl | exact absurd rfl h

theorem asRead_ne_concat (a : TokenKind) : a.asRead ≠ concat := by
  cases a <;> exact nofun

theorem spelling_asRead (a : TokenKind) : a.asRead.spelling = a.spelling := by
  cases a <;> rfl

/-- Only a dot can be read as something else than what was printed. -/
theorem eq_of_asRead_eq (h : a.asRead = b.asRead) (ha : a ≠ literal '.') (hb : b ≠ literal '.') :
    a = b := by
  by_cases hac : a = concat
  · subst hac
    by_contra hbc
    rw [asRead_of_ne (Ne.symm hbc)] at h
    exact hb h.symm
  · by_cases hbc : b = concat
    · subst hbc
      rw [asRead_of_ne hac] at h
      exact absurd h ha
    · rwa [asRead_of_ne hac, asRead_of_ne hbc] at h

theorem map_asRead_eq_self_iff : ks.map asRead = ks ↔ concat ∉ ks := by
  constructor
  · intro h hmem
    rw [← h, List.mem_map] at hmem
    obtain ⟨a, -, ha⟩ := hmem
    exact asRead_ne_concat a ha
  · intro h
    refine (List.map_congr_left fun a ha => ?_).trans (List.map_id ks)
    exact asRead_of_ne fun heq => h (heq ▸ ha)

end TokenKind

open TokenKind (asRead)

namespace Token

/-- The spelling of any tokens can be read. -/
theorem scan_spelling_asRead (ks : List TokenKind) : ∃ us,
    scan (String.ofList (ks.flatMap TokenKind.spelling)) = .ok us ∧ kinds us = ks.map asRead := by
  have hchars : (ks.map asRead).flatMap TokenKind.spelling = ks.flatMap TokenKind.spelling := by
    rw [List.flatMap_map]
    exact List.flatMap_congr fun a _ => a.spelling_asRead
  rw [← hchars]
  refine scan_spelling fun hmem => ?_
  obtain ⟨a, -, ha⟩ := List.mem_map.1 hmem
  exact a.asRead_ne_concat ha

theorem toList_text (t : Token) : t.text.toList = t.kind.spelling := String.toList_ofList

theorem join_text (ts : List Token) :
    String.join (ts.map Token.text) = String.ofList ((kinds ts).flatMap TokenKind.spelling) := by
  rw [← String.toList_inj, String.toList_join, String.toList_ofList, kinds, List.flatMap_map,
    List.flatMap_map]
  exact List.flatMap_congr fun t _ => t.toList_text

/-- Tokens that are printed with nothing between them are read back as they are printed. -/
theorem scan_join (ts : List Token) : ∃ us, scan (String.join (ts.map Token.text)) = .ok us ∧
    kinds us = (kinds ts).map asRead := by
  rw [join_text]
  exact scan_spelling_asRead (kinds ts)

/-- The stages behind the tokens see their kinds alone. -/
theorem toExpr_eq_ok_congr (hkinds : kinds ts = kinds us) (hconcat : .concat ∉ kinds us) :
    toExpr ts = .ok e ↔ toExpr us = .ok e := by
  rw [toExpr_eq_ok_iff (hkinds ▸ hconcat), toExpr_eq_ok_iff hconcat, hkinds]

/-- Printed and read once more, the tokens that are written out are parsed as before. -/
theorem parseWithLimit_join (hscan : scan text = .ok ts) (hus : desugar ts = .ok us) :
    Expr.parseWithLimit none (String.join (us.map Token.text)) = .ok e ↔
      Expr.parseWithLimit none text = .ok e := by
  have hconcat : .concat ∉ kinds us := concat_notMem_desugar hus (concat_notMem_scan hscan)
  obtain ⟨us', hscan', hkinds⟩ := scan_join us
  rw [TokenKind.map_asRead_eq_self_iff.2 hconcat] at hkinds
  have hplain : ∀ t ∈ us', t.kind ≠ .question ∧ t.kind ≠ .plus := by
    intro t ht
    have hmem : t.kind ∈ kinds us := hkinds ▸ List.mem_map_of_mem ht
    exact (ne_of_mem_desugar hus t.kind hmem).symm
  rw [Expr.parseWithLimit_none, Expr.parseWithLimit_none, bind_of_ok hscan', bind_of_ok hscan,
    parse, parse, bind_of_ok hus, bind_of_ok (desugar_of_plain hplain)]
  exact toExpr_eq_ok_congr hkinds hconcat

/-- Tokens that are printed with nothing between them can be read, and are read as they were
precisely if there is no concatenation among them. The tokens of an expression, with
repetition and option written out, are parsed as the tree that the expression has; and if it
has none they have none, whatever the limit on the depth. -/
theorem scan_join_text :
    (∀ ts : List Token, (∃ us, scan (String.join (ts.map Token.text)) = .ok us ∧
      kinds us = kinds ts) ↔ .concat ∉ kinds ts) ∧
    ∀ text ts us, scan text = .ok ts → desugar ts = .ok us → ∀ limit e,
      Expr.parseWithLimit limit (String.join (us.map Token.text)) = .ok e ↔
        Expr.parseWithLimit limit text = .ok e := by
  refine ⟨fun ts => ?_, fun text ts us hscan hus limit e => ?_⟩
  · obtain ⟨us, hus, hkinds⟩ := scan_join ts
    rw [← TokenKind.map_asRead_eq_self_iff, ← hkinds]
    constructor
    · rintro ⟨us', hus', heq⟩
      obtain rfl := Except.ok.inj (hus.symm.trans hus')
      exact heq
    · exact fun heq => ⟨us, hus, heq⟩
  · cases limit with
    | none => exact parseWithLimit_join hscan hus
    | some n =>
        rw [Expr.parseWithLimit_some_eq_ok_iff, Expr.parseWithLimit_some_eq_ok_iff,
          parseWithLimit_join hscan hus]

/-- An option, a repetition and a literal that must be escaped. -/
theorem scan_join_text_escaped : Expr.parseWithLimit none "\\*?b+" =
    .ok (.concat (.concat (.union (.literal '*') .epsilon) (.literal 'b')) (.star (.literal 'b'))) ∧
      Expr.parseWithLimit none "(\\*|ε)bb*" = Expr.parseWithLimit none "\\*?b+" := by
  obtain ⟨-, hparse⟩ := scan_join_text
  have htree : Expr.parseWithLimit none "\\*?b+" =
      .ok (.concat (.concat (.union (.literal '*') .epsilon) (.literal 'b'))
        (.star (.literal 'b'))) := rfl
  refine ⟨htree, ?_⟩
  rw [htree]
  exact (hparse "\\*?b+" _ _ rfl rfl none _).2 htree

/-! ## Streams -/

theorem map_intersperse {α β : Type} (f : α → β) (sep : α) (xs : List α) :
    (xs.intersperse sep).map f = (xs.map f).intersperse (f sep) := by
  induction xs with
  | nil => rfl
  | cons x xs ih =>
      cases xs with
      | nil => rfl
      | cons y ys =>
          rw [List.intersperse_cons_cons, List.map_cons, List.map_cons, ih]
          rfl

theorem eq_of_intersperse_eq {α : Type} {sep : α} {xs ys : List α}
    (h : xs.intersperse sep = ys.intersperse sep) : xs = ys := by
  refine List.ext_getElem? fun i => ?_
  have hget : ∀ zs : List α, zs[i]? = (zs.intersperse sep)[2 * i]? :=
    fun _ => List.getElem?_intersperse_two_mul.symm
  rw [hget, h, ← hget]

/-- The text of a stream spells its tokens, as they are read, with literal spaces between
them. -/
theorem toList_listText (ts : List Token) : (listText ts).toList =
    (((kinds ts).map asRead).intersperse (.literal ' ')).flatMap TokenKind.spelling := by
  have hspelled : (ts.map Token.text).map String.toList =
      ((kinds ts).map asRead).map TokenKind.spelling := by
    simp only [kinds, List.map_map]
    refine List.map_congr_left fun t _ => ?_
    exact t.toList_text.trans t.kind.spelling_asRead.symm
  rw [listText, String.toList_intercalate, hspelled, List.flatMap_def, map_intersperse]
  rfl

theorem scan_listText (ts : List Token) : ∃ us, scan (listText ts) = .ok us ∧
    kinds us = ((kinds ts).map asRead).intersperse (.literal ' ') := by
  have hread : ((kinds ts).map asRead).intersperse (.literal ' ') =
      ((kinds ts).intersperse (.literal ' ')).map asRead :=
    (map_intersperse asRead (.literal ' ') (kinds ts)).symm
  rw [← String.ofList_toList (s := listText ts), toList_listText]
  refine scan_spelling fun hmem => ?_
  rw [hread, List.mem_map] at hmem
  obtain ⟨a, -, ha⟩ := hmem
  exact a.asRead_ne_concat ha

/-- Streams are printed alike precisely if they are the same but for dots, which may be
literals or concatenations. -/
theorem listText_eq_iff :
    listText ts = listText us ↔ (kinds ts).map asRead = (kinds us).map asRead := by
  constructor
  · intro h
    obtain ⟨ts', hts, hkinds⟩ := scan_listText ts
    obtain ⟨us', hus, hkinds'⟩ := scan_listText us
    rw [h, hus] at hts
    obtain rfl := Except.ok.inj hts
    exact eq_of_intersperse_eq (hkinds.symm.trans hkinds')
  · intro h
    rw [← String.toList_inj, toList_listText, toList_listText, h]

/-! ## How many dots are literals

Among the dots of a stream the concatenations take operands away and the literals add some,
so their numbers are known from the number of operands that are left. -/

theorem count_cons_eq_add (a b : TokenKind) (ks : List TokenKind) :
    (a :: ks).count b = [a].count b + ks.count b := by
  rw [← List.singleton_append, List.count_append]

theorem weight_asRead (a : TokenKind) :
    a.asRead.weight = a.weight + 2 * ([a].count .concat : Nat) := by
  cases a <;> rfl

theorem weight_add_count_congr (h : (kinds ts).map asRead = (kinds us).map asRead) :
    weight ts + 2 * ((kinds ts).count .concat : Nat) =
      weight us + 2 * ((kinds us).count .concat : Nat) := by
  induction ts generalizing us with
  | nil =>
      obtain rfl := List.map_eq_nil_iff.1 (List.map_eq_nil_iff.1 h.symm)
      rfl
  | cons t ts ih =>
      obtain ⟨a, ks, hus, hread, hrest⟩ := List.map_eq_cons_iff.1 h.symm
      obtain ⟨u, us, rfl, rfl, rfl⟩ := kinds_eq_cons_iff.1 hus
      have hsame : u.kind.asRead = t.kind.asRead := hread
      have hweight := weight_asRead u.kind
      rw [hsame, weight_asRead] at hweight
      have hlater := ih hrest.symm
      rw [weight_cons, weight_cons, kinds_cons, kinds_cons, count_cons_eq_add,
        count_cons_eq_add u.kind]
      omega

theorem count_dot_asRead (a : TokenKind) :
    [a.asRead].count (.literal '.') = [a].count (.literal '.') + [a].count .concat := by
  cases a <;> rfl

theorem count_dot (ks : List TokenKind) :
    (ks.map asRead).count (.literal '.') = ks.count (.literal '.') + ks.count .concat := by
  induction ks with
  | nil => rfl
  | cons a ks ih =>
      rw [List.map_cons, count_cons_eq_add, ih, count_dot_asRead,
        count_cons_eq_add a (.literal '.') ks, count_cons_eq_add a .concat ks]
      omega

/-- Streams that are printed alike and leave equally many operands have equally many literal
dots.
-/
theorem count_dot_eq (h : (kinds ts).map asRead = (kinds us).map asRead)
    (hweight : weight ts = weight us) :
    (kinds ts).count (.literal '.') = (kinds us).count (.literal '.') := by
  have hconcat := weight_add_count_congr h
  have hdot := count_dot (kinds ts)
  rw [h, count_dot] at hdot
  omega

/-- Where no dot is a literal, every dot is a concatenation. -/
theorem eq_of_map_asRead_eq (h : ks.map asRead = ks'.map asRead) (hdot : .literal '.' ∉ ks)
    (hdot' : .literal '.' ∉ ks') : ks = ks' := by
  induction ks generalizing ks' with
  | nil => exact (List.map_eq_nil_iff.1 h.symm).symm
  | cons a ks ih =>
      obtain ⟨b, ks', rfl, hab, htail⟩ := List.map_eq_cons_iff.1 h.symm
      rw [List.mem_cons, not_or] at hdot hdot'
      rw [TokenKind.eq_of_asRead_eq hab (Ne.symm hdot'.1) (Ne.symm hdot.1),
        ih htail.symm hdot.2 hdot'.2]

end Token

/-! ## The fold sees kinds alone -/

namespace Postfix

open Token (kinds kinds_cons)

theorem operandsAfter_congr (hkind : t.kind = u.kind) (h : operandsAfter es t = .ok es') :
    operandsAfter es u = .ok es' := by
  unfold operandsAfter at h ⊢
  rw [← hkind]
  cases ht : t.kind <;> rw [ht] at h <;> simp only at h ⊢
  case literal | epsilon => exact h
  case star | plus | question =>
    obtain ⟨e, below, rfl, rfl⟩ := applyUnary_eq_ok h
    rfl
  case concat | union =>
    obtain ⟨l, r, below, rfl, rfl⟩ := applyBinary_eq_ok h
    rfl
  case openParen | closeParen => cases h

theorem foldlM_congr (hkinds : kinds ts = kinds us)
    (h : ts.foldlM operandsAfter es = .ok es') : us.foldlM operandsAfter es = .ok es' := by
  induction ts generalizing us es with
  | nil =>
      obtain rfl := List.map_eq_nil_iff.1 hkinds.symm
      exact h
  | cons t ts ih =>
      obtain ⟨u, us, rfl, hu, hrest⟩ := Token.kinds_eq_cons_iff.1 hkinds.symm
      rw [List.foldlM_cons] at h ⊢
      obtain ⟨mid, hstep, hlater⟩ := bind_eq_ok_iff.1 h
      rw [bind_of_ok (operandsAfter_congr hu.symm hstep)]
      exact ih hrest.symm hlater

theorem toExpr_congr (hkinds : kinds ts = kinds us) (h : toExpr ts = .ok e) :
    toExpr us = .ok e := by
  rw [toExpr, bind_of_ok (foldlM_congr hkinds (foldlM_of_toExpr h))]
  rfl

/-- A step adds the character that it reads to those of the operands, and loses none. -/
theorem mem_alphabet_operandsAfter (h : operandsAfter es t = .ok es') :
    (∃ e ∈ es', c ∈ e.alphabet) ↔ t.kind = .literal c ∨ ∃ e ∈ es, c ∈ e.alphabet := by
  unfold operandsAfter at h
  cases ht : t.kind <;> rw [ht] at h <;> simp only at h
  case literal d =>
    obtain rfl := Except.ok.inj h
    simp [Expr.alphabet, eq_comm]
  case epsilon =>
    obtain rfl := Except.ok.inj h
    simp [Expr.alphabet]
  case star | plus | question =>
    obtain ⟨e, below, rfl, rfl⟩ := applyUnary_eq_ok h
    simp [Expr.alphabet, Expr.plus, Expr.optional]
  case concat | union =>
    obtain ⟨l, r, below, rfl, rfl⟩ := applyBinary_eq_ok h
    simp [Expr.alphabet, or_assoc, or_left_comm]
  case openParen | closeParen => cases h

theorem mem_alphabet_foldlM (h : ts.foldlM operandsAfter es = .ok es') :
    (∃ e ∈ es', c ∈ e.alphabet) ↔ .literal c ∈ kinds ts ∨ ∃ e ∈ es, c ∈ e.alphabet := by
  induction ts generalizing es with
  | nil =>
      obtain rfl := Except.ok.inj h
      simp
  | cons t ts ih =>
      rw [List.foldlM_cons] at h
      obtain ⟨mid, hstep, hrest⟩ := bind_eq_ok_iff.1 h
      rw [ih hrest, mem_alphabet_operandsAfter hstep, kinds_cons, List.mem_cons,
        eq_comm (b := t.kind)]
      tauto

/-- The characters of a tree are the literals of its stream. -/
theorem mem_alphabet_iff (h : toExpr ts = .ok e) : c ∈ e.alphabet ↔ .literal c ∈ kinds ts := by
  have hfold := mem_alphabet_foldlM (c := c) (foldlM_of_toExpr h)
  simpa using hfold

end Postfix

namespace Expr

/-- A parse that succeeds reports the tokens as they are written out, and then its stream. -/
theorem exists_parseObserved (h : parseWithLimit limit text = .ok e) : ∃ us stream,
    parseObserved limit text = ⟨[.desugared us, .reordered stream], .ok e⟩ ∧
      Postfix.toExpr stream = .ok e := by
  obtain ⟨ts, us, stream, hstages, -, htree⟩ := parseWithLimit_eq_ok_iff.1 h
  have hus : Token.scan text >>= Token.desugar = .ok us := by
    rw [bind_of_ok hstages.scan, hstages.desugar]
  refine ⟨us, stream, ?_, htree⟩
  rw [parseWithLimit, parseObserved] at h
  rw [parseObserved]
  simp only [hus, hstages.reorder] at h ⊢
  rw [h]

/-- The streams of two texts that can be parsed are printed alike precisely if they are the
same but for dots, which may be literals or concatenations. Then both have equally many
literal dots. So if there is no dot in the one tree, then the streams are of the same kinds
and the trees are equal. -/
theorem listText_stream (h : parseWithLimit limit text = .ok e)
    (h' : parseWithLimit limit' text' = .ok e') : ∃ us stream us' stream',
      parseObserved limit text = ⟨[.desugared us, .reordered stream], .ok e⟩ ∧
      parseObserved limit' text' = ⟨[.desugared us', .reordered stream'], .ok e'⟩ ∧
      (Token.listText stream = Token.listText stream' ↔
        (Token.kinds stream).map TokenKind.asRead = (Token.kinds stream').map TokenKind.asRead) ∧
      (Token.listText stream = Token.listText stream' →
        (Token.kinds stream).count (.literal '.') = (Token.kinds stream').count (.literal '.') ∧
        ('.' ∉ e.alphabet → Token.kinds stream = Token.kinds stream' ∧ e = e')) := by
  obtain ⟨us, stream, hobserved, htree⟩ := exists_parseObserved h
  obtain ⟨us', stream', hobserved', htree'⟩ := exists_parseObserved h'
  refine ⟨us, stream, us', stream', hobserved, hobserved', Token.listText_eq_iff, fun htext => ?_⟩
  have hread := Token.listText_eq_iff.1 htext
  have hweight : Token.weight stream = Token.weight stream' :=
    (Token.weight_of_toExpr htree).trans (Token.weight_of_toExpr htree').symm
  have hcount := Token.count_dot_eq hread hweight
  refine ⟨hcount, fun hdot => ?_⟩
  rw [Postfix.mem_alphabet_iff htree] at hdot
  have hdot' : .literal '.' ∉ Token.kinds stream' := by
    rwa [← List.count_eq_zero, ← hcount, List.count_eq_zero]
  have hkinds := Token.eq_of_map_asRead_eq hread hdot hdot'
  have hsame := Postfix.toExpr_congr hkinds htree
  exact ⟨hkinds, Except.ok.inj (hsame.symm.trans htree')⟩

/-- Groups that change nothing do not show, and without dots all else does. With a dot, the
streams of different trees may be printed alike. -/
theorem listText_stream_dot :
    (∃ us stream us' stream',
      parseObserved none "ab" =
        ⟨[.desugared us, .reordered stream], .ok (.concat (.literal 'a') (.literal 'b'))⟩ ∧
      parseObserved none "(a)(b)" =
        ⟨[.desugared us', .reordered stream'], .ok (.concat (.literal 'a') (.literal 'b'))⟩ ∧
      Token.listText stream = Token.listText stream' ∧
      Token.kinds stream = Token.kinds stream') ∧
    ∃ us stream us' stream',
      parseObserved none "ab.*" = ⟨[.desugared us, .reordered stream],
        .ok (.concat (.concat (.literal 'a') (.literal 'b')) (.star (.literal '.')))⟩ ∧
      parseObserved none "a(b.)*" = ⟨[.desugared us', .reordered stream'],
        .ok (.concat (.literal 'a') (.star (.concat (.literal 'b') (.literal '.'))))⟩ ∧
      Token.listText stream = Token.listText stream' ∧
      Token.kinds stream ≠ Token.kinds stream' := by
  constructor
  · have hab : parseWithLimit none "ab" = .ok (.concat (.literal 'a') (.literal 'b')) := rfl
    have hgroups : parseWithLimit none "(a)(b)" = .ok (.concat (.literal 'a') (.literal 'b')) := rfl
    obtain ⟨us, stream, us', stream', hobserved, hobserved', hiff, hsame⟩ :=
      listText_stream hab hgroups
    have hdot : '.' ∉ (Expr.concat (.literal 'a') (.literal 'b')).alphabet := by simp [alphabet]
    have htext : Token.listText stream = Token.listText stream' := by
      cases hobserved
      cases hobserved'
      exact hiff.2 rfl
    exact ⟨us, stream, us', stream', hobserved, hobserved', htext, ((hsame htext).2 hdot).1⟩
  · have hlast : parseWithLimit none "ab.*" =
        .ok (.concat (.concat (.literal 'a') (.literal 'b')) (.star (.literal '.'))) := rfl
    have hgroup : parseWithLimit none "a(b.)*" =
        .ok (.concat (.literal 'a') (.star (.concat (.literal 'b') (.literal '.')))) := rfl
    obtain ⟨us, stream, us', stream', hobserved, hobserved', hiff, -⟩ :=
      listText_stream hlast hgroup
    refine ⟨us, stream, us', stream', hobserved, hobserved', ?_⟩
    cases hobserved
    cases hobserved'
    exact ⟨hiff.2 rfl, by decide⟩

end Expr

end Regular
