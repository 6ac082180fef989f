import Regular.Proofs.Parse.Depth

/-!
# Trees are printed as what they are parsed from

A tree is printed as tokens that spell a phrase whose plain tree it is. The phrase is of the
category that the tree's outermost operator belongs to (`Expr.category`), and parentheses
stand around a child precisely where the grammar wants a category that binds more tightly
(`Token.Spells.parenthesize`). The spelling of tokens is scanned as just these tokens, since
whatever would be read as something else is escaped (`Token.scan_spelling`). With no `+` and
no `?` among them nothing is written out (`Token.desugar_of_plain`), so what the parser makes
of the text is the tree (`Expr.parse_text`).
-/

namespace Regular

variable {k k' : Category} {ts : List Token} {ks : List TokenKind} {a : TokenKind} {e : Expr}

/-! ## A printed tree spells a phrase -/

/-- How tightly the operators of a phrase bind at least, outside of groups, on the scale of
`Expr.binding`. -/
def Category.binding : Category → Nat
  | union => 0
  | concat => 1
  | factor => 2
  | atom => 3

/-- The category that the outermost operator belongs to. -/
def Expr.category : Expr → Category
  | union _ _ => .union
  | concat _ _ => .concat
  | star _ => .factor
  | literal _ | epsilon => .atom

theorem Expr.binding_category (e : Expr) : e.category.binding = e.binding := by
  cases e <;> rfl

namespace Token

/-- What binds tightly enough for a category belongs to it. -/
theorem Spells.weaken (h : Spells k ts e) (hle : k'.binding ≤ k.binding) : Spells k' ts e := by
  have hfactor : Spells .atom ts e → Spells .factor ts e := fun ⟨p, hp, he⟩ => ⟨.ofAtom p, hp, he⟩
  cases k with
  | union =>
      cases k' with
      | union => exact h
      | _ => exact absurd hle (by decide)
  | concat =>
      cases k' with
      | union => exact h.ofConcat
      | concat => exact h
      | _ => exact absurd hle (by decide)
  | factor =>
      cases k' with
      | union => exact h.ofFactor.ofConcat
      | concat => exact h.ofFactor
      | factor => exact h
      | atom => exact absurd hle (by decide)
  | atom =>
      cases k' with
      | union => exact (hfactor h).ofFactor.ofConcat
      | concat => exact (hfactor h).ofFactor
      | factor => exact hfactor h
      | atom => exact h

/-- Where a category is wanted that binds more tightly than the tree, the tree is a group. -/
theorem Spells.parenthesize (h : ∀ ts, kinds ts = e.kinds → Spells e.category ts e)
    (hts : kinds ts = Expr.parenthesize (e.binding < k.binding) e.kinds) : Spells k ts e := by
  by_cases hlt : e.binding < k.binding
  · rw [Expr.parenthesize, if_pos (decide_eq_true hlt)] at hts
    obtain ⟨t, tr, rfl, ht, hr⟩ := kinds_eq_cons_iff.1 hts
    obtain ⟨tu, tr, rfl, hu, hr⟩ := kinds_eq_append_iff.1 hr
    obtain ⟨t', rfl, ht'⟩ := kinds_eq_singleton_iff.1 hr
    have hinner : Spells .union tu e := (h tu hu).weaken (Nat.zero_le _)
    obtain ⟨p, hp, he⟩ := hinner
    have hgroup : Spells .atom (t :: (tu ++ [t'])) e := by
      refine ⟨.group p, ?_, he⟩
      rw [Phrase.kinds_group, kinds_cons, kinds_append, hp, ht, kinds_cons, ht', kinds_nil]
    exact hgroup.weaken (by cases k <;> decide)
  · rw [Expr.parenthesize, if_neg (by simpa using hlt)] at hts
    refine (h ts hts).weaken ?_
    rw [e.binding_category]
    exact Nat.le_of_not_lt hlt

theorem spells_kinds (h : kinds ts = e.kinds) : Spells e.category ts e := by
  induction e generalizing ts with
  | literal c => exact ⟨.leaf (.literal c), h, rfl⟩
  | epsilon => exact ⟨.leaf .epsilon, h, rfl⟩
  | concat l r ihl ihr =>
      obtain ⟨tl, tr, rfl, hl, hr⟩ := kinds_eq_append_iff.1 h
      have hl' : Spells .concat tl l := .parenthesize (fun _ => ihl) hl
      have hr' : Spells .factor tr r := .parenthesize (fun _ => ihr) hr
      exact hl'.juxtapose hr'
  | union l r ihl ihr =>
      obtain ⟨tl, tr, rfl, hl, hr⟩ := kinds_eq_append_iff.1 h
      obtain ⟨t, tr, rfl, ht, hr⟩ := kinds_eq_cons_iff.1 hr
      have hl' : Spells .union tl l := (ihl hl).weaken (Nat.zero_le _)
      have hr' : Spells .concat tr r := .parenthesize (fun _ => ihr) hr
      exact hl'.alternate ht hr'
  | star e ih =>
      obtain ⟨te, tr, rfl, he, hr⟩ := kinds_eq_append_iff.1 h
      obtain ⟨t, rfl, ht⟩ := kinds_eq_singleton_iff.1 hr
      have hatom : Spells .atom te e := .parenthesize (fun _ => ih) he
      have hfactor : Spells .factor te e := hatom.weaken (by decide)
      exact hfactor.star ht

end Token

/-! ## The spelling of tokens -/

/-- Any token but a concatenation is spelled as a symbol that is read as that token. -/
theorem TokenKind.exists_spelling (h : a ≠ .concat) :
    ∃ s : Symbol Lexeme, s.chars = a.spelling ∧ s.kinds = [a] := by
  cases a with
  | literal c =>
      by_cases hc : isMetachar c = true
      · exact ⟨.leaf (.escaped c), (if_pos hc).symm, rfl⟩
      · have hplain : isPlain c = true := by simp [isPlain, hc]
        exact ⟨.leaf (.plain c hplain), (if_neg hc).symm, rfl⟩
  | epsilon => exact ⟨.leaf .epsilon, rfl, rfl⟩
  | union => exact ⟨.union, rfl, rfl⟩
  | concat => exact absurd rfl h
  | star => exact ⟨.repetition .star, rfl, rfl⟩
  | plus => exact ⟨.repetition .plus, rfl, rfl⟩
  | question => exact ⟨.repetition .question, rfl, rfl⟩
  | openParen => exact ⟨.openParen, rfl, rfl⟩
  | closeParen => exact ⟨.closeParen, rfl, rfl⟩

namespace Token

theorem exists_spelling (h : .concat ∉ ks) : ∃ ss : List (Symbol Lexeme),
    ss.flatMap Symbol.chars = ks.flatMap TokenKind.spelling ∧ ss.flatMap Symbol.kinds = ks := by
  induction ks with
  | nil => exact ⟨[], rfl, rfl⟩
  | cons a ks ih =>
      rw [List.mem_cons, not_or] at h
      obtain ⟨s, hchars, hkinds⟩ := TokenKind.exists_spelling (Ne.symm h.1)
      obtain ⟨ss, hchars', hkinds'⟩ := ih h.2
      refine ⟨s :: ss, ?_, ?_⟩
      · rw [List.flatMap_cons, List.flatMap_cons, hchars, hchars']
      · rw [List.flatMap_cons, hkinds, hkinds', List.singleton_append]

/-- The spelling of tokens is read as these tokens. -/
theorem scan_spelling (h : .concat ∉ ks) :
    ∃ ts, scan (String.ofList (ks.flatMap TokenKind.spelling)) = .ok ts ∧ kinds ts = ks := by
  obtain ⟨ss, hchars, hkinds⟩ := exists_spelling h
  refine ⟨_, scan_of_symbols ?_, (kinds_tokensFrom 0 ss).trans hkinds⟩
  rw [String.toList_ofList, hchars]

/-- Where there is no `+` and no `?`, nothing is written out. -/
theorem desugar_of_plain (h : ∀ t ∈ ts, t.kind ≠ .question ∧ t.kind ≠ .plus) :
    desugar ts = .ok ts := by
  have hwritten : WrittenAs ts ts := by
    induction ts with
    | nil => exact fun before => rfl
    | cons t ts ih =>
        obtain ⟨ht, hts⟩ := List.forall_mem_cons.1 h
        exact (writtenAs_self ht.1 ht.2).append (ih hts)
  rw [desugar, hwritten []]
  show Except.ok (ts.reverse ++ []).reverse = _
  rw [List.append_nil, List.reverse_reverse]

end Token

/-! ## Printing and parsing -/

namespace Expr

theorem mem_parenthesize {p : Bool} (h : a ∈ parenthesize p ks) :
    a ∈ ks ∨ a = .openParen ∨ a = .closeParen := by
  rw [parenthesize] at h
  split at h
  · simp only [List.mem_cons, List.mem_append, List.not_mem_nil, or_false] at h
    tauto
  · exact Or.inl h

/-- A tree is printed without concatenation signs and without the signs that are written
out. -/
theorem ne_of_mem_kinds (h : a ∈ e.kinds) : a ≠ .concat ∧ a ≠ .question ∧ a ≠ .plus := by
  have hsign : a = .openParen ∨ a = .closeParen → a ≠ .concat ∧ a ≠ .question ∧ a ≠ .plus := by
    rintro (rfl | rfl) <;> decide
  induction e with
  | literal c =>
      obtain rfl := List.mem_singleton.1 h
      exact ⟨nofun, nofun, nofun⟩
  | epsilon =>
      obtain rfl := List.mem_singleton.1 h
      decide
  | concat l r ihl ihr =>
      rcases List.mem_append.1 h with h | h
      · exact (mem_parenthesize h).elim ihl hsign
      · exact (mem_parenthesize h).elim ihr hsign
  | union l r ihl ihr =>
      rcases List.mem_append.1 h with h | h
      · exact (mem_parenthesize h).elim ihl hsign
      · rcases List.mem_cons.1 h with rfl | h
        · decide
        · exact (mem_parenthesize h).elim ihr hsign
  | star e ih =>
      rcases List.mem_append.1 h with h | h
      · exact (mem_parenthesize h).elim ih hsign
      · obtain rfl := List.mem_singleton.1 h
        decide

/-- What a tree is printed as is parsed as the tree. -/
theorem parseWithLimit_text (e : Expr) : parseWithLimit none e.text = .ok e := by
  obtain ⟨ts, hscan, hts⟩ := Token.scan_spelling fun hmem => (ne_of_mem_kinds hmem).1 rfl
  have hplain : ∀ t ∈ ts, t.kind ≠ .question ∧ t.kind ≠ .plus := by
    intro t ht
    have hmem : t.kind ∈ e.kinds := hts ▸ List.mem_map_of_mem ht
    exact (ne_of_mem_kinds hmem).2
  have hspells : Token.Spells .union ts e := (Token.spells_kinds hts).weaken (Nat.zero_le _)
  obtain ⟨p, hp, hexpr⟩ := hspells
  rw [parseWithLimit_none, text, hscan]
  show Token.parse ts = _
  rw [Token.parse, Token.desugar_of_plain hplain, ← hexpr]
  exact p.toExpr_eq hp

/-- Printing a tree and parsing the text gives the tree back; where depth is limited, this is
so unless the tree is too deep, and then that is the error. So no two trees are printed
alike. -/
theorem parse_text (e : Expr) :
    parseWithLimit none e.text = .ok e ∧
    (if e.depth ≤ 2000 then parse e.text = .ok e
      else ∃ span, parse e.text = .error (.malformedExpression .tooDeep span)) ∧
    ∀ e', e'.text = e.text ↔ e' = e := by
  have htext := parseWithLimit_text e
  refine ⟨htext, ?_, fun e' => ⟨fun heq => ?_, congrArg text⟩⟩
  · split
    · next hdepth => exact parseWithLimit_of_depth_le htext hdepth
    · next hdepth => exact parseWithLimit_of_lt_depth htext (Nat.lt_of_not_le hdepth)
  · have htext' := parseWithLimit_text e'
    rw [heq, htext] at htext'
    exact (Except.ok.inj htext').symm

example : text (.star (.concat (.literal 'a') (.concat (.literal '*') .epsilon))) =
    "(a(\\*ε))*" := by
  decide

end Expr

end Regular
