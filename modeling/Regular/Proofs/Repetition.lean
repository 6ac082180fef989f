import Mathlib.Data.List.Chain
import Mathlib.Order.CompletePartialOrder
import Regular.Proofs.Parse

/-!
# Where writing repetition out changes the language

Since `E+` is written as `EE*` without parentheses, a sign that comes behind it applies to
the star alone, and there it changes nothing: what is written for `E+` matches the same words
whatever signs follow (`Phrase.language_tree_repeated`). Read by the grammar, `E+*` and `E+?`
match the empty string as well. So a factor keeps its language unless one of its signs, other
than `+`, follows a `+` of the same factor where the empty string does not match already
(`Phrase.faithful`); otherwise precisely the empty string is lost
(`Phrase.language_expr_of_not_faithful`).
-/

namespace Regular

open scoped Computability

variable {k : Category} {L : Language Char}

/-! ## Languages closed under repetition -/

/-- One or more words of the language make no others. -/
def PlusClosed (L : Language Char) : Prop := L * L∗ = L

theorem plusClosed_mul_kstar (L : Language Char) : PlusClosed (L * L∗) := by
  refine le_antisymm (mul_kstar_le_self ?_) ?_
  · calc L * L∗ * (L * L∗) = L * (L∗ * L * L∗) := by simp only [mul_assoc]
      _ ≤ L * (L∗ * L∗) := by
        gcongr
        exact kstar_mul_le_kstar
      _ = L * L∗ := by rw [kstar_mul_kstar]
  · calc L * L∗ = L * L∗ * 1 := (mul_one _).symm
      _ ≤ L * L∗ * (L * L∗)∗ := by
        gcongr
        exact one_le_kstar

theorem PlusClosed.kstar_eq (h : PlusClosed L) : L∗ = L + 1 := by
  rw [← Language.one_add_self_mul_kstar_eq_kstar, h, add_comm]

theorem nil_mem_add_one (L : Language Char) : [] ∈ L + 1 := Or.inr Language.nil_mem_one

theorem nil_mem_mul_iff {L' : Language Char} : [] ∈ L * L' ↔ [] ∈ L ∧ [] ∈ L' := by
  rw [Language.mem_mul]
  constructor
  · rintro ⟨u, hu, v, hv, heq⟩
    obtain ⟨rfl, rfl⟩ := List.append_eq_nil_iff.1 heq
    exact ⟨hu, hv⟩
  · rintro ⟨h, h'⟩
    exact ⟨[], h, [], h', rfl⟩

theorem add_one_eq_self_iff : L + 1 = L ↔ [] ∈ L := by
  constructor
  · intro h
    rw [← h]
    exact nil_mem_add_one L
  · intro h
    ext w
    rw [Language.mem_add, Language.mem_one]
    exact ⟨fun hw => hw.elim id fun hnil => hnil ▸ h, Or.inl⟩

namespace Repetition

theorem language_mono {L' : Language Char} (op : Repetition) (h : L ≤ L') :
    op.language L ≤ op.language L' := by
  cases op with
  | star => exact kstar_mono h
  | plus => exact mul_le_mul' h (kstar_mono h)
  | question => exact add_le_add_left h 1

theorem le_language (op : Repetition) (L : Language Char) : L ≤ op.language L := by
  cases op with
  | star => exact le_kstar
  | plus =>
      calc L = L * 1 := (mul_one L).symm
        _ ≤ L * L∗ := mul_le_mul' le_rfl one_le_kstar
  | question => exact le_self_add

/-- A sign other than `+` adds the empty string to a language that repetition does not
change. -/
theorem language_of_plusClosed (h : PlusClosed L) (op : Repetition) :
    op.language L = if op = plus then L else L + 1 := by
  cases op with
  | star => exact h.kstar_eq
  | plus => exact h
  | question => rfl

/-- No sign changes a star. -/
theorem language_kstar (op : Repetition) (L : Language Char) : op.language L∗ = L∗ := by
  cases op with
  | star => exact kstar_idem L
  | plus =>
      show L∗ * L∗∗ = L∗
      rw [kstar_idem, kstar_mul_kstar]
  | question => exact add_one_eq_self_iff.2 (Language.nil_mem_kstar L)

end Repetition

/-! ## The language of what is written -/

namespace Trees

def language (t : Trees) : Language Char := (t.before.map Expr.language).prod * t.last.language

theorem language_foldl_concat (e : Expr) (es : List Expr) :
    (es.foldl .concat e).language = e.language * (es.map Expr.language).prod := by
  induction es generalizing e with
  | nil => simp
  | cons e' es ih =>
      rw [List.foldl_cons, ih, Expr.language_concat, List.map_cons, List.prod_cons, mul_assoc]

theorem language_joined (t : Trees) : t.joined.language = t.language := by
  obtain ⟨before, last⟩ := t
  cases before with
  | nil => simp [joined, language]
  | cons e es =>
      show (Expr.concat (es.foldl .concat e) last).language = _
      rw [Expr.language_concat, language_foldl_concat]
      rfl

theorem prod_all (t : Trees) : (t.all.map Expr.language).prod = t.language := by
  simp [all, language]

/-- A sign behind a star changes nothing. -/
theorem language_repeated_of_kstar {t : Trees} (h : t.last.language = L∗) (op : Repetition) :
    (t.repeated op).last.language = L∗ ∧ (t.repeated op).language = t.language := by
  have hstar : t.last.language∗ = t.last.language := by rw [h, kstar_idem]
  cases op with
  | star => exact ⟨hstar.trans h, congrArg (_ * ·) hstar⟩
  | plus =>
      refine ⟨hstar.trans h, ?_⟩
      show (t.all.map Expr.language).prod * t.last.language∗ = _
      rw [prod_all, language, hstar, mul_assoc, h, kstar_mul_kstar]
  | question =>
      have hone : t.last.language + 1 = t.last.language := by
        rw [h]
        exact add_one_eq_self_iff.2 (Language.nil_mem_kstar L)
      exact ⟨hone.trans h, congrArg (_ * ·) hone⟩

/-- A sign behind a single tree applies to it. -/
theorem language_repeated_of_single {t : Trees} (h : t.before = []) (op : Repetition) :
    (t.repeated op).language = op.language t.language := by
  obtain ⟨before, last⟩ := t
  obtain rfl : before = [] := h
  cases op <;> simp [repeated, language, all, Repetition.language]

theorem language_append (t t' : Trees) : (t.append t').language = t.language * t'.language := by
  rw [language, append, List.map_append, List.prod_append, prod_all, mul_assoc]
  rfl

end Trees

namespace Phrase

theorem language_tree_juxtapose (l : Phrase Atom .concat) (r : Phrase Atom .factor) :
    (juxtapose l r).tree.language = l.tree.language * r.tree.language := by
  simp only [tree, trees, Trees.language_joined, Trees.language_append]

theorem language_tree_alternate (l : Phrase Atom .union) (r : Phrase Atom .concat) :
    (alternate l r).tree.language = l.tree.language + r.tree.language := rfl

/-- Is there a `+` among the signs of the factor? Then it has become several. -/
def spread : {k : Category} → Phrase Atom k → Bool
  | _, repeated f op => op == .plus || f.spread
  | _, _ => false

theorem before_atom (a : Phrase Atom .atom) : a.trees.before = [] := by
  cases a <;> rfl

theorem before_of_not_spread (f : Phrase Atom .factor) (h : f.spread = false) :
    f.trees.before = [] := by
  match f with
  | ofAtom a => exact a.before_atom
  | repeated g .star => exact before_of_not_spread g h
  | repeated g .question => exact before_of_not_spread g h
  | repeated g .plus => cases h

/-- A factor with a `+` is written as a word of a language and behind it the star of that. -/
theorem exists_kstar (f : Phrase Atom .factor) (h : f.spread = true) :
    ∃ L : Language Char, f.trees.last.language = L∗ ∧ f.trees.language = L * L∗ := by
  match f with
  | ofAtom a => cases h
  | repeated g op =>
    by_cases hg : g.spread = true
    · obtain ⟨L, hlast, hlang⟩ := exists_kstar g hg
      obtain ⟨hlast', hlang'⟩ := Trees.language_repeated_of_kstar hlast op
      exact ⟨L, hlast', hlang'.trans hlang⟩
    · have hop : op = .plus := by
        rw [spread, Bool.or_eq_true, beq_iff_eq] at h
        exact h.resolve_right hg
      subst hop
      have hbefore := before_of_not_spread g (Bool.eq_false_iff.2 hg)
      have hlang : g.trees.language = g.trees.last.language := by simp [Trees.language, hbefore]
      refine ⟨g.trees.last.language, rfl, ?_⟩
      show (g.trees.repeated .plus).language = _
      rw [Trees.language_repeated_of_single hbefore, hlang]
      rfl

theorem plusClosed_tree (f : Phrase Atom .factor) (h : f.spread = true) :
    PlusClosed f.tree.language := by
  obtain ⟨L, -, hlang⟩ := exists_kstar f h
  rw [tree, Trees.language_joined, hlang]
  exact plusClosed_mul_kstar L

/-- Behind a `+`, no sign changes what is matched; elsewhere a sign applies to all of the
factor. -/
theorem language_tree_repeated (f : Phrase Atom .factor) (op : Repetition) :
    (repeated f op).tree.language =
      if f.spread then f.tree.language else op.language f.tree.language := by
  rw [tree, tree, Trees.language_joined, Trees.language_joined]
  split
  · next h =>
    obtain ⟨L, hlast, -⟩ := exists_kstar f h
    exact (Trees.language_repeated_of_kstar hlast op).2
  · next h =>
    exact Trees.language_repeated_of_single (before_of_not_spread f (Bool.eq_false_iff.2 h)) op

theorem language_tree_le (p : Phrase Atom k) : p.tree.language ≤ p.expr.language := by
  induction p with
  | leaf a => exact le_rfl
  | group u ih => exact ih
  | ofAtom a ih => exact ih
  | repeated f op ih =>
      rw [language_tree_repeated, expr, op.language_expr]
      split
      · exact ih.trans (op.le_language _)
      · exact op.language_mono ih
  | ofFactor f ih => exact ih
  | juxtapose l r ihl ihr =>
      rw [language_tree_juxtapose]
      exact mul_le_mul' ihl ihr
  | ofConcat c ih => exact ih
  | alternate l r ihl ihr =>
      rw [language_tree_alternate]
      exact add_le_add ihl ihr

/-! ## Faithful phrases -/

/-- Does the phrase match the empty string? -/
def nullable : {k : Category} → Phrase Atom k → Bool
  | _, leaf (.literal _) => false
  | _, leaf .epsilon => true
  | _, group u => u.nullable
  | _, ofAtom a => a.nullable
  | _, repeated f op => op != .plus || f.nullable
  | _, ofFactor f => f.nullable
  | _, juxtapose l r => l.nullable && r.nullable
  | _, ofConcat c => c.nullable
  | _, alternate l r => l.nullable || r.nullable

theorem nullable_iff (p : Phrase Atom k) : p.nullable = true ↔ [] ∈ p.expr.language := by
  induction p with
  | leaf a =>
      cases a with
      | literal c => exact ⟨(nomatch ·), fun h => nomatch (h : ([] : List Char) = [c])⟩
      | epsilon => exact ⟨fun _ => Language.nil_mem_one, fun _ => rfl⟩
  | group u ih => exact ih
  | ofAtom a ih => exact ih
  | repeated f op ih =>
      rw [expr, op.language_expr]
      cases op with
      | star => exact ⟨fun _ => Language.nil_mem_kstar _, fun _ => rfl⟩
      | plus =>
          refine Iff.trans ih (Iff.trans ?_ nil_mem_mul_iff.symm)
          exact ⟨fun h => ⟨h, Language.nil_mem_kstar _⟩, And.left⟩
      | question => exact ⟨fun _ => nil_mem_add_one _, fun _ => rfl⟩
  | ofFactor f ih => exact ih
  | juxtapose l r ihl ihr =>
      rw [nullable, Bool.and_eq_true, expr, Expr.language_concat, nil_mem_mul_iff]
      exact and_congr ihl ihr
  | ofConcat c ih => exact ih
  | alternate l r ihl ihr =>
      rw [nullable, Bool.or_eq_true, expr, Expr.language_union, Language.mem_add]
      exact or_congr ihl ihr

/-- No sign other than `+` stands behind a `+` of the same factor, unless what precedes it
matches the empty string. -/
def faithful : {k : Category} → Phrase Atom k → Bool
  | _, leaf _ => true
  | _, group u => u.faithful
  | _, ofAtom a => a.faithful
  | _, repeated f op => f.faithful && (!f.spread || op == .plus || f.nullable)
  | _, ofFactor f => f.faithful
  | _, juxtapose l r => l.faithful && r.faithful
  | _, ofConcat c => c.faithful
  | _, alternate l r => l.faithful && r.faithful

/-- Writing repetition and option out keeps the language of a faithful phrase. -/
theorem language_tree_of_faithful (p : Phrase Atom k) (h : p.faithful = true) :
    p.tree.language = p.expr.language := by
  induction p with
  | leaf a => rfl
  | group u ih => exact ih h
  | ofAtom a ih => exact ih h
  | repeated f op ih =>
      rw [faithful, Bool.and_eq_true] at h
      have hf := ih h.1
      rw [language_tree_repeated, expr, op.language_expr, hf]
      split
      · next hspread =>
        have hclosed := plusClosed_tree f hspread
        rw [hf] at hclosed
        rw [op.language_of_plusClosed hclosed]
        split
        · rfl
        · next hop =>
          have hnil : [] ∈ f.expr.language := by
            rw [← nullable_iff]
            simpa [hspread, hop] using h.2
          exact (add_one_eq_self_iff.2 hnil).symm
      · rfl
  | ofFactor f ih => exact ih h
  | juxtapose l r ihl ihr =>
      rw [faithful, Bool.and_eq_true] at h
      rw [language_tree_juxtapose, ihl h.1, ihr h.2]
      rfl
  | ofConcat c ih => exact ih h
  | alternate l r ihl ihr =>
      rw [faithful, Bool.and_eq_true] at h
      rw [language_tree_alternate, ihl h.1, ihr h.2]
      rfl

/-! ## Factors that are not -/

/-- The atom to which the signs of the factor apply. -/
def operand : Phrase Atom .factor → Phrase Atom .atom
  | ofAtom a => a
  | repeated f _ => f.operand

/-- If the signs of a factor are not faithful to its operand, the empty string is lost. -/
theorem language_expr_of_not_faithful (f : Phrase Atom .factor) (h : f.operand.faithful = true)
    (hf : f.faithful = false) :
    [] ∉ f.tree.language ∧ f.expr.language = f.tree.language + 1 ∧ f.spread = true := by
  match f with
  | ofAtom a =>
    rw [operand] at h
    rw [faithful, h] at hf
    cases hf
  | repeated g op =>
    have hspread : g.spread = true → (repeated g op).spread = true := by
      intro hg
      rw [spread, hg, Bool.or_true]
    have htree : g.spread = true → (repeated g op).tree.language = g.tree.language := by
      intro hg
      rw [language_tree_repeated, if_pos hg]
    by_cases hg : g.faithful = true
    · -- the sign is the first one that does harm
      have heq := g.language_tree_of_faithful hg
      rw [faithful, hg, Bool.true_and, Bool.or_eq_false_iff, Bool.or_eq_false_iff,
        Bool.not_eq_false'] at hf
      obtain ⟨⟨hgs, hop⟩, hnull⟩ := hf
      have hnil : [] ∉ g.tree.language := by
        rw [heq, ← nullable_iff, hnull]
        exact Bool.false_ne_true
      rw [htree hgs, expr, op.language_expr, ← heq,
        op.language_of_plusClosed (plusClosed_tree g hgs), if_neg (beq_eq_false_iff_ne.1 hop)]
      exact ⟨hnil, rfl, hspread hgs⟩
    · -- the empty string is lost already, and the sign does not bring it back
      rw [operand] at h
      obtain ⟨hnil, hexpr, hgs⟩ := language_expr_of_not_faithful g h (Bool.eq_false_iff.2 hg)
      rw [htree hgs, expr, op.language_expr, hexpr, ← (plusClosed_tree g hgs).kstar_eq,
        op.language_kstar]
      exact ⟨hnil, rfl, hspread hgs⟩

/-- The signs of a factor are faithful precisely if they keep its language. -/
theorem language_tree_eq_iff (f : Phrase Atom .factor) (h : f.operand.faithful = true) :
    f.tree.language = f.expr.language ↔ f.faithful = true := by
  refine ⟨fun heq => ?_, f.language_tree_of_faithful⟩
  by_contra hf
  obtain ⟨hnil, hexpr, -⟩ := f.language_expr_of_not_faithful h (Bool.eq_false_iff.2 hf)
  rw [heq, hexpr] at hnil
  exact hnil (nil_mem_add_one _)

/-! ## All factors of a phrase -/

/-- The factors of which the phrase consists, those inside of groups and those that a sign is
added to included. -/
def factors : {k : Category} → Phrase Atom k → List (Phrase Atom .factor)
  | _, leaf _ => []
  | _, group u => u.factors
  | _, ofAtom a => ofAtom a :: a.factors
  | _, repeated f op => repeated f op :: f.factors
  | _, ofFactor f => f.factors
  | _, juxtapose l r => l.factors ++ r.factors
  | _, ofConcat c => c.factors
  | _, alternate l r => l.factors ++ r.factors

theorem faithful_of_mem_factors {p : Phrase Atom k} (h : p.faithful = true)
    {f : Phrase Atom .factor} (hf : f ∈ p.factors) : f.faithful = true := by
  induction p with
  | leaf a => cases hf
  | group u ih => exact ih h hf
  | ofAtom a ih =>
      rcases List.mem_cons.1 hf with rfl | hf
      · exact h
      · exact ih h hf
  | repeated g op ih =>
      rcases List.mem_cons.1 hf with rfl | hf
      · exact h
      · rw [faithful, Bool.and_eq_true] at h
        exact ih h.1 hf
  | ofFactor g ih => exact ih h hf
  | juxtapose l r ihl ihr =>
      rw [faithful, Bool.and_eq_true] at h
      exact (List.mem_append.1 hf).elim (ihl h.1) (ihr h.2)
  | ofConcat c ih => exact ih h hf
  | alternate l r ihl ihr =>
      rw [faithful, Bool.and_eq_true] at h
      exact (List.mem_append.1 hf).elim (ihl h.1) (ihr h.2)

theorem faithful_operand (f : Phrase Atom .factor) (h : f.faithful = true) :
    f.operand.faithful = true := by
  match f with
  | ofAtom a =>
    rw [operand]
    exact h
  | repeated g op =>
    rw [faithful, Bool.and_eq_true] at h
    rw [operand]
    exact faithful_operand g h.1

/-- A phrase is faithful precisely if all of its factors keep their languages. -/
theorem faithful_iff (p : Phrase Atom k) :
    p.faithful = true ↔ ∀ f ∈ p.factors, f.tree.language = f.expr.language := by
  refine ⟨fun h f hf => f.language_tree_of_faithful (faithful_of_mem_factors h hf), fun h => ?_⟩
  induction p with
  | leaf a => rfl
  | group u ih => exact ih h
  | ofAtom a ih => exact ih fun f hf => h f (List.mem_cons_of_mem _ hf)
  | repeated g op ih =>
      have hg := ih fun f hf => h f (List.mem_cons_of_mem _ hf)
      refine ((repeated g op).language_tree_eq_iff ?_).1 (h _ List.mem_cons_self)
      rw [operand]
      exact g.faithful_operand hg
  | ofFactor g ih => exact ih h
  | juxtapose l r ihl ihr =>
      rw [faithful, ihl fun f hf => h f (List.mem_append_left _ hf),
        ihr fun f hf => h f (List.mem_append_right _ hf)]
      rfl
  | ofConcat c ih => exact ih h
  | alternate l r ihl ihr =>
      rw [faithful, ihl fun f hf => h f (List.mem_append_left _ hf),
        ihr fun f hf => h f (List.mem_append_right _ hf)]
      rfl

end Phrase

/-! ## With and without writing out -/

/-- With and without the writing out of repetition and option, the same texts have trees. The
language of the tree without it has that of the tree with it, and they are one if the phrase
that the tokens spell is faithful, which it is precisely if all of its factors keep their
languages. A factor that is the first not to keep its language loses the empty string. -/
theorem parse_language {text : String} {ts : List Token} (h : Token.scan text = .ok ts) :
    ((∃ d, Token.parse ts = .ok d) ↔ ∃ e, Token.toExpr ts = .ok e) ∧
    ∀ d e, Token.parse ts = .ok d → Token.toExpr ts = .ok e →
      ∃ p : Phrase Atom .union, Token.kinds ts = p.kinds ∧ d = p.tree ∧ e = p.expr ∧
        d.language ≤ e.language ∧ (p.faithful = true → d.language = e.language) ∧
        (p.faithful = true ↔ ∀ f ∈ p.factors, f.tree.language = f.expr.language) ∧
        ∀ f ∈ p.factors, f.operand.faithful = true →
          (f.tree.language = f.expr.language ↔ f.faithful = true) ∧
          (f.faithful = false → [] ∉ f.tree.language ∧ f.expr.language = f.tree.language + 1) := by
  have hconcat := Token.concat_notMem_scan h
  constructor
  · simp only [Token.parse_eq_ok_iff hconcat, Token.toExpr_eq_ok_iff hconcat]
    constructor
    · rintro ⟨_, p, hp, -⟩
      exact ⟨_, p, hp, rfl⟩
    · rintro ⟨_, p, hp, -⟩
      exact ⟨_, p, hp, rfl⟩
  · intro d e hd he
    obtain ⟨p, hp, rfl⟩ := (Token.toExpr_eq_ok_iff hconcat).1 he
    obtain rfl := Except.ok.inj (hd.symm.trans (Token.parse_eq_of_phrase p hp))
    refine ⟨p, hp, rfl, rfl, p.language_tree_le, p.language_tree_of_faithful, p.faithful_iff, ?_⟩
    intro f _ hoperand
    refine ⟨f.language_tree_eq_iff hoperand, fun hf => ?_⟩
    obtain ⟨hnil, hexpr, -⟩ := f.language_expr_of_not_faithful hoperand hf
    exact ⟨hnil, hexpr⟩

/-- Written out, `a+*` does not match the empty string, which the star of `a+` matches. -/
theorem parse_language_plus_star : ∃ ts d e, Token.scan "a+*" = .ok ts ∧
    Token.parse ts = .ok d ∧ Token.toExpr ts = .ok e ∧ d.language ≤ e.language ∧
    [] ∉ d.language ∧ [] ∈ e.language := by
  have hscan : Token.scan "a+*" =
      .ok [⟨.literal 'a', ⟨0, 0⟩⟩, ⟨.plus, ⟨1, 1⟩⟩, ⟨.star, ⟨2, 2⟩⟩] := rfl
  obtain ⟨-, hlang⟩ := parse_language hscan
  obtain ⟨p, -, -, -, hle, -⟩ :=
    hlang (.concat (.literal 'a') (.star (.star (.literal 'a'))))
      (.star (.plus (.literal 'a'))) rfl rfl
  refine ⟨_, _, _, hscan, rfl, rfl, hle, fun hnil => ?_, Language.nil_mem_kstar _⟩
  exact nomatch ((nil_mem_mul_iff.1 hnil).1 : ([] : List Char) = ['a'])

/-! ## A condition on tokens -/

/-- No star and no `?` stands right behind a `+`. -/
def PlusLast (as : List TokenKind) : Prop :=
  as.IsChain fun a b => a = .plus → b ≠ .star ∧ b ≠ .question

namespace Phrase

theorem eq_plus_of_plusLast {as : List TokenKind} {op : Repetition}
    (h : PlusLast (as ++ [op.kind])) (hlast : as.getLast? = some .plus) : op = .plus := by
  obtain ⟨-, -, hnext⟩ := List.isChain_append.1 h
  have hop := hnext _ hlast op.kind rfl rfl
  cases op with
  | star => exact absurd rfl hop.1
  | plus => rfl
  | question => exact absurd rfl hop.2

/-- Then a factor with a `+` ends with one. -/
theorem getLast?_of_spread (f : Phrase Atom .factor) (h : PlusLast f.kinds)
    (hf : f.spread = true) : f.kinds.getLast? = some .plus := by
  match f with
  | ofAtom a => cases hf
  | repeated g op =>
    rw [kinds_repeated] at h ⊢
    rw [spread, Bool.or_eq_true, beq_iff_eq] at hf
    rw [List.getLast?_append, List.getLast?_singleton]
    rcases hf with rfl | hgs
    · rfl
    · have hplus := getLast?_of_spread g (List.isChain_append.1 h).1 hgs
      obtain rfl := eq_plus_of_plusLast h hplus
      rfl

theorem faithful_of_plusLast (p : Phrase Atom k) (h : PlusLast p.kinds) : p.faithful = true := by
  induction p with
  | leaf a => rfl
  | group u ih =>
      rw [kinds_group] at h
      exact ih (List.isChain_append.1 h.tail).1
  | ofAtom a ih => exact ih h
  | repeated f op ih =>
      rw [kinds_repeated] at h
      have hf := (List.isChain_append.1 h).1
      rw [faithful, ih hf, Bool.true_and]
      cases hspread : f.spread with
      | false => rfl
      | true =>
          obtain rfl := eq_plus_of_plusLast h (f.getLast?_of_spread hf hspread)
          rfl
  | ofFactor f ih => exact ih h
  | juxtapose l r ihl ihr =>
      rw [kinds_juxtapose] at h
      obtain ⟨hl, hr, -⟩ := List.isChain_append.1 h
      rw [faithful, ihl hl, ihr hr]
      rfl
  | ofConcat c ih => exact ih h
  | alternate l r ihl ihr =>
      rw [kinds_alternate] at h
      obtain ⟨hl, hr, -⟩ := List.isChain_append.1 h
      rw [faithful, ihl hl, ihr hr.tail]
      rfl

end Phrase

end Regular
