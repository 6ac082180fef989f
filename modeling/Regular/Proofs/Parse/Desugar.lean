import Mathlib.Data.List.Forall2
import Regular.Proofs.Parse.Fold

/-!
# Writing repetition and option out

`desugarStep` finds the operand of a sign by searching backwards through the tokens written
so far. Among tokens that spell phrases the search finds what it should: a group is balanced
(`Token.Balanced`), so the search for its parenthesis passes over inner groups, and the last
piece of what a factor has become is always an operand (`Token.IsOperand`): an atom or a
group with stars behind it.

`Token.Pieces` describes what a factor, or a sequence of factors, has become: one piece for
each of its trees (`Phrase.trees`), the last of which is an operand. From there the grammar
of the result is read off (`Phrase.desugar_eq`): it spells a phrase whose plain tree is the
written-out tree of the original.
-/

namespace Regular

variable {k : Category} {ts ts' us us' x before : List Token} {t op : Token} {e l r : Expr}

namespace Token

/-! ## Balanced tokens -/

/-- The search for an open parenthesis passes over the tokens. -/
def Balanced (ts : List Token) : Prop :=
  ∀ depth before, groupLength (depth + 1) (ts.reverse ++ before) =
    (groupLength (depth + 1) before).map (· + ts.length)

theorem Balanced.append (h : Balanced ts) (h' : Balanced us) : Balanced (ts ++ us) := by
  intro depth before
  rw [List.reverse_append, List.append_assoc, h', h, Option.map_map, List.length_append]
  congr 1
  funext n
  show n + ts.length + us.length = n + (ts.length + us.length)
  omega

theorem balanced_singleton (h : t.kind ≠ .openParen) (h' : t.kind ≠ .closeParen) :
    Balanced [t] := by
  intro depth before
  show groupLength (depth + 1) (t :: before) = _
  rw [groupLength]
  split <;> first | contradiction | rfl

theorem Balanced.group {t' : Token} (ht : t.kind = .openParen) (h : Balanced ts)
    (ht' : t'.kind = .closeParen) : Balanced (t :: (ts ++ [t'])) := by
  intro depth before
  have hrev : (t :: (ts ++ [t'])).reverse ++ before = t' :: (ts.reverse ++ t :: before) := by simp
  rw [hrev, groupLength, ht']
  simp only
  rw [h, groupLength, ht]
  simp only
  rw [if_neg (by omega), Option.map_map, Option.map_map]
  congr 1
  funext n
  simp only [Function.comp_apply, List.length_cons, List.length_append, List.length_nil]
  omega

theorem balanced_of_kinds (p : Phrase Atom k) (h : kinds ts = p.kinds) : Balanced ts := by
  induction p generalizing ts with
  | leaf a =>
      obtain ⟨t, rfl, ht⟩ := kinds_eq_singleton_iff.1 h
      exact balanced_singleton (ht.trans_ne (a.kind_ne rfl)) (ht.trans_ne (a.kind_ne rfl))
  | group u ih =>
      rw [Phrase.kinds_group] at h
      obtain ⟨t, tr, rfl, ht, hr⟩ := kinds_eq_cons_iff.1 h
      obtain ⟨tu, tr, rfl, hu, hr⟩ := kinds_eq_append_iff.1 hr
      obtain ⟨t', rfl, ht'⟩ := kinds_eq_singleton_iff.1 hr
      exact (ih hu).group ht ht'
  | ofAtom a ih => exact ih h
  | repeated f op ih =>
      rw [Phrase.kinds_repeated] at h
      obtain ⟨tf, tr, rfl, hf, hr⟩ := kinds_eq_append_iff.1 h
      obtain ⟨t, rfl, ht⟩ := kinds_eq_singleton_iff.1 hr
      refine (ih hf).append (balanced_singleton ?_ ?_) <;> rw [ht] <;> cases op <;> decide
  | ofFactor f ih => exact ih h
  | juxtapose l r ihl ihr =>
      rw [Phrase.kinds_juxtapose] at h
      obtain ⟨tl, tr, rfl, hl, hr⟩ := kinds_eq_append_iff.1 h
      exact (ihl hl).append (ihr hr)
  | ofConcat c ih => exact ih h
  | alternate l r ihl ihr =>
      rw [Phrase.kinds_alternate] at h
      obtain ⟨tl, tr, rfl, hl, hr⟩ := kinds_eq_append_iff.1 h
      obtain ⟨t, tr, rfl, ht, hr⟩ := kinds_eq_cons_iff.1 hr
      have hbar : Balanced [t] := balanced_singleton (by rw [ht]; decide) (by rw [ht]; decide)
      exact (ihl hl).append (hbar.append (ihr hr))

/-! ## Operands -/

/-- A sign behind the tokens has just these for its operand. -/
def IsOperand (ts : List Token) : Prop :=
  ∀ op before, operandLength op (ts.reverse ++ before) = .ok ts.length

theorem isOperand_atom {a : Atom} (h : t.kind = a.kind) : IsOperand [t] := by
  intro op before
  have hstar : isStar t = false := by
    rw [isStar, h]
    cases a <;> rfl
  show operandLength op (t :: before) = .ok 1
  rw [operandLength, List.dropWhile_cons_of_neg (by rw [hstar]; decide),
    List.takeWhile_cons_of_neg (by rw [hstar]; decide)]
  have hatom : t.kind.isAtom = true := by
    rw [h]
    cases a <;> rfl
  simp only [hatom]
  rfl

theorem isOperand_group {t' : Token} (ht : t.kind = .openParen) (h : Balanced ts)
    (ht' : t'.kind = .closeParen) : IsOperand (t :: (ts ++ [t'])) := by
  intro op before
  have hstar : isStar t' = false := by rw [isStar, ht']; rfl
  have hrev : (t :: (ts ++ [t'])).reverse ++ before = t' :: (ts.reverse ++ t :: before) := by simp
  have hlen : groupLength 1 (ts.reverse ++ t :: before) = some (1 + ts.length) := by
    rw [h 0, groupLength, ht]
    rfl
  rw [hrev, operandLength, List.dropWhile_cons_of_neg (by rw [hstar]; decide),
    List.takeWhile_cons_of_neg (by rw [hstar]; decide)]
  simp only [ht', hlen, List.length_nil, List.length_cons, List.length_append]
  show Except.ok (0 + 1 + (1 + ts.length)) = Except.ok (ts.length + (0 + 1) + 1)
  congr 1
  omega

theorem operandLength_star (h : t.kind = .star) (op : Token) (before : List Token) :
    operandLength op (t :: before) = (operandLength op before).map (· + 1) := by
  have hstar : isStar t = true := by rw [isStar, h]; rfl
  rw [operandLength, operandLength, List.dropWhile_cons_of_pos hstar,
    List.takeWhile_cons_of_pos hstar, List.length_cons]
  generalize (before.takeWhile isStar).length = n
  cases before.dropWhile isStar with
  | nil => rfl
  | cons t ts =>
      simp only
      split
      · rfl
      · split
        · cases groupLength 1 ts with
          | none => rfl
          | some m =>
              show Except.ok (n + 1 + 1 + m) = Except.ok (n + 1 + m + 1)
              congr 1
              omega
        · rfl

theorem IsOperand.star (h : IsOperand ts) (ht : t.kind = .star) : IsOperand (ts ++ [t]) := by
  intro op before
  rw [List.reverse_append, List.reverse_singleton, List.append_assoc, List.singleton_append,
    operandLength_star ht, h, List.length_append]
  rfl

/-! ## Steps -/

theorem desugarStep_other (h : t.kind ≠ .question) (h' : t.kind ≠ .plus) :
    desugarStep before t = .ok (t :: before) := by
  rw [desugarStep]
  split <;> first | contradiction | rfl

theorem desugarStep_plus (ht : t.kind = .plus) (hx : IsOperand x) :
    desugarStep (x.reverse ++ before) t =
      .ok (⟨.star, t.span⟩ :: (x.reverse ++ (x.reverse ++ before))) := by
  rw [desugarStep, ht]
  simp only [hx t before]
  show Except.ok _ = Except.ok _
  rw [List.take_left' List.length_reverse]

theorem desugarStep_question (ht : t.kind = .question) (hx : IsOperand x) :
    desugarStep (x.reverse ++ before) t =
      .ok (⟨.closeParen, t.span⟩ :: ⟨.epsilon, t.span⟩ :: ⟨.union, t.span⟩ ::
        (x.reverse ++ ⟨.openParen, t.span⟩ :: before)) := by
  rw [desugarStep, ht]
  simp only [hx t before]
  show Except.ok _ = Except.ok _
  rw [List.take_left' List.length_reverse, List.drop_left' List.length_reverse]

/-- Behind whatever has been written, `ts` is written as `us`. -/
def WrittenAs (ts us : List Token) : Prop :=
  ∀ before, ts.foldlM desugarStep before = .ok (us.reverse ++ before)

theorem WrittenAs.append (h : WrittenAs ts us) (h' : WrittenAs ts' us') :
    WrittenAs (ts ++ ts') (us ++ us') := by
  intro before
  rw [List.foldlM_append, h before]
  show List.foldlM desugarStep (us.reverse ++ before) ts' = _
  rw [h', List.reverse_append, List.append_assoc]

theorem writtenAs_self (h : t.kind ≠ .question) (h' : t.kind ≠ .plus) : WrittenAs [t] [t] := by
  intro before
  show (desugarStep before t >>= pure) = _
  rw [desugarStep_other h h']
  rfl

/-! ## Pieces -/

/-- The tokens spell a phrase with the given plain tree. -/
def Spells (k : Category) (ts : List Token) (e : Expr) : Prop :=
  ∃ p : Phrase Atom k, kinds ts = p.kinds ∧ p.expr = e

/-- The tokens consist of one factor for each of the trees, and the last factor is an
operand. -/
def Pieces (ts : List Token) (trees : Trees) : Prop :=
  ∃ pieces x, ts = pieces.flatten ++ x ∧ List.Forall₂ (Spells .factor) pieces trees.before ∧
    Spells .factor x trees.last ∧ IsOperand x

theorem Spells.group {t' : Token} (ht : t.kind = .openParen) (h : Spells .union ts e)
    (ht' : t'.kind = .closeParen) : Spells .factor (t :: (ts ++ [t'])) e := by
  obtain ⟨p, hp, rfl⟩ := h
  refine ⟨.ofAtom (.group p), ?_, rfl⟩
  show _ = (Phrase.group p).kinds
  rw [Phrase.kinds_group, kinds_cons, kinds_append, hp, ht, kinds_cons, ht', kinds_nil]

theorem Spells.star (h : Spells .factor ts e) (ht : t.kind = .star) :
    Spells .factor (ts ++ [t]) e.star := by
  obtain ⟨p, hp, rfl⟩ := h
  refine ⟨.repeated p .star, ?_, rfl⟩
  rw [Phrase.kinds_repeated, kinds_append, hp, kinds_cons, ht, kinds_nil]
  rfl

theorem Spells.juxtapose (hl : Spells .concat ts l) (hr : Spells .factor us r) :
    Spells .concat (ts ++ us) (.concat l r) := by
  obtain ⟨p, hp, rfl⟩ := hl
  obtain ⟨q, hq, rfl⟩ := hr
  refine ⟨.juxtapose p q, ?_, rfl⟩
  rw [Phrase.kinds_juxtapose, kinds_append, hp, hq]

theorem Spells.alternate (hl : Spells .union ts l) (ht : t.kind = .union)
    (hr : Spells .concat us r) : Spells .union (ts ++ t :: us) (.union l r) := by
  obtain ⟨p, hp, rfl⟩ := hl
  obtain ⟨q, hq, rfl⟩ := hr
  refine ⟨.alternate p q, ?_, rfl⟩
  rw [Phrase.kinds_alternate, kinds_append, hp, kinds_cons, ht, hq]

theorem Spells.ofFactor (h : Spells .factor ts e) : Spells .concat ts e := by
  obtain ⟨p, hp, rfl⟩ := h
  exact ⟨.ofFactor p, hp, rfl⟩

theorem Spells.ofConcat (h : Spells .concat ts e) : Spells .union ts e := by
  obtain ⟨p, hp, rfl⟩ := h
  exact ⟨.ofConcat p, hp, rfl⟩

theorem spells_flatten {pieces : List (List Token)} {es : List Expr} (h : Spells .concat ts e)
    (hpieces : List.Forall₂ (Spells .factor) pieces es) :
    Spells .concat (ts ++ pieces.flatten) (es.foldl .concat e) := by
  induction hpieces generalizing ts e with
  | nil => simpa using h
  | cons hpiece _ ih =>
      rw [List.flatten_cons, ← List.append_assoc, List.foldl_cons]
      exact ih (h.juxtapose hpiece)

/-- Pieces spell the concatenation of their trees. -/
theorem Pieces.spells {trees : Trees} (h : Pieces ts trees) : Spells .concat ts trees.joined := by
  obtain ⟨before, last⟩ := trees
  obtain ⟨pieces, x, rfl, hbefore, hlast, -⟩ := h
  cases hbefore with
  | nil => exact hlast.ofFactor
  | cons hpiece hpieces =>
      rw [List.flatten_cons]
      exact (spells_flatten hpiece.ofFactor hpieces).juxtapose hlast

theorem Pieces.single (h : Spells .factor ts e) (hop : IsOperand ts) :
    Pieces ts (.single e) := ⟨[], ts, rfl, .nil, h, hop⟩

theorem Pieces.append {trees trees' : Trees} (h : Pieces ts trees) (h' : Pieces us trees') :
    Pieces (ts ++ us) (trees.append trees') := by
  obtain ⟨pieces, x, rfl, hbefore, hlast, -⟩ := h
  obtain ⟨pieces', x', rfl, hbefore', hlast', hop⟩ := h'
  refine ⟨pieces ++ [x] ++ pieces', x', by simp, ?_, hlast', hop⟩
  exact List.rel_append (List.rel_append hbefore (.cons hlast .nil)) hbefore'

/-- What a factor has become, with a sign behind it. -/
theorem Pieces.repeated {trees : Trees} {op : Repetition} (hts : WrittenAs ts us)
    (h : Pieces us trees) (ht : t.kind = op.kind) :
    ∃ us', WrittenAs (ts ++ [t]) us' ∧ Pieces us' (trees.repeated op) := by
  obtain ⟨pieces, x, rfl, hbefore, hlast, hop⟩ := h
  have hstep : ∀ before, (ts ++ [t]).foldlM desugarStep before =
      desugarStep (x.reverse ++ (pieces.flatten.reverse ++ before)) t := by
    intro before
    rw [List.foldlM_append, hts before, List.reverse_append, List.append_assoc]
    show (desugarStep _ t >>= pure) = _
    rw [bind_pure]
  cases op with
  | star =>
      refine ⟨pieces.flatten ++ (x ++ [t]), fun before => ?_, pieces, x ++ [t], rfl, hbefore,
        hlast.star ht, hop.star ht⟩
      rw [hstep, desugarStep_other (by rw [ht]; decide) (by rw [ht]; decide)]
      simp
  | plus =>
      refine ⟨pieces.flatten ++ x ++ (x ++ [⟨.star, t.span⟩]), fun before => ?_, pieces ++ [x],
        x ++ [⟨.star, t.span⟩], by simp, List.rel_append hbefore (.cons hlast .nil),
        hlast.star rfl, hop.star rfl⟩
      rw [hstep, desugarStep_plus ht hop]
      simp
  | question =>
      have hspells : Spells .union (x ++ [⟨.union, t.span⟩, ⟨.epsilon, t.span⟩])
          (.union trees.last .epsilon) :=
        hlast.ofFactor.ofConcat.alternate rfl
          ⟨.ofFactor (.ofAtom (.leaf .epsilon)), rfl, rfl⟩
      obtain ⟨p, hp, -⟩ := id hspells
      refine ⟨pieces.flatten ++ (⟨.openParen, t.span⟩ ::
        (x ++ [⟨.union, t.span⟩, ⟨.epsilon, t.span⟩] ++ [⟨.closeParen, t.span⟩])),
        fun before => ?_, pieces, _, rfl, hbefore, hspells.group rfl rfl,
        isOperand_group rfl (balanced_of_kinds p hp) rfl⟩
      rw [hstep, desugarStep_question ht hop]
      simp

/-- What the tokens of a phrase have become: pieces for its trees, or for a union a union. -/
def Outcome : Category → List Token → Trees → Prop
  | .union, ts, trees => Spells .union ts trees.joined
  | _, ts, trees => Pieces ts trees

end Token

open Token

theorem Phrase.exists_writtenAs (p : Phrase Atom k) (h : Token.kinds ts = p.kinds) :
    ∃ us, WrittenAs ts us ∧ Outcome k us p.trees := by
  induction p generalizing ts with
  | leaf a =>
      obtain ⟨t, rfl, ht⟩ := kinds_eq_singleton_iff.1 h
      have hspells : Spells .factor [t] a.expr := ⟨.ofAtom (.leaf a), h, rfl⟩
      exact ⟨[t], writtenAs_self (ht.trans_ne (a.kind_ne rfl)) (ht.trans_ne (a.kind_ne rfl)),
        .single hspells (isOperand_atom ht)⟩
  | group u ih =>
      rw [kinds_group] at h
      obtain ⟨t, tr, rfl, ht, hr⟩ := kinds_eq_cons_iff.1 h
      obtain ⟨tu, tr, rfl, hu, hr⟩ := kinds_eq_append_iff.1 hr
      obtain ⟨t', rfl, ht'⟩ := kinds_eq_singleton_iff.1 hr
      obtain ⟨us, hwritten, hspells⟩ := ih hu
      have hopen : WrittenAs [t] [t] := writtenAs_self (by rw [ht]; decide) (by rw [ht]; decide)
      have hclose : WrittenAs [t'] [t'] :=
        writtenAs_self (by rw [ht']; decide) (by rw [ht']; decide)
      obtain ⟨p, hp, -⟩ := id hspells
      exact ⟨t :: (us ++ [t']), hopen.append (hwritten.append hclose),
        .single (Spells.group ht hspells ht') (isOperand_group ht (balanced_of_kinds p hp) ht')⟩
  | ofAtom a ih => exact ih h
  | repeated f op ih =>
      rw [kinds_repeated] at h
      obtain ⟨tf, tr, rfl, hf, hr⟩ := kinds_eq_append_iff.1 h
      obtain ⟨t, rfl, ht⟩ := kinds_eq_singleton_iff.1 hr
      obtain ⟨us, hwritten, hpieces⟩ := ih hf
      exact Pieces.repeated hwritten hpieces ht
  | ofFactor f ih => exact ih h
  | juxtapose l r ihl ihr =>
      rw [kinds_juxtapose] at h
      obtain ⟨tl, tr, rfl, hl, hr⟩ := kinds_eq_append_iff.1 h
      obtain ⟨us, hwritten, hpieces⟩ := ihl hl
      obtain ⟨us', hwritten', hpieces'⟩ := ihr hr
      exact ⟨us ++ us', hwritten.append hwritten', Pieces.append hpieces hpieces'⟩
  | ofConcat c ih =>
      obtain ⟨us, hwritten, hpieces⟩ := ih h
      exact ⟨us, hwritten, (Pieces.spells hpieces).ofConcat⟩
  | alternate l r ihl ihr =>
      rw [kinds_alternate] at h
      obtain ⟨tl, tr, rfl, hl, hr⟩ := kinds_eq_append_iff.1 h
      obtain ⟨t, tr, rfl, ht, hr⟩ := kinds_eq_cons_iff.1 hr
      obtain ⟨us, hwritten, hspells⟩ := ihl hl
      obtain ⟨us', hwritten', hpieces⟩ := ihr hr
      have hbar : WrittenAs [t] [t] := writtenAs_self (by rw [ht]; decide) (by rw [ht]; decide)
      exact ⟨us ++ t :: us', hwritten.append (hbar.append hwritten'),
        Spells.alternate hspells ht (Pieces.spells hpieces)⟩

/-- Written out, the tokens of a phrase spell one whose plain tree is the written-out
tree. -/
theorem Phrase.desugar_eq (p : Phrase Atom .union) (h : Token.kinds ts = p.kinds) :
    ∃ us, desugar ts = .ok us ∧ Spells .union us p.tree := by
  obtain ⟨us, hwritten, hspells⟩ := p.exists_writtenAs h
  refine ⟨us, ?_, hspells⟩
  rw [desugar, hwritten []]
  show Except.ok (us.reverse ++ []).reverse = _
  rw [List.append_nil, List.reverse_reverse]

end Regular
