import Regular.Expr.Parse
import Regular.Proofs.Outcome
import Regular.Proofs.WellFormed

/-!
# The stages behind the tokens turn a phrase into its plain tree

Three stages follow once tokens are there: concatenation is made explicit, the tokens are
brought into postfix order, and that order is folded into a tree (`Token.toExpr`). On tokens
that spell a phrase of the grammar they succeed, and the result is the plain tree of the
phrase (`Phrase.toExpr_eq`).

The stack of pending operators is what the proof is about. When the tokens of a phrase have
been read, some of its operators are still pending on top of those that were pending before.
They bind at least as tightly as the category of the phrase says, so the next sign that does
not belong to the phrase takes precisely them off; and what was pending before binds less
tightly than the category, so no sign inside the phrase takes anything of that
(`Phrase.reorder_eq`).
-/

namespace Regular

variable {k : Category} {ts ts' : List Token} {t : Token} {pending own out : List Token}

namespace Token

/-- The stages behind the tokens. -/
def toExpr (ts : List Token) : Except SyntaxError Expr :=
  Postfix.ofTokens (joinOperands ts) >>= Postfix.toExpr

/-- The kinds of the tokens. -/
def kinds (ts : List Token) : List TokenKind := ts.map (·.kind)

@[simp] theorem kinds_nil : kinds [] = [] := rfl

@[simp] theorem kinds_cons : kinds (t :: ts) = t.kind :: kinds ts := rfl

@[simp] theorem kinds_append : kinds (ts ++ ts') = kinds ts ++ kinds ts' := List.map_append

theorem kinds_eq_append_iff {l r : List TokenKind} :
    kinds ts = l ++ r ↔ ∃ tl tr, ts = tl ++ tr ∧ kinds tl = l ∧ kinds tr = r :=
  List.map_eq_append_iff

theorem kinds_eq_cons_iff {a : TokenKind} {r : List TokenKind} :
    kinds ts = a :: r ↔ ∃ t tr, ts = t :: tr ∧ t.kind = a ∧ kinds tr = r :=
  List.map_eq_cons_iff

theorem kinds_eq_singleton_iff {a : TokenKind} : kinds ts = [a] ↔ ∃ t, ts = [t] ∧ t.kind = a := by
  constructor
  · intro h
    obtain ⟨t, tr, rfl, ht, hr⟩ := kinds_eq_cons_iff.1 h
    obtain rfl := List.map_eq_nil_iff.1 hr
    exact ⟨t, rfl, ht⟩
  · rintro ⟨t, rfl, rfl⟩
    rfl

/-! ## Explicit concatenation -/

/-- `joinOperands` behind a token of which is known whether it ends an operand. -/
def joinFrom (ends : Bool) : List Token → List Token
  | [] => []
  | t :: ts =>
    (if ends && t.kind.startsOperand then [⟨.concat, .byte t.span.first⟩] else []) ++
      t :: joinFrom t.kind.endsOperand ts

theorem joinOperands_cons (t : Token) (ts : List Token) :
    joinOperands (t :: ts) = t :: joinFrom t.kind.endsOperand ts := by
  induction ts generalizing t with
  | nil => rfl
  | cons a as ih =>
      rw [joinOperands, ih, joinFrom]
      split <;> simp_all

theorem joinOperands_eq (ts : List Token) : joinOperands ts = joinFrom false ts := by
  cases ts with
  | nil => rfl
  | cons t ts => rw [joinOperands_cons, joinFrom, Bool.false_and, if_neg Bool.false_ne_true]; rfl

theorem joinFrom_append (ends : Bool) (ts ts' : List Token) :
    joinFrom ends (ts ++ ts') =
      joinFrom ends ts ++ joinFrom (TokenKind.endsAfter ends (kinds ts)) ts' := by
  induction ts generalizing ends with
  | nil => rfl
  | cons t ts ih =>
      rw [List.cons_append, joinFrom, joinFrom, ih, List.append_assoc]
      rfl

end Token

open Token

namespace Phrase

/-- The kinds of the tokens that spell a phrase, with explicit concatenation. -/
def joinedKinds : {k : Category} → Phrase Atom k → List TokenKind
  | _, leaf a => [a.kind]
  | _, group u => .openParen :: (u.joinedKinds ++ [.closeParen])
  | _, ofAtom a => a.joinedKinds
  | _, repeated f op => f.joinedKinds ++ [op.kind]
  | _, ofFactor f => f.joinedKinds
  | _, juxtapose l r => l.joinedKinds ++ .concat :: r.joinedKinds
  | _, ofConcat c => c.joinedKinds
  | _, alternate l r => l.joinedKinds ++ .union :: r.joinedKinds

/-- A concatenation stands before a phrase if an operand ends before it, and inside of the
phrase between its factors. -/
theorem kinds_joinFrom (p : Phrase Atom k) (h : Token.kinds ts = p.kinds) (ends : Bool) :
    Token.kinds (joinFrom ends ts) = (if ends then [.concat] else []) ++ p.joinedKinds := by
  induction p generalizing ts ends with
  | leaf a =>
      obtain ⟨t, rfl, ht⟩ := kinds_eq_singleton_iff.1 h
      have hstart : t.kind.startsOperand = true := by rw [ht]; cases a <;> rfl
      rw [joinFrom, hstart, joinFrom, joinedKinds]
      cases ends <;> simp [ht, Symbol.kind]
  | group u ih =>
      rw [kinds_group] at h
      obtain ⟨t, tr, rfl, ht, hr⟩ := kinds_eq_cons_iff.1 h
      obtain ⟨tu, tr, rfl, hu, hr⟩ := kinds_eq_append_iff.1 hr
      obtain ⟨t', rfl, ht'⟩ := kinds_eq_singleton_iff.1 hr
      rw [joinFrom, joinFrom_append, hu, u.endsAfter_kinds, joinFrom, joinFrom, ht, ht',
        joinedKinds]
      cases ends <;>
        simp [TokenKind.startsOperand, TokenKind.endsOperand, ht, ht', ih hu]
  | ofAtom a ih => exact ih h ends
  | repeated f op ih =>
      rw [kinds_repeated] at h
      obtain ⟨tf, tr, rfl, hf, hr⟩ := kinds_eq_append_iff.1 h
      obtain ⟨t, rfl, ht⟩ := kinds_eq_singleton_iff.1 hr
      have hstart : t.kind.startsOperand = false := by rw [ht]; cases op <;> rfl
      rw [joinFrom_append, hf, f.endsAfter_kinds, joinFrom, joinFrom, hstart, joinedKinds]
      simp [ih hf, ht]
  | ofFactor f ih => exact ih h ends
  | juxtapose l r ihl ihr =>
      rw [kinds_juxtapose] at h
      obtain ⟨tl, tr, rfl, hl, hr⟩ := kinds_eq_append_iff.1 h
      rw [joinFrom_append, hl, l.endsAfter_kinds, joinedKinds]
      simp [ihl hl, ihr hr]
  | ofConcat c ih => exact ih h ends
  | alternate l r ihl ihr =>
      rw [kinds_alternate] at h
      obtain ⟨tl, tr, rfl, hl, hr⟩ := kinds_eq_append_iff.1 h
      obtain ⟨t, tr, rfl, ht, hr⟩ := kinds_eq_cons_iff.1 hr
      rw [joinFrom_append, hl, l.endsAfter_kinds, joinFrom, ht, joinedKinds]
      simp [TokenKind.startsOperand, TokenKind.endsOperand, ihl hl, ihr hr, ht]

theorem kinds_joinOperands (p : Phrase Atom k) (h : Token.kinds ts = p.kinds) :
    Token.kinds (joinOperands ts) = p.joinedKinds := by
  rw [joinOperands_eq, p.kinds_joinFrom h]
  rfl

end Phrase

/-! ## Postfix order -/

/-- How tightly the operators of a phrase bind at least, outside of groups. -/
def Category.level : Category → Nat
  | union => 2
  | concat => 3
  | factor => 4
  | atom => 5

/-- The last pending operator binds less tightly than `level`, if it is not a parenthesis. -/
def Below (level : Nat) (pending : List Token) : Prop :=
  ∀ t ∈ pending.head?, t.kind = .openParen ∨ t.kind.precedence < level

/-- All operators bind at least as tightly as `level`. -/
def Above (level : Nat) (own : List Token) : Prop :=
  ∀ t ∈ own, t.kind ≠ .openParen ∧ level ≤ t.kind.precedence

theorem Below.mono {level level' : Nat} (h : Below level pending) (hle : level ≤ level') :
    Below level' pending := fun t ht => (h t ht).imp_right fun hlt => Nat.lt_of_lt_of_le hlt hle

theorem Above.mono {level level' : Nat} (h : Above level own) (hle : level' ≤ level) :
    Above level' own := fun t ht => ⟨(h t ht).1, Nat.le_trans hle (h t ht).2⟩

theorem below_cons {level : Nat} (h : t.kind = .openParen ∨ t.kind.precedence < level) :
    Below level (t :: pending) := by
  intro t' ht'
  obtain rfl := Option.some.inj ht'
  exact h

theorem Above.nil (level : Nat) : Above level [] := fun _ ht => absurd ht List.not_mem_nil

theorem above_append {level : Nat} {own own' : List Token} (h : Above level own)
    (h' : Above level own') : Above level (own ++ own') := fun t ht =>
  (List.mem_append.1 ht).elim (h t) (h' t)

theorem above_singleton (h : t.kind ≠ .openParen) : Above t.kind.precedence [t] := by
  intro t' ht'
  obtain rfl := List.mem_singleton.1 ht'
  exact ⟨h, Nat.le_refl _⟩

theorem isOpen_eq_true_iff : Postfix.isOpen t = true ↔ t.kind = .openParen := beq_iff_eq

theorem yieldsTo_eq_true_iff {top : Token} :
    Postfix.yieldsTo t top = true ↔
      top.kind ≠ .openParen ∧ t.kind.precedence ≤ top.kind.precedence := by
  simp [Postfix.yieldsTo, Postfix.isOpen]

/-- A sign takes off what binds as tightly as itself, down to what binds less tightly. -/
theorem span_yieldsTo (hown : Above t.kind.precedence own)
    (hpending : Below t.kind.precedence pending) :
    (own ++ pending).takeWhile (Postfix.yieldsTo t) = own ∧
      (own ++ pending).dropWhile (Postfix.yieldsTo t) = pending := by
  have hall : ∀ top ∈ own, Postfix.yieldsTo t top = true := fun top htop =>
    yieldsTo_eq_true_iff.2 (hown top htop)
  rw [List.takeWhile_append_of_pos hall, List.dropWhile_append_of_pos hall]
  cases pending with
  | nil => simp
  | cons top below =>
      have hnot : Postfix.yieldsTo t top ≠ true := by
        intro hyield
        obtain ⟨hopen, hle⟩ := yieldsTo_eq_true_iff.1 hyield
        rcases hpending top rfl with heq | hlt
        · exact hopen heq
        · omega
      simp [hnot]

/-- A closing parenthesis takes off what is pending down to the opening one. -/
theorem span_isOpen {level : Nat} (pending : List Token) (hown : Above level own)
    (ht : t.kind = .openParen) :
    (own ++ t :: pending).takeWhile (!Postfix.isOpen ·) = own ∧
      (own ++ t :: pending).dropWhile (!Postfix.isOpen ·) = t :: pending := by
  have hall : ∀ top ∈ own, (!Postfix.isOpen top) = true := by
    intro top htop
    simp [Postfix.isOpen, (hown top htop).1]
  rw [List.takeWhile_append_of_pos hall, List.dropWhile_append_of_pos hall]
  simp [Postfix.isOpen, ht]

namespace Postfix

theorem reorder_atom {a : Atom} (ht : t.kind = a.kind) (pending ts : List Token) :
    reorder pending (t :: ts) = ([t] ++ ·) <$> reorder pending ts := by
  cases a <;> rw [reorder, ht] <;> rfl

theorem reorder_open (ht : t.kind = .openParen) (pending ts : List Token) :
    reorder pending (t :: ts) = reorder (t :: pending) ts := by
  rw [reorder, ht]
  rfl

theorem reorder_operator (ht : t.kind ∈ [.union, .concat, .star, .plus, .question])
    (hown : Above t.kind.precedence own) (hpending : Below t.kind.precedence pending)
    (ts : List Token) :
    reorder (own ++ pending) (t :: ts) = (own ++ ·) <$> reorder (t :: pending) ts := by
  obtain ⟨htake, hdrop⟩ := span_yieldsTo hown hpending
  simp only [List.mem_cons, List.not_mem_nil, or_false] at ht
  rcases ht with ht | ht | ht | ht | ht <;> rw [reorder, ht] <;> simp only [htake, hdrop] <;> rfl

theorem reorder_close {level : Nat} {t' : Token} (ht : t.kind = .openParen)
    (ht' : t'.kind = .closeParen) (hown : Above level own) (pending ts : List Token) :
    reorder (own ++ t :: pending) (t' :: ts) = (own ++ ·) <$> reorder pending ts := by
  obtain ⟨htake, hdrop⟩ := span_isOpen pending hown ht
  rw [reorder, ht']
  simp only [htake, hdrop]
  rfl

end Postfix

/-! ## The tree -/

/-- The stream puts one tree on top of the operands. -/
def Evaluates (stream : List Token) (e : Expr) : Prop :=
  ∀ operands, stream.foldlM Postfix.operandsAfter operands = .ok (e :: operands)

theorem Evaluates.unary {op : Repetition} {e : Expr} (h : Evaluates out e)
    (ht : t.kind = op.kind) : Evaluates (out ++ [t]) (op.expr e) := by
  intro operands
  rw [List.foldlM_append, h operands]
  cases op <;> simp [Postfix.operandsAfter, ht, Repetition.kind, Repetition.expr] <;> rfl

theorem Evaluates.binary {out' : List Token} {l r e : Expr} (hl : Evaluates out l)
    (hr : Evaluates out' r)
    (ht : ∀ operands, Postfix.operandsAfter (r :: l :: operands) t = .ok (e :: operands)) :
    Evaluates (out ++ out' ++ [t]) e := by
  intro operands
  rw [List.foldlM_append, List.foldlM_append, hl operands]
  show (List.foldlM Postfix.operandsAfter (l :: operands) out' >>= fun s =>
    List.foldlM Postfix.operandsAfter s [t]) = _
  rw [hr]
  show (Postfix.operandsAfter (r :: l :: operands) t >>= pure) = _
  rw [ht]
  rfl

namespace Postfix

theorem map_append_map (out out' : List Token) (x : Except SyntaxError (List Token)) :
    (out ++ ·) <$> ((out' ++ ·) <$> x) = (out ++ out' ++ ·) <$> x := by
  cases x with
  | error e => rfl
  | ok stream => exact congrArg Except.ok (List.append_assoc ..).symm

end Postfix

/-- Reading the tokens of a phrase of category `k` writes `out` and leaves `own` pending, and
the two together evaluate to `e`. -/
structure Reads (k : Category) (ts pending out own : List Token) (e : Expr) : Prop where
  above : Above k.level own
  evaluates : Evaluates (out ++ own) e
  reorder : ∀ rest, Postfix.reorder pending (ts ++ rest) =
    (out ++ ·) <$> Postfix.reorder (own ++ pending) rest

theorem Reads.lower {k k' : Category} {e : Expr} (h : Reads k ts pending out own e)
    (hle : k'.level ≤ k.level) : Reads k' ts pending out own e :=
  { h with above := h.above.mono hle }

/-- An operator behind a phrase takes the phrase's own operators off. -/
theorem Reads.operator {e : Expr} (h : Reads k ts pending out own e)
    (ht : t.kind ∈ [.union, .concat, .star, .plus, .question])
    (hown : t.kind.precedence ≤ k.level) (hpending : Below t.kind.precedence pending)
    (rest : List Token) :
    Postfix.reorder pending (ts ++ t :: rest) =
      (out ++ own ++ ·) <$> Postfix.reorder (t :: pending) rest := by
  rw [h.reorder, Postfix.reorder_operator ht (h.above.mono hown) hpending, Postfix.map_append_map]

/-- A sign between two phrases: the first one's operators are taken off when it is read, the
second one's are left pending above it. -/
theorem Reads.binary {k' : Category} {tl tr out' own' : List Token} {l r e : Expr}
    (hl : Reads k tl pending out own l) (hr : Reads k' tr (t :: pending) out' own' r)
    (ht : t.kind ∈ [.union, .concat]) (hprec : t.kind.precedence = k.level)
    (hle : k.level ≤ k'.level) (hpending : Below k.level pending)
    (he : ∀ operands, Postfix.operandsAfter (r :: l :: operands) t = .ok (e :: operands)) :
    Reads k (tl ++ t :: tr) pending (out ++ own ++ out') (own' ++ [t]) e := by
  have hop : t.kind ∈ [.union, .concat, .star, .plus, .question] := by
    rcases List.mem_pair.1 ht with ht | ht <;> rw [ht] <;> decide
  refine ⟨?_, ?_, fun rest => ?_⟩
  · refine above_append (hr.above.mono hle) ?_
    rw [← hprec]
    refine above_singleton fun hopen => ?_
    rw [hopen] at ht
    exact absurd ht (by decide)
  · rw [← List.append_assoc, List.append_assoc (out ++ own)]
    exact hl.evaluates.binary hr.evaluates he
  · rw [List.append_assoc, List.cons_append,
      hl.operator hop (Nat.le_of_eq hprec) (hprec ▸ hpending), hr.reorder,
      Postfix.map_append_map, List.append_assoc own', List.singleton_append]

theorem Phrase.reorder_eq (p : Phrase Atom k) (h : Token.kinds ts = p.joinedKinds)
    (hpending : Below k.level pending) : ∃ out own, Reads k ts pending out own p.expr := by
  induction p generalizing ts pending with
  | leaf a =>
      obtain ⟨t, rfl, ht⟩ := kinds_eq_singleton_iff.1 h
      refine ⟨[t], [], Above.nil _, fun operands => ?_, fun rest => ?_⟩
      · cases a <;> simp only [Atom.kind] at ht <;> simp [Postfix.operandsAfter, ht] <;> rfl
      · exact Postfix.reorder_atom ht pending rest
  | group u ih =>
      obtain ⟨t, tr, rfl, ht, hr⟩ := kinds_eq_cons_iff.1 h
      obtain ⟨tu, tr, rfl, hu, hr⟩ := kinds_eq_append_iff.1 hr
      obtain ⟨t', rfl, ht'⟩ := kinds_eq_singleton_iff.1 hr
      obtain ⟨out, own, hread⟩ := ih hu (below_cons (Or.inl ht))
      refine ⟨out ++ own, [], Above.nil _, ?_, fun rest => ?_⟩
      · rw [List.append_nil]
        exact hread.evaluates
      · rw [List.cons_append, Postfix.reorder_open ht, List.append_assoc, hread.reorder,
          List.singleton_append, Postfix.reorder_close ht ht' hread.above, Postfix.map_append_map]
        rfl
  | ofAtom a ih =>
      obtain ⟨out, own, hread⟩ := ih h (hpending.mono (by decide))
      exact ⟨out, own, hread.lower (by decide)⟩
  | repeated f op ih =>
      obtain ⟨tf, tr, rfl, hf, hr⟩ := kinds_eq_append_iff.1 h
      obtain ⟨t, rfl, ht⟩ := kinds_eq_singleton_iff.1 hr
      have hprec : t.kind.precedence = 4 := by rw [ht]; cases op <;> rfl
      obtain ⟨out, own, hread⟩ := ih hf hpending
      refine ⟨out ++ own, [t], ?_, hread.evaluates.unary ht, fun rest => ?_⟩
      · rw [show Category.factor.level = t.kind.precedence from hprec.symm]
        exact above_singleton (by rw [ht]; cases op <;> decide)
      · rw [List.append_assoc]
        refine hread.operator ?_ (Nat.le_of_eq hprec) ?_ rest
        · rw [ht]
          cases op <;> decide
        · rw [hprec]
          exact hpending
  | ofFactor f ih =>
      obtain ⟨out, own, hread⟩ := ih h (hpending.mono (by decide))
      exact ⟨out, own, hread.lower (by decide)⟩
  | juxtapose l r ihl ihr =>
      obtain ⟨tl, tr, rfl, hl, hr⟩ := kinds_eq_append_iff.1 h
      obtain ⟨t, tr, rfl, ht, hr⟩ := kinds_eq_cons_iff.1 hr
      obtain ⟨out, own, hread⟩ := ihl hl hpending
      obtain ⟨out', own', hread'⟩ := ihr hr (below_cons (Or.inr (by rw [ht]; decide)))
      refine ⟨_, _, hread.binary hread' (by rw [ht]; decide) (by rw [ht]; rfl) (by decide)
        hpending fun operands => ?_⟩
      rw [Postfix.operandsAfter, ht]
      rfl
  | ofConcat c ih =>
      obtain ⟨out, own, hread⟩ := ih h (hpending.mono (by decide))
      exact ⟨out, own, hread.lower (by decide)⟩
  | alternate l r ihl ihr =>
      obtain ⟨tl, tr, rfl, hl, hr⟩ := kinds_eq_append_iff.1 h
      obtain ⟨t, tr, rfl, ht, hr⟩ := kinds_eq_cons_iff.1 hr
      obtain ⟨out, own, hread⟩ := ihl hl hpending
      obtain ⟨out', own', hread'⟩ := ihr hr (below_cons (Or.inr (by rw [ht]; decide)))
      refine ⟨_, _, hread.binary hread' (by rw [ht]; decide) (by rw [ht]; rfl) (by decide)
        hpending fun operands => ?_⟩
      rw [Postfix.operandsAfter, ht]
      rfl

/-- The tokens of a phrase are folded into its plain tree. -/
theorem Phrase.toExpr_eq (p : Phrase Atom .union) (h : Token.kinds ts = p.kinds) :
    Token.toExpr ts = .ok p.expr := by
  have hbelow : Below Category.union.level [] := fun _ ht => nomatch ht
  obtain ⟨out, own, hread⟩ := p.reorder_eq (p.kinds_joinOperands h) hbelow
  have hnone : own.find? Postfix.isOpen = none := by
    refine List.find?_eq_none.2 fun t ht => ?_
    simp [Postfix.isOpen, (hread.above t ht).1]
  have hstream : Postfix.ofTokens (joinOperands ts) = .ok (out ++ own) := by
    have heq := hread.reorder []
    rw [List.append_nil, List.append_nil, Postfix.reorder, hnone] at heq
    exact heq
  rw [Token.toExpr, hstream]
  show Postfix.toExpr (out ++ own) = _
  rw [Postfix.toExpr, hread.evaluates []]
  rfl

end Regular
