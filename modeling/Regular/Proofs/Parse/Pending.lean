import Regular.Proofs.Parse.Depth

/-!
# What the pending operators hold

While tokens are put into postfix order and folded, the tokens read so far are taken apart by
those that are pending: before each pending operator stands its left operand, and behind the
last one what has been read since (`Token.Held`). The operands on the stack can be counted
stretch by stretch, since all that is not pending has been applied.

An operator may take an operand that does not belong to it, from in front of the group that
it is in. So when one finds too few (`Token.Starved`), it need not be the one that stands at
the gap. But it does stand there, or else next to one of the groups out of which an operand
was taken: a group that is no phrase counts too few operands (`Token.MalformedGroup`). This
is carried along from token to token (`Token.Stands.exists_step`), so it holds of any stream
whose fold fails (`Token.starved_of_reorder`).
-/

namespace Regular

variable {ts us js z l r before after read pending own out : List Token} {t u op : Token}
  {a : TokenKind} {ends : Bool} {m n low : Nat} {es es' : List Expr} {e : SyntaxError}

namespace TokenKind

theorem precedence_le (a : TokenKind) : a.precedence ≤ 4 := by
  cases a with
  | literal c => exact Nat.zero_le 4
  | _ => decide

theorem isAtom_eq_false (h : a.startsOperand = false) : a.isAtom = false ∧ a ≠ .openParen := by
  constructor
  · cases a with
    | literal c => cases h
    | epsilon => cases h
    | _ => rfl
  · rintro rfl
    cases h

theorem isAtom_or_open (h : a.startsOperand = true) (hconcat : a ≠ .concat) :
    a.isAtom = true ∨ a = .openParen := by
  cases a with
  | literal c => exact Or.inl rfl
  | epsilon => exact Or.inl rfl
  | openParen => exact Or.inr rfl
  | concat => exact absurd rfl hconcat
  | union | star | plus | question | closeParen => cases h

/-- What takes one operand is neither counted nor begins an operand. -/
theorem weight_of_precedence (h : a.precedence = 4) : a.weight = 0 ∧ a.startsOperand = false := by
  cases a <;> first | exact ⟨rfl, rfl⟩ | cases h

theorem precedence_of_isAtom (h : a.isAtom = true) : a.precedence = 0 := by
  cases a <;> first | rfl | cases h

theorem eq_concat (h : a.precedence = 3) : a = .concat := by
  cases a <;> first | rfl | cases h

theorem eq_union (h : a.precedence = 2) : a = .union := by
  cases a <;> first | rfl | cases h

theorem ne_paren (h : 1 < a.precedence) : a ≠ .openParen ∧ a ≠ .closeParen := by
  constructor <;> rintro rfl <;> exact absurd h (by decide)

theorem one_lt_of_binary (h : a = .union ∨ a = .concat) : 1 < a.precedence := by
  rcases h with rfl | rfl <;> decide

/-- What the last token leaves room for. -/
inductive Place where
  /-- Nothing, an open parenthesis or a bar: an operand is missing. -/
  | gap
  /-- A concatenation: an operand follows. -/
  | joined
  /-- The end of an operand. -/
  | ended

def place : TokenKind → Place
  | openParen | union => .gap
  | concat => .joined
  | literal _ | epsilon | star | plus | question | closeParen => .ended

/-- May the token follow, where concatenation is explicit? -/
def Place.Allows : Place → TokenKind → Prop
  | gap, a => a ≠ concat
  | joined, a => a.isAtom = true ∨ a = openParen
  | ended, a => a.isAtom = false ∧ a ≠ openParen

theorem place_of_precedence (h : a.precedence = 4) : a.place = .ended := by
  cases a <;> first | rfl | cases h

theorem place_of_isAtom (h : a.isAtom = true) : a.place = .ended := by
  cases a <;> first | rfl | cases h

theorem place_eq (h : a ≠ concat) : a.place = if a.endsOperand then .ended else .gap := by
  cases a with
  | concat => exact absurd rfl h
  | _ => rfl

end TokenKind

/-- The last pending token, if it is an operator, binds less tightly. -/
theorem Below.precedence_lt (h : Below n pending) (ht : t ∈ pending.head?)
    (hprec : 1 < t.kind.precedence) : t.kind.precedence < n :=
  (h t ht).resolve_left (TokenKind.ne_paren hprec).1

open TokenKind (Place)

namespace Token

/-! ## Stretches of tokens -/

/-- The parentheses match, and the operators outside of them bind at least as tightly as
`level`. -/
inductive Tight : Nat → List Token → Prop
  | nil {level : Nat} : Tight level []
  | token {level : Nat} {t : Token} {ts : List Token} (hopen : t.kind ≠ .openParen)
      (hclose : t.kind ≠ .closeParen) (h : t.kind.isAtom = true ∨ level ≤ t.kind.precedence)
      (rest : Tight level ts) : Tight level (t :: ts)
  | group {level : Nat} {t t' : Token} {inner ts : List Token} (hopen : t.kind = .openParen)
      (h : Tight 0 inner) (hclose : t'.kind = .closeParen) (rest : Tight level ts) :
      Tight level (t :: (inner ++ t' :: ts))

theorem Tight.mono (h : Tight n ts) (hle : m ≤ n) : Tight m ts := by
  induction h with
  | nil => exact .nil
  | token hopen hclose h _ ih => exact .token hopen hclose (h.imp_right (Nat.le_trans hle)) (ih hle)
  | group hopen h hclose _ _ ih => exact .group hopen h hclose (ih hle)

theorem Tight.append (h : Tight n ts) (h' : Tight n us) : Tight n (ts ++ us) := by
  induction h with
  | nil => exact h'
  | token hopen hclose h _ ih => exact .token hopen hclose h (ih h')
  | group hopen h hclose _ _ ih =>
      rw [List.cons_append, List.append_assoc]
      exact .group hopen h hclose (ih h')

/-- The tokens spell a phrase with explicit concatenation. -/
def Complete (ts : List Token) : Prop := ∃ p : Phrase Atom .union, kinds ts = p.joinedKinds

/-- A phrase leaves one operand. -/
theorem weight_of_joinedKinds {k : Category} (p : Phrase Atom k) (h : kinds ts = p.joinedKinds) :
    weight ts = 1 := by
  induction p generalizing ts with
  | leaf a =>
      obtain ⟨t, rfl, ht⟩ := kinds_eq_singleton_iff.1 h
      cases a <;> simp [ht, Atom.kind, TokenKind.weight]
  | group u ih =>
      obtain ⟨t, tr, rfl, ht, hr⟩ := kinds_eq_cons_iff.1 h
      obtain ⟨tu, tr, rfl, hu, hr⟩ := kinds_eq_append_iff.1 hr
      obtain ⟨t', rfl, ht'⟩ := kinds_eq_singleton_iff.1 hr
      simp [ih hu, ht, ht', TokenKind.weight]
  | ofAtom a ih => exact ih h
  | repeated f op ih =>
      obtain ⟨tf, tr, rfl, hf, hr⟩ := kinds_eq_append_iff.1 h
      obtain ⟨t, rfl, ht⟩ := kinds_eq_singleton_iff.1 hr
      cases op <;> simp [ih hf, ht, Repetition.kind, TokenKind.weight]
  | ofFactor f ih => exact ih h
  | ofConcat c ih => exact ih h
  | juxtapose l r ihl ihr | alternate l r ihl ihr =>
      obtain ⟨tl, tr, rfl, hl, hr⟩ := kinds_eq_append_iff.1 h
      obtain ⟨t, tr, rfl, ht, hr⟩ := kinds_eq_cons_iff.1 hr
      simp [ihl hl, ihr hr, ht, TokenKind.weight]

theorem Complete.weight_eq (h : Complete ts) : weight ts = 1 := by
  obtain ⟨p, hp⟩ := h
  exact weight_of_joinedKinds p hp

/-! ## Operators that lack an operand -/

/-- Parentheses around something that is no phrase. -/
def MalformedGroup (g : List Token) : Prop :=
  ∃ o inner c, g = o :: (inner ++ [c]) ∧ o.kind = .openParen ∧ c.kind = .closeParen ∧
    Tight 0 inner ∧ ¬Complete inner

/-- Nothing comes before, or an open parenthesis or a bar does. -/
def AfterGap (before : List Token) : Prop :=
  ∀ u ∈ before.getLast?, u.kind = .openParen ∨ u.kind = .union

def AfterGroup (before : List Token) : Prop := ∃ xs g, before = xs ++ g ∧ MalformedGroup g

/-- Nothing comes next, or something that does not begin an operand does. -/
def BeforeGap (after : List Token) : Prop := ∀ u ∈ after.head?, u.kind.startsOperand = false

def HasGroup (ts : List Token) : Prop := ∃ xs g ys, ts = xs ++ (g ++ ys) ∧ MalformedGroup g

/-- What comes next ends the right operand of `t`: a closed parenthesis, or an operator that
does not bind more tightly. -/
def Stops (t : Token) (after : List Token) : Prop :=
  ∀ u ∈ after.head?, u.kind = .closeParen ∨
    1 < u.kind.precedence ∧ u.kind.precedence ≤ t.kind.precedence

/-- The right operand of `t`, as far as the precedence of the operators makes it out, has a
malformed group. -/
def BeforeGroup (t : Token) (after : List Token) : Prop :=
  ∃ r rest, after = r ++ rest ∧ Tight (t.kind.precedence + 1) r ∧ Stops t rest ∧ HasGroup r

/-- The operator stands behind a gap, which no concatenation does, or behind a malformed
group. -/
def LacksLeft (t : Token) (before : List Token) : Prop :=
  t.kind ≠ .concat ∧ AfterGap before ∨ AfterGroup before

/-- The operator, which takes two operands, stands before a gap, which no concatenation does,
or its right operand has a malformed group. -/
def LacksRight (t : Token) (after : List Token) : Prop :=
  t.kind = .union ∧ BeforeGap after ∨
    (t.kind = .union ∨ t.kind = .concat) ∧ BeforeGroup t after

/-- There is a reason next to the operator `t` for it to lack an operand. -/
def Starved (js : List Token) (t : Token) : Prop :=
  ∃ before after, js = before ++ t :: after ∧ (LacksLeft t before ∨ LacksRight t after)

theorem Starved.mem (h : Starved js t) : t ∈ js := by
  obtain ⟨before, after, rfl, -⟩ := h
  simp

theorem HasGroup.append_left (h : HasGroup ts) (us : List Token) : HasGroup (us ++ ts) := by
  obtain ⟨xs, g, ys, rfl, hg⟩ := h
  exact ⟨us ++ xs, g, ys, by simp, hg⟩

theorem HasGroup.append_right (h : HasGroup ts) (us : List Token) : HasGroup (ts ++ us) := by
  obtain ⟨xs, g, ys, rfl, hg⟩ := h
  exact ⟨xs, g, ys ++ us, by simp, hg⟩

theorem BeforeGap.append (h : BeforeGap ts) (hne : ts ≠ []) (us : List Token) :
    BeforeGap (ts ++ us) := by
  cases ts with
  | nil => exact absurd rfl hne
  | cons t ts => exact h

/-- A group that counts too few operands is malformed. -/
theorem malformedGroup_of_weight {o c : Token} (ho : o.kind = .openParen)
    (hc : c.kind = .closeParen) (h : Tight 0 z) (hweight : weight z < 1) :
    MalformedGroup (o :: (z ++ [c])) :=
  ⟨o, z, c, rfl, ho, hc, h, fun hcomplete => Int.ne_of_lt hweight hcomplete.weight_eq⟩

end Token

/-! ## Too few operands -/

namespace Postfix

theorem applyUnary_eq_error {f : Expr → Expr} (h : applyUnary t f es = .error e) :
    es.length = 0 ∧ e = lacksOperand t := by
  cases es with
  | nil => exact ⟨rfl, (Except.error.inj h).symm⟩
  | cons e below => cases h

theorem applyBinary_eq_error {f : Expr → Expr → Expr} (h : applyBinary t f es = .error e) :
    es.length < 2 ∧ e = lacksOperand t := by
  match es with
  | [] => exact ⟨Nat.zero_lt_two, (Except.error.inj h).symm⟩
  | [_] => exact ⟨Nat.one_lt_two, (Except.error.inj h).symm⟩
  | _ :: _ :: _ => cases h

/-- An operator fails for want of operands only. -/
theorem operandsAfter_eq_error (h : operandsAfter es t = .error e) (ht : 1 < t.kind.precedence) :
    e = lacksOperand t ∧ (t.kind.precedence = 4 ∧ es.length = 0 ∨
      (t.kind = .union ∨ t.kind = .concat) ∧ es.length < 2) := by
  unfold operandsAfter at h
  cases hkind : t.kind <;> rw [hkind] at h ht
  case star | plus | question =>
    obtain ⟨hlen, he⟩ := applyUnary_eq_error h
    exact ⟨he, Or.inl ⟨rfl, hlen⟩⟩
  case concat =>
    obtain ⟨hlen, he⟩ := applyBinary_eq_error h
    exact ⟨he, Or.inr ⟨Or.inr rfl, hlen⟩⟩
  case union =>
    obtain ⟨hlen, he⟩ := applyBinary_eq_error h
    exact ⟨he, Or.inr ⟨Or.inl rfl, hlen⟩⟩
  case literal | epsilon => cases h
  case openParen | closeParen => exact absurd ht (by decide)

theorem operandsAfter_atom (es : List Expr) (h : t.kind.isAtom = true) :
    ∃ x, operandsAfter es t = .ok (x :: es) := by
  unfold operandsAfter
  cases hkind : t.kind <;> rw [hkind] at h
  case literal c => exact ⟨_, rfl⟩
  case epsilon => exact ⟨_, rfl⟩
  all_goals cases h

end Postfix

namespace Token

theorem ne_nil_of_operandsAfter (h : Postfix.operandsAfter es t = .ok es') : es' ≠ [] := by
  obtain ⟨-, -, x, -, below, -, rfl, -⟩ := Postfix.operandsAfter_eq_ok h
  exact List.cons_ne_nil x below

/-! ## What is pending -/

theorem below_five (pending : List Token) : Below 5 pending := fun t _ =>
  Or.inr (Nat.lt_succ_of_le t.kind.precedence_le)

/-- What stands behind a pending operator that takes two operands counts one operand, unless
a group in it is malformed or, behind a bar, it begins at a gap. -/
def Filled (pending z : List Token) : Prop :=
  ∀ t ∈ pending.head?, t.kind = .union ∨ t.kind = .concat →
    t.kind = .union ∧ BeforeGap z ∨ 0 < weight z ∨ HasGroup z

/-- The operator `t` becomes pending above `pending`, with `l` for its left operand and `n`
operands on the stack. -/
structure Awaits (pending read l : List Token) (t : Token) (n : Nat) : Prop where
  operator : 1 < t.kind.precedence
  tight : Tight t.kind.precedence l
  below : Below t.kind.precedence pending
  filled : Filled pending l
  nonempty : t.kind = .concat → l ≠ []
  left : 0 < n ∨ LacksLeft t (read ++ l)

/-- The tokens read up to the last pending one, taken apart at the pending ones, and the
number of operands on the stack when the last one became pending. -/
inductive Held : List Token → List Token → Nat → Prop
  | nil : Held [] [] 0
  | operator {pending read l : List Token} {t : Token} {n n' : Nat} (held : Held pending read n)
      (h : Awaits pending read l t n') (hcount : (n' : Int) = n + weight l) :
      Held (t :: pending) (read ++ (l ++ [t])) n'
  | group {pending read : List Token} {t : Token} {n : Nat} (held : Held pending read n)
      (ht : t.kind = .openParen) (hbelow : Below 4 pending) :
      Held (t :: pending) (read ++ [t]) n

/-- In the middle of the tokens: `read` is held by the pending ones, and `z` comes behind
them. All that is not pending has been counted. A sign that takes one operand is pending only
as long as nothing comes behind it. -/
structure Midway (level : Nat) (pending read z : List Token) (es : List Expr) : Prop where
  held : ∃ n, Held pending read n ∧ (es.length : Int) = n + weight z
  tight : Tight level z
  below : Below level pending
  unary : z ≠ [] → Below 4 pending
  filled : Filled pending z

/-- The state between two tokens, of which the last leaves room for what `p` says. -/
inductive Stands : Place → List Token → List Token → List Token → List Expr → Prop
  | gap {pending read : List Token} {es : List Expr} (held : Held pending read es.length)
      (hgap : AfterGap read) (hbelow : Below 3 pending) : Stands .gap pending read [] es
  | joined {pending read : List Token} {es : List Expr} (held : Held pending read es.length)
      (hbelow : Below 4 pending) : Stands .joined pending read [] es
  | ended {pending read z : List Token} {es : List Expr} (h : Midway 5 pending read z es)
      (hlast : (∃ t ∈ pending.head?, t.kind.precedence = 4) ∨
        z ≠ [] ∧ (es ≠ [] ∨ AfterGroup (read ++ z))) : Stands .ended pending read z es

theorem stands_nil : Stands .gap [] [] [] [] :=
  .gap .nil (fun _ hu => nomatch hu) (fun _ ht => nomatch ht)

/-! ## Applying pending operators -/

/-- What an operator on top of the pending ones has for its operands, and how they are
counted. -/
theorem Midway.exists_operands (h : Midway m (t :: pending) read z es)
    (hopen : t.kind ≠ .openParen) : ∃ before l n n', read = before ++ (l ++ [t]) ∧
      Held pending before n ∧ Awaits pending before l t n' ∧ (n' : Int) = n + weight l ∧
      (es.length : Int) = n' + weight z ∧ t.kind.precedence < m := by
  obtain ⟨⟨n', hheld, hlen⟩, -, hbelow, -, -⟩ := h
  have hlt : t.kind.precedence < m := (hbelow t rfl).resolve_left hopen
  cases hheld with
  | operator held hawaits hcount => exact ⟨_, _, _, n', rfl, held, hawaits, hcount, hlen, hlt⟩
  | group _ ht _ => exact absurd ht hopen

/-- Nothing stands behind a pending sign that takes one operand. -/
theorem Midway.eq_nil (h : Midway m (t :: pending) read z es) (ht : t.kind.precedence = 4) :
    z = [] := by
  by_contra hne
  have hlt : t.kind.precedence < 4 := (h.unary hne).precedence_lt rfl (by omega)
  omega

/-- What stands behind the operators below `t` has `t` and its operands at the end. -/
theorem Awaits.filled_append (h : Awaits pending read l t n)
    (hunary : t.kind.precedence = 4 → z = []) (hz : Filled (t :: pending) z) :
    Filled pending (l ++ t :: z) := by
  intro t' ht' hkind'
  have htwo := TokenKind.one_lt_of_binary hkind'
  have hlt := h.below.precedence_lt ht' htwo
  have hle := t.kind.precedence_le
  by_cases hfour : t.kind.precedence = 4
  · obtain ⟨hweight, hstart⟩ := TokenKind.weight_of_precedence hfour
    obtain rfl := hunary hfour
    rcases h.filled t' ht' hkind' with ⟨hunion, hgap⟩ | hpos | hgroup
    · refine Or.inl ⟨hunion, ?_⟩
      cases l with
      | nil =>
          intro u hu
          obtain rfl := Option.some.inj hu
          exact hstart
      | cons u l => exact hgap
    · refine Or.inr (Or.inl ?_)
      rw [weight_append, weight_cons, hweight, weight_nil]
      omega
    · exact Or.inr (Or.inr (hgroup.append_right _))
  · -- the operator is a concatenation, since a bar is below it
    have hconcat : t.kind = .concat := TokenKind.eq_concat (by omega)
    rcases h.filled t' ht' hkind' with ⟨hunion, hgap⟩ | hpos | hgroup
    · exact Or.inl ⟨hunion, hgap.append (h.nonempty hconcat) _⟩
    · rcases hz t rfl (Or.inr hconcat) with ⟨hunion, -⟩ | hpos' | hgroup
      · rw [hconcat] at hunion
        cases hunion
      · refine Or.inr (Or.inl ?_)
        rw [weight_append, weight_cons, hconcat, TokenKind.weight]
        omega
      · exact Or.inr (Or.inr ((hgroup.append_left [t]).append_left l))
    · exact Or.inr (Or.inr (hgroup.append_right _))

/-- An operator that finds its operands becomes a part of what stands behind the others. -/
theorem Midway.pop_ok (h : Midway m (t :: pending) read z es) (hopen : t.kind ≠ .openParen)
    (hstep : Postfix.operandsAfter es t = .ok es') :
    ∃ read' z', read' ++ z' = read ++ z ∧ z' ≠ [] ∧
      Midway t.kind.precedence pending read' z' es' := by
  obtain ⟨before, l, n, n', rfl, hheld, hawaits, hcount, hlen, hlt⟩ := h.exists_operands hopen
  have hclose := (TokenKind.ne_paren hawaits.operator).2
  refine ⟨before, l ++ t :: z, by simp, by simp, ⟨n, hheld, ?_⟩, ?_, hawaits.below,
    fun _ => hawaits.below.mono t.kind.precedence_le, hawaits.filled_append h.eq_nil h.filled⟩
  · rw [length_operandsAfter hstep, hlen, hcount, weight_append, weight_cons]
    omega
  · exact hawaits.tight.append (.token hopen hclose (Or.inr (Nat.le_refl _))
      (h.tight.mono (Nat.le_of_lt hlt)))

/-- An operator that finds too few operands has a reason beside it. -/
theorem Midway.pop_error (h : Midway m (t :: pending) read z es) (hopen : t.kind ≠ .openParen)
    (hstops : Stops t after) (hstep : Postfix.operandsAfter es t = .error e) :
    e = Postfix.lacksOperand t ∧ Starved (read ++ z ++ after) t := by
  obtain ⟨before, l, n, n', rfl, -, hawaits, -, hlen, hlt⟩ := h.exists_operands hopen
  obtain ⟨he, hfew⟩ := Postfix.operandsAfter_eq_error hstep hawaits.operator
  refine ⟨he, before ++ l, z ++ after, by simp, ?_⟩
  rcases hawaits.left with hpos | hleft
  · refine Or.inr ?_
    rcases hfew with ⟨hunary, hzero⟩ | ⟨hbinary, htwo⟩
    · rw [h.eq_nil hunary, weight_nil] at hlen
      omega
    · rcases h.filled t rfl hbinary with ⟨hunion, hgap⟩ | hpos' | hgroup
      · refine Or.inl ⟨hunion, ?_⟩
        cases z with
        | nil =>
            intro u hu
            rcases hstops u hu with hclose | ⟨hprec, hle⟩
            · rw [hclose]
              rfl
            · have htwo : t.kind.precedence = 2 := by rw [hunion]; rfl
              rw [TokenKind.eq_union (by omega : u.kind.precedence = 2)]
              rfl
        | cons u z => exact hgap
      · omega
      · exact Or.inr ⟨hbinary, z, after, rfl, h.tight.mono hlt, hstops, hgroup⟩
  · exact Or.inl hleft

/-- All of `own` are applied, or one of them is starved. Where any are, there is an operand
afterwards. -/
theorem Midway.popAll (h : Midway m (own ++ pending) read z es) (hown : Above low own)
    (hstops : ∀ t ∈ own, Stops t after) (hm : low ≤ m) :
    (∃ es' m' read' z', own.foldlM Postfix.operandsAfter es = .ok es' ∧ low ≤ m' ∧
      read' ++ z' = read ++ z ∧ Midway m' pending read' z' es' ∧
      (own = [] ∧ es' = es ∧ z' = z ∨ es' ≠ [] ∧ z' ≠ [])) ∨
    ∃ t, own.foldlM Postfix.operandsAfter es = .error (Postfix.lacksOperand t) ∧
      Starved (read ++ z ++ after) t := by
  induction own generalizing m read z es with
  | nil => exact Or.inl ⟨es, m, read, z, rfl, hm, rfl, h, Or.inl ⟨rfl, rfl, rfl⟩⟩
  | cons t own ih =>
      obtain ⟨hopen, hle⟩ := hown t List.mem_cons_self
      rw [List.foldlM_cons]
      cases hstep : Postfix.operandsAfter es t with
      | error e =>
          obtain ⟨rfl, hstarved⟩ := h.pop_error hopen (hstops t List.mem_cons_self) hstep
          exact Or.inr ⟨t, rfl, hstarved⟩
      | ok es₁ =>
          obtain ⟨read₁, z₁, heq, hne, h₁⟩ := h.pop_ok hopen hstep
          rcases ih h₁ (fun u hu => hown u (List.mem_cons_of_mem t hu))
            (fun u hu => hstops u (List.mem_cons_of_mem t hu)) hle with
            ⟨es', m', read', z', hok, hm', heq', h', hsome⟩ | ⟨u, herror, hstarved⟩
          · refine Or.inl ⟨es', m', read', z', hok, hm', heq'.trans heq, h', Or.inr ?_⟩
            rcases hsome with ⟨-, rfl, rfl⟩ | hsome
            · exact ⟨ne_nil_of_operandsAfter hstep, hne⟩
            · exact hsome
          · rw [heq] at hstarved
            exact Or.inr ⟨u, herror, hstarved⟩

/-! ## Reading on -/

/-- The tokens may follow each other, where concatenation is explicit. -/
def Spaced : Place → List Token → Prop
  | p, [] => p ≠ .joined
  | p, t :: ts => p.Allows t.kind ∧ Spaced t.kind.place ts

theorem spaced_joinFrom (h : .concat ∉ kinds ts) (ends : Bool) :
    Spaced (if ends then .ended else .gap) (joinFrom ends ts) := by
  induction ts generalizing ends with
  | nil => cases ends <;> simp [joinFrom, Spaced]
  | cons t ts ih =>
      rw [kinds_cons, List.mem_cons, not_or] at h
      have hconcat : t.kind ≠ .concat := Ne.symm h.1
      have hrest : Spaced t.kind.place (joinFrom t.kind.endsOperand ts) := by
        rw [TokenKind.place_eq hconcat]
        exact ih h.2 _
      rw [joinFrom]
      cases ends with
      | false => exact ⟨hconcat, hrest⟩
      | true =>
          cases hstart : t.kind.startsOperand with
          | false => exact ⟨TokenKind.isAtom_eq_false hstart, hrest⟩
          | true =>
              have hjoined : Place.ended.Allows .concat := ⟨rfl, by decide⟩
              exact ⟨hjoined, TokenKind.isAtom_or_open hstart hconcat, hrest⟩

/-! ### The state between two tokens -/

theorem Stands.midway {p : Place} (h : Stands p pending read z es) (hp : p ≠ .joined) :
    Midway 5 pending read z es := by
  cases h with
  | gap held hgap hbelow =>
      refine ⟨⟨es.length, held, by simp⟩, .nil, below_five pending, fun hne => absurd rfl hne, ?_⟩
      intro t ht hkind
      have hlt := hbelow.precedence_lt ht (TokenKind.one_lt_of_binary hkind)
      rcases hkind with hunion | hconcat
      · exact Or.inl ⟨hunion, fun _ hu => nomatch hu⟩
      · rw [hconcat] at hlt
        exact absurd hlt (by decide)
  | joined _ _ => exact absurd rfl hp
  | ended h _ => exact h

/-- Where an operand may begin, nothing has been read since the last pending token, which
does not wait for a left operand alone. -/
theorem Stands.begins {p : Place} (h : Stands p pending read z es) (hp : p ≠ .ended) :
    z = [] ∧ Held pending read es.length ∧ Below 4 pending := by
  cases h with
  | gap held _ hbelow => exact ⟨rfl, held, hbelow.mono (by decide)⟩
  | joined held hbelow => exact ⟨rfl, held, hbelow⟩
  | ended _ _ => exact absurd rfl hp

theorem weight_of_isAtom (h : t.kind.isAtom = true) : t.kind.weight = 1 := by
  cases hkind : t.kind <;> rw [hkind] at h <;> first | rfl | cases h

theorem Stands.atom {p : Place} {x : Expr} (h : Stands p pending read z es) (hp : p ≠ .ended)
    (ht : t.kind.isAtom = true) : Stands .ended pending read (z ++ [t]) (x :: es) := by
  obtain ⟨rfl, hheld, hbelow⟩ := h.begins hp
  have hweight : weight [t] = 1 := by
    rw [weight_cons, weight_of_isAtom ht, weight_nil, Int.add_zero]
  have htight : Tight 5 [t] :=
    .token (TokenKind.ne_of_isAtom ht rfl) (TokenKind.ne_of_isAtom ht rfl) (Or.inl ht) .nil
  refine .ended ⟨⟨es.length, hheld, ?_⟩, htight, below_five pending, fun _ => hbelow,
    fun _ _ _ => Or.inr (Or.inl ?_)⟩
      (Or.inr ⟨List.cons_ne_nil t [], Or.inl (List.cons_ne_nil x es)⟩)
  · rw [List.nil_append, hweight, List.length_cons]
    omega
  · rw [List.nil_append, hweight]
    exact Int.one_pos

theorem Stands.openParen {p : Place} (h : Stands p pending read z es) (hp : p ≠ .ended)
    (ht : t.kind = .openParen) : Stands .gap (t :: pending) (read ++ (z ++ [t])) [] es := by
  obtain ⟨rfl, hheld, hbelow⟩ := h.begins hp
  refine .gap (.group hheld ht hbelow) (fun u hu => ?_) (below_cons (Or.inl ht))
  rw [List.nil_append, List.getLast?_concat] at hu
  obtain rfl := Option.some.inj hu
  exact Or.inl ht

/-- A parenthesis is closed, above which nothing is pending. -/
theorem Midway.closeParen {top : Token} (h : Midway m (top :: pending) read z es)
    (htop : top.kind = .openParen) (ht : t.kind = .closeParen) :
    ∃ read' z', read' ++ z' = read ++ z ++ [t] ∧ Stands .ended pending read' z' es := by
  obtain ⟨⟨n', hheld, hlen⟩, htight, -, -, -⟩ := h
  cases hheld with
  | operator _ hawaits _ => exact absurd htop (TokenKind.ne_paren hawaits.operator).1
  | @group _ before _ _ held _ hbelow =>
      have hweight : weight (top :: (z ++ [t])) = weight z := by
        simp [htop, ht, TokenKind.weight]
      have htight' : Tight 0 z := htight.mono (Nat.zero_le m)
      have hcounts : 0 < weight z ∨ MalformedGroup (top :: (z ++ [t])) := by
        by_cases hpos : 0 < weight z
        · exact Or.inl hpos
        · exact Or.inr (malformedGroup_of_weight htop ht htight' (by omega))
      refine ⟨before, top :: (z ++ [t]), by simp, .ended ⟨⟨n', held, ?_⟩, ?_, below_five pending,
        fun _ => hbelow, fun _ _ _ => Or.inr ?_⟩ (Or.inr ⟨List.cons_ne_nil _ _, ?_⟩)⟩
      · rw [hweight, hlen]
      · exact .group htop htight' ht .nil
      · rw [hweight]
        exact hcounts.imp_right fun hgroup => ⟨[], _, [], by simp, hgroup⟩
      · rcases hcounts with hpos | hgroup
        · refine Or.inl fun hnil => ?_
          rw [hnil, List.length_nil] at hlen
          omega
        · exact Or.inr ⟨before, _, rfl, hgroup⟩

/-- An operator has taken off all that binds as tightly as itself. -/
theorem Midway.push (h : Midway m pending read z es) (hm : t.kind.precedence ≤ m)
    (ht : 1 < t.kind.precedence) (hbelow : Below t.kind.precedence pending)
    (hconcat : t.kind = .concat → z ≠ []) (hleft : es ≠ [] ∨ LacksLeft t (read ++ z)) :
    Stands t.kind.place (t :: pending) (read ++ (z ++ [t])) [] es := by
  obtain ⟨⟨n, hheld, hlen⟩, htight, -, -, hfilled⟩ := h
  have hheld' : Held (t :: pending) (read ++ (z ++ [t])) es.length :=
    .operator hheld ⟨ht, htight.mono hm, hbelow, hfilled, hconcat,
      hleft.imp_left List.length_pos_of_ne_nil⟩ hlen
  have hlast : ∀ u ∈ (read ++ (z ++ [t])).getLast?, u = t := by
    intro u hu
    rw [← List.append_assoc, List.getLast?_concat] at hu
    exact (Option.some.inj hu).symm
  have hle := t.kind.precedence_le
  rcases (by omega : t.kind.precedence = 4 ∨ t.kind.precedence = 3 ∨ t.kind.precedence = 2) with
    hunary | hthree | htwo
  · rw [TokenKind.place_of_precedence hunary]
    refine .ended ⟨⟨es.length, hheld', by simp⟩, .nil, below_five _, fun hne => absurd rfl hne, ?_⟩
      (Or.inl ⟨t, rfl, hunary⟩)
    intro t' ht' hkind
    obtain rfl := Option.some.inj ht'
    rcases hkind with hkind | hkind <;> rw [hkind] at hunary <;> cases hunary
  · rw [TokenKind.eq_concat hthree]
    exact .joined hheld' (below_cons (Or.inr (by omega)))
  · rw [TokenKind.eq_union htwo]
    refine .gap hheld' (fun u hu => ?_) (below_cons (Or.inr (by omega)))
    rw [hlast u hu]
    exact Or.inr (TokenKind.eq_union htwo)

/-! ### One token more -/

/-- What is taken off binds as tightly as the sign that takes it off, and the rest does
not. -/
theorem above_takeWhile (t : Token) (pending : List Token) :
    Above t.kind.precedence (pending.takeWhile (Postfix.yieldsTo t)) ∧
      Below t.kind.precedence (pending.dropWhile (Postfix.yieldsTo t)) := by
  constructor
  · intro top htop
    exact yieldsTo_eq_true_iff.1 (List.mem_takeWhile_imp htop)
  · intro top htop
    have hnot := List.head?_dropWhile_not (Postfix.yieldsTo t) pending
    rw [Option.mem_def.1 htop] at hnot
    simp only at hnot
    rw [← Bool.not_eq_true, yieldsTo_eq_true_iff, not_and_or, not_not, Nat.not_le] at hnot
    exact hnot

theorem above_zero_takeWhile (pending : List Token) :
    Above 0 (pending.takeWhile (!Postfix.isOpen ·)) := by
  intro top htop
  refine ⟨fun hopen => ?_, Nat.zero_le _⟩
  have hnot := List.mem_takeWhile_imp htop
  rw [isOpen_eq_true_iff.2 hopen] at hnot
  cases hnot

/-- An operator that takes nothing off stands behind an operand, or has a reason to lack
one. -/
theorem Stands.left {p : Place} (h : Stands p pending read z es) (hp : p ≠ .joined)
    (hallows : p.Allows t.kind) (hnone : pending.takeWhile (Postfix.yieldsTo t) = []) :
    (t.kind = .concat → z ≠ []) ∧ (es ≠ [] ∨ LacksLeft t (read ++ z)) := by
  cases h with
  | gap held hgap hbelow =>
      refine ⟨fun hconcat => absurd hconcat hallows, Or.inr (Or.inl ⟨hallows, ?_⟩)⟩
      rwa [List.append_nil]
  | joined _ _ => exact absurd rfl hp
  | ended hmid hlast =>
      have hsome : z ≠ [] ∧ (es ≠ [] ∨ AfterGroup (read ++ z)) := by
        rcases hlast with ⟨top, htop, hunary⟩ | hsome
        · -- a sign that takes one operand would have been taken off
          have hyields : Postfix.yieldsTo t top = true := by
            have hopen := (TokenKind.ne_paren (a := top.kind) (by omega)).1
            exact yieldsTo_eq_true_iff.2 ⟨hopen, hunary ▸ t.kind.precedence_le⟩
          obtain ⟨below, rfl⟩ := List.head?_eq_some_iff.1 htop
          rw [List.takeWhile_cons_of_pos hyields] at hnone
          cases hnone
        · exact hsome
      exact ⟨fun _ => hsome.1, hsome.2.imp_right Or.inr⟩

/-- What becomes of `t` when the tokens `own` are written and `pending'` is left: they are
folded, and what is read stands as it should, or one of them is starved. -/
def StepOutcome (read z : List Token) (es : List Expr) (t : Token) (ts own pending' : List Token) :
    Prop :=
  (∃ es' read' z', own.foldlM Postfix.operandsAfter es = .ok es' ∧
      read' ++ z' = read ++ z ++ [t] ∧ Stands t.kind.place pending' read' z' es') ∨
    ∃ u, own.foldlM Postfix.operandsAfter es = .error (Postfix.lacksOperand u) ∧
      Starved (read ++ z ++ t :: ts) u

theorem Stands.step_atom {p : Place} (h : Stands p pending read z es) (hallows : p.Allows t.kind)
    (hatom : t.kind.isAtom = true) : StepOutcome read z es t ts [t] pending := by
  have hp : p ≠ .ended := by
    rintro rfl
    rw [hallows.1] at hatom
    cases hatom
  obtain ⟨x, hx⟩ := Postfix.operandsAfter_atom es hatom
  refine Or.inl ⟨x :: es, read, z ++ [t], ?_, (List.append_assoc ..).symm, ?_⟩
  · rw [List.foldlM_cons, hx]
    rfl
  · rw [TokenKind.place_of_isAtom hatom]
    exact h.atom hp hatom

theorem Stands.step_open {p : Place} (h : Stands p pending read z es) (hallows : p.Allows t.kind)
    (hkind : t.kind = .openParen) : StepOutcome read z es t ts [] (t :: pending) := by
  have hp : p ≠ .ended := by
    rintro rfl
    exact hallows.2 hkind
  refine Or.inl ⟨es, read ++ (z ++ [t]), [], rfl, by simp, ?_⟩
  rw [hkind]
  exact h.openParen hp hkind

/-- A parenthesis that closes has all applied that waits behind its partner. -/
theorem Stands.step_close {p : Place} {top : Token} {below : List Token}
    (h : Stands p pending read z es) (hallows : p.Allows t.kind) (hkind : t.kind = .closeParen)
    (htop : top.kind = .openParen)
    (hdrop : pending.dropWhile (!Postfix.isOpen ·) = top :: below) :
    StepOutcome read z es t ts (pending.takeWhile (!Postfix.isOpen ·)) below := by
  have hp : p ≠ .joined := by
    rintro rfl
    rw [hkind] at hallows
    rcases hallows with hfalse | hfalse <;> cases hfalse
  have hstops : ∀ u ∈ pending.takeWhile (!Postfix.isOpen ·), Stops u (t :: ts) := by
    intro u _ t' ht'
    obtain rfl := Option.some.inj ht'
    exact Or.inl hkind
  have hmid := h.midway hp
  rw [← List.takeWhile_append_dropWhile (p := (!Postfix.isOpen ·)) (l := pending), hdrop] at hmid
  rcases hmid.popAll (above_zero_takeWhile pending) hstops (Nat.zero_le 5) with
    ⟨es', m', read', z', hok, -, heq, hmid', -⟩ | hstarved
  · obtain ⟨read'', z'', heq', hstands⟩ := hmid'.closeParen htop hkind
    exact Or.inl ⟨es', read'', z'', hok, by rw [heq', heq], hkind ▸ hstands⟩
  · exact Or.inr hstarved

/-- An operator has all applied that binds as tightly as itself, and waits. -/
theorem Stands.step_operator {p : Place} (h : Stands p pending read z es)
    (hallows : p.Allows t.kind) (hprec : 1 < t.kind.precedence) (hopen : t.kind ≠ .openParen) :
    StepOutcome read z es t ts (pending.takeWhile (Postfix.yieldsTo t))
      (t :: pending.dropWhile (Postfix.yieldsTo t)) := by
  have hp : p ≠ .joined := by
    rintro rfl
    rcases hallows with hatom | hopen'
    · rw [TokenKind.precedence_of_isAtom hatom] at hprec
      exact absurd hprec (Nat.not_lt_zero 1)
    · exact hopen hopen'
  obtain ⟨habove, hweaker⟩ := above_takeWhile t pending
  have hstops : ∀ u ∈ pending.takeWhile (Postfix.yieldsTo t), Stops u (t :: ts) := by
    intro u hu t' ht'
    obtain rfl := Option.some.inj ht'
    exact Or.inr ⟨hprec, (habove u hu).2⟩
  have hmid := h.midway hp
  rw [← List.takeWhile_append_dropWhile (p := Postfix.yieldsTo t) (l := pending)] at hmid
  rcases hmid.popAll habove hstops (Nat.le_succ_of_le t.kind.precedence_le) with
    ⟨es', m', read', z', hok, hm, heq, hmid', hsome⟩ | hstarved
  · have hleft : (t.kind = .concat → z' ≠ []) ∧ (es' ≠ [] ∨ LacksLeft t (read' ++ z')) := by
      rcases hsome with ⟨hnone, rfl, rfl⟩ | ⟨hes, hz⟩
      · rw [heq]
        exact h.left hp hallows hnone
      · exact ⟨fun _ => hz, Or.inl hes⟩
    exact Or.inl ⟨es', read' ++ (z' ++ [t]), [], hok, by simp [← heq],
      hmid'.push hm hprec hweaker hleft.1 hleft.2⟩
  · exact Or.inr hstarved

/-- One more token is read: some pending operators are applied, of which one may be starved,
and the rest of the stream is that of the other tokens. -/
theorem Stands.exists_step {p : Place} (h : Stands p pending read z es) (hallows : p.Allows t.kind)
    (hreorder : Postfix.reorder pending (t :: ts) = .ok out) :
    ∃ own pending' rest, out = own ++ rest ∧ Postfix.reorder pending' ts = .ok rest ∧
      StepOutcome read z es t ts own pending' := by
  rcases reorder_cons_eq_ok hreorder with ⟨hatom, rest, hrest, rfl⟩ | ⟨hkind, hrest⟩ |
    ⟨hkind, top, below, rest, htop, hdrop, hrest, rfl⟩ | ⟨hprec, hopen, -, rest, hrest, rfl⟩
  · exact ⟨[t], pending, rest, rfl, hrest, h.step_atom hallows hatom⟩
  · exact ⟨[], t :: pending, out, rfl, hrest, h.step_open hallows hkind⟩
  · exact ⟨_, below, rest, rfl, hrest, h.step_close hallows hkind htop hdrop⟩
  · exact ⟨_, _, rest, rfl, hrest, h.step_operator hallows hprec hopen⟩

/-- If the fold of what is reordered fails, then at an operator that has a reason beside
it. -/
theorem starved_of_reorder {p : Place} (h : Stands p pending read z es) (hspaced : Spaced p ts)
    (hreorder : Postfix.reorder pending ts = .ok out)
    (hfail : out.foldlM Postfix.operandsAfter es = .error e) :
    ∃ t, e = Postfix.lacksOperand t ∧ Starved (read ++ z ++ ts) t := by
  induction ts generalizing p pending read z es out with
  | nil =>
      obtain ⟨hnone, rfl⟩ := reorder_nil_eq_ok hreorder
      have hown : Above 0 out := fun t ht =>
        ⟨fun hopen => by simpa [isOpen_eq_true_iff.2 hopen] using hnone t ht, Nat.zero_le _⟩
      have hstops : ∀ t ∈ out, Stops t [] := fun _ _ _ hu => nomatch hu
      have hmid := h.midway hspaced
      rw [← List.append_nil out] at hmid
      rcases hmid.popAll hown hstops (Nat.zero_le 5) with
        ⟨es', _, _, _, hok, -⟩ | ⟨t, herror, hstarved⟩
      · rw [hok] at hfail
        cases hfail
      · rw [herror] at hfail
        exact ⟨t, (Except.error.inj hfail).symm, hstarved⟩
  | cons t ts ih =>
      obtain ⟨own, pending', rest, rfl, hrest, hstep⟩ := h.exists_step hspaced.1 hreorder
      rw [List.foldlM_append] at hfail
      rcases hstep with ⟨es', read', z', hok, heq, h'⟩ | ⟨u, herror, hstarved⟩
      · rw [hok] at hfail
        have hlater := ih h' hspaced.2 hrest hfail
        rw [heq, List.append_assoc (read ++ z), List.singleton_append] at hlater
        exact hlater
      · rw [herror] at hfail
        exact ⟨u, (Except.error.inj hfail).symm, hstarved⟩

/-- The operator at which the fold of tokens fails has a reason beside it. -/
theorem starved_of_foldlM (hconcat : .concat ∉ kinds us)
    (hstream : Postfix.ofTokens (joinOperands us) = .ok out)
    (hfail : out.foldlM Postfix.operandsAfter [] = .error e) :
    ∃ t, e = Postfix.lacksOperand t ∧ Starved (joinOperands us) t := by
  rw [joinOperands_eq] at hstream ⊢
  exact starved_of_reorder stands_nil (spaced_joinFrom hconcat false) hstream hfail

end Token

end Regular
