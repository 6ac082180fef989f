import Mathlib.Data.List.TakeWhile
import Regular.Proofs.Parse.Desugar

/-!
# What the stages accept spells a phrase

None of the stages looks at two neighbouring tokens to find out whether the second may follow
the first. That malformed tokens are rejected all the same is a matter of counting: every
atom puts an operand on the stack, every bar and every concatenation takes one off, and a
concatenation is put between two tokens where an operand ends and another begins. One operand
is left precisely if no token stands in a wrong place (`Token.placed_of_weight`). That the
parentheses match is seen by the reordering (`Token.closes_of_reorder`). Both go back through
the writing out of repetition and option (`Token.Reflected.of_desugar`): a copy of an operand
stands where the operand may, and the operands that are found have matching parentheses.
-/

namespace Regular

variable {k : Category} {ts us x before back pending below out : List Token} {t op : Token}
  {a b : TokenKind} {as bs cs : List TokenKind} {ends : Bool} {depth n : Nat} {e : Expr}

open TokenKind (Placed Closes Along Neutral)

/-! ## The operands of an operator -/

namespace Postfix

theorem applyUnary_eq_ok {f : Expr → Expr} {es es' : List Expr}
    (h : applyUnary t f es = .ok es') : ∃ e below, es = e :: below ∧ es' = f e :: below := by
  cases es with
  | nil => cases h
  | cons e below => exact ⟨e, below, rfl, (Except.ok.inj h).symm⟩

theorem applyBinary_eq_ok {f : Expr → Expr → Expr} {es es' : List Expr}
    (h : applyBinary t f es = .ok es') :
    ∃ l r below, es = r :: l :: below ∧ es' = f l r :: below := by
  match es with
  | [] => cases h
  | [_] => cases h
  | r :: l :: below => exact ⟨l, r, below, rfl, (Except.ok.inj h).symm⟩

/-- A stream that has a tree leaves the tree as the only operand. -/
theorem foldlM_of_toExpr (h : toExpr ts = .ok e) : ts.foldlM operandsAfter [] = .ok [e] := by
  obtain ⟨es, hfold, h⟩ := bind_eq_ok_iff.1 h
  split at h
  · obtain rfl := Except.ok.inj h
    exact hfold
  · cases h
  · cases h

end Postfix

/-! ## Counting operands -/

namespace TokenKind

/-- By how much a token changes the number of operands. -/
def weight : TokenKind → Int
  | literal _ | epsilon => 1
  | union | concat => -1
  | star | plus | question | openParen | closeParen => 0

/-- What is neither an operand by itself nor a parenthesis is an operator. -/
theorem one_lt_precedence (h : ¬a.isAtom = true) (hopen : a ≠ .openParen)
    (hclose : a ≠ .closeParen) : 1 < a.precedence := by
  cases a <;> first | contradiction | exact absurd rfl h | decide

theorem ne_of_isAtom (h : a.isAtom = true) (hb : b.isAtom = false) : a ≠ b := by
  rintro rfl
  rw [h] at hb
  cases hb

end TokenKind

namespace Token

/-- By how much the tokens change the number of operands. -/
def weight : List Token → Int
  | [] => 0
  | t :: ts => t.kind.weight + weight ts

@[simp] theorem weight_nil : weight [] = 0 := rfl

@[simp] theorem weight_cons : weight (t :: ts) = t.kind.weight + weight ts := rfl

@[simp] theorem weight_append : weight (ts ++ us) = weight ts + weight us := by
  induction ts with
  | nil => simp
  | cons t ts ih =>
      rw [List.cons_append, weight_cons, weight_cons, ih]
      omega

theorem length_operandsAfter {es es' : List Expr} (h : Postfix.operandsAfter es t = .ok es') :
    (es'.length : Int) = es.length + t.kind.weight := by
  unfold Postfix.operandsAfter at h
  cases hkind : t.kind <;> rw [hkind] at h <;> simp only [TokenKind.weight]
  case literal c =>
    obtain rfl := Except.ok.inj h
    rfl
  case epsilon =>
    obtain rfl := Except.ok.inj h
    rfl
  case star | plus | question =>
    obtain ⟨e, below, rfl, rfl⟩ := Postfix.applyUnary_eq_ok h
    rw [List.length_cons, List.length_cons]
    omega
  case concat | union =>
    obtain ⟨l, r, below, rfl, rfl⟩ := Postfix.applyBinary_eq_ok h
    rw [List.length_cons, List.length_cons, List.length_cons]
    omega
  case openParen | closeParen => cases h

theorem length_foldlM_operandsAfter {es es' : List Expr}
    (h : ts.foldlM Postfix.operandsAfter es = .ok es') :
    (es'.length : Int) = es.length + weight ts := by
  induction ts generalizing es with
  | nil =>
      obtain rfl := Except.ok.inj h
      simp
  | cons t ts ih =>
      rw [List.foldlM_cons] at h
      obtain ⟨es₁, hstep, hrest⟩ := bind_eq_ok_iff.1 h
      have hlen := length_operandsAfter hstep
      have hlen' := ih hrest
      rw [weight_cons]
      omega

theorem weight_of_toExpr (h : Postfix.toExpr ts = .ok e) : weight ts = 1 := by
  have hlen := length_foldlM_operandsAfter (Postfix.foldlM_of_toExpr h)
  simp only [List.length_cons, List.length_nil] at hlen
  omega

/-- What is pending above the closest open parenthesis is followed by it. -/
theorem kind_of_dropWhile {top : Token}
    (h : pending.dropWhile (!Postfix.isOpen ·) = top :: below) : top.kind = .openParen := by
  induction pending with
  | nil => cases h
  | cons t pending ih =>
      rw [List.dropWhile_cons] at h
      split at h
      · exact ih h
      · next hopen =>
        obtain rfl := (List.cons.inj h).1
        rw [Bool.not_eq_true', Bool.not_eq_false] at hopen
        exact isOpen_eq_true_iff.1 hopen

/-- What reordering does with one token. -/
theorem reorder_cons_eq_ok (h : Postfix.reorder pending (t :: ts) = .ok out) :
    (t.kind.isAtom = true ∧ ∃ rest, Postfix.reorder pending ts = .ok rest ∧ out = t :: rest) ∨
    (t.kind = .openParen ∧ Postfix.reorder (t :: pending) ts = .ok out) ∨
    (t.kind = .closeParen ∧ ∃ top below rest, top.kind = .openParen ∧
      pending.dropWhile (!Postfix.isOpen ·) = top :: below ∧
      Postfix.reorder below ts = .ok rest ∧
      out = pending.takeWhile (!Postfix.isOpen ·) ++ rest) ∨
    (1 < t.kind.precedence ∧ t.kind ≠ .openParen ∧ t.kind ≠ .closeParen ∧ ∃ rest,
      Postfix.reorder (t :: pending.dropWhile (Postfix.yieldsTo t)) ts = .ok rest ∧
      out = pending.takeWhile (Postfix.yieldsTo t) ++ rest) := by
  rw [Postfix.reorder] at h
  split at h
  · next hatom =>
    obtain ⟨rest, hrest, h⟩ := bind_eq_ok_iff.1 h
    exact Or.inl ⟨hatom, rest, hrest, (Except.ok.inj h).symm⟩
  · next hatom =>
    split at h
    · next hopen => exact Or.inr (Or.inl ⟨hopen, h⟩)
    · next hclose =>
      split at h
      · cases h
      · next top below hbelow =>
        obtain ⟨rest, hrest, h⟩ := bind_eq_ok_iff.1 h
        exact Or.inr (Or.inr (Or.inl ⟨hclose, top, below, rest, kind_of_dropWhile hbelow, hbelow,
          hrest, (Except.ok.inj h).symm⟩))
    · next hopen hclose =>
      obtain ⟨rest, hrest, h⟩ := bind_eq_ok_iff.1 h
      have hprec := TokenKind.one_lt_precedence hatom hopen hclose
      exact Or.inr (Or.inr (Or.inr ⟨hprec, hopen, hclose, rest, hrest, (Except.ok.inj h).symm⟩))

theorem reorder_nil_eq_ok (h : Postfix.reorder pending [] = .ok out) :
    (∀ t ∈ pending, Postfix.isOpen t = false) ∧ out = pending := by
  rw [Postfix.reorder] at h
  split at h
  · cases h
  · next hnone =>
    refine ⟨fun t ht => ?_, (Except.ok.inj h).symm⟩
    rw [← Bool.not_eq_true]
    exact List.find?_eq_none.1 hnone t ht

/-- Reordering drops the parentheses, which weigh nothing, and nothing else. -/
theorem weight_reorder (h : Postfix.reorder pending ts = .ok out) :
    weight out = weight pending + weight ts := by
  induction ts generalizing pending out with
  | nil =>
      obtain ⟨-, rfl⟩ := reorder_nil_eq_ok h
      simp
  | cons t ts ih =>
      have hsplit : ∀ p : Token → Bool,
          weight pending = weight (pending.takeWhile p) + weight (pending.dropWhile p) := by
        intro p
        rw [← weight_append, List.takeWhile_append_dropWhile]
      rcases reorder_cons_eq_ok h with ⟨-, rest, hrest, rfl⟩ | ⟨hkind, hrest⟩ |
        ⟨hkind, top, below, rest, htop, hbelow, hrest, rfl⟩ | ⟨-, -, -, rest, hrest, rfl⟩
      · have hw := ih hrest
        rw [weight_cons, weight_cons, hw]
        omega
      · have hw := ih hrest
        simp only [weight_cons, hkind, TokenKind.weight] at hw ⊢
        omega
      · have hw := ih hrest
        have hsum := hsplit (!Postfix.isOpen ·)
        rw [hbelow] at hsum
        simp only [weight_cons, weight_append, htop, hkind, TokenKind.weight] at hsum hw ⊢
        omega
      · have hw := ih hrest
        have hsum := hsplit (Postfix.yieldsTo t)
        simp only [weight_cons, weight_append] at hw ⊢
        omega

/-- A token counts one up where an operand begins with it and one up where one may end with
it. -/
theorem weight_kind {a : TokenKind} (h : a ≠ .concat) :
    a.weight = a.startsOperand.toNat + a.endsOperand.toNat - 1 := by
  cases a <;> first | contradiction | rfl

theorem weight_joinFrom_cons (ends : Bool) (t : Token) (ts : List Token) :
    weight (joinFrom ends (t :: ts)) =
      -((ends && t.kind.startsOperand).toNat : Int) + t.kind.weight +
        weight (joinFrom t.kind.endsOperand ts) := by
  rw [joinFrom, weight_append, weight_cons]
  cases (ends && t.kind.startsOperand) with
  | false => simp
  | true =>
      simp [TokenKind.weight]
      omega

/-- Between the tokens, each concatenation takes off one of the operands that are joined, so
no more than one is left. -/
theorem weight_joinFrom_le (h : .concat ∉ kinds ts) :
    weight (joinFrom ends ts) ≤ 1 - ends.toNat := by
  induction ts generalizing ends with
  | nil => cases ends <;> decide
  | cons t ts ih =>
      rw [kinds_cons, List.mem_cons, not_or] at h
      have hrest : weight (joinFrom t.kind.endsOperand ts) ≤ 1 - t.kind.endsOperand.toNat := ih h.2
      have hkind : t.kind ≠ .concat := Ne.symm h.1
      rw [weight_joinFrom_cons, weight_kind hkind]
      have hjoin : (t.kind.startsOperand.toNat : Int) ≤
          1 - ends.toNat + (ends && t.kind.startsOperand).toNat := by
        cases ends <;> cases t.kind.startsOperand <;> decide
      omega

/-- One is left only if every token stands where it may. -/
theorem placed_of_weight (h : .concat ∉ kinds ts)
    (hweight : weight (joinFrom ends ts) = 1 - ends.toNat) : Placed ends (kinds ts) := by
  induction ts generalizing ends with
  | nil =>
      cases ends with
      | false => exact absurd hweight (by decide)
      | true => rfl
  | cons t ts ih =>
      rw [kinds_cons, List.mem_cons, not_or] at h
      have hrest : weight (joinFrom t.kind.endsOperand ts) ≤ 1 - t.kind.endsOperand.toNat :=
        weight_joinFrom_le h.2
      have hkind : t.kind ≠ .concat := Ne.symm h.1
      rw [weight_joinFrom_cons, weight_kind hkind] at hweight
      have hlast : weight (joinFrom t.kind.endsOperand ts) = 1 - t.kind.endsOperand.toNat := by
        cases ends <;> cases hstart : t.kind.startsOperand <;> rw [hstart] at hweight <;>
          simp at hweight <;> omega
      have hplace : ends = true ∨ t.kind.startsOperand = true := by
        cases ends <;> cases hstart : t.kind.startsOperand <;> rw [hstart] at hweight <;>
          simp at hweight ⊢
        omega
      exact ⟨hplace, ih h.2 hlast⟩

/-! ## Matching parentheses -/

theorem closes_joinFrom :
    Closes depth (kinds (joinFrom ends ts)) ↔ Closes depth (kinds ts) := by
  induction ts generalizing ends depth with
  | nil => rfl
  | cons t ts ih =>
      have hstep : Closes depth ([t.kind] ++ kinds (joinFrom t.kind.endsOperand ts)) ↔
          Closes depth ([t.kind] ++ kinds ts) := TokenKind.closes_congr fun _ => ih
      rw [joinFrom, kinds_append]
      split
      · exact (TokenKind.closes_other (a := .concat) (by decide) (by decide)).trans hstep
      · exact hstep

/-- What is taken off by a sign that no open parenthesis yields to holds none. -/
theorem filter_dropWhile {p : Token → Bool} (h : ∀ t, p t = true → Postfix.isOpen t = false) :
    (pending.dropWhile p).filter Postfix.isOpen = pending.filter Postfix.isOpen := by
  have hnone : (pending.takeWhile p).filter Postfix.isOpen = [] := by
    refine List.filter_eq_nil_iff.2 fun t ht => ?_
    rw [h t (List.mem_takeWhile_imp ht)]
    exact Bool.false_ne_true
  conv_rhs => rw [← List.takeWhile_append_dropWhile (p := p) (l := pending)]
  rw [List.filter_append, hnone, List.nil_append]

theorem countP_dropWhile {p : Token → Bool} (h : ∀ t, p t = true → Postfix.isOpen t = false) :
    (pending.dropWhile p).countP Postfix.isOpen = pending.countP Postfix.isOpen := by
  rw [List.countP_eq_length_filter, filter_dropWhile h, List.countP_eq_length_filter]

theorem isOpen_eq_false_of_yieldsTo {top : Token} (h : Postfix.yieldsTo t top = true) :
    Postfix.isOpen top = false := by
  rw [← Bool.not_eq_true, isOpen_eq_true_iff]
  exact (yieldsTo_eq_true_iff.1 h).1

/-- Reordering finds an open parenthesis for each that closes one, and leaves none
pending. -/
theorem closes_of_reorder (h : Postfix.reorder pending ts = .ok out) :
    Closes (pending.countP Postfix.isOpen) (kinds ts) := by
  induction ts generalizing pending out with
  | nil =>
      obtain ⟨hnone, -⟩ := reorder_nil_eq_ok h
      refine List.countP_eq_zero.2 fun t ht => ?_
      rw [hnone t ht]
      exact Bool.false_ne_true
  | cons t ts ih =>
      rw [kinds_cons]
      rcases reorder_cons_eq_ok h with ⟨hatom, rest, hrest, -⟩ | ⟨hkind, hrest⟩ |
        ⟨hkind, top, below, rest, htop, hbelow, hrest, -⟩ | ⟨-, hopen, hclose, rest, hrest, -⟩
      · exact (TokenKind.closes_other (TokenKind.ne_of_isAtom hatom rfl)
          (TokenKind.ne_of_isAtom hatom rfl)).2 (ih hrest)
      · have hcloses := ih hrest
        rw [List.countP_cons_of_pos (isOpen_eq_true_iff.2 hkind)] at hcloses
        rw [hkind]
        exact hcloses
      · have hcount : (pending.dropWhile (!Postfix.isOpen ·)).countP Postfix.isOpen =
            pending.countP Postfix.isOpen := countP_dropWhile fun t ht => by simpa using ht
        rw [hbelow, List.countP_cons_of_pos (isOpen_eq_true_iff.2 htop)] at hcount
        rw [hkind, ← hcount]
        exact ⟨Nat.succ_pos _, ih hrest⟩
      · have hcloses := ih hrest
        rw [List.countP_cons_of_neg (fun hpos => hopen (isOpen_eq_true_iff.1 hpos)),
          countP_dropWhile fun top htop => isOpen_eq_false_of_yieldsTo htop] at hcloses
        exact (TokenKind.closes_other hopen hclose).2 hcloses

/-- What the stages behind the tokens accept is well-formed. -/
theorem wellFormed_of_toExpr (h : toExpr ts = .ok e) (hconcat : .concat ∉ kinds ts) :
    TokenKind.WellFormed (kinds ts) := by
  obtain ⟨stream, hstream, hexpr⟩ := bind_eq_ok_iff.1 h
  rw [joinOperands_eq] at hstream
  have hweight := weight_of_toExpr hexpr
  rw [weight_reorder hstream, weight_nil, Int.zero_add] at hweight
  exact ⟨placed_of_weight hconcat hweight, closes_joinFrom.1 (closes_of_reorder hstream)⟩

/-! ## Back through the writing out -/

/-- The search for the parenthesis that opens a group stops behind as many open parentheses
as groups were entered. -/
theorem closes_of_groupLength (h : groupLength depth before = some n) (hpos : 0 < depth)
    (outer : Nat) (rest : List TokenKind) :
    Closes outer (kinds (before.take n).reverse ++ rest) ↔ Closes (outer + depth) rest := by
  induction before generalizing depth n rest with
  | nil => cases h
  | cons t before ih =>
      have htake : ∀ m, kinds ((t :: before).take (m + 1)).reverse ++ rest =
          kinds (before.take m).reverse ++ t.kind :: rest := fun m => by simp
      rw [groupLength] at h
      split at h
      · next hkind =>
        obtain ⟨m, hm, rfl⟩ := Option.map_eq_some_iff.1 h
        rw [htake, ih hm (Nat.succ_pos _), hkind]
        exact ⟨And.right, fun hrest => ⟨Nat.succ_pos _, hrest⟩⟩
      · next hkind =>
        split at h
        · obtain rfl : depth = 1 := by omega
          obtain rfl := Option.some.inj h
          rw [htake, hkind]
          rfl
        · obtain ⟨m, hm, rfl⟩ := Option.map_eq_some_iff.1 h
          rw [htake, ih hm (by omega), hkind]
          show Closes (outer + (depth - 1) + 1) rest ↔ _
          rw [show outer + (depth - 1) + 1 = outer + depth by omega]
      · next hclose hopen =>
        obtain ⟨m, hm, rfl⟩ := Option.map_eq_some_iff.1 h
        rw [htake, ih hm hpos]
        exact TokenKind.closes_other hopen hclose

/-- The operand that is found has matching parentheses. -/
theorem neutral_of_operandLength (h : operandLength op before = .ok n) :
    Neutral (kinds (before.take n).reverse) := by
  induction before generalizing n with
  | nil => cases h
  | cons t before ih =>
      intro depth rest
      have htake : ∀ m, kinds ((t :: before).take (m + 1)).reverse ++ rest =
          kinds (before.take m).reverse ++ t.kind :: rest := fun m => by simp
      by_cases hstar : t.kind = .star
      · rw [operandLength_star hstar] at h
        cases hlen : operandLength op before with
        | error e =>
            rw [hlen] at h
            cases h
        | ok m =>
            rw [hlen] at h
            obtain rfl := Except.ok.inj h
            rw [htake, ih hlen, hstar]
            rfl
      · have hneg : ¬isStar t = true := fun hpos => hstar (beq_iff_eq.1 hpos)
        rw [operandLength, List.dropWhile_cons_of_neg hneg, List.takeWhile_cons_of_neg hneg] at h
        simp only at h
        split at h
        · next hatom =>
          obtain rfl := Except.ok.inj h
          rw [List.length_nil, htake]
          exact TokenKind.closes_other (TokenKind.ne_of_isAtom hatom rfl)
            (TokenKind.ne_of_isAtom hatom rfl)
        split at h
        · next hkind =>
          split at h
          · next m hm =>
            obtain rfl := Except.ok.inj h
            rw [List.length_nil, Nat.zero_add, Nat.add_comm, htake,
              closes_of_groupLength hm Nat.one_pos, hkind]
            exact ⟨And.right, fun hrest => ⟨Nat.succ_pos _, hrest⟩⟩
          · cases h
        · cases h

/-- A step writes a token down, or it writes it out behind an operand. -/
theorem desugarStep_eq_ok (h : desugarStep before t = .ok back) :
    (t.kind ≠ .question ∧ t.kind ≠ .plus ∧ back = t :: before) ∨
    ∃ cs xs, kinds before.reverse = cs ++ xs ∧ Neutral xs ∧
      (t.kind = .question ∧ kinds back.reverse =
          cs ++ .openParen :: (xs ++ [.union, .epsilon, .closeParen]) ∨
        t.kind = .plus ∧ kinds back.reverse = cs ++ (xs ++ (xs ++ [.star]))) := by
  have hsplit : ∀ n, kinds before.reverse =
      kinds (before.drop n).reverse ++ kinds (before.take n).reverse := by
    intro n
    rw [← kinds_append, ← List.reverse_append, List.take_append_drop]
  rw [desugarStep] at h
  split at h
  · next hkind =>
    obtain ⟨n, hn, h⟩ := bind_eq_ok_iff.1 h
    obtain rfl := Except.ok.inj h
    exact Or.inr ⟨_, _, hsplit n, neutral_of_operandLength hn, Or.inl ⟨hkind, by simp⟩⟩
  · next hkind =>
    obtain ⟨n, hn, h⟩ := bind_eq_ok_iff.1 h
    obtain rfl := Except.ok.inj h
    refine Or.inr ⟨_, _, hsplit n, neutral_of_operandLength hn, Or.inr ⟨hkind, ?_⟩⟩
    simp only [List.reverse_cons, List.reverse_append, kinds_append, hsplit n, List.append_assoc]
    rfl
  · next hquestion hplus => exact Or.inl ⟨hquestion, hplus, (Except.ok.inj h).symm⟩

/-! ## What is reflected -/

/-- A property of kinds that goes back from what a sign is written out as to the sign. -/
structure Reflected (P : List TokenKind → Prop) : Prop where
  question {as bs cs : List TokenKind} (hx : Neutral as)
    (h : P (cs ++ .openParen :: (as ++ [.union, .epsilon, .closeParen]) ++ bs)) :
    P (cs ++ as ++ .question :: bs)
  plus {as bs cs : List TokenKind} (hx : Neutral as)
    (h : P (cs ++ (as ++ (as ++ [.star])) ++ bs)) : P (cs ++ as ++ .plus :: bs)

/-- A copy of an operand stands where the operand may. -/
theorem reflected_placed : Reflected (Placed false) where
  question {as bs cs} _ h := by
    rw [List.append_assoc, List.cons_append, List.append_assoc, TokenKind.placed_append] at h
    obtain ⟨hcs, -, h⟩ := h
    obtain ⟨has, hunion, -, -, hbs⟩ := TokenKind.placed_append.1 h
    have hends : TokenKind.endsAfter false as = true := hunion.resolve_right Bool.false_ne_true
    rw [List.append_assoc]
    refine TokenKind.placed_append.2 ⟨hcs, TokenKind.placed_append.2 ⟨has.mono _, ?_⟩⟩
    exact ⟨Or.inl (TokenKind.endsAfter_mono hends _), hbs⟩
  plus {as bs cs} _ h := by
    rw [List.append_assoc, List.append_assoc, List.append_assoc, TokenKind.placed_append] at h
    obtain ⟨hcs, h⟩ := h
    obtain ⟨has, h⟩ := TokenKind.placed_append.1 h
    obtain ⟨-, hstar, hbs⟩ := TokenKind.placed_append.1 h
    rw [← TokenKind.endsAfter_append, TokenKind.endsAfter_twice] at hstar
    rw [List.append_assoc]
    refine TokenKind.placed_append.2 ⟨hcs, TokenKind.placed_append.2 ⟨has, ?_⟩⟩
    exact ⟨Or.inl (hstar.resolve_right Bool.false_ne_true), hbs⟩

/-- The operands that are found have matching parentheses. -/
theorem reflected_closes : Reflected (Closes 0) where
  question {as bs cs} hx h := by
    have hwritten : Neutral (as ++ [.union, .epsilon]) := hx.append fun _ _ => Iff.rfl
    rw [List.append_assoc, List.cons_append, List.append_assoc] at h
    rw [List.append_assoc]
    refine (TokenKind.closes_congr fun depth => ?_).1 h
    rw [hx]
    have hgroup := hwritten.group depth bs
    rw [List.append_assoc, List.cons_append, List.append_assoc] at hgroup
    exact hgroup
  plus {as bs cs} hx h := by
    rw [List.append_assoc, List.append_assoc, List.append_assoc] at h
    rw [List.append_assoc]
    refine (TokenKind.closes_congr fun depth => ?_).1 h
    rw [hx, hx, hx]
    rfl

namespace Reflected

variable {P : List TokenKind → Prop}

/-- If what a step has written goes on in a certain way, then so do the tokens themselves. -/
theorem of_desugarStep (hP : Reflected P) (h : desugarStep before t = .ok back)
    (hback : P (kinds back.reverse ++ as)) : P (kinds before.reverse ++ t.kind :: as) := by
  rcases desugarStep_eq_ok h with ⟨-, -, rfl⟩ | ⟨cs, xs, hbefore, hx, hwritten⟩
  · rw [List.reverse_cons, kinds_append, List.append_assoc] at hback
    exact hback
  · rw [hbefore]
    rcases hwritten with ⟨hkind, hwritten⟩ | ⟨hkind, hwritten⟩ <;>
      rw [hwritten] at hback <;> rw [hkind]
    · exact hP.question hx hback
    · exact hP.plus hx hback

theorem of_foldlM (hP : Reflected P) (h : ts.foldlM desugarStep before = .ok back)
    (hback : P (kinds back.reverse)) : P (kinds before.reverse ++ kinds ts) := by
  induction ts generalizing before with
  | nil =>
      obtain rfl := Except.ok.inj h
      rw [kinds_nil, List.append_nil]
      exact hback
  | cons t ts ih =>
      rw [List.foldlM_cons] at h
      obtain ⟨next, hstep, hrest⟩ := bind_eq_ok_iff.1 h
      exact hP.of_desugarStep hstep (ih hrest)

theorem of_desugar (hP : Reflected P) (h : desugar ts = .ok us) (hus : P (kinds us)) :
    P (kinds ts) := by
  obtain ⟨back, hfold, h⟩ := bind_eq_ok_iff.1 h
  obtain rfl := Except.ok.inj h
  have hempty : kinds ([] : List Token).reverse = [] := rfl
  rw [← List.nil_append (kinds ts), ← hempty]
  exact hP.of_foldlM hfold hus

end Reflected

theorem wellFormed_of_desugar (h : desugar ts = .ok us) (hwf : TokenKind.WellFormed (kinds us)) :
    TokenKind.WellFormed (kinds ts) :=
  ⟨reflected_placed.of_desugar h hwf.placed, reflected_closes.of_desugar h hwf.closes⟩

/-- What holds of the tokens but for the signs that are written out, and of what is written
for these, holds of what is written. -/
theorem forall_kinds_foldlM {P : TokenKind → Prop}
    (hP : ∀ a ∈ [.openParen, .union, .epsilon, .closeParen, .star], P a)
    (h : ts.foldlM desugarStep before = .ok back)
    (hts : ∀ a ∈ kinds ts, a ≠ .question → a ≠ .plus → P a)
    (hbefore : ∀ a ∈ kinds before.reverse, P a) : ∀ a ∈ kinds back.reverse, P a := by
  induction ts generalizing before with
  | nil =>
      obtain rfl := Except.ok.inj h
      exact hbefore
  | cons t ts ih =>
      rw [List.foldlM_cons] at h
      obtain ⟨next, hstep, hrest⟩ := bind_eq_ok_iff.1 h
      obtain ⟨ht, hts⟩ := List.forall_mem_cons.1 hts
      refine ih hrest hts ?_
      rcases desugarStep_eq_ok hstep with ⟨hquestion, hplus, rfl⟩ | ⟨cs, xs, heq, -, hback⟩
      · rw [List.reverse_cons, kinds_append]
        exact List.forall_mem_append.2
          ⟨hbefore, List.forall_mem_singleton.2 (ht hquestion hplus)⟩
      · rw [heq] at hbefore
        obtain ⟨hcs, hxs⟩ := List.forall_mem_append.1 hbefore
        have hsign : ∀ as ⊆ [.openParen, .union, .epsilon, .closeParen, .star], ∀ a ∈ as, P a :=
          fun as hsub a ha => hP a (hsub ha)
        rcases hback with ⟨-, hback⟩ | ⟨-, hback⟩ <;> rw [hback]
        · exact List.forall_mem_append.2 ⟨hcs, List.forall_mem_cons.2
            ⟨hP _ (by simp), List.forall_mem_append.2 ⟨hxs, hsign _ (by simp)⟩⟩⟩
        · exact List.forall_mem_append.2 ⟨hcs, List.forall_mem_append.2
            ⟨hxs, List.forall_mem_append.2 ⟨hxs, hsign _ (by simp)⟩⟩⟩

theorem forall_kinds_desugar {P : TokenKind → Prop}
    (hP : ∀ a ∈ [.openParen, .union, .epsilon, .closeParen, .star], P a)
    (h : desugar ts = .ok us) (hts : ∀ a ∈ kinds ts, a ≠ .question → a ≠ .plus → P a) :
    ∀ a ∈ kinds us, P a := by
  obtain ⟨back, hfold, h⟩ := bind_eq_ok_iff.1 h
  obtain rfl := Except.ok.inj h
  exact forall_kinds_foldlM hP hfold hts fun _ ha => absurd ha List.not_mem_nil

theorem concat_notMem_desugar (h : desugar ts = .ok us) (hconcat : .concat ∉ kinds ts) :
    .concat ∉ kinds us := by
  have hne : ∀ a ∈ kinds us, a ≠ .concat := by
    refine forall_kinds_desugar (by decide) h fun a ha _ _ heq => hconcat ?_
    rwa [← heq]
  exact fun hmem => hne _ hmem rfl

/-- No sign for repetition or option is left. -/
theorem ne_of_mem_desugar (h : desugar ts = .ok us) : ∀ a ∈ kinds us, a ≠ .plus ∧ a ≠ .question :=
  forall_kinds_desugar (by decide) h fun _ _ hquestion hplus => ⟨hplus, hquestion⟩

/-- What the stages behind the tokens accept spells a phrase. -/
theorem exists_phrase_of_toExpr (h : toExpr ts = .ok e) (hconcat : .concat ∉ kinds ts) :
    ∃ p : Phrase Atom .union, kinds ts = p.kinds :=
  TokenKind.exists_phrase (wellFormed_of_toExpr h hconcat) hconcat

/-- So does what they accept once it is written out. -/
theorem exists_phrase_of_desugar (h : desugar ts = .ok us) (h' : toExpr us = .ok e)
    (hconcat : .concat ∉ kinds ts) : ∃ p : Phrase Atom .union, kinds ts = p.kinds :=
  TokenKind.exists_phrase
    (wellFormed_of_desugar h (wellFormed_of_toExpr h' (concat_notMem_desugar h hconcat))) hconcat

end Token

end Regular
