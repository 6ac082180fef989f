import Mathlib.Data.List.DropRight
import Regular.Proofs.Parse.Parenthesis

/-!
# Which operand is found

The operand of a sign is looked for backwards, in tokens whose parentheses need not match.
Stars are passed over (`Token.operandStart_beforeStars`); what decides is the token before
them. If it closes a parenthesis, the search goes on to the partner, with a counter of the
groups it is in.

The search takes one open parenthesis for each group that it is in, so what it has passed
over falls apart at open parentheses, one less than that (`Token.awaiting_of_groupLength`);
for a single group nothing is left open, and the parentheses in between match. Conversely a
search passes over parentheses that match (`Token.Tight.balanced`).

The counter could fall below zero (`Token.counter?`), since parentheses that open may
outnumber those that close. But it falls by one at a time, and the search stops where it is
zero (`Token.exists_counter?`).
-/

namespace Regular.Token

variable {ts before rest xs : List Token} {t c op : Token} {i j k last depth n : Nat}
  {e : SyntaxError}

/-! ## The partner of a parenthesis -/

theorem Tight.balanced (h : Tight n ts) : Balanced ts := by
  induction h with
  | nil => exact fun _ _ => Option.map_id'.symm
  | token hopen hclose _ _ ih => exact (balanced_singleton hopen hclose).append ih
  | group hopen _ hclose _ ihinner ihrest =>
      have hgroup := (ihinner.group hopen hclose).append ihrest
      rwa [List.cons_append, List.append_assoc, List.singleton_append] at hgroup

/-- A search in `depth + 1` groups passes over `depth` parentheses that open, up to one
more. -/
theorem awaiting_of_groupLength (h : groupLength (depth + 1) before = some n) :
    ∃ opens xs o ys, before = xs.reverse ++ o :: ys ∧ o.kind = .openParen ∧ n = xs.length + 1 ∧
      Awaiting opens xs ∧ opens.length = depth := by
  induction before generalizing depth n with
  | nil => cases h
  | cons t before ih =>
      have hlast : ∀ {xs ys o}, before = xs.reverse ++ o :: ys →
          t :: before = (xs ++ [t]).reverse ++ o :: ys := by
        rintro xs ys o rfl
        simp
      rw [groupLength] at h
      split at h
      · next hclose =>
        obtain ⟨m, hm, rfl⟩ := Option.map_eq_some_iff.1 h
        obtain ⟨opens, xs, o, ys, hbefore, ho, rfl, hawait, hlen⟩ := ih hm
        obtain ⟨u, opens, rfl⟩ := List.exists_cons_of_length_eq_add_one hlen
        exact ⟨opens, xs ++ [t], o, ys, hlast hbefore, ho, by simp, (hawait.close hclose).1,
          Nat.succ.inj hlen⟩
      · next hopen =>
        split at h
        · obtain rfl := Option.some.inj h
          have hdepth : 0 = depth := by omega
          exact ⟨[], [], t, before, rfl, hopen, rfl, .matched .nil, hdepth⟩
        · obtain ⟨m, hm, rfl⟩ := Option.map_eq_some_iff.1 h
          obtain ⟨d, rfl⟩ : ∃ d, depth = d + 1 := ⟨depth - 1, by omega⟩
          obtain ⟨opens, xs, o, ys, hbefore, ho, rfl, hawait, hlen⟩ := ih hm
          exact ⟨t :: opens, xs ++ [t], o, ys, hlast hbefore, ho, by simp,
            .opened hawait hopen .nil, congrArg (· + 1) hlen⟩
      · next hclose hopen =>
        obtain ⟨m, hm, rfl⟩ := Option.map_eq_some_iff.1 h
        obtain ⟨opens, xs, o, ys, hbefore, ho, rfl, hawait, hlen⟩ := ih hm
        exact ⟨opens, xs ++ [t], o, ys, hlast hbefore, ho, by simp, hawait.other hopen hclose, hlen⟩

theorem groupLength_one_eq_some_iff :
    groupLength 1 before = some n ↔
      ∃ xs o ys, before = xs.reverse ++ o :: ys ∧ o.kind = .openParen ∧ Matched xs ∧
        n = xs.length + 1 := by
  constructor
  · intro h
    obtain ⟨opens, xs, o, ys, hbefore, ho, hn, hawait, hlen⟩ := awaiting_of_groupLength h
    obtain rfl := List.length_eq_zero_iff.1 hlen
    cases hawait with
    | matched hxs => exact ⟨xs, o, ys, hbefore, ho, hxs, hn⟩
  · rintro ⟨xs, o, ys, rfl, ho, hxs, rfl⟩
    rw [hxs.balanced 0, groupLength, ho]
    exact congrArg some (Nat.add_comm 1 xs.length)

/-- The parentheses at `i` and `k` belong together: those in between match. -/
structure Partners (ts : List Token) (i k : Nat) : Prop where
  lt : i < k
  opens : (kinds ts)[i]? = some .openParen
  closes : (kinds ts)[k]? = some .closeParen
  matched : Matched ((ts.take k).drop (i + 1))

theorem kinds_getElem?_close (hc : ts[k]? = some c) (hclose : c.kind = .closeParen) :
    (kinds ts)[k]? = some .closeParen := by
  rw [kinds, List.getElem?_map, hc, ← hclose]
  rfl

theorem partners_iff (hclose : (kinds ts)[k]? = some .closeParen) :
    Partners ts i k ↔ ∃ xs o ys, ts.take k = xs ++ o :: ys ∧ xs.length = i ∧
      o.kind = .openParen ∧ Matched ys := by
  have htake : i < k → (kinds (ts.take k))[i]? = (kinds ts)[i]? := fun hlt => by
    rw [kinds, List.map_take, List.getElem?_take_of_lt hlt, kinds]
  constructor
  · intro h
    have hopen := (htake h.lt).trans h.opens
    rw [kinds, List.getElem?_map] at hopen
    obtain ⟨o, ho, hkind⟩ := Option.map_eq_some_iff.1 hopen
    obtain ⟨hlt, rfl⟩ := List.getElem?_eq_some_iff.1 ho
    refine ⟨(ts.take k).take i, _, (ts.take k).drop (i + 1), ?_, ?_, hkind, h.matched⟩
    · rw [← List.drop_eq_getElem_cons hlt, List.take_append_drop]
    · exact List.length_take_of_le (Nat.le_of_lt hlt)
  · rintro ⟨xs, o, ys, hsplit, rfl, ho, hys⟩
    have hlen : xs.length < k := by
      have hle := hsplit ▸ List.length_take_le k ts
      rw [List.length_append, List.length_cons] at hle
      omega
    refine ⟨hlen, ?_, hclose, ?_⟩
    · rw [← htake hlen, hsplit, kinds, List.getElem?_map,
        List.getElem?_append_right (Nat.le_refl _), Nat.sub_self]
      exact congrArg some ho
    · have hdrop : (xs ++ [o] ++ ys).drop (xs.length + 1) = ys := List.drop_left' (by simp)
      rwa [hsplit, List.append_cons, hdrop]

theorem groupLength_take_eq_some_iff (hclose : (kinds ts)[k]? = some .closeParen) :
    groupLength 1 (ts.take k).reverse = some n ↔ n ≤ k ∧ Partners ts (k - n) k := by
  have hlt : k < ts.length := by
    have hlt : k < (kinds ts).length := (List.getElem?_eq_some_iff.1 hclose).1
    rwa [kinds, List.length_map] at hlt
  have hlen : (ts.take k).length = k := List.length_take_of_le (Nat.le_of_lt hlt)
  rw [groupLength_one_eq_some_iff, partners_iff hclose]
  constructor
  · rintro ⟨ys, o, xs, hsplit, ho, hys, rfl⟩
    rw [List.reverse_eq_iff, List.reverse_append, List.reverse_cons, List.reverse_reverse,
      List.append_assoc, List.singleton_append] at hsplit
    rw [hsplit, List.length_append, List.length_cons] at hlen
    exact ⟨by omega, xs.reverse, o, ys, hsplit, by omega, ho, hys⟩
  · rintro ⟨hn, xs, o, ys, hsplit, hxs, ho, hys⟩
    rw [hsplit, List.length_append, List.length_cons] at hlen
    exact ⟨ys, o, xs.reverse, by simp [hsplit], ho, hys, by omega⟩

/-! ## The operand by its last token -/

theorem take_succ_reverse (ht : ts[k]? = some t) :
    (ts.take (k + 1)).reverse = t :: (ts.take k).reverse := by
  rw [List.take_add_one, ht, Option.toList_some, List.reverse_concat]

theorem drop_take_succ (ht : ts[k]? = some t) (hjk : j ≤ k) :
    (ts.take (k + 1)).drop j = (ts.take k).drop j ++ [t] := by
  have hlt : k < ts.length := (List.getElem?_eq_some_iff.1 ht).1
  rw [List.take_add_one, ht, Option.toList_some, List.drop_append_of_le_length]
  rwa [List.length_take_of_le (Nat.le_of_lt hlt)]

theorem take_reverse_split (hjk : j ≤ k) (ts : List Token) :
    (ts.take k).reverse = ((ts.take k).drop j).reverse ++ (ts.take j).reverse := by
  have hsplit := List.take_append_drop j (ts.take k)
  rw [List.take_take, Nat.min_eq_left hjk] at hsplit
  rw [← List.reverse_append, hsplit]

theorem operandStart_star (ht : ts[k]? = some t) (hstar : t.kind = .star) (op : Token) :
    operandStart ts (k + 1) op = operandStart ts k op := by
  rw [operandStart, operandStart, take_succ_reverse ht, operandLength_star hstar]
  cases operandLength op (ts.take k).reverse with
  | error e => rfl
  | ok n => exact congrArg Except.ok (Nat.add_sub_add_right k 1 n)

/-- What decides, but for stars, is the last token. -/
theorem operandStart_succ (ht : ts[k]? = some t) (hstar : t.kind ≠ .star) (op : Token) :
    operandStart ts (k + 1) op =
      if t.kind.isAtom then .ok k
      else if t.kind = .closeParen then
        match groupLength 1 (ts.take k).reverse with
        | some n => .ok (k - n)
        | none => .error (.unbalancedParenthesis t.span)
      else .error op.missingOperand := by
  have hneg : ¬isStar t = true := fun hpos => hstar (beq_iff_eq.1 hpos)
  rw [operandStart, take_succ_reverse ht, operandLength, List.dropWhile_cons_of_neg hneg,
    List.takeWhile_cons_of_neg hneg]
  simp only [List.length_nil]
  split
  · rfl
  · split
    · next hclose =>
      rw [if_pos hclose]
      cases groupLength 1 (ts.take k).reverse with
      | none => rfl
      | some n =>
          show Except.ok (k + 1 - (0 + 1 + n)) = Except.ok (k - n)
          rw [Nat.zero_add, Nat.add_comm 1, Nat.add_sub_add_right]
    · next hclose =>
      rw [if_neg hclose]
      rfl

theorem groupLength_of_partners (h : Partners ts i k) :
    groupLength 1 (ts.take k).reverse = some (k - i) :=
  (groupLength_take_eq_some_iff h.closes).2
    ⟨Nat.sub_le k i, by rwa [Nat.sub_sub_self (Nat.le_of_lt h.lt)]⟩

/-- A parenthesis that closes has at most one partner. -/
theorem Partners.eq (h : Partners ts i k) (h' : Partners ts j k) : i = j := by
  have hlen := (groupLength_of_partners h).symm.trans (groupLength_of_partners h')
  have heq := Option.some.inj hlen
  have hi := h.lt
  have hj := h'.lt
  omega

/-- From a parenthesis that closes the search finds its partner, and if there is none it
blames the parenthesis. -/
theorem operandStart_close_cases (hc : ts[k]? = some c) (hclose : c.kind = .closeParen)
    (op : Token) :
    (∃ i, Partners ts i k ∧ operandStart ts (k + 1) op = .ok i) ∨
    (∀ i, ¬Partners ts i k) ∧
      operandStart ts (k + 1) op = .error (.unbalancedParenthesis c.span) := by
  have hkinds := kinds_getElem?_close hc hclose
  have hneg : ¬c.kind.isAtom = true := by rw [hclose]; decide
  rw [operandStart_succ hc (by rw [hclose]; decide), if_neg hneg, if_pos hclose]
  cases hlen : groupLength 1 (ts.take k).reverse with
  | some n => exact Or.inl ⟨k - n, ((groupLength_take_eq_some_iff hkinds).1 hlen).2, rfl⟩
  | none =>
      refine Or.inr ⟨fun i hi => ?_, rfl⟩
      rw [groupLength_of_partners hi] at hlen
      cases hlen

theorem Partners.kind_eq (h : Partners ts i k) (ht : ts[k]? = some t) : t.kind = .closeParen := by
  have hkind := h.closes
  rw [kinds, List.getElem?_map, ht] at hkind
  exact Option.some.inj hkind

theorem operandStart_eq_ok_iff (ht : ts[k]? = some t) (hstar : t.kind ≠ .star) :
    operandStart ts (k + 1) op = .ok i ↔ i = k ∧ t.kind.isAtom = true ∨ Partners ts i k := by
  by_cases hclose : t.kind = .closeParen
  · have hatom : ¬t.kind.isAtom = true := by rw [hclose]; decide
    rw [or_iff_right fun h => hatom h.2]
    rcases operandStart_close_cases ht hclose op with ⟨j, hj, hok⟩ | ⟨hnone, herror⟩
    · rw [hok]
      exact ⟨fun h => Except.ok.inj h ▸ hj, fun h => congrArg Except.ok (hj.eq h)⟩
    · rw [herror]
      exact iff_of_false nofun (hnone i)
  · rw [operandStart_succ ht hstar, or_iff_left fun h => hclose (h.kind_eq ht)]
    by_cases hatom : t.kind.isAtom = true
    · rw [if_pos hatom, and_iff_left hatom, Except.ok.injEq, eq_comm]
    · rw [if_neg hatom, if_neg hclose]
      exact iff_of_false nofun fun h => hatom h.2

theorem operandStart_eq_error_iff (ht : ts[k]? = some t) (hstar : t.kind ≠ .star) :
    operandStart ts (k + 1) op = .error e ↔
      t.kind = .closeParen ∧ (∀ i, ¬Partners ts i k) ∧ e = .unbalancedParenthesis t.span ∨
      (t.kind.isAtom = false ∧ t.kind ≠ .closeParen) ∧ e = op.missingOperand := by
  by_cases hclose : t.kind = .closeParen
  · rw [and_iff_right hclose, or_iff_left fun h => h.1.2 hclose]
    rcases operandStart_close_cases ht hclose op with ⟨j, hj, hok⟩ | ⟨hnone, herror⟩
    · rw [hok]
      exact iff_of_false nofun fun h => h.1 j hj
    · rw [herror, and_iff_right hnone, Except.error.injEq, eq_comm]
  · rw [operandStart_succ ht hstar, or_iff_right fun h => hclose h.1, if_neg hclose,
      and_iff_left hclose]
    cases hatom : t.kind.isAtom with
    | true => exact iff_of_false nofun nofun
    | false => rw [if_neg Bool.false_ne_true, and_iff_right rfl, Except.error.injEq, eq_comm]

/-! ## Stars -/

/-- Where the stars begin that stand right before `last`. -/
def beforeStars (ts : List Token) (last : Nat) : Nat :=
  last - ((ts.take last).rtakeWhile isStar).length

theorem beforeStars_star (ht : ts[k]? = some t) (hstar : t.kind = .star) :
    beforeStars ts (k + 1) = beforeStars ts k := by
  have hpos : isStar t = true := by rw [isStar, hstar]; rfl
  rw [beforeStars, List.take_add_one, ht, Option.toList_some, List.rtakeWhile_concat_pos _ _ _ hpos,
    List.length_append, List.length_singleton, Nat.add_sub_add_right, beforeStars]

theorem beforeStars_other (ht : ts[k]? = some t) (hstar : t.kind ≠ .star) :
    beforeStars ts (k + 1) = k + 1 := by
  have hneg : ¬isStar t = true := fun hpos => hstar (beq_iff_eq.1 hpos)
  rw [beforeStars, List.take_add_one, ht, Option.toList_some, List.rtakeWhile_concat_neg _ _ _ hneg]
  rfl

/-- The token at `k` is the last one before the stars that stand right before `last`. -/
structure Decides (ts : List Token) (last k : Nat) (t : Token) : Prop where
  place : k + 1 = beforeStars ts last
  token : ts[k]? = some t

theorem Decides.eq {u : Token} (h : Decides ts last i t) (h' : Decides ts last k u) :
    i = k ∧ t = u := by
  obtain rfl := Nat.succ.inj (h.place.trans h'.place.symm)
  exact ⟨rfl, Option.some.inj (h.token.symm.trans h'.token)⟩

theorem Decides.exists_iff {P : Nat → Token → Prop} (h : Decides ts last k t) :
    (∃ k t, Decides ts last k t ∧ P k t) ↔ P k t := by
  constructor
  · rintro ⟨i, u, hu, hP⟩
    obtain ⟨rfl, rfl⟩ := hu.eq h
    exact hP
  · exact fun hP => ⟨k, t, h, hP⟩

theorem Decides.forall_iff {P : Nat → Token → Prop} (h : Decides ts last k t) :
    (∀ k t, Decides ts last k t → P k t) ↔ P k t := by
  refine ⟨fun hP => hP k t h, fun hP i u hu => ?_⟩
  obtain ⟨rfl, rfl⟩ := h.eq hu
  exact hP

/-- Stars are passed over. Some other token decides, unless there are only stars. -/
theorem operandStart_beforeStars (hlast : last ≤ ts.length) (op : Token) :
    operandStart ts last op = operandStart ts (beforeStars ts last) op ∧
      (beforeStars ts last = 0 ∨ ∃ k t, Decides ts last k t ∧ t.kind ≠ .star) := by
  induction last with
  | zero => exact ⟨rfl, Or.inl rfl⟩
  | succ k ih =>
      have ht := List.getElem?_eq_getElem hlast
      by_cases hstar : ts[k].kind = .star
      · obtain ⟨hstart, hdecides⟩ := ih (Nat.le_of_succ_le hlast)
        have hsame := beforeStars_star ht hstar
        rw [hsame, operandStart_star ht hstar]
        refine ⟨hstart, hdecides.imp_right ?_⟩
        rintro ⟨i, t, ⟨hplace, htoken⟩, hother⟩
        exact ⟨i, t, ⟨hplace.trans hsame.symm, htoken⟩, hother⟩
      · have hself := beforeStars_other ht hstar
        exact ⟨by rw [hself], Or.inr ⟨k, _, ⟨hself.symm, ht⟩, hstar⟩⟩

/-- Either nothing but stars precedes, and the operand is missing, or the search begins at
the token that decides. -/
theorem operandStart_cases (hlast : last ≤ ts.length) (op : Token) :
    (∀ k t, ¬Decides ts last k t) ∧ operandStart ts last op = .error op.missingOperand ∨
    ∃ k t, Decides ts last k t ∧ t.kind ≠ .star ∧
      operandStart ts last op = operandStart ts (k + 1) op := by
  obtain ⟨hstart, hzero | ⟨k, t, hdecides, hstar⟩⟩ := operandStart_beforeStars hlast op
  · rw [hzero] at hstart
    refine Or.inl ⟨fun k t h => ?_, hstart⟩
    exact Nat.succ_ne_zero k (h.place.trans hzero)
  · rw [← hdecides.place] at hstart
    exact Or.inr ⟨k, t, hdecides, hstar, hstart⟩

/-! ## The counter -/

/-- The counter of a search that has read the tokens backwards: one more for each parenthesis
that closes, one less for each that opens. It cannot fall below zero. -/
def counter? : List Token → Option Nat
  | [] => some 0
  | t :: ts => (counter? ts).bind fun depth =>
    match t.kind with
    | .closeParen => some (depth + 1)
    | .openParen => if depth = 0 then none else some (depth - 1)
    | _ => some depth

theorem groupLength_ne_zero (depth : Nat) (before : List Token) :
    groupLength depth before ≠ some 0 := by
  cases before with
  | nil => exact nofun
  | cons t before =>
      rw [groupLength]
      cases t.kind with
      | openParen => by_cases hdepth : depth ≤ 1 <;> simp [hdepth]
      | _ => simp

/-- One more token is read: either it is the one that is looked for, and the counter falls to
zero, or the search goes on with what the counter is then. -/
theorem search_step {read back : List Token} (hread : counter? read = some (depth + 1))
    (t : Token) :
    counter? (t :: read) = some 0 ∧ groupLength (depth + 1) (t :: back) = some 1 ∨
    ∃ d, counter? (t :: read) = some (d + 1) ∧
      groupLength (depth + 1) (t :: back) = (groupLength (d + 1) back).map (· + 1) := by
  rw [counter?, hread, Option.bind_some, groupLength]
  cases t.kind with
  | closeParen => exact Or.inr ⟨depth + 1, rfl, rfl⟩
  | openParen =>
      cases depth with
      | zero => exact Or.inl ⟨rfl, rfl⟩
      | succ depth => exact Or.inr ⟨depth, rfl, if_neg (by omega)⟩
  | _ => exact Or.inr ⟨depth, rfl, rfl⟩

/-- As far as a search goes its counter does not fall below zero, and it is zero only where
the search stops. -/
theorem exists_counter? {read : List Token} (hread : counter? read = some (depth + 1))
    (hle : ∀ n, groupLength (depth + 1) (xs.reverse ++ rest) = some n → xs.length ≤ n) :
    ∃ d, counter? (xs ++ read) = some d ∧
      (d = 0 ↔ groupLength (depth + 1) (xs.reverse ++ rest) = some xs.length) := by
  -- On the tokens to be read, from the last one on: each is one step.
  induction xs using List.reverseRecOn generalizing depth read with
  | nil =>
      refine ⟨depth + 1, hread, iff_of_false (Nat.succ_ne_zero depth) ?_⟩
      exact groupLength_ne_zero _ _
  | append_singleton xs t ih =>
      rw [List.reverse_concat, List.cons_append, List.length_append, List.length_singleton] at hle ⊢
      rw [List.append_assoc, List.singleton_append]
      rcases search_step hread t with ⟨hzero, hstop⟩ | ⟨d, hcounter, hgo⟩
      · have hnil := Nat.le_zero.1 (Nat.le_of_succ_le_succ (hle 1 hstop))
        obtain rfl := List.length_eq_zero_iff.1 hnil
        exact ⟨0, hzero, iff_of_true rfl hstop⟩
      · rw [hgo] at hle ⊢
        obtain ⟨d', hd', hzero⟩ := ih hcounter fun n hn =>
          Nat.le_of_succ_le_succ (hle (n + 1) (by rw [hn]; rfl))
        exact ⟨d', hd', hzero.trans (by simp)⟩

/-- From a parenthesis that closes at `k` the counter does not fall below zero at any place
that the search looks at, and it is zero only at the place that is found. -/
theorem exists_counter?_operandStart (hc : ts[k]? = some c) (hclose : c.kind = .closeParen)
    (hjk : j ≤ k) (op : Token) (hle : ∀ i, operandStart ts (k + 1) op = .ok i → i ≤ j) :
    ∃ d, counter? ((ts.take (k + 1)).drop j) = some d ∧
      (d = 0 ↔ operandStart ts (k + 1) op = .ok j) := by
  have hkinds := kinds_getElem?_close hc hclose
  have hstar : c.kind ≠ .star := by rw [hclose]; decide
  have hatom : ¬c.kind.isAtom = true := by rw [hclose]; decide
  have hok : ∀ i, operandStart ts (k + 1) op = .ok i ↔ Partners ts i k := fun i => by
    rw [operandStart_eq_ok_iff hc hstar, or_iff_right fun h => hatom h.2]
  have hread : counter? [c] = some (0 + 1) := by
    rw [counter?, hclose]
    rfl
  have hlt : k < ts.length := (List.getElem?_eq_some_iff.1 hc).1
  have hlen : ((ts.take k).drop j).length = k - j := by
    rw [List.length_drop, List.length_take_of_le (Nat.le_of_lt hlt)]
  have hback := take_reverse_split hjk ts
  have hlength : ∀ n, groupLength 1 (((ts.take k).drop j).reverse ++ (ts.take j).reverse) = some n →
      ((ts.take k).drop j).length ≤ n := fun n hn => by
    rw [← hback] at hn
    obtain ⟨-, hpartners⟩ := (groupLength_take_eq_some_iff hkinds).1 hn
    have hplace := hle _ ((hok _).2 hpartners)
    rw [hlen]
    omega
  obtain ⟨d, hd, hzero⟩ := exists_counter? hread hlength
  refine ⟨d, drop_take_succ hc hjk ▸ hd, hzero.trans ?_⟩
  rw [← hback, hlen, groupLength_take_eq_some_iff hkinds, Nat.sub_sub_self hjk, hok]
  exact and_iff_right (Nat.sub_le k j)

/-- Whatever the tokens, what decides is the last of them but for stars. If it is an atom,
the operand begins with it, and if it closes a parenthesis that has a partner, with that
partner. A parenthesis without a partner is blamed; in all other cases the operand is
missing. The counter of the search for the partner does not fall below zero at any place that
the search looks at, and it is zero only at the place that is found. -/
theorem operandStart_outcomes (op : Token) (hlast : last ≤ ts.length) :
    (∀ i, operandStart ts last op = .ok i ↔ ∃ k t, Decides ts last k t ∧
      (i = k ∧ t.kind.isAtom = true ∨ Partners ts i k)) ∧
    (∀ e, operandStart ts last op = .error e ↔
      (∃ k t, Decides ts last k t ∧ t.kind = .closeParen ∧ (∀ i, ¬Partners ts i k) ∧
        e = .unbalancedParenthesis t.span) ∨
      (∀ k t, Decides ts last k t → t.kind.isAtom = false ∧ t.kind ≠ .closeParen) ∧
        e = op.missingOperand) ∧
    ∀ k t j, Decides ts last k t → t.kind = .closeParen → j ≤ k →
      (∀ i, operandStart ts last op = .ok i → i ≤ j) →
      ∃ d, counter? ((ts.take (k + 1)).drop j) = some d ∧
        (d = 0 ↔ operandStart ts last op = .ok j) := by
  rcases operandStart_cases hlast op with ⟨hnone, hstart⟩ | ⟨k, t, hdecides, hstar, hstart⟩
  · rw [hstart]
    refine ⟨fun i => iff_of_false nofun ?_, fun e => ?_, fun k t _ h => absurd h (hnone k t)⟩
    · rintro ⟨k, t, h, -⟩
      exact hnone k t h
    · rw [Except.error.injEq, eq_comm, or_iff_right, and_iff_right]
      · exact fun k t h => absurd h (hnone k t)
      · rintro ⟨k, t, h, -⟩
        exact hnone k t h
  · rw [hstart]
    refine ⟨fun i => ?_, fun e => ?_, fun i u j h hclose hj hle => ?_⟩
    · rw [hdecides.exists_iff]
      exact operandStart_eq_ok_iff hdecides.token hstar
    · rw [hdecides.exists_iff, hdecides.forall_iff]
      exact operandStart_eq_error_iff hdecides.token hstar
    · obtain ⟨rfl, rfl⟩ := hdecides.eq h
      exact exists_counter?_operandStart h.token hclose hj op hle

/-- Behind all tokens of `)(a)**`, and behind the first one. -/
theorem operandStart_outcomes_stars : ∃ ts, scan ")(a)**" = .ok ts ∧ 6 ≤ ts.length ∧
    operandStart ts 6 ⟨.plus, ⟨6, 6⟩⟩ = .ok 1 ∧ Partners ts 1 3 ∧
    counter? ((ts.take 4).drop 1) = some 0 ∧
    operandStart ts 1 ⟨.plus, ⟨1, 1⟩⟩ = .error (.unbalancedParenthesis ⟨0, 0⟩) ∧
    ∀ i, ¬Partners ts i 0 := by
  have hscan : scan ")(a)**" = .ok [⟨.closeParen, ⟨0, 0⟩⟩, ⟨.openParen, ⟨1, 1⟩⟩,
    ⟨.literal 'a', ⟨2, 2⟩⟩, ⟨.closeParen, ⟨3, 3⟩⟩, ⟨.star, ⟨4, 4⟩⟩, ⟨.star, ⟨5, 5⟩⟩] := rfl
  refine ⟨_, hscan, by decide, rfl, ?_⟩
  generalize hts : [_, _, _, _, _, _] = ts
  have hlen : ts.length = 6 := hts ▸ rfl
  have hfound : operandStart ts 6 ⟨.plus, ⟨6, 6⟩⟩ = .ok 1 := hts ▸ rfl
  have hblamed : operandStart ts 1 ⟨.plus, ⟨1, 1⟩⟩ = .error (.unbalancedParenthesis ⟨0, 0⟩) :=
    hts ▸ rfl
  have hlast : Decides ts 6 3 ⟨.closeParen, ⟨3, 3⟩⟩ := hts ▸ ⟨rfl, rfl⟩
  have hfirst : Decides ts 1 0 ⟨.closeParen, ⟨0, 0⟩⟩ := hts ▸ ⟨rfl, rfl⟩
  have hone : 1 ≤ ts.length := by omega
  obtain ⟨hok, -, hcounter⟩ := operandStart_outcomes ⟨.plus, ⟨6, 6⟩⟩ (Nat.le_of_eq hlen.symm)
  obtain ⟨-, herror, -⟩ := operandStart_outcomes ⟨.plus, ⟨1, 1⟩⟩ hone
  have hpartners := (hlast.exists_iff.1 ((hok 1).1 hfound)).resolve_left (by decide)
  obtain ⟨d, hd, hzero⟩ := hcounter 3 _ 1 hlast rfl (by decide) fun i hi =>
    Nat.le_of_eq (Except.ok.inj (hi.symm.trans hfound))
  obtain rfl := hzero.2 hfound
  refine ⟨hpartners, hd, hblamed, ?_⟩
  rcases (herror _).1 hblamed with hex | ⟨-, hmissing⟩
  · exact (hfirst.exists_iff.1 hex).2.1
  · cases hmissing

end Regular.Token
