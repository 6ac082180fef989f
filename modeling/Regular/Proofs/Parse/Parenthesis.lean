import Regular.Proofs.Parse.Pending

/-!
# Which parenthesis is blamed, and what a stream consists of

Open parentheses wait on one stack with the operators. The operators do not get in their way:
what a token does to the open parentheses depends on the parentheses alone
(`Postfix.reorder_cons_cases`). So the tokens that have been read fall apart at the open
ones, with matching parentheses in between (`Token.Awaiting`), and reordering fails precisely
where a parenthesis has no partner: at the first one that closes without having been opened
or, if there is none, at the last one that is never closed (`Token.Fault`). What is reordered
is all the other tokens (`Postfix.perm_of_reorder`).
-/

namespace Regular

variable {ts us before after opens pending out : List Token} {t u o c : Token} {n : Nat}
  {cs : List TokenKind} {depth : Nat}

open TokenKind (Closes Neutral)

theorem TokenKind.not_closes_concat_open : ¬Closes depth (cs ++ [.openParen]) := by
  induction cs generalizing depth with
  | nil => exact Nat.succ_ne_zero depth
  | cons a cs ih =>
      cases a with
      | closeParen => exact fun h => ih h.2
      | _ => exact ih

namespace Token

theorem Tight.neutral (h : Tight n ts) : Neutral (kinds ts) := by
  induction h with
  | nil => exact fun _ _ => Iff.rfl
  | token hopen hclose _ _ ih => exact (TokenKind.neutral_singleton hopen hclose).append ih
  | group hopen _ hclose _ ihinner ihrest =>
      have hgroup := ihinner.group.append ihrest
      rw [List.cons_append, List.append_assoc] at hgroup
      rw [kinds_cons, kinds_append, kinds_cons, hopen, hclose]
      exact hgroup

theorem Tight.closes (h : Tight n ts) : Closes 0 (kinds ts) := by
  have hcloses := (h.neutral 0 []).2 rfl
  rwa [List.append_nil] at hcloses

/-! ## Partners -/

/-- The parentheses match. -/
def Matched (ts : List Token) : Prop := Tight 0 ts

/-- A parenthesis that is closed right behind the tokens has been opened by one of them. -/
def HasOpening (before : List Token) : Prop :=
  ∃ xs o ys, before = xs ++ o :: ys ∧ o.kind = .openParen ∧ Matched ys

/-- A parenthesis that is opened right before the tokens is closed by one of them. -/
def HasClosing (after : List Token) : Prop :=
  ∃ ys c zs, after = ys ++ c :: zs ∧ c.kind = .closeParen ∧ Matched ys

/-- Every parenthesis that closes has one that opens it. -/
def AllOpened (ts : List Token) : Prop :=
  ∀ before c after, ts = before ++ c :: after → c.kind = .closeParen → HasOpening before

/-- Every parenthesis that opens has one that closes it. -/
def AllClosed (ts : List Token) : Prop :=
  ∀ before o after, ts = before ++ o :: after → o.kind = .openParen → HasClosing after

/-- The first parenthesis that closes without one that opens it. -/
def FirstUnopened (ts : List Token) (t : Token) : Prop :=
  ∃ before after, ts = before ++ t :: after ∧ t.kind = .closeParen ∧ ¬HasOpening before ∧
    AllOpened before

/-- The last parenthesis that opens without one that closes it. -/
def LastUnclosed (ts : List Token) (t : Token) : Prop :=
  ∃ before after, ts = before ++ t :: after ∧ t.kind = .openParen ∧ ¬HasClosing after ∧
    AllClosed after

/-- The parenthesis that is to blame: one that closes, or one that opens if all that close
are in order. -/
def Fault (ts : List Token) (t : Token) : Prop :=
  FirstUnopened ts t ∨ AllOpened ts ∧ LastUnclosed ts t

theorem HasOpening.append_left (h : HasOpening ts) (us : List Token) : HasOpening (us ++ ts) := by
  obtain ⟨xs, o, ys, rfl, ho, hys⟩ := h
  exact ⟨us ++ xs, o, ys, by simp, ho, hys⟩

theorem HasClosing.append_right (h : HasClosing ts) (us : List Token) : HasClosing (ts ++ us) := by
  obtain ⟨ys, c, zs, rfl, hc, hys⟩ := h
  exact ⟨ys, c, zs ++ us, by simp, hc, hys⟩

/-- Two places in one list are the same, or one comes before the other. -/
theorem same_or_before {xs ys xs' ys' : List Token} (h : xs ++ t :: ys = xs' ++ u :: ys') :
    t = u ∨ (∃ zs, xs' = xs ++ t :: zs) ∨ ∃ zs, xs = xs' ++ u :: zs := by
  rcases List.append_eq_append_iff.1 h with ⟨zs, rfl, heq⟩ | ⟨zs, rfl, heq⟩ <;>
    rcases List.cons_eq_append_iff.1 heq with ⟨rfl, heq⟩ | ⟨zs, rfl, -⟩
  · exact Or.inl (List.cons.inj heq).1
  · exact Or.inr (Or.inl ⟨zs, rfl⟩)
  · exact Or.inl (List.cons.inj heq).1.symm
  · exact Or.inr (Or.inr ⟨zs, rfl⟩)

/-! ### Tokens that match -/

theorem AllOpened.append_of (h : AllOpened ts) (h' : ∀ before c after, us = before ++ c :: after →
    c.kind = .closeParen → HasOpening (ts ++ before)) : AllOpened (ts ++ us) := by
  intro before c after heq hc
  rcases List.append_eq_append_iff.1 heq with ⟨zs, rfl, hus⟩ | ⟨zs, rfl, hus⟩
  · exact h' zs c after hus hc
  · rcases List.cons_eq_append_iff.1 hus with ⟨rfl, rfl⟩ | ⟨zs, rfl, -⟩
    · have hopening := h' [] c after rfl hc
      rwa [List.append_nil, List.append_nil] at hopening
    · exact h before c zs rfl hc

theorem AllClosed.append_of (h : AllClosed us) (h' : ∀ before o after, ts = before ++ o :: after →
    o.kind = .openParen → HasClosing (after ++ us)) : AllClosed (ts ++ us) := by
  intro before o after heq ho
  rcases List.append_eq_append_iff.1 heq with ⟨zs, rfl, hus⟩ | ⟨zs, rfl, hus⟩
  · exact h zs o after hus ho
  · rcases List.cons_eq_append_iff.1 hus with ⟨rfl, hus⟩ | ⟨zs, rfl, rfl⟩
    · exact h [] o after hus.symm ho
    · exact h' before o zs rfl ho

theorem allOpened_nil : AllOpened [] := by
  intro before c after heq
  simp at heq

theorem allClosed_nil : AllClosed [] := by
  intro before o after heq
  simp at heq

theorem AllOpened.append (h : AllOpened ts) (h' : AllOpened us) : AllOpened (ts ++ us) :=
  h.append_of fun before c after heq hc => (h' before c after heq hc).append_left ts

theorem AllClosed.append (h : AllClosed ts) (h' : AllClosed us) : AllClosed (ts ++ us) :=
  h'.append_of fun before o after heq ho => (h before o after heq ho).append_right us

theorem AllOpened.concat (h : AllOpened ts) (ht : t.kind = .closeParen → HasOpening ts) :
    AllOpened (ts ++ [t]) := by
  refine h.append_of fun before c after heq hc => ?_
  obtain ⟨rfl, hrest⟩ | ⟨-, hrest⟩ := List.singleton_eq_append_iff.1 heq
  · obtain ⟨rfl, -⟩ := List.cons.inj hrest
    rw [List.append_nil]
    exact ht hc
  · cases hrest

theorem AllClosed.cons (h : AllClosed ts) (ht : t.kind = .openParen → HasClosing ts) :
    AllClosed (t :: ts) := by
  rw [← List.singleton_append]
  refine h.append_of fun before o after heq ho => ?_
  obtain ⟨rfl, hrest⟩ | ⟨-, hrest⟩ := List.singleton_eq_append_iff.1 heq
  · obtain ⟨rfl, rfl⟩ := List.cons.inj hrest
    exact ht ho
  · cases hrest

theorem Tight.allOpened (h : Tight n ts) : AllOpened ts := by
  induction h with
  | nil => exact allOpened_nil
  | @token _ t _ hopen hclose _ _ ih =>
      exact (allOpened_nil.concat fun ht => absurd ht hclose).append ih
  | @group _ o c inner ts hopen hinner hclose _ ihinner ihrest =>
      have hgroup : AllOpened ([o] ++ inner ++ [c]) := by
        refine AllOpened.concat (.append (allOpened_nil.concat fun ho => ?_) ihinner) fun _ => ?_
        · rw [hopen] at ho
          cases ho
        · exact ⟨[], o, inner, rfl, hopen, hinner⟩
      simpa using hgroup.append ihrest

theorem Tight.allClosed (h : Tight n ts) : AllClosed ts := by
  induction h with
  | nil => exact allClosed_nil
  | token hopen _ _ _ ih => exact ih.cons fun ht => absurd ht hopen
  | @group _ o c inner ts hopen hinner hclose _ ihinner ihrest =>
      refine AllClosed.cons (ihinner.append (ihrest.cons fun hc => ?_)) fun _ => ?_
      · rw [hclose] at hc
        cases hc
      · exact ⟨inner, c, ts, rfl, hclose, hinner⟩

theorem Matched.not_hasOpening (h : Matched ts) : ¬HasOpening ts := by
  rintro ⟨xs, o, ys, rfl, ho, hys⟩
  have hcloses := Tight.closes h
  rw [kinds_append, kinds_cons, ho] at hcloses
  refine TokenKind.not_closes_concat_open ((TokenKind.closes_congr fun depth => ?_).1 hcloses)
  rw [← List.append_nil (.openParen :: kinds ys), List.cons_append]
  exact hys.neutral (depth + 1) []

theorem Matched.not_hasClosing (h : Matched ts) : ¬HasClosing ts := by
  rintro ⟨ys, c, zs, rfl, hc, hys⟩
  have hcloses := Tight.closes h
  rw [kinds_append, kinds_cons, hc, hys.neutral] at hcloses
  exact Nat.not_lt_zero 0 hcloses.1

/-! ### At most one parenthesis is to blame -/

theorem Fault.not_matched (h : Fault ts t) : ¬Matched ts := by
  intro hts
  rcases h with ⟨before, after, heq, ht, hnone, -⟩ | ⟨-, before, after, heq, ht, hnone, -⟩
  · exact hnone (hts.allOpened before t after heq ht)
  · exact hnone (hts.allClosed before t after heq ht)

theorem FirstUnopened.eq (h : FirstUnopened ts t) (h' : FirstUnopened ts u) : t = u := by
  obtain ⟨before, after, rfl, ht, hnone, hopened⟩ := h
  obtain ⟨before', after', heq, hu, hnone', hopened'⟩ := h'
  rcases same_or_before heq with rfl | ⟨zs, rfl⟩ | ⟨zs, rfl⟩
  · rfl
  · exact absurd (hopened' before t zs rfl ht) hnone
  · exact absurd (hopened before' u zs rfl hu) hnone'

theorem LastUnclosed.eq (h : LastUnclosed ts t) (h' : LastUnclosed ts u) : t = u := by
  obtain ⟨before, after, rfl, ht, hnone, hclosed⟩ := h
  obtain ⟨before', after', heq, hu, hnone', hclosed'⟩ := h'
  rcases same_or_before heq with rfl | ⟨zs, rfl⟩ | ⟨zs, rfl⟩
  · rfl
  · rw [List.append_assoc, List.cons_append] at heq
    obtain rfl := (List.cons.inj (List.append_cancel_left heq)).2
    exact absurd (hclosed zs u after' rfl hu) hnone'
  · rw [List.append_assoc, List.cons_append] at heq
    obtain rfl := (List.cons.inj (List.append_cancel_left heq)).2
    exact absurd (hclosed' zs t after rfl ht) hnone

theorem FirstUnopened.not_allOpened (h : FirstUnopened ts t) : ¬AllOpened ts := by
  obtain ⟨before, after, rfl, ht, hnone, -⟩ := h
  exact fun hopened => hnone (hopened before t after rfl ht)

theorem Fault.eq (h : Fault ts t) (h' : Fault ts u) : t = u := by
  rcases h with h | ⟨hopened, h⟩ <;> rcases h' with h' | ⟨hopened', h'⟩
  · exact h.eq h'
  · exact absurd hopened' h.not_allOpened
  · exact absurd hopened h'.not_allOpened
  · exact h.eq h'

theorem Fault.mem (h : Fault ts t) : t ∈ ts := by
  rcases h with ⟨before, after, rfl, -⟩ | ⟨-, before, after, rfl, -⟩ <;> simp

/-! ## What has been read -/

/-- The tokens fall apart at the open parentheses, which are listed in reverse; the
parentheses in between match. -/
inductive Awaiting : List Token → List Token → Prop
  | matched {ts : List Token} (h : Matched ts) : Awaiting [] ts
  | opened {opens before ts : List Token} {o : Token} (hbefore : Awaiting opens before)
      (ho : o.kind = .openParen) (h : Matched ts) : Awaiting (o :: opens) (before ++ o :: ts)

theorem Awaiting.append (h : Awaiting opens ts) (hus : Matched us) : Awaiting opens (ts ++ us) := by
  cases h with
  | matched hts => exact .matched (Tight.append hts hus)
  | opened hbefore ho hts =>
      rw [List.append_assoc, List.cons_append]
      exact .opened hbefore ho (Tight.append hts hus)

theorem Awaiting.other (h : Awaiting opens ts) (hopen : t.kind ≠ .openParen)
    (hclose : t.kind ≠ .closeParen) : Awaiting opens (ts ++ [t]) :=
  h.append (.token hopen hclose (Or.inr (Nat.zero_le _)) .nil)

theorem Awaiting.close (h : Awaiting (o :: opens) ts) (ht : t.kind = .closeParen) :
    Awaiting opens (ts ++ [t]) ∧ HasOpening ts := by
  cases h with
  | @opened _ before us _ hbefore ho hus =>
      refine ⟨?_, before, o, us, rfl, ho, hus⟩
      rw [List.append_assoc, List.cons_append]
      exact hbefore.append (.group ho hus ht .nil)

end Token

open Token

namespace Postfix

/-! ## What a token does to the open parentheses -/

/-- A parenthesis that closes takes the last open one off, and fails if there is none; one
that opens is put on top; nothing else touches them. -/
theorem reorder_cons_cases (pending : List Token) (t : Token) (ts : List Token) :
    (t.kind = .closeParen ∧ pending.filter isOpen = [] ∧
      reorder pending (t :: ts) = .error (.unbalancedParenthesis t.span)) ∨
    ∃ taken pending', reorder pending (t :: ts) = (taken ++ ·) <$> reorder pending' ts ∧
      (t.kind = .openParen ∧ pending'.filter isOpen = t :: pending.filter isOpen ∨
        t.kind = .closeParen ∧ (∃ o, pending.filter isOpen = o :: pending'.filter isOpen) ∨
        (t.kind ≠ .openParen ∧ t.kind ≠ .closeParen) ∧
          pending'.filter isOpen = pending.filter isOpen) := by
  rw [reorder]
  split
  · next hatom =>
    exact Or.inr ⟨[t], pending, rfl, Or.inr (Or.inr
      ⟨⟨TokenKind.ne_of_isAtom hatom rfl, TokenKind.ne_of_isAtom hatom rfl⟩, rfl⟩)⟩
  · split
    · next hopen =>
      refine Or.inr ⟨[], t :: pending, (id_map _).symm, Or.inl ⟨hopen, ?_⟩⟩
      exact List.filter_cons_of_pos (isOpen_eq_true_iff.2 hopen)
    · next hclose =>
      have hfilter : (pending.dropWhile (!isOpen ·)).filter isOpen = pending.filter isOpen :=
        filter_dropWhile fun t ht => by simpa using ht
      split
      · next hnone =>
        rw [hnone] at hfilter
        exact Or.inl ⟨hclose, hfilter.symm, rfl⟩
      · next o below hsome =>
        rw [hsome, List.filter_cons_of_pos (isOpen_eq_true_iff.2 (kind_of_dropWhile hsome))]
          at hfilter
        exact Or.inr ⟨_, below, rfl, Or.inr (Or.inl ⟨hclose, o, hfilter.symm⟩)⟩
    · next hopen hclose =>
      refine Or.inr ⟨_, _, rfl, Or.inr (Or.inr ⟨⟨hopen, hclose⟩, ?_⟩)⟩
      have hnot : ¬isOpen t = true := fun h => hopen (isOpen_eq_true_iff.1 h)
      rw [List.filter_cons_of_neg hnot]
      exact filter_dropWhile fun top htop => isOpen_eq_false_of_yieldsTo htop

theorem reorder_nil_cases (pending : List Token) :
    (∃ out, reorder pending [] = .ok out) ∧ pending.filter isOpen = [] ∨
    ∃ t opens, reorder pending [] = .error (.unbalancedParenthesis t.span) ∧
      pending.filter isOpen = t :: opens := by
  rw [reorder, ← List.head?_filter]
  cases pending.filter isOpen with
  | nil => exact Or.inl ⟨⟨pending, rfl⟩, rfl⟩
  | cons t opens => exact Or.inr ⟨t, opens, rfl, rfl⟩

/-- Behind tokens that have been read with no fault, reordering succeeds if all parentheses
match and fails at the one to blame otherwise. -/
theorem reorder_cases (h : Awaiting (pending.filter isOpen) before) (hopened : AllOpened before) :
    (∃ out, reorder pending ts = .ok out) ∧ Matched (before ++ ts) ∨
    ∃ t, reorder pending ts = .error (.unbalancedParenthesis t.span) ∧ Fault (before ++ ts) t := by
  -- On the tokens to come: the open parentheses on the stack are those the tokens read fall
  -- apart at.
  induction ts generalizing pending before with
  | nil =>
      rw [List.append_nil]
      rcases reorder_nil_cases pending with ⟨hok, hnil⟩ | ⟨t, opens, herror, hcons⟩
      · rw [hnil] at h
        cases h with
        | matched hbefore => exact Or.inl ⟨hok, hbefore⟩
      · rw [hcons] at h
        cases h with
        | @opened _ before us _ _ ht hus =>
            exact Or.inr ⟨t, herror, Or.inr ⟨hopened, before, us, rfl, ht, hus.not_hasClosing,
              hus.allClosed⟩⟩
  | cons t ts ih =>
      rw [List.append_cons]
      rcases reorder_cons_cases pending t ts with ⟨hclose, hnil, herror⟩ |
        ⟨taken, pending', hreorder, hparen⟩
      · rw [hnil] at h
        cases h with
        | matched hbefore =>
            refine Or.inr ⟨t, herror, Or.inl ⟨before, ts, ?_, hclose, hbefore.not_hasOpening,
              hopened⟩⟩
            rw [List.append_assoc, List.singleton_append]
      · have hnext : Awaiting (pending'.filter isOpen) (before ++ [t]) ∧
            AllOpened (before ++ [t]) := by
          rcases hparen with ⟨hopen, heq⟩ | ⟨hclose, o, heq⟩ | ⟨⟨hopen, hclose⟩, heq⟩
          · rw [heq]
            refine ⟨.opened h hopen .nil, hopened.concat fun hclose => ?_⟩
            rw [hopen] at hclose
            cases hclose
          · rw [heq] at h
            obtain ⟨hawait, hopening⟩ := h.close hclose
            exact ⟨hawait, hopened.concat fun _ => hopening⟩
          · rw [heq]
            exact ⟨h.other hopen hclose, hopened.concat fun ht => absurd ht hclose⟩
        rw [hreorder]
        rcases ih hnext.1 hnext.2 with ⟨⟨out, hout⟩, hmatched⟩ | ⟨u, herror, hfault⟩
        · refine Or.inl ⟨⟨taken ++ out, ?_⟩, hmatched⟩
          rw [hout]
          rfl
        · refine Or.inr ⟨u, ?_, hfault⟩
          rw [herror]
          rfl

theorem ofTokens_cases (ts : List Token) :
    (∃ out, ofTokens ts = .ok out) ∧ Matched ts ∨
    ∃ t, ofTokens ts = .error (.unbalancedParenthesis t.span) ∧ Fault ts t := by
  have hnil : Awaiting (([] : List Token).filter isOpen) [] := .matched .nil
  exact reorder_cases hnil allOpened_nil

/-! ## What is written -/

/-- The tokens that are no parentheses. -/
def withoutParens (ts : List Token) : List Token :=
  ts.filter fun t => t.kind ≠ .openParen ∧ t.kind ≠ .closeParen

theorem withoutParens_append (ts us : List Token) :
    withoutParens (ts ++ us) = withoutParens ts ++ withoutParens us := List.filter_append ..

theorem withoutParens_cons (h : t.kind = .openParen ∨ t.kind = .closeParen) (ts : List Token) :
    withoutParens (t :: ts) = withoutParens ts := by
  refine List.filter_cons_of_neg ?_
  rcases h with h | h <;> simp [h]

theorem withoutParens_eq_self (h : ∀ t ∈ ts, t.kind ≠ .openParen ∧ t.kind ≠ .closeParen) :
    withoutParens ts = ts := List.filter_eq_self.2 fun t ht => decide_eq_true (h t ht)

/-- Pending are operators and open parentheses. -/
def Waiting (pending : List Token) : Prop := ∀ t ∈ pending, 0 < t.kind.precedence

theorem Waiting.ne_closeParen (h : Waiting pending) (ht : t ∈ pending) : t.kind ≠ .closeParen := by
  intro hclose
  have hpos := h t ht
  rw [hclose] at hpos
  exact absurd hpos (Nat.lt_irrefl 0)

theorem Waiting.filter_isAtom (h : Waiting pending) : pending.filter (·.kind.isAtom) = [] := by
  refine List.filter_eq_nil_iff.2 fun t ht hatom => ?_
  have hpos := h t ht
  rw [TokenKind.precedence_of_isAtom hatom] at hpos
  exact absurd hpos (Nat.lt_irrefl 0)

/-- What is taken off is written as it is. -/
theorem Waiting.takeWhile {p : Token → Bool} (h : Waiting pending)
    (hp : ∀ t, p t = true → isOpen t = false) :
    withoutParens (pending.takeWhile p) = pending.takeWhile p ∧
      (pending.takeWhile p).filter (·.kind.isAtom) = [] := by
  have hmem : ∀ t ∈ pending.takeWhile p, t ∈ pending := fun t ht =>
    (List.takeWhile_prefix p).subset ht
  refine ⟨withoutParens_eq_self fun t ht => ⟨fun hopen => ?_, h.ne_closeParen (hmem t ht)⟩,
    Waiting.filter_isAtom fun t ht => h t (hmem t ht)⟩
  have hnot := hp t (List.mem_takeWhile_imp ht)
  rw [isOpen_eq_true_iff.2 hopen] at hnot
  cases hnot

/-- One token is written or becomes pending, and what is taken off for it is written. -/
theorem exists_step_of_reorder (hpending : Waiting pending)
    (h : reorder pending (t :: ts) = .ok out) : ∃ taken pending' rest, out = taken ++ rest ∧
      reorder pending' ts = .ok rest ∧ Waiting pending' ∧ withoutParens taken = taken ∧
      (withoutParens (taken ++ pending')).Perm (withoutParens (pending ++ [t])) ∧
      taken.filter (·.kind.isAtom) = [t].filter (·.kind.isAtom) := by
  rcases reorder_cons_eq_ok h with ⟨hatom, rest, hrest, rfl⟩ | ⟨hkind, hrest⟩ |
    ⟨hkind, top, below, rest, htop, hbelow, hrest, rfl⟩ | ⟨hprec, hopen, hclose, rest, hrest, rfl⟩
  · refine ⟨[t], pending, rest, rfl, hrest, hpending, withoutParens_eq_self fun u hu => ?_,
      List.perm_append_comm.filter _, rfl⟩
    obtain rfl := List.mem_singleton.1 hu
    exact ⟨TokenKind.ne_of_isAtom hatom rfl, TokenKind.ne_of_isAtom hatom rfl⟩
  · have hnone : [t].filter (·.kind.isAtom) = [] :=
      List.filter_cons_of_neg (by rw [hkind]; decide)
    refine ⟨[], t :: pending, out, rfl, hrest, List.forall_mem_cons.2 ⟨?_, hpending⟩, rfl,
      (List.perm_append_singleton t pending).symm.filter _, hnone.symm⟩
    rw [hkind]
    exact Nat.one_pos
  · obtain ⟨hself, hnone⟩ := hpending.takeWhile (p := (!isOpen ·)) fun u hu => by simpa using hu
    have hsplit := List.takeWhile_append_dropWhile (p := (!isOpen ·)) (l := pending)
    have hnone' : [t].filter (·.kind.isAtom) = [] :=
      List.filter_cons_of_neg (by rw [hkind]; decide)
    rw [hbelow] at hsplit
    refine ⟨_, below, rest, rfl, hrest, fun u hu => hpending u ?_, hself, List.Perm.of_eq ?_,
      hnone.trans hnone'.symm⟩
    · rw [← hsplit]
      exact List.mem_append_right _ (List.mem_cons_of_mem _ hu)
    · conv_rhs => rw [← hsplit]
      rw [withoutParens_append, withoutParens_append, withoutParens_append,
        withoutParens_cons (Or.inl htop), withoutParens_cons (Or.inr hkind)]
      exact (List.append_nil _).symm
  · obtain ⟨hself, hnone⟩ := hpending.takeWhile fun top htop => isOpen_eq_false_of_yieldsTo htop
    have hnone' : [t].filter (·.kind.isAtom) = [] := by
      refine List.filter_cons_of_neg fun hatom => ?_
      rw [TokenKind.precedence_of_isAtom hatom] at hprec
      exact absurd hprec (Nat.not_lt_zero 1)
    refine ⟨_, _, rest, rfl, hrest,
      List.forall_mem_cons.2 ⟨Nat.lt_of_succ_lt hprec, fun u hu => ?_⟩, hself,
      List.Perm.filter _ ?_, hnone.trans hnone'.symm⟩
    · exact hpending u ((List.dropWhile_suffix _).subset hu)
    · refine List.perm_middle.trans ?_
      rw [List.takeWhile_append_dropWhile]
      exact (List.perm_append_singleton t pending).symm

/-- What was pending and what is read is written, but for the parentheses, and the atoms in
the order in which they are read. -/
theorem perm_of_reorder (hpending : Waiting pending) (h : reorder pending ts = .ok out) :
    out.Perm (withoutParens (pending ++ ts)) ∧
      out.filter (·.kind.isAtom) = ts.filter (·.kind.isAtom) := by
  induction ts generalizing pending out with
  | nil =>
      obtain ⟨hnone, rfl⟩ := reorder_nil_eq_ok h
      have hopen : ∀ t ∈ out, t.kind ≠ .openParen := by
        intro t ht hkind
        rw [← isOpen_eq_true_iff, hnone t ht] at hkind
        cases hkind
      rw [List.append_nil,
        withoutParens_eq_self fun t ht => ⟨hopen t ht, hpending.ne_closeParen ht⟩]
      exact ⟨.refl _, hpending.filter_isAtom⟩
  | cons t ts ih =>
      obtain ⟨taken, pending', rest, rfl, hrest, hpending', hself, hperm, hatoms⟩ :=
        exists_step_of_reorder hpending h
      obtain ⟨hrestPerm, hrestAtoms⟩ := ih hpending' hrest
      constructor
      · refine (hrestPerm.append_left taken).trans ?_
        rw [withoutParens_append, ← List.append_assoc]
        conv_lhs => rw [← hself]
        rw [← withoutParens_append, List.append_cons, withoutParens_append _ ts]
        exact hperm.append_right _
      · rw [List.filter_append, hatoms, hrestAtoms, ← List.filter_append]
        rfl

theorem perm_of_ofTokens (h : ofTokens ts = .ok out) : out.Perm (withoutParens ts) :=
  (perm_of_reorder (fun _ ht => absurd ht List.not_mem_nil) h).1

/-- Tokens can be brought into postfix order if and only if their parentheses match. If they
do not, the error stands at the first parenthesis that is closed without having been opened
or else at the last one that is not closed; if they do, the stream is the other tokens, and
its atoms stand in the same order. -/
theorem ofTokens_fault_or_perm (ts : List Token) :
    ((∃ e, ofTokens ts = .error e) ↔ ¬Matched ts) ∧
    (∀ e, ofTokens ts = .error e ↔ ∃ t, Fault ts t ∧ e = .unbalancedParenthesis t.span) ∧
    ∀ out, ofTokens ts = .ok out → out.Perm (withoutParens ts) ∧
      out.filter (·.kind.isAtom) = ts.filter (·.kind.isAtom) := by
  have hnil : Waiting [] := fun _ ht => absurd ht List.not_mem_nil
  refine ⟨?_, fun e => ?_, fun out h => perm_of_reorder hnil h⟩
  · rcases ofTokens_cases ts with ⟨⟨out, hok⟩, hmatched⟩ | ⟨t, herror, hfault⟩
    · rw [hok]
      exact iff_of_false (fun ⟨_, h⟩ => nomatch h) (not_not_intro hmatched)
    · exact iff_of_true ⟨_, herror⟩ hfault.not_matched
  · rcases ofTokens_cases ts with ⟨⟨out, hok⟩, hmatched⟩ | ⟨t, herror, hfault⟩
    · rw [hok]
      exact iff_of_false nofun fun ⟨t, hfault, _⟩ => hfault.not_matched hmatched
    · rw [herror]
      constructor
      · intro h
        exact ⟨t, hfault, (Except.error.inj h).symm⟩
      · rintro ⟨u, hu, rfl⟩
        rw [hfault.eq hu]

end Postfix

end Regular
