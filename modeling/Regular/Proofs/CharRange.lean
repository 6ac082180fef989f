import Mathlib.Data.Finset.Card
import Mathlib.Logic.Function.Iterate
import Mathlib.Order.Interval.Finset.Nat
import Regular.CharRange
import Regular.SortedSet

/-!
# What a range of characters yields

A range ends with the code point of a character. So as long as a code point is left, a
character is (`CharRange.step_cases`): a step yields the least one and goes on behind it, and
once there is none nothing changes any more. By induction, the `k`-th step yields the `k`-th
character of the range, and what is left after it begins behind the characters yielded
(`CharRange.next_after_le_iff`). The code points left are the characters left and the
surrogates left, hence the bound (`CharRange.remaining_eq`).
-/

namespace Regular

/-- The code points that belong to no character, but for those beyond the last one. -/
def IsSurrogate (n : Nat) : Prop := 0xD800 ≤ n ∧ n ≤ 0xDFFF

instance : DecidablePred IsSurrogate := fun n =>
  inferInstanceAs (Decidable (0xD800 ≤ n ∧ n ≤ 0xDFFF))

theorem not_isValidChar_iff {m n : Nat} (h : m.isValidChar) (hle : n ≤ m) :
    ¬n.isValidChar ↔ IsSurrogate n := by
  simp only [Nat.isValidChar] at h ⊢
  rw [IsSurrogate]
  omega

namespace CharRange

variable {r r' : CharRange} {c d low high : Char} {x : Option Char} {k m n : Nat}

/-! ## Steps -/

/-- A step yields the least character of the range and goes on behind it, or there is nothing
left, and nothing changes. -/
theorem step_cases (hlast : r.last.isValidChar) :
    (∃ c, r.step = (some c, ⟨c.toNat + 1, r.last⟩) ∧ c ∈ r ∧ ∀ d ∈ r, c.toNat ≤ d.toNat) ∨
    r.step = (none, r) ∧ r.last < r.next := by
  induction r using step.induct with
  | case1 r hle c hchar =>
      have hc := Text.charOf?_eq_some_iff.1 hchar
      refine Or.inl ⟨c, ?_, ⟨Nat.le_of_eq hc.symm, hc ▸ hle⟩, fun d hd => hc ▸ hd.1⟩
      rw [step, if_pos hle, hchar, hc]
  | case2 r hle hchar ih =>
      -- the code point that is passed over belongs to no character, so it is not the last
      -- one
      have hne : ∀ d : Char, d.toNat ≠ r.next := fun d hd => by
        rw [Text.charOf?_eq_some_iff.2 hd] at hchar
        cases hchar
      have hlt : r.next < r.last := by
        refine Nat.lt_of_le_of_ne hle fun heq => hne (Char.ofNat r.last) ?_
        rw [Text.toNat_ofNat_of_isValidChar hlast, heq]
      have hstep : r.step = step ⟨r.next + 1, r.last⟩ := by rw [step, if_pos hle, hchar]
      rw [hstep]
      rcases ih hlast with ⟨c, hc, hmem, hleast⟩ | ⟨-, hover⟩
      · refine Or.inl ⟨c, hc, ⟨Nat.le_of_succ_le hmem.1, hmem.2⟩, fun d hd => hleast d ⟨?_, hd.2⟩⟩
        exact Nat.lt_of_le_of_ne hd.1 (hne d).symm
      · exact absurd hlt (Nat.not_lt_of_le (Nat.le_of_lt_succ hover))
  | case3 r hle =>
      exact Or.inr ⟨by rw [step, if_neg hle], Nat.lt_of_not_le hle⟩

/-! ## All characters -/

theorem fst_take_of_none (h : r.step = (none, r')) (n : Nat) : (r.take n).1 = [] := by
  cases n with
  | zero => rfl
  | succ n => rw [take, h]

/-- The characters do not depend on how many are asked for, if these are enough. -/
theorem fst_take_of_le (hm : r.remaining ≤ m) (hn : r.remaining ≤ n) :
    (r.take m).1 = (r.take n).1 := by
  induction m generalizing r n with
  | zero =>
      have hover : ¬r.next ≤ r.last := by
        rw [remaining] at hm
        omega
      exact (fst_take_of_none (by rw [step, if_neg hover]) n).symm
  | succ m ih =>
      rcases hstep : r.step with ⟨_ | c, r'⟩
      · rw [fst_take_of_none hstep, fst_take_of_none hstep]
      · have hlt := (step_eq_some hstep).1
        obtain ⟨n, rfl⟩ := Nat.exists_eq_add_one_of_ne_zero (Nat.ne_zero_of_lt (hlt.trans_le hn))
        rw [take, take, hstep]
        exact congrArg (c :: ·) (ih (by omega) (by omega))

theorem toList_of_none (h : r.step = (none, r')) : r.toList = [] := fst_take_of_none h _

theorem toList_of_some (h : r.step = (some c, r')) : r.toList = c :: r'.toList := by
  have hlt := (step_eq_some h).1
  rw [toList, fst_take_of_le (Nat.le_refl _) (Nat.le_succ _), take, h]
  exact congrArg (c :: ·) (fst_take_of_le (Nat.le_of_lt hlt) (Nat.le_refl _))

/-- The characters are in ascending order, so none is yielded twice. -/
theorem pairwise_toList (hlast : r.last.isValidChar) : r.toList.Pairwise (· < ·) := by
  induction hn : r.remaining using Nat.strongRecOn generalizing r with
  | _ n ih =>
      rcases step_cases hlast with ⟨c, hstep, -, -⟩ | ⟨hstep, -⟩
      · rw [toList_of_some hstep, List.pairwise_cons]
        refine ⟨fun d hd => (mem_toList.1 hd).1, ih _ ?_ hlast rfl⟩
        exact hn ▸ (step_eq_some hstep).1
      · rw [toList_of_none hstep]
        exact .nil

/-! ## After some steps -/

/-- What is left after `k` steps. -/
def after (r : CharRange) (k : Nat) : CharRange := (fun r => r.step.2)^[k] r

theorem after_succ (h : r.step = (x, r')) : r.after (k + 1) = r'.after k := by
  rw [after, Function.iterate_succ_apply, h]
  rfl

theorem last_after (hlast : r.last.isValidChar) (k : Nat) : (r.after k).last = r.last := by
  induction k generalizing r with
  | zero => rfl
  | succ k ih =>
      rcases step_cases hlast with ⟨c, hstep, -, -⟩ | ⟨hstep, -⟩
      · rw [after_succ hstep, ih (r := ⟨c.toNat + 1, r.last⟩) hlast]
      · rw [after_succ hstep, ih hlast]

theorem toList_after (hlast : r.last.isValidChar) (k : Nat) :
    (r.after k).toList = r.toList.drop k := by
  induction k generalizing r with
  | zero => rfl
  | succ k ih =>
      rcases step_cases hlast with ⟨c, hstep, -, -⟩ | ⟨hstep, -⟩
      · rw [after_succ hstep, ih (r := ⟨c.toNat + 1, r.last⟩) hlast, toList_of_some hstep,
          List.drop_succ_cons]
      · rw [after_succ hstep, ih hlast, toList_of_none hstep, List.drop_nil, List.drop_nil]

/-- The next step yields the first character that is left, if there is any. -/
theorem fst_step (hlast : r.last.isValidChar) : r.step.1 = r.toList.head? := by
  rcases step_cases hlast with ⟨c, hstep, -, -⟩ | ⟨hstep, -⟩
  · rw [toList_of_some hstep, hstep, List.head?_cons]
  · rw [toList_of_none hstep, hstep, List.head?_nil]

theorem fst_step_after (hlast : r.last.isValidChar) (k : Nat) :
    (r.after k).step.1 = r.toList[k]? := by
  have hlast' : (r.after k).last.isValidChar := (last_after hlast k).symm ▸ hlast
  rw [fst_step hlast', toList_after hlast, List.head?_drop]

/-- The code point comes behind all of these characters. -/
def IsBehind (passed : List Char) (n : Nat) : Prop := ∀ c ∈ passed, c.toNat < n

instance (passed : List Char) : DecidablePred (IsBehind passed) := fun n =>
  List.decidableBAll (fun c : Char => c.toNat < n) passed

theorem isBehind_nil (n : Nat) : IsBehind [] n := fun _ hc => absurd hc List.not_mem_nil

theorem isBehind_cons (c : Char) (passed : List Char) (n : Nat) :
    IsBehind (c :: passed) n ↔ c.toNat < n ∧ IsBehind passed n := List.forall_mem_cons

/-- What is left begins behind the characters yielded. -/
theorem next_after_le_iff (hlast : r.last.isValidChar) (k n : Nat) :
    (r.after k).next ≤ n ↔ r.next ≤ n ∧ IsBehind (r.toList.take k) n := by
  induction k generalizing r with
  | zero => exact (and_iff_left (isBehind_nil n)).symm
  | succ k ih =>
      rcases step_cases hlast with ⟨c, hstep, hmem, -⟩ | ⟨hstep, -⟩
      · rw [after_succ hstep, ih (r := ⟨c.toNat + 1, r.last⟩) hlast, toList_of_some hstep,
          List.take_succ_cons, isBehind_cons, ← and_assoc]
        refine and_congr_left fun _ => ⟨fun hlt => ⟨?_, hlt⟩, And.right⟩
        exact Nat.le_of_lt (Nat.lt_of_le_of_lt hmem.1 hlt)
      · rw [after_succ hstep, ih hlast, toList_of_none hstep, List.take_nil, List.take_nil]

/-! ## What is left -/

/-- The code points left are the characters left and the surrogates left. -/
theorem remaining_eq (hlast : r.last.isValidChar) : r.remaining =
    r.toList.length + {n ∈ Finset.Icc r.next r.last | IsSurrogate n}.card := by
  have hchars : (r.toList.map Char.toNat).toFinset =
      {n ∈ Finset.Icc r.next r.last | ¬IsSurrogate n} := by
    ext n
    simp only [List.mem_toFinset, List.mem_map, mem_toList, Finset.mem_filter, Finset.mem_Icc]
    constructor
    · rintro ⟨c, hc, rfl⟩
      exact ⟨hc, fun h => (not_isValidChar_iff hlast hc.2).2 h c.valid⟩
    · rintro ⟨hn, hnot⟩
      have hvalid : n.isValidChar := of_not_not fun h => hnot ((not_isValidChar_iff hlast hn.2).1 h)
      have hchar := Text.toNat_ofNat_of_isValidChar hvalid
      exact ⟨Char.ofNat n, ⟨hchar.symm ▸ hn.1, hchar.symm ▸ hn.2⟩, hchar⟩
  have hnodup : (r.toList.map Char.toNat).Nodup := List.pairwise_map.2
    ((pairwise_toList hlast).imp fun hlt heq => Nat.ne_of_lt hlt heq)
  have hsplit := Finset.card_filter_add_card_filter_not (s := Finset.Icc r.next r.last) IsSurrogate
  rw [← hchars, List.toFinset_card_of_nodup hnodup, List.length_map, Nat.card_Icc] at hsplit
  rw [remaining, ← hsplit, Nat.add_comm]

theorem sizeHint_eq (r : CharRange) : r.sizeHint = (0, some r.remaining) := by
  rw [sizeHint, remaining]
  split
  · rw [Nat.sub_eq_zero_of_le (by omega)]
  · rw [Nat.sub_add_comm (by omega)]

/-- The surrogates between two characters that come behind all of those passed. -/
def surrogatesLeft (low high : Char) (passed : List Char) : Finset Nat :=
  {n ∈ Finset.Icc low.toNat high.toNat | IsSurrogate n ∧ IsBehind passed n}

theorem sizeHint_after (hlast : r.last.isValidChar) (k : Nat) : (r.after k).sizeHint =
    (0, some ((r.toList.drop k).length +
      {n ∈ Finset.Icc r.next r.last | IsSurrogate n ∧ IsBehind (r.toList.take k) n}.card)) := by
  have hleft : {n ∈ Finset.Icc (r.after k).next r.last | IsSurrogate n} =
      {n ∈ Finset.Icc r.next r.last | IsSurrogate n ∧ IsBehind (r.toList.take k) n} := by
    ext n
    simp only [Finset.mem_filter, Finset.mem_Icc, next_after_le_iff hlast]
    tauto
  have hlast' : (r.after k).last.isValidChar := (last_after hlast k).symm ▸ hlast
  rw [sizeHint_eq, remaining_eq hlast', toList_after hlast, last_after hlast, hleft]

/-! ## The cursor -/

/-- A step with a cursor of 32 bits, which fails if it would have to be increased beyond
them. -/
def step32? (r : CharRange) : Option (Option Char × CharRange) :=
  if r.next ≤ r.last then
    if r.next + 1 < 2 ^ 32 then
      match Text.charOf? r.next with
      | some c => some (some c, { r with next := r.next + 1 })
      | none => step32? { r with next := r.next + 1 }
    else none
  else some (none, r)
termination_by r.remaining
decreasing_by simp only [remaining]; omega

theorem step32?_eq (h : r.last + 1 < 2 ^ 32) : r.step32? = some r.step := by
  induction r using step.induct with
  | case1 r hle c hchar => rw [step32?, step, if_pos hle, if_pos hle, if_pos (by omega), hchar]
  | case2 r hle hchar ih =>
      rw [step32?, step, if_pos hle, if_pos hle, if_pos (by omega), hchar]
      exact ih h
  | case3 r hle => rw [step32?, step, if_neg hle, if_neg hle]

/-- Between two characters in order, the steps yield the characters from the one to the
other, each once and in ascending order, and from then on nothing. At any time the upper
bound is the number of characters still to come and of the surrogates that are not yet
passed. A cursor of 32 bits is enough. -/
theorem steps_yield_range (h : low ≤ high) : ∃ r, between? low high = some r ∧
    r.toList.Pairwise (· < ·) ∧ (∀ c, c ∈ r.toList ↔ low ≤ c ∧ c ≤ high) ∧
    ∀ k, (r.after k).step.1 = r.toList[k]? ∧
      (r.after k).sizeHint = (0, some ((r.toList.drop k).length +
        (surrogatesLeft low high (r.toList.take k)).card)) ∧
      (r.after k).step32? = some (r.after k).step := by
  have hlast : high.toNat.isValidChar := high.valid
  refine ⟨⟨low.toNat, high.toNat⟩, if_neg (Char.not_lt.2 h), pairwise_toList hlast,
    fun c => mem_toList, fun k => ⟨fst_step_after hlast k, ?_, ?_⟩⟩
  · rw [sizeHint_after hlast]
    rfl
  · refine step32?_eq ?_
    rw [last_after hlast]
    show high.toNat + 1 < 2 ^ 32
    simp only [Nat.isValidChar] at hlast
    omega

/-- The surrogates lie between two characters. After the first of these all of them are
left. -/
theorem steps_yield_range_surrogates : '\uD7FF' ≤ '\uE000' ∧
    ∃ r, between? '\uD7FF' '\uE000' = some r ∧ r.toList = ['\uD7FF', '\uE000'] ∧
      (r.after 1).sizeHint = (0, some 2049) ∧
      (surrogatesLeft '\uD7FF' '\uE000' ['\uD7FF']).card = 2048 ∧
      (r.after 1).step.1 = some '\uE000' ∧ (r.after 1).step32? = some (r.after 1).step ∧
      ∀ k, (r.after (k + 2)).step.1 = none := by
  have hle : '\uD7FF' ≤ '\uE000' := by decide
  obtain ⟨r, hr, hpairwise, hmem, hsteps⟩ := steps_yield_range hle
  have htwo : ∀ c : Char, '\uD7FF' ≤ c ∧ c ≤ '\uE000' ↔ c ∈ ['\uD7FF', '\uE000'] := by
    intro c
    have hvalid : c.toNat.isValidChar := c.valid
    simp only [Nat.isValidChar] at hvalid
    rw [List.mem_pair]
    constructor
    · rintro ⟨hlow, hhigh⟩
      have hlow : 0xD7FF ≤ c.toNat := hlow
      have hhigh : c.toNat ≤ 0xE000 := hhigh
      have htoNat : c.toNat = 0xD7FF ∨ c.toNat = 0xE000 := by omega
      exact htoNat.imp toNat_injective toNat_injective
    · rintro (rfl | rfl) <;> decide
  have hlist : r.toList = ['\uD7FF', '\uE000'] := by
    let chars : SortedSet Char := ⟨['\uD7FF', '\uE000'], by decide⟩
    have hsame : ⟨r.toList, hpairwise⟩ = chars := SortedSet.ext_mem fun c => (hmem c).trans (htwo c)
    exact congrArg SortedSet.toList hsame
  have hafter : r.after 1 = ⟨0xD800, 0xE000⟩ := by
    obtain rfl := Option.some.inj hr
    refine after_succ (x := some '\uD7FF') ?_
    rw [step]
    rfl
  have hhint : (r.after 1).sizeHint = (0, some 2049) := hafter ▸ rfl
  have hcard := (hsteps 1).2.1
  rw [hhint, hlist] at hcard
  refine ⟨hle, r, hr, hlist, hhint, ?_, ?_, (hsteps 1).2.2, fun k => ?_⟩
  · have hsum := Option.some.inj (Prod.mk.inj hcard).2
    rw [List.drop_one, List.tail_cons, List.length_singleton, List.take_one, List.head?_cons,
      Option.toList_some] at hsum
    omega
  · rw [(hsteps 1).1, hlist]
    rfl
  · rw [(hsteps (k + 2)).1, hlist]
    rfl

end CharRange

end Regular
