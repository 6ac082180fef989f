import Regular.Text.Char

/-!
# Ranges of characters

`CharRange` steps through the Unicode scalar values between two bounds, both included, in
ascending order. Its state is the code points still to be tried; the surrogates among them
are tried and skipped, which is why `remaining`, the number of code points left, bounds the
number of characters left but may exceed it.
-/

namespace Regular

/-- The code points from `next` to `last` are still to be tried. -/
structure CharRange where
  next : Nat
  last : Nat
deriving DecidableEq, Repr

namespace CharRange

/-- The range between two characters, unless they are in the wrong order. -/
def between? (low high : Char) : Option CharRange :=
  if high < low then none else some ⟨low.toNat, high.toNat⟩

/-- How many code points are left to be tried. -/
def remaining (r : CharRange) : Nat := r.last + 1 - r.next

/-- Bounds on the number of characters left. The upper one counts the code points left. -/
def sizeHint (r : CharRange) : Nat × Option Nat :=
  if r.last < r.next then (0, some 0) else (0, some (r.last - r.next + 1))

/-- The least character left, with the range after it. -/
def step (r : CharRange) : Option Char × CharRange :=
  if r.next ≤ r.last then
    match Text.charOf? r.next with
    | some c => (some c, { r with next := r.next + 1 })
    | none => step { r with next := r.next + 1 }
  else (none, r)
termination_by r.remaining
decreasing_by simp only [remaining]; omega

/-- The next `n` characters, or as many as are left, with the range after them. -/
def take : Nat → CharRange → List Char × CharRange
  | 0, r => ([], r)
  | n + 1, r =>
    match r.step with
    | (some c, r') => let (cs, r'') := take n r'; (c :: cs, r'')
    | (none, r') => ([], r')

/-- All characters of the range, in ascending order. -/
def toList (r : CharRange) : List Char := (r.take r.remaining).1

/-! ## Members -/

variable {r r' : CharRange} {c d low high : Char}

/-- The characters that are left. -/
instance : Membership Char CharRange := ⟨fun r c => r.next ≤ c.toNat ∧ c.toNat ≤ r.last⟩

theorem mem_iff : c ∈ r ↔ r.next ≤ c.toNat ∧ c.toNat ≤ r.last := Iff.rfl

theorem toNat_injective (h : c.toNat = d.toNat) : c = d := by
  rw [← Char.ofNat_toNat c, h, Char.ofNat_toNat]

/-- A step takes out one character and makes the range shorter. -/
theorem step_eq_some (h : r.step = (some d, r')) :
    r'.remaining < r.remaining ∧ ∀ c, c ∈ r ↔ c = d ∨ c ∈ r' := by
  induction r using step.induct with
  | case1 r hle d' hchar =>
      rw [step, if_pos hle, hchar] at h
      obtain ⟨hd, rfl⟩ := Prod.mk.inj h
      obtain rfl := Option.some.inj hd
      have hd := Text.charOf?_eq_some_iff.1 hchar
      refine ⟨by simp only [remaining]; omega, fun c => ?_⟩
      rw [mem_iff, mem_iff]
      constructor
      · rintro ⟨hnext, hlast⟩
        by_cases heq : c.toNat = r.next
        · exact Or.inl (toNat_injective (heq.trans hd.symm))
        · exact Or.inr ⟨by simp only; omega, hlast⟩
      · rintro (rfl | ⟨hnext, hlast⟩)
        · omega
        · simp only at hnext hlast
          omega
  | case2 r hle hchar ih =>
      rw [step, if_pos hle, hchar] at h
      obtain ⟨hlt, hmem⟩ := ih h
      refine ⟨Nat.lt_of_lt_of_le hlt (by simp only [remaining]; omega), fun c => ?_⟩
      rw [← hmem, mem_iff, mem_iff]
      -- the code point that is passed over belongs to no character
      have hne : c.toNat ≠ r.next := fun heq => by
        rw [Text.charOf?_eq_some_iff.2 heq] at hchar
        cases hchar
      simp only
      omega
  | case3 r hle =>
      rw [step, if_neg hle] at h
      cases h

theorem step_eq_none (h : r.step = (none, r')) : ∀ c, c ∉ r := by
  induction r using step.induct with
  | case1 r hle d hchar =>
      rw [step, if_pos hle, hchar] at h
      cases h
  | case2 r hle hchar ih =>
      rw [step, if_pos hle, hchar] at h
      intro c hc
      have hne : c.toNat ≠ r.next := fun heq => by
        rw [Text.charOf?_eq_some_iff.2 heq] at hchar
        cases hchar
      refine ih h c ?_
      rw [mem_iff] at hc ⊢
      simp only
      omega
  | case3 r hle =>
      intro c hc
      rw [mem_iff] at hc
      omega

theorem mem_take {n : Nat} (h : r.remaining ≤ n) : c ∈ (r.take n).1 ↔ c ∈ r := by
  induction n generalizing r with
  | zero =>
      have hempty : c ∉ r := fun hc => by
        rw [mem_iff] at hc
        rw [remaining] at h
        omega
      simp [take, hempty]
  | succ n ih =>
      rw [take]
      split
      · next d r' hstep =>
        obtain ⟨hlt, hmem⟩ := step_eq_some hstep
        rw [hmem, List.mem_cons, ih (by omega)]
      · next r' hstep => simp [step_eq_none hstep c]

@[simp] theorem mem_toList : c ∈ r.toList ↔ c ∈ r := mem_take (Nat.le_refl _)

theorem between?_eq_some (h : low ≤ high) : ∃ r, between? low high = some r ∧
    ∀ c, c ∈ r ↔ low ≤ c ∧ c ≤ high := by
  refine ⟨_, if_neg (by rwa [Char.not_lt]), fun c => ?_⟩
  exact Iff.rfl

theorem le_of_between? (h : between? low high = some r) : low ≤ high := by
  rw [between?] at h
  split at h
  · cases h
  · next hlt => exact Char.not_lt.1 hlt

end CharRange

end Regular
