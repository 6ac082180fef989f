import Mathlib.Data.Option.Basic
import Regular.Invocation.Token
import Regular.Text.Char

/-!
# Literals are read back

A number is given by the values of its digits (`Text.exists_digits`), so what is written in
digits is read as the number. An escaped character is either a character that stands for
itself or a backslash with an escape behind it, which is read as the character
(`Text.escape_cases`).
-/

namespace Regular.Text

variable {b d n : Nat} {c quote : Char} {cs : List Char} {ds : List Nat}

/-! ## Digits -/

theorem ofDigitValues_concat (b : Nat) (ds : List Nat) (d : Nat) :
    ofDigitValues b (ds ++ [d]) = b * ofDigitValues b ds + d := List.foldl_append ..

/-- The digits of a number have values below the base, and the number is theirs. -/
theorem exists_digits (hb : 1 < b) (n : Nat) : ∃ ds : List Nat, Nat.toDigits b n =
    ds.map Nat.digitChar ∧ ds ≠ [] ∧ (∀ d ∈ ds, d < b) ∧ ofDigitValues b ds = n := by
  induction n using Nat.strongRecOn with
  | ind n ih =>
      rw [Nat.toDigits_eq_if hb]
      by_cases hn : n < b
      · refine ⟨[n], by rw [if_pos hn]; rfl, List.cons_ne_nil _ _, by simpa using hn, ?_⟩
        show b * 0 + n = n
        rw [Nat.mul_zero, Nat.zero_add]
      · have hpos : 0 < n := by omega
        obtain ⟨ds, hds, -, hlt, hvalue⟩ := ih (n / b) (Nat.div_lt_self hpos hb)
        have hne : ds ++ [n % b] ≠ [] :=
          List.append_ne_nil_of_right_ne_nil _ (List.cons_ne_nil _ _)
        refine ⟨ds ++ [n % b], ?_, hne, ?_, ?_⟩
        · rw [if_neg hn, hds, List.map_append]
          rfl
        · rw [List.forall_mem_append]
          exact ⟨hlt, by simpa using Nat.mod_lt n (Nat.lt_of_succ_lt hb)⟩
        · rw [ofDigitValues_concat, hvalue, Nat.div_add_mod]

theorem hexValue?_digitChar (h : d < 16) : hexValue? (Nat.digitChar d) = some d := by
  have hall : ∀ d < 16, hexValue? (Nat.digitChar d) = some d := by decide
  exact hall d h

/-- A digit is no sign. -/
theorem digitChar_ne (h : d < 16) :
    Nat.digitChar d ≠ '_' ∧ Nat.digitChar d ≠ '\x7d' ∧ Nat.digitChar d ≠ ':' := by
  have hall : ∀ d < 16,
      Nat.digitChar d ≠ '_' ∧ Nat.digitChar d ≠ '\x7d' ∧ Nat.digitChar d ≠ ':' := by decide
  exact hall d h

/-! ## Escapes -/

open Invocation (Token)

/-- Up to six digits are read as the number that they and the digits before them make. -/
theorem numbered?_digits {before : List Nat} (hlt : ∀ d ∈ ds, d < 16)
    (hlen : before.length + ds.length ≤ 6) (hne : before ≠ [] ∨ ds ≠ []) :
    Token.numbered? before (ds.map Nat.digitChar ++ '\x7d' :: cs) =
      (charOf? (ofDigitValues 16 (before.reverse ++ ds))).map (·, cs) := by
  induction ds generalizing before with
  | nil =>
      have hbefore : before ≠ [] := hne.resolve_right fun h => h rfl
      rw [List.map_nil, List.nil_append, Token.numbered?, if_pos rfl, List.append_nil]
      show (if before ≠ [] then some () else none) >>= _ = _
      rw [if_pos hbefore]
      cases charOf? (ofDigitValues 16 before.reverse) <;> rfl
  | cons d ds ih =>
      obtain ⟨hd, hds⟩ := List.forall_mem_cons.1 hlt
      obtain ⟨hscore, hbrace, -⟩ := digitChar_ne hd
      rw [List.length_cons] at hlen
      rw [List.map_cons, List.cons_append, Token.numbered?, if_neg hbrace,
        if_neg fun h => hscore h.1, hexValue?_digitChar hd]
      simp only
      have hroom : (d :: before).length + ds.length ≤ 6 := by
        rw [List.length_cons]
        omega
      rw [if_neg (by omega), ih hds hroom (Or.inl (List.cons_ne_nil _ _)),
        List.reverse_cons, List.append_assoc, List.singleton_append]

theorem length_hexDigits_le (c : Char) : (hexDigits c.toNat).length ≤ 6 := by
  rw [hexDigits, Nat.length_toDigits_le_iff (by decide) (by decide)]
  have hvalid : c.toNat.isValidChar := c.valid
  rcases hvalid with h | ⟨-, h⟩ <;> omega

/-- The number of a character is read as the character. -/
theorem numbered?_hexDigits (c : Char) (cs : List Char) :
    Token.numbered? [] (hexDigits c.toNat ++ '\x7d' :: cs) = some (c, cs) := by
  obtain ⟨ds, hds, hne, hlt, hvalue⟩ := exists_digits (b := 16) (by decide) c.toNat
  have hlen := length_hexDigits_le c
  rw [hexDigits, hds, List.length_map] at hlen
  rw [hexDigits, hds, numbered?_digits hlt (by simpa using hlen) (Or.inr hne), List.reverse_nil,
    List.nil_append, hvalue, charOf?_toNat]
  rfl

/-- A character between quotes stands for itself, or it is escaped. -/
theorem escape_cases (hquote : quote = '\'' ∨ quote = '"') (c : Char) :
    (escape quote c = [c] ∧ c ≠ '\\' ∧ c ≠ quote) ∨
      ∃ e, escape quote c = '\\' :: e ∧ ∀ cs, Token.escape? 128 (e ++ cs) = some (c, cs) := by
  rw [escape]
  split
  · next h => exact Or.inr ⟨['0'], rfl, fun cs => h ▸ rfl⟩
  split
  · next h => exact Or.inr ⟨['t'], rfl, fun cs => h ▸ rfl⟩
  split
  · next h => exact Or.inr ⟨['r'], rfl, fun cs => h ▸ rfl⟩
  split
  · next h => exact Or.inr ⟨['n'], rfl, fun cs => h ▸ rfl⟩
  split
  · next h =>
    refine Or.inr ⟨[c], rfl, fun cs => ?_⟩
    rcases h with rfl | rfl
    · rfl
    · rcases hquote with rfl | rfl <;> rfl
  next hplain =>
    rw [not_or] at hplain
    split
    · exact Or.inl ⟨rfl, hplain⟩
    split
    · refine Or.inr ⟨_, rfl, fun cs => ?_⟩
      rw [List.cons_append, List.cons_append, List.append_assoc]
      exact numbered?_hexDigits c cs
    · exact Or.inl ⟨rfl, hplain⟩

end Regular.Text
