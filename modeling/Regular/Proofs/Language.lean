import Mathlib.Computability.Language
import Regular.Expr

/-!
# The language of an expression

`Expr.language` is what an expression denotes, by recursion over its tree; every later stage
is measured against it. No expression denotes the empty language, which is why automata built
from expressions have no dead states.
-/

namespace Regular.Expr

open scoped Computability

/-- The texts that an expression matches. -/
def language : Expr → Language Char
  | literal c => {[c]}
  | epsilon => 1
  | concat l r => l.language * r.language
  | union l r => l.language + r.language
  | star e => e.language∗

@[simp] theorem language_literal (c : Char) : (literal c).language = {[c]} := rfl

@[simp] theorem language_epsilon : epsilon.language = 1 := rfl

@[simp] theorem language_concat (l r : Expr) : (concat l r).language = l.language * r.language :=
  rfl

@[simp] theorem language_union (l r : Expr) : (union l r).language = l.language + r.language := rfl

@[simp] theorem language_star (e : Expr) : (star e).language = e.language∗ := rfl

@[simp] theorem language_plus (e : Expr) : e.plus.language = e.language * e.language∗ := rfl

@[simp] theorem language_optional (e : Expr) : e.optional.language = e.language + 1 := rfl

theorem exists_mem_language : ∀ e : Expr, ∃ w, w ∈ e.language
  | literal c => ⟨[c], rfl⟩
  | epsilon => ⟨[], rfl⟩
  | concat l r => by
      obtain ⟨u, hu⟩ := l.exists_mem_language
      obtain ⟨v, hv⟩ := r.exists_mem_language
      exact ⟨u ++ v, Language.append_mem_mul hu hv⟩
  | union l _ => by
      obtain ⟨u, hu⟩ := l.exists_mem_language
      exact ⟨u, Or.inl hu⟩
  | star e => ⟨[], Language.nil_mem_kstar e.language⟩

end Regular.Expr
