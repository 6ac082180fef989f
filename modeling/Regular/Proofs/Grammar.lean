import Regular.Proofs.Language

/-!
# The grammar

A union is one or more concatenations with bars between them, a concatenation is one or more
factors, a factor is an atom with repetition signs behind it, and an atom is a leaf or a
union in parentheses. `Phrase α k` is the type of derivations of the category `k` over leaves
of type `α`; the leaves are characters and the sign for the empty string where tokens are
parsed (`Phrase Atom`), and other things where the text itself is read. What a phrase spells
is the list of its symbols.

A phrase is given three meanings. Its language, over any language of the leaves, is the
textbook one. Its plain tree (`Phrase.expr`) has one node for each operator, so that a
repetition sign applies to all of the factor before it. Its written-out tree (`Phrase.tree`)
follows the rule that `E+` is written as `EE*` in place: then a sign that comes later applies
to the last tree of the sequence alone, which is why a factor stands for a sequence of trees
(`Phrase.trees`).
-/

namespace Regular

/-- The categories of the grammar. -/
inductive Category where
  | union
  | concat
  | factor
  | atom

inductive Repetition where
  | star
  | plus
  | question
deriving DecidableEq

inductive Phrase (α : Type) : Category → Type where
  | leaf (a : α) : Phrase α .atom
  | group (u : Phrase α .union) : Phrase α .atom
  | ofAtom (a : Phrase α .atom) : Phrase α .factor
  | repeated (f : Phrase α .factor) (op : Repetition) : Phrase α .factor
  | ofFactor (f : Phrase α .factor) : Phrase α .concat
  | juxtapose (l : Phrase α .concat) (r : Phrase α .factor) : Phrase α .concat
  | ofConcat (c : Phrase α .concat) : Phrase α .union
  | alternate (l : Phrase α .union) (r : Phrase α .concat) : Phrase α .union

/-! ## What a phrase spells -/

/-- A leaf or one of the signs. -/
inductive Symbol (α : Type) where
  | leaf (a : α)
  | repetition (op : Repetition)
  | union
  | openParen
  | closeParen

def Phrase.symbols {α : Type} : {k : Category} → Phrase α k → List (Symbol α)
  | _, leaf a => [.leaf a]
  | _, group u => .openParen :: (u.symbols ++ [.closeParen])
  | _, ofAtom a => a.symbols
  | _, repeated f op => f.symbols ++ [.repetition op]
  | _, ofFactor f => f.symbols
  | _, juxtapose l r => l.symbols ++ r.symbols
  | _, ofConcat c => c.symbols
  | _, alternate l r => l.symbols ++ .union :: r.symbols

theorem Phrase.symbols_ne_nil {α : Type} {k : Category} (p : Phrase α k) : p.symbols ≠ [] := by
  induction p with
  | ofAtom a ih => exact ih
  | ofFactor f ih => exact ih
  | ofConcat c ih => exact ih
  | _ => simp_all [symbols]

/-! ## The language of a phrase -/

namespace Repetition

open scoped Computability

/-- What a repetition sign makes of a language. -/
def language : Repetition → Language Char → Language Char
  | star, L => L∗
  | plus, L => L * L∗
  | question, L => L + 1

/-- What a repetition sign makes of a tree. -/
def expr : Repetition → Expr → Expr
  | star, e => e.star
  | plus, e => e.plus
  | question, e => e.optional

theorem language_expr (op : Repetition) (e : Expr) :
    (op.expr e).language = op.language e.language := by
  cases op <;> rfl

end Repetition

namespace Phrase

variable {α β : Type} {k : Category}

/-- The words that a phrase denotes, where the leaves denote those of `leaves`. -/
def language (leaves : α → Language Char) : {k : Category} → Phrase α k → Language Char
  | _, leaf a => leaves a
  | _, group u => u.language leaves
  | _, ofAtom a => a.language leaves
  | _, repeated f op => op.language (f.language leaves)
  | _, ofFactor f => f.language leaves
  | _, juxtapose l r => l.language leaves * r.language leaves
  | _, ofConcat c => c.language leaves
  | _, alternate l r => l.language leaves + r.language leaves

/-- The phrase with a phrase in place of each leaf. -/
def bind (f : α → Phrase β .atom) : {k : Category} → Phrase α k → Phrase β k
  | _, leaf a => f a
  | _, group u => group (u.bind f)
  | _, ofAtom a => ofAtom (a.bind f)
  | _, repeated g op => repeated (g.bind f) op
  | _, ofFactor g => ofFactor (g.bind f)
  | _, juxtapose l r => juxtapose (l.bind f) (r.bind f)
  | _, ofConcat c => ofConcat (c.bind f)
  | _, alternate l r => alternate (l.bind f) (r.bind f)

theorem language_bind (f : α → Phrase β .atom) (leaves : β → Language Char) (p : Phrase α k) :
    (p.bind f).language leaves = p.language fun a => (f a).language leaves := by
  induction p with
  | leaf a => rfl
  | group u ih => exact ih
  | ofAtom a ih => exact ih
  | repeated g op ih => exact congrArg op.language ih
  | ofFactor g ih => exact ih
  | juxtapose l r ihl ihr => exact congrArg₂ (· * ·) ihl ihr
  | ofConcat c ih => exact ih
  | alternate l r ihl ihr => exact congrArg₂ (· + ·) ihl ihr

end Phrase

/-! ## Phrases over tokens -/

/-- What a token is a leaf for. -/
inductive Atom where
  | literal (c : Char)
  | epsilon

namespace Atom

def kind : Atom → TokenKind
  | literal c => .literal c
  | epsilon => .epsilon

theorem kind_ne (a : Atom) {k : TokenKind} (h : k.isAtom = false) : a.kind ≠ k := by
  rintro rfl
  cases a <;> cases h

def expr : Atom → Expr
  | literal c => .literal c
  | epsilon => .epsilon

def language (a : Atom) : Language Char := a.expr.language

end Atom

def Repetition.kind : Repetition → TokenKind
  | star => .star
  | plus => .plus
  | question => .question

def Symbol.kind : Symbol Atom → TokenKind
  | leaf a => a.kind
  | repetition op => op.kind
  | union => .union
  | openParen => .openParen
  | closeParen => .closeParen

/-- The kinds of the tokens that spell a phrase. -/
def Phrase.kinds {k : Category} (p : Phrase Atom k) : List TokenKind := p.symbols.map Symbol.kind

namespace Phrase

variable {k : Category}

theorem concat_notMem_kinds (p : Phrase Atom k) : .concat ∉ p.kinds := by
  intro hmem
  obtain ⟨s, -, hs⟩ := List.mem_map.1 hmem
  cases s with
  | leaf a => exact a.kind_ne rfl hs
  | repetition op => cases op <;> cases hs
  | _ => cases hs

theorem kinds_group (u : Phrase Atom .union) :
    (group u).kinds = .openParen :: (u.kinds ++ [.closeParen]) := by
  simp [kinds, symbols, Symbol.kind]

theorem kinds_repeated (f : Phrase Atom .factor) (op : Repetition) :
    (repeated f op).kinds = f.kinds ++ [op.kind] := by
  simp [kinds, symbols, Symbol.kind]

theorem kinds_juxtapose (l : Phrase Atom .concat) (r : Phrase Atom .factor) :
    (juxtapose l r).kinds = l.kinds ++ r.kinds := by
  simp [kinds, symbols]

theorem kinds_alternate (l : Phrase Atom .union) (r : Phrase Atom .concat) :
    (alternate l r).kinds = l.kinds ++ .union :: r.kinds := by
  simp [kinds, symbols, Symbol.kind]

end Phrase

/-! ## Trees -/

/-- A sequence of trees with a last one. -/
structure Trees where
  before : List Expr
  last : Expr

namespace Trees

/-- The sequence of one tree. -/
def single (e : Expr) : Trees := ⟨[], e⟩

def all (t : Trees) : List Expr := t.before ++ [t.last]

def append (t t' : Trees) : Trees := ⟨t.all ++ t'.before, t'.last⟩

/-- The concatenation of the sequence, which leans to the left. -/
def joined (t : Trees) : Expr :=
  match t.before with
  | [] => t.last
  | e :: es => .concat (es.foldl .concat e) t.last

/-- What a repetition sign behind the sequence makes of it: it changes the last tree, but `+`
keeps that one and puts its star behind it. -/
def repeated (t : Trees) : Repetition → Trees
  | .star => ⟨t.before, t.last.star⟩
  | .plus => ⟨t.all, t.last.star⟩
  | .question => ⟨t.before, .union t.last .epsilon⟩

end Trees

namespace Phrase

variable {k : Category}

/-- The tree with one node for each operator. -/
def expr : {k : Category} → Phrase Atom k → Expr
  | _, leaf a => a.expr
  | _, group u => u.expr
  | _, ofAtom a => a.expr
  | _, repeated f op => op.expr f.expr
  | _, ofFactor f => f.expr
  | _, juxtapose l r => .concat l.expr r.expr
  | _, ofConcat c => c.expr
  | _, alternate l r => .union l.expr r.expr

/-- The trees whose concatenation the phrase stands for once `E+` is written as `EE*`. -/
def trees : {k : Category} → Phrase Atom k → Trees
  | _, leaf a => .single a.expr
  | _, group u => .single u.trees.joined
  | _, ofAtom a => a.trees
  | _, repeated f op => f.trees.repeated op
  | _, ofFactor f => f.trees
  | _, juxtapose l r => l.trees.append r.trees
  | _, ofConcat c => .single c.trees.joined
  | _, alternate l r => .single (.union l.trees.joined r.trees.joined)

/-- The tree of a phrase once `E+` is written as `EE*`. -/
def tree (p : Phrase Atom k) : Expr := p.trees.joined

theorem language_expr (p : Phrase Atom k) : p.expr.language = p.language Atom.language := by
  induction p with
  | leaf a => rfl
  | group u ih => exact ih
  | ofAtom a ih => exact ih
  | repeated f op ih => rw [expr, op.language_expr, ih, language]
  | ofFactor f ih => exact ih
  | juxtapose l r ihl ihr => rw [expr, Expr.language_concat, ihl, ihr, language]
  | ofConcat c ih => exact ih
  | alternate l r ihl ihr => rw [expr, Expr.language_union, ihl, ihr, language]

end Phrase

end Regular
