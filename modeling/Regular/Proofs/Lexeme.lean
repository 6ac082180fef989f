import Regular.Proofs.Grammar
import Regular.Proofs.Outcome
import Regular.Token.Scan

/-!
# What a text is made of

A text is spelled by the symbols of the grammar, where the leaves are lexemes: a character
that stands for itself, an escaped character, the sign for the empty string, or a character
class. A lexeme denotes a language of its own, so that phrases over lexemes say what a text
means without any mention of tokens.

A class is the one lexeme that is not a single token. Its tokens spell an atom of the grammar
over tokens (`Lexeme.atom`): the members of the class, which are what its items denote
(`CharClass.exists_ofItems`), as the alternatives of a group.
-/

namespace Regular

variable {items : List ClassItem} {w : List Char}

/-! ## Items of a class -/

namespace ClassItem

/-- The item as it is written between the brackets. -/
def chars (i : ClassItem) : List Char := if i.escaped then ['\\', i.char] else [i.char]

/-- Only where it is escaped is a closing bracket or a backslash an item. -/
def Written (i : ClassItem) : Prop := i.escaped = false → i.char ≠ ']' ∧ i.char ≠ '\\'

def language (i : ClassItem) : Language Char := if i.isEpsilon then 1 else {[i.char]}

/-- The words of one character between two bounds, both included. -/
def between (low high : ClassItem) : Language Char :=
  {w | ∃ c, low.char ≤ c ∧ c ≤ high.char ∧ w = [c]}

/-- What the items of a class denote. Read from the left, an item with an unescaped dash and
a further item behind it is a range. -/
def languageOf : List ClassItem → Language Char
  | [] => 0
  | [i] => i.language
  | [i, j] => i.language + j.language
  | low :: dash :: high :: rest =>
    if dash.isDash then between low high + languageOf rest
    else low.language + languageOf (dash :: high :: rest)

/-- The ranges among the items lie between characters in the right order. -/
def Ordered : List ClassItem → Prop
  | low :: dash :: high :: rest =>
    if dash.isDash then
      low.isEpsilon = false ∧ high.isEpsilon = false ∧ low.char ≤ high.char ∧ Ordered rest
    else Ordered (dash :: high :: rest)
  | _ => True

end ClassItem

/-- The items of a character class, in the order in which they are written. -/
structure ClassBody where
  items : List ClassItem
  nonempty : items ≠ []
  written : ∀ i ∈ items, i.Written
  ordered : ClassItem.Ordered items

/-! ## Lexemes -/

/-- Does the character, outside of a class and not escaped, denote itself? A bracket that
closes nothing does. -/
def isPlain (c : Char) : Bool := !isMetachar c || c == ']'

inductive Lexeme where
  | plain (c : Char) (h : isPlain c = true)
  | escaped (c : Char)
  | epsilon
  | charClass (k : ClassBody)

namespace Lexeme

def chars : Lexeme → List Char
  | plain c _ => [c]
  | escaped c => ['\\', c]
  | epsilon => [epsilonSign]
  | charClass k => '[' :: (k.items.flatMap ClassItem.chars ++ [']'])

/-- The words that a lexeme denotes. -/
def language : Lexeme → Language Char
  | plain c _ | escaped c => {[c]}
  | epsilon => 1
  | charClass k => ClassItem.languageOf k.items

end Lexeme

def Symbol.chars : Symbol Lexeme → List Char
  | leaf l => l.chars
  | repetition op => [op.kind.sign]
  | union => ['|']
  | openParen => ['(']
  | closeParen => [')']

/-- The text that a phrase spells. -/
def Phrase.chars {k : Category} (p : Phrase Lexeme k) : List Char := p.symbols.flatMap Symbol.chars

/-! ## The members of a class -/

namespace CharClass

/-- What the class matches. -/
def language (k : CharClass) : Language Char :=
  {w | (∃ c ∈ k.members, w = [c]) ∨ k.hasEpsilon = true ∧ w = []}

theorem mem_language {k : CharClass} :
    w ∈ k.language ↔ (∃ c ∈ k.members, w = [c]) ∨ k.hasEpsilon = true ∧ w = [] := Iff.rfl

theorem language_empty : language ∅ = 0 := by
  ext w
  rw [mem_language]
  constructor
  · rintro (⟨c, hc, -⟩ | ⟨h, -⟩)
    · exact absurd hc SortedSet.not_mem_empty
    · cases h
  · exact fun h => absurd h (Language.notMem_zero w)

theorem language_addItem (i : ClassItem) (k : CharClass) :
    (addItem i k).language = i.language + k.language := by
  ext w
  rw [Language.mem_add, mem_language, mem_language, addItem, ClassItem.language]
  split
  · rw [Language.mem_one]
    constructor
    · rintro (h | ⟨-, rfl⟩)
      · exact Or.inr (Or.inl h)
      · exact Or.inl rfl
    · rintro (rfl | h | ⟨-, rfl⟩)
      · exact Or.inr ⟨rfl, rfl⟩
      · exact Or.inl h
      · exact Or.inr ⟨rfl, rfl⟩
  · simp only [SortedSet.mem_insert]
    constructor
    · rintro (⟨c, rfl | hc, rfl⟩ | h)
      · exact Or.inl rfl
      · exact Or.inr (Or.inl ⟨c, hc, rfl⟩)
      · exact Or.inr (Or.inr h)
    · rintro (rfl | ⟨c, hc, rfl⟩ | h)
      · exact Or.inl ⟨_, Or.inl rfl, rfl⟩
      · exact Or.inl ⟨c, Or.inr hc, rfl⟩
      · exact Or.inr h

theorem language_range {low high : ClassItem} {cs : SortedSet Char} (k : CharClass)
    (hcs : ∀ c, c ∈ cs ↔ low.char ≤ c ∧ c ≤ high.char) :
    language { k with members := cs ∪ k.members } = ClassItem.between low high + k.language := by
  ext w
  rw [Language.mem_add, mem_language, mem_language]
  simp only [SortedSet.mem_union, hcs]
  constructor
  · rintro (⟨c, ⟨hlow, hhigh⟩ | hc, rfl⟩ | h)
    · exact Or.inl ⟨c, hlow, hhigh, rfl⟩
    · exact Or.inr (Or.inl ⟨c, hc, rfl⟩)
    · exact Or.inr (Or.inr h)
  · rintro (⟨c, hlow, hhigh, rfl⟩ | ⟨c, hc, rfl⟩ | h)
    · exact Or.inl ⟨c, Or.inl ⟨hlow, hhigh⟩, rfl⟩
    · exact Or.inl ⟨c, Or.inr hc, rfl⟩
    · exact Or.inr h

/-- Items whose ranges are in order are read, and the members are what they denote. -/
theorem exists_ofItems (h : ClassItem.Ordered items) :
    ∃ k, ofItems items = .ok k ∧ k.language = ClassItem.languageOf items := by
  fun_induction ofItems items with
  | case1 => exact ⟨∅, rfl, language_empty⟩
  | case2 i =>
      refine ⟨_, rfl, ?_⟩
      rw [language_addItem, language_empty, add_zero, ClassItem.languageOf]
  | case3 i j =>
      refine ⟨_, rfl, ?_⟩
      rw [language_addItem, language_addItem, language_empty, add_zero, ClassItem.languageOf]
  | case4 low dash high rest hdash hbound =>
      rw [ClassItem.Ordered, if_pos hdash] at h
      rw [h.1, h.2.1] at hbound
      cases hbound
  | case5 low dash high rest hdash hbound hnone =>
      rw [ClassItem.Ordered, if_pos hdash] at h
      obtain ⟨r, hr, -⟩ := CharRange.between?_eq_some h.2.2.1
      rw [range, hr] at hnone
      cases hnone
  | case6 low dash high rest hdash hbound cs hsome ih =>
      rw [ClassItem.Ordered, if_pos hdash] at h
      obtain ⟨r, hr, hmem⟩ := CharRange.between?_eq_some h.2.2.1
      obtain ⟨k, hk, hlang⟩ := ih h.2.2.2
      rw [range, hr] at hsome
      obtain rfl := Option.some.inj hsome
      refine ⟨{ k with members := .ofList r.toList ∪ k.members }, by rw [hk]; rfl, ?_⟩
      rw [ClassItem.languageOf, if_pos hdash, ← hlang]
      exact language_range k fun c => by rw [SortedSet.mem_ofList, CharRange.mem_toList, hmem]
  | case7 low dash high rest hdash ih =>
      rw [ClassItem.Ordered, if_neg hdash] at h
      obtain ⟨k, hk, hlang⟩ := ih h
      refine ⟨addItem low k, by rw [hk]; rfl, ?_⟩
      rw [language_addItem, hlang, ClassItem.languageOf, if_neg hdash]

/-- No others are read. -/
theorem ordered_of_ofItems {k : CharClass} (h : ofItems items = .ok k) :
    ClassItem.Ordered items := by
  fun_induction ofItems items generalizing k with
  | case1 => trivial
  | case2 i => trivial
  | case3 i j => trivial
  | case4 low dash high rest hdash hbound => cases h
  | case5 low dash high rest hdash hbound hnone => cases h
  | case6 low dash high rest hdash hbound cs hsome ih =>
      obtain ⟨k', hk', -⟩ := bind_eq_ok_iff.1 h
      rw [Bool.not_eq_true, Bool.or_eq_false_iff] at hbound
      have hle : low.char ≤ high.char := by
        rw [range, Option.map_eq_some_iff] at hsome
        obtain ⟨r, hr, -⟩ := hsome
        exact CharRange.le_of_between? hr
      rw [ClassItem.Ordered, if_pos hdash]
      exact ⟨hbound.1, hbound.2, hle, ih hk'⟩
  | case7 low dash high rest hdash ih =>
      obtain ⟨k', hk', -⟩ := bind_eq_ok_iff.1 h
      rw [ClassItem.Ordered, if_neg hdash]
      exact ih hk'

theorem exists_mem_languageOf (h : items ≠ []) (h' : ClassItem.Ordered items) :
    ∃ w, w ∈ ClassItem.languageOf items := by
  have hitem : ∀ i : ClassItem, ∃ w, w ∈ i.language := by
    intro i
    rw [ClassItem.language]
    split
    · exact ⟨[], rfl⟩
    · exact ⟨[i.char], rfl⟩
  fun_cases ClassItem.languageOf items with
  | case1 => exact absurd rfl h
  | case2 i => exact hitem i
  | case3 i j =>
      obtain ⟨w, hw⟩ := hitem i
      exact ⟨w, Or.inl hw⟩
  | case4 low dash high rest hdash =>
      rw [ClassItem.Ordered, if_pos hdash] at h'
      exact ⟨[low.char], Or.inl ⟨low.char, Char.le_refl _, h'.2.2.1, rfl⟩⟩
  | case5 low dash high rest hdash =>
      obtain ⟨w, hw⟩ := hitem low
      exact ⟨w, Or.inl hw⟩

/-! ## The tokens of a class spell an atom -/

def atoms (k : CharClass) : List Atom :=
  k.members.toList.map .literal ++ if k.hasEpsilon then [.epsilon] else []

theorem alternatives_eq (k : CharClass) : k.alternatives = k.atoms.map Atom.kind := by
  rw [alternatives, atoms, List.map_append, List.map_map]
  cases k.hasEpsilon <;> rfl

theorem mem_language_iff {k : CharClass} :
    w ∈ k.language ↔ ∃ a ∈ k.atoms, w ∈ a.language := by
  rw [mem_language]
  constructor
  · rintro (⟨c, hc, rfl⟩ | ⟨h, rfl⟩)
    · exact ⟨.literal c, List.mem_append_left _ (List.mem_map_of_mem hc), rfl⟩
    · exact ⟨.epsilon, List.mem_append_right _ (by rw [h]; exact List.mem_singleton_self _), rfl⟩
  · rintro ⟨a, ha, hw⟩
    rcases List.mem_append.1 ha with ha | ha
    · obtain ⟨c, hc, rfl⟩ := List.mem_map.1 ha
      exact Or.inl ⟨c, hc, hw⟩
    · split at ha
      · next h =>
        obtain rfl := List.mem_singleton.1 ha
        exact Or.inr ⟨h, hw⟩
      · exact absurd ha List.not_mem_nil

end CharClass

namespace Phrase

def ofLeaf (a : Atom) : Phrase Atom .concat := .ofFactor (.ofAtom (.leaf a))

/-- The union with one more alternative for each of the atoms. -/
def orAnyOf (u : Phrase Atom .union) (as : List Atom) : Phrase Atom .union :=
  as.foldl (fun u a => .alternate u (.ofLeaf a)) u

theorem kinds_orAnyOf (u : Phrase Atom .union) (as : List Atom) :
    (u.orAnyOf as).kinds = u.kinds ++ as.flatMap fun a => [.union, a.kind] := by
  induction as generalizing u with
  | nil => simp [orAnyOf]
  | cons a as ih =>
      show (orAnyOf (.alternate u (.ofLeaf a)) as).kinds = _
      rw [ih]
      simp [kinds, symbols, ofLeaf, Symbol.kind]

theorem mem_language_orAnyOf {u : Phrase Atom .union} {as : List Atom} :
    w ∈ (u.orAnyOf as).language Atom.language ↔
      w ∈ u.language Atom.language ∨ ∃ a ∈ as, w ∈ a.language := by
  induction as generalizing u with
  | nil => simp [orAnyOf]
  | cons a as ih =>
      show w ∈ (orAnyOf (.alternate u (.ofLeaf a)) as).language _ ↔ _
      rw [ih, List.exists_mem_cons_iff, ← or_assoc]
      rfl

end Phrase

namespace CharClass

/-- The atom that the tokens of the class spell. -/
def phrase (k : CharClass) : Phrase Atom .atom :=
  match k.atoms with
  | [] => .leaf .epsilon
  | [.literal c] => .leaf (.literal c)
  | a :: as => .group (.orAnyOf (.ofConcat (.ofLeaf a)) as)

theorem intersperse_cons (a : Atom) (as : List Atom) :
    ((a :: as).map Atom.kind).intersperse .union =
      a.kind :: as.flatMap fun a => [.union, a.kind] := by
  induction as generalizing a with
  | nil => rfl
  | cons b as ih =>
      rw [List.map_cons, List.map_cons, List.intersperse_cons_cons, ← List.map_cons, ih]
      rfl

theorem kinds_phrase {k : CharClass} (h : k.atoms ≠ []) : k.phrase.kinds = k.kinds := by
  have hgroup : ∀ a as, (Phrase.group (.orAnyOf (.ofConcat (.ofLeaf a)) as)).kinds =
      .openParen :: (((a :: as).map Atom.kind).intersperse .union ++ [.closeParen]) := by
    intro a as
    rw [Phrase.kinds_group, Phrase.kinds_orAnyOf, intersperse_cons]
    rfl
  rw [kinds, alternatives_eq, phrase]
  generalize k.atoms = as at h ⊢
  match as, h with
  | [.literal c], _ => rfl
  | [.epsilon], _ => exact hgroup .epsilon []
  | a :: b :: as, _ =>
    cases a <;> exact hgroup _ (b :: as)

theorem mem_language_phrase {k : CharClass} (h : k.atoms ≠ []) :
    w ∈ k.phrase.language Atom.language ↔ w ∈ k.language := by
  rw [mem_language_iff, phrase]
  generalize k.atoms = as at h ⊢
  have hgroup : ∀ a as, w ∈ (Phrase.group (.orAnyOf (.ofConcat (.ofLeaf a)) as)).language
      Atom.language ↔ ∃ b ∈ a :: as, w ∈ b.language := by
    intro a as
    rw [List.exists_mem_cons_iff]
    exact Phrase.mem_language_orAnyOf
  match as, h with
  | [.literal c], _ => simp [Phrase.language]
  | [.epsilon], _ => exact hgroup .epsilon []
  | a :: b :: as, _ => cases a <;> exact hgroup _ _

end CharClass

namespace Lexeme

/-- The atom that the tokens of a lexeme spell. -/
def atom : Lexeme → Phrase Atom .atom
  | plain c _ | escaped c => .leaf (.literal c)
  | epsilon => .leaf .epsilon
  | charClass k =>
    match CharClass.ofItems k.items with
    | .ok k => k.phrase
    | .error _ => .leaf .epsilon

/-- The class of the items can be read, and its tokens spell its atom. -/
theorem exists_charClass (b : ClassBody) : ∃ k, CharClass.ofItems b.items = .ok k ∧
    (charClass b).atom.kinds = k.kinds ∧
    (charClass b).atom.language Atom.language = ClassItem.languageOf b.items := by
  obtain ⟨k, hk, hlang⟩ := CharClass.exists_ofItems b.ordered
  have hatoms : k.atoms ≠ [] := by
    intro hnil
    obtain ⟨w, hw⟩ := CharClass.exists_mem_languageOf b.nonempty b.ordered
    rw [← hlang, CharClass.mem_language_iff, hnil] at hw
    obtain ⟨a, ha, -⟩ := hw
    exact absurd ha List.not_mem_nil
  refine ⟨k, hk, ?_, ?_⟩
  · rw [atom, hk]
    exact CharClass.kinds_phrase hatoms
  · rw [atom, hk, ← hlang]
    ext w
    exact CharClass.mem_language_phrase hatoms

theorem language_atom (l : Lexeme) : l.atom.language Atom.language = l.language := by
  cases l with
  | charClass b =>
      obtain ⟨k, -, -, hlang⟩ := exists_charClass b
      exact hlang
  | _ => rfl

end Lexeme

/-- The kinds of the tokens that a symbol is read as. -/
def Symbol.kinds : Symbol Lexeme → List TokenKind
  | leaf l => l.atom.kinds
  | repetition op => [op.kind]
  | union => [.union]
  | openParen => [.openParen]
  | closeParen => [.closeParen]

/-- The tokens of a phrase spell the phrase with the atoms of its lexemes. -/
theorem Phrase.kinds_bind_atom {k : Category} (p : Phrase Lexeme k) :
    (p.bind Lexeme.atom).kinds = p.symbols.flatMap Symbol.kinds := by
  induction p with
  | leaf l => simp [bind, symbols, Symbol.kinds]
  | group u ih => simp [bind, kinds_group, symbols, Symbol.kinds, ih]
  | ofAtom a ih => exact ih
  | repeated f op ih => simp [bind, kinds_repeated, symbols, Symbol.kinds, ih]
  | ofFactor f ih => exact ih
  | juxtapose l r ihl ihr => simp [bind, kinds_juxtapose, symbols, ihl, ihr]
  | ofConcat c ih => exact ih
  | alternate l r ihl ihr => simp [bind, kinds_alternate, symbols, Symbol.kinds, ihl, ihr]

theorem Phrase.language_bind_atom {k : Category} (p : Phrase Lexeme k) :
    (p.bind Lexeme.atom).language Atom.language = p.language Lexeme.language := by
  rw [language_bind]
  congr 1
  funext l
  exact l.language_atom

end Regular
