import Regular.Proofs.Grammar

/-!
# Which tokens spell a phrase

Whether tokens spell a phrase can be seen without looking for one. Every token must stand
where it may (`TokenKind.Placed`), for which it is enough to look at the token before it, and
the parentheses must match (`TokenKind.Closes`). Tokens of a phrase are of this kind
(`Phrase.wellFormed_kinds`), and for tokens of this kind there is a phrase
(`TokenKind.exists_phrase`): it is put together while the tokens are read from left to right.
-/

namespace Regular

variable {k : Category} {a b : TokenKind} {as bs cs : List TokenKind} {ends : Bool} {depth : Nat}

/-! ## Well-formed lists of kinds -/

namespace TokenKind

/-- Does the last token end an operand? Where there is none, `ends` says so. -/
def endsAfter (ends : Bool) (as : List TokenKind) : Bool := as.foldl (fun _ a => a.endsOperand) ends

theorem endsAfter_append (ends : Bool) (as bs : List TokenKind) :
    endsAfter ends (as ++ bs) = endsAfter (endsAfter ends as) bs := List.foldl_append

/-- Every token stands in a place where it may. Behind an operand each token may stand,
elsewhere only one with which an operand begins; at the end an operand must be complete. -/
def Placed (ends : Bool) : List TokenKind → Prop
  | [] => ends = true
  | a :: as => (ends = true ∨ a.startsOperand = true) ∧ Placed a.endsOperand as

/-- Behind `depth` open parentheses, all parentheses are closed. -/
def Closes (depth : Nat) : List TokenKind → Prop
  | [] => depth = 0
  | .openParen :: as => Closes (depth + 1) as
  | .closeParen :: as => 0 < depth ∧ Closes (depth - 1) as
  | _ :: as => Closes depth as

structure WellFormed (as : List TokenKind) : Prop where
  placed : Placed false as
  closes : Closes 0 as

/-- All tokens stand where they may, though no operand need be complete at the end. -/
def Along (ends : Bool) : List TokenKind → Prop
  | [] => True
  | a :: as => (ends = true ∨ a.startsOperand = true) ∧ Along a.endsOperand as

theorem placed_append :
    Placed ends (as ++ bs) ↔ Along ends as ∧ Placed (endsAfter ends as) bs := by
  induction as generalizing ends with
  | nil => exact ⟨fun h => ⟨trivial, h⟩, And.right⟩
  | cons a as ih =>
      rw [List.cons_append, Placed, ih, Along, and_assoc]
      rfl

/-- An operand may stand in any place, so tokens that may begin one may. -/
theorem Along.mono (h : Along false as) (ends : Bool) : Along ends as := by
  cases as with
  | nil => trivial
  | cons a as => exact ⟨Or.inr (h.1.resolve_left Bool.false_ne_true), h.2⟩

theorem endsAfter_mono (h : endsAfter false as = true) (ends : Bool) :
    endsAfter ends as = true := by
  cases as with
  | nil => cases h
  | cons a as => exact h

theorem endsAfter_twice (ends : Bool) (as : List TokenKind) :
    endsAfter ends (as ++ as) = endsAfter ends as := by
  cases as with
  | nil => rfl
  | cons a as =>
      rw [endsAfter_append]
      rfl

theorem closes_other (h : a ≠ .openParen) (h' : a ≠ .closeParen) :
    Closes depth (a :: as) ↔ Closes depth as := by
  cases a <;> first | contradiction | rfl

theorem closes_congr (h : ∀ depth, Closes depth as ↔ Closes depth bs) :
    Closes depth (cs ++ as) ↔ Closes depth (cs ++ bs) := by
  induction cs generalizing depth with
  | nil => exact h depth
  | cons c cs ih =>
      rw [List.cons_append, List.cons_append]
      cases c with
      | openParen => exact ih
      | closeParen => exact and_congr_right fun _ => ih
      | _ => exact ih

/-- The parentheses among the kinds match each other. -/
def Neutral (as : List TokenKind) : Prop :=
  ∀ depth rest, Closes depth (as ++ rest) ↔ Closes depth rest

theorem neutral_singleton (h : a ≠ .openParen) (h' : a ≠ .closeParen) : Neutral [a] :=
  fun _ _ => closes_other h h'

theorem Neutral.append (h : Neutral as) (h' : Neutral bs) : Neutral (as ++ bs) := by
  intro depth rest
  rw [List.append_assoc, h, h']

theorem Neutral.group (h : Neutral as) : Neutral (.openParen :: (as ++ [.closeParen])) := by
  intro depth rest
  rw [List.cons_append, List.append_assoc]
  refine (h (depth + 1) _).trans ?_
  exact ⟨And.right, fun hrest => ⟨Nat.succ_pos _, hrest⟩⟩

end TokenKind

open TokenKind (Placed Closes Along Neutral)

/-! ## The tokens of a phrase are well-formed -/

namespace Phrase

/-- The last token of a phrase ends an operand. -/
theorem endsAfter_kinds (p : Phrase Atom k) (ends : Bool) :
    TokenKind.endsAfter ends p.kinds = true := by
  induction p generalizing ends with
  | leaf a => cases a <;> rfl
  | group u _ =>
      rw [kinds_group, ← List.cons_append, TokenKind.endsAfter_append]
      rfl
  | ofAtom a ih => exact ih ends
  | repeated f op _ =>
      rw [kinds_repeated, TokenKind.endsAfter_append]
      cases op <;> rfl
  | ofFactor f ih => exact ih ends
  | juxtapose l r _ ihr =>
      rw [kinds_juxtapose, TokenKind.endsAfter_append]
      exact ihr _
  | ofConcat c ih => exact ih ends
  | alternate l r _ ihr =>
      rw [kinds_alternate, TokenKind.endsAfter_append]
      exact ihr _

/-- A phrase may stand in any place, and what comes behind it stands behind an operand. -/
theorem placed_kinds_append (p : Phrase Atom k) :
    Placed ends (p.kinds ++ as) ↔ Placed true as := by
  induction p generalizing ends as with
  | leaf a =>
      cases a <;> exact ⟨And.right, fun h => ⟨Or.inr rfl, h⟩⟩
  | group u ih =>
      rw [kinds_group, List.cons_append, List.append_assoc]
      refine Iff.trans ⟨And.right, fun h => ⟨Or.inr rfl, h⟩⟩ (Iff.trans ih ?_)
      exact ⟨And.right, fun h => ⟨Or.inl rfl, h⟩⟩
  | ofAtom a ih => exact ih
  | repeated f op ih =>
      rw [kinds_repeated, List.append_assoc]
      refine Iff.trans ih ?_
      cases op <;> exact ⟨And.right, fun h => ⟨Or.inl rfl, h⟩⟩
  | ofFactor f ih => exact ih
  | juxtapose l r ihl ihr =>
      rw [kinds_juxtapose, List.append_assoc]
      exact Iff.trans ihl ihr
  | ofConcat c ih => exact ih
  | alternate l r ihl ihr =>
      rw [kinds_alternate, List.append_assoc]
      refine Iff.trans ihl (Iff.trans ⟨And.right, fun h => ⟨Or.inl rfl, h⟩⟩ ihr)

theorem neutral_kinds (p : Phrase Atom k) : Neutral p.kinds := by
  induction p with
  | leaf a => exact TokenKind.neutral_singleton (a.kind_ne rfl) (a.kind_ne rfl)
  | group u ih =>
      rw [kinds_group]
      exact ih.group
  | ofAtom a ih => exact ih
  | repeated f op ih =>
      rw [kinds_repeated]
      refine ih.append (TokenKind.neutral_singleton ?_ ?_) <;> cases op <;> decide
  | ofFactor f ih => exact ih
  | juxtapose l r ihl ihr =>
      rw [kinds_juxtapose]
      exact ihl.append ihr
  | ofConcat c ih => exact ih
  | alternate l r ihl ihr =>
      rw [kinds_alternate, ← List.singleton_append]
      exact ihl.append ((TokenKind.neutral_singleton (by decide) (by decide)).append ihr)

theorem wellFormed_kinds (p : Phrase Atom k) : TokenKind.WellFormed p.kinds := by
  constructor
  · rw [← List.append_nil p.kinds, p.placed_kinds_append]
    rfl
  · rw [← List.append_nil p.kinds, p.neutral_kinds]
    rfl

end Phrase

/-! ## A phrase is found -/

/-- The kind of token as which a symbol counts; what it is a leaf for does not matter. -/
def Symbol.outline {α : Type} : Symbol α → TokenKind
  | leaf _ => .epsilon
  | repetition op => op.kind
  | union => .union
  | openParen => .openParen
  | closeParen => .closeParen

namespace Phrase

variable {α : Type} {ss ss' : List (Symbol α)} {stack : List (List (Symbol α))}

/-- The symbols spell a union. -/
def Done (ss : List (Symbol α)) : Prop := ∃ u : Phrase α .union, u.symbols = ss

/-- The symbols spell a union once there is an atom behind them. -/
def Ready (ss : List (Symbol α)) : Prop := ∀ a : Phrase α .atom, Done (ss ++ a.symbols)

theorem ready_nil : Ready ([] : List (Symbol α)) :=
  fun a => ⟨.ofConcat (.ofFactor (.ofAtom a)), rfl⟩

theorem Done.ready (h : Done ss) : Ready ss := by
  obtain ⟨u, rfl⟩ := h
  intro a
  cases u with
  | ofConcat c => exact ⟨.ofConcat (.juxtapose c (.ofAtom a)), rfl⟩
  | alternate l r =>
      refine ⟨.alternate l (.juxtapose r (.ofAtom a)), ?_⟩
      simp [symbols]

/-- A repetition sign applies to the last factor. -/
theorem Done.repeated (h : Done ss) (op : Repetition) : Done (ss ++ [.repetition op]) := by
  have hconcat : ∀ c : Phrase α .concat, ∃ c' : Phrase α .concat,
      c'.symbols = c.symbols ++ [.repetition op] := by
    intro c
    cases c with
    | ofFactor f => exact ⟨.ofFactor (.repeated f op), rfl⟩
    | juxtapose l r =>
        refine ⟨.juxtapose l (.repeated r op), ?_⟩
        simp [symbols]
  obtain ⟨u, rfl⟩ := h
  cases u with
  | ofConcat c =>
      obtain ⟨c', hc'⟩ := hconcat c
      exact ⟨.ofConcat c', hc'⟩
  | alternate l r =>
      obtain ⟨c', hc'⟩ := hconcat r
      refine ⟨.alternate l c', ?_⟩
      simp [symbols, hc']

theorem Done.union (h : Done ss) : Ready (ss ++ [.union]) := by
  obtain ⟨u, rfl⟩ := h
  intro a
  refine ⟨.alternate u (.ofFactor (.ofAtom a)), ?_⟩
  simp [symbols]

theorem Ready.group (h : Ready ss) (h' : Done ss') :
    Done (ss ++ .openParen :: (ss' ++ [.closeParen])) := by
  obtain ⟨u, rfl⟩ := h'
  exact h (.group u)

/-- All that has been read: the symbols of the groups that are open, the innermost one first,
and those behind the last parenthesis. -/
def unwind : List (List (Symbol α)) → List (Symbol α) → List (Symbol α)
  | [], ss => ss
  | s :: stack, ss => unwind stack s ++ .openParen :: ss

theorem unwind_append (stack : List (List (Symbol α))) (ss ss' : List (Symbol α)) :
    unwind stack (ss ++ ss') = unwind stack ss ++ ss' := by
  cases stack with
  | nil => rfl
  | cons s stack => simp [unwind]

/-- The symbols are read one by one. The groups that are open are ready for an atom; so is
what has been read of the innermost one, and if an operand is complete there, it spells a
union. -/
theorem exists_of_placed (hplaced : Placed ends (ss'.map Symbol.outline))
    (hcloses : Closes stack.length (ss'.map Symbol.outline)) (hstack : ∀ s ∈ stack, Ready s)
    (hready : Ready ss) (hdone : ends = true → Done ss) :
    ∃ u : Phrase α .union, u.symbols = unwind stack ss ++ ss' := by
  induction ss' generalizing ends stack ss with
  | nil =>
      obtain rfl := List.length_eq_zero_iff.1 hcloses
      obtain ⟨u, hu⟩ := hdone hplaced
      exact ⟨u, by rw [hu, unwind, List.append_nil]⟩
  | cons s ss' ih =>
      obtain ⟨hplace, hplaced⟩ := hplaced
      rw [← List.singleton_append, ← List.append_assoc, ← unwind_append]
      cases s with
      | leaf a =>
          have hdone' : Done (ss ++ [.leaf a]) := hready (.leaf a)
          exact ih hplaced hcloses hstack hdone'.ready fun _ => hdone'
      | repetition op =>
          have hends : ends = true :=
            hplace.resolve_right (by cases op <;> exact Bool.false_ne_true)
          have hdone' := (hdone hends).repeated op
          refine ih hplaced ?_ hstack hdone'.ready fun _ => hdone'
          cases op <;> exact hcloses
      | union =>
          have hends : ends = true := hplace.resolve_right Bool.false_ne_true
          exact ih hplaced hcloses hstack (hdone hends).union (nomatch ·)
      | openParen =>
          have hread : unwind (ss :: stack) [] = unwind stack (ss ++ [.openParen]) := by
            rw [unwind_append, unwind]
          rw [← hread]
          exact ih hplaced hcloses (List.forall_mem_cons.2 ⟨hready, hstack⟩) ready_nil (nomatch ·)
      | closeParen =>
          have hends : ends = true := hplace.resolve_right Bool.false_ne_true
          obtain ⟨hpos, hcloses⟩ := hcloses
          cases stack with
          | nil => exact absurd hpos (Nat.lt_irrefl 0)
          | cons s stack =>
              rw [List.forall_mem_cons] at hstack
              have hdone' := hstack.1.group (hdone hends)
              have hread : unwind (s :: stack) (ss ++ [.closeParen]) =
                  unwind stack (s ++ .openParen :: (ss ++ [.closeParen])) := by
                rw [unwind_append, unwind, unwind_append]
                simp
              rw [hread]
              exact ih hplaced hcloses hstack.2 hdone'.ready fun _ => hdone'

theorem exists_of_wellFormed (h : TokenKind.WellFormed (ss.map Symbol.outline)) :
    ∃ u : Phrase α .union, u.symbols = ss := by
  have hstack : ∀ s ∈ ([] : List (List (Symbol α))), Ready s := fun _ hs => nomatch hs
  have hcloses : Closes ([] : List (List (Symbol α))).length (ss.map Symbol.outline) := h.closes
  exact exists_of_placed h.placed hcloses hstack ready_nil (nomatch ·)

end Phrase

/-! ## The phrase of well-formed tokens -/

namespace TokenKind

theorem exists_symbols (h : .concat ∉ as) :
    ∃ ss : List (Symbol Atom), ss.map Symbol.kind = as := by
  induction as with
  | nil => exact ⟨[], rfl⟩
  | cons a as ih =>
      rw [List.mem_cons, not_or] at h
      obtain ⟨ss, rfl⟩ := ih h.2
      have hsymbol : ∃ s : Symbol Atom, s.kind = a := by
        cases a with
        | literal c => exact ⟨.leaf (.literal c), rfl⟩
        | epsilon => exact ⟨.leaf .epsilon, rfl⟩
        | union => exact ⟨.union, rfl⟩
        | concat => exact absurd rfl h.1
        | star => exact ⟨.repetition .star, rfl⟩
        | plus => exact ⟨.repetition .plus, rfl⟩
        | question => exact ⟨.repetition .question, rfl⟩
        | openParen => exact ⟨.openParen, rfl⟩
        | closeParen => exact ⟨.closeParen, rfl⟩
      obtain ⟨s, rfl⟩ := hsymbol
      exact ⟨s :: ss, rfl⟩

/-- Whether symbols are well-formed depends on their outlines alone. -/
theorem placed_outline {ss : List (Symbol Atom)} :
    Placed ends (ss.map Symbol.outline) ↔ Placed ends (ss.map Symbol.kind) := by
  induction ss generalizing ends with
  | nil => rfl
  | cons s ss ih =>
      have hstart : s.outline.startsOperand = s.kind.startsOperand := by
        cases s with
        | leaf a => cases a <;> rfl
        | _ => rfl
      have hend : s.outline.endsOperand = s.kind.endsOperand := by
        cases s with
        | leaf a => cases a <;> rfl
        | _ => rfl
      rw [List.map_cons, List.map_cons, Placed, Placed, hstart, hend, ih]

theorem closes_outline {ss : List (Symbol Atom)} :
    Closes depth (ss.map Symbol.outline) ↔ Closes depth (ss.map Symbol.kind) := by
  induction ss generalizing depth with
  | nil => rfl
  | cons s ss ih =>
      cases s with
      | leaf a => cases a <;> exact ih
      | repetition op => cases op <;> exact ih
      | union => exact ih
      | openParen => exact ih
      | closeParen => exact and_congr_right fun _ => ih

theorem exists_phrase (h : WellFormed as) (hconcat : .concat ∉ as) :
    ∃ p : Phrase Atom .union, as = p.kinds := by
  obtain ⟨ss, rfl⟩ := exists_symbols hconcat
  obtain ⟨p, rfl⟩ := Phrase.exists_of_wellFormed
    ⟨placed_outline.2 h.placed, closes_outline.2 h.closes⟩
  exact ⟨p, rfl⟩

end TokenKind

end Regular
