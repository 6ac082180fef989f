/-!
# Finite sets as ascending lists

`SortedSet α` keeps the members of a finite set in ascending order without repetition, so two
sets with the same members are the same value and can serve as keys. Sets of state numbers
(`IdSet`) and alphabets (`SortedSet Char`) are both of this kind.
-/

namespace Regular

variable {α : Type} [LT α]

/-- A finite set, given by its members in strictly ascending order. -/
structure SortedSet (α : Type) [LT α] where
  toList : List α
  ascending : toList.Pairwise (· < ·)
deriving DecidableEq

namespace SortedSet

instance : Inhabited (SortedSet α) := ⟨[], .nil⟩

instance : EmptyCollection (SortedSet α) := ⟨[], .nil⟩

instance : Membership α (SortedSet α) := ⟨fun s x => x ∈ s.toList⟩

instance [DecidableEq α] (x : α) (s : SortedSet α) : Decidable (x ∈ s) :=
  inferInstanceAs (Decidable (x ∈ s.toList))

instance [Hashable α] : Hashable (SortedSet α) := ⟨fun s => hash s.toList⟩

theorem mem_def {x : α} {s : SortedSet α} : x ∈ s ↔ x ∈ s.toList := Iff.rfl

@[ext] theorem ext_toList {s t : SortedSet α} (h : s.toList = t.toList) : s = t := by
  cases s; cases t; cases h; rfl

@[simp] theorem toList_empty : (∅ : SortedSet α).toList = [] := rfl

/-! ## Observers -/

def isEmpty (s : SortedSet α) : Bool := s.toList.isEmpty

def size (s : SortedSet α) : Nat := s.toList.length

/-- The least member. -/
def first? (s : SortedSet α) : Option α := s.toList.head?

/-- Lexicographic order of the ascending lists of members. -/
def compare [Ord α] (s t : SortedSet α) : Ordering :=
  List.compareLex Ord.compare s.toList t.toList

/-! ## Subsets -/

def singleton (x : α) : SortedSet α := ⟨[x], List.pairwise_singleton ..⟩

@[simp] theorem toList_singleton (x : α) : (singleton x).toList = [x] := rfl

def filter (p : α → Bool) (s : SortedSet α) : SortedSet α :=
  ⟨s.toList.filter p, s.ascending.filter p⟩

@[simp] theorem toList_filter (p : α → Bool) (s : SortedSet α) :
    (s.filter p).toList = s.toList.filter p := rfl

@[simp] theorem not_mem_empty {x : α} : ¬x ∈ (∅ : SortedSet α) := List.not_mem_nil

@[simp] theorem mem_singleton {x y : α} : x ∈ singleton y ↔ x = y := List.mem_singleton

@[simp] theorem mem_filter {p : α → Bool} {x : α} {s : SortedSet α} :
    x ∈ s.filter p ↔ x ∈ s ∧ p x = true := List.mem_filter

theorem isEmpty_eq_false_iff {s : SortedSet α} : s.isEmpty = false ↔ ∃ x, x ∈ s := by
  simp only [isEmpty, List.isEmpty_eq_false_iff_exists_mem, mem_def]

theorem isEmpty_iff {s : SortedSet α} : s.isEmpty = true ↔ s = ∅ :=
  List.isEmpty_iff.trans ⟨fun h => ext_toList h, fun h => h ▸ rfl⟩

theorem exists_mem_of_ne_empty {s : SortedSet α} (h : s ≠ ∅) : ∃ x, x ∈ s := by
  refine isEmpty_eq_false_iff.1 (Bool.eq_false_iff.2 fun hempty => h ?_)
  exact isEmpty_iff.1 hempty

def erase [DecidableEq α] (s : SortedSet α) (x : α) : SortedSet α := s.filter (· ≠ x)

/-- The members with equal keys, one group per key, in the order of the groups' least
members. -/
def groupBy {κ : Type} [BEq κ] (key : α → κ) (s : SortedSet α) : List (SortedSet α) :=
  (s.toList.map key).eraseDups.map fun k => s.filter fun x => key x == k

/-! ## Insertion and union

Both work on the ascending lists; `insertList` and `unionList` keep them ascending because
`<` is the strict part of a linear order. -/

/-- Puts `x` at its place, unless it is there already. -/
def insertList [DecidableLT α] (x : α) : List α → List α
  | [] => [x]
  | y :: ys => if x < y then x :: y :: ys else if y < x then y :: insertList x ys else y :: ys

/-- Merges two ascending lists, keeping one copy of a common member. -/
def unionList [DecidableLT α] : List α → List α → List α
  | [], ys => ys
  | x :: xs, [] => x :: xs
  | x :: xs, y :: ys =>
    if x < y then x :: unionList xs (y :: ys)
    else if y < x then y :: unionList (x :: xs) ys
    else x :: unionList xs ys
termination_by xs ys => xs.length + ys.length

section Linear

variable [LE α] [Std.IsLinearOrder α] [Std.LawfulOrderLT α] [DecidableLT α]

omit [DecidableLT α] in
theorem eq_of_not_lt {x y : α} (h : ¬x < y) (h' : ¬y < x) : x = y := by
  rw [Std.not_lt] at h h'
  exact Std.le_antisymm h' h

theorem mem_insertList {x z : α} {ys : List α} : z ∈ insertList x ys ↔ z = x ∨ z ∈ ys := by
  induction ys with
  | nil => simp [insertList]
  | cons y ys ih =>
    unfold insertList
    split
    · simp
    · split
      · simp only [List.mem_cons, ih]
        constructor <;> (rintro (h | h | h) <;> simp [h])
      · next h h' =>
        obtain rfl := eq_of_not_lt h h'
        simp

theorem pairwise_insertList {x : α} {ys : List α} (h : ys.Pairwise (· < ·)) :
    (insertList x ys).Pairwise (· < ·) := by
  induction ys with
  | nil => simp [insertList]
  | cons y ys ih =>
    rw [List.pairwise_cons] at h
    unfold insertList
    split
    · next hxy =>
      refine List.pairwise_cons.2 ⟨fun z hz => ?_, List.pairwise_cons.2 h⟩
      rcases List.mem_cons.1 hz with rfl | hz
      · exact hxy
      · exact Std.lt_trans hxy (h.1 z hz)
    · split
      · next hyx =>
        refine List.pairwise_cons.2 ⟨fun z hz => ?_, ih h.2⟩
        rcases mem_insertList.1 hz with rfl | hz
        · exact hyx
        · exact h.1 z hz
      · exact List.pairwise_cons.2 h

theorem mem_unionList {z : α} {xs ys : List α} : z ∈ unionList xs ys ↔ z ∈ xs ∨ z ∈ ys := by
  fun_induction unionList xs ys with
  | case1 => simp
  | case2 => simp
  | case3 x xs y ys h ih => simp only [List.mem_cons] at ih ⊢; rw [ih]; simp only [or_assoc]
  | case4 x xs y ys h h' ih =>
    simp only [List.mem_cons] at ih ⊢
    rw [ih, or_left_comm]
  | case5 x xs y ys h h' ih =>
    obtain rfl := eq_of_not_lt h h'
    simp only [List.mem_cons, ih]
    constructor
    · rintro (h | h | h) <;> simp [h]
    · rintro ((h | h) | (h | h)) <;> simp [h]

theorem pairwise_unionList {xs ys : List α} (hx : xs.Pairwise (· < ·)) (hy : ys.Pairwise (· < ·)) :
    (unionList xs ys).Pairwise (· < ·) := by
  fun_induction unionList xs ys with
  | case1 => exact hy
  | case2 => exact hx
  | case3 x xs y ys h ih =>
    rw [List.pairwise_cons] at hx
    refine List.pairwise_cons.2 ⟨fun z hz => ?_, ih hx.2 hy⟩
    rcases mem_unionList.1 hz with hz | hz
    · exact hx.1 z hz
    · rcases List.mem_cons.1 hz with rfl | hz
      · exact h
      · exact Std.lt_trans h ((List.pairwise_cons.1 hy).1 z hz)
  | case4 x xs y ys h h' ih =>
    rw [List.pairwise_cons] at hy
    refine List.pairwise_cons.2 ⟨fun z hz => ?_, ih hx hy.2⟩
    rcases mem_unionList.1 hz with hz | hz
    · rcases List.mem_cons.1 hz with rfl | hz
      · exact h'
      · exact Std.lt_trans h' ((List.pairwise_cons.1 hx).1 z hz)
    · exact hy.1 z hz
  | case5 x xs y ys h h' ih =>
    obtain rfl := eq_of_not_lt h h'
    rw [List.pairwise_cons] at hx hy
    refine List.pairwise_cons.2 ⟨fun z hz => ?_, ih hx.2 hy.2⟩
    rcases mem_unionList.1 hz with hz | hz
    · exact hx.1 z hz
    · exact hy.1 z hz

def insert (x : α) (s : SortedSet α) : SortedSet α :=
  ⟨insertList x s.toList, pairwise_insertList s.ascending⟩

def union (s t : SortedSet α) : SortedSet α :=
  ⟨unionList s.toList t.toList, pairwise_unionList s.ascending t.ascending⟩

instance : Union (SortedSet α) := ⟨union⟩

/-- The set of the listed members, in whatever order and however often they are listed. -/
def ofList (xs : List α) : SortedSet α := xs.foldr insert ∅

@[simp] theorem mem_insert {x z : α} {s : SortedSet α} : z ∈ s.insert x ↔ z = x ∨ z ∈ s :=
  mem_insertList

@[simp] theorem mem_union {z : α} {s t : SortedSet α} : z ∈ s ∪ t ↔ z ∈ s ∨ z ∈ t :=
  mem_unionList

@[simp] theorem mem_ofList {z : α} {xs : List α} : z ∈ ofList xs ↔ z ∈ xs := by
  induction xs with
  | nil => simp [ofList, mem_def]
  | cons x xs ih => simp only [ofList, List.foldr_cons, mem_insert, List.mem_cons] at ih ⊢; rw [ih]

theorem mem_foldr_union {β : Type} {f : β → SortedSet α} {xs : List β} {z : α} :
    z ∈ xs.foldr (fun x s => f x ∪ s) ∅ ↔ ∃ x ∈ xs, z ∈ f x := by
  induction xs with
  | nil => simp
  | cons x xs ih => simp [ih]

omit [DecidableLT α] in
/-- Sets with the same members are equal. -/
theorem ext_mem {s t : SortedSet α} (h : ∀ x, x ∈ s ↔ x ∈ t) : s = t := by
  refine ext_toList
    (List.Perm.eq_of_pairwise (fun x y _ _ hxy hyx => ?_) s.ascending t.ascending ?_)
  · exact absurd (Std.lt_trans hxy hyx) Std.lt_irrefl
  · exact (List.perm_ext_iff_of_nodup (s.ascending.imp Std.ne_of_lt)
      (t.ascending.imp Std.ne_of_lt)).2 h

end Linear

end SortedSet

/-! ## State numbers -/

/-- The number of a state of an automaton. -/
abbrev StateId := Nat

/-- A finite set of state numbers. -/
abbrev IdSet := SortedSet StateId

/-- The members between braces, in ascending order. -/
def IdSet.text (s : IdSet) : String :=
  "\x7b" ++ ", ".intercalate (s.toList.map toString) ++ "\x7d"

/-- The state numbers below `n` for which `p` holds. -/
def IdSet.below (n : Nat) (p : StateId → Bool) : IdSet :=
  ⟨(List.range n).filter p, List.pairwise_lt_range.filter p⟩

@[simp] theorem IdSet.mem_below {n : Nat} {p : StateId → Bool} {i : StateId} :
    i ∈ below n p ↔ i < n ∧ p i = true :=
  List.mem_filter.trans (and_congr_left' List.mem_range)

end Regular
