import Regular.SortedSet

/-!
# Finite maps from characters, in code point order

The moves of a state are a finite map from characters. `CharMap β` is the list of its entries
in strictly ascending order of their characters, so a character has at most one entry and two
maps with the same entries are equal.
-/

namespace Regular

/-- A finite map from characters, given by its entries in ascending order. -/
structure CharMap (β : Type) where
  entries : List (Char × β)
  ascending : entries.Pairwise (·.1 < ·.1)
deriving DecidableEq

namespace CharMap

variable {β γ : Type}

instance : Inhabited (CharMap β) := ⟨[], .nil⟩

instance : EmptyCollection (CharMap β) := ⟨[], .nil⟩

@[simp] theorem entries_empty : (∅ : CharMap β).entries = [] := rfl

def get? (m : CharMap β) (c : Char) : Option β := m.entries.lookup c

def contains (m : CharMap β) (c : Char) : Bool := (m.get? c).isSome

/-- The characters that have an entry. -/
def keys (m : CharMap β) : SortedSet Char :=
  ⟨m.entries.map (·.1), List.pairwise_map.2 m.ascending⟩

theorem lookup_cons_eq {c d : Char} {b : β} {es : List (Char × β)} :
    ((d, b) :: es).lookup c = if c = d then some b else es.lookup c := by
  rw [List.lookup_cons]
  split <;> simp_all

theorem get?_eq_some_iff {m : CharMap β} {c : Char} {b : β} :
    m.get? c = some b ↔ (c, b) ∈ m.entries := by
  obtain ⟨es, h⟩ := m
  simp only [get?]
  induction es with
  | nil => simp
  | cons e es ih =>
      obtain ⟨d, b'⟩ := e
      rw [List.pairwise_cons] at h
      rw [lookup_cons_eq, List.mem_cons, Prod.mk.injEq]
      by_cases hcd : c = d
      · subst hcd
        have hnot : (c, b) ∉ es := fun hmem => Std.lt_irrefl (h.1 (c, b) hmem)
        simp [hnot, eq_comm]
      · simp [hcd, ih h.2]

theorem get?_eq_none_iff {m : CharMap β} {c : Char} : m.get? c = none ↔ c ∉ m.keys := by
  simp only [get?, keys, SortedSet.mem_def, List.lookup_eq_none_iff, List.mem_map, not_exists,
    not_and, bne_iff_ne]
  exact ⟨fun h e he heq => h e he heq.symm, fun h e he heq => h e he heq.symm⟩

theorem mem_keys_iff {m : CharMap β} {c : Char} : c ∈ m.keys ↔ ∃ b, m.get? c = some b := by
  rw [← Option.ne_none_iff_exists', ne_eq, get?_eq_none_iff, Classical.not_not]

theorem contains_iff {m : CharMap β} {c : Char} :
    m.contains c = true ↔ ∃ b, m.get? c = some b := Option.isSome_iff_exists

@[simp] theorem get?_empty (c : Char) : (∅ : CharMap β).get? c = none := rfl

theorem nodup_entries (m : CharMap β) : m.entries.Nodup :=
  m.ascending.imp fun hlt heq => Std.ne_of_lt hlt (congrArg Prod.fst heq)

/-- Maps with the same values are equal. -/
theorem ext_get? {m m' : CharMap β} (h : ∀ c, m.get? c = m'.get? c) : m = m' := by
  have hmem : ∀ e, e ∈ m.entries ↔ e ∈ m'.entries := fun e => by
    rw [← get?_eq_some_iff (c := e.1), ← get?_eq_some_iff (c := e.1), h]
  have hperm := (List.perm_ext_iff_of_nodup m.nodup_entries m'.nodup_entries).2 hmem
  have heq := hperm.eq_of_pairwise
    (fun _ _ _ _ hlt hgt => absurd (Std.lt_trans hlt hgt) Std.lt_irrefl) m.ascending m'.ascending
  cases m; cases m'; cases heq; rfl

/-- Keeps the entries whose value has an image, with the image for a value. -/
def filterMap (f : β → Option γ) (m : CharMap β) : CharMap γ where
  entries := m.entries.filterMap fun e => (f e.2).map (e.1, ·)
  ascending := by
    refine List.pairwise_filterMap.2 (m.ascending.imp fun h => ?_)
    intro b hb b' hb'
    obtain ⟨_, _, rfl⟩ := Option.map_eq_some_iff.1 hb
    obtain ⟨_, _, rfl⟩ := Option.map_eq_some_iff.1 hb'
    exact h

theorem get?_filterMap {f : β → Option γ} {m : CharMap β} {c : Char} :
    (m.filterMap f).get? c = (m.get? c).bind f := by
  refine Option.ext fun x => ?_
  simp only [get?_eq_some_iff, filterMap, List.mem_filterMap, Option.map_eq_some_iff,
    Option.bind_eq_some_iff]
  constructor
  · rintro ⟨⟨d, b⟩, hmem, y, hy, heq⟩
    obtain ⟨rfl, rfl⟩ := Prod.mk.inj heq
    exact ⟨b, hmem, hy⟩
  · rintro ⟨b, hmem, hx⟩
    exact ⟨(c, b), hmem, x, hx, rfl⟩

/-! ## Changing one entry -/

/-- Replaces the value at `c`, which is `none` where `c` has no entry. -/
def alterList (c : Char) (f : Option β → β) : List (Char × β) → List (Char × β)
  | [] => [(c, f none)]
  | (d, b) :: es =>
    if c < d then (c, f none) :: (d, b) :: es
    else if d < c then (d, b) :: alterList c f es
    else (d, f (some b)) :: es

theorem fst_mem_alterList {c : Char} {f : Option β → β} {es : List (Char × β)} {e : Char × β}
    (h : e ∈ alterList c f es) : e.1 = c ∨ ∃ e' ∈ es, e'.1 = e.1 := by
  induction es with
  | nil =>
    obtain rfl := List.mem_singleton.1 h
    exact Or.inl rfl
  | cons d es ih =>
    obtain ⟨d, b⟩ := d
    unfold alterList at h
    split at h
    · rcases List.mem_cons.1 h with rfl | h
      · exact Or.inl rfl
      · exact Or.inr ⟨e, h, rfl⟩
    · split at h
      · rcases List.mem_cons.1 h with rfl | h
        · exact Or.inr ⟨(d, b), List.mem_cons_self .., rfl⟩
        · rcases ih h with h | ⟨e', he', h⟩
          · exact Or.inl h
          · exact Or.inr ⟨e', List.mem_cons_of_mem _ he', h⟩
      · rcases List.mem_cons.1 h with rfl | h
        · exact Or.inr ⟨(d, b), List.mem_cons_self .., rfl⟩
        · exact Or.inr ⟨e, List.mem_cons_of_mem _ h, rfl⟩

theorem pairwise_alterList {c : Char} {f : Option β → β} {es : List (Char × β)}
    (h : es.Pairwise (·.1 < ·.1)) : (alterList c f es).Pairwise (·.1 < ·.1) := by
  induction es with
  | nil => simp [alterList]
  | cons d es ih =>
    obtain ⟨d, b⟩ := d
    rw [List.pairwise_cons] at h
    unfold alterList
    split
    · next hcd =>
      refine List.pairwise_cons.2 ⟨fun e he => ?_, List.pairwise_cons.2 h⟩
      rcases List.mem_cons.1 he with rfl | he
      · exact hcd
      · exact Std.lt_trans hcd (h.1 e he)
    · split
      · next hdc =>
        refine List.pairwise_cons.2 ⟨fun e he => ?_, ih h.2⟩
        rcases fst_mem_alterList he with he | ⟨e', he', heq⟩
        · exact he ▸ hdc
        · exact heq ▸ h.1 e' he'
      · exact List.pairwise_cons.2 ⟨fun e he => h.1 e he, h.2⟩

/-- The map with the value at `c` replaced. -/
def alter (m : CharMap β) (c : Char) (f : Option β → β) : CharMap β :=
  ⟨alterList c f m.entries, pairwise_alterList m.ascending⟩

theorem lookup_alterList {c d : Char} {f : Option β → β} {es : List (Char × β)}
    (h : es.Pairwise (·.1 < ·.1)) :
    (alterList c f es).lookup d = if d = c then some (f (es.lookup c)) else es.lookup d := by
  induction es with
  | nil => simp only [alterList, lookup_cons_eq, List.lookup_nil]
  | cons e es ih =>
      obtain ⟨x, b⟩ := e
      have hlook : ∀ y, ((x, b) :: es).lookup y = if y = x then some b else es.lookup y :=
        fun _ => lookup_cons_eq
      rw [List.pairwise_cons] at h
      unfold alterList
      split
      · next hcx =>
        have hc : ((x, b) :: es).lookup c = none := by
          refine List.lookup_eq_none_iff.2 fun e he => bne_iff_ne.2 (Std.ne_of_lt ?_)
          rcases List.mem_cons.1 he with rfl | he
          · exact hcx
          · exact Std.lt_trans hcx (h.1 e he)
        rw [hc, lookup_cons_eq]
      · split
        · next hxc =>
          rw [lookup_cons_eq, ih h.2, hlook, hlook, if_neg (Std.ne_of_lt hxc).symm]
          by_cases hdx : d = x
          · rw [if_pos hdx, if_pos hdx, if_neg (hdx ▸ Std.ne_of_lt hxc)]
          · rw [if_neg hdx, if_neg hdx]
        · next hcx hxc =>
          obtain rfl := SortedSet.eq_of_not_lt hcx hxc
          rw [lookup_cons_eq, hlook, hlook, if_pos rfl]
          by_cases hdc : d = c
          · rw [if_pos hdc, if_pos hdc]
          · rw [if_neg hdc, if_neg hdc, if_neg hdc]

theorem get?_alter {m : CharMap β} {c d : Char} {f : Option β → β} :
    (m.alter c f).get? d = if d = c then some (f (m.get? c)) else m.get? d :=
  lookup_alterList m.ascending

/-- The map with the value `b` at `c`, unless `c` has an entry already. -/
def insertIfNew (m : CharMap β) (c : Char) (b : β) : CharMap β :=
  m.alter c fun old => old.getD b

theorem get?_insertIfNew {m : CharMap β} {c d : Char} {b : β} :
    (m.insertIfNew c b).get? d = if d = c then some ((m.get? c).getD b) else m.get? d :=
  get?_alter

/-- Inserting for several characters fills in the value where there is none yet. -/
theorem get?_foldl_insertIfNew (m : CharMap β) (cs : List Char) (b : β) (c : Char) :
    (cs.foldl (·.insertIfNew · b) m).get? c =
      if c ∈ cs then some ((m.get? c).getD b) else m.get? c := by
  induction cs generalizing m with
  | nil => simp
  | cons d cs ih =>
      rw [List.foldl_cons, ih, get?_insertIfNew]
      by_cases hd : c = d
      · subst hd
        simp
      · simp [hd]

/-- The map of the listed entries; of two entries for one character the last is kept. -/
def ofList (es : List (Char × β)) : CharMap β :=
  es.foldr (fun e m => m.insertIfNew e.1 e.2) ∅

theorem get?_ofList_cons {e : Char × β} {es : List (Char × β)} {c : Char} :
    (ofList (e :: es)).get? c =
      if c = e.1 then some (((ofList es).get? e.1).getD e.2) else (ofList es).get? c :=
  get?_insertIfNew

/-- Where no character is listed twice, the listed entries are those of the map. -/
theorem get?_ofList {es : List (Char × β)} (h : (es.map (·.1)).Nodup) {c : Char} {b : β} :
    (ofList es).get? c = some b ↔ (c, b) ∈ es := by
  induction es generalizing c b with
  | nil => simp [ofList]
  | cons e es ih =>
      obtain ⟨d, b'⟩ := e
      rw [List.map_cons, List.nodup_cons] at h
      have hnone : (ofList es).get? d = none := by
        refine Option.eq_none_iff_forall_ne_some.2 fun x hx => h.1 ?_
        exact List.mem_map.2 ⟨(d, x), (ih h.2).1 hx, rfl⟩
      rw [get?_ofList_cons, hnone, List.mem_cons, Prod.mk.injEq]
      by_cases hcd : c = d
      · subst hcd
        have hnot : (c, b) ∉ es := fun hmem => h.1 (List.mem_map.2 ⟨(c, b), hmem, rfl⟩)
        simp [hnot, eq_comm]
      · simp [hcd, ih h.2]

end CharMap

end Regular
