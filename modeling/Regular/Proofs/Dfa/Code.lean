import Regular.Proofs.Dfa.Table
import Regular.Proofs.Text.Literal

/-!
# Code carries the table

From the code of an automaton its table is read back (`Table.ofCode?`), whatever the name of
the library. The table stands behind the last call of the constructor: the call has two
colons in a row, but in the text of a table each colon stands for a character and has an
apostrophe behind it (`Table.ColonsQuoted`). Each part of that text is read up to its end,
whatever comes behind (`Table.Reads`), so one part is read after the other. The table that is
read gives an automaton with the verdicts of the one whose code it is
(`Dfa.ofCode?_code_toTable`).
-/

namespace Regular.Table

variable {α : Type} {cs cs' : List Char} {c : Char}

/-! ## A reader of code -/

/-- Takes a value off the front of a text. -/
abbrev Reader (α : Type) := List Char → Option (α × List Char)

/-- What comes behind a given beginning. -/
def after? (mark : String) (cs : List Char) : Option (List Char) := mark.toList.isPrefixOf? cs

def bool? : Reader Bool := fun cs =>
  (after? "true" cs).map (true, ·) <|> (after? "false" cs).map (false, ·)

def number? : Reader Nat := fun cs => do
  let rest ← after? "u32" (cs.dropWhile Char.isDigit)
  return (Nat.ofDigitChars 10 (cs.takeWhile Char.isDigit) 0, rest)

/-- A character that stands for itself, or an escape. -/
def symbol? : Reader Char
  | [] => none
  | c :: cs => if c = '\\' then Invocation.Token.escape? 128 cs else some (c, cs)

def char? : Reader Char := fun cs => do
  let (c, cs) ← symbol? (← after? "'" cs)
  return (c, ← after? "'" cs)

def edge? : Reader (StateId × Char × StateId) := fun cs => do
  let (source, cs) ← number? (← after? "(" cs)
  let (c, cs) ← char? (← after? " , " cs)
  let (target, cs) ← number? (← after? " , " cs)
  return ((source, c, target), ← after? ")" cs)

/-- One or more items and the bracket behind them, where there are no more than `fuel`
items. -/
def items? (item : Reader α) : Nat → Reader (List α)
  | 0, _ => none
  | fuel + 1, cs => do
    let (a, cs) ← item cs
    match after? "]" cs with
    | some cs => return ([a], cs)
    | none =>
      let (as, cs) ← items? item fuel (← after? " , " cs)
      return (a :: as, cs)

def vec? (item : Reader α) : Reader (List α) := fun cs => do
  let cs ← after? "vec ! [" cs
  match after? "]" cs with
  | some cs => return ([], cs)
  | none => items? item cs.length cs

/-- The arguments of the constructor, with the parenthesis behind them. -/
def arguments? : Reader Table := fun cs => do
  let (finals, cs) ← vec? bool? cs
  let (edges, cs) ← vec? edge? (← after? " , " cs)
  return (⟨finals, edges⟩, ← after? ")" cs)

/-- The constructor's name behind that of the library. -/
def constructor : String := " :: automata :: DFA :: from_raw ("

/-- What comes behind the last call of the constructor. -/
def afterCall? : List Char → Option (List Char)
  | [] => none
  | c :: cs => afterCall? cs <|> after? constructor (c :: cs)

/-- The table that a piece of code gives to the constructor. -/
def ofCode? (code : String) : Option Table := do
  let (t, []) ← arguments? (← afterCall? code.toList) | none
  return t

/-! ## The parts of a table -/

/-- The reader reads the text as the value, whatever comes behind. -/
def Reads (reader : Reader α) (text : String) (a : α) : Prop :=
  ∀ rest, reader (text.toList ++ rest) = some (a, rest)

theorem after?_eq_some_iff {mark : String} : after? mark cs = some cs' ↔ mark.toList ++ cs' = cs :=
  List.isPrefixOf?_eq_some_iff_append_eq

theorem after?_append (mark : String) (rest : List Char) :
    after? mark (mark.toList ++ rest) = some rest := after?_eq_some_iff.2 rfl

theorem reads_bool (b : Bool) : Reads bool? (if b then "true" else "false") b := by
  intro rest
  cases b <;> rfl

theorem reads_number (n : Nat) : Reads number? (toString n ++ "u32") n := by
  intro rest
  have hdigits : ∀ c ∈ Nat.toDigits 10 n, c.isDigit = true := fun c hc =>
    Nat.isDigit_of_mem_toDigits (by decide) (by decide) hc
  have htext : (toString n ++ "u32").toList ++ rest =
      Nat.toDigits 10 n ++ ('u' :: '3' :: '2' :: rest) := by
    rw [String.toList_append, Nat.toString_eq_repr, Nat.toList_repr, List.append_assoc]
    rfl
  have hu : Char.isDigit 'u' = false := by decide
  rw [htext, number?, List.dropWhile_append_of_pos hdigits, List.takeWhile_append_of_pos hdigits,
    List.dropWhile_cons_of_neg (by rw [hu]; decide),
    List.takeWhile_cons_of_neg (by rw [hu]; decide), List.append_nil,
    Nat.ofDigitChars_toDigits (by decide) (by decide)]
  rfl

theorem symbol?_escape (c : Char) (rest : List Char) :
    symbol? (Text.escape '\'' c ++ rest) = some (c, rest) := by
  rcases Text.escape_cases (Or.inl rfl) c with ⟨heq, hback, -⟩ | ⟨e, heq, hread⟩
  · rw [heq]
    exact if_neg hback
  · rw [heq, ← hread]
    rfl

theorem reads_char (c : Char) : Reads char? (Text.quoteChar c) c := by
  intro rest
  have htext : (Text.quoteChar c).toList ++ rest =
      "'".toList ++ (Text.escape '\'' c ++ ("'".toList ++ rest)) := by
    simp [Text.quoteChar]
  rw [htext]
  simp only [char?, after?_append, symbol?_escape, Option.bind_eq_bind, Option.bind_some]
  rfl

theorem toList_edgeCode (source target : StateId) (c : Char) :
    (edgeCode (source, c, target)).toList = "(".toList ++ ((toString source ++ "u32").toList ++
      (" , ".toList ++ ((Text.quoteChar c).toList ++ (" , ".toList ++
        ((toString target ++ "u32").toList ++ ")".toList))))) := by
  simp [edgeCode]

theorem reads_edge (e : StateId × Char × StateId) : Reads edge? (edgeCode e) e := by
  obtain ⟨source, c, target⟩ := e
  intro rest
  rw [toList_edgeCode]
  simp only [List.append_assoc, edge?, after?_append, reads_number _ _, reads_char _ _,
    Option.bind_eq_bind, Option.bind_some]
  rfl

/-! ## Lists -/

theorem toList_vecCode (items : List String) : (vecCode items).toList =
    "vec ! [".toList ++ ((" , ".intercalate items).toList ++ "]".toList) := by
  simp [vecCode]

theorem toList_intercalate_cons_cons (mark a b : String) (as : List String) :
    (mark.intercalate (a :: b :: as)).toList =
      a.toList ++ (mark.toList ++ (mark.intercalate (b :: as)).toList) := by
  rw [String.toList_intercalate, String.toList_intercalate, List.map_cons, List.map_cons,
    List.intercalate_cons_cons, List.append_assoc]

/-- There are fewer items than characters, so a reader never runs out of fuel. -/
theorem length_lt_of_items (code : α → String) (a : α) (as : List α) (rest : List Char) :
    as.length <
      ((" , ".intercalate ((a :: as).map code)).toList ++ ("]".toList ++ rest)).length := by
  induction as generalizing a with
  | nil => simp
  | cons b as ih =>
      have hmark : " , ".toList.length = 3 := rfl
      have hb := ih b
      rw [List.map_cons] at hb
      rw [List.map_cons, List.map_cons, toList_intercalate_cons_cons]
      simp only [List.length_append, List.length_cons] at hb ⊢
      omega

theorem items?_intercalate {item : Reader α} {code : α → String}
    (hread : ∀ a, Reads item (code a) a) (a : α) (as : List α) (rest : List Char) {fuel : Nat}
    (hfuel : as.length < fuel) :
    items? item fuel ((" , ".intercalate ((a :: as).map code)).toList ++ ("]".toList ++ rest)) =
      some (a :: as, rest) := by
  induction as generalizing a fuel with
  | nil =>
      obtain ⟨fuel, rfl⟩ := Nat.exists_eq_add_of_lt hfuel
      have htext : " , ".intercalate ([a].map code) = code a := rfl
      rw [htext]
      simp only [items?, hread a _, after?_append, Option.bind_eq_bind, Option.bind_some]
      rfl
  | cons b as ih =>
      obtain ⟨fuel, rfl⟩ := Nat.exists_eq_add_of_lt hfuel
      have hgo : ∀ cs, after? "]" (" , ".toList ++ cs) = none := fun cs => rfl
      have hlt : as.length < as.length + 1 + fuel := by omega
      have hrest := ih b hlt
      rw [List.map_cons, List.map_cons, toList_intercalate_cons_cons, List.append_assoc,
        List.append_assoc]
      rw [List.map_cons] at hrest
      simp only [List.length_cons, items?, hread a _, hgo, after?_append, hrest,
        Option.bind_eq_bind, Option.bind_some]
      rfl

/-- The text does not begin like the end of a list. -/
def Opens (text : String) : Prop := ∀ rest, after? "]" (text.toList ++ rest) = none

/-- A list is read item by item. -/
theorem reads_vec {item : Reader α} {code : α → String} (hread : ∀ a, Reads item (code a) a)
    (hopens : ∀ a, Opens (code a)) (as : List α) :
    Reads (vec? item) (vecCode (as.map code)) as := by
  intro rest
  rw [toList_vecCode, vec?]
  simp only [List.append_assoc, after?_append, Option.bind_eq_bind, Option.bind_some]
  cases as with
  | nil => rfl
  | cons a as =>
      have hgo : ∀ cs,
          after? "]" ((" , ".intercalate ((a :: as).map code)).toList ++ cs) = none := by
        intro cs
        cases as with
        | nil => exact hopens a cs
        | cons b as =>
            rw [List.map_cons, List.map_cons, toList_intercalate_cons_cons, List.append_assoc]
            exact hopens a _
      rw [hgo]
      exact items?_intercalate hread a as rest (length_lt_of_items code a as rest)

theorem opens_bool (b : Bool) : Opens (if b then "true" else "false") := by
  cases b <;> exact fun rest => rfl

theorem opens_edge (e : StateId × Char × StateId) : Opens (edgeCode e) := by
  intro rest
  have htext : (edgeCode e).toList = '(' :: (edgeCode e).toList.tail := by
    simp [edgeCode]
  rw [htext]
  rfl

/-- The text of the arguments of the constructor, with the parenthesis behind them. -/
def argumentsCode (t : Table) : String :=
  vecCode (t.finals.map fun b => if b then "true" else "false") ++ " , " ++
    vecCode (t.edges.map edgeCode) ++ ")"

theorem toList_argumentsCode (t : Table) : (argumentsCode t).toList =
    (vecCode (t.finals.map fun b => if b then "true" else "false")).toList ++
      (" , ".toList ++ ((vecCode (t.edges.map edgeCode)).toList ++ ")".toList)) := by
  simp [argumentsCode]

theorem reads_arguments (t : Table) : Reads arguments? (argumentsCode t) t := by
  intro rest
  rw [toList_argumentsCode]
  simp only [List.append_assoc, arguments?, reads_vec reads_bool opens_bool _ _,
    reads_vec reads_edge opens_edge _ _, after?_append, Option.bind_eq_bind, Option.bind_some]
  rfl

theorem toList_code (library : String) (t : Table) : (t.code library).toList =
    library.toList ++ (constructor.toList ++ (argumentsCode t).toList) := by
  simp [code, constructor, argumentsCode]

/-! ## Colons -/

/-- Behind each colon there is an apostrophe. -/
inductive ColonsQuoted : List Char → Prop where
  | nil : ColonsQuoted []
  | cons {c : Char} {cs : List Char} (head : c = ':' → cs.head? = some '\'')
      (tail : ColonsQuoted cs) : ColonsQuoted (c :: cs)

theorem ColonsQuoted.append (h : ColonsQuoted cs) (h' : ColonsQuoted cs') :
    ColonsQuoted (cs ++ cs') := by
  induction h with
  | nil => exact h'
  | cons head _ ih =>
      rw [List.cons_append]
      refine .cons (fun hc => ?_) ih
      rw [List.head?_append, head hc]
      rfl

theorem colonsQuoted_of_notMem (h : ':' ∉ cs) : ColonsQuoted cs := by
  induction cs with
  | nil => exact .nil
  | cons c cs ih =>
      rw [List.mem_cons, not_or] at h
      exact .cons (fun hc => absurd hc.symm h.1) (ih h.2)

theorem colonsQuoted_vecCode {items : List String}
    (hitems : ∀ item ∈ items, ColonsQuoted item.toList) : ColonsQuoted (vecCode items).toList := by
  have hinner : ColonsQuoted (" , ".intercalate items).toList := by
    induction items with
    | nil => exact .nil
    | cons a items ih =>
        obtain ⟨ha, hitems⟩ := List.forall_mem_cons.1 hitems
        cases items with
        | nil => exact ha
        | cons b items =>
            rw [toList_intercalate_cons_cons]
            exact ha.append ((colonsQuoted_of_notMem (by decide)).append (ih hitems))
  rw [toList_vecCode]
  exact (colonsQuoted_of_notMem (by decide)).append
    (hinner.append (colonsQuoted_of_notMem (by decide)))

theorem colon_notMem_escape (hc : c ≠ ':') : ':' ∉ Text.escape '\'' c := by
  have hhex : ':' ∉ Text.hexDigits c.toNat := by
    obtain ⟨ds, hds, -, hlt, -⟩ := Text.exists_digits (b := 16) (by decide) c.toNat
    rw [Text.hexDigits, hds]
    intro hmem
    obtain ⟨d, hd, hcolon⟩ := List.mem_map.1 hmem
    exact (Text.digitChar_ne (hlt d hd)).2.2 hcolon
  rw [Text.escape]
  split
  · decide
  split
  · decide
  split
  · decide
  split
  · decide
  split
  · simpa using hc.symm
  split
  · simpa using hc.symm
  split
  · simpa using hhex
  · simpa using hc.symm

theorem colonsQuoted_quoteChar (c : Char) : ColonsQuoted (Text.quoteChar c).toList := by
  rw [Text.quoteChar, String.toList_ofList]
  by_cases hc : c = ':'
  · subst hc
    exact .cons nofun (.cons (fun _ => rfl) (.cons nofun .nil))
  · refine colonsQuoted_of_notMem ?_
    simpa using colon_notMem_escape hc

theorem colonsQuoted_number (n : Nat) : ColonsQuoted (toString n ++ "u32").toList := by
  have hdigits : ':' ∉ (toString n).toList := by
    rw [Nat.toString_eq_repr, Nat.toList_repr]
    intro hmem
    exact absurd (Nat.isDigit_of_mem_toDigits (by decide) (by decide) hmem) (by decide)
  rw [String.toList_append]
  exact (colonsQuoted_of_notMem hdigits).append (colonsQuoted_of_notMem (by decide))

theorem colonsQuoted_edgeCode (e : StateId × Char × StateId) :
    ColonsQuoted (edgeCode e).toList := by
  obtain ⟨source, c, target⟩ := e
  have hopen : ColonsQuoted "(".toList := colonsQuoted_of_notMem (by decide)
  have hcomma : ColonsQuoted " , ".toList := colonsQuoted_of_notMem (by decide)
  have hclose : ColonsQuoted ")".toList := colonsQuoted_of_notMem (by decide)
  rw [toList_edgeCode]
  exact hopen.append ((colonsQuoted_number source).append (hcomma.append
    ((colonsQuoted_quoteChar c).append (hcomma.append
      ((colonsQuoted_number target).append hclose)))))

theorem colonsQuoted_argumentsCode (t : Table) : ColonsQuoted (argumentsCode t).toList := by
  have hcomma : ColonsQuoted " , ".toList := colonsQuoted_of_notMem (by decide)
  have hclose : ColonsQuoted ")".toList := colonsQuoted_of_notMem (by decide)
  rw [toList_argumentsCode]
  refine (colonsQuoted_vecCode fun item hitem => ?_).append (hcomma.append
    ((colonsQuoted_vecCode fun item hitem => ?_).append hclose))
  · obtain ⟨b, -, rfl⟩ := List.mem_map.1 hitem
    cases b <;> exact colonsQuoted_of_notMem (by decide)
  · obtain ⟨e, -, rfl⟩ := List.mem_map.1 hitem
    exact colonsQuoted_edgeCode e

/-! ## The last call -/

/-- The call has a colon with another one behind it. -/
theorem after?_constructor (h : ColonsQuoted cs) : after? constructor cs = none := by
  refine Option.eq_none_iff_forall_ne_some.2 fun cs' hcall => ?_
  obtain rfl := after?_eq_some_iff.1 hcall
  have htext : constructor.toList ++ cs' =
      ' ' :: ':' :: ':' :: (constructor.toList.drop 3 ++ cs') := rfl
  rw [htext] at h
  obtain _ | ⟨-, h⟩ := h
  obtain _ | ⟨hquote, -⟩ := h
  exact absurd (hquote rfl) (by simp)

theorem afterCall?_eq_none (h : ColonsQuoted cs) : afterCall? cs = none := by
  induction h with
  | nil => rfl
  | cons head tail ih =>
      rw [afterCall?, ih, after?_constructor (.cons head tail)]
      rfl

/-- Whatever the name in front is, also one that has a call in it, the last call stays the
last. -/
theorem afterCall?_append (library : List Char) (h : afterCall? cs = some cs') :
    afterCall? (library ++ cs) = some cs' := by
  induction library with
  | nil => exact h
  | cons c library ih =>
      rw [List.cons_append, afterCall?, ih]
      rfl

theorem afterCall?_constructor (h : ColonsQuoted cs) :
    afterCall? (constructor.toList ++ cs) = some cs := by
  have hnone := afterCall?_eq_none h
  have htail : afterCall? (constructor.toList.tail ++ cs) = none := by
    simp [constructor, afterCall?, after?, List.isPrefixOf?, hnone]
  have htext : constructor.toList ++ cs = ' ' :: (constructor.toList.tail ++ cs) := rfl
  rw [htext, afterCall?, htail, ← htext]
  exact after?_append constructor cs

theorem ofCode?_code (library : String) (t : Table) : ofCode? (t.code library) = some t := by
  have hcall := afterCall?_append library.toList
    (afterCall?_constructor (colonsQuoted_argumentsCode t))
  have hread := reads_arguments t []
  rw [List.append_nil] at hread
  rw [ofCode?, toList_code, hcall]
  simp only [hread, Option.bind_eq_bind, Option.bind_some]
  rfl

end Regular.Table

namespace Regular.Dfa

/-- From the code of an automaton its table is read back, so two automata have the same code
precisely if they have the same table. The automaton that the table that is read gives has
the same verdict on every input. -/
theorem ofCode?_code_toTable (library : String) (d : Dfa) :
    Table.ofCode? (d.toTable.code library) = some d.toTable ∧
    (∀ d' : Dfa, d'.toTable.code library = d.toTable.code library ↔ d'.toTable = d.toTable) ∧
    ∃ t d', Table.ofCode? (d.toTable.code library) = some t ∧ ofTable t = .ok d' ∧
      ∀ input, d'.accepts input = d.accepts input := by
  have hread := Table.ofCode?_code library d.toTable
  refine ⟨hread, fun d' => ⟨fun hcode => ?_, congrArg (Table.code library)⟩, ?_⟩
  · have hread' := Table.ofCode?_code library d'.toTable
    rw [hcode, hread] at hread'
    exact (Option.some.inj hread').symm
  · obtain ⟨d', hd', hsame, hnext⟩ := d.exists_ofTable_toTable
    refine ⟨d.toTable, d', hread, hd', fun input => ?_⟩
    exact acceptsFrom_of_toTable_eq (hsame.toTable_eq hnext) 0 input.toList

end Regular.Dfa
