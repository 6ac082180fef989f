import Regular.Setting
import Regular.Toml.Token

/-!
# TOML documents

A document is a list of sections, each with a header and settings. The headers say how
sections nest: a section with a longer header lies inside the one whose header it extends,
and doubly bracketed headers begin a new element of a list of sections. A section may be
given only once, though lists may grow.
-/

namespace Regular.Toml

/-- Reads from the front of a list of tokens. -/
abbrev Reader := StateT (List Token) Option

namespace Reader

/-- The next token, which stays in place. -/
def peek? : Reader (Option Token) := do return (← get).head?

/-- Takes the token `t` if it is the next one. -/
def accept (t : Token) : Reader Bool := do
  match ← get with
  | u :: rest => if u = t then set rest; return true else return false
  | [] => return false

/-- Takes the token `t`, which must be the next one. -/
def expect (t : Token) : Reader Unit := do
  if ← accept t then return () else failure

def isBlank : Token → Bool
  | .blank _ => true
  | _ => false

def isLetter : Token → Bool
  | .letter _ => true
  | _ => false

def letter? : Token → Option Char
  | .letter c => some c
  | _ => none

def skipBlanks : Reader Unit := modify (·.dropWhile isBlank)

/-- Passes over blanks, comments and line ends. -/
def skipLines : Reader Unit :=
  modify (·.dropWhile fun t => isBlank t || t == .comment || t == .newline)

/-- The letters of an unquoted word, of which there must be at least one. -/
def word : Reader (List Char) := do
  let ts ← get
  match ts.takeWhile isLetter with
  | [] => failure
  | letters => set (ts.dropWhile isLetter); return letters.filterMap letter?

/-- Passes over a comment and the end of the line, where nothing else may follow. -/
def lineEnd : Reader Unit := do
  skipBlanks
  let _ ← accept .comment
  match ← get with
  | [] => return ()
  | _ => expect .newline

end Reader

open Reader

/-! ## Numbers -/

/-- The value of a digit in the given base. -/
def digitValue? (base : Nat) (c : Char) : Option Nat :=
  match Text.hexValue? c with
  | some d => if d < base then some d else none
  | none => none

/-- Splits off digits, among which single underscores may stand but not at either end. A
number of more than one digit must not begin with zero unless that is allowed. -/
def splitDigits? (base : Nat) (leadingZeros : Bool) (cs : List Char) :
    Option (List Char × List Char) :=
  let isDigit (c : Char) : Bool := (digitValue? base c).isSome
  let rec go (afterUnderscore : Bool) : List Char → Option (List Char × List Char)
    | [] => if afterUnderscore then none else some ([], [])
    | c :: cs =>
      if isDigit c then do let (ds, rest) ← go false cs; return (c :: ds, rest)
      else if c = '_' ∧ ¬afterUnderscore then go true cs
      else if afterUnderscore then none
      else some ([], c :: cs)
  match go true cs with
  | some ('0' :: d :: ds, rest) => if leadingZeros then some ('0' :: d :: ds, rest) else none
  | result => result

/-- The number that the digits denote. -/
def ofDigits (base : Nat) (ds : List Char) : Nat :=
  Text.ofDigitValues base (ds.filterMap (digitValue? base))

/-- An integer of 64 bits. -/
def integer? (negative : Bool) (n : Nat) : Option Setting :=
  let i : Int := if negative then -n else n
  if Int64.minValue.toInt ≤ i ∧ i ≤ Int64.maxValue.toInt then some (.integer i) else none

/-- Splits off a sign. -/
def splitSign : List Char → Bool × List Char
  | '-' :: cs => (true, cs)
  | cs => (false, cs)

/-- An integer in another base than ten, without its mark. -/
def basedInteger? (base : Nat) (cs : List Char) : Option Setting := do
  let (ds, rest) ← splitDigits? base true cs
  guard rest.isEmpty
  integer? false (ofDigits base ds)

/-- Is the number, `n` times ten to the power `e`, below the largest that a float of 64 bits
rounds down to? All powers of ten from the 400th on are above it, and those below the first
are below. -/
def isFinite (n : Nat) (e : Int) : Bool :=
  let magnitude : Int := (Nat.toDigits 10 n).length + e
  let bound : Nat := ((1 <<< 54) - 1) <<< 970
  n == 0 || magnitude < 0 ||
    (magnitude < 400 && n * Nat.pow 10 e.toNat < bound * Nat.pow 10 (-e).toNat)

/-- The exponent of a float, zero if it is left out. The word so far may hold it in part. -/
def exponent : List Char → Reader Int
  | [] => return 0
  | [e] => do
    guard (e = 'e' ∨ e = 'E')
    let _ ← accept .plus
    let (ds, rest) ← splitDigits? 10 true (← word)
    guard rest.isEmpty
    return ofDigits 10 ds
  | e :: cs => do
    guard (e = 'e' ∨ e = 'E')
    let (negative, cs) := splitSign cs
    let (ds, rest) ← splitDigits? 10 true cs
    guard rest.isEmpty
    return if negative then -(ofDigits 10 ds : Int) else ofDigits 10 ds

/-- A float with the given digits before and behind its point, and the rest of its word. It
must not be too large. -/
def float (whole fraction rest : List Char) : Reader Setting := do
  let e ← exponent rest
  guard (isFinite (ofDigits 10 (whole ++ fraction)) (e - fraction.length))
  return .other

/-- A number that begins with the given word. -/
def number (w : List Char) : Reader Setting := do
  match w with
  | '0' :: 'x' :: cs => basedInteger? 16 cs
  | '0' :: 'o' :: cs => basedInteger? 8 cs
  | '0' :: 'b' :: cs => basedInteger? 2 cs
  | _ =>
    let (negative, cs) := splitSign w
    if cs = ['i', 'n', 'f'] ∨ cs = ['n', 'a', 'n'] then return .other
    let (whole, rest) ← splitDigits? 10 false cs
    if 'e' ∈ w ∨ 'E' ∈ w then float whole [] rest
    else
      guard rest.isEmpty
      if ← accept .period then
        let (fraction, rest) ← splitDigits? 10 true (← word)
        float whole fraction rest
      else integer? negative (ofDigits 10 whole)

/-! ## Dates

Nothing asks for a date or a time, so these are passed over without looking at their digits.
Where settings may stand, a date stands for a group with no known name. -/

/-- A date or a time as a setting. -/
def date : Setting := .table []

/-- Passes over the minutes of a time and what may follow them. -/
def timeRest : Reader Unit := do
  let _ ← word
  expect .colon
  let _ ← word
  if ← accept .period then let _ ← word
  if ← accept .plus then let _ ← word
  if ← accept .colon then let _ ← word

/-- Passes over a single space and an hour, if they come next. -/
def hourAfterSpace : Reader Unit := do
  match ← get with
  | .blank ' ' :: .letter c :: rest => set (Token.letter c :: rest); let _ ← word
  | _ => return ()

/-- Does a minus sign stand behind an `e`? -/
def hasSignedExponent : List Char → Bool
  | c :: d :: cs => ((c == 'e' || c == 'E') && d == '-') || hasSignedExponent (d :: cs)
  | _ => false

/-- Does the word begin a date? -/
def beginsDate (w : List Char) : Bool :=
  w.contains 'T' || w.contains 't' ||
    (w.tail.contains '-' && !hasSignedExponent w)

/-! ## Values -/

/-- The value that an unquoted word begins. -/
def plainValue (w : List Char) : Reader Setting := do
  match w with
  | ['t', 'r', 'u', 'e'] => return .boolean true
  | ['f', 'a', 'l', 's', 'e'] => return .boolean false
  | _ =>
    guard (w = ['i', 'n', 'f'] ∨ w = ['n', 'a', 'n'] ∨ w.head?.any fun c => c = '-' ∨ c.isDigit)
    if beginsDate w then
      hourAfterSpace
      if ← accept .colon then timeRest
      return date
    else if ← accept .colon then
      hourAfterSpace
      timeRest
      return date
    else number w

/-- One part of a key. -/
def keyPart : Reader String := do
  match ← get with
  | .quoted s false :: rest => set rest; return s
  | _ => return String.ofList (← word)

/-- The further parts of a key, each behind a period. -/
def moreKeyParts : Nat → Reader (List String)
  | 0 => failure
  | fuel + 1 => do
    skipBlanks
    if ← accept .period then
      skipBlanks
      let part ← keyPart
      return part :: (← moreKeyParts fuel)
    else return []

/-- A key, whose parts are separated by periods. -/
def key : Reader (List String) := do
  let first ← keyPart
  return first :: (← moreKeyParts ((← get).length + 1))

/-- Does the setting have a key of several parts? -/
def isDotted (s : List String × Setting) : Bool := 1 < s.1.length

/-- The entries that settings make together. Those whose keys have several parts make tables
inside each other; a table of this kind may be added to, but a value must not be taken for
one. `fuel` bounds the lengths of the keys. -/
def entriesFrom? : Nat → List (List String × Setting) → Option (List (String × Setting))
  | 0, _ => none
  | fuel + 1, ss => do
    let names := (ss.filterMap (·.1.head?)).eraseDups
    let groups ← names.mapM fun name => do
      let group := ss.filter (·.1.head? = some name)
      let plain := (group.filter (!isDotted ·)).map fun s => (name, s.2)
      let dotted := (group.filter isDotted).map fun s => (s.1.tail, s.2)
      if dotted.isEmpty then return plain
      guard (group.head?.any isDotted)
      return (name, Setting.table (← entriesFrom? fuel dotted)) :: plain
    return groups.flatten

/-- The entries that the settings of a section, or of a table in braces, make together. -/
def entriesOf? (ss : List (List String × Setting)) : Option (List (String × Setting)) :=
  entriesFrom? ((ss.flatMap (·.1)).length + 1) ss

mutual

/-- A value. Nested values take fuel, and so do the items of a list. -/
def value : Nat → Reader Setting
  | 0 => failure
  | fuel + 1 => do
    match ← get with
    | .quoted s _ :: rest => set rest; return .text s
    | .plus :: rest => set rest; number (← word)
    | .openBracket :: rest => set rest; return .list (← items fuel)
    | .openBrace :: rest =>
      set rest
      skipBlanks
      if ← accept .closeBrace then return .table []
      let settings ← inlineSettings fuel
      return .table (← entriesOf? settings)
    | _ => plainValue (← word)

/-- The rest of a list, behind its opening bracket or a comma. -/
def items : Nat → Reader (List Setting)
  | 0 => failure
  | fuel + 1 => do
    skipLines
    if ← accept .closeBracket then return []
    let item ← value fuel
    skipLines
    if ← accept .comma then return item :: (← items fuel)
    expect .closeBracket
    return [item]

/-- The settings of a table in braces. -/
def inlineSettings : Nat → Reader (List (List String × Setting))
  | 0 => failure
  | fuel + 1 => do
    let path ← key
    skipBlanks
    expect .equals
    skipBlanks
    let v ← value fuel
    skipBlanks
    if ← accept .closeBrace then return [(path, v)]
    expect .comma
    skipBlanks
    return (path, v) :: (← inlineSettings fuel)

end

/-! ## Sections -/

/-- A section: the parts of its header, whether the header is doubly bracketed, and the
settings under it. The settings before the first header are a section without header. -/
structure Section where
  path : List String
  isElement : Bool
  settings : List (List String × Setting)
deriving Inhabited

/-- A header, up to the end of its line. -/
def header : Reader Section := do
  expect .openBracket
  let isElement ← accept .openBracket
  skipBlanks
  let path ← key
  expect .closeBracket
  if isElement then expect .closeBracket
  lineEnd
  return ⟨path, isElement, []⟩

/-- The settings up to the next header, or to the end. -/
def settings : Nat → Reader (List (List String × Setting))
  | 0 => failure
  | fuel + 1 => do
    skipLines
    match ← peek? with
    | none | some .openBracket => return []
    | some _ =>
      let path ← key
      skipBlanks
      expect .equals
      skipBlanks
      let v ← value fuel
      lineEnd
      return (path, v) :: (← settings fuel)

/-- The sections from the next header on. -/
def sections : Nat → Reader (List Section)
  | 0 => failure
  | fuel + 1 => do
    match ← peek? with
    | none => return []
    | some _ =>
      let s ← header
      let own ← settings fuel
      return { s with settings := own } :: (← sections fuel)

/-- All sections of a document, first the one without header. -/
def document : Reader (List Section) := do
  let fuel := 2 * (← get).length + 2
  let own ← settings fuel
  return ⟨[], false, own⟩ :: (← sections fuel)

/-! ## Nesting -/

/-- The section without the first part of its header. -/
def Section.inner (s : Section) : Section := { s with path := s.path.tail }

/-- Splits sections into runs that begin with an element of a list. -/
def splitElements : List Section → List (List Section)
  | [] => []
  | s :: ss =>
    match splitElements ss with
    | [] => [[s]]
    | run :: runs =>
      if (run.head?.any fun t => t.isElement && t.path.isEmpty) then [s] :: run :: runs
      else (s :: run) :: runs

/-- The table that sections make, whose headers begin where the table is; `fuel` bounds the
lengths of the headers. -/
def tableOf? : Nat → List Section → Option Setting
  | 0, _ => none
  | fuel + 1, ss => do
    let own ← match ss.filter (·.path.isEmpty) with
      | [] => some []
      | [s] => entriesOf? s.settings
      | _ => none
    let deeper := ss.filter (!·.path.isEmpty)
    let names := (deeper.filterMap (·.path.head?)).eraseDups
    let subtables ← names.mapM fun name => do
      let inside := (deeper.filter (·.path.head? = some name)).map Section.inner
      if inside.any fun s => s.path.isEmpty && s.isElement then
        guard (inside.head?.any fun s => s.path.isEmpty && s.isElement)
        return (name, Setting.list (← (splitElements inside).mapM (tableOf? fuel)))
      else return (name, ← tableOf? fuel inside)
    return .table (own ++ subtables)

/-- The settings of a document, `none` if it is not well formed. -/
def parse? (text : String) : Option Setting := do
  let ts ← Token.ofText? text
  let (ss, rest) ← document.run ts
  guard rest.isEmpty
  tableOf? (ts.length + 1) ss

end Regular.Toml
