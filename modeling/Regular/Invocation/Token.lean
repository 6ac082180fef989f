import Regular.Text.Char
import Regular.Text.Identifier

/-!
# Tokens of an invocation

The text between the parentheses of an invocation is made of literals, words, signs and
bracketed groups, with blanks and comments between them. Only string literals and integers
are told apart from other literals, and groups are not looked into once they are known to be
balanced.
-/

namespace Regular.Invocation

inductive Token where
  /-- A string literal with its value. -/
  | text (value : String)
  /-- An integer literal with its value. -/
  | integer (value : Nat)
  /-- A literal of another kind. -/
  | literal
  | word (name : String)
  | sign (c : Char)
  | opening (c : Char)
  | closing (c : Char)
deriving DecidableEq, Repr

namespace Token

/-! ## Characters -/

/-- Is the character a blank between tokens? -/
def isBlank (c : Char) : Bool :=
  let n := c.toNat
  n == 0x20 || (0x09 ≤ n && n ≤ 0x0d) || n == 0x85 || n == 0xa0 || n == 0x1680 ||
    (0x2000 ≤ n && n ≤ 0x200a) || n == 0x200e || n == 0x200f || n == 0x2028 || n == 0x2029 ||
    n == 0x202f || n == 0x205f || n == 0x3000

/-- The characters that are tokens by themselves. -/
def signs : List Char := "~!@#$%^&*-=+|;:,<.>/?'".toList

/-- Splits off an identifier, which may be missing. -/
def splitIdentifier (cs : List Char) : List Char × List Char :=
  match cs with
  | c :: _ =>
    if Text.isIdentifierStart c then
      (cs.takeWhile Text.isIdentifierContinue, cs.dropWhile Text.isIdentifierContinue)
    else ([], cs)
  | [] => ([], [])

/-- What is left behind the suffix of a literal, if it has one. -/
def afterSuffix (cs : List Char) : List Char := (splitIdentifier cs).2

/-! ## Comments -/

/-- What is left behind a comment in the depth of `depth` others; `none` if it has no end. -/
def afterBlockComment? : Nat → List Char → Option (List Char)
  | depth, '/' :: '*' :: cs => afterBlockComment? (depth + 1) cs
  | depth, '*' :: '/' :: cs => if depth ≤ 1 then some cs else afterBlockComment? (depth - 1) cs
  | depth, _ :: cs => afterBlockComment? depth cs
  | _, [] => none

/-- What is left behind blanks and comments. Comments that document something are tokens. -/
def afterBlanks : Nat → List Char → List Char
  | 0, cs => cs
  | fuel + 1, cs =>
    let lineComment := cs.dropWhile (· ≠ '\n')
    match cs with
    | '/' :: '/' :: '/' :: '/' :: _ => afterBlanks fuel lineComment
    | '/' :: '/' :: '/' :: _ | '/' :: '/' :: '!' :: _ => cs
    | '/' :: '/' :: _ => afterBlanks fuel lineComment
    | '/' :: '*' :: '*' :: '/' :: rest => afterBlanks fuel rest
    | '/' :: '*' :: '*' :: '*' :: _ =>
      match afterBlockComment? 0 cs with
      | some rest => afterBlanks fuel rest
      | none => cs
    | '/' :: '*' :: '*' :: _ | '/' :: '*' :: '!' :: _ => cs
    | '/' :: '*' :: _ =>
      match afterBlockComment? 0 cs with
      | some rest => afterBlanks fuel rest
      | none => cs
    | c :: rest => if isBlank c then afterBlanks fuel rest else cs
    | [] => []

/-- Does the text contain a carriage return that ends no line? -/
def hasBareReturn : List Char → Bool
  | '\r' :: '\n' :: cs => hasBareReturn cs
  | '\r' :: _ => true
  | _ :: cs => hasBareReturn cs
  | [] => false

/-- What is left behind a comment that documents something. One of a single line goes up to
the line feed. -/
def afterDocumentation? (cs : List Char) : Option (List Char) :=
  match cs with
  | '/' :: '/' :: '/' :: '/' :: _ => none
  | '/' :: '/' :: '/' :: _ | '/' :: '/' :: '!' :: _ => some (cs.dropWhile (· ≠ '\n'))
  | '/' :: '*' :: '*' :: '*' :: _ => none
  | '/' :: '*' :: '*' :: _ | '/' :: '*' :: '!' :: _ => afterBlockComment? 0 cs
  | _ => none

/-- A comment that documents something, as a token, and what is left behind it. A carriage
return in it must stand before a line feed, which may be the one that ends the comment. -/
def documentation? (cs : List Char) : Option (Token × List Char) := do
  let rest ← afterDocumentation? cs
  let inside := cs.take (cs.length - rest.length)
  if hasBareReturn (inside ++ rest.takeWhile (· = '\n')) then none else return (.sign '#', rest)

/-! ## Texts -/

/-- The character of a numbered escape, whose digits so far are given in reverse, and what is
left behind its closing brace. -/
def numbered? (digits : List Nat) : List Char → Option (Char × List Char)
  | c :: cs =>
    if c = '\x7d' then do
      guard (digits ≠ [])
      return (← Text.charOf? (Text.ofDigitValues 16 digits.reverse), cs)
    else if c = '_' ∧ digits ≠ [] then numbered? digits cs
    else match Text.hexValue? c with
      | some d => if digits.length = 6 then none else numbered? (d :: digits) cs
      | none => none
  | [] => none

/-- The character that an escape stands for, and what is left behind it. Two hexadecimal
digits must make a number below `bound`. -/
def escape? (bound : Nat) : List Char → Option (Char × List Char)
  | 'n' :: cs => some ('\n', cs)
  | 'r' :: cs => some ('\r', cs)
  | 't' :: cs => some ('\t', cs)
  | '0' :: cs => some ('\x00', cs)
  | '\\' :: cs => some ('\\', cs)
  | '\'' :: cs => some ('\'', cs)
  | '"' :: cs => some ('"', cs)
  | 'x' :: a :: b :: cs => do
    let high ← Text.hexValue? a
    let low ← Text.hexValue? b
    guard (16 * high + low < bound)
    return (Char.ofNat (16 * high + low), cs)
  | 'u' :: '\x7b' :: cs => numbered? [] cs
  | _ => none

/-- What is left behind a backslash and the end of its line, where `cs` begins with that end.
The line is joined to the next text behind spaces, tabs and line ends; a carriage return must
stand before a line feed. -/
def afterJoin? : List Char → Option (List Char)
  | '\r' :: '\n' :: cs => afterJoin? cs
  | '\r' :: _ => none
  | c :: cs => if c = ' ' ∨ c = '\t' ∨ c = '\n' then afterJoin? cs else some (c :: cs)
  | [] => none

/-- The characters up to a closing quote with escapes resolved, and what is left behind it. A
backslash at the end of a line joins it to the next. -/
def cooked? (bound : Nat) : Nat → List Char → Option (List Char × List Char)
  | 0, _ => none
  | fuel + 1, cs =>
    match cs with
    | [] => none
    | '"' :: rest => some ([], rest)
    | '\r' :: '\n' :: rest => add '\n' (cooked? bound fuel rest)
    | '\r' :: _ => none
    | '\\' :: '\n' :: rest => afterJoin? ('\n' :: rest) >>= cooked? bound fuel
    | '\\' :: '\r' :: rest => afterJoin? ('\r' :: rest) >>= cooked? bound fuel
    | '\\' :: rest => do
      let (c, rest) ← escape? bound rest
      add c (cooked? bound fuel rest)
    | c :: rest => add c (cooked? bound fuel rest)
where
  add (c : Char) : Option (List Char × List Char) → Option (List Char × List Char) :=
    Option.map fun (cs, rest) => (c :: cs, rest)

/-- The characters up to a quote with `marks` number signs behind it, and what is left
behind. -/
def raw? (marks : Nat) : List Char → Option (List Char × List Char)
  | [] => none
  | '"' :: cs =>
    if (cs.takeWhile (· = '#')).length < marks then
      (raw? marks cs).map fun (inside, rest) => ('"' :: inside, rest)
    else some ([], cs.drop marks)
  | c :: cs => (raw? marks cs).map fun (inside, rest) => (c :: inside, rest)

/-- A raw text behind its `r`. -/
def rawText? (cs : List Char) : Option (List Char × List Char) := do
  let marks := (cs.takeWhile (· = '#')).length
  let '"' :: cs := cs.drop marks | none
  guard (marks ≤ 255)
  let (inside, rest) ← raw? marks cs
  if hasBareReturn inside then none else return (inside, rest)

/-- What is left behind the closing quote of a byte string. -/
def afterBytes? : Nat → List Char → Option (List Char)
  | 0, _ => none
  | fuel + 1, cs =>
    match cs with
    | [] => none
    | '"' :: rest => some rest
    | '\r' :: '\n' :: rest => afterBytes? fuel rest
    | '\r' :: _ => none
    | '\\' :: 'x' :: a :: b :: rest =>
      if (Text.hexValue? a).isSome ∧ (Text.hexValue? b).isSome then afterBytes? fuel rest else none
    | '\\' :: '\n' :: rest => afterJoin? ('\n' :: rest) >>= afterBytes? fuel
    | '\\' :: '\r' :: rest => afterJoin? ('\r' :: rest) >>= afterBytes? fuel
    | '\\' :: c :: rest => if c ∈ "nrt0\\'\"".toList then afterBytes? fuel rest else none
    | c :: rest => if c.toNat < 0x80 then afterBytes? fuel rest else none

/-- A string literal, and what is left behind it. -/
def textLiteral? (cs : List Char) : Option (Token × List Char) := do
  let (inside, rest) ← match cs with
    | '"' :: rest => cooked? 128 (rest.length + 1) rest
    | 'r' :: rest => rawText? rest
    | _ => none
  return (.text (String.ofList inside), afterSuffix rest)

/-- What is left behind a text that is ended by the character NUL and must not contain it. -/
def withoutNul? : List Char × List Char → Option (List Char)
  | (inside, rest) => if '\x00' ∈ inside then none else some rest

/-- A literal for bytes, one byte or a terminated string, and what is left behind it. -/
def byteLiteral? (cs : List Char) : Option (Token × List Char) := do
  let rest ← match cs with
    | 'b' :: '"' :: rest => afterBytes? (rest.length + 1) rest
    | 'b' :: 'r' :: rest => do
      let (inside, rest) ← rawText? rest
      if inside.all (·.toNat < 0x80) then some rest else none
    | 'b' :: '\'' :: '\\' :: 'x' :: a :: b :: '\'' :: rest =>
      if (Text.hexValue? a).isSome ∧ (Text.hexValue? b).isSome then some rest else none
    | 'b' :: '\'' :: '\\' :: c :: '\'' :: rest =>
      if c ∈ "nrt0\\'\"".toList then some rest else none
    | 'b' :: '\'' :: c :: '\'' :: rest => if c ≠ '\\' ∧ c.toNat < 0x80 then some rest else none
    | 'c' :: '"' :: rest => cooked? 256 (rest.length + 1) rest >>= withoutNul?
    | 'c' :: 'r' :: rest => rawText? rest >>= withoutNul?
    | _ => none
  return (.literal, afterSuffix rest)

/-- A character literal, and what is left behind it. -/
def charLiteral? (cs : List Char) : Option (Token × List Char) := do
  let rest ← match cs with
    | '\'' :: '\\' :: rest => (escape? 128 rest).map (·.2)
    | '\'' :: _ :: rest => some rest
    | _ => none
  let '\'' :: rest := rest | none
  return (.literal, afterSuffix rest)

/-! ## Numbers -/

/-- The base of a number, and its text without the mark of the base. -/
def splitBase : List Char → Nat × List Char
  | '0' :: 'x' :: cs => (16, cs)
  | '0' :: 'o' :: cs => (8, cs)
  | '0' :: 'b' :: cs => (2, cs)
  | cs => (10, cs)

/-- Splits off the digits of an integer, with underscores among them. A decimal digit that is
too large for the base is an error, while a letter ends the digits. -/
def splitDigits? (base : Nat) : List Char → Option (List Nat × List Char)
  | [] => some ([], [])
  | c :: cs =>
    if c = '_' then splitDigits? base cs
    else match Text.hexValue? c with
      | some d =>
        if d < base then (splitDigits? base cs).map fun (ds, rest) => (d :: ds, rest)
        else if c.isDigit then none
        else some ([], c :: cs)
      | none => some ([], c :: cs)

/-- A number must not run into further characters of a word. -/
def endsWord : List Char → Bool
  | c :: _ => !Text.isIdentifierContinue c
  | [] => true

/-- An integer literal, and what is left behind it. A suffix has no meaning of its own, not
even one that begins like an exponent. -/
def integer? (cs : List Char) : Option (Token × List Char) := do
  let (base, digits) := splitBase cs
  guard (digits.head?.any fun c => c.isDigit || base != 10)
  let (ds, rest) ← splitDigits? base digits
  guard (ds ≠ [])
  let rest := afterSuffix rest
  guard (endsWord rest)
  return (.integer (Text.ofDigitValues base ds), rest)

/-- What is left behind the exponent of a decimal fraction, `none` if it has no digits. -/
def afterExponent? (cs : List Char) : Option (List Char) :=
  let isPart (c : Char) : Bool := c.isDigit || c == '_'
  let cs := cs.dropWhile (· = '_')
  let cs := match cs with
    | '+' :: cs | '-' :: cs => cs
    | cs => cs
  if (cs.takeWhile isPart).any Char.isDigit then some (cs.dropWhile isPart) else none

/-- A decimal fraction, and what is left behind it. -/
def fraction? (cs : List Char) : Option (Token × List Char) := do
  let isPart (c : Char) : Bool := c.isDigit || c == '_'
  guard (cs.head?.any Char.isDigit)
  let rest ← match cs.dropWhile isPart with
    | '.' :: rest =>
      if rest.head?.any fun c => c == '.' || Text.isIdentifierStart c then none
      else
        match rest.dropWhile isPart with
        | 'e' :: after | 'E' :: after =>
          some ((afterExponent? after).getD (rest.dropWhile isPart))
        | after => some after
    | 'e' :: after | 'E' :: after => afterExponent? after
    | _ => none
  let rest := afterSuffix rest
  guard (endsWord rest)
  return (.literal, rest)

/-! ## Words and signs -/

/-- A word, and what is left behind it. A word may be marked as one in front, where a mark
alone is none. -/
def word? (cs : List Char) : Option (Token × List Char) :=
  match cs with
  | 'r' :: '#' :: marked =>
    let (name, rest) := splitIdentifier marked
    if name ∈ ["", "_", "super", "self", "Self", "crate"].map String.toList then none
    else some (.word ("r#" ++ String.ofList name), rest)
  | cs =>
    match splitIdentifier cs with
    | ([], _) => none
    | (name, rest) => some (.word (String.ofList name), rest)

/-- May a label, a word behind an apostrophe, be followed by this text? A further apostrophe
would make it a malformed character, and a number sign a malformed mark unless the label is
marked. -/
def endsLabel (label rest : List Char) : Bool :=
  match rest with
  | '\'' :: _ => false
  | '#' :: _ => ['r', '#'].isPrefixOf label
  | _ => true

/-- A sign, and what is left behind it. An apostrophe must begin a label. -/
def sign? (cs : List Char) : Option (Token × List Char) :=
  match cs with
  | '/' :: '/' :: _ | '/' :: '*' :: _ => none
  | '\'' :: label => do
    let (_, rest) ← word? label
    guard (endsLabel label rest)
    return (.sign '\'', label)
  | c :: rest => if c ∈ signs then some (.sign c, rest) else none
  | [] => none

/-- Does the text begin like a literal with a letter in front of its quotes? -/
def beginsMarkedLiteral (cs : List Char) : Bool :=
  ["r\"", "r#\"", "r##", "b\"", "b'", "br\"", "br#", "c\"", "cr\"", "cr#"].any
    fun mark => mark.toList.isPrefixOf cs

/-- The token at the beginning of a text, and what is left behind it. -/
def next? (cs : List Char) : Option (Token × List Char) :=
  match cs with
  | [] => none
  | c :: rest =>
    if c ∈ ['(', '[', '\x7b'] then some (.opening c, rest)
    else if c ∈ [')', ']', '\x7d'] then some (.closing c, rest)
    else
      documentation? cs <|> textLiteral? cs <|> byteLiteral? cs <|> charLiteral? cs <|>
        fraction? cs <|> integer? cs <|> sign? cs <|>
        if beginsMarkedLiteral cs then none else word? cs

/-! ## Streams -/

/-- The tokens of a text, `none` where none begins. -/
def scanFrom? : Nat → List Char → Option (List Token)
  | 0, _ => none
  | fuel + 1, cs =>
    match afterBlanks cs.length cs with
    | [] => some []
    | cs => do
      let (t, rest) ← next? cs
      return t :: (← scanFrom? fuel rest)

/-- The closing bracket for an opening one. -/
def closingOf (c : Char) : Char := if c = '(' then ')' else if c = '[' then ']' else '\x7d'

/-- The tokens outside of groups, each group being kept as its opening bracket; `none` if
brackets do not match. -/
def outermost? : List Char → List Token → Option (List Token)
  | [], [] => some []
  | _ :: _, [] => none
  | opened, t :: ts =>
    match t, opened with
    | .opening c, [] => (t :: ·) <$> outermost? [c] ts
    | .opening c, opened => outermost? (c :: opened) ts
    | .closing c, o :: opened => if closingOf o = c then outermost? opened ts else none
    | .closing _, [] => none
    | _, [] => (t :: ·) <$> outermost? [] ts
    | _, opened => outermost? opened ts

/-- The tokens of an invocation. A byte order mark at its beginning is passed over. -/
def ofText? (text : String) : Option (List Token) := do
  let cs := match text.toList with
    | '\ufeff' :: cs => cs
    | cs => cs
  outermost? [] (← scanFrom? (cs.length + 1) cs)

end Token

end Regular.Invocation
