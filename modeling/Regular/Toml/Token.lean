import Regular.Text.Char

/-!
# Tokens of TOML documents

Letters of unquoted words are tokens one by one, so are blanks; a quoted text is a single
token. A line may end with a carriage return before its line feed, which is not kept.
-/

namespace Regular.Toml

inductive Token where
  | newline
  | blank (c : Char)
  | comment
  | letter (c : Char)
  | quoted (text : String) (multiline : Bool)
  | equals
  | period
  | comma
  | colon
  | plus
  | openBrace
  | closeBrace
  | openBracket
  | closeBracket
deriving DecidableEq, Repr

/-- What is being read. -/
inductive Token.Mode where
  | outside
  | inComment
  /-- A text between copies of `quote`, with its characters so far in reverse. -/
  | inQuotes (quote : Char) (multiline : Bool) (back : List Char)
  /-- Behind a backslash at the end of a line, where `ended` tells whether the end has been
  met. -/
  | inContinuation (ended : Bool) (back : List Char)

namespace Token

/-- How often a character may be looked at again without being passed. -/
def Mode.lookahead : Mode → Nat
  | .inContinuation _ _ => 1
  | _ => 0

/-- May the character occur in an unquoted word? -/
def isWordChar (c : Char) : Bool := c.isAlphanum || c == '-' || c == '_'

/-- May the character occur in a quoted text or a comment? -/
def isPlain (c : Char) : Bool := c == '\t' || (0x20 ≤ c.toNat && c.toNat != 0x7f)

/-- The token of a sign. -/
def ofSign? : Char → Option Token
  | '=' => some equals
  | '.' => some period
  | ',' => some comma
  | ':' => some colon
  | '+' => some plus
  | '\x7b' => some openBrace
  | '\x7d' => some closeBrace
  | '[' => some openBracket
  | ']' => some closeBracket
  | _ => none

/-- The character whose number has the given hexadecimal digits. -/
def ofHex? (digits : List Char) : Option Char := do
  Text.charOf? (Text.ofDigitValues 16 (← digits.mapM Text.hexValue?))

/-- The character that a letter behind a backslash stands for. -/
def ofEscape? : Char → Option Char
  | '"' => some '"'
  | '\\' => some '\\'
  | 'b' => some '\x08'
  | 'f' => some '\x0c'
  | 'n' => some '\n'
  | 'r' => some '\r'
  | 't' => some '\t'
  | _ => none

/-- The text without the carriage returns that stand before line feeds. -/
def foldLines : List Char → List Char
  | '\r' :: '\n' :: cs => '\n' :: foldLines cs
  | c :: cs => c :: foldLines cs
  | [] => []

/-- A quoted text from its characters in reverse. -/
def ofBack (multiline : Bool) (back : List Char) : Token :=
  .quoted (String.ofList back.reverse) multiline

/-- The tokens of a text, `none` where a character is out of place or a quoted text has no
end. Of more than three quotes at the end of a text of many lines, up to two belong to the
text. -/
def scan? : Mode → List Char → Option (List Token)
  | .outside, [] => some []
  | .outside, '\n' :: cs => (newline :: ·) <$> scan? .outside cs
  | .outside, '#' :: cs => (comment :: ·) <$> scan? .inComment cs
  | .outside, '"' :: '"' :: '"' :: '\n' :: cs => scan? (.inQuotes '"' true []) cs
  | .outside, '"' :: '"' :: '"' :: cs => scan? (.inQuotes '"' true []) cs
  | .outside, '"' :: '"' :: cs => (quoted "" false :: ·) <$> scan? .outside cs
  | .outside, '"' :: cs => scan? (.inQuotes '"' false []) cs
  | .outside, '\'' :: '\'' :: '\'' :: '\n' :: cs => scan? (.inQuotes '\'' true []) cs
  | .outside, '\'' :: '\'' :: '\'' :: cs => scan? (.inQuotes '\'' true []) cs
  | .outside, '\'' :: '\'' :: cs => (quoted "" false :: ·) <$> scan? .outside cs
  | .outside, '\'' :: cs => scan? (.inQuotes '\'' false []) cs
  | .outside, c :: cs =>
    if c = ' ' ∨ c = '\t' then (blank c :: ·) <$> scan? .outside cs
    else if isWordChar c then (letter c :: ·) <$> scan? .outside cs
    else match ofSign? c with
      | some t => (t :: ·) <$> scan? .outside cs
      | none => none
  | .inComment, [] => some []
  | .inComment, c :: cs =>
    if c = '\n' then (newline :: ·) <$> scan? .outside cs
    else if isPlain c ∨ c = '\x7f' then scan? .inComment cs
    else none
  | .inQuotes _ _ _, [] => none
  | .inQuotes '"' multiline back, '\\' :: 'u' :: a :: b :: c :: d :: cs =>
    match ofHex? [a, b, c, d] with
    | some e => scan? (.inQuotes '"' multiline (e :: back)) cs
    | none => none
  | .inQuotes '"' multiline back, '\\' :: 'U' :: a :: b :: c :: d :: e :: f :: g :: h :: cs =>
    match ofHex? [a, b, c, d, e, f, g, h] with
    | some e => scan? (.inQuotes '"' multiline (e :: back)) cs
    | none => none
  | .inQuotes '"' multiline back, '\\' :: c :: cs =>
    match ofEscape? c with
    | some d => scan? (.inQuotes '"' multiline (d :: back)) cs
    | none =>
      if multiline ∧ (c = ' ' ∨ c = '\t' ∨ c = '\n') then
        scan? (.inContinuation (c == '\n') back) cs
      else none
  | .inQuotes q true back, c :: cs =>
    if c = q then
      let more := (cs.takeWhile (· = q)).length
      if more < 2 then scan? (.inQuotes q true (q :: back)) cs
      else
        let inside := min (more - 2) 2
        let t := ofBack true (List.replicate inside q ++ back)
        (t :: ·) <$> scan? .outside (cs.drop (2 + inside))
    else if isPlain c ∨ c = '\n' then scan? (.inQuotes q true (c :: back)) cs
    else none
  | .inQuotes q false back, c :: cs =>
    if c = q then (ofBack false back :: ·) <$> scan? .outside cs
    else if isPlain c then scan? (.inQuotes q false (c :: back)) cs
    else none
  | .inContinuation _ _, [] => none
  | .inContinuation ended back, c :: cs =>
    if c = ' ' ∨ c = '\t' then scan? (.inContinuation ended back) cs
    else if c = '\n' then scan? (.inContinuation true back) cs
    else if ended then scan? (.inQuotes '"' true back) (c :: cs)
    else none
termination_by mode cs => (cs.length, mode.lookahead)
decreasing_by all_goals simp_wf; grind [Mode.lookahead]

/-- The tokens of a document. A byte order mark at its beginning is passed over. -/
def ofText? (text : String) : Option (List Token) :=
  match text.toList with
  | '\ufeff' :: cs => scan? .outside (foldLines cs)
  | cs => scan? .outside (foldLines cs)

end Token

end Regular.Toml
