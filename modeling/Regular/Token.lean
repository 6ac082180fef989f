/-!
# Tokens of a regular expression

A token is a symbol to be matched, the sign for the empty string, an operator or a
parenthesis, together with the stretch of text it was read from. Tokens that the text does
not spell out, such as the alternatives of a character class, carry the span of the construct
they stand for.
-/

namespace Regular

/-! ## Spans

A span is a stretch of bytes of a text, given by the offsets of its first and its last byte.
Texts are UTF-8, so the span of one character has that character's encoded length. -/

/-- A stretch of bytes, both ends included. -/
structure Span where
  first : Nat
  last : Nat
deriving DecidableEq, Repr, Inhabited

namespace Span

/-- The span of the single byte at `pos`. -/
def byte (pos : Nat) : Span := ⟨pos, pos⟩

/-- The span of the character `c` at byte offset `pos`. -/
def ofChar (pos : Nat) (c : Char) : Span := ⟨pos, pos + c.utf8Size - 1⟩

/-- The whole of a text of `n` bytes; an empty text is given the span of a single byte. -/
def whole (n : Nat) : Span := ⟨0, n - 1⟩

/-- The least span that covers both. -/
def merge (a b : Span) : Span := ⟨min a.first b.first, max a.last b.last⟩

/-- The least span that covers all of the listed ones, the first byte for none. -/
def mergeAll : List Span → Span
  | [] => .byte 0
  | s :: ss => ss.foldl merge s

def size (s : Span) : Nat := s.last + 1 - s.first

/-- The same stretch in a text with `n` more bytes before it. -/
def shift (n : Nat) (s : Span) : Span := ⟨s.first + n, s.last + n⟩

/-- A single offset for a single byte, else both ends with two dots between them. -/
def text (s : Span) : String :=
  if s.first = s.last then toString s.first else toString s.first ++ ".." ++ toString s.last

end Span

/-! ## Tokens -/

/-- The sign that denotes the empty string. -/
def epsilonSign : Char := 'ε'

/-- The characters that denote something other than themselves. -/
def metachars : List Char := ['(', ')', '[', ']', '|', '*', '+', '?', '\\', epsilonSign]

def isMetachar (c : Char) : Bool := metachars.contains c

inductive TokenKind where
  | literal (c : Char)
  | epsilon
  | union
  | concat
  | star
  | plus
  | question
  | openParen
  | closeParen
deriving DecidableEq, Repr, Inhabited

namespace TokenKind

/-- The character that stands for the token, without escape. -/
def sign : TokenKind → Char
  | literal c => c
  | epsilon => epsilonSign
  | union => '|'
  | concat => '.'
  | star => '*'
  | plus => '+'
  | question => '?'
  | openParen => '('
  | closeParen => ')'

/-- How tightly an operator binds. -/
def precedence : TokenKind → Nat
  | star | plus | question => 4
  | concat => 3
  | union => 2
  | openParen => 1
  | _ => 0

/-- May an operand be complete once this token is read? -/
def endsOperand : TokenKind → Bool
  | union | openParen => false
  | _ => true

/-- May an operand begin with this token? -/
def startsOperand : TokenKind → Bool
  | union | closeParen | star | plus | question => false
  | _ => true

/-- A literal or the empty string: an operand by itself. -/
def isAtom : TokenKind → Bool
  | literal _ | epsilon => true
  | _ => false

/-- The token as it is written in a text; a literal that would mean something else is
escaped. -/
def spelling : TokenKind → List Char
  | literal c => if isMetachar c then ['\\', c] else [c]
  | k => [k.sign]

end TokenKind

structure Token where
  kind : TokenKind
  span : Span
deriving DecidableEq, Repr, Inhabited

namespace Token

def text (t : Token) : String := String.ofList t.kind.spelling

/-- The least span that covers all of the tokens. -/
def spanOf (ts : List Token) : Span := .mergeAll (ts.map (·.span))

/-- The tokens with a space between them. -/
def listText (ts : List Token) : String := " ".intercalate (ts.map text)

end Token

end Regular
