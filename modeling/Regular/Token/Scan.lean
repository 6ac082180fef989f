import Regular.CharRange
import Regular.SortedSet
import Regular.SyntaxError

/-!
# From text to tokens

A backslash makes the next character a literal, a bracket opens a character class, the
operator signs are operators, and everything else is a literal. Spans count the bytes of the
encoded text.

Between its brackets a class lists items. Read greedily from the left, an item followed by an
unescaped dash and a further item is a range of characters; any other item is a single
member. The members stand for a group of alternatives in code point order, the empty string
last.
-/

namespace Regular

/-! ## Character classes -/

/-- One character of a class as it is written. -/
structure ClassItem where
  char : Char
  escaped : Bool
deriving DecidableEq, Repr

namespace ClassItem

/-- An escaped dash is a member like any other. -/
def isDash (i : ClassItem) : Bool := i.char == '-' && !i.escaped

/-- An escaped `ε` is a member like any other. -/
def isEpsilon (i : ClassItem) : Bool := i.char == epsilonSign && !i.escaped

end ClassItem

/-- What a class matches: one of some characters, and perhaps the empty string. -/
structure CharClass where
  members : SortedSet Char
  hasEpsilon : Bool
deriving DecidableEq

namespace CharClass

instance : EmptyCollection CharClass := ⟨∅, false⟩

/-- The characters from `low` to `high`. -/
def range (low high : Char) : Option (SortedSet Char) :=
  (CharRange.between? low high).map fun r => .ofList r.toList

/-- The class with one more item. -/
def addItem (i : ClassItem) (k : CharClass) : CharClass :=
  if i.isEpsilon then { k with hasEpsilon := true }
  else { k with members := k.members.insert i.char }

/-- Reads the items between the brackets. -/
def ofItems : List ClassItem → Except ClassFault CharClass
  | [] => .ok ∅
  | [i] => .ok (addItem i ∅)
  | [i, j] => .ok (addItem i (addItem j ∅))
  | low :: dash :: high :: rest =>
    if dash.isDash then
      if low.isEpsilon || high.isEpsilon then .error .epsilonBound
      else match range low.char high.char with
        | none => .error .reversedRange
        | some cs => do
          let k ← ofItems rest
          return { k with members := cs ∪ k.members }
    else do
      let k ← ofItems (dash :: high :: rest)
      return addItem low k

/-- The alternatives of the class, in code point order and the empty string last. -/
def alternatives (k : CharClass) : List TokenKind :=
  k.members.toList.map .literal ++ if k.hasEpsilon then [.epsilon] else []

/-- A class of one character is that character; any other is a group of alternatives. -/
def kinds (k : CharClass) : List TokenKind :=
  match k.alternatives with
  | [.literal c] => [.literal c]
  | alts => .openParen :: (alts.intersperse .union ++ [.closeParen])

/-- The tokens of the class that is written at `span`. -/
def tokens (span : Span) (items : List ClassItem) : Except SyntaxError (List Token) :=
  if items.isEmpty then .error (.malformedClass .empty span)
  else match ofItems items with
    | .error fault => .error (.malformedClass fault span)
    | .ok k => .ok (k.kinds.map (⟨·, span⟩))

end CharClass

/-! ## Texts -/

/-- A class whose closing bracket has not been reached: the span read so far, and the items
read so far in reverse. -/
structure OpenClass where
  span : Span
  items : List ClassItem
deriving DecidableEq, Repr

namespace OpenClass

/-- The class with one more item, which ends at byte `last`. -/
def add (k : OpenClass) (c : Char) (escaped : Bool) (last : Nat) : OpenClass :=
  ⟨{ k.span with last }, ⟨c, escaped⟩ :: k.items⟩

end OpenClass

/-- The kind of token that a character outside a class denotes by itself. -/
def TokenKind.ofChar (c : Char) : TokenKind :=
  if c = '(' then .openParen
  else if c = ')' then .closeParen
  else if c = '|' then .union
  else if c = '*' then .star
  else if c = '+' then .plus
  else if c = '?' then .question
  else if c = epsilonSign then .epsilon
  else .literal c

namespace Token

/-- Reads the characters from byte offset `pos` on, inside the given class if there is
one. -/
def scanFrom (pos : Nat) : Option OpenClass → List Char → Except SyntaxError (List Token)
  | none, [] => .ok []
  | none, '\\' :: [] => .error (.malformedExpression .danglingEscape (.byte pos))
  | none, '\\' :: c :: cs => do
    let rest ← scanFrom (pos + 1 + c.utf8Size) none cs
    return ⟨.literal c, ⟨pos, pos + c.utf8Size⟩⟩ :: rest
  | none, '[' :: cs => scanFrom (pos + 1) (some ⟨.byte pos, []⟩) cs
  | none, c :: cs => do
    let rest ← scanFrom (pos + c.utf8Size) none cs
    return ⟨.ofChar c, .ofChar pos c⟩ :: rest
  | some k, [] => .error (.malformedClass .unclosed k.span)
  | some k, '\\' :: [] => .error (.malformedClass .unclosed { k.span with last := pos })
  | some k, '\\' :: c :: cs =>
    scanFrom (pos + 1 + c.utf8Size) (some (k.add c true (pos + c.utf8Size))) cs
  | some k, ']' :: cs => do
    let ts ← CharClass.tokens { k.span with last := pos } k.items.reverse
    let rest ← scanFrom (pos + 1) none cs
    return ts ++ rest
  | some k, c :: cs =>
    scanFrom (pos + c.utf8Size) (some (k.add c false (pos + c.utf8Size - 1))) cs

/-- The tokens of a text. -/
def scan (text : String) : Except SyntaxError (List Token) := scanFrom 0 none text.toList

end Token

end Regular
