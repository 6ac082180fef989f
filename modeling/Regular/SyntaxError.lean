import Regular.Token

/-!
# What can be wrong with a regular expression

Each error names its cause and the stretch of text that is to blame.
-/

namespace Regular

/-- What can be wrong with a character class. -/
inductive ClassFault where
  /-- The text ends before the closing bracket. -/
  | unclosed
  /-- There is nothing between the brackets. -/
  | empty
  /-- The sign for the empty string stands at an end of a range. -/
  | epsilonBound
  /-- The first character of a range comes after its last one. -/
  | reversedRange
deriving DecidableEq, Repr

/-- What can be wrong with an expression as a whole. -/
inductive ExpressionFault where
  /-- The text ends with a backslash that escapes nothing. -/
  | danglingEscape
  /-- A concatenation lacks an operand, as it does where a group is empty. -/
  | emptyGroup
  /-- There is nothing to be matched. -/
  | emptyExpression
  /-- Some operands are joined by no operator. -/
  | unjoinedOperands
  /-- The expression is nested more deeply than allowed. -/
  | tooDeep
deriving DecidableEq, Repr

inductive SyntaxError where
  | unbalancedParenthesis (span : Span)
  | missingOperand (operator : Char) (span : Span)
  | malformedClass (fault : ClassFault) (span : Span)
  | malformedExpression (fault : ExpressionFault) (span : Span)
deriving DecidableEq, Repr

namespace ClassFault

def reason : ClassFault → String
  | unclosed => "missing ]"
  | empty => "empty class"
  | epsilonBound => "epsilon cannot bound a range"
  | reversedRange => "reversed range"

end ClassFault

namespace ExpressionFault

def reason : ExpressionFault → String
  | danglingEscape => "dangling escape"
  | emptyGroup => "empty group"
  | emptyExpression => "empty expression"
  | unjoinedOperands => "operands left without operator"
  | tooDeep => "expression too deep"

end ExpressionFault

namespace SyntaxError

/-- The stretch of text that is to blame. -/
def span : SyntaxError → Span
  | unbalancedParenthesis s => s
  | missingOperand _ s => s
  | malformedClass _ s => s
  | malformedExpression _ s => s

/-- What is wrong and where. -/
def message : SyntaxError → String
  | unbalancedParenthesis s => "unbalanced parenthesis at " ++ s.text
  | missingOperand op s =>
    "operator '" ++ op.toString ++ "' at " ++ s.text ++ " is missing an operand"
  | malformedClass f s => "malformed character class at " ++ s.text ++ ": " ++ f.reason
  | malformedExpression f s => "malformed expression at " ++ s.text ++ ": " ++ f.reason

/-- What is wrong, without the place. -/
def summary : SyntaxError → String
  | unbalancedParenthesis _ => "Unbalanced parenthesis"
  | missingOperand op _ => "Missing operand for " ++ op.toString
  | malformedClass f _ => "Malformed class, " ++ f.reason
  | malformedExpression f _ => "Malformed expression, " ++ f.reason

/-- The same error in a text with `n` more bytes before it. -/
def shift (n : Nat) : SyntaxError → SyntaxError
  | unbalancedParenthesis s => unbalancedParenthesis (s.shift n)
  | missingOperand op s => missingOperand op (s.shift n)
  | malformedClass f s => malformedClass f (s.shift n)
  | malformedExpression f s => malformedExpression f (s.shift n)

end SyntaxError

end Regular
