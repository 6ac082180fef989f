import Regular.Event
import Regular.Token.Desugar
import Regular.Token.Scan

/-!
# From text to tree

Reading a regular expression goes through its tokens, the tokens with repetition and option
written out, those with explicit concatenation, and their postfix order.

In postfix order every operator stands behind its operands and parentheses are not needed.
`Postfix.ofTokens` brings tokens into that order with a stack of pending operators, and
`Postfix.toExpr` folds the result into a tree with a stack of operands. `Postfix.checkDepth`
follows the second of these on depths alone, so that a tree that is too deep need not be
built.
-/

namespace Regular

namespace Postfix

/-! ## From written order -/

def isOpen (t : Token) : Bool := t.kind == .openParen

/-- Must the pending operator `top` be applied before `t` is read? -/
def yieldsTo (t top : Token) : Bool :=
  !isOpen top && t.kind.precedence ≤ top.kind.precedence

/-- Reorders the tokens, given the operators that wait for their right operand, the last one
first. A parenthesis waits among them until it is closed. -/
def reorder (pending : List Token) : List Token → Except SyntaxError (List Token)
  | [] =>
    match pending.find? isOpen with
    | some t => .error (.unbalancedParenthesis t.span)
    | none => .ok pending
  | t :: ts =>
    if t.kind.isAtom then do return t :: (← reorder pending ts)
    else match t.kind with
    | .openParen => reorder (t :: pending) ts
    | .closeParen =>
      match pending.dropWhile (!isOpen ·) with
      | [] => .error (.unbalancedParenthesis t.span)
      | _ :: below => do return pending.takeWhile (!isOpen ·) ++ (← reorder below ts)
    | _ => do
      let rest ← reorder (t :: pending.dropWhile (yieldsTo t)) ts
      return pending.takeWhile (yieldsTo t) ++ rest

/-- The tokens in postfix order. -/
def ofTokens (ts : List Token) : Except SyntaxError (List Token) := reorder [] ts

/-! ## Depth -/

/-- The depths of the operands on the stack after one more token; a missing operand counts as
nothing. Parentheses are passed over. -/
def depthsAfter (depths : List Nat) : TokenKind → List Nat
  | .literal _ | .epsilon => 1 :: depths
  | .star | .question => (depths.headD 0 + 1) :: depths.tail
  | .plus => (depths.headD 0 + 2) :: depths.tail
  | .concat | .union => (max (depths.tail.headD 0) (depths.headD 0) + 1) :: depths.tail.tail
  | .openParen | .closeParen => depths

/-- Fails at the first token whose tree would be more than `limit` levels deep. -/
def checkDepthFrom (limit : Nat) (depths : List Nat) : List Token → Except SyntaxError Unit
  | [] => .ok ()
  | t :: ts =>
    let depths' := depthsAfter depths t.kind
    if t.kind ≠ .openParen ∧ t.kind ≠ .closeParen ∧ limit < depths'.headD 0 then
      .error (.malformedExpression .tooDeep t.span)
    else checkDepthFrom limit depths' ts

/-- Fails when the tree of the stream would be more than `limit` levels deep. -/
def checkDepth (limit : Nat) (ts : List Token) : Except SyntaxError Unit :=
  checkDepthFrom limit [] ts

/-! ## To a tree -/

/-- The error of an operator that finds too few operands. A concatenation is not written, so
its error does not name it but puts it down to an empty group. That is what the message
assumes; other gaps can have the same effect, as the one before the bar in `a(|b)`. -/
def lacksOperand (t : Token) : SyntaxError :=
  if t.kind = .concat then .malformedExpression .emptyGroup t.span
  else .missingOperand t.kind.sign t.span

/-- Replaces the last operand. -/
def applyUnary (t : Token) (f : Expr → Expr) : List Expr → Except SyntaxError (List Expr)
  | e :: es => .ok (f e :: es)
  | [] => .error (lacksOperand t)

/-- Replaces the last two operands. -/
def applyBinary (t : Token) (f : Expr → Expr → Expr) : List Expr → Except SyntaxError (List Expr)
  | r :: l :: es => .ok (f l r :: es)
  | _ => .error (lacksOperand t)

/-- The operands on the stack after one more token. -/
def operandsAfter (operands : List Expr) (t : Token) : Except SyntaxError (List Expr) :=
  match t.kind with
  | .literal c => .ok (.literal c :: operands)
  | .epsilon => .ok (.epsilon :: operands)
  | .star => applyUnary t .star operands
  | .plus => applyUnary t .plus operands
  | .question => applyUnary t .optional operands
  | .concat => applyBinary t .concat operands
  | .union => applyBinary t .union operands
  | .openParen | .closeParen => .error (.unbalancedParenthesis t.span)

/-- The tree of the stream. -/
def toExpr (ts : List Token) : Except SyntaxError Expr := do
  match ← ts.foldlM operandsAfter [] with
  | [e] => return e
  | [] => .error (.malformedExpression .emptyExpression (Token.spanOf ts))
  | _ => .error (.malformedExpression .unjoinedOperands (Token.spanOf ts))

end Postfix

/-! ## Parsing -/

namespace Expr

/-- The deepest tree that is accepted where nothing else is said. -/
def defaultMaxDepth : Nat := 2000

/-- The tree of a text, unless it is more than `limit` levels deep, where `none` is no
limit. -/
def parseObserved (limit : Option Nat) (text : String) : Observed (Except SyntaxError Expr) :=
  match Token.scan text >>= Token.desugar with
  | .error e => ⟨[], .error e⟩
  | .ok written =>
    match Postfix.ofTokens (Token.joinOperands written) with
    | .error e => ⟨[.desugared written], .error e⟩
    | .ok stream =>
      { events := [.desugared written, .reordered stream]
        result :=
          match limit with
          | none => Postfix.toExpr stream
          | some n => do Postfix.checkDepth n stream; Postfix.toExpr stream }

def parseWithLimit (limit : Option Nat) (text : String) : Except SyntaxError Expr :=
  (parseObserved limit text).result

def parse (text : String) : Except SyntaxError Expr := parseWithLimit (some defaultMaxDepth) text

end Expr

end Regular
