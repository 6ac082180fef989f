import Regular.SyntaxError

/-!
# Repetition, option and concatenation written out

Two steps prepare the tokens of a text for being brought into postfix order. `Token.desugar`
writes `E+` as `EE*` and `E?` as `(E|ε)`; for that it finds the operand of the sign. Then
`Token.joinOperands` makes concatenation explicit.
-/

namespace Regular.Token

/-! ## The operand before an operator

An operator that follows its operand applies to the shortest one that ends there: an atom or
a balanced group, with the stars behind it. The search goes backwards, so it takes the tokens
before the operator in reverse. -/

def isStar (t : Token) : Bool := t.kind == .star

/-- The error of an operator that finds no operand. -/
def missingOperand (op : Token) : SyntaxError := .missingOperand op.kind.sign op.span

/-- The number of tokens up to the one that opens the outermost of `depth` groups, going
backwards from inside of them. -/
def groupLength (depth : Nat) : List Token → Option Nat
  | [] => none
  | t :: ts =>
    match t.kind with
    | .closeParen => (groupLength (depth + 1) ts).map (· + 1)
    | .openParen => if depth ≤ 1 then some 1 else (groupLength (depth - 1) ts).map (· + 1)
    | _ => (groupLength depth ts).map (· + 1)

/-- The number of tokens of the operand of `op`, where `before` lists the tokens before `op`
in reverse. -/
def operandLength (op : Token) (before : List Token) : Except SyntaxError Nat :=
  let stars := (before.takeWhile isStar).length
  match before.dropWhile isStar with
  | [] => .error op.missingOperand
  | t :: ts =>
    if t.kind.isAtom then .ok (stars + 1)
    else match t.kind with
    | .closeParen =>
      match groupLength 1 ts with
      | some n => .ok (stars + 1 + n)
      | none => .error (.unbalancedParenthesis t.span)
    | _ => .error op.missingOperand

/-- The index at which the operand of `op` begins, when `op` stands behind the first `last`
tokens. -/
def operandStart (ts : List Token) (last : Nat) (op : Token) : Except SyntaxError Nat :=
  (operandLength op (ts.take last).reverse).map (last - ·)

/-! ## Repetition and option

Tokens that are added take the span of the operator that they replace; copied ones keep
theirs. -/

/-- Adds `t` behind the tokens read so far, which are listed in reverse. -/
def desugarStep (before : List Token) (t : Token) : Except SyntaxError (List Token) :=
  match t.kind with
  | .question => do
    let n ← operandLength t before
    return ⟨.closeParen, t.span⟩ :: ⟨.epsilon, t.span⟩ :: ⟨.union, t.span⟩ ::
      (before.take n ++ ⟨.openParen, t.span⟩ :: before.drop n)
  | .plus => do
    let n ← operandLength t before
    return ⟨.star, t.span⟩ :: (before.take n ++ before)
  | _ => .ok (t :: before)

/-- The tokens without `+` and `?`. -/
def desugar (ts : List Token) : Except SyntaxError (List Token) := do
  let back ← ts.foldlM desugarStep []
  return back.reverse

/-! ## Concatenation

Where one operand may end and the next begins, a concatenation sign is put between the two
tokens. It stands at the first byte of the second token. -/

/-- The tokens with the concatenation signs between operands. -/
def joinOperands : List Token → List Token
  | a :: b :: ts =>
    if a.kind.endsOperand && b.kind.startsOperand then
      a :: ⟨.concat, .byte b.span.first⟩ :: joinOperands (b :: ts)
    else a :: joinOperands (b :: ts)
  | ts => ts

end Regular.Token
