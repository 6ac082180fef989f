import Regular.SortedSet
import Regular.Token

/-!
# Regular expressions

`Expr` is the tree of a regular expression. It is printed with as few parentheses as its
shape allows: a union binds more weakly than a concatenation, and that more weakly than a
star, and both binary operators lean to the left.
-/

namespace Regular

/-- A regular expression. -/
inductive Expr where
  /-- One given character. -/
  | literal (c : Char)
  /-- The empty string. -/
  | epsilon
  /-- A match of `l` followed by a match of `r`. -/
  | concat (l r : Expr)
  /-- A match of `l` or a match of `r`. -/
  | union (l r : Expr)
  /-- Any number of matches of `e`, one after the other. -/
  | star (e : Expr)
deriving DecidableEq, Repr, Inhabited

namespace Expr

/-- One or more matches. -/
def plus (e : Expr) : Expr := concat e (star e)

/-- A match or the empty string. -/
def optional (e : Expr) : Expr := union e epsilon

/-- The given characters one after the other. -/
def ofChars : List Char → Expr
  | [] => epsilon
  | c :: cs => cs.foldl (fun e d => concat e (literal d)) (literal c)

/-! ## Measures -/

def nodeCount : Expr → Nat
  | literal _ | epsilon => 1
  | concat l r | union l r => l.nodeCount + r.nodeCount + 1
  | star e => e.nodeCount + 1

/-- The number of nodes on the longest way from the root to a leaf. -/
def depth : Expr → Nat
  | literal _ | epsilon => 1
  | concat l r | union l r => max l.depth r.depth + 1
  | star e => e.depth + 1

/-- The characters that occur. -/
def alphabet : Expr → SortedSet Char
  | literal c => .singleton c
  | epsilon => ∅
  | concat l r | union l r => l.alphabet ∪ r.alphabet
  | star e => e.alphabet

/-! ## Nodes in postorder -/

/-- How a node is put together from its children, of which it has none, one or two. -/
inductive Rule where
  | literal (c : Char)
  | epsilon
  | concat
  | union
  | star
deriving DecidableEq, Repr

/-- The rules of the nodes, each after those of its children and left children first, before
the rules in `after`. -/
def rulesOnto (after : List Rule) : Expr → List Rule
  | literal c => .literal c :: after
  | epsilon => .epsilon :: after
  | concat l r => l.rulesOnto (r.rulesOnto (.concat :: after))
  | union l r => l.rulesOnto (r.rulesOnto (.union :: after))
  | star e => e.rulesOnto (.star :: after)

/-- The rules of all nodes in postorder. -/
def rules (e : Expr) : List Rule := e.rulesOnto []

/-! ## Text -/

/-- How tightly the outermost operator binds. -/
def binding : Expr → Nat
  | union _ _ => 0
  | concat _ _ => 1
  | star _ => 2
  | literal _ | epsilon => 3

/-- The tokens between parentheses, where asked for. -/
def parenthesize (p : Bool) (ks : List TokenKind) : List TokenKind :=
  if p then .openParen :: (ks ++ [.closeParen]) else ks

/-- The tokens as which the expression is written; concatenation needs no token. -/
def kinds : Expr → List TokenKind
  | literal c => [.literal c]
  | epsilon => [.epsilon]
  | concat l r => parenthesize (l.binding < 1) l.kinds ++ parenthesize (r.binding < 2) r.kinds
  | union l r => parenthesize false l.kinds ++ .union :: parenthesize (r.binding < 1) r.kinds
  | star e => parenthesize (e.binding < 3) e.kinds ++ [.star]

def text (e : Expr) : String := String.ofList (e.kinds.flatMap TokenKind.spelling)

end Expr

end Regular
