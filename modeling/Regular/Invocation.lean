import Regular.Compile
import Regular.Invocation.Token

/-!
# Invocations

An invocation asks for the minimal automaton of an expression to be built into a program: it
gives the expression as a string literal, and then perhaps the largest number of states. It
expands to code that builds the automaton from its table, or to code that fails with the
error.
-/

namespace Regular

/-- A limit as it is written. -/
inductive Invocation.Limit where
  | natural (n : Nat)
  /-- An integer with a minus sign. -/
  | negative
deriving DecidableEq, Repr

/-- An expression, and the limit on the number of states that is given last. -/
structure Invocation where
  regex : String
  limit : Option Invocation.Limit
deriving DecidableEq, Repr

namespace Invocation

/-- Why a text is no invocation. -/
inductive ParseError where
  | badToken
  /-- The first token is no string literal, or there is none. -/
  | noText (atEnd : Bool)
  /-- Something other than a comma follows a complete part. -/
  | unexpectedToken
  | noOptionName
  | noEqualsSign
  /-- The value of an option is no integer, or missing. -/
  | noInteger (atEnd : Bool)
  | unknownOption (name : String)
deriving DecidableEq, Repr

/-- A message that something was expected, where the end of the text is told apart. -/
def ParseError.expected (what : String) (atEnd : Bool) : String :=
  (if atEnd then "unexpected end of input, " else "") ++ "expected " ++ what

def ParseError.message : ParseError → String
  | badToken => "lex error"
  | noText atEnd => expected "string literal" atEnd
  | unexpectedToken => "unexpected token"
  | noOptionName => expected "identifier" false
  | noEqualsSign => expected "\x60=\x60" false
  | noInteger atEnd => expected "integer literal" atEnd
  | unknownOption name => "Unknown option " ++ name

/-- The words that cannot name an option. -/
def reservedWords : List String :=
  ["_", "abstract", "as", "become", "box", "break", "const", "continue", "crate", "do", "else",
    "enum", "extern", "false", "final", "fn", "for", "if", "impl", "in", "let", "loop", "macro",
    "match", "mod", "move", "mut", "override", "priv", "pub", "ref", "return", "Self", "self",
    "static", "struct", "super", "trait", "true", "type", "typeof", "unsafe", "unsized", "use",
    "virtual", "where", "while", "yield"]

/-! ## Reading -/

/-- Reads the options behind an expression. -/
def parseOptions (limit : Option Limit) : List Token → Except ParseError (Option Limit)
  | [] => .ok limit
  | [.sign ','] => .ok limit
  | .sign ',' :: .word name :: rest =>
    if reservedWords.contains name then .error .noOptionName
    else
      match rest with
      | .sign '=' :: rest =>
        if name = "max_states" then
          match rest with
          | .integer n :: rest => parseOptions (some (.natural n)) rest
          | .sign '-' :: .integer _ :: rest => parseOptions (some .negative) rest
          | rest => .error (.noInteger rest.isEmpty)
        else .error (.unknownOption name)
      | _ => .error .noEqualsSign
  | .sign ',' :: _ => .error .noOptionName
  | _ => .error .unexpectedToken

def parse (text : String) : Except ParseError Invocation :=
  match Token.ofText? text with
  | none => .error .badToken
  | some (.text regex :: rest) => (parseOptions none rest).map (⟨regex, ·⟩)
  | some ts => .error (.noText ts.isEmpty)

/-! ## Expansion -/

/-- A string as a literal of the code. -/
def stringCode (s : String) : String := Text.quote s

/-- The settings that the invocation asks for; `error` tells what is wrong with the limit. -/
def config (i : Invocation) : Except String Config :=
  let default : Config := {}
  match i.limit with
  | none => .ok default
  | some .negative => .error "invalid digit found in string"
  | some (.natural n) =>
    if UInt64.size ≤ n then .error "number too large to fit in target type"
    else .ok { default with maxDfaStates := if n = 0 then none else some n }

/-- Code that makes the surrounding program fail to compile, once for each defect. -/
def defectsCode (defects : List Defect) : String :=
  let line (d : Defect) : String := "compile_error ! (" ++ stringCode d.message ++ ") ; "
  "\x7b " ++ String.join (defects.map line) ++ "unimplemented ! () \x7d"

/-- The code to which the invocation expands. -/
def code (i : Invocation) : String :=
  match i.config with
  | .error message => "compile_error ! \x7b " ++ stringCode message ++ " \x7d"
  | .ok config =>
    match compile config i.regex with
    | .error e =>
      let message := e.summary ++ " (at " ++ (e.span i.regex).text ++ ")"
      "compile_error ! (" ++ stringCode message ++ ")"
    | .ok c =>
      if c.defects.isEmpty then c.minimized.toTable.code "kleene_automata"
      else defectsCode c.defects

end Invocation

end Regular
