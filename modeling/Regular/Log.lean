import Regular.Compile

/-!
# Log records

What the stages report, as records of a log: how important it is, what happened, and named
values.
-/

namespace Regular

inductive Level where
  | trace
  | debug
  | info
deriving DecidableEq, Repr

structure LogRecord where
  level : Level
  message : String
  fields : List (String × String)
deriving DecidableEq, Repr

def Level.text : Level → String
  | trace => "TRACE"
  | debug => "DEBUG"
  | info => "INFO"

def Expr.Rule.text : Expr.Rule → String
  | literal c => "Literal(" ++ Text.quoteChar c ++ ")"
  | epsilon => "Epsilon"
  | concat => "Concat"
  | union => "Union"
  | star => "Star"

namespace LogRecord

def ofEvent : Event → LogRecord
  | .desugared ts => ⟨.debug, "desugared", [("tokens", Token.listText ts)]⟩
  | .reordered ts => ⟨.debug, "postfix", [("tokens", Token.listText ts)]⟩
  | .fragment rule start stop =>
    ⟨.trace, "nfa fragment",
      [("rule", rule.text), ("start", toString start), ("end", toString stop)]⟩
  | .subsetState id subset final =>
    ⟨.trace, "new dfa state",
      [("state", toString id), ("subset", subset.text), ("is_final", toString final)]⟩
  | .subsetMove source symbol target =>
    ⟨.trace, "dfa transition",
      [("from", toString source), ("symbol", Text.quoteChar symbol), ("to", toString target)]⟩
  | .pruned states => ⟨.debug, "pruned unreachable states", [("states", states.text)]⟩
  | .pass number blocks =>
    ⟨.debug, "refinement pass", [("pass", toString number), ("blocks", toString blocks)]⟩
  | .split block parts =>
    ⟨.trace, "block split",
      [("block", block.text), ("parts", " ".intercalate (parts.map IdSet.text))]⟩

def ofCompiled (c : Compiled) : LogRecord :=
  ⟨.debug, "compiled",
    [("regex", c.source), ("nfa_states", toString c.nfa.states.size),
      ("dfa_states", toString c.dfa.states.size),
      ("minimized_states", toString c.minimized.states.size)]⟩

end LogRecord

/-- The log of a compilation. -/
def Observed.log (o : Observed (Except CompileError Compiled)) : List LogRecord :=
  o.events.map LogRecord.ofEvent ++
    match o.result with
    | .ok c => [.ofCompiled c]
    | .error _ => []

end Regular
