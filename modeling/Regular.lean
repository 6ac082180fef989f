import Regular.Toml.Document
import Regular.Invocation
import Regular.Main
import Regular.Proofs.Reachability
import Regular.Proofs.Nfa.Path
import Regular.Proofs.Language
import Regular.Proofs.Nfa.Walk
import Regular.Proofs.Nfa.Thompson
import Regular.Proofs.Nfa.Residual
import Regular.Proofs.Dfa.Subset
import Regular.Proofs.Dfa.Walk
import Regular.Proofs.Dfa.Numbering
import Regular.Proofs.Dfa.Canonical
import Regular.Proofs.Dfa.Blocks
import Regular.Proofs.Dfa.Refinement
import Regular.Proofs.Dfa.Minimal
import Regular.Proofs.Compile
import Regular.Proofs.Grammar
import Regular.Proofs.Parse.Fold
import Regular.Proofs.Parse.Desugar
import Regular.Proofs.Parse.Recognize
import Regular.Proofs.Lexeme
import Regular.Proofs.Parse.Scan
import Regular.Proofs.Parse
import Regular.Proofs.Repetition
import Regular.Proofs.Denotation
import Regular.Proofs.Dfa.Determinize
import Regular.Proofs.Dfa.Trim
import Regular.Proofs.Nfa.Trim
import Regular.Proofs.Validation
import Regular.Proofs.Cases
import Regular.Proofs.Parse.Depth
import Regular.Proofs.Parse.Print
import Regular.Proofs.Dfa.Code
import Regular.Proofs.Batch
import Regular.Proofs.Dfa.Merge
import Regular.Proofs.Dfa.Export
import Regular.Proofs.Parse.Blame
import Regular.Proofs.Dfa.Ceiling
import Regular.Proofs.Dfa.Origin
import Regular.Proofs.Dfa.Trace
import Regular.Proofs.Nfa.Shape
import Regular.Proofs.Dfa.Complete
import Regular.Proofs.Dfa.Sink
import Regular.Proofs.Dfa.Reduced
import Regular.Proofs.Dfa.Passes
import Regular.Proofs.Nfa.Agreement
import Regular.Proofs.Dfa.Agreement
import Regular.Proofs.Dfa.Reimport
import Regular.Proofs.Alphabet
import Regular.Proofs.CharClass
import Regular.Proofs.Parse.Tiling
import Regular.Proofs.Parse.Parenthesis
import Regular.Proofs.Parse.Stream
import Regular.Proofs.Parse.Location
import Regular.Proofs.Diagnostic
import Regular.Proofs.Dfa.RoundTrip
import Regular.Proofs.Parse.Spelling
import Regular.Proofs.Nfa.Closure
import Regular.Proofs.BreadthFirst
import Regular.Proofs.Parse.Operand
import Regular.Proofs.CharRange
