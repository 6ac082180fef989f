import Regular.Compile

/-!
# Reports on many expressions

Each problem is an entry that says which expression it is about. A problem is shown with a
row of carets under the part of the text that is to blame, if it is about a part of the text.
-/

namespace Regular

inductive Severity where
  | warning
  | error
deriving DecidableEq, Repr

/-- A problem with the expression number `index`. -/
structure Report.Entry where
  severity : Severity
  description : String
  index : Nat
  span : Span
deriving DecidableEq, Repr

/-- The problems found, in the order in which they were found. -/
structure Report where
  entries : List Report.Entry
deriving DecidableEq, Repr

namespace Report

def empty : Report := ⟨[]⟩

def add (r : Report) (e : Entry) : Report := ⟨r.entries ++ [e]⟩

def isEmpty (r : Report) : Bool := r.entries.isEmpty

def hasErrors (r : Report) : Bool := r.entries.any (·.severity = .error)

/-- The problems of one expression. -/
def entriesFor (r : Report) (index : Nat) : List Entry := r.entries.filter (·.index = index)

end Report

/-! ## Batches -/

/-- The problems of one expression of a batch. -/
def Report.ofResult (index : Nat) (text : String) :
    Except CompileError Compiled → List Report.Entry
  | .ok c => c.defects.map fun d => ⟨.warning, d.message, index, .whole text.utf8ByteSize⟩
  | .error e => [⟨.error, e.summary, index, e.span text⟩]

/-- Compiles each of the texts, whether or not others fail. -/
def compileAllObserved (config : Config) (texts : List String) :
    Observed (List (Option Compiled) × Report) :=
  let runs := texts.zipIdx.map fun (text, index) => (text, index, compileObserved config text)
  { events := runs.flatMap fun (_, _, run) => run.events
    result :=
      (runs.map fun (_, _, run) => run.result.toOption,
        ⟨runs.flatMap fun (text, index, run) => Report.ofResult index text run.result⟩) }

def compileAll (config : Config) (texts : List String) : List (Option Compiled) × Report :=
  (compileAllObserved config texts).result

/-! ## Showing a problem -/

/-- A problem as it is shown: a heading, the part of the text that is to blame, if any, and a
description. -/
structure Diagnostic where
  kind : String
  summary : String
  span : Option Span
  description : String
deriving DecidableEq, Repr

namespace Diagnostic

/-- The number of characters that take up the first `n` bytes; `none` if a character lies
across the end of them, or there are fewer. -/
def charsIn? (n : Nat) : List Char → Option Nat
  | [] => if n = 0 then some 0 else none
  | c :: cs =>
    if n = 0 then some 0
    else if n < c.utf8Size then none
    else (charsIn? (n - c.utf8Size) cs).map (· + 1)

/-- The number of characters before the span; a span that does not begin between two
characters is put at the beginning. -/
def column (text : String) (s : Span) : Nat := (charsIn? s.first text.toList).getD 0

/-- The number of characters in the span, one where that is none or the span has no such
number. -/
def width (text : String) (s : Span) : Nat :=
  match charsIn? s.first text.toList, charsIn? (s.last + 1) text.toList with
  | some a, some b => max 1 (b - a)
  | _, _ => 1

/-- The text and a row of carets under the span. -/
def pointer (text : String) (s : Span) : String :=
  "  |" ++ text ++ "\n  |" ++ String.ofList (List.replicate (column text s) ' ') ++
    String.ofList (List.replicate (width text s) '^') ++ "\n"

def render (text : String) (d : Diagnostic) : String :=
  d.kind ++ ": " ++ d.summary ++ "!\n" ++ ((d.span.map (pointer text)).getD "") ++ ">" ++
    d.description ++ "\n"

end Diagnostic

/-- Too many states are no part's fault. -/
def CompileError.diagnostic (e : CompileError) : Diagnostic :=
  match e with
  | badSyntax e => ⟨"Syntax error", e.summary, some e.span, e.message⟩
  | tooManyStates _ => ⟨"State limit exceeded", e.summary, none, e.message⟩

/-- Warnings are about the automata, not about a part of the text. -/
def Report.Entry.diagnostic (e : Report.Entry) : Diagnostic :=
  let description := "in regex #" ++ toString e.index
  match e.severity with
  | .warning => ⟨"warning", e.description, none, description⟩
  | .error => ⟨"error", e.description, some e.span, description⟩

end Regular
