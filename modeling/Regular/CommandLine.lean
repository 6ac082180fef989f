import Regular.Cases
import Regular.Toml.Document

/-!
# The command line

`check` runs a single case that the arguments give, `batch` runs the cases of a file. Options
may stand before or behind the name of the command; one that stands on both sides counts as
it is given behind it, and what is not allowed twice is allowed once on each side.
-/

namespace Regular.CommandLine

/-! ## Options -/

inductive Stage where
  | nfa
  | dfa
  | minimized
  | all
deriving DecidableEq, Repr

/-- The options of one side of the command, as far as they are given. -/
structure Options where
  config : Option String := none
  maxStates : Option Nat := none
  noLimit : Bool := false
  noValidate : Bool := false
  shown : List Stage := []
  accept : List String := []
  reject : List String := []
deriving DecidableEq, Repr

/-- An option that takes a value. -/
inductive ValueOption where
  | config
  | maxStates
  | shown
  | accept
  | reject
deriving DecidableEq, Repr

/-- An option that takes none. -/
inductive Flag where
  | verbose
  | noLimit
  | noValidate
deriving DecidableEq, Repr

/-- What a name of an option stands for. -/
inductive OptionName where
  | value (o : ValueOption)
  | flag (f : Flag)
deriving DecidableEq, Repr

/-- The meaning of a long name; `check` tells whether the options of that command are
known. -/
def longName? (check : Bool) : String → Option OptionName
  | "config" => some (.value .config)
  | "max-states" => some (.value .maxStates)
  | "show" => some (.value .shown)
  | "verbose" => some (.flag .verbose)
  | "no-limit" => some (.flag .noLimit)
  | "no-validate" => some (.flag .noValidate)
  | "accept" => if check then some (.value .accept) else none
  | "reject" => if check then some (.value .reject) else none
  | _ => none

/-- The meaning of a short name. -/
def shortName? (check : Bool) : Char → Option OptionName
  | 'c' => some (.value .config)
  | 'v' => some (.flag .verbose)
  | 'a' => if check then some (.value .accept) else none
  | 'r' => if check then some (.value .reject) else none
  | _ => none

/-- A natural number of 64 bits, perhaps with a plus sign. -/
def natural? (s : String) : Option Nat :=
  let digits := match s.toList with
    | '+' :: cs => cs
    | cs => cs
  if digits.isEmpty || digits.any (!·.isDigit) then none
  else
    let n := Text.ofDigitValues 10 (digits.filterMap Text.hexValue?)
    if n < UInt64.size then some n else none

def stage? : String → Option Stage
  | "nfa" => some .nfa
  | "dfa" => some .dfa
  | "minimized" => some .minimized
  | "all" => some .all
  | _ => none

namespace Options

/-- Gives an option a value. -/
def setValue? (o : Options) (name : ValueOption) (value : String) : Option Options :=
  match name with
  | .config =>
    if o.config.isSome || value.isEmpty then none else some { o with config := some value }
  | .maxStates =>
    if o.maxStates.isSome then none
    else (natural? value).map fun n => { o with maxStates := some n }
  | .shown => (stage? value).map fun s => { o with shown := o.shown ++ [s] }
  | .accept => some { o with accept := o.accept ++ [value] }
  | .reject => some { o with reject := o.reject ++ [value] }

/-- Sets a flag. Only the one that asks for more log lines may be repeated. -/
def setFlag? (o : Options) : Flag → Option Options
  | .verbose => some o
  | .noLimit => if o.noLimit then none else some { o with noLimit := true }
  | .noValidate => if o.noValidate then none else some { o with noValidate := true }

/-- May the options be given together? -/
def compatible (o : Options) : Bool := !(o.noLimit && o.maxStates.isSome)

/-- The options before and behind the name of the command taken together. -/
def merge (before behind : Options) : Options where
  config := behind.config <|> before.config
  maxStates := behind.maxStates <|> before.maxStates
  noLimit := before.noLimit || behind.noLimit
  noValidate := before.noValidate || behind.noValidate
  shown := if behind.shown.isEmpty then before.shown else behind.shown
  accept := behind.accept
  reject := behind.reject

end Options

/-! ## Arguments -/

/-- The options of a cluster of short names, and the one at its end that still needs a
value. -/
def readCluster? (check : Bool) (o : Options) :
    List Char → Option (Options × Option ValueOption)
  | [] => some (o, none)
  | c :: cs =>
    match shortName? check c, cs with
    | some (.flag f), cs => do readCluster? check (← o.setFlag? f) cs
    | some (.value v), [] => some (o, some v)
    | some (.value v), '=' :: cs => (o.setValue? v (String.ofList cs)).map (·, none)
    | some (.value v), cs => (o.setValue? v (String.ofList cs)).map (·, none)
    | none, _ => none

/-- The option of a long name, perhaps with its value behind an equals sign. -/
def readLong? (check : Bool) (o : Options) (cs : List Char) :
    Option (Options × Option ValueOption) := do
  let name := cs.takeWhile (· ≠ '=')
  match ← longName? check (String.ofList name), cs.drop name.length with
  | .flag f, [] => return (← o.setFlag? f, none)
  | .flag _, _ => none
  | .value v, [] => return (o, some v)
  | .value v, _ :: value => return (← o.setValue? v (String.ofList value), none)

/-- An argument that is an option: what it sets, and the option that still needs a value.
`none` inside tells that the argument is no option. -/
def readOption? (check : Bool) (o : Options) (arg : String) :
    Option (Option (Options × Option ValueOption)) :=
  match arg.toList with
  | '-' :: '-' :: cs => (readLong? check o cs).map some
  | '-' :: c :: cs => (readCluster? check o (c :: cs)).map some
  | _ => some none

/-- Does the argument look like an option, so that it is not taken for a value? -/
def looksLikeOption (arg : String) : Bool :=
  match arg.toList with
  | '-' :: _ :: _ => true
  | _ => false

/-- The options among the arguments, and the other ones. Behind two dashes all are other
ones. With `stopAtOther` the first other argument ends the options, and what follows it is
left. -/
def readArguments? (check stopAtOther : Bool) (o : Options) :
    List String → Option (Options × List String)
  | [] => some (o, [])
  | "--" :: args => if stopAtOther && !args.isEmpty then none else some (o, args)
  | arg :: args =>
    match readOption? check o arg, args with
    | none, _ => none
    | some none, args =>
      if stopAtOther then some (o, arg :: args)
      else (readArguments? check stopAtOther o args).map fun (o, others) => (o, arg :: others)
    | some (some (o, none)), args => readArguments? check stopAtOther o args
    | some (some (o, some v)), value :: args =>
      if looksLikeOption value then none
      else do readArguments? check stopAtOther (← o.setValue? v value) args
    | some (some (_, some _)), [] => none

/-! ## Commands -/

inductive Command where
  | check (c : Case)
  | batch (file : String)
deriving DecidableEq, Repr

/-- The options before and behind a command, which must each be compatible, and their
merge. -/
def mergeOptions? (before behind : Options) : Option Options :=
  if before.compatible && behind.compatible then some (before.merge behind) else none

/-- The command that the arguments give and its options; `none` where the arguments are not
used as they should be. -/
def parse? (args : List String) : Option (Command × Options) := do
  let (before, args) ← readArguments? false true {} args
  match args with
  | "check" :: args =>
    let (behind, args) ← readArguments? true false {} args
    let regex :: probe := args | none
    let options ← mergeOptions? before behind
    return (.check ⟨regex, options.accept, options.reject, probe⟩, options)
  | "batch" :: args =>
    let (behind, args) ← readArguments? false false {} args
    let [file] := args | none
    if file.isEmpty then none else return (.batch file, ← mergeOptions? before behind)
  | _ => none

/-! ## Running -/

/-- What is written, and the number with which the program ends. -/
structure Ending where
  code : Nat
  output : String
deriving DecidableEq, Repr

/-- Which automata the stages ask for. -/
def shownOf (stages : List Stage) : Shown :=
  let asked (s : Stage) : Bool := stages.contains .all || stages.contains s
  ⟨asked .nfa, asked .dfa, asked .minimized⟩

/-- The settings with the options for compiling. -/
def Options.adjust (o : Options) (config : Config) : Config :=
  let limited := match o.maxStates with
    | some n => { config with maxDfaStates := if n = 0 then none else some n }
    | none => config
  let unlimited := if o.noLimit then { limited with maxDfaStates := none } else limited
  if o.noValidate then { unlimited with validate := false } else unlimited

/-- Reads a suite from the text of a file, which may be missing. -/
def loadSuite? (read : String → Option String) (file : String) : Option Suite :=
  read file >>= Toml.parse? >>= Suite.ofSetting?

/-- The suite of a command. A file of settings takes the place of those in a file of
cases. -/
def suite? (read : String → Option String) (command : Command) (config : Option String) :
    Option Suite := do
  let given ← match config with
    | some file => (loadSuite? read file).map some
    | none => some none
  match command with
  | .check c => return { config := (given.map (·.config)).getD {}, cases := [c] }
  | .batch file =>
    let suite ← loadSuite? read file
    return { suite with config := (given.map (·.config)).getD suite.config }

/-- Runs the program with the given arguments, where `read` gives the text of a file. -/
def run (read : String → Option String) (args : List String) : Ending :=
  match parse? args with
  | none => ⟨2, ""⟩
  | some (command, options) =>
    match suite? read command options.config with
    | none => ⟨1, ""⟩
    | some suite =>
      let adjusted := { suite with config := options.adjust suite.config }
      let written := adjusted.run (shownOf options.shown)
      ⟨if written.result.all (·.passed) then 0 else 1, written.output⟩

end Regular.CommandLine
