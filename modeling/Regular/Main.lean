import Regular.CommandLine

/-!
# The program

Reads the files that the arguments name, writes what the command line gives, and ends with
its code.
-/

namespace Regular

/-- The texts of those files that can be read. -/
def readFiles (files : List String) : IO (List (String × String)) :=
  files.filterMapM fun (file : String) => do
    try return some (file, ← IO.FS.readFile file)
    catch _ => return none

/-- The files that the command needs. -/
def CommandLine.filesOf (args : List String) : List String :=
  match parse? args with
  | some (.batch file, options) => file :: options.config.toList
  | some (.check _, options) => options.config.toList
  | none => []

/-- What is said on the error stream about an ending without output. -/
def CommandLine.Ending.complaint (e : Ending) : String :=
  if e.code = 2 then
    "usage: [-v] [-c FILE] [--max-states N | --no-limit] [--no-validate] [--show STAGE] " ++
      "check REGEX [STRING]... [-a STRING]... [-r STRING]... | batch FILE\n"
  else if e.output.isEmpty then "a file is missing or is not a valid suite\n"
  else ""

end Regular

def main (args : List String) : IO UInt32 := do
  let files ← Regular.readFiles (Regular.CommandLine.filesOf args)
  let ending := Regular.CommandLine.run (fun file => files.lookup file) args
  IO.print ending.output
  IO.eprint ending.complaint
  return ending.code.toUInt32
