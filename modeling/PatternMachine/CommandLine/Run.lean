import PatternMachine.CommandLine.Arguments
import PatternMachine.Regex.Find
import PatternMachine.Text.Lines

/-!
# Running a command line

A run shows the pattern's tree and program if asked to, and then reports on every text it searches.
What it writes depends on nothing but its arguments and its input. The exit status says whether
anything matched.
-/

namespace PatternMachine.CommandLine

/-- What a run writes to the two output streams. -/
structure Output where
  stdout : String := ""
  stderr : String := ""
deriving DecidableEq

/-- The whole effect of a run. -/
structure Result extends Output where
  exit : Nat
deriving DecidableEq

namespace Output

/-- Writes a line to the standard output. -/
def print (o : Output) (line : String) : Output :=
  { o with stdout := o.stdout ++ line ++ "\n" }

/-- Writes a line to the error output. -/
def printError (o : Output) (line : String) : Output :=
  { o with stderr := o.stderr ++ line ++ "\n" }

end Output

/-- What has been written, and whether a text has matched. -/
structure Report where
  output : Output := {}
  matched : Bool := false

namespace Report

/-- Searches `input` and reports the outcome. -/
def search (r : Regex) (report : Report) (input : String) : Report :=
  match r.find input with
  | .ok (some m) => {
      output := report.output.print <|
        input ++ " => match [" ++ toString m.start ++ ".." ++ toString m.stop ++ "] "
          ++ Text.quoteString m.text
      matched := true }
  | .ok none => { report with output := report.output.print (input ++ " => no match") }
  | .error e =>
    { report with output := report.output.printError (input ++ " => error: " ++ e.message) }

/-- Searches the lines of a stream, up to the first that is not valid UTF-8, and ends the run. -/
def searchLines (r : Regex) (report : Report) : List (Option String) → Result
  | [] => { report.output with exit := if report.matched then 0 else 1 }
  | some line :: lines => searchLines r (report.search r line) lines
  | none :: _ =>
    { report.output.printError "Error: stream did not contain valid UTF-8" with exit := 1 }

end Report

/-- Whether the run reads the texts to search from its input. -/
def readsInput (args : List String) : Bool :=
  match Arguments.ofList args with
  | .ok arguments => arguments.inputs.isEmpty
  | .error _ => false

/-- Shows what `a` asks to see of the pattern before the search. -/
def preamble (a : Arguments) (r : Regex) (tree : Pattern) : Output :=
  let shown : Output := {}
  let shown := if a.showTree then shown.print tree.render else shown
  if a.showProgram then { shown with stdout := shown.stdout ++ r.program.render } else shown

/-- Runs the arguments `a` with `input` on the standard input. -/
def search (a : Arguments) (input : ByteArray) : Result :=
  match Regex.ofString a.options a.pattern, Pattern.parse a.options.nestLimit a.pattern with
  | .ok r, .ok tree =>
    let texts := if a.inputs.isEmpty then Text.lines input else a.inputs.map some
    Report.searchLines r { output := preamble a r tree } texts
  | .error e, _ => { ({} : Output).printError ("Error: " ++ e.message) with exit := 1 }
  | .ok _, .error e => { ({} : Output).printError ("Error: " ++ e.message) with exit := 1 }

/-- The reminder shown on misuse. -/
def usage : String :=
  "Usage: vm_regex [OPTIONS] <PATTERN> [INPUTS]..."

/-- Runs the command line `args` with `input` on the standard input. -/
def run (args : List String) (input : ByteArray) : Result :=
  match Arguments.ofList args with
  | .ok arguments => search arguments input
  | .error .version => { ({} : Output).print "vm_regex 0.1.0" with exit := 0 }
  | .error .misuse => { ({} : Output).printError usage with exit := 2 }

end PatternMachine.CommandLine
