import PatternMachine.Regex.Build
import PatternMachine.Text.Numeral

/-!
# Command-line arguments

Arguments are read from left to right. Those that start with a minus sign are options, `-` alone
and everything behind `--` excepted; an option that takes a value finds it behind an equals sign or
in the next argument. The first positional argument is the pattern and the others are the texts to
search. Reading stops at the first mistake, and at a request for the version.
-/

namespace PatternMachine.CommandLine

/-- What to search for, where, and what to show before. -/
structure Arguments where
  pattern : String
  inputs : List String
  showTree : Bool
  showProgram : Bool
  options : Options

/-- Why the arguments are not read to their end. -/
inductive Interruption where
  /-- The version is to be shown. -/
  | version
  /-- An argument is unknown, repeated, incomplete or missing. -/
  | misuse
deriving DecidableEq

/-- The options that take a number. -/
inductive Setting where
  | nestLimit
  | threadLimit
deriving DecidableEq

/-- How the next argument is to be taken. -/
inductive Mode where
  /-- As an option or a positional argument. -/
  | free
  /-- As the value of an option. -/
  | value (setting : Setting)
  /-- As a positional argument. -/
  | positional
deriving DecidableEq

/-- What has been read of the arguments. -/
structure Progress where
  mode : Mode := .free
  showTree : Bool := false
  showProgram : Bool := false
  unshortened : Bool := false
  nestLimit : Option UInt32 := none
  threadLimit : Option Nat := none
  /-- The positional arguments, the latest first. -/
  positionals : List String := []

namespace Progress

/-- Takes a positional argument. -/
def addPositional (p : Progress) (arg : String) : Progress :=
  { p with positionals := arg :: p.positionals }

/-- Sets a number, which has to be in range, at most once. -/
def assign (p : Progress) (setting : Setting) (numeral : List Char) :
    Except Interruption Progress :=
  match setting with
  | .nestLimit =>
    match p.nestLimit, Text.integer? numeral with
    | none, some n =>
      if 0 ≤ n && n.toNat < UInt32.size then
        .ok { p with mode := .free, nestLimit := some (UInt32.ofNat n.toNat) }
      else .error .misuse
    | _, _ => .error .misuse
  | .threadLimit =>
    match p.threadLimit, Text.natural? numeral with
    | none, some n =>
      if n < UInt64.size then .ok { p with mode := .free, threadLimit := some n }
      else .error .misuse
    | _, _ => .error .misuse

/-- Takes the option `name`, with the value behind its equals sign if there is one. -/
def addOption (p : Progress) (name : String) (attached : Option (List Char)) :
    Except Interruption Progress :=
  match name, attached with
  | "--version", none => .error .version
  | "--ast", none => if p.showTree then .error .misuse else .ok { p with showTree := true }
  | "--dump", none => if p.showProgram then .error .misuse else .ok { p with showProgram := true }
  | "--no-optimize", none =>
    if p.unshortened then .error .misuse else .ok { p with unshortened := true }
  | "--nest-limit", none => .ok { p with mode := .value .nestLimit }
  | "--nest-limit", some numeral => p.assign .nestLimit numeral
  | "--thread-limit", none => .ok { p with mode := .value .threadLimit }
  | "--thread-limit", some numeral => p.assign .threadLimit numeral
  | _, _ => .error .misuse

/-- Takes the next argument. Of several one-letter options behind one minus sign, the first one
decides, and only the version has one letter. -/
def add (p : Progress) (arg : String) : Except Interruption Progress :=
  match p.mode, arg.toList with
  | .positional, _ => .ok (p.addPositional arg)
  | .value _, '-' :: _ => .error .misuse
  | .value setting, numeral => p.assign setting numeral
  | .free, ['-', '-'] => .ok { p with mode := .positional }
  | .free, '-' :: '-' :: name =>
    match name.span (· ≠ '=') with
    | (name, '=' :: value) => p.addOption (String.ofList ('-' :: '-' :: name)) (some value)
    | (name, _) => p.addOption (String.ofList ('-' :: '-' :: name)) none
  | .free, '-' :: 'V' :: _ => .error .version
  | .free, '-' :: _ :: _ => .error .misuse
  | .free, _ => .ok (p.addPositional arg)

/-- The arguments, once all of them have been taken. -/
def finish (p : Progress) : Except Interruption Arguments :=
  match p.mode, p.positionals.reverse with
  | .value _, _ | _, [] => .error .misuse
  | _, pattern :: inputs =>
    let defaults : Options := {}
    .ok {
      pattern, inputs
      showTree := p.showTree
      showProgram := p.showProgram
      options := {
        nestLimit := p.nestLimit.getD defaults.nestLimit
        threadLimit := p.threadLimit.getD defaults.threadLimit
        shorten := !p.unshortened } }

end Progress

/-- Reads the arguments of a command line. -/
def Arguments.ofList (args : List String) : Except Interruption Arguments := do
  let progress ← args.foldlM Progress.add {}
  progress.finish

end PatternMachine.CommandLine
