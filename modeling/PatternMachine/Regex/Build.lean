import PatternMachine.Pattern.Parse
import PatternMachine.Pattern.Render
import PatternMachine.Program.OfPattern

/-!
# Building regular expressions

A regular expression is a program together with the text it was built from and the number of
threads its searches may keep waiting. It is built from the text of a pattern, or from a pattern
directly, which then names it by its written form.
-/

namespace PatternMachine

/-- How a regular expression is built and run. -/
structure Options where
  /-- How deep groups and repetitions of the text may nest. -/
  nestLimit : UInt32 := Pattern.defaultNestLimit
  /-- How many threads may wait at once in a search. -/
  threadLimit : Nat := 10000
  /-- Whether the program is shortened. -/
  shorten : Bool := true

/-- Why a regular expression cannot be built. -/
inductive BuildError where
  /-- The text is no pattern. -/
  | malformed (error : SyntaxError)
  /-- The pattern's program is inconsistent. -/
  | inconsistent (fault : Fault)
deriving DecidableEq

/-- The error in words. -/
def BuildError.message : BuildError → String
  | malformed error => error.message
  | inconsistent fault => "internal error: " ++ fault.message

/-- A regular expression, ready to search. -/
structure Regex where
  source : String
  program : Program
  threadLimit : Nat
deriving DecidableEq

namespace Regex

/-- The regular expression of the pattern `p`, to be known as `source`. -/
def compile (o : Options) (source : String) (p : Pattern) : Except Fault Regex := do
  let assembly ← Assembly.ofPattern o.shorten p
  return { source, program := assembly.program, threadLimit := o.threadLimit }

/-- The regular expression of the pattern `p`. -/
def ofPattern (o : Options) (p : Pattern) : Except BuildError Regex :=
  (compile o p.render p).mapError .inconsistent

/-- The regular expression written as `text`. -/
def ofString (o : Options) (text : String) : Except BuildError Regex := do
  let p ← (Pattern.parse o.nestLimit text).mapError .malformed
  (compile o text p).mapError .inconsistent

end Regex

end PatternMachine
