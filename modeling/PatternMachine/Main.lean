import PatternMachine.CommandLine.Run

/-!
# The program

Connects a run of the command line to the standard streams.
-/

namespace PatternMachine

/-- Everything that is left to read from `stream`, behind `read`. -/
partial def readAll (stream : IO.FS.Stream) (read : ByteArray) : IO ByteArray := do
  let chunk ← stream.read 65536
  if chunk.isEmpty then return read
  readAll stream (read ++ chunk)

end PatternMachine

open PatternMachine in
/-- Finds the leftmost match of a regular expression in each of the texts given as arguments or as
lines of the standard input. -/
def main (args : List String) : IO UInt32 := do
  let input ←
    if CommandLine.readsInput args then readAll (← IO.getStdin) .empty else pure .empty
  let result := CommandLine.run args input
  IO.print result.stdout
  IO.eprint result.stderr
  return UInt32.ofNat result.exit
