import PatternMachine.SyntaxError

/-!
# Reading the tokens of a text

The text is read character by character. The only text without tokens is one that contains the
sentinel, and it is refused at the first occurrence.
-/

namespace PatternMachine.Token

/-- The token that a single character is. -/
def ofLocated (l : Text.Located) : Except Violation Token :=
  if l.char = Text.sentinel then .error ⟨.reservedCharacter, ⟨l.offset, l.stop⟩⟩
  else .ok ⟨.ofChar l.char, ⟨l.offset, l.stop⟩⟩

/-- The token behind the last character of a text of `length` bytes. -/
def ending (length : Nat) : Token :=
  ⟨.ending, .point length⟩

/-- The tokens of `text`, the ending token last. -/
def scan (text : String) : Except Violation (List Token) := do
  let tokens ← (Text.located text).mapM ofLocated
  return tokens ++ [ending (Text.byteLength text.toList)]

end PatternMachine.Token
