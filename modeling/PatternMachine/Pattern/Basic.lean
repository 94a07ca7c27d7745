/-!
# Patterns

A pattern describes a set of texts. It is a tree whose leaves are single characters, the wildcard
and the empty pattern, and whose inner nodes are sequence, alternative and the three repetitions.
-/

namespace PatternMachine

/-- A pattern. In `alt l r` the left alternative is preferred, and `star`, `plus` and `opt` prefer
to repeat once more. -/
inductive Pattern where
  /-- The character `c` alone. -/
  | literal (c : Char)
  /-- Any single character. -/
  | any
  /-- The empty text. -/
  | empty
  /-- A text of `l` followed by a text of `r`. -/
  | seq (l r : Pattern)
  /-- A text of `l` or a text of `r`. -/
  | alt (l r : Pattern)
  /-- Any number of texts of `p`, none included. -/
  | star (p : Pattern)
  /-- One or more texts of `p`. -/
  | plus (p : Pattern)
  /-- A text of `p` or the empty text. -/
  | opt (p : Pattern)
deriving DecidableEq

namespace Pattern

/-- The number of nodes on the longest way from the root to a leaf. -/
def depth : Pattern → Nat
  | literal _ | any | empty => 1
  | seq l r | alt l r => 1 + max l.depth r.depth
  | star p | plus p | opt p => 1 + p.depth

end Pattern

end PatternMachine
