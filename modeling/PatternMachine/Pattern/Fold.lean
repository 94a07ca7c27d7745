import PatternMachine.Pattern.Basic

/-!
# Folding lists of patterns

A sequence or an alternative of many patterns becomes one tree by joining halves of the list, so
that the tree is only logarithmically deeper than its items. The items keep their order.
-/

namespace PatternMachine.Pattern

/-- Joins `ps` into one pattern, halving the list at every level; the left half is the shorter one
if they differ. Nothing to join gives the empty pattern. -/
def fold (join : Pattern → Pattern → Pattern) (ps : List Pattern) : Pattern :=
  match ps with
  | [] => empty
  | [p] => p
  | p :: q :: rest =>
    let items := p :: q :: rest
    let half := items.length / 2
    join (fold join (items.take half)) (fold join (items.drop half))
termination_by ps.length
decreasing_by all_goals simp; omega

/-- The patterns of `ps` one after the other. -/
def seqAll (ps : List Pattern) : Pattern :=
  fold seq ps

/-- The patterns of `ps` as alternatives, earlier ones preferred. -/
def altAll (ps : List Pattern) : Pattern :=
  fold alt ps

end PatternMachine.Pattern
