import PatternMachine.Pattern.Fold
import PatternMachine.Token.Scan

/-!
# Reading patterns

The grammar has one rule per level:

* an alternative is one or more sequences, separated by `|`;
* a sequence is any number of items;
* an item is a factor with any number of suffixes `*`, `+` and `?`;
* a factor is a character, a `.`, or an alternative between parentheses.

Every rule returns the tree it read, how deep groups and suffixes nest in it, and the tokens it
left. One limit bounds the nesting in three places: where a group opens, by the number of groups
then open; at a suffix, by the nesting of what it repeats; and where a group closes, by the nesting
of what it encloses. The first of these keeps the recursion itself shallow.
-/

namespace PatternMachine.Pattern

/-- What a rule of the grammar read, leaving fewer than `bound` tokens. -/
structure Reading (bound : Nat) where
  tree : Pattern
  /-- The number of groups and suffixes around the innermost part of `tree`. -/
  nest : UInt32
  rest : List Token
  rest_lt : rest.length < bound

/-- The sequence of `items`, the latest first. -/
def Reading.ofItems {bound : Nat} (items : List Pattern) (nest : UInt32) (rest : List Token)
    (h : rest.length < bound) : Reading bound :=
  ⟨seqAll items.reverse, nest, rest, h⟩

/-- The alternative of `branches`, the latest first. -/
def Reading.ofBranches {bound : Nat} (branches : List Pattern) (nest : UInt32) (rest : List Token)
    (h : rest.length < bound) : Reading bound :=
  ⟨altAll branches.reverse, nest, rest, h⟩

/-- Refuses a nesting above the limit. -/
def checkNesting (limit nest : UInt32) (span : Span) : Except Violation Unit :=
  if limit < nest then .error ⟨.nestLimitExceeded limit, span⟩ else .ok ()

/-- The violation of a token that stands where `expected` has to. A suffix operator there has
nothing to repeat. -/
def unexpected (expected : String) (t : Token) : Violation :=
  match t.kind with
  | .star | .plus | .question => ⟨.repetitionMissing, t.span⟩
  | found => ⟨.unexpectedToken expected found, t.span⟩

/-- The pattern that a single token stands for, if it does. -/
def leaf? : Token.Kind → Option Pattern
  | .char c => some (literal c)
  | .any => some any
  | .bar | .star | .plus | .question | .opening | .closing | .ending => none

/-- The repetition that a suffix operator stands for. -/
def repetition? : Token.Kind → Option (Pattern → Pattern)
  | .star => some star
  | .plus => some plus
  | .question => some opt
  | .char _ | .any | .bar | .opening | .closing | .ending => none

/-- Wraps `tree`, which nests `nest` deep, in the suffixes at the front of `tokens`. -/
def suffixes (limit : UInt32) {bound : Nat} (tree : Pattern) (nest : UInt32) (tokens : List Token)
    (h : tokens.length < bound) : Except Violation (Reading bound) :=
  match tokens with
  | [] => .ok ⟨tree, nest, [], h⟩
  | t :: rest =>
    match repetition? t.kind with
    | none => .ok ⟨tree, nest, t :: rest, h⟩
    | some wrap => do
      checkNesting limit (nest + 1) t.span
      suffixes limit (wrap tree) (nest + 1) rest (Nat.lt_of_succ_lt h)

mutual

/-- Reads a character, a `.` or a group from `t` on, inside `groups` open groups. -/
def factor (limit groups : UInt32) (t : Token) (rest : List Token) :
    Except Violation (Reading (rest.length + 1)) :=
  match leaf? t.kind with
  | some leaf => .ok ⟨leaf, 0, rest, Nat.lt_succ_self _⟩
  | none =>
    if t.kind = .opening then do
      checkNesting limit (groups + 1) t.span
      let content ← alternatives limit (groups + 1) [] 0 rest (Nat.lt_succ_self _)
      match h : content.rest with
      | [] => .error ⟨.groupUnclosed, t.span⟩
      | close :: outside =>
        if close.kind = .closing then do
          checkNesting limit (content.nest + 1) t.span
          return ⟨content.tree, content.nest + 1, outside, by
            have := content.rest_lt
            simp only [h, List.length_cons] at this
            omega⟩
        else if close.kind = .ending then .error ⟨.groupUnclosed, t.span⟩
        else .error (unexpected "')'" close)
    else .error (unexpected "character" t)
termination_by (rest.length + 1, 0)
decreasing_by exact Prod.Lex.left _ _ (Nat.lt_succ_self _)

/-- Reads the items of a sequence behind those already in `before`, the latest first. -/
def sequence (limit groups : UInt32) {bound : Nat} (before : List Pattern) (nest : UInt32)
    (tokens : List Token) (h : tokens.length < bound) : Except Violation (Reading bound) :=
  match tokens with
  | [] => .ok (.ofItems before nest [] h)
  | t :: rest =>
    if t.kind.beginsItem then do
      let bare ← factor limit groups t rest
      let item ← suffixes limit bare.tree bare.nest bare.rest bare.rest_lt
      sequence limit groups (item.tree :: before) (max nest item.nest) item.rest
        (Nat.lt_trans item.rest_lt h)
    else .ok (.ofItems before nest (t :: rest) h)
termination_by (tokens.length, 1)
decreasing_by
  · exact Prod.Lex.right _ (by omega)
  · exact Prod.Lex.left _ _ item.rest_lt

/-- Reads the branches of an alternative behind those already in `before`, the latest first. -/
def alternatives (limit groups : UInt32) {bound : Nat} (before : List Pattern) (nest : UInt32)
    (tokens : List Token) (h : tokens.length < bound) : Except Violation (Reading bound) := do
  let branch ← sequence limit groups [] 0 tokens (Nat.lt_succ_self _)
  match hr : branch.rest with
  | [] =>
    return .ofBranches (branch.tree :: before) (max nest branch.nest) [] (Nat.zero_lt_of_lt h)
  | t :: rest =>
    have hlt : rest.length + 1 < tokens.length + 1 := by
      have := branch.rest_lt
      rwa [hr] at this
    if t.kind = .bar then
      alternatives limit groups (branch.tree :: before) (max nest branch.nest) rest (by omega)
    else
      return .ofBranches (branch.tree :: before) (max nest branch.nest) (t :: rest)
        (by simp only [List.length_cons]; omega)
termination_by (tokens.length, 2)
decreasing_by
  · exact Prod.Lex.right _ (by omega)
  · exact Prod.Lex.left _ _ (by omega)

end

/-- Reads a whole pattern from its tokens. -/
def ofTokens (limit : UInt32) (tokens : List Token) : Except Violation Pattern := do
  let whole ← alternatives limit 0 [] 0 tokens (Nat.lt_succ_self _)
  match whole.rest with
  | [] => return whole.tree
  | t :: _ =>
    if t.kind = .ending then return whole.tree
    else if t.kind = .closing then .error ⟨.groupUnopened, t.span⟩
    else .error (unexpected "end of pattern" t)

/-- The nesting allowed where no limit is given. -/
def defaultNestLimit : UInt32 := 250

/-- Reads the pattern written as `text`, with groups and suffixes nested at most `limit` deep. -/
def parse (limit : UInt32) (text : String) : Except SyntaxError Pattern :=
  match Token.scan text >>= ofTokens limit with
  | .ok tree => .ok tree
  | .error violation => .error ⟨violation, text⟩

end PatternMachine.Pattern
