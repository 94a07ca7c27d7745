import PatternMachine.Pattern.Fold
import PatternMachine.Token

/-!
# The grammar of patterns

The derivations of the grammar

* an alternative is a sequence, or an alternative, a `|` and a sequence;
* a sequence is empty, or a sequence and an item;
* an item is a factor, or an item and one of the suffixes `*`, `+` and `?`;
* a factor is a character, a `.`, or an alternative between parentheses

as trees, one type for each rule and one constructor for each case of it. What is repeated in the
grammar grows to the right here, as it does when a text is read. A derivation has a yield, the
tokens it derives; a nesting, the number of groups and suffixes around its innermost part; and the
pattern it stands for.
-/

namespace PatternMachine.Grammar

/-- A suffix operator. -/
inductive Suffix where
  | star
  | plus
  | question
deriving DecidableEq

namespace Suffix

/-- The token of a suffix. -/
def kind : Suffix → Token.Kind
  | star => .star
  | plus => .plus
  | question => .question

/-- The repetition that a suffix stands for. -/
def wrap : Suffix → Pattern → Pattern
  | star => .star
  | plus => .plus
  | question => .opt

@[simp]
theorem kind_ne_closing (op : Suffix) : op.kind ≠ .closing := by
  cases op <;> exact nofun

@[simp]
theorem kind_ne_ending (op : Suffix) : op.kind ≠ .ending := by
  cases op <;> exact nofun

end Suffix

mutual

/-- A derivation of a factor. -/
inductive Factor where
  | char (c : Char)
  | any
  | group (content : Alternatives)

/-- A derivation of an item. -/
inductive Item where
  | bare (f : Factor)
  | suffixed (i : Item) (op : Suffix)

/-- A derivation of a sequence. -/
inductive Sequence where
  | empty
  | snoc (s : Sequence) (i : Item)

/-- A derivation of an alternative. -/
inductive Alternatives where
  | single (s : Sequence)
  | snoc (a : Alternatives) (s : Sequence)

end

/-! ## Yields -/

mutual

/-- The tokens of a factor. -/
def Factor.yield : Factor → List Token.Kind
  | .char c => [.char c]
  | .any => [.any]
  | .group content => .opening :: content.yield ++ [.closing]

/-- The tokens of an item. -/
def Item.yield : Item → List Token.Kind
  | .bare f => f.yield
  | .suffixed i op => i.yield ++ [op.kind]

/-- The tokens of a sequence. -/
def Sequence.yield : Sequence → List Token.Kind
  | .empty => []
  | .snoc s i => s.yield ++ i.yield

/-- The tokens of an alternative. -/
def Alternatives.yield : Alternatives → List Token.Kind
  | .single s => s.yield
  | .snoc a s => a.yield ++ .bar :: s.yield

end

/-! ## Nesting -/

mutual

/-- How deep groups and suffixes nest in a factor. -/
def Factor.nesting : Factor → Nat
  | .char _ => 0
  | .any => 0
  | .group content => content.nesting + 1

/-- How deep groups and suffixes nest in an item. -/
def Item.nesting : Item → Nat
  | .bare f => f.nesting
  | .suffixed i _ => i.nesting + 1

/-- How deep groups and suffixes nest in a sequence. -/
def Sequence.nesting : Sequence → Nat
  | .empty => 0
  | .snoc s i => max s.nesting i.nesting

/-- How deep groups and suffixes nest in an alternative. -/
def Alternatives.nesting : Alternatives → Nat
  | .single s => s.nesting
  | .snoc a s => max a.nesting s.nesting

end

/-! ## Patterns -/

mutual

/-- The pattern of a factor. -/
def Factor.tree : Factor → Pattern
  | .char c => .literal c
  | .any => .any
  | .group content => .altAll content.branches

/-- The pattern of an item. -/
def Item.tree : Item → Pattern
  | .bare f => f.tree
  | .suffixed i op => op.wrap i.tree

/-- The patterns of the items of a sequence. -/
def Sequence.items : Sequence → List Pattern
  | .empty => []
  | .snoc s i => s.items ++ [i.tree]

/-- The patterns of the branches of an alternative. -/
def Alternatives.branches : Alternatives → List Pattern
  | .single s => [.seqAll s.items]
  | .snoc a s => a.branches ++ [.seqAll s.items]

end

/-- The pattern of a sequence. -/
def Sequence.tree (s : Sequence) : Pattern :=
  .seqAll s.items

/-- Read backwards, the last item comes first. -/
theorem Sequence.reverse_items_snoc (s : Sequence) (i : Item) :
    (s.snoc i).items.reverse = i.tree :: s.items.reverse := by
  rw [Sequence.items, List.reverse_append]
  rfl

/-- The pattern of an alternative. -/
def Alternatives.tree (a : Alternatives) : Pattern :=
  .altAll a.branches

end PatternMachine.Grammar
