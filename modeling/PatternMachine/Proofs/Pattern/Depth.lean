import Mathlib.Data.Nat.Log
import Mathlib.Tactic.Ring
import PatternMachine.Proofs.Pattern.Descent
import PatternMachine.Proofs.Pattern.Text

/-!
# The depth of patterns

Whatever walks through a pattern recurses as deep as the pattern is, so a long text must not make a
deep pattern. Folding halves its list, which adds a logarithm to the depth of the items
(`Pattern.depth_fold_le_maxDepth`). A derivation is folded twice on each of its levels, once for the
items and once for the branches, and there are no more levels than groups and suffixes nest. So the
depth of a pattern that could be read is bounded by the limit of nesting and a logarithm of the
length of its text (`Pattern.depth_le_of_parse`). Under the largest limit the counters of the
nesting wrap before anything is refused, and the bound fails for a text that is long enough
(`Pattern.depth_of_parse_starred`).
-/

namespace PatternMachine

namespace Pattern

/-- Every pattern has a level. -/
theorem depth_pos (p : Pattern) : 0 < p.depth := by
  cases p with
  | literal | any | empty => exact Nat.one_pos
  | seq | alt | star | plus | opt => exact Nat.add_pos_left Nat.one_pos _

/-! ## Folds -/

/-- What holds of lists with at most one item and is kept by joining halves holds of every fold. -/
theorem fold_induction {join : Pattern → Pattern → Pattern} {P : List Pattern → Pattern → Prop}
    (hempty : P [] .empty) (hsingle : ∀ p, P [p] p)
    (hjoin : ∀ left right l r, 0 < left.length → left.length ≤ right.length →
      right.length ≤ left.length + 1 → P left l → P right r → P (left ++ right) (join l r))
    (ps : List Pattern) : P ps (fold join ps) := by
  induction ps using fold.induct with
  | case1 => rw [fold]; exact hempty
  | case2 p => rw [fold]; exact hsingle p
  | case3 p q rest items half ihl ihr =>
    have hlength : items.length = rest.length + 2 := rfl
    have hleft : (items.take half).length = half := by
      rw [List.length_take]
      omega
    have hright : (items.drop half).length = items.length - half := List.length_drop
    have h := hjoin (items.take half) (items.drop half) _ _ (by omega) (by omega) (by omega) ihl ihr
    rw [List.take_append_drop] at h
    rw [fold]
    exact h

/-- The depth of the deepest of `ps`. -/
def maxDepth (ps : List Pattern) : Nat :=
  (ps.map depth).foldr max 0

theorem maxDepth_cons (p : Pattern) (ps : List Pattern) :
    maxDepth (p :: ps) = max p.depth (maxDepth ps) := rfl

/-- The depth of a single pattern is its own. -/
theorem maxDepth_singleton (p : Pattern) : maxDepth [p] = p.depth :=
  Nat.max_zero _

/-- The deepest of two lists is in the first or in the second one. -/
theorem maxDepth_append (ps qs : List Pattern) :
    maxDepth (ps ++ qs) = max (maxDepth ps) (maxDepth qs) := by
  induction ps with
  | nil => exact (Nat.zero_max _).symm
  | cons p ps ih => rw [List.cons_append, maxDepth_cons, maxDepth_cons, ih, Nat.max_assoc]

section

variable {join : Pattern → Pattern → Pattern}

/-- Halving a list until single items are left takes a logarithm of its length. -/
theorem depth_fold_le (hjoin : ∀ l r, (join l r).depth = 1 + max l.depth r.depth)
    (ps : List Pattern) : (fold join ps).depth ≤ Nat.clog 2 ps.length + max 1 (maxDepth ps) := by
  induction ps using fold_induction with
  | hempty => exact Nat.le_add_left 1 _
  | hsingle p =>
    rw [maxDepth_singleton]
    omega
  | hjoin left right l r hpos hle hge ihl ihr =>
    have hclog : Nat.clog 2 (left.length + right.length) = Nat.clog 2 right.length + 1 := by
      have hhalf : (left.length + right.length + 2 - 1) / 2 = right.length := by omega
      rw [Nat.clog_of_two_le Nat.one_lt_two (by omega), hhalf]
    have hmono : Nat.clog 2 left.length ≤ Nat.clog 2 right.length := Nat.clog_mono_right 2 hle
    rw [hjoin, List.length_append, maxDepth_append, hclog]
    omega

/-- A fold is no deeper than its items would be one below the other. -/
theorem depth_fold_le_sum (hjoin : ∀ l r, (join l r).depth = 1 + max l.depth r.depth)
    (ps : List Pattern) : (fold join ps).depth ≤ max 1 (ps.map depth).sum := by
  have hsum : ∀ qs : List Pattern, 0 < qs.length → 0 < (qs.map depth).sum := by
    intro qs hqs
    cases qs with
    | nil => exact absurd hqs (Nat.lt_irrefl 0)
    | cons q qs => exact Nat.add_pos_left q.depth_pos _
  induction ps using fold_induction with
  | hempty => exact Nat.le_max_left _ _
  | hsingle p => exact Nat.le_max_right _ _
  | hjoin left right l r hpos hle hge ihl ihr =>
    have hleft := hsum left hpos
    have hright := hsum right (Nat.lt_of_lt_of_le hpos hle)
    rw [hjoin, List.map_append, List.sum_append]
    omega

end

end Pattern

/-! ## Derivations -/

namespace Grammar

open Pattern

mutual

/-- Every factor has a token. -/
theorem Factor.length_yield_pos : (f : Factor) → 0 < f.yield.length
  | .char _ | .any => Nat.one_pos
  | .group content => by simp [Factor.yield]

/-- Every item has a token. -/
theorem Item.length_yield_pos : (i : Item) → 0 < i.yield.length
  | .bare f => f.length_yield_pos
  | .suffixed i op => by simp [Item.yield]

end

/-- Every item has a token of its own. -/
theorem Sequence.length_items_le : (s : Sequence) → s.items.length ≤ s.yield.length
  | .empty => Nat.le_refl 0
  | .snoc s i => by
    rw [Sequence.items, Sequence.yield, List.length_append, List.length_append]
    exact Nat.add_le_add s.length_items_le i.length_yield_pos

/-- Every branch but the first has a `|` of its own. -/
theorem Alternatives.length_branches_le :
    (a : Alternatives) → a.branches.length ≤ a.yield.length + 1
  | .single s => Nat.le_add_left 1 _
  | .snoc a s => by
    have ih := a.length_branches_le
    rw [Alternatives.branches, Alternatives.yield, List.length_append, List.length_append,
      List.length_singleton, List.length_cons]
    omega

/-- Sequencing the items adds a level for each halving of their number. -/
theorem Sequence.depth_le_maxDepth (s : Sequence) {n : Nat} (hn : s.yield.length ≤ n) :
    s.tree.depth ≤ Nat.clog 2 (n + 1) + max 1 (maxDepth s.items) := by
  have hfold : s.tree.depth ≤ _ := depth_fold_le (fun _ _ => rfl) s.items
  have hclog : Nat.clog 2 s.items.length ≤ Nat.clog 2 (n + 1) :=
    Nat.clog_mono_right 2 (Nat.le_succ_of_le (s.length_items_le.trans hn))
  omega

/-- So does joining the branches. -/
theorem Alternatives.depth_le_maxDepth (a : Alternatives) {n : Nat} (hn : a.yield.length ≤ n) :
    a.tree.depth ≤ Nat.clog 2 (n + 1) + max 1 (maxDepth a.branches) := by
  have hfold : a.tree.depth ≤ _ := depth_fold_le (fun _ _ => rfl) a.branches
  have hclog : Nat.clog 2 a.branches.length ≤ Nat.clog 2 (n + 1) :=
    Nat.clog_mono_right 2 (a.length_branches_le.trans (Nat.succ_le_succ hn))
  omega

/-- How deep a pattern of `n` characters may become in which groups and suffixes nest `nesting`
deep. Each of them takes a level, and may enclose an alternative of sequences. -/
def depthBound (n nesting : Nat) : Nat :=
  1 + (2 * Nat.clog 2 (n + 1) + 1) * nesting

/-- Even a pattern in which nothing nests has a level. -/
theorem depthBound_pos (n nesting : Nat) : 0 < depthBound n nesting :=
  Nat.add_pos_left Nat.one_pos _

/-- A level of nesting adds those of an alternative of sequences and its own. -/
theorem depthBound_succ (n nesting : Nat) :
    depthBound n (nesting + 1) = depthBound n nesting + (2 * Nat.clog 2 (n + 1) + 1) := by
  rw [depthBound, Nat.mul_succ, ← Nat.add_assoc, depthBound]

/-- Deeper nesting allows deeper patterns. -/
theorem depthBound_mono (n : Nat) {k l : Nat} (h : k ≤ l) : depthBound n k ≤ depthBound n l :=
  Nat.add_le_add_left (Nat.mul_le_mul_left _ h) 1

/-- What nests deepest gives the bound. -/
theorem depthBound_max (n k l : Nat) :
    depthBound n (max k l) = max (depthBound n k) (depthBound n l) :=
  Monotone.map_max fun _ _ => depthBound_mono n

section

variable {n : Nat}

mutual

/-- The depth of a factor is within the bound for its nesting. -/
theorem Factor.depth_le (f : Factor) (hn : f.yield.length ≤ n) :
    f.tree.depth ≤ depthBound n f.nesting := by
  match f with
  | .char _ | .any => exact Nat.le_refl 1
  | .group content =>
    rw [Factor.yield, List.length_append, List.length_cons, List.length_singleton] at hn
    have hcontent : content.yield.length ≤ n := by omega
    have hdepth := content.depth_le_maxDepth hcontent
    have hmax := content.maxDepth_branches_le hcontent
    have hpos := depthBound_pos n content.nesting
    rw [Factor.tree, Factor.nesting, depthBound_succ]
    rw [Alternatives.tree] at hdepth
    omega

/-- The depth of an item is within the bound for its nesting. -/
theorem Item.depth_le (i : Item) (hn : i.yield.length ≤ n) :
    i.tree.depth ≤ depthBound n i.nesting := by
  match i with
  | .bare f => exact f.depth_le hn
  | .suffixed i op =>
    rw [Item.yield, List.length_append, List.length_singleton] at hn
    have hdepth := i.depth_le (by omega)
    have hwrap : (op.wrap i.tree).depth = 1 + i.tree.depth := by cases op <;> rfl
    rw [Item.tree, Item.nesting, depthBound_succ, hwrap]
    omega

/-- The depths of the items of a sequence are. -/
theorem Sequence.maxDepth_items_le (s : Sequence) (hn : s.yield.length ≤ n) :
    maxDepth s.items ≤ depthBound n s.nesting := by
  match s with
  | .empty => exact Nat.zero_le _
  | .snoc s i =>
    rw [Sequence.yield, List.length_append] at hn
    have hitems := s.maxDepth_items_le (by omega)
    have hitem := i.depth_le (by omega)
    rw [Sequence.items, Sequence.nesting, maxDepth_append, maxDepth_singleton, depthBound_max]
    omega

/-- Those of the branches of an alternative are, up to the levels at which a branch joins its
items. -/
theorem Alternatives.maxDepth_branches_le (a : Alternatives) (hn : a.yield.length ≤ n) :
    maxDepth a.branches ≤ depthBound n a.nesting + Nat.clog 2 (n + 1) := by
  match a with
  | .single s =>
    have hdepth := s.depth_le_maxDepth hn
    have hmax := s.maxDepth_items_le hn
    have hpos := depthBound_pos n s.nesting
    rw [Alternatives.branches, Alternatives.nesting, maxDepth_singleton]
    rw [Sequence.tree] at hdepth
    omega
  | .snoc a s =>
    rw [Alternatives.yield, List.length_append, List.length_cons] at hn
    have hbranches := a.maxDepth_branches_le (by omega)
    have hs : s.yield.length ≤ n := by omega
    have hdepth := s.depth_le_maxDepth hs
    have hmax := s.maxDepth_items_le hs
    have hpos := depthBound_pos n s.nesting
    rw [Alternatives.branches, Alternatives.nesting, maxDepth_append, maxDepth_singleton,
      depthBound_max]
    rw [Sequence.tree] at hdepth
    omega

end

/-- The depth of an alternative is within the bound for its nesting, up to the levels at which it
joins its branches and their items. -/
theorem Alternatives.depth_le (a : Alternatives) (hn : a.yield.length ≤ n) :
    a.tree.depth ≤ depthBound n a.nesting + 2 * Nat.clog 2 (n + 1) := by
  have hdepth := a.depth_le_maxDepth hn
  have hmax := a.maxDepth_branches_le hn
  have hpos := depthBound_pos n a.nesting
  omega

end

end Grammar

namespace Pattern

/-! ## The rules without their counters -/

/-- If the rule reads a pattern, that is no deeper than `n` less the number of tokens left over. -/
def Spends {bound : Nat} (x : Except Violation (Reading bound)) (n : Nat) : Prop :=
  ∀ q, x = .ok q → q.tree.depth + q.rest.length ≤ n

namespace Spends

variable {bound bound' n m : Nat} {x : Except Violation (Reading bound)}

/-- A rule that fails reads no pattern. -/
theorem error (v : Violation) : Spends (.error v : Except Violation (Reading bound)) n :=
  Ensures.error v

/-- A rule that returns a pattern has spent what that and the rest leave. -/
theorem ok {q : Reading bound} (h : q.tree.depth + q.rest.length ≤ n) : Spends (.ok q) n :=
  Ensures.ok h

/-- One rule spends what another one before it has left. -/
theorem bind {f : Reading bound → Except Violation (Reading bound')} (hx : Spends x m)
    (hf : ∀ q : Reading bound, q.tree.depth + q.rest.length ≤ m → Spends (f q) n) :
    Spends (x >>= f) n :=
  Ensures.bind hx hf

/-- A check spends nothing. -/
theorem check (limit nest : UInt32) (span : Span) (hx : Spends x n) :
    Spends (checkNesting limit nest span >>= fun _ => x) n :=
  Ensures.check fun _ => hx

end Spends

/-- Each suffix spends its token on the level that it adds. -/
theorem spends_suffixes (limit : UInt32) {bound : Nat} (tree : Pattern) (nest : UInt32)
    (tokens : List Token) (h : tokens.length < bound) :
    Spends (suffixes limit tree nest tokens h) (tree.depth + tokens.length) := by
  induction tokens generalizing tree nest with
  | nil => exact .ok (Nat.le_refl _)
  | cons t rest ih =>
    rw [suffixes]
    cases hwrap : repetition? t.kind with
    | none => exact .ok (Nat.le_refl _)
    | some wrap =>
      obtain ⟨op, -, rfl⟩ := repetition?_eq_some_iff.1 hwrap
      have hdepth : (op.wrap tree).depth = 1 + tree.depth := by cases op <;> rfl
      refine .check _ _ _ fun q hq => ?_
      have := ih (op.wrap tree) (nest + 1) (Nat.lt_of_succ_lt h) q hq
      rw [hdepth] at this
      rw [List.length_cons]
      omega

mutual

/-- A factor spends its token on a leaf or on its content, and the `)` behind that. -/
theorem spends_factor (limit groups : UInt32) (t : Token) (rest : List Token) :
    Spends (factor limit groups t rest) (rest.length + 1) := by
  cases hleaf : leaf? t.kind with
  | some leaf =>
    have hdepth : leaf.depth = 1 := by
      cases hk : t.kind <;> rw [hk] at hleaf <;> cases hleaf <;> rfl
    rw [factor_of_leaf hleaf]
    exact .ok (by simp only [hdepth]; omega)
  | none =>
    by_cases hopening : t.kind = .opening
    · rw [factor_of_opening hopening]
      refine .check _ _ _ ((spends_alternatives limit (groups + 1) [] 0 rest _).bind ?_)
      intro content hcontent
      refine Ensures.closed fun close outside hrest _ _ _ => ?_
      rw [hrest, List.length_cons, List.map_nil, List.sum_nil] at hcontent
      show content.tree.depth + outside.length ≤ _
      omega
    · rw [factor_of_unexpected hleaf hopening]
      exact .error _
termination_by (rest.length + 1, 0)

/-- An item spends what its factor and its suffixes spend. -/
theorem spends_item (limit groups : UInt32) (t : Token) (rest : List Token) :
    Spends (item limit groups t rest) (rest.length + 1) := by
  refine (spends_factor limit groups t rest).bind fun bare hbare => ?_
  exact Ensures.mono (spends_suffixes limit bare.tree bare.nest bare.rest bare.rest_lt)
    fun q hq => hq.trans hbare
termination_by (rest.length + 1, 1)

/-- A sequence spends a token on each item, which pays for the level that joins it to the others. -/
theorem spends_sequence (limit groups : UInt32) {bound : Nat} (before : List Pattern)
    (nest : UInt32) (tokens : List Token) (h : tokens.length < bound) :
    Spends (sequence limit groups before nest tokens h)
      ((before.map depth).sum + tokens.length + 1) := by
  have hfold : (seqAll before.reverse).depth ≤ max 1 (before.map depth).sum := by
    have h : (seqAll before.reverse).depth ≤ _ := depth_fold_le_sum (fun _ _ => rfl) before.reverse
    rwa [List.map_reverse, List.sum_reverse] at h
  match tokens with
  | [] =>
    rw [sequence]
    exact .ok (by simp only [Reading.ofItems, List.length_nil]; omega)
  | t :: rest =>
    rw [sequence_cons]
    split
    · refine (spends_item limit groups t rest).bind ?_
      rintro ⟨itree, inest, irest, hilt⟩ hitem q hq
      have hsequence := spends_sequence limit groups (itree :: before) _ irest _ q hq
      rw [List.map_cons, List.sum_cons] at hsequence
      replace hitem : itree.depth + irest.length ≤ rest.length + 1 := hitem
      rw [List.length_cons]
      omega
    · exact .ok (by simp only [Reading.ofItems]; omega)
termination_by (tokens.length, 2)

/-- An alternative spends the `|` in front of a branch on the level that joins it to the others. -/
theorem spends_alternatives (limit groups : UInt32) {bound : Nat} (before : List Pattern)
    (nest : UInt32) (tokens : List Token) (h : tokens.length < bound) :
    Spends (alternatives limit groups before nest tokens h)
      ((before.map depth).sum + tokens.length + 1) := by
  rw [alternatives]
  refine (spends_sequence limit groups [] 0 tokens _).bind ?_
  rintro ⟨tree, snest, stokens, hlt⟩ hbranch
  simp only [List.map_nil, List.sum_nil, Nat.zero_add] at hbranch
  have hfold : (altAll (tree :: before).reverse).depth ≤ tree.depth + (before.map depth).sum := by
    have h : (altAll (tree :: before).reverse).depth ≤ _ :=
      depth_fold_le_sum (fun _ _ => rfl) (tree :: before).reverse
    rw [List.map_reverse, List.sum_reverse, List.map_cons, List.sum_cons] at h
    exact h.trans (Nat.max_le.2 ⟨Nat.le_add_right_of_le tree.depth_pos, Nat.le_refl _⟩)
  cases stokens with
  | nil => exact .ok (by simp only [Reading.ofBranches]; omega)
  | cons t rest =>
    have hlt' : rest.length < tokens.length := Nat.lt_of_succ_lt_succ hlt
    replace hbranch : tree.depth + (rest.length + 1) ≤ tokens.length + 1 := hbranch
    show Spends (if _ then _ else _) _
    split
    · intro q hq
      have hlater := spends_alternatives limit groups (tree :: before) _ rest _ q hq
      rw [List.map_cons, List.sum_cons] at hlater
      omega
    · exact .ok (by simp only [Reading.ofBranches, List.length_cons]; omega)
termination_by (tokens.length, 3)

end

/-- A pattern is at most as deep as it has tokens, and one level. -/
theorem depth_le_of_ofTokens {limit : UInt32} {tokens : List Token} {p : Pattern}
    (h : ofTokens limit tokens = .ok p) : p.depth ≤ tokens.length + 1 := by
  rw [ofTokens_eq_whole] at h
  cases hx : alternatives limit 0 [] 0 tokens (Nat.lt_succ_self _) with
  | error v =>
    rw [hx] at h
    cases h
  | ok q =>
    have hq : q.tree.depth + q.rest.length ≤ 0 + tokens.length + 1 :=
      spends_alternatives limit 0 [] 0 tokens _ q hx
    rw [hx] at h
    rw [← eq_of_whole h]
    omega

/-! ## Whole patterns -/

section

open Grammar

variable {limit : UInt32} {text : String} {p : Pattern}

/-- No pattern is much deeper than its text is long. -/
theorem depth_le_length (h : parse limit text = .ok p) : p.depth ≤ text.toList.length + 2 := by
  have hlength : (Token.characters text).length = text.toList.length := by
    rw [← List.length_map (f := (·.kind)), Token.map_kind_characters, List.length_map]
  have htokens : ofTokens limit (tokens text) = .ok p := by
    have hscan : Token.scan text >>= ofTokens limit = ofTokens limit (tokens text) := by
      rw [Token.scan_eq_ok (sentinel_notMem_of_parse h)]
      rfl
    rw [parse, hscan] at h
    cases hp : ofTokens limit (tokens text) with
    | error v =>
      rw [hp] at h
      cases h
    | ok tree =>
      rw [hp] at h
      cases h
      rfl
  have hdepth := depth_le_of_ofTokens htokens
  rw [tokens, List.length_append, hlength, List.length_singleton] at hdepth
  exact hdepth

/-- A fold adds the logarithm of the number of items to the depth of the deepest one. -/
theorem depth_fold_le_maxDepth {join : Pattern → Pattern → Pattern}
    (hjoin : ∀ l r, (join l r).depth = 1 + max l.depth r.depth) {ps : List Pattern}
    (hps : ps ≠ []) : (fold join ps).depth ≤ Nat.clog 2 ps.length + maxDepth ps := by
  have hdepth := depth_fold_le hjoin ps
  have hpos : 0 < maxDepth ps := by
    obtain ⟨q, qs, rfl⟩ := List.exists_cons_of_ne_nil hps
    exact Nat.lt_of_lt_of_le q.depth_pos (Nat.le_max_left _ _)
  omega

/-- Every level of a pattern that could be read is folded twice, and there are no more levels than
the limit allows, if the counters of the nesting cannot wrap. -/
theorem depth_le_of_nesting (hlimit : limit.toNat + 1 < UInt32.size)
    (h : parse limit text = .ok p) : p.depth ≤ 1 + limit.toNat +
      2 * (limit.toNat + 1) * Nat.clog 2 (text.toList.length + 1) := by
  obtain ⟨d, hyield, hle, rfl⟩ := exists_derivation_of_parse hlimit h
  have hlength : d.yield.length ≤ text.toList.length := by rw [hyield, List.length_map]
  calc d.tree.depth
    _ ≤ depthBound text.toList.length d.nesting + 2 * Nat.clog 2 (text.toList.length + 1) :=
      d.depth_le hlength
    _ ≤ depthBound text.toList.length limit.toNat + 2 * Nat.clog 2 (text.toList.length + 1) :=
      Nat.add_le_add_right (depthBound_mono _ hle) _
    _ = _ := by rw [depthBound]; ring

/-- Under the largest limit the bound is far above the length of all but the longest texts. -/
theorem add_two_le_of_largest (hlimit : limit.toNat + 1 = UInt32.size) {n : Nat}
    (hn : n + 2 ≤ 79 * UInt32.size) :
    n + 2 ≤ 1 + limit.toNat + 2 * (limit.toNat + 1) * Nat.clog 2 (n + 1) := by
  rw [Nat.add_comm 1, hlimit]
  rcases Nat.lt_or_ge (Nat.clog 2 (n + 1)) 39 with hshort | hlong
  · have hpow : n + 1 ≤ 2 ^ Nat.clog 2 (n + 1) := Nat.le_pow_clog Nat.one_lt_two _
    have hsmall : ∀ c < 39, 2 ^ c + 1 ≤ UInt32.size + 2 * UInt32.size * c := by decide
    exact (Nat.succ_le_succ hpow).trans (hsmall _ hshort)
  · have hmul := Nat.mul_le_mul_left (2 * UInt32.size) hlong
    omega

/-- A pattern that could be read is at most two levels deeper than its text is long. It is at most
as deep as groups and suffixes may nest, with two logarithms of the length of its text for every
level, if the counters of the nesting cannot wrap. They can under the largest limit, which refuses
nothing; the bound holds there as well, but not for texts about eighty times as long as the counters
count. A fold of patterns, whatever they are, adds the logarithm of their number to the depth of the
deepest one. -/
theorem depth_le_of_parse (limit : UInt32) (text : String) :
    (∀ p, parse limit text = .ok p →
      p.depth ≤ text.toList.length + 2 ∧
      (limit.toNat + 1 < UInt32.size ∨ text.toList.length + 2 ≤ 79 * UInt32.size →
        p.depth ≤ 1 + limit.toNat +
          2 * (limit.toNat + 1) * Nat.clog 2 (text.toList.length + 1))) ∧
    ∀ ps : List Pattern, ps ≠ [] →
      (seqAll ps).depth ≤ Nat.clog 2 ps.length + maxDepth ps ∧
      (altAll ps).depth ≤ Nat.clog 2 ps.length + maxDepth ps := by
  refine ⟨fun p h => ⟨depth_le_length h, fun hsize => ?_⟩, fun ps hps =>
    ⟨depth_fold_le_maxDepth (fun _ _ => rfl) hps, depth_fold_le_maxDepth (fun _ _ => rfl) hps⟩⟩
  by_cases hlimit : limit.toNat + 1 < UInt32.size
  · exact depth_le_of_nesting hlimit h
  · have hlargest : limit.toNat + 1 = UInt32.size :=
      Nat.le_antisymm limit.toNat_lt_size (Nat.not_lt.1 hlimit)
    exact (depth_le_length h).trans (add_two_le_of_largest hlargest (hsize.resolve_left hlimit))

/-- The six characters of `a|(b)*`, two levels deep, could make a pattern of depth 21. -/
theorem depth_le_of_parse_repeated_group :
    (2 : UInt32).toNat + 1 < UInt32.size ∧
      parse 2 "a|(b)*" = .ok (.alt (.literal 'a') (.star (.literal 'b'))) ∧
      (Pattern.alt (.literal 'a') (.star (.literal 'b'))).depth ≤ 21 := by
  have hlimit : (2 : UInt32).toNat + 1 < UInt32.size := by decide
  have hrun : Reader.start.run 2 (tokens "a|(b)*") = .ok ⟨[],
      .snoc (.single (.snoc .empty (.bare (.char 'a')))) (.snoc .empty
        (.suffixed (.bare (.group (.single (.snoc .empty (.bare (.char 'b')))))) .star))⟩ :=
    run_tokens (by decide) (by decide)
  have hparse : parse 2 "a|(b)*" = .ok (.alt (.literal 'a') (.star (.literal 'b'))) := by
    refine (parse_eq_ok_iff hlimit (by decide)).2 ⟨_, hrun, ?_⟩
    simp [Alternatives.tree, Alternatives.branches, Sequence.items, Item.tree, Factor.tree,
      Suffix.wrap, altAll, seqAll, fold]
  have hbound : 1 + (2 : UInt32).toNat +
      2 * ((2 : UInt32).toNat + 1) * Nat.clog 2 ("a|(b)*".toList.length + 1) = 21 := by
    have hclog : Nat.clog 2 7 = 3 := by decide
    show 1 + 2 + 2 * (2 + 1) * Nat.clog 2 7 = 21
    rw [hclog]
  exact ⟨hlimit, hparse, hbound ▸ ((depth_le_of_parse 2 "a|(b)*").1 _ hparse).2 (.inl hlimit)⟩

/-! ## Too many suffixes -/

/-- The text of an `a` with `count` stars. -/
def starred (count : Nat) : String :=
  .ofList ('a' :: List.replicate count '*')

/-- An `a` repeated `count` times over. -/
def repeated (count : Nat) : Pattern :=
  star^[count] (.literal 'a')

/-- Each suffix adds a level. -/
theorem depth_repeated (count : Nat) : (repeated count).depth = count + 1 := by
  induction count with
  | zero => rfl
  | succ count ih =>
    rw [repeated, Function.iterate_succ_apply', depth, ← repeated, ih, Nat.add_comm]

/-- A character at the beginning is read, and suffixes are looked for behind it. -/
theorem comes_suffixes_leaf (limit : UInt32) {t : Token} {leaf : Pattern} (rest : List Token)
    (hleaf : leaf? t.kind = some leaf) : Descent.Comes limit (.start (t :: rest))
      ⟨.suffixes leaf 0, 0, [.sequence [] 0, .alternatives [] 0], rest⟩ := by
  have hitem : Descent.turn limit ⟨.sequence [] 0, 0, [.alternatives [] 0], t :: rest⟩ =
      .next ⟨.item t, 0, [.sequence [] 0, .alternatives [] 0], rest⟩ := by
    have hbegins : t.kind.beginsItem = true := by
      cases hk : t.kind with
      | char _ | any | opening => rfl
      | bar | star | plus | question | closing | ending =>
        rw [hk] at hleaf
        cases hleaf
    simp only [Descent.turn, if_pos hbegins]
  have hfactor : Descent.turn limit
      ⟨.factor t, 0, [.item, .sequence [] 0, .alternatives [] 0], rest⟩ =
      .next ⟨.returned leaf 0, 0, [.item, .sequence [] 0, .alternatives [] 0], rest⟩ := by
    simp only [Descent.turn, hleaf]
  exact .head rfl (.head hitem (.head rfl (.head hfactor (.single rfl))))

/-- Under the largest limit all stars are read, although the counter of the nesting wraps. -/
theorem comes_suffixes_stars (hlimit : limit.toNat + 1 = UInt32.size) {stars : List Token}
    (hstars : ∀ t ∈ stars, t.kind = .star) (rest : List Token) (tree : Pattern)
    (nest groups : UInt32) (calls : List Descent.Call) : ∃ nest', Descent.Comes limit
      ⟨.suffixes tree nest, groups, calls, stars ++ rest⟩
      ⟨.suffixes (star^[stars.length] tree) nest', groups, calls, rest⟩ := by
  induction stars generalizing tree nest with
  | nil => exact ⟨nest, .refl⟩
  | cons t stars ih =>
    have hkind : t.kind = .star := hstars t List.mem_cons_self
    have hle : (nest + 1).toNat ≤ limit.toNat := by
      have := (nest + 1).toNat_lt_size
      omega
    have hcheck : checkNesting limit (nest + 1) t.span = .ok () := checkNesting_eq_ok_iff.2 hle
    obtain ⟨nest', hcomes⟩ :=
      ih (fun u hu => hstars u (List.mem_cons_of_mem t hu)) (star tree) (nest + 1)
    have hread : Descent.turn limit ⟨.suffixes tree nest, groups, calls, t :: (stars ++ rest)⟩ =
        .next ⟨.suffix t.span (star tree) (nest + 1), groups, calls, stars ++ rest⟩ := by
      simp only [Descent.turn, hkind, repetition?]
    have hpass : Descent.turn limit
        ⟨.suffix t.span (star tree) (nest + 1), groups, calls, stars ++ rest⟩ =
        .next ⟨.suffixes (star tree) (nest + 1), groups, calls, stars ++ rest⟩ := by
      simp only [Descent.turn, Descent.checked, hcheck]
    exact ⟨nest', .head hread (.head hpass hcomes)⟩

/-- Under the largest limit any number of stars may stand behind an `a`. -/
theorem parse_starred (hlimit : limit.toNat + 1 = UInt32.size) (count : Nat) :
    parse limit (starred count) = .ok (repeated count) := by
  have hlist : (starred count).toList = 'a' :: List.replicate count '*' := String.toList_ofList
  have hsentinel : Text.sentinel ∉ (starred count).toList := by
    rw [hlist, List.mem_cons, not_or]
    exact ⟨by decide, fun h => absurd (List.eq_of_mem_replicate h) (by decide)⟩
  have hkinds : (Token.characters (starred count)).map (·.kind) =
      .char 'a' :: List.replicate count .star := by
    rw [Token.map_kind_characters, hlist, List.map_cons, List.map_replicate]
    rfl
  obtain ⟨a, stars, hcharacters, ha, hstars⟩ := List.map_eq_cons_iff.1 hkinds
  have hlength : stars.length = count := by
    rw [← List.length_map (f := (·.kind)), hstars, List.length_replicate]
  have hstar : ∀ t ∈ stars, t.kind = .star := by
    intro t ht
    exact List.eq_of_mem_replicate (hstars ▸ List.mem_map_of_mem ht)
  let last := Token.ending (Text.byteLength (starred count).toList)
  have hscan : Token.scan (starred count) = .ok (a :: (stars ++ [last])) := by
    rw [Token.scan_eq_ok hsentinel, hcharacters]
    rfl
  refine ((Descent.ends_start_iff limit hscan).1 _).2 ?_
  have hleaf : leaf? a.kind = some (.literal 'a') := by rw [ha, leaf?]
  have hfirst := comes_suffixes_leaf limit (stars ++ [last]) hleaf
  obtain ⟨nest, hstars⟩ := comes_suffixes_stars hlimit hstar [last] (.literal 'a') 0 0
    [.sequence [] 0, .alternatives [] 0]
  rw [hlength] at hstars
  have hfold : altAll [seqAll [repeated count]] = repeated count := by
    simp only [altAll, seqAll, fold]
  have hlast := Descent.comes_after limit 4 ⟨.suffixes (repeated count) nest, 0,
    [.sequence [] 0, .alternatives [] 0], [last]⟩
  refine ⟨_, hfirst.trans (hstars.trans hlast), ?_⟩
  exact congrArg (fun p => Descent.Turn.ended (.ok p)) hfold

/-- Under the largest limit an `a` may be repeated so often that the pattern is deeper than the
limit and a logarithm of the length of its text allow. -/
theorem depth_of_parse_starred :
    ∃ p, parse 0xFFFFFFFF (starred (79 * UInt32.size)) = .ok p ∧
      1 + (0xFFFFFFFF : UInt32).toNat + 2 * ((0xFFFFFFFF : UInt32).toNat + 1) *
        Nat.clog 2 ((starred (79 * UInt32.size)).toList.length + 1) < p.depth := by
  refine ⟨_, parse_starred rfl _, ?_⟩
  have hlength : (starred (79 * UInt32.size)).toList.length = 79 * UInt32.size + 1 := by
    rw [starred, String.toList_ofList, List.length_cons, List.length_replicate]
  have hclog : Nat.clog 2 (79 * UInt32.size + 1 + 1) ≤ 39 :=
    Nat.clog_le_of_le_pow (by decide)
  have hmul := Nat.mul_le_mul_left (2 * ((0xFFFFFFFF : UInt32).toNat + 1)) hclog
  have hsize : (0xFFFFFFFF : UInt32).toNat + 1 = UInt32.size := rfl
  rw [hlength, depth_repeated]
  omega

end

end Pattern

end PatternMachine
