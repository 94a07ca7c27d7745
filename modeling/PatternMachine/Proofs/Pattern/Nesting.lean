import Mathlib.Logic.Function.Basic
import PatternMachine.Proofs.Pattern.Parse
import PatternMachine.Proofs.Pattern.Rules

/-!
# The nesting of what a rule has read

In a derivation, groups and suffixes stand around every character and around every empty sequence.
The nesting of the derivation is how many of them stand around the innermost one (`max?_levels`),
and the tokens determine the derivation (`yield_injective`). A rule that succeeds has read the
tokens of a derivation, with the tree and the nesting that it returns; the nesting is within the
limit, and the counters that lead to it do not wrap (`Pattern.reads_factor` and its like for the
other rules).
-/

namespace PatternMachine

namespace Grammar

/-! ## Levels -/

mutual

/-- How many groups and suffixes of a factor stand around each of its characters and empty
sequences. -/
def Factor.levels : Factor → List Nat
  | .char _ => [0]
  | .any => [0]
  | .group content => content.levels.map (· + 1)

/-- How many groups and suffixes of an item stand around each of its characters and empty
sequences. -/
def Item.levels : Item → List Nat
  | .bare f => f.levels
  | .suffixed i _ => i.levels.map (· + 1)

/-- The levels of the items of a sequence. -/
def Sequence.itemLevels : Sequence → List Nat
  | .empty => []
  | .snoc s i => s.itemLevels ++ i.levels

/-- How many groups and suffixes of a sequence stand around each of its characters and empty
sequences, one of which it is itself if it has no items. -/
def Sequence.levels : Sequence → List Nat
  | .empty => [0]
  | .snoc s i => s.itemLevels ++ i.levels

/-- How many groups and suffixes of an alternative stand around each of its characters and empty
sequences. -/
def Alternatives.levels : Alternatives → List Nat
  | .single s => s.levels
  | .snoc a s => a.levels ++ s.levels

end

section

variable {ms ns : List Nat} {m n : Nat}

/-- The greatest number of two lists is the greater one of theirs. -/
theorem max?_append (hm : ms.max? = some m) (hn : ns.max? = some n) :
    (ms ++ ns).max? = some (max m n) := by
  rw [List.max?_eq_some_iff] at *
  refine ⟨?_, ?_⟩
  · rcases Nat.le_total m n with h | h
    · rw [Nat.max_eq_right h]
      exact List.mem_append_right ms hn.1
    · rw [Nat.max_eq_left h]
      exact List.mem_append_left ns hm.1
  · intro k hk
    rcases List.mem_append.1 hk with hk | hk
    · exact (hm.2 k hk).trans (Nat.le_max_left m n)
    · exact (hn.2 k hk).trans (Nat.le_max_right m n)

/-- One more everywhere is one more at the greatest. -/
theorem max?_map_succ (hn : ns.max? = some n) : (ns.map (· + 1)).max? = some (n + 1) := by
  rw [List.max?_eq_some_iff] at *
  refine ⟨List.mem_map_of_mem hn.1, ?_⟩
  intro k hk
  obtain ⟨l, hl, rfl⟩ := List.mem_map.1 hk
  exact Nat.succ_le_succ (hn.2 l hl)

end

mutual

/-- The nesting of a factor is its greatest level. -/
theorem Factor.max?_levels (f : Factor) : f.levels.max? = some f.nesting := by
  cases f with
  | char _ | any => rfl
  | group content => exact max?_map_succ content.max?_levels

/-- The nesting of an item is its greatest level. -/
theorem Item.max?_levels (i : Item) : i.levels.max? = some i.nesting := by
  cases i with
  | bare f => exact f.max?_levels
  | suffixed i _ => exact max?_map_succ i.max?_levels

/-- The nesting of a sequence is its greatest level. -/
theorem Sequence.max?_levels (s : Sequence) : s.levels.max? = some s.nesting := by
  cases s with
  | empty => rfl
  | snoc s i =>
    have hs := s.max?_levels
    cases s with
    | empty => exact i.max?_levels.trans (congrArg some (Nat.zero_max _).symm)
    | snoc s j => exact max?_append hs i.max?_levels

/-- The nesting of an alternative is its greatest level. -/
theorem Alternatives.max?_levels (a : Alternatives) : a.levels.max? = some a.nesting := by
  cases a with
  | single s => exact s.max?_levels
  | snoc a s => exact max?_append a.max?_levels s.max?_levels

end

/-! ## Unambiguity

A reader that goes through the tokens of a derivation ends up with that derivation, so the tokens
determine it. -/

mutual

/-- The tokens of a factor are read as that factor. -/
theorem foldl_factor (f : Factor) {ts : List Token} (hts : ts.map (·.kind) = f.yield) (r : Reader) :
    ts.foldl Reader.read r = r.push (.bare f) := by
  match f with
  | .char c =>
    obtain ⟨t, rfl, ht⟩ := List.map_eq_singleton_iff.1 hts
    rw [List.foldl_cons, List.foldl_nil, Reader.read, ht]
  | .any =>
    obtain ⟨t, rfl, ht⟩ := List.map_eq_singleton_iff.1 hts
    rw [List.foldl_cons, List.foldl_nil, Reader.read, ht]
  | .group content =>
    rw [Factor.yield] at hts
    obtain ⟨us, vs, rfl, hus, hvs⟩ := List.map_eq_append_iff.1 hts
    obtain ⟨t, us, rfl, ht, hus⟩ := List.map_eq_cons_iff.1 hus
    obtain ⟨u, rfl, hu⟩ := List.map_eq_singleton_iff.1 hvs
    have hread : r.read t = ⟨⟨t.span, r.content⟩ :: r.groups, .single .empty⟩ := by
      rw [Reader.read, ht]
    rw [List.cons_append, List.foldl_cons, List.foldl_append, hread, foldl_alternatives content hus,
      List.foldl_cons, List.foldl_nil, Reader.read, hu]
    rfl

/-- The tokens of an item are read as that item. -/
theorem foldl_item (i : Item) {ts : List Token} (hts : ts.map (·.kind) = i.yield) (r : Reader) :
    ts.foldl Reader.read r = r.push i := by
  match i with
  | .bare f => exact foldl_factor f hts r
  | .suffixed i op =>
    rw [Item.yield] at hts
    obtain ⟨us, vs, rfl, hus, hvs⟩ := List.map_eq_append_iff.1 hts
    obtain ⟨t, rfl, ht⟩ := List.map_eq_singleton_iff.1 hvs
    rw [List.foldl_append, foldl_item i hus, List.foldl_cons, List.foldl_nil,
      Reader.read_of_suffix ht]
    simp only [Reader.push, Reader.suffix, Alternatives.suffix_push]

/-- The tokens of a sequence, behind nothing, are read as that sequence. -/
theorem foldl_sequence (s : Sequence) {ts : List Token} (hts : ts.map (·.kind) = s.yield)
    (groups : List OpenGroup) (before : Option Alternatives) :
    ts.foldl Reader.read ⟨groups, .behind before .empty⟩ = ⟨groups, .behind before s⟩ := by
  match s with
  | .empty =>
    obtain rfl := List.map_eq_nil_iff.1 hts
    rfl
  | .snoc s i =>
    rw [Sequence.yield] at hts
    obtain ⟨us, vs, rfl, hus, hvs⟩ := List.map_eq_append_iff.1 hts
    rw [List.foldl_append, foldl_sequence s hus, foldl_item i hvs, Reader.push,
      Alternatives.push_behind]

/-- The tokens of an alternative, behind nothing, are read as that alternative. -/
theorem foldl_alternatives (a : Alternatives) {ts : List Token}
    (hts : ts.map (·.kind) = a.yield) (groups : List OpenGroup) :
    ts.foldl Reader.read ⟨groups, .single .empty⟩ = ⟨groups, a⟩ := by
  match a with
  | .single s => exact foldl_sequence s hts groups none
  | .snoc a s =>
    rw [Alternatives.yield] at hts
    obtain ⟨us, vs, rfl, hus, hvs⟩ := List.map_eq_append_iff.1 hts
    obtain ⟨t, vs, rfl, ht, hvs⟩ := List.map_eq_cons_iff.1 hvs
    have hread : Reader.read ⟨groups, a⟩ t = ⟨groups, .behind (some a) .empty⟩ := by
      rw [Reader.read, ht]
      rfl
    rw [List.foldl_append, foldl_alternatives a hus, List.foldl_cons, hread,
      foldl_sequence s hvs groups (some a)]
    rfl

end

/-- Tokens of given kinds. -/
theorem exists_tokens (ks : List Token.Kind) : ∃ ts : List Token, ts.map (·.kind) = ks :=
  ⟨ks.map fun k => ⟨k, .point 0⟩, by rw [List.map_map]; exact List.map_id ks⟩

/-- A factor is determined by its tokens. -/
theorem Factor.yield_injective : Function.Injective Factor.yield := by
  intro f g h
  obtain ⟨ts, hts⟩ := exists_tokens f.yield
  have heq := (foldl_factor f hts .start).symm.trans (foldl_factor g (hts.trans h) .start)
  cases heq
  rfl

/-- An item is determined by its tokens. -/
theorem Item.yield_injective : Function.Injective Item.yield := by
  intro i j h
  obtain ⟨ts, hts⟩ := exists_tokens i.yield
  have heq := (foldl_item i hts .start).symm.trans (foldl_item j (hts.trans h) .start)
  cases heq
  rfl

/-- A sequence is determined by its tokens. -/
theorem Sequence.yield_injective : Function.Injective Sequence.yield := by
  intro s u h
  obtain ⟨ts, hts⟩ := exists_tokens s.yield
  have heq := (foldl_sequence s hts [] none).symm.trans (foldl_sequence u (hts.trans h) [] none)
  cases heq
  rfl

/-- An alternative is determined by its tokens. -/
theorem Alternatives.yield_injective : Function.Injective Alternatives.yield := by
  intro a b h
  obtain ⟨ts, hts⟩ := exists_tokens a.yield
  have heq := (foldl_alternatives a hts []).symm.trans (foldl_alternatives b (hts.trans h) [])
  cases heq
  rfl

end Grammar

namespace Pattern

open Grammar

/-! ## What the rules have read -/

/-- Behind what `before` has derived, the rule has read `tokens` up to the end of `yield`, which
stands for `tree` and nests `nesting` deep, no deeper than allowed. -/
structure Reading.Reads {bound : Nat} (q : Reading bound) (limit : UInt32)
    (before : List Token.Kind) (tokens : List Token) (yield : List Token.Kind) (tree : Pattern)
    (nesting : Nat) : Prop where
  rest_suffix : q.rest <:+ tokens
  yield_eq : yield ++ q.rest.map (·.kind) = before ++ tokens.map (·.kind)
  tree_eq : q.tree = tree
  nest_eq : q.nest.toNat = nesting
  nesting_le : nesting ≤ limit.toNat

/-- The rule has read `tokens` up to the end of a derivation with that `yield` and that `tree`, and
has counted its nesting: the greatest of its `levels`, which is within the limit. -/
structure Reading.Exact {bound : Nat} (q : Reading bound) (limit : UInt32) (tokens : List Token)
    (yield : List Token.Kind) (tree : Pattern) (levels : List Nat) : Prop where
  exists_used : ∃ used, tokens = used ++ q.rest ∧ used.map (·.kind) = yield
  tree_eq : q.tree = tree
  max?_levels : levels.max? = some q.nest.toNat
  nest_le : q.nest.toNat ≤ limit.toNat

namespace Reading.Reads

variable {limit : UInt32} {bound : Nat} {q : Reading bound} {before yield : List Token.Kind}
  {tokens rest : List Token} {tree : Pattern} {nesting : Nat}

/-- What has been read behind a part that was read before. -/
theorem behind {part : List Token.Kind} (h : q.Reads limit (before ++ part) rest yield tree nesting)
    (hrest : rest <:+ tokens) (hpart : part ++ rest.map (·.kind) = tokens.map (·.kind)) :
    q.Reads limit before tokens yield tree nesting :=
  { h with
    rest_suffix := h.rest_suffix.trans hrest
    yield_eq := by rw [h.yield_eq, List.append_assoc, hpart] }

/-- A rule with nothing before it has read the tokens of its derivation. -/
theorem exact {levels : List Nat} (h : q.Reads limit [] tokens yield tree nesting)
    (hlevels : levels.max? = some nesting) : q.Exact limit tokens yield tree levels := by
  obtain ⟨used, hused⟩ := h.rest_suffix
  have hyield := h.yield_eq
  rw [List.nil_append, ← hused, List.map_append] at hyield
  exact {
    exists_used := ⟨used, hused.symm, (List.append_cancel_right hyield).symm⟩
    tree_eq := h.tree_eq
    max?_levels := h.nest_eq ▸ hlevels
    nest_le := h.nest_eq ▸ h.nesting_le }

end Reading.Reads

/-- Suffixes are read behind an item. -/
theorem reads_suffixes {limit : UInt32} (hlimit : limit.toNat + 1 < UInt32.size) (i : Item)
    {nest : UInt32} (hnest : nest.toNat = i.nesting) (hle : i.nesting ≤ limit.toNat)
    (tokens : List Token) {bound : Nat} (h : tokens.length < bound) :
    Ensures (suffixes limit i.tree nest tokens h) fun q =>
      ∃ i' : Item, q.Reads limit i.yield tokens i'.yield i'.tree i'.nesting := by
  induction tokens generalizing i nest with
  | nil => exact .ok ⟨i, List.suffix_rfl, rfl, rfl, hnest, hle⟩
  | cons t rest ih =>
    rw [suffixes]
    cases hwrap : repetition? t.kind with
    | none => exact .ok ⟨i, List.suffix_rfl, rfl, rfl, hnest, hle⟩
    | some wrap =>
      obtain ⟨op, hk, rfl⟩ := repetition?_eq_some_iff.1 hwrap
      have hsucc : (nest + 1).toNat = (Item.suffixed i op).nesting := by
        rw [toNat_succ hlimit (hnest ▸ hle), hnest, Item.nesting]
      refine .check fun hchecked => ?_
      refine (ih (.suffixed i op) hsucc (hsucc ▸ hchecked) (Nat.lt_of_succ_lt h)).mono ?_
      rintro q ⟨i', hq⟩
      rw [Item.yield] at hq
      exact ⟨i', hq.behind (List.suffix_cons t rest) (by rw [List.map_cons, hk]; rfl)⟩

/-- A group is read behind its content. -/
theorem reads_closed {limit : UInt32} (hlimit : limit.toNat + 1 < UInt32.size) {t : Token}
    (ht : t.kind = .opening) {rest : List Token} {bound : Nat} {q : Reading bound}
    {a : Alternatives} (hq : q.Reads limit [] rest a.yield a.tree a.nesting) :
    Ensures (q.closed limit t) fun q' =>
      ∃ f : Factor, q'.Reads limit [] (t :: rest) f.yield f.tree f.nesting := by
  refine .closed fun close outside hrest hclosing hchecked hlt => ?_
  have hsucc : (q.nest + 1).toNat = (Factor.group a).nesting := by
    rw [toNat_succ hlimit (hq.nest_eq ▸ hq.nesting_le), hq.nest_eq, Factor.nesting]
  refine ⟨.group a, ?_, ?_, ?_, hsucc, hsucc ▸ hchecked⟩
  · have houtside : outside <:+ q.rest := hrest ▸ List.suffix_cons close outside
    exact (houtside.trans hq.rest_suffix).trans (List.suffix_cons t rest)
  · have hyield := hq.yield_eq
    rw [hrest, List.map_cons, hclosing] at hyield
    simpa [Factor.yield, ht] using hyield
  · rw [hq.tree_eq, Factor.tree, Alternatives.tree]

mutual

/-- A factor that is read has a derivation. -/
theorem reads_factor {limit : UInt32} (hlimit : limit.toNat + 1 < UInt32.size) (groups : UInt32)
    (t : Token) (rest : List Token) :
    Ensures (factor limit groups t rest) fun q =>
      ∃ f : Factor, q.Reads limit [] (t :: rest) f.yield f.tree f.nesting := by
  cases hk : t.kind with
  | char c =>
    have hleaf : leaf? t.kind = some (.literal c) := by rw [hk, leaf?]
    rw [factor_of_leaf hleaf]
    exact .ok
      ⟨.char c, List.suffix_cons t rest, by simp [Factor.yield, hk], rfl, rfl, Nat.zero_le _⟩
  | any =>
    have hleaf : leaf? t.kind = some .any := by rw [hk, leaf?]
    rw [factor_of_leaf hleaf]
    exact .ok ⟨.any, List.suffix_cons t rest, by simp [Factor.yield, hk], rfl, rfl, Nat.zero_le _⟩
  | opening =>
    rw [factor_of_opening hk]
    refine .check fun _ =>
      (reads_alternatives hlimit (groups + 1) none rfl (Nat.zero_le _) rest _).bind ?_
    rintro q ⟨a, hq⟩
    exact reads_closed hlimit hk hq
  | bar | star | plus | question | closing | ending =>
    rw [factor_of_unexpected (by rw [hk, leaf?]) (by rw [hk]; exact nofun)]
    exact .error _
termination_by (rest.length + 1, 0)

/-- An item that is read has a derivation. -/
theorem reads_item {limit : UInt32} (hlimit : limit.toNat + 1 < UInt32.size) (groups : UInt32)
    (t : Token) (rest : List Token) :
    Ensures (item limit groups t rest) fun q =>
      ∃ i : Item, q.Reads limit [] (t :: rest) i.yield i.tree i.nesting := by
  refine (reads_factor hlimit groups t rest).bind ?_
  rintro ⟨tree, nest, tokens, hlt⟩ ⟨f, hsuffix, hyield, rfl, hnest, hle⟩
  refine (reads_suffixes hlimit (.bare f) hnest hle tokens hlt).mono ?_
  rintro q ⟨i, hq⟩
  exact ⟨i, hq.behind hsuffix hyield⟩
termination_by (rest.length + 1, 1)

/-- Items are read behind those of `s`. -/
theorem reads_sequence {limit : UInt32} (hlimit : limit.toNat + 1 < UInt32.size) (groups : UInt32)
    (s : Sequence) {nest : UInt32} (hnest : nest.toNat = s.nesting) (hle : s.nesting ≤ limit.toNat)
    (tokens : List Token) {bound : Nat} (h : tokens.length < bound) :
    Ensures (sequence limit groups s.items.reverse nest tokens h) fun q =>
      ∃ s' : Sequence, q.Reads limit s.yield tokens s'.yield s'.tree s'.nesting := by
  have hdone : (seqAll s.items.reverse.reverse) = s.tree := by
    rw [List.reverse_reverse, Sequence.tree]
  match tokens with
  | [] =>
    rw [sequence]
    exact .ok ⟨s, List.suffix_rfl, rfl, hdone, hnest, hle⟩
  | t :: rest =>
    rw [sequence_cons]
    split
    · refine (reads_item hlimit groups t rest).bind ?_
      rintro ⟨tree, inest, tokens, hlt⟩ ⟨i, hsuffix, hyield, rfl, hinest, hile⟩
      have hmax : (max nest inest).toNat = (s.snoc i).nesting := by
        rw [UInt32.toNat_max, hnest, hinest, Sequence.nesting]
      simp only [← Sequence.reverse_items_snoc]
      have hmaxle := Nat.max_le.2 ⟨hle, hile⟩
      refine (reads_sequence hlimit groups (s.snoc i) hmax hmaxle tokens _).mono ?_
      rintro q ⟨s', hq⟩
      rw [Sequence.yield] at hq
      exact ⟨s', hq.behind hsuffix hyield⟩
    · exact .ok ⟨s, List.suffix_rfl, rfl, hdone, hnest, hle⟩
termination_by (tokens.length, 2)

/-- Branches are read behind those of `before` and a further `|`. -/
theorem reads_alternatives {limit : UInt32} (hlimit : limit.toNat + 1 < UInt32.size)
    (groups : UInt32) (before : Option Alternatives) {nest : UInt32}
    (hnest : nest.toNat = before.elim 0 Alternatives.nesting) (hle : nest.toNat ≤ limit.toNat)
    (tokens : List Token) {bound : Nat} (h : tokens.length < bound) :
    Ensures (alternatives limit groups (before.elim [] Alternatives.branches).reverse nest tokens h)
      fun q => ∃ a : Alternatives, q.Reads limit (before.elim [] fun b => b.yield ++ [.bar]) tokens
        a.yield a.tree a.nesting := by
  rw [alternatives]
  refine (reads_sequence hlimit groups .empty rfl (Nat.zero_le _) tokens _).bind ?_
  rintro ⟨tree, snest, tokens', hlt⟩ ⟨s, hsuffix, hyield, rfl, hsnest, hsle⟩
  have hmax : (max nest snest).toNat = (Alternatives.behind before s).nesting := by
    rw [UInt32.toNat_max, hnest, hsnest, Alternatives.nesting_behind]
  have hmaxle : (max nest snest).toNat ≤ limit.toNat := toNat_max_le hle (hsnest ▸ hsle)
  have hdone : altAll (s.tree :: (before.elim [] Alternatives.branches).reverse).reverse =
      (Alternatives.behind before s).tree := by
    rw [← Alternatives.reverse_branches_behind, List.reverse_reverse, Alternatives.tree]
  have hbehind : (before.elim [] fun b => b.yield ++ [.bar]) ++ s.yield =
      (Alternatives.behind before s).yield := by
    cases before with
    | none => rfl
    | some b =>
      rw [Alternatives.behind, Alternatives.yield, Option.elim_some, List.append_assoc]
      rfl
  -- Whatever is read behind this branch is read behind the branches before it.
  have hread : ∀ {q : Reading bound} {yield : List Token.Kind} {tree : Pattern} {nesting : Nat},
      q.Reads limit (Alternatives.behind before s).yield tokens' yield tree nesting →
      q.Reads limit (before.elim [] fun b => b.yield ++ [.bar]) tokens yield tree nesting :=
    fun hq => (hbehind ▸ hq).behind hsuffix hyield
  cases tokens' with
  | nil =>
    exact .ok ⟨.behind before s, hread ⟨List.suffix_rfl, rfl, hdone, hmax, hmax ▸ hmaxle⟩⟩
  | cons t rest =>
    have hlt' : rest.length < tokens.length := Nat.lt_of_succ_lt_succ hlt
    show Ensures (if _ then _ else _) _
    split
    · rename_i hbar
      simp only [← Alternatives.reverse_branches_behind]
      refine (reads_alternatives hlimit groups (some (.behind before s)) hmax hmaxle rest _).mono ?_
      rintro q ⟨a, hq⟩
      exact ⟨a, hread (hq.behind (List.suffix_cons t rest) (by rw [List.map_cons, hbar]; rfl))⟩
    · exact .ok ⟨.behind before s, hread ⟨List.suffix_rfl, rfl, hdone, hmax, hmax ▸ hmaxle⟩⟩
termination_by (tokens.length, 3)

end

end Pattern

end PatternMachine
