import PatternMachine.Proofs.Pattern.Grammar
import PatternMachine.SyntaxError

/-!
# Reading a pattern from left to right

A reader goes through the tokens of a pattern once, from left to right. It keeps a stack of the open
groups and, for each of them and for what surrounds them all, the derivation of what has been read
there. `Reader.Breaks` says which rules a token can break, and `Reader.violation?` decides it;
`Reader.run` reads tokens up to the first that breaks one. What reading a token does otherwise is
`Reader.Reads`.
-/

namespace PatternMachine

namespace Grammar

/-- The last item of a sequence. -/
def Sequence.last? : Sequence → Option Item
  | empty => none
  | snoc _ i => some i

/-- The sequence with `op` behind its last item. -/
def Sequence.suffix (op : Suffix) : Sequence → Sequence
  | empty => empty
  | snoc s i => snoc s (.suffixed i op)

namespace Alternatives

/-- The alternative with a changed last branch. -/
def mapLast (f : Sequence → Sequence) : Alternatives → Alternatives
  | single s => single (f s)
  | snoc a s => snoc a (f s)

/-- The alternative with a further item in its last branch. -/
def push (a : Alternatives) (i : Item) : Alternatives :=
  a.mapLast (.snoc · i)

/-- The last item of the last branch: what a suffix behind the alternative would repeat. -/
def operand? : Alternatives → Option Item
  | single s => s.last?
  | snoc _ s => s.last?

/-- The alternative that ends in the branch `s`, with the branches of `before` in front of it. -/
def behind (before : Option Alternatives) (s : Sequence) : Alternatives :=
  match before with
  | none => single s
  | some a => snoc a s

variable {a : Alternatives} {i : Item} {before : Option Alternatives} {s : Sequence}

/-- The operand behind an item is that item. -/
@[simp]
theorem operand?_push : (a.push i).operand? = some i := by
  cases a <;> rfl

/-- An item puts its tokens behind those of the alternative. -/
@[simp]
theorem yield_push : (a.push i).yield = a.yield ++ i.yield := by
  cases a <;> simp [push, mapLast, Alternatives.yield, Sequence.yield]

/-- An item may nest deeper than what stands before it. -/
@[simp]
theorem nesting_push : (a.push i).nesting = max a.nesting i.nesting := by
  cases a <;> simp [push, mapLast, Alternatives.nesting, Sequence.nesting, Nat.max_assoc]

/-- A suffix goes to the item before it. -/
@[simp]
theorem suffix_push (op : Suffix) :
    (a.push i).mapLast (.suffix op) = a.push (.suffixed i op) := by
  cases a <;> rfl

/-- An alternative has an operand if its last branch ends in that item. -/
theorem exists_of_operand? (h : a.operand? = some i) : ∃ a' : Alternatives, a = a'.push i := by
  cases a with
  | single s =>
    cases s with
    | empty => cases h
    | snoc s j =>
      cases h
      exact ⟨.single s, rfl⟩
  | snoc b s =>
    cases s with
    | empty => cases h
    | snoc s j =>
      cases h
      exact ⟨.snoc b s, rfl⟩

/-- The operand behind the branches is the last item of the last one. -/
@[simp]
theorem operand?_behind : (behind before s).operand? = s.last? := by
  cases before <;> rfl

/-- An item goes to the last branch. -/
@[simp]
theorem push_behind : (behind before s).push i = behind before (.snoc s i) := by
  cases before <;> rfl

/-- The branches before the last one count as well. -/
theorem nesting_behind :
    (behind before s).nesting = max (before.elim 0 nesting) s.nesting := by
  cases before <;> simp [behind, Alternatives.nesting]

/-- The last branch is the last pattern. -/
theorem branches_behind :
    (behind before s).branches = before.elim [] branches ++ [s.tree] := by
  cases before <;> simp [behind, Alternatives.branches, Sequence.tree]

/-- Read backwards, the pattern of the last branch comes first. -/
theorem reverse_branches_behind :
    (behind before s).branches.reverse = s.tree :: (before.elim [] branches).reverse := by
  rw [branches_behind, List.reverse_append]
  rfl

end Alternatives

end Grammar

open Grammar

/-- A group that has been opened: its parenthesis, and what stands before that in the surrounding
group. -/
structure OpenGroup where
  span : Span
  before : Alternatives

/-- What has been read of a pattern: the open groups, the innermost one first, and the content of
the innermost one. -/
structure Reader where
  groups : List OpenGroup
  content : Alternatives

namespace Reader

/-- Nothing has been read. -/
def start : Reader :=
  ⟨[], .single .empty⟩

/-- Reads an item. -/
def push (r : Reader) (i : Item) : Reader :=
  { r with content := r.content.push i }

/-- Reads a suffix. -/
def suffix (r : Reader) (op : Suffix) : Reader :=
  { r with content := r.content.mapLast (.suffix op) }

/-- Reads a token. -/
def read (r : Reader) (t : Token) : Reader :=
  match t.kind with
  | .char c => r.push (.bare (.char c))
  | .any => r.push (.bare .any)
  | .bar => { r with content := r.content.snoc .empty }
  | .star => r.suffix .star
  | .plus => r.suffix .plus
  | .question => r.suffix .question
  | .opening => ⟨⟨t.span, r.content⟩ :: r.groups, .single .empty⟩
  | .closing =>
    match r.groups with
    | [] => r
    | g :: groups => ⟨groups, g.before.push (.bare (.group r.content))⟩
  | .ending => r

/-- The violation with which the token `t` breaks a rule, if it breaks one, when groups and suffixes
may nest `limit` deep. -/
def violation? (limit : UInt32) (r : Reader) (t : Token) : Option Violation :=
  match t.kind with
  | .star | .plus | .question =>
    match r.content.operand? with
    | none => some ⟨.repetitionMissing, t.span⟩
    | some i =>
      if limit.toNat ≤ i.nesting then some ⟨.nestLimitExceeded limit, t.span⟩ else none
  | .opening =>
    if limit.toNat < r.groups.length + 1 then some ⟨.nestLimitExceeded limit, t.span⟩ else none
  | .closing =>
    match r.groups with
    | [] => some ⟨.groupUnopened, t.span⟩
    | g :: _ =>
      if limit.toNat ≤ r.content.nesting then some ⟨.nestLimitExceeded limit, g.span⟩ else none
  | .ending =>
    match r.groups with
    | [] => none
    | g :: _ => some ⟨.groupUnclosed, g.span⟩
  | .char _ | .any | .bar => none

/-- The token `t` breaks a rule with the violation `v`: one constructor for each way to do so. -/
inductive Breaks (limit : UInt32) (r : Reader) (t : Token) : (v : Violation) → Prop
  /-- A suffix at the start, behind `(` or behind `|`. -/
  | repetitionMissing {op : Suffix} : t.kind = op.kind → r.content.operand? = none →
      Breaks limit r t ⟨.repetitionMissing, t.span⟩
  /-- A `)` outside of all groups. -/
  | groupUnopened : t.kind = .closing → r.groups = [] → Breaks limit r t ⟨.groupUnopened, t.span⟩
  /-- A `(` with which more than `limit` groups are open. -/
  | openedTooDeep : t.kind = .opening → limit.toNat < r.groups.length + 1 →
      Breaks limit r t ⟨.nestLimitExceeded limit, t.span⟩
  /-- A suffix behind an item that nests `limit` deep. -/
  | repeatedTooDeep {op : Suffix} {i : Item} : t.kind = op.kind →
      r.content.operand? = some i → limit.toNat ≤ i.nesting →
      Breaks limit r t ⟨.nestLimitExceeded limit, t.span⟩
  /-- A `)` that closes a group whose content nests `limit` deep. -/
  | closedTooDeep {g : OpenGroup} {groups : List OpenGroup} : t.kind = .closing →
      r.groups = g :: groups → limit.toNat ≤ r.content.nesting →
      Breaks limit r t ⟨.nestLimitExceeded limit, g.span⟩
  /-- The end inside a group. -/
  | groupUnclosed {g : OpenGroup} {groups : List OpenGroup} : t.kind = .ending →
      r.groups = g :: groups → Breaks limit r t ⟨.groupUnclosed, g.span⟩

/-- Reads tokens up to the first that breaks a rule. -/
def run (limit : UInt32) (r : Reader) : List Token → Except Violation Reader
  | [] => .ok r
  | t :: ts =>
    match r.violation? limit t with
    | some v => .error v
    | none => run limit (r.read t) ts

/-- The first of `tokens` that breaks a rule does so with the violation `v`: those before it are
read without violation. -/
def FirstViolation (limit : UInt32) (tokens : List Token) (v : Violation) : Prop :=
  ∃ before t after r, tokens = before ++ t :: after ∧ start.run limit before = .ok r ∧
    Breaks limit r t v

/-! ## Single tokens -/

section

variable {limit : UInt32} {r r' : Reader} {t : Token} {ts rest : List Token} {v : Violation}

/-- A token that breaks a rule ends the run. -/
theorem run_of_violation (h : r.violation? limit t = some v) :
    r.run limit (t :: ts) = .error v := by
  rw [run, h]

/-- Any other token is read. -/
theorem run_of_no_violation (h : r.violation? limit t = none) :
    r.run limit (t :: ts) = (r.read t).run limit ts := by
  rw [run, h]

/-- A token of a suffix is read as that suffix. -/
theorem read_of_suffix {op : Suffix} (h : t.kind = op.kind) : r.read t = r.suffix op := by
  cases op <;> simp [read, h, Suffix.kind]

/-- A suffix needs something to repeat. -/
theorem violation?_of_suffix_none {op : Suffix} (h : t.kind = op.kind)
    (ho : r.content.operand? = none) :
    r.violation? limit t = some ⟨.repetitionMissing, t.span⟩ := by
  cases op <;> simp [violation?, h, ho, Suffix.kind]

/-- What a suffix repeats must not nest too deep. -/
theorem violation?_of_suffix_some {op : Suffix} {i : Item} (h : t.kind = op.kind)
    (ho : r.content.operand? = some i) : r.violation? limit t =
      if limit.toNat ≤ i.nesting then some ⟨.nestLimitExceeded limit, t.span⟩ else none := by
  cases op <;> simp [violation?, h, ho, Suffix.kind]

/-- A suffix breaks a rule only by what it repeats. -/
theorem breaks_of_suffix {op : Suffix} (hk : t.kind = op.kind)
    (h : r.violation? limit t = some v) : Breaks limit r t v := by
  cases ho : r.content.operand? with
  | none =>
    rw [violation?_of_suffix_none hk ho] at h
    cases h
    exact .repetitionMissing hk ho
  | some i =>
    rw [violation?_of_suffix_some hk ho] at h
    split at h
    · cases h
      exact .repeatedTooDeep hk ho ‹_›
    · cases h

/-- The violation that is found for a token is the one with which it breaks a rule. -/
theorem violation?_eq_some_iff : r.violation? limit t = some v ↔ Breaks limit r t v := by
  refine ⟨?_, ?_⟩
  · intro h
    cases hk : t.kind with
    | star => exact breaks_of_suffix (show t.kind = Suffix.star.kind from hk) h
    | plus => exact breaks_of_suffix (show t.kind = Suffix.plus.kind from hk) h
    | question => exact breaks_of_suffix (show t.kind = Suffix.question.kind from hk) h
    | char _ | any | bar => simp [violation?, hk] at h
    | opening =>
      simp only [violation?, hk] at h
      split at h
      · cases h
        exact .openedTooDeep hk ‹_›
      · cases h
    | closing =>
      simp only [violation?, hk] at h
      split at h
      · cases h
        exact .groupUnopened hk ‹_›
      · split at h
        · cases h
          exact .closedTooDeep hk ‹_› ‹_›
        · cases h
    | ending =>
      simp only [violation?, hk] at h
      split at h
      · cases h
      · cases h
        exact .groupUnclosed hk ‹_›
  · intro h
    cases h with
    | repetitionMissing hk ho => exact violation?_of_suffix_none hk ho
    | groupUnopened hk hg => simp [violation?, hk, hg]
    | openedTooDeep hk hlt => simp [violation?, hk, hlt]
    | repeatedTooDeep hk ho hle => rw [violation?_of_suffix_some hk ho, if_pos hle]
    | closedTooDeep hk hg hle => simp [violation?, hk, hg, hle]
    | groupUnclosed hk hg => simp [violation?, hk, hg]

/-- What reading a token without violation does. -/
inductive Reads (limit : UInt32) : (r : Reader) → (t : Token) → (r' : Reader) → Prop
  | char {r : Reader} {t : Token} {c : Char} : t.kind = .char c →
      Reads limit r t (r.push (.bare (.char c)))
  | any {r : Reader} {t : Token} : t.kind = .any → Reads limit r t (r.push (.bare .any))
  | bar {groups : List OpenGroup} {content : Alternatives} {t : Token} : t.kind = .bar →
      Reads limit ⟨groups, content⟩ t ⟨groups, content.snoc .empty⟩
  | suffix {groups : List OpenGroup} {a : Alternatives} {i : Item} {t : Token} {op : Suffix} :
      t.kind = op.kind → i.nesting < limit.toNat →
      Reads limit ⟨groups, a.push i⟩ t ⟨groups, a.push (.suffixed i op)⟩
  | opening {groups : List OpenGroup} {content : Alternatives} {t : Token} :
      t.kind = .opening → groups.length < limit.toNat →
      Reads limit ⟨groups, content⟩ t ⟨⟨t.span, content⟩ :: groups, .single .empty⟩
  | closing {g : OpenGroup} {groups : List OpenGroup} {content : Alternatives} {t : Token} :
      t.kind = .closing → content.nesting < limit.toNat →
      Reads limit ⟨g :: groups, content⟩ t ⟨groups, g.before.push (.bare (.group content))⟩
  | ending {content : Alternatives} {t : Token} : t.kind = .ending →
      Reads limit ⟨[], content⟩ t ⟨[], content⟩

/-- A suffix that breaks no rule goes to the item before it, which nests less deep than allowed. -/
theorem reads_suffix {op : Suffix} (hk : t.kind = op.kind) (h : r.violation? limit t = none) :
    Reads limit r t (r.read t) := by
  obtain ⟨groups, content⟩ := r
  rw [read_of_suffix hk]
  cases ho : content.operand? with
  | none =>
    rw [violation?_of_suffix_none hk ho] at h
    cases h
  | some i =>
    rw [violation?_of_suffix_some hk ho] at h
    split at h
    · cases h
    · rename_i hlt
      obtain ⟨a, rfl⟩ := Alternatives.exists_of_operand? ho
      rw [Reader.suffix, Alternatives.suffix_push]
      exact .suffix hk (Nat.not_le.1 hlt)

/-- A token that breaks no rule is read in one of the ways of `Reads`. -/
theorem reads_of_no_violation (h : r.violation? limit t = none) : Reads limit r t (r.read t) := by
  obtain ⟨groups, content⟩ := r
  cases hk : t.kind with
  | char c =>
    rw [read, hk]
    exact .char hk
  | any =>
    rw [read, hk]
    exact .any hk
  | bar =>
    rw [read, hk]
    exact .bar hk
  | star => exact reads_suffix (show t.kind = Suffix.star.kind from hk) h
  | plus => exact reads_suffix (show t.kind = Suffix.plus.kind from hk) h
  | question => exact reads_suffix (show t.kind = Suffix.question.kind from hk) h
  | opening =>
    simp only [violation?, hk, ite_eq_right_iff, reduceCtorEq, imp_false] at h
    rw [read, hk]
    exact .opening hk (by omega)
  | closing =>
    simp only [violation?, hk] at h
    cases groups with
    | nil => cases h
    | cons g groups =>
      simp only [ite_eq_right_iff, reduceCtorEq, imp_false] at h
      rw [read, hk]
      exact .closing hk (by omega)
  | ending =>
    simp only [violation?, hk] at h
    cases groups with
    | nil =>
      rw [read, hk]
      exact .ending hk
    | cons g groups => cases h

/-! ## Runs -/

/-- A run goes on behind a token if that breaks no rule. -/
theorem run_cons_eq_ok_iff : r.run limit (t :: ts) = .ok r' ↔
    r.violation? limit t = none ∧ (r.read t).run limit ts = .ok r' := by
  rw [run]
  cases r.violation? limit t with
  | none => simp
  | some v => simp

/-- A run over two lists of tokens is one run behind the other. -/
theorem run_append_eq_ok_iff : r.run limit (ts ++ rest) = .ok r' ↔
    ∃ q, r.run limit ts = .ok q ∧ q.run limit rest = .ok r' := by
  induction ts generalizing r with
  | nil => simp [run]
  | cons t ts ih =>
    simp only [List.cons_append, run_cons_eq_ok_iff, ih, and_assoc, exists_and_left]

/-- A run ends with a violation exactly if some token has it, read behind the tokens before it,
which have none. -/
theorem run_eq_error_iff : r.run limit ts = .error v ↔
    ∃ before t after q, ts = before ++ t :: after ∧ r.run limit before = .ok q ∧
      q.violation? limit t = some v := by
  induction ts generalizing r with
  | nil => simp [run]
  | cons t ts ih =>
    cases ht : r.violation? limit t with
    | some w =>
      rw [run_of_violation ht]
      refine ⟨?_, ?_⟩
      · rintro ⟨⟩
        exact ⟨[], t, ts, r, rfl, rfl, ht⟩
      · rintro ⟨before, u, after, q, hsplit, hq, hu⟩
        cases before with
        | nil =>
          cases hsplit
          cases hq
          rw [ht] at hu
          cases hu
          rfl
        | cons t' before =>
          cases hsplit
          rw [(run_cons_eq_ok_iff.1 hq).1] at ht
          cases ht
    | none =>
      rw [run_of_no_violation ht, ih]
      refine ⟨?_, ?_⟩
      · rintro ⟨before, u, after, q, rfl, hq, hu⟩
        exact ⟨t :: before, u, after, q, rfl, run_cons_eq_ok_iff.2 ⟨ht, hq⟩, hu⟩
      · rintro ⟨before, u, after, q, hsplit, hq, hu⟩
        cases before with
        | nil =>
          cases hsplit
          cases hq
          rw [ht] at hu
          cases hu
        | cons t' before =>
          cases hsplit
          exact ⟨before, u, after, q, rfl, (run_cons_eq_ok_iff.1 hq).2, hu⟩

/-- A run ends with the first violation. -/
theorem run_start_eq_error_iff :
    start.run limit ts = .error v ↔ FirstViolation limit ts v := by
  simp only [run_eq_error_iff, violation?_eq_some_iff, FirstViolation]

end

end Reader

end PatternMachine
