import Mathlib.Data.UInt
import PatternMachine.Pattern.Parse
import PatternMachine.Proofs.Pattern.Reader

/-!
# The rules of the grammar read from left to right

The rules that read a pattern call one another, and each checks the nesting of what it has read. All
of them together do what a reader does that goes through the tokens once (`Pattern.ofTokens_eq`).
What a single rule has to do with the reader is `Pattern.Follows`: where the rule finds a violation
the reader finds the same one, and otherwise the reader gets to where the rule stopped, having read
a derivation with the tree and the nesting that the rule returns. The nesting stays below the limit,
and so its counters do not wrap.
-/

namespace PatternMachine.Pattern

open Grammar

/-! ## Tokens -/

/-- The last token, and no other one, marks the end of the text. -/
def Ended : List Token → Prop
  | [] => False
  | t :: ts => if t.kind = .ending then ts = [] else Ended ts

section

variable {t : Token} {ts : List Token}

/-- Behind a token that is not the last one the tokens still end. -/
theorem Ended.tail (h : Ended (t :: ts)) (ht : t.kind ≠ .ending) : Ended ts := by
  rwa [Ended, if_neg ht] at h

/-- Nothing stands behind the end of the text. -/
theorem Ended.eq_nil (h : Ended (t :: ts)) (ht : t.kind = .ending) : ts = [] := by
  rwa [Ended, if_pos ht] at h

/-- Tokens end where the end of the text is put behind them. -/
theorem ended_append {e : Token} (he : e.kind = .ending) (hts : ∀ t ∈ ts, t.kind ≠ .ending) :
    Ended (ts ++ [e]) := by
  induction ts with
  | nil => simp [Ended, he]
  | cons t ts ih =>
    rw [List.cons_append, Ended, if_neg (hts t List.mem_cons_self)]
    exact ih fun u hu => hts u (List.mem_cons_of_mem _ hu)

end

/-- The tokens that stand for a repetition are those of the suffixes. -/
theorem repetition?_eq_some_iff {k : Token.Kind} {wrap : Pattern → Pattern} :
    repetition? k = some wrap ↔ ∃ op : Suffix, k = op.kind ∧ op.wrap = wrap := by
  refine ⟨?_, ?_⟩
  · intro h
    cases k with
    | star => exact ⟨.star, rfl, Option.some.inj h⟩
    | plus => exact ⟨.plus, rfl, Option.some.inj h⟩
    | question => exact ⟨.question, rfl, Option.some.inj h⟩
    | char _ | any | bar | opening | closing | ending => cases h
  · rintro ⟨op, rfl, rfl⟩
    cases op <;> rfl

/-- A suffix where something else is expected has nothing to repeat. -/
theorem unexpected_of_suffix {t : Token} {op : Suffix} (h : t.kind = op.kind) (expected : String) :
    unexpected expected t = ⟨.repetitionMissing, t.span⟩ := by
  cases op <;> simp [unexpected, h, Suffix.kind]

/-! ## Counters -/

/-- Below the limit a counter does not wrap. -/
theorem toNat_succ {limit n : UInt32} (hlimit : limit.toNat + 1 < UInt32.size)
    (h : n.toNat ≤ limit.toNat) : (n + 1).toNat = n.toNat + 1 := by
  rw [UInt32.toNat_add]
  exact Nat.mod_eq_of_lt (Nat.lt_of_le_of_lt (Nat.succ_le_succ h) hlimit)

/-- Of two numbers within the limit the greater one is. -/
theorem toNat_max_le {limit m n : UInt32} (hm : m.toNat ≤ limit.toNat)
    (hn : n.toNat ≤ limit.toNat) : (max m n).toNat ≤ limit.toNat := by
  rw [UInt32.toNat_max]
  exact Nat.max_le.2 ⟨hm, hn⟩

/-- Within the limit, one level more is refused exactly where the limit has been reached. -/
theorem checkNesting_succ {limit n : UInt32} (hlimit : limit.toNat + 1 < UInt32.size)
    (h : n.toNat ≤ limit.toNat) (span : Span) : checkNesting limit (n + 1) span =
      if limit.toNat ≤ n.toNat then .error ⟨.nestLimitExceeded limit, span⟩ else .ok () := by
  simp only [checkNesting, UInt32.lt_iff_toNat_lt, toNat_succ hlimit h, Nat.lt_succ_iff]

/-! ## Rules and readers -/

/-- The reader in state `r` does with `tokens` what the outcome `x` of a rule says: it finds the
violation, or it gets to a state for which `post` holds, with the tokens left over that the rule
left. -/
structure Follows (limit : UInt32) (r : Reader) (tokens : List Token) {bound : Nat}
    (x : Except Violation (Reading bound)) (post : Reading bound → Reader → Prop) : Prop where
  error : ∀ v, x = .error v → r.run limit tokens = .error v
  ok : ∀ q, x = .ok q → ∃ r' : Reader, r.run limit tokens = r'.run limit q.rest ∧ post q r'

namespace Follows

variable {limit : UInt32} {r r' : Reader} {tokens : List Token} {bound bound' : Nat}
  {x : Except Violation (Reading bound)} {post : Reading bound → Reader → Prop}

/-- The reader finds the violation with which a rule fails. -/
theorem of_error {v : Violation} (h : r.run limit tokens = .error v) :
    Follows limit r tokens (.error v) post where
  error w hw := by cases hw; exact h
  ok q hq := by cases hq

/-- The reader gets to where a rule succeeds. -/
theorem of_ok {q : Reading bound} (h : r.run limit tokens = r'.run limit q.rest)
    (hpost : post q r') : Follows limit r tokens (.ok q) post where
  error w hw := by cases hw
  ok q' hq := by cases hq; exact ⟨r', h, hpost⟩

/-- The reader follows one rule after the other. -/
theorem bind {f : Reading bound → Except Violation (Reading bound')}
    {post' : Reading bound' → Reader → Prop} (h : Follows limit r tokens x post)
    (hf : ∀ q r', post q r' → Follows limit r' q.rest (f q) post') :
    Follows limit r tokens (x >>= f) post' := by
  cases hx : x with
  | error v => exact of_error (h.error v hx)
  | ok q =>
    obtain ⟨r', hrun, hpost⟩ := h.ok q hx
    exact {
      error := fun v hv => hrun.trans ((hf q r' hpost).error v hv)
      ok := fun q' hq' => by
        obtain ⟨r'', hrun', hpost'⟩ := (hf q r' hpost).ok q' hq'
        exact ⟨r'', hrun.trans hrun', hpost'⟩ }

/-- The reader follows a check of the nesting if it stops where the limit has been reached. -/
theorem check {n : UInt32} {span : Span} (hlimit : limit.toNat + 1 < UInt32.size)
    (hn : n.toNat ≤ limit.toNat)
    (hreached : limit.toNat ≤ n.toNat →
      r.run limit tokens = .error ⟨.nestLimitExceeded limit, span⟩)
    (hbelow : n.toNat < limit.toNat → Follows limit r tokens x post) :
    Follows limit r tokens (checkNesting limit (n + 1) span >>= fun _ => x) post := by
  rw [checkNesting_succ hlimit hn]
  split
  · exact of_error (hreached ‹_›)
  · exact hbelow (Nat.not_le.1 ‹_›)

/-- The reader follows behind a token that breaks no rule. -/
theorem step {t : Token} {ts : List Token} (hv : r.violation? limit t = none)
    (h : Follows limit (r.read t) ts x post) : Follows limit r (t :: ts) x post where
  error v hx := (Reader.run_of_no_violation hv).trans (h.error v hx)
  ok q hq := by
    obtain ⟨r', hrun, hpost⟩ := h.ok q hq
    exact ⟨r', (Reader.run_of_no_violation hv).trans hrun, hpost⟩

end Follows

/-- The rule read a derivation that stands for `tree` and in which groups and suffixes nest
`nesting` deep, and no deeper than allowed. -/
structure Reading.Of {bound : Nat} (q : Reading bound) (limit : UInt32) (tree : Pattern)
    (nesting : Nat) : Prop where
  tree_eq : q.tree = tree
  nest_eq : q.nest.toNat = nesting
  nesting_le : nesting ≤ limit.toNat
  ended : Ended q.rest

/-- Suffixes are read up to a token that is none. -/
theorem follows_suffixes {limit : UInt32} (hlimit : limit.toNat + 1 < UInt32.size) {r : Reader}
    {i : Item} {nest : UInt32} {tokens : List Token} (hnest : nest.toNat = i.nesting)
    (hle : i.nesting ≤ limit.toNat) (hended : Ended tokens) {bound : Nat}
    (h : tokens.length < bound) :
    Follows limit (r.push i) tokens (suffixes limit i.tree nest tokens h) fun q r' =>
      ∃ i' : Item, r' = r.push i' ∧ q.Of limit i'.tree i'.nesting ∧
        ∀ t ts, q.rest = t :: ts → repetition? t.kind = none := by
  induction tokens generalizing i nest with
  | nil => exact hended.elim
  | cons t rest ih =>
    rw [suffixes]
    cases hwrap : repetition? t.kind with
    | none =>
      refine .of_ok rfl ⟨i, rfl, ⟨rfl, hnest, hle, hended⟩, ?_⟩
      rintro u us ⟨⟩
      exact hwrap
    | some wrap =>
      obtain ⟨op, hk, rfl⟩ := repetition?_eq_some_iff.1 hwrap
      have hv : (r.push i).violation? limit t =
          if limit.toNat ≤ i.nesting then some ⟨.nestLimitExceeded limit, t.span⟩ else none :=
        Reader.violation?_of_suffix_some hk Alternatives.operand?_push
      refine Follows.check hlimit (hnest ▸ hle) ?_ ?_
      · intro hreached
        rw [hnest] at hreached
        exact Reader.run_of_violation (by rw [hv, if_pos hreached])
      · intro hbelow
        rw [hnest] at hbelow
        refine Follows.step (by rw [hv, if_neg (Nat.not_le.2 hbelow)]) ?_
        have hread : (r.push i).read t = r.push (.suffixed i op) := by
          rw [Reader.read_of_suffix hk, Reader.suffix, Reader.push, Alternatives.suffix_push]
          rfl
        rw [hread]
        refine ih (i := .suffixed i op) ?_ ?_ (hended.tail ?_) (Nat.lt_of_succ_lt h)
        · rw [toNat_succ hlimit (hnest ▸ hle), hnest, Item.nesting]
        · rwa [Item.nesting]
        · simp [hk]

/-! ## The rules one by one -/

/-- The token `t` can stand behind a sequence that ends in the item `last?`: it begins no item, and
if it is a suffix there is nothing to repeat. -/
structure Stops (last? : Option Item) (t : Token) : Prop where
  beginsItem_eq : t.kind.beginsItem = false
  of_suffix : ∀ op : Suffix, t.kind = op.kind → last? = none

/-- What can stand behind an alternative. -/
theorem Stops.kind_cases {last? : Option Item} {t : Token} (h : Stops last? t)
    (hbar : t.kind ≠ .bar) : t.kind = .closing ∨ t.kind = .ending ∨
      ∃ op : Suffix, t.kind = op.kind ∧ last? = none := by
  obtain ⟨hbegins, hop⟩ := h
  cases hk : t.kind with
  | closing => exact .inl rfl
  | ending => exact .inr (.inl rfl)
  | star => exact .inr (.inr ⟨.star, rfl, hop .star hk⟩)
  | plus => exact .inr (.inr ⟨.plus, rfl, hop .plus hk⟩)
  | question => exact .inr (.inr ⟨.question, rfl, hop .question hk⟩)
  | bar => exact absurd hk hbar
  | char _ | any | opening => simp [hk, Token.Kind.beginsItem] at hbegins

/-- A character or a `.` is read as a factor. -/
theorem follows_leaf {limit : UInt32} {r : Reader} {t : Token} {rest : List Token} {f : Factor}
    (hended : Ended (t :: rest)) (ht : t.kind ≠ .ending) (hv : r.violation? limit t = none)
    (hread : r.read t = r.push (.bare f)) (hf : f.nesting = 0) :
    Follows limit r (t :: rest)
      (.ok ⟨f.tree, 0, rest, Nat.lt_succ_self _⟩ : Except Violation (Reading (rest.length + 1)))
      fun q r' => ∃ f : Factor, r' = r.push (.bare f) ∧ q.Of limit f.tree f.nesting :=
  .step hv (.of_ok rfl ⟨f, hread, rfl, hf.symm, hf ▸ Nat.zero_le _, hended.tail ht⟩)

/-- Behind the content of a group the group is closed, or there is a violation. -/
theorem follows_close {limit : UInt32} (hlimit : limit.toNat + 1 < UInt32.size) {g : OpenGroup}
    {opened : List OpenGroup} {a : Alternatives} {nest : UInt32} (hnest : nest.toNat = a.nesting)
    (hle : a.nesting ≤ limit.toNat) {close : Token} {outside : List Token}
    (hended : Ended (close :: outside)) (hbar : close.kind ≠ .bar) (hstops : Stops a.operand? close)
    {bound : Nat} (h : outside.length < bound) :
    Follows limit ⟨g :: opened, a⟩ (close :: outside)
      (if close.kind = .closing then
        checkNesting limit (nest + 1) g.span >>= fun _ =>
          (.ok ⟨a.tree, nest + 1, outside, h⟩ : Except Violation (Reading bound))
      else if close.kind = .ending then .error ⟨.groupUnclosed, g.span⟩
      else .error (unexpected "')'" close))
      fun q r' => ∃ f : Factor, r' = ⟨opened, g.before.push (.bare f)⟩ ∧
        q.Of limit f.tree f.nesting := by
  rcases hstops.kind_cases hbar with hc | hc | ⟨op, hop, hnone⟩
  · rw [if_pos hc]
    refine Follows.check hlimit (hnest ▸ hle) ?_ ?_
    · intro hreached
      rw [hnest] at hreached
      exact Reader.run_of_violation (by simp [Reader.violation?, hc, hreached])
    · intro hbelow
      rw [hnest] at hbelow
      have hread : Reader.read ⟨g :: opened, a⟩ close =
          ⟨opened, g.before.push (.bare (.group a))⟩ := by
        rw [Reader.read, hc]
      refine Follows.step (by simp [Reader.violation?, hc, hbelow])
        (.of_ok rfl ⟨.group a, hread, ?_, ?_, ?_, hended.tail (by simp [hc])⟩)
      · rw [Factor.tree, Alternatives.tree]
      · rw [toNat_succ hlimit (hnest ▸ hle), hnest, Factor.nesting]
      · rwa [Factor.nesting]
  · rw [if_neg (by simp [hc]), if_pos hc]
    exact .of_error (Reader.run_of_violation (by simp [Reader.violation?, hc]))
  · have hv : Reader.violation? limit ⟨g :: opened, a⟩ close =
        some ⟨.repetitionMissing, close.span⟩ := Reader.violation?_of_suffix_none hop hnone
    rw [if_neg (by simp [hop]), if_neg (by simp [hop]), unexpected_of_suffix hop]
    exact .of_error (Reader.run_of_violation hv)

mutual

/-- A factor is read by reading it: a character, a `.`, or a group up to its closing parenthesis. -/
theorem follows_factor {limit : UInt32} (hlimit : limit.toNat + 1 < UInt32.size) {r : Reader}
    {groups : UInt32} (hgroups : groups.toNat = r.groups.length)
    (hdepth : r.groups.length ≤ limit.toNat) {t : Token} {rest : List Token}
    (hended : Ended (t :: rest)) (hbegins : t.kind.beginsItem = true) :
    Follows limit r (t :: rest) (factor limit groups t rest) fun q r' =>
      ∃ f : Factor, r' = r.push (.bare f) ∧ q.Of limit f.tree f.nesting := by
  rw [factor]
  cases hk : t.kind with
  | char c =>
    exact follows_leaf (f := .char c) hended (by simp [hk]) (by simp [Reader.violation?, hk])
      (by rw [Reader.read, hk]) (by rw [Factor.nesting])
  | any =>
    exact follows_leaf (f := .any) hended (by simp [hk]) (by simp [Reader.violation?, hk])
      (by rw [Reader.read, hk]) (by rw [Factor.nesting])
  | opening =>
    have hread : r.read t = ⟨⟨t.span, r.content⟩ :: r.groups, .behind none .empty⟩ := by
      rw [Reader.read, hk]
      rfl
    refine Follows.check hlimit (hgroups ▸ hdepth) ?_ ?_
    · intro hreached
      rw [hgroups] at hreached
      refine Reader.run_of_violation ?_
      simp [Reader.violation?, hk, Nat.lt_succ_of_le hreached]
    · intro hbelow
      rw [hgroups] at hbelow
      refine Follows.step (by simp [Reader.violation?, hk]; omega) ?_
      rw [hread]
      have hgroups' : (groups + 1).toNat = (⟨t.span, r.content⟩ :: r.groups : List _).length := by
        rw [toNat_succ hlimit (hgroups ▸ hdepth), hgroups, List.length_cons]
      refine (follows_alternatives hlimit none hgroups' hbelow rfl (Nat.zero_le _)
        (hended.tail (by simp [hk])) _).bind ?_
      rintro ⟨_, _, _, hlt⟩ _
        ⟨a, rfl, ⟨rfl, hnest, hle, hended⟩, close, outside, rfl, hbar, hstops⟩
      exact follows_close hlimit hnest hle hended hbar hstops (Nat.lt_of_succ_lt hlt)
  | bar | star | plus | question | closing | ending => simp [hk, Token.Kind.beginsItem] at hbegins
termination_by (rest.length + 1, 0)

/-- A sequence is read by reading its items, up to a token that can stand behind it. -/
theorem follows_sequence {limit : UInt32} (hlimit : limit.toNat + 1 < UInt32.size)
    {opened : List OpenGroup} {before : Option Alternatives} {s : Sequence} {groups nest : UInt32}
    (hgroups : groups.toNat = opened.length) (hdepth : opened.length ≤ limit.toNat)
    (hnest : nest.toNat = s.nesting) (hle : s.nesting ≤ limit.toNat) {tokens : List Token}
    (hended : Ended tokens)
    (hstops : ∀ t ts, tokens = t :: ts → ∀ op : Suffix, t.kind = op.kind → s.last? = none)
    {bound : Nat} (h : tokens.length < bound) :
    Follows limit ⟨opened, .behind before s⟩ tokens
      (sequence limit groups s.items.reverse nest tokens h) fun q r' =>
      ∃ s' : Sequence, r' = ⟨opened, .behind before s'⟩ ∧ q.Of limit s'.tree s'.nesting ∧
        ∃ t ts, q.rest = t :: ts ∧ Stops s'.last? t := by
  match tokens, hended with
  | t :: rest, hended =>
    rw [sequence]
    split
    · rename_i hbegins
      refine (follows_factor hlimit hgroups hdepth hended hbegins).bind ?_
      rintro ⟨_, bnest, brest, hblt⟩ _ ⟨f, rfl, rfl, hbnest, hfle, hbended⟩
      refine (follows_suffixes hlimit (i := .bare f) hbnest hfle hbended hblt).bind ?_
      rintro ⟨_, inest, irest, hilt⟩ _ ⟨i, rfl, ⟨rfl, hinest, hile, hiended⟩, hnone⟩
      have hmax : (max nest inest).toNat = (s.snoc i).nesting := by
        rw [UInt32.toNat_max, hnest, hinest, Sequence.nesting]
      simp only [← Sequence.reverse_items_snoc]
      rw [Reader.push, Alternatives.push_behind]
      refine follows_sequence hlimit hgroups hdepth hmax ?_ hiended ?_ _
      · rw [Sequence.nesting]
        exact Nat.max_le.2 ⟨hle, hile⟩
      · rintro u us hu op hop
        have := hnone u us hu
        rw [repetition?_eq_some_iff.2 ⟨op, hop, rfl⟩] at this
        cases this
    · rename_i hbegins
      exact .of_ok rfl ⟨s, rfl, ⟨by simp [Reading.ofItems, Sequence.tree], hnest, hle, hended⟩,
        t, rest, rfl, by simpa using hbegins, hstops t rest rfl⟩
termination_by (tokens.length, 1)

/-- An alternative is read by reading its branches, up to a token that can stand behind it. -/
theorem follows_alternatives {limit : UInt32} (hlimit : limit.toNat + 1 < UInt32.size)
    {opened : List OpenGroup} (before : Option Alternatives) {groups nest : UInt32}
    (hgroups : groups.toNat = opened.length) (hdepth : opened.length ≤ limit.toNat)
    (hnest : nest.toNat = before.elim 0 Alternatives.nesting) (hle : nest.toNat ≤ limit.toNat)
    {tokens : List Token} (hended : Ended tokens) {bound : Nat} (h : tokens.length < bound) :
    Follows limit ⟨opened, .behind before .empty⟩ tokens
      (alternatives limit groups (before.elim [] Alternatives.branches).reverse nest tokens h)
      fun q r' => ∃ a : Alternatives, r' = ⟨opened, a⟩ ∧ q.Of limit a.tree a.nesting ∧
        ∃ t ts, q.rest = t :: ts ∧ t.kind ≠ .bar ∧ Stops a.operand? t := by
  rw [alternatives]
  refine (follows_sequence hlimit hgroups hdepth (s := .empty) rfl (Nat.zero_le _) hended
    (fun _ _ _ _ _ => rfl) _).bind ?_
  rintro ⟨_, snest, srest, hslt⟩ _ ⟨s, rfl, ⟨rfl, hsnest, hsle, hsended⟩, t, rest, rfl, hstops⟩
  have hmax : (max nest snest).toNat = (Alternatives.behind before s).nesting := by
    rw [UInt32.toNat_max, hnest, hsnest, Alternatives.nesting_behind]
  have hble : (max nest snest).toNat ≤ limit.toNat := toNat_max_le hle (hsnest ▸ hsle)
  have hlt : rest.length < tokens.length := Nat.lt_of_succ_lt_succ hslt
  simp only [← Alternatives.reverse_branches_behind]
  split
  · rename_i hbar
    have hread : Reader.read ⟨opened, .behind before s⟩ t =
        ⟨opened, .behind (some (.behind before s)) .empty⟩ := by
      rw [Reader.read, hbar]
      rfl
    refine Follows.step (by simp [Reader.violation?, hbar]) ?_
    rw [hread]
    exact follows_alternatives hlimit (some _) hgroups hdepth hmax hble
      (hsended.tail (by simp [hbar])) _
  · rename_i hbar
    refine .of_ok rfl
      ⟨.behind before s, rfl, ⟨?_, hmax, hmax ▸ hble, hsended⟩, t, rest, rfl, hbar, ?_⟩
    · simp [Reading.ofBranches, Alternatives.tree]
    · rwa [Alternatives.operand?_behind]
termination_by (tokens.length, 2)

end

/-! ## Whole patterns -/

/-- A pattern is read by reading its tokens from left to right. -/
theorem ofTokens_eq {limit : UInt32} (hlimit : limit.toNat + 1 < UInt32.size) {tokens : List Token}
    (hended : Ended tokens) : ofTokens limit tokens =
      (Reader.start.run limit tokens).map fun r => r.content.tree := by
  have hgroups : (0 : UInt32).toNat = ([] : List OpenGroup).length := rfl
  have hnest : (0 : UInt32).toNat = (none : Option Alternatives).elim 0 Alternatives.nesting := rfl
  have h := follows_alternatives hlimit none hgroups (Nat.zero_le _) hnest (Nat.zero_le _) hended
    (Nat.lt_succ_self _)
  rw [ofTokens]
  cases hx : alternatives limit 0 [] 0 tokens (Nat.lt_succ_self _) with
  | error v =>
    have hrun : Reader.start.run limit tokens = .error v := h.error v hx
    rw [hrun]
    rfl
  | ok whole =>
    obtain ⟨_, hrun, a, rfl, hof, t, ts, hrest, hbar, hstops⟩ := h.ok whole hx
    have hrun : Reader.start.run limit tokens = _ := hrun
    simp only [bind, Except.bind, hrun, hrest]
    rcases hstops.kind_cases hbar with hk | hk | ⟨op, hop, hnone⟩
    · rw [Reader.run_of_violation (v := ⟨.groupUnopened, t.span⟩) (by simp [Reader.violation?, hk]),
        if_neg (by simp [hk]), if_pos hk]
      rfl
    · have hread : Reader.read ⟨[], a⟩ t = ⟨[], a⟩ := by rw [Reader.read, hk]
      have hnil : ts = [] := (hrest ▸ hof.ended).eq_nil hk
      rw [Reader.run_of_no_violation (by simp [Reader.violation?, hk]), if_pos hk, hread, hnil,
        hof.tree_eq]
      rfl
    · rw [Reader.run_of_violation (Reader.violation?_of_suffix_none hop hnone),
        if_neg (by simp [hop]), if_neg (by simp [hop]), unexpected_of_suffix hop]
      rfl

end PatternMachine.Pattern
