import PatternMachine.Proofs.Pattern.Descent
import PatternMachine.Proofs.Pattern.Nesting

/-!
# The counters of the nesting

Reading a pattern counts the groups that are open and how deep groups and suffixes nest in what has
been read, in words that could wrap. One limit bounds both, by checks that stand behind some of the
sums and in front of others. `Descent.Counted` says what holds of all counters between any two
steps, and every step keeps it (`Descent.Counted.turn`). So below the largest limit no sum wraps,
the counter of the groups is their number, a call returns with that counter as it was, and the
nesting that it returns is the true one (`Descent.counters_exact`).
-/

namespace PatternMachine.Descent

open Pattern Grammar

/-! ## Open groups -/

/-- Whether a call is a factor inside its group. -/
def Call.isFactor : Call → Bool
  | .factor _ => true
  | .item | .sequence _ _ | .alternatives _ _ => false

/-- The number of factors inside their groups, among calls that wait. -/
def factors (calls : List Call) : Nat :=
  calls.countP Call.isFactor

/-- Whether the innermost call is a factor that enters its group now, as a number. -/
def Focus.opened : Focus → Nat
  | .opening _ => 1
  | .factor _ | .closing _ _ _ | .item _ | .suffixes _ _ | .suffix _ _ _ | .sequence _ _
  | .alternatives _ _ | .returned _ _ => 0

/-- At most one factor enters its group at a time. -/
theorem Focus.opened_le (focus : Focus) : focus.opened ≤ 1 := by
  cases focus with
  | opening => exact Nat.le_refl 1
  | factor | closing | item | suffixes | suffix | sequence | alternatives | returned =>
    exact Nat.zero_le 1

/-- The number of factors that are inside their groups. -/
def openGroups (d : Descent) : Nat :=
  factors d.calls + d.focus.opened

/-- The sum that has been made and is checked next. -/
def sum? (d : Descent) : Option UInt32 :=
  match d.focus with
  | .opening _ => some d.groups
  | .closing _ _ nest | .suffix _ _ nest => some nest
  | .factor _ | .item _ | .suffixes _ _ | .sequence _ _ | .alternatives _ _ | .returned _ _ => none

/-- A factor inside its group counts. -/
theorem factors_of_isFactor {c : Call} (hc : c.isFactor = true) (calls : List Call) :
    factors (c :: calls) = factors calls + 1 :=
  List.countP_cons_of_pos hc

/-- No other call counts. -/
theorem factors_of_not_isFactor {c : Call} (hc : c.isFactor = false) (calls : List Call) :
    factors (c :: calls) = factors calls :=
  List.countP_cons_of_neg (by rw [hc]; exact Bool.false_ne_true)

/-! ## Waiting calls -/

/-- The nesting that a call has counted. -/
def Call.nest : Call → UInt32
  | .factor _ | .item => 0
  | .sequence _ nest | .alternatives _ nest => nest

/-- How many calls there are between a call and the group around it. -/
def Call.rank : Call → Nat
  | .alternatives _ _ => 0
  | .sequence _ _ => 1
  | .item => 2
  | .factor _ => 3

/-- How many calls there are between the innermost call and the group around it, where that shows in
what it does. -/
def Focus.rank? : Focus → Option Nat
  | .alternatives _ _ => some 0
  | .sequence _ _ => some 1
  | .item _ | .suffixes _ _ | .suffix _ _ _ => some 2
  | .factor _ | .opening _ | .closing _ _ _ => some 3
  | .returned _ _ => none

/-- The calls have counted no more than allowed, and wait in the order in which the rules call one
another: four of them for each group. -/
def Ordered (limit : UInt32) : List Call → Prop
  | [] => True
  | c :: calls => c.nest.toNat ≤ limit.toNat ∧ calls.length = 4 * factors calls + c.rank ∧
    Ordered limit calls

/-- A factor waits at the end of the four calls. -/
theorem Call.rank_of_isFactor {c : Call} (hc : c.isFactor = true) : c.rank = 3 := by
  cases c with
  | factor t => rfl
  | item | sequence _ _ | alternatives _ _ => cases hc

/-- Any other call waits before it. -/
theorem Call.rank_of_not_isFactor {c : Call} (hc : c.isFactor = false) : c.rank < 3 := by
  cases c with
  | factor t => cases hc
  | item | sequence _ _ | alternatives _ _ => exact Nat.lt_of_sub_eq_succ rfl

/-- Hence no more calls wait than four for each group and three. -/
theorem Ordered.length_le {limit : UInt32} {calls : List Call} (h : Ordered limit calls) :
    calls.length ≤ 4 * factors calls + 3 := by
  cases calls with
  | nil => exact Nat.zero_le _
  | cons c calls =>
    obtain ⟨-, hlength, -⟩ := h
    rw [List.length_cons, hlength]
    cases hc : c.isFactor with
    | true =>
      rw [factors_of_isFactor hc, Call.rank_of_isFactor hc]
      omega
    | false =>
      have hrank := Call.rank_of_not_isFactor hc
      rw [factors_of_not_isFactor hc]
      omega

/-! ## What every step keeps -/

/-- The nesting is within the limit, or it is a sum of which that holds but for the one added
last. -/
def Focus.Within (limit : UInt32) : Focus → Prop
  | .factor _ | .opening _ | .item _ => True
  | .suffixes _ nest | .sequence _ nest | .alternatives _ nest | .returned _ nest =>
    nest.toNat ≤ limit.toNat
  | .closing _ _ sum | .suffix _ _ sum => ∃ n : UInt32, sum = n + 1 ∧ n.toNat ≤ limit.toNat

/-- What holds of the counters between any two steps. -/
structure Counted (limit : UInt32) (d : Descent) : Prop where
  groups_eq : d.groups.toNat = d.openGroups
  factors_le : factors d.calls ≤ limit.toNat
  within : d.focus.Within limit
  rank_eq : ∀ r, d.focus.rank? = some r → d.calls.length = 4 * factors d.calls + r
  ordered : Ordered limit d.calls

section

variable {limit : UInt32} {d d' : Descent}

/-- Nothing has been counted at the start. -/
theorem counted_start (tokens : List Token) : Counted limit (start tokens) where
  groups_eq := rfl
  factors_le := Nat.zero_le _
  within := Nat.zero_le _
  rank_eq r hr := by cases hr; rfl
  ordered := trivial

/-- Behind a check the nesting is within the limit. -/
theorem checked_eq_next {nest : UInt32} {span : Span} (h : checked limit nest span d = .next d') :
    nest.toNat ≤ limit.toNat ∧ d = d' := by
  rw [checked] at h
  cases hc : checkNesting limit nest span with
  | error v => rw [hc] at h; cases h
  | ok u => rw [hc] at h; cases h; exact ⟨checkNesting_eq_ok_iff.1 hc, rfl⟩

/-- The innermost call goes on. -/
theorem Counted.refocus {focus focus' : Focus} {groups : UInt32} {calls : List Call}
    {tokens tokens' : List Token} (hd : Counted limit ⟨focus, groups, calls, tokens⟩)
    (hopened : focus.opened = focus'.opened)
    (hrank : ∀ r, focus'.rank? = some r → focus.rank? = some r) (hwithin : focus'.Within limit) :
    Counted limit ⟨focus', groups, calls, tokens'⟩ where
  groups_eq := hd.groups_eq.trans (congrArg (factors calls + ·) hopened)
  factors_le := hd.factors_le
  within := hwithin
  rank_eq r hr := hd.rank_eq r (hrank r hr)
  ordered := hd.ordered

/-- The innermost call returns. -/
theorem Counted.returns {focus : Focus} {tree : Pattern} {nest groups : UInt32} {calls : List Call}
    {tokens tokens' : List Token} (hd : Counted limit ⟨focus, groups, calls, tokens⟩)
    (hopened : focus.opened = 0) (hnest : nest.toNat ≤ limit.toNat) :
    Counted limit ⟨.returned tree nest, groups, calls, tokens'⟩ :=
  hd.refocus hopened (by rintro _ ⟨⟩) hnest

/-- The innermost call calls another one, and waits as `c`. -/
theorem Counted.call {focus focus' : Focus} {groups : UInt32} {calls : List Call}
    {tokens tokens' : List Token} (hd : Counted limit ⟨focus, groups, calls, tokens⟩) (c : Call)
    (hc : c.isFactor = false) (hopened : focus.opened = focus'.opened)
    (hnest : c.nest.toNat ≤ limit.toNat) (hrank : focus.rank? = some c.rank)
    (hrank' : focus'.rank? = some (c.rank + 1)) (hwithin : focus'.Within limit) :
    Counted limit ⟨focus', groups, c :: calls, tokens'⟩ := by
  have hfactors := factors_of_not_isFactor hc calls
  have hlength : calls.length = 4 * factors calls + c.rank := hd.rank_eq _ hrank
  refine ⟨?_, hfactors.symm ▸ hd.factors_le, hwithin, ?_, hnest, hlength, hd.ordered⟩
  · rw [openGroups, hfactors, ← hopened]
    exact hd.groups_eq
  · intro r hr
    cases hrank'.symm.trans hr
    rw [hfactors, List.length_cons, hlength]
    rfl

/-- The innermost call returns to `c`, which goes on. -/
theorem Counted.back {tree : Pattern} {nest : UInt32} {focus : Focus} {groups : UInt32} {c : Call}
    {calls : List Call} {tokens tokens' : List Token}
    (hd : Counted limit ⟨.returned tree nest, groups, c :: calls, tokens⟩)
    (hc : c.isFactor = false) (hopened : focus.opened = 0)
    (hrank : ∀ r, focus.rank? = some r → c.rank = r) (hwithin : focus.Within limit) :
    Counted limit ⟨focus, groups, calls, tokens'⟩ := by
  have hfactors := factors_of_not_isFactor hc calls
  obtain ⟨-, hlength, hordered⟩ := hd.ordered
  refine ⟨?_, hfactors ▸ hd.factors_le, hwithin, ?_, hordered⟩
  · rw [openGroups, hopened, ← hfactors]
    exact hd.groups_eq
  · intro r hr
    rw [← hrank r hr]
    exact hlength

/-- A call that returns hands its nesting to the call that waits, or counts one more for the group
whose content it has read. -/
theorem Counted.resume {tree : Pattern} {nest groups : UInt32} {calls : List Call}
    {tokens : List Token} (hd : Counted limit ⟨.returned tree nest, groups, calls, tokens⟩)
    (h : turn limit ⟨.returned tree nest, groups, calls, tokens⟩ = .next d') :
    Counted limit d' := by
  have hnest : nest.toNat ≤ limit.toNat := hd.within
  cases calls with
  | nil => cases h
  | cons c calls =>
    obtain ⟨hcall, hlength, hordered⟩ := hd.ordered
    cases c with
    | factor t =>
      cases tokens with
      | nil => cases h
      | cons close rest =>
        simp only [turn] at h
        split at h
        · cases h
          have hgroups : groups.toNat = factors calls + 1 :=
            hd.groups_eq.trans (factors_of_isFactor (c := .factor t) rfl calls)
          have hpos : (1 : UInt32) ≤ groups := by
            rw [UInt32.le_iff_toNat_le, hgroups]
            exact Nat.le_add_left 1 _
          have hfactors := hd.factors_le
          rw [factors_of_isFactor rfl] at hfactors
          refine ⟨?_, Nat.le_of_succ_le hfactors, ⟨nest, rfl, hnest⟩, ?_, hordered⟩
          · rw [UInt32.toNat_sub_of_le _ _ hpos, hgroups]
            rfl
          · rintro _ ⟨⟩
            exact hlength
        · split at h <;> cases h
    | item =>
      cases h
      exact hd.back rfl rfl (by rintro _ ⟨⟩; rfl) hnest
    | sequence before n =>
      cases h
      exact hd.back rfl rfl (by rintro _ ⟨⟩; rfl) (toNat_max_le hcall hnest)
    | alternatives before n =>
      have hmax := toNat_max_le hcall hnest
      cases tokens with
      | nil =>
        cases h
        exact hd.back rfl rfl (by rintro _ ⟨⟩) hmax
      | cons t rest =>
        simp only [turn] at h
        split at h
        · cases h
          exact hd.back rfl rfl (by rintro _ ⟨⟩; rfl) hmax
        · cases h
          exact hd.back rfl rfl (by rintro _ ⟨⟩) hmax

/-- Every step keeps what holds of the counters. -/
theorem Counted.turn (hlimit : limit.toNat + 1 < UInt32.size) (hd : d.Counted limit)
    (h : d.turn limit = .next d') : d'.Counted limit := by
  obtain ⟨focus, groups, calls, tokens⟩ := d
  cases focus with
  | factor t =>
    simp only [Descent.turn] at h
    split at h
    · cases h
      exact hd.returns rfl (Nat.zero_le _)
    · split at h
      · cases h
        have hgroups : groups.toNat = factors calls := hd.groups_eq
        refine ⟨?_, hd.factors_le, trivial, hd.rank_eq, hd.ordered⟩
        exact (toNat_succ hlimit (hgroups ▸ hd.factors_le)).trans (congrArg (· + 1) hgroups)
      · cases h
  | opening t =>
    obtain ⟨hle, rfl⟩ := checked_eq_next h
    have hfactors := factors_of_isFactor (c := .factor t) rfl calls
    have hgroups : groups.toNat = factors (.factor t :: calls) := hd.groups_eq.trans hfactors.symm
    have hlength := hd.rank_eq 3 rfl
    refine ⟨hgroups, hgroups ▸ hle, Nat.zero_le _, ?_, Nat.zero_le _, hlength, hd.ordered⟩
    rintro _ ⟨⟩
    rw [hfactors, List.length_cons, hlength]
    rfl
  | closing span tree nest =>
    obtain ⟨hle, rfl⟩ := checked_eq_next h
    exact hd.returns rfl hle
  | item t =>
    cases h
    exact hd.call .item rfl rfl (Nat.zero_le _) rfl rfl trivial
  | suffixes tree nest =>
    cases tokens with
    | nil =>
      cases h
      exact hd.returns rfl hd.within
    | cons t rest =>
      simp only [Descent.turn] at h
      split at h
      · cases h
        exact hd.returns rfl hd.within
      · cases h
        exact hd.refocus rfl (fun _ hr => hr) ⟨nest, rfl, hd.within⟩
  | suffix span tree nest =>
    obtain ⟨hle, rfl⟩ := checked_eq_next h
    exact hd.refocus rfl (fun _ hr => hr) hle
  | sequence before nest =>
    cases tokens with
    | nil =>
      cases h
      exact hd.returns rfl hd.within
    | cons t rest =>
      simp only [Descent.turn] at h
      split at h
      · cases h
        exact hd.call (.sequence before nest) rfl rfl hd.within rfl rfl trivial
      · cases h
        exact hd.returns rfl hd.within
  | alternatives before nest =>
    cases h
    exact hd.call (.alternatives before nest) rfl rfl hd.within rfl rfl (Nat.zero_le _)
  | returned tree nest => exact hd.resume h

/-- So it is wherever the descent comes to. -/
theorem Counted.comes (hlimit : limit.toNat + 1 < UInt32.size) {tokens : List Token}
    (h : Comes limit (start tokens) d) : d.Counted limit := by
  induction h with
  | refl => exact counted_start tokens
  | tail _ hturn ih => exact ih.turn hlimit hturn

/-- One group more than allowed may be open, the one about to be checked. -/
theorem Counted.openGroups_le (h : d.Counted limit) : d.openGroups ≤ limit.toNat + 1 := by
  have hle := h.factors_le
  have hopened := d.focus.opened_le
  rw [openGroups]
  omega

/-- The calls that wait are bounded by the open groups. -/
theorem Counted.length_calls_le (h : d.Counted limit) : d.calls.length ≤ 4 * d.openGroups + 3 := by
  have hle := h.ordered.length_le
  rw [openGroups]
  omega

/-- A sum is one more than a number within the limit. -/
theorem Counted.sum_eq (h : d.Counted limit) {s : UInt32} (hs : d.sum? = some s) :
    ∃ n : UInt32, s = n + 1 ∧ n.toNat ≤ limit.toNat := by
  obtain ⟨focus, groups, calls, tokens⟩ := d
  cases focus with
  | opening t =>
    cases hs
    refine ⟨groups - 1, (UInt32.sub_add_cancel groups 1).symm, ?_⟩
    have hgroups : groups.toNat = factors calls + 1 := h.groups_eq
    have hpos : (1 : UInt32) ≤ groups := by
      rw [UInt32.le_iff_toNat_le, hgroups]
      exact Nat.le_add_left 1 _
    rw [UInt32.toNat_sub_of_le _ _ hpos, hgroups]
    exact h.factors_le
  | closing span tree nest =>
    cases hs
    exact h.within
  | suffix span tree nest =>
    cases hs
    exact h.within
  | factor | item | suffixes | sequence | alternatives | returned => cases hs

/-- At `d` a rule is called, to read from `tokens` on, and returns `x`. The descent performs the
call, and comes back to the calls and to the count of groups that it has at `d`. What the call
returns is exact, for the derivation of the tokens that it has read, of which there is only one. -/
structure CallsRule {δ : Type} {bound : Nat} (limit : UInt32) (d : Descent) (tokens : List Token)
    (x : Except Violation (Reading bound)) (yield : δ → List Token.Kind) (tree : δ → Pattern)
    (levels : δ → List Nat) : Prop where
  performs : d.Performs limit d.groups d.calls x
  exact : ∀ q, x = .ok q → ∃ part, q.Exact limit tokens (yield part) (tree part) (levels part)
  unique : Function.Injective yield

/-- All counters are what they are meant to count, and none of them has wrapped. -/
structure Exact (limit : UInt32) (d : Descent) : Prop where
  groups_eq : d.groups.toNat = d.openGroups
  openGroups_le : d.openGroups ≤ limit.toNat + 1
  length_calls_le : d.calls.length ≤ 4 * d.openGroups + 3
  sum_eq : ∀ s, d.sum? = some s →
    ∃ n : UInt32, s = n + 1 ∧ s.toNat = n.toNat + 1 ∧ s.toNat ≤ limit.toNat + 1
  calls_factor : ∀ t, d.focus = .factor t →
    d.CallsRule limit (t :: d.tokens) (factor limit d.groups t d.tokens) Factor.yield Factor.tree
      Factor.levels
  factor_advances : ∀ t, d.focus = .factor t → ∀ q, factor limit d.groups t d.tokens = .ok q →
    q.rest.length < (t :: d.tokens).length
  calls_item : ∀ t, d.focus = .item t →
    d.CallsRule limit (t :: d.tokens) (item limit d.groups t d.tokens) Item.yield Item.tree
      Item.levels
  calls_sequence : d.focus = .sequence [] 0 →
    d.CallsRule limit d.tokens (Pattern.sequence limit d.groups [] 0 d.tokens (Nat.lt_succ_self _))
      Sequence.yield Sequence.tree Sequence.levels
  calls_alternatives : d.focus = .alternatives [] 0 →
    d.CallsRule limit d.tokens (alternatives limit d.groups [] 0 d.tokens (Nat.lt_succ_self _))
      Alternatives.yield Alternatives.tree Alternatives.levels

/-- What every step keeps makes the counters exact, and with what the rules return it makes the
calls exact. -/
theorem Counted.exact (hlimit : limit.toNat + 1 < UInt32.size) (h : d.Counted limit) :
    d.Exact limit := by
  refine ⟨h.groups_eq, h.openGroups_le, h.length_calls_le, ?sum, ?factor, ?advances, ?item,
    ?sequence, ?alternatives⟩
  case sum =>
    intro s hs
    obtain ⟨n, rfl, hn⟩ := h.sum_eq hs
    have hsucc := toNat_succ hlimit hn
    exact ⟨n, rfl, hsucc, hsucc ▸ Nat.succ_le_succ hn⟩
  case advances => exact fun _ _ q _ => q.rest_lt
  all_goals obtain ⟨focus, groups, calls, tokens⟩ := d
  case factor =>
    rintro t rfl
    refine ⟨performs_factor limit groups calls t tokens, fun q hq => ?_, Factor.yield_injective⟩
    obtain ⟨f, hf⟩ := reads_factor hlimit groups t tokens q hq
    exact ⟨f, hf.exact f.max?_levels⟩
  case item =>
    rintro t rfl
    refine ⟨performs_item limit groups calls t tokens, fun q hq => ?_, Item.yield_injective⟩
    obtain ⟨i, hi⟩ := reads_item hlimit groups t tokens q hq
    exact ⟨i, hi.exact i.max?_levels⟩
  case sequence =>
    rintro rfl
    refine ⟨performs_sequence limit groups calls [] 0 tokens _, fun q hq => ?_,
      Sequence.yield_injective⟩
    obtain ⟨s, hs⟩ := reads_sequence hlimit groups .empty rfl (Nat.zero_le _) tokens _ q hq
    exact ⟨s, hs.exact s.max?_levels⟩
  case alternatives =>
    rintro rfl
    refine ⟨performs_alternatives limit groups calls [] 0 tokens _, fun q hq => ?_,
      Alternatives.yield_injective⟩
    obtain ⟨a, ha⟩ := reads_alternatives hlimit groups none rfl (Nat.zero_le _) tokens _ q hq
    exact ⟨a, ha.exact a.max?_levels⟩

/-- Below the largest limit, the counters of a descent through the tokens of any text are exact
wherever the descent stands. The count of groups is the number of factors inside their groups, at
most one above the limit, and the calls that wait are at most four for each of them. Every sum is
the number one above what was added to, at most one above the limit, and so does not wrap. A call of
a rule ends the descent with a violation or returns, with the groups counted as before; a factor
then leaves fewer tokens, and the nesting returned is the greatest number of groups and suffixes
around any character or empty sequence that the call has read. So there is no endless descent, and
it ends with what `Pattern.parse` says of the text. -/
theorem counters_exact (hlimit : limit.toNat + 1 < UInt32.size) (text : String) :
    (∀ v, Token.scan text = .error v → parse limit text = .error ⟨v, text⟩) ∧
    ∀ tokens, Token.scan text = .ok tokens →
      Acc (fun d' d => d.turn limit = .next d') (start tokens) ∧
      (∀ p, parse limit text = .ok p ↔ (start tokens).Ends limit (.ok p)) ∧
      (∀ v, parse limit text = .error ⟨v, text⟩ ↔ (start tokens).Ends limit (.error v)) ∧
      ∀ d, Comes limit (start tokens) d → d.Exact limit := by
  refine ⟨fun v hscan => ?_, fun tokens hscan => ?_⟩
  · rw [parse, hscan]
    rfl
  · obtain ⟨hok, herror⟩ := ends_start_iff limit hscan
    exact ⟨(ends_start limit tokens).acc, hok, herror,
      fun d hd => (Counted.comes hlimit hd).exact hlimit⟩

/-- The tokens of `(a*)`. -/
def starredGroup : List Token :=
  [⟨.opening, ⟨0, 1⟩⟩, ⟨.char 'a', ⟨1, 2⟩⟩, ⟨.star, ⟨2, 3⟩⟩, ⟨.closing, ⟨3, 4⟩⟩, .ending 4]

/-- In `(a*)` one level is allowed. Inside the group one group is counted, before and after the item
`a*` is read with its one level. Where the group is closed the sum is one above the limit, and the
descent ends. -/
theorem counters_exact_group :
    (1 : UInt32).toNat + 1 < UInt32.size ∧ Token.scan "(a*)" = .ok starredGroup ∧
      (∃ d, Comes 1 (start starredGroup) d ∧ d.groups.toNat = 1 ∧
        Comes 1 d ⟨.returned (.star (.literal 'a')) 1, d.groups, d.calls, d.tokens.drop 1⟩) ∧
      (∃ d, Comes 1 (start starredGroup) d ∧ d.sum? = some 2 ∧ (2 : UInt32).toNat ≤ 1 + 1) ∧
      parse 1 "(a*)" = .error ⟨⟨.nestLimitExceeded 1, ⟨0, 1⟩⟩, "(a*)"⟩ := by
  have hlimit : (1 : UInt32).toNat + 1 < UInt32.size := by decide
  have hscan : Token.scan "(a*)" = .ok starredGroup := rfl
  have hitem : item 1 1 ⟨.char 'a', ⟨1, 2⟩⟩ [⟨.star, ⟨2, 3⟩⟩, ⟨.closing, ⟨3, 4⟩⟩, .ending 4] =
      .ok ⟨.star (.literal 'a'), 1, [⟨.closing, ⟨3, 4⟩⟩, .ending 4], by decide⟩ := by
    rw [item, factor]
    rfl
  have hinside := comes_after 1 7 (start starredGroup)
  have hclosing := comes_after 1 17 (start starredGroup)
  obtain ⟨-, hdescent⟩ := counters_exact hlimit "(a*)"
  obtain ⟨-, -, herror, hexact⟩ := hdescent starredGroup hscan
  refine ⟨hlimit, hscan, ⟨_, hinside, (hexact _ hinside).groups_eq, ?_⟩, ⟨_, hclosing, rfl, ?_⟩,
    (herror _).2 ⟨_, hclosing, rfl⟩⟩
  · exact ((hexact _ hinside).calls_item _ rfl).performs.ok _ hitem
  · obtain ⟨_, -, -, hle⟩ := (hexact _ hclosing).sum_eq 2 rfl
    exact hle

end

end PatternMachine.Descent
