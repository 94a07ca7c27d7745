import Mathlib.Logic.Relation
import PatternMachine.Proofs.Pattern.Rules

/-!
# Reading patterns step by step

The rules that read a pattern call one another. Here they are taken apart into single steps. A
descent is the moment between two of them: what the innermost call does next, the calls that wait
for it, the tokens that are left, and one counter for the groups that are open. The counter belongs
to no call. It goes up where a group opens and down where one closes, and every number that has been
raised by one is held by a descent of its own before it is checked (`Descent.turn`).

The steps are those of the rules: where a descent calls a rule, it comes to the violation that the
rule finds, or to where the call returns what the rule has read (`Descent.Performs`, with one lemma
for each rule). So a descent through the tokens of a text ends as `Pattern.parse` says
(`Descent.ends_start_iff`), wherever it stands (`Descent.ends_of_comes`).
-/

namespace PatternMachine

open Pattern

/-- A call of a rule that waits for another one. -/
inductive Descent.Call where
  /-- A factor waits for the content of the group that `opening` opened. -/
  | factor (opening : Token)
  /-- An item waits for its factor. -/
  | item
  /-- A sequence waits for an item behind those in `before`, the latest first. -/
  | sequence (before : List Pattern) (nest : UInt32)
  /-- An alternative waits for a branch behind those in `before`, the latest first. -/
  | alternatives (before : List Pattern) (nest : UInt32)

/-- What the innermost call does next. -/
inductive Descent.Focus where
  /-- It reads a factor from `t` on. -/
  | factor (t : Token)
  /-- It checks how many groups are open with the one that `opening` opens. -/
  | opening (opening : Token)
  /-- It checks the nesting of the group that was opened at `span` and is closed now. -/
  | closing (span : Span) (tree : Pattern) (nest : UInt32)
  /-- It reads an item from `t` on. -/
  | item (t : Token)
  /-- It looks for suffixes behind `tree`. -/
  | suffixes (tree : Pattern) (nest : UInt32)
  /-- It checks the nesting of `tree` with its last suffix, the one at `span`. -/
  | suffix (span : Span) (tree : Pattern) (nest : UInt32)
  /-- It looks for items behind those in `before`, the latest first. -/
  | sequence (before : List Pattern) (nest : UInt32)
  /-- It reads a branch behind those in `before`, the latest first. -/
  | alternatives (before : List Pattern) (nest : UInt32)
  /-- It returns what it has read. -/
  | returned (tree : Pattern) (nest : UInt32)

/-- The reading of a pattern between two steps. -/
structure Descent where
  focus : Descent.Focus
  /-- The counter of the open groups. -/
  groups : UInt32
  /-- The calls that wait, the innermost one first. -/
  calls : List Descent.Call
  tokens : List Token

/-- The outcome of one step. -/
inductive Descent.Turn where
  | next (d : Descent)
  | ended (result : Except Violation Pattern)

namespace Descent

/-- The first step of a descent through `tokens`. -/
def start (tokens : List Token) : Descent :=
  ⟨.alternatives [] 0, 0, [], tokens⟩

/-- Goes on as `d` if `nest` is within the limit. -/
def checked (limit nest : UInt32) (span : Span) (d : Descent) : Turn :=
  match checkNesting limit nest span with
  | .error v => .ended (.error v)
  | .ok () => .next d

/-- One step. -/
def turn (limit : UInt32) : Descent → Turn
  | ⟨.factor t, groups, calls, tokens⟩ =>
    match leaf? t.kind with
    | some leaf => .next ⟨.returned leaf 0, groups, calls, tokens⟩
    | none =>
      if t.kind = .opening then .next ⟨.opening t, groups + 1, calls, tokens⟩
      else .ended (.error (unexpected "character" t))
  | ⟨.opening t, groups, calls, tokens⟩ =>
    checked limit groups t.span ⟨.alternatives [] 0, groups, .factor t :: calls, tokens⟩
  | ⟨.closing span tree nest, groups, calls, tokens⟩ =>
    checked limit nest span ⟨.returned tree nest, groups, calls, tokens⟩
  | ⟨.item t, groups, calls, tokens⟩ => .next ⟨.factor t, groups, .item :: calls, tokens⟩
  | ⟨.suffixes tree nest, groups, calls, []⟩ => .next ⟨.returned tree nest, groups, calls, []⟩
  | ⟨.suffixes tree nest, groups, calls, t :: rest⟩ =>
    match repetition? t.kind with
    | none => .next ⟨.returned tree nest, groups, calls, t :: rest⟩
    | some wrap => .next ⟨.suffix t.span (wrap tree) (nest + 1), groups, calls, rest⟩
  | ⟨.suffix span tree nest, groups, calls, tokens⟩ =>
    checked limit nest span ⟨.suffixes tree nest, groups, calls, tokens⟩
  | ⟨.sequence before nest, groups, calls, []⟩ =>
    .next ⟨.returned (seqAll before.reverse) nest, groups, calls, []⟩
  | ⟨.sequence before nest, groups, calls, t :: rest⟩ =>
    if t.kind.beginsItem then .next ⟨.item t, groups, .sequence before nest :: calls, rest⟩
    else .next ⟨.returned (seqAll before.reverse) nest, groups, calls, t :: rest⟩
  | ⟨.alternatives before nest, groups, calls, tokens⟩ =>
    .next ⟨.sequence [] 0, groups, .alternatives before nest :: calls, tokens⟩
  | ⟨.returned tree _, _, [], tokens⟩ => .ended (whole tree tokens)
  | ⟨.returned _ _, _, .factor t :: _, []⟩ => .ended (.error ⟨.groupUnclosed, t.span⟩)
  | ⟨.returned tree nest, groups, .factor t :: calls, close :: rest⟩ =>
    if close.kind = .closing then .next ⟨.closing t.span tree (nest + 1), groups - 1, calls, rest⟩
    else if close.kind = .ending then .ended (.error ⟨.groupUnclosed, t.span⟩)
    else .ended (.error (unexpected "')'" close))
  | ⟨.returned tree nest, groups, .item :: calls, tokens⟩ =>
    .next ⟨.suffixes tree nest, groups, calls, tokens⟩
  | ⟨.returned tree nest, groups, .sequence before n :: calls, tokens⟩ =>
    .next ⟨.sequence (tree :: before) (max n nest), groups, calls, tokens⟩
  | ⟨.returned tree nest, groups, .alternatives before n :: calls, []⟩ =>
    .next ⟨.returned (altAll (tree :: before).reverse) (max n nest), groups, calls, []⟩
  | ⟨.returned tree nest, groups, .alternatives before n :: calls, t :: rest⟩ =>
    if t.kind = .bar then .next ⟨.alternatives (tree :: before) (max n nest), groups, calls, rest⟩
    else .next ⟨.returned (altAll (tree :: before).reverse) (max n nest), groups, calls, t :: rest⟩

/-- From one descent steps lead to another. -/
def Comes (limit : UInt32) : Descent → Descent → Prop :=
  Relation.ReflTransGen fun d d' => d.turn limit = .next d'

/-- The steps from `d` on come to an end with `result`. -/
def Ends (limit : UInt32) (d : Descent) (result : Except Violation Pattern) : Prop :=
  ∃ e, Comes limit d e ∧ e.turn limit = .ended result

/-- At `d` a rule is called that returns `x`: a violation ends the descent, and otherwise it comes
to where the call returns, with the counter at `groups`, the call going back to `calls`. -/
structure Performs (limit : UInt32) (d : Descent) (groups : UInt32) (calls : List Call)
    {bound : Nat} (x : Except Violation (Reading bound)) : Prop where
  error : ∀ v, x = .error v → d.Ends limit (.error v)
  ok : ∀ q, x = .ok q → Comes limit d ⟨.returned q.tree q.nest, groups, calls, q.rest⟩

section

variable {limit : UInt32} {d d' : Descent} {result result' : Except Violation Pattern}

/-- Where the descent comes to it ends as before. -/
theorem Ends.of_comes (h : Comes limit d d') (h' : d'.Ends limit result) : d.Ends limit result := by
  obtain ⟨e, he, hend⟩ := h'
  exact ⟨e, h.trans he, hend⟩

/-- A step that ends the descent ends it with its result. -/
theorem Ends.of_turn (h : d.turn limit = .ended result) : d.Ends limit result :=
  ⟨d, .refl, h⟩

/-- No step has two outcomes, so whatever lies on the way to an end leads there. -/
theorem Ends.of_between (h : d.Ends limit result) (hd : Comes limit d d') :
    d'.Ends limit result := by
  induction hd using Relation.ReflTransGen.head_induction_on with
  | refl => exact h
  | head hturn _ ih =>
    obtain ⟨e, he, hend⟩ := h
    rcases he.cases_head with rfl | ⟨c, hc, hce⟩
    · rw [hturn] at hend
      cases hend
    · rw [hturn] at hc
      cases hc
      exact ih ⟨e, hce, hend⟩

/-- So a descent has one result. -/
theorem Ends.unique (h : d.Ends limit result) (h' : d.Ends limit result') : result = result' := by
  obtain ⟨e, he, hend⟩ := h'
  obtain ⟨c, hc, hend'⟩ := h.of_between he
  rcases hc.cases_head with rfl | ⟨b, hb, -⟩
  · rw [hend] at hend'
    cases hend'
    rfl
  · rw [hend] at hb
    cases hb

/-- A descent that comes to an end has no endless sequence of steps. -/
theorem Ends.acc (h : d.Ends limit result) : Acc (fun d' d => d.turn limit = .next d') d := by
  obtain ⟨e, he, hend⟩ := h
  induction he using Relation.ReflTransGen.head_induction_on with
  | refl =>
    refine .intro _ fun d' hd' => ?_
    rw [hend] at hd'
    cases hd'
  | head hturn _ ih =>
    refine .intro _ fun d' hd' => ?_
    rw [hturn] at hd'
    cases hd'
    exact ih

end

/-- The descent after a number of steps, or the last one. -/
def after (limit : UInt32) : (steps : Nat) → Descent → Descent
  | 0, d => d
  | steps + 1, d =>
    match d.turn limit with
    | .next d' => d'.after limit steps
    | .ended _ => d

/-- A descent comes to where a number of steps lead. -/
theorem comes_after (limit : UInt32) (steps : Nat) (d : Descent) :
    Comes limit d (d.after limit steps) := by
  induction steps generalizing d with
  | zero => exact .refl
  | succ steps ih =>
    rw [after]
    split
    · rename_i hturn
      exact .head hturn (ih _)
    · exact .refl

namespace Performs

variable {limit groups groups' nest : UInt32} {calls calls' : List Call} {d d' : Descent}
  {span : Span} {bound bound' : Nat} {x : Except Violation (Reading bound)}

/-- A call may end the descent at once. -/
theorem of_error {v : Violation} (h : d.turn limit = .ended (.error v)) :
    Performs limit d groups calls (.error v : Except Violation (Reading bound)) where
  error w hw := by cases hw; exact .of_turn h
  ok q hq := by cases hq

/-- A call may come to where it returns. -/
theorem of_ok {q : Reading bound}
    (h : Comes limit d ⟨.returned q.tree q.nest, groups, calls, q.rest⟩) :
    Performs limit d groups calls (.ok q) where
  error w hw := by cases hw
  ok q' hq := by cases hq; exact h

/-- A call may be begun with a step. -/
theorem head (e : Descent) (h : d.turn limit = .next e) (h' : Performs limit e groups calls x) :
    Performs limit d groups calls x where
  error v hx := .of_comes (.single h) (h'.error v hx)
  ok q hq := .head h (h'.ok q hq)

/-- One call follows another. -/
theorem bind {f : Reading bound → Except Violation (Reading bound')}
    (h : Performs limit d groups' calls' x)
    (hf : ∀ q,
      Performs limit ⟨.returned q.tree q.nest, groups', calls', q.rest⟩ groups calls (f q)) :
    Performs limit d groups calls (x >>= f) := by
  cases hx : x with
  | error v => exact ⟨fun w hw => h.error w (hx.trans (by cases hw; rfl)), nofun⟩
  | ok q =>
    have hcomes := h.ok q hx
    exact ⟨fun v hv => .of_comes hcomes ((hf q).error v hv),
      fun q' hq' => hcomes.trans ((hf q).ok q' hq')⟩

/-- A check is one step. -/
theorem check (h : d.turn limit = checked limit nest span d')
    (h' : Performs limit d' groups calls x) :
    Performs limit d groups calls (checkNesting limit nest span >>= fun _ => x) := by
  rw [checked] at h
  cases hc : checkNesting limit nest span with
  | error v => exact of_error (by rw [h, hc])
  | ok u => exact head d' (by rw [h, hc]) h'

end Performs

/-! ## The rules one by one -/

/-- The loop that reads suffixes is performed. -/
theorem performs_suffixes (limit groups : UInt32) (calls : List Call) {bound : Nat} (tree : Pattern)
    (nest : UInt32) (tokens : List Token) (h : tokens.length < bound) :
    Performs limit ⟨.suffixes tree nest, groups, calls, tokens⟩ groups calls
      (suffixes limit tree nest tokens h) := by
  induction tokens generalizing tree nest with
  | nil => exact .of_ok (.single rfl)
  | cons t rest ih =>
    rw [suffixes]
    cases hwrap : repetition? t.kind with
    | none => exact .of_ok (.single (by simp [turn, hwrap]))
    | some wrap =>
      refine .head ⟨.suffix t.span (wrap tree) (nest + 1), groups, calls, rest⟩
        (by simp only [turn, hwrap]) (.check rfl (ih (wrap tree) (nest + 1) _))

/-- Where a group is closed the counter goes back to what it was in front of the group. -/
theorem performs_closed (limit groups : UInt32) (calls : List Call) (t : Token) {bound : Nat}
    (q : Reading bound) :
    Performs limit ⟨.returned q.tree q.nest, groups + 1, .factor t :: calls, q.rest⟩ groups calls
      (q.closed limit t) := by
  obtain ⟨tree, nest, tokens, hlt⟩ := q
  cases tokens with
  | nil => exact .of_error rfl
  | cons close outside =>
    show Performs _ _ _ _ (if _ then _ else _)
    split
    · rename_i hclosing
      refine .head ⟨.closing t.span tree (nest + 1), groups, calls, outside⟩ ?_
        (.check rfl (.of_ok .refl))
      simp only [turn, if_pos hclosing, UInt32.add_sub_cancel]
    · rename_i hclosing
      split
      · rename_i hending
        exact .of_error (by simp only [turn, if_neg hclosing, if_pos hending])
      · rename_i hending
        exact .of_error (by simp only [turn, if_neg hclosing, if_neg hending])

mutual

/-- The rule of a factor is performed. -/
theorem performs_factor (limit groups : UInt32) (calls : List Call) (t : Token)
    (rest : List Token) :
    Performs limit ⟨.factor t, groups, calls, rest⟩ groups calls (factor limit groups t rest) := by
  cases hleaf : leaf? t.kind with
  | some leaf =>
    rw [factor_of_leaf hleaf]
    exact .of_ok (.single (by simp only [turn, hleaf]))
  | none =>
    by_cases hopening : t.kind = .opening
    · rw [factor_of_opening hopening]
      refine .head ⟨.opening t, groups + 1, calls, rest⟩
        (by simp only [turn, hleaf, if_pos hopening]) (.check rfl ?_)
      exact (performs_alternatives limit (groups + 1) (.factor t :: calls) [] 0 rest _).bind
        fun q => performs_closed limit groups calls t q
    · rw [factor_of_unexpected hleaf hopening]
      exact .of_error (by simp only [turn, hleaf, if_neg hopening])
termination_by (rest.length + 1, 0)

/-- The rule of an item is performed. -/
theorem performs_item (limit groups : UInt32) (calls : List Call) (t : Token) (rest : List Token) :
    Performs limit ⟨.item t, groups, calls, rest⟩ groups calls (item limit groups t rest) := by
  refine .head _ rfl ((performs_factor limit groups (.item :: calls) t rest).bind fun q => ?_)
  exact .head _ rfl (performs_suffixes limit groups calls q.tree q.nest q.rest q.rest_lt)
termination_by (rest.length + 1, 1)

/-- The loop that reads the items of a sequence is performed. -/
theorem performs_sequence (limit groups : UInt32) (calls : List Call) {bound : Nat}
    (before : List Pattern) (nest : UInt32) (tokens : List Token) (h : tokens.length < bound) :
    Performs limit ⟨.sequence before nest, groups, calls, tokens⟩ groups calls
      (Pattern.sequence limit groups before nest tokens h) := by
  match tokens with
  | [] =>
    rw [Pattern.sequence]
    exact .of_ok (.single rfl)
  | t :: rest =>
    rw [sequence_cons]
    split
    · rename_i hbegins
      refine .head ⟨.item t, groups, .sequence before nest :: calls, rest⟩
        (by simp only [turn, if_pos hbegins]) ?_
      refine (performs_item limit groups (.sequence before nest :: calls) t rest).bind ?_
      rintro ⟨tree, n, rest', hlt⟩
      exact .head _ rfl (performs_sequence limit groups calls _ _ rest' _)
    · rename_i hbegins
      exact .of_ok (.single (by simp only [turn, if_neg hbegins, Reading.ofItems]))
termination_by (tokens.length, 2)

/-- The loop that reads the branches of an alternative is performed. -/
theorem performs_alternatives (limit groups : UInt32) (calls : List Call) {bound : Nat}
    (before : List Pattern) (nest : UInt32) (tokens : List Token) (h : tokens.length < bound) :
    Performs limit ⟨.alternatives before nest, groups, calls, tokens⟩ groups calls
      (alternatives limit groups before nest tokens h) := by
  rw [alternatives]
  refine .head _ rfl
    ((performs_sequence limit groups (.alternatives before nest :: calls) [] 0 tokens _).bind ?_)
  rintro ⟨tree, snest, rest, hlt⟩
  cases rest with
  | nil => exact .of_ok (.single rfl)
  | cons t rest =>
    have hlt' : rest.length < tokens.length := Nat.lt_of_succ_lt_succ hlt
    show Performs _ _ _ _ (if _ then _ else _)
    split
    · rename_i hbar
      exact .head _ (by simp only [turn, if_pos hbar])
        (performs_alternatives limit groups calls _ _ rest _)
    · rename_i hbar
      exact .of_ok (.single (by simp only [turn, if_neg hbar, Reading.ofBranches]))
termination_by (tokens.length, 3)

end

/-! ## Whole patterns -/

/-- A descent through the tokens of a text ends with what the rules read from them. -/
theorem ends_start (limit : UInt32) (tokens : List Token) :
    (start tokens).Ends limit (ofTokens limit tokens) := by
  have h := performs_alternatives limit 0 [] [] 0 tokens (Nat.lt_succ_self _)
  rw [ofTokens_eq_whole]
  cases hx : alternatives limit 0 [] 0 tokens (Nat.lt_succ_self _) with
  | error v => exact h.error v hx
  | ok q => exact ⟨_, h.ok q hx, rfl⟩

/-- Wherever the descent stands, it is on the way to what the rules read. -/
theorem ends_of_comes {limit : UInt32} {tokens : List Token} {d : Descent}
    (h : Comes limit (start tokens) d) : d.Ends limit (ofTokens limit tokens) :=
  (ends_start limit tokens).of_between h

/-- A text is read by the descent through its tokens. -/
theorem ends_start_iff (limit : UInt32) {text : String} {tokens : List Token}
    (hscan : Token.scan text = .ok tokens) :
    (∀ p, parse limit text = .ok p ↔ (start tokens).Ends limit (.ok p)) ∧
    ∀ v, parse limit text = .error ⟨v, text⟩ ↔ (start tokens).Ends limit (.error v) := by
  have hends := ends_start limit tokens
  have hbind : Token.scan text >>= ofTokens limit = ofTokens limit tokens := by
    rw [hscan]
    rfl
  rw [parse, hbind]
  cases hx : ofTokens limit tokens with
  | ok tree =>
    rw [hx] at hends
    refine ⟨fun p => ⟨?_, fun h => ?_⟩, fun v => ⟨nofun, fun h => ?_⟩⟩
    · rintro ⟨⟩
      exact hends
    · cases hends.unique h
      rfl
    · cases hends.unique h
  | error w =>
    rw [hx] at hends
    refine ⟨fun p => ⟨nofun, fun h => ?_⟩, fun v => ⟨?_, fun h => ?_⟩⟩
    · cases hends.unique h
    · rintro ⟨⟩
      exact hends
    · cases hends.unique h
      rfl

end Descent

end PatternMachine
