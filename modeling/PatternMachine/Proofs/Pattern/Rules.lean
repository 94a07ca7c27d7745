import PatternMachine.Pattern.Parse

/-!
# The rules that read a pattern

Facts about the rules that do not depend on what is proved of them: a group is an alternative and
what closes it (`Pattern.factor_of_opening`); a sequence reads items, each of them a factor and its
suffixes (`Pattern.sequence_cons`); a pattern is an alternative with nothing behind it
(`Pattern.ofTokens_eq_whole`); and what holds of the parts of a rule, if they succeed, is put
together as the rule is (`Pattern.Ensures`).
-/

namespace PatternMachine.Pattern

/-- Reads the parenthesis behind the content of the group that `opening` opened. -/
def Reading.closed {bound : Nat} (limit : UInt32) (opening : Token) (content : Reading bound) :
    Except Violation (Reading bound) :=
  match h : content.rest with
  | [] => .error ⟨.groupUnclosed, opening.span⟩
  | close :: outside =>
    have hlt : outside.length + 1 < bound := by
      have := content.rest_lt
      rwa [h] at this
    if close.kind = .closing then do
      checkNesting limit (content.nest + 1) opening.span
      return ⟨content.tree, content.nest + 1, outside, Nat.lt_of_succ_lt hlt⟩
    else if close.kind = .ending then .error ⟨.groupUnclosed, opening.span⟩
    else .error (unexpected "')'" close)

/-- Reads the suffixes behind what has been read. -/
def Reading.suffixed {bound : Nat} (limit : UInt32) (q : Reading bound) :
    Except Violation (Reading bound) :=
  suffixes limit q.tree q.nest q.rest q.rest_lt

/-- Reads a factor from `t` on, inside `groups` open groups, and the suffixes behind it. -/
def item (limit groups : UInt32) (t : Token) (rest : List Token) :
    Except Violation (Reading (rest.length + 1)) :=
  factor limit groups t rest >>= Reading.suffixed limit

/-- The pattern `tree` has been read, unless there is something behind it. -/
def whole (tree : Pattern) : List Token → Except Violation Pattern
  | [] => .ok tree
  | t :: _ =>
    if t.kind = .ending then .ok tree
    else if t.kind = .closing then .error ⟨.groupUnopened, t.span⟩
    else .error (unexpected "end of pattern" t)

section

variable {limit groups : UInt32} {t : Token} {leaf : Pattern}

/-- A leaf is a factor of its own. -/
theorem factor_of_leaf (h : leaf? t.kind = some leaf) (rest : List Token) :
    factor limit groups t rest = .ok ⟨leaf, 0, rest, Nat.lt_succ_self _⟩ := by
  rw [factor]
  split
  · rename_i leaf' hleaf
    cases h.symm.trans hleaf
    rfl
  · rename_i hnone
    cases h.symm.trans hnone

/-- A parenthesis opens a group, which is checked first and closed behind its content. -/
theorem factor_of_opening (h : t.kind = .opening) (rest : List Token) :
    factor limit groups t rest = checkNesting limit (groups + 1) t.span >>= fun _ =>
      alternatives limit (groups + 1) [] 0 rest (Nat.lt_succ_self _) >>=
        Reading.closed limit t := by
  have hnone : leaf? t.kind = none := by rw [h, leaf?]
  rw [factor]
  split
  · rename_i leaf hleaf
    cases hnone.symm.trans hleaf
  · rw [if_pos h]
    refine congrArg _ (funext fun _ => congrArg _ (funext fun content => ?_))
    obtain ⟨tree, nest, tokens, hlt⟩ := content
    cases tokens <;> rfl

/-- Any other token is no factor. -/
theorem factor_of_unexpected (hleaf : leaf? t.kind = none) (h : t.kind ≠ .opening)
    (rest : List Token) :
    factor limit groups t rest = .error (unexpected "character" t) := by
  rw [factor]
  split
  · rename_i leaf hsome
    cases hleaf.symm.trans hsome
  · rw [if_neg h]

end

/-- A sequence goes on with an item as long as one begins. -/
theorem sequence_cons (limit groups : UInt32) {bound : Nat} (before : List Pattern)
    (nest : UInt32) (t : Token) (rest : List Token) (h : (t :: rest).length < bound) :
    sequence limit groups before nest (t :: rest) h =
      if t.kind.beginsItem then
        item limit groups t rest >>= fun q => sequence limit groups (q.tree :: before)
          (max nest q.nest) q.rest (Nat.lt_trans q.rest_lt h)
      else .ok (.ofItems before nest (t :: rest) h) := by
  rw [sequence, item, bind_assoc]
  rfl

/-- A pattern is an alternative with nothing behind it. -/
theorem ofTokens_eq_whole (limit : UInt32) (tokens : List Token) : ofTokens limit tokens =
    alternatives limit 0 [] 0 tokens (Nat.lt_succ_self _) >>= fun q => whole q.tree q.rest := by
  rw [ofTokens]
  refine congrArg _ (funext fun q => ?_)
  obtain ⟨tree, nest, rest, hlt⟩ := q
  cases rest <;> rfl

/-- A pattern that is whole is the one that has been read. -/
theorem eq_of_whole {tree p : Pattern} {tokens : List Token} (h : whole tree tokens = .ok p) :
    tree = p := by
  cases tokens with
  | nil =>
    cases h
    rfl
  | cons t rest =>
    rw [whole] at h
    split at h
    · cases h
      rfl
    · split at h <;> cases h

/-! ## Rules that succeed -/

/-- If the rule succeeds, what it has read is as `post` says. -/
def Ensures {bound : Nat} (x : Except Violation (Reading bound)) (post : Reading bound → Prop) :
    Prop :=
  ∀ q, x = .ok q → post q

/-- The check passes exactly within the limit. -/
theorem checkNesting_eq_ok_iff {limit nest : UInt32} {span : Span} :
    checkNesting limit nest span = .ok () ↔ nest.toNat ≤ limit.toNat := by
  rw [checkNesting]
  split
  · rename_i h
    exact iff_of_false nofun (Nat.not_le.2 h)
  · rename_i h
    exact iff_of_true rfl (Nat.not_lt.1 h)

namespace Ensures

variable {limit nest : UInt32} {span : Span} {bound bound' : Nat}
  {x : Except Violation (Reading bound)} {post post' : Reading bound → Prop}

/-- A rule that fails ensures everything. -/
theorem error (v : Violation) : Ensures (.error v : Except Violation (Reading bound)) post := nofun

/-- A rule that returns ensures what holds of its reading. -/
theorem ok {q : Reading bound} (h : post q) : Ensures (.ok q) post := by
  rintro _ ⟨⟩
  exact h

/-- What is ensured may be weakened. -/
theorem mono (hx : Ensures x post) (h : ∀ q, post q → post' q) : Ensures x post' :=
  fun q hq => h q (hx q hq)

/-- What one rule ensures is what the next one starts from. -/
theorem bind {f : Reading bound → Except Violation (Reading bound')}
    {post' : Reading bound' → Prop} (hx : Ensures x post) (hf : ∀ q, post q → Ensures (f q) post') :
    Ensures (x >>= f) post' := by
  cases x with
  | error v => exact error v
  | ok q => exact hf q (hx q rfl)

/-- Behind a check the nesting is within the limit. -/
theorem check (hx : nest.toNat ≤ limit.toNat → Ensures x post) :
    Ensures (checkNesting limit nest span >>= fun _ => x) post := by
  cases hc : checkNesting limit nest span with
  | error v => exact error v
  | ok u => exact hx (checkNesting_eq_ok_iff.1 hc)

/-- Behind the content of a group there is the parenthesis that closes it. -/
theorem closed {opening : Token} {q : Reading bound}
    (h : ∀ close outside, q.rest = close :: outside → close.kind = .closing →
      (q.nest + 1).toNat ≤ limit.toNat → ∀ hlt, post ⟨q.tree, q.nest + 1, outside, hlt⟩) :
    Ensures (q.closed limit opening) post := by
  obtain ⟨tree, nest, tokens, hlt⟩ := q
  cases tokens with
  | nil => exact error _
  | cons close outside =>
    show Ensures (if _ then _ else _) _
    split
    · rename_i hclosing
      exact check fun hle => ok (h close outside rfl hclosing hle _)
    · split <;> exact error _

end Ensures

end PatternMachine.Pattern
