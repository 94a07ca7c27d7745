import PatternMachine.Proofs.Program.Regroup
import PatternMachine.Proofs.Regex.Backtracking
import PatternMachine.Proofs.Regex.Find

/-!
# Balanced folds cannot be told from nested ones

A sequence leaves no trace of how it is grouped: its draft is that of its parts one after the other
(`Pattern.SameDraft`), so that the programs are equal. The groupings of alternatives have different
programs, which backtrack alike in every context (`Pattern.Indistinguishable`). Both relations allow
regrouping, and so a list of patterns may be folded in any way (`Regex.fold_unobservable`).
-/

namespace PatternMachine

/-! ## Sequences -/

namespace Pattern

/-- Both patterns add the same to every draft. -/
structure SameDraft (p q : Pattern) : Prop where
  codeSize : p.codeSize = q.codeSize
  slots : ∀ base, p.slots base = q.slots base
  order : ∀ base, p.order base = q.order base

/-- Regrouping a sequence leaves the draft as it is. -/
theorem regroups_seq : Regroups .seq SameDraft where
  equivalence := {
    refl := fun _ => ⟨rfl, fun _ => rfl, fun _ => rfl⟩
    symm := fun h => ⟨h.codeSize.symm, fun b => (h.slots b).symm, fun b => (h.order b).symm⟩
    trans := fun h h' => ⟨h.codeSize.trans h'.codeSize, fun b => (h.slots b).trans (h'.slots b),
      fun b => (h.order b).trans (h'.order b)⟩ }
  congr h h' := by
    refine ⟨?_, fun b => ?_, fun b => ?_⟩
    · rw [Pattern.codeSize, Pattern.codeSize, h.codeSize, h'.codeSize]
    · rw [Pattern.slots, Pattern.slots, h.codeSize, h.slots, h'.slots]
    · rw [Pattern.order, Pattern.order, h.codeSize, h.order, h'.order]
  assoc p q r := by
    refine ⟨?_, fun b => ?_, fun b => ?_⟩
    · simp only [Pattern.codeSize, Nat.add_assoc]
    · simp only [Pattern.slots, Pattern.codeSize, Nat.add_assoc, List.append_assoc]
    · simp only [Pattern.order, Pattern.codeSize, Nat.add_assoc, List.append_assoc]

/-- What is around them does not change this. -/
theorem SameDraft.fill {p q : Pattern} (h : SameDraft p q) (C : Context) :
    SameDraft (C.fill p) (C.fill q) := by
  induction C with
  | hole => exact h
  | seqLeft C r ih => exact regroups_seq.congr ih (regroups_seq.equivalence.refl r)
  | seqRight l C ih => exact regroups_seq.congr (regroups_seq.equivalence.refl l) ih
  | altLeft C r ih | altRight r C ih | star C ih | plus C ih | opt C ih =>
    refine ⟨?_, fun b => ?_, fun b => ?_⟩
    · simp only [Context.fill, Pattern.codeSize, ih.codeSize]
    · simp only [Context.fill, Pattern.slots, ih.codeSize, ih.slots]
    · simp only [Context.fill, Pattern.order, ih.codeSize, ih.order]

/-- Patterns with the same draft have the same assembly, shortened or not. -/
theorem SameDraft.exists_assembly {p q : Pattern} (h : SameDraft p q) (shorten : Bool) :
    ∃ a, Assembly.ofPattern shorten p = .ok a ∧ Assembly.ofPattern shorten q = .ok a := by
  have hdraft : Draft.ofPattern p = Draft.ofPattern q := by
    rw [Draft.ofPattern_eq_ok, Draft.ofPattern_eq_ok, h.slots, h.order]
  obtain ⟨a, ha, -⟩ := Assembly.ofPattern_eq_ok shorten p
  refine ⟨a, ha, ?_⟩
  rw [← ha, Assembly.ofPattern, Assembly.ofPattern, hdraft]

/-! ## Alternatives -/

/-- How three alternatives are grouped makes no difference to backtracking, whatever is around
them. -/
theorem firstEnd_alt_alt (C : Context) (p q r : Pattern) (s : Subject) (threadLimit : Nat)
    {first : Nat} (hfirst : first ≤ s.size) (i : Nat) :
    (C.fill (.alt (.alt p q) r)).firstEnd s threadLimit first i =
      (C.fill (.alt p (.alt q r))).firstEnd s threadLimit first i := by
  obtain ⟨h, hr⟩ := C.exists_regrouped p q r
  let m := (C.fill (.alt (.alt p q) r)).machine s threadLimit
  let n := (C.fill (.alt p (.alt q r))).machine s threadLimit
  have hbounds : n.bounds first = m.bounds first := by
    rw [Machine.bounds, Machine.bounds]
    congr 1
    exact hr.size_eq.symm
  have hm : m.StaysIn (m.bounds first) := Machine.staysIn_bounds (closed_program _) hfirst
  have hn : n.StaysIn (n.bounds first) := Machine.staysIn_bounds (closed_program _) hfirst
  have halike : Machine.Alike m n (m.bounds first) (Regrouped.link p q r h) :=
    hr.alike rfl hm (hbounds ▸ hn)
  show m.firstEnd (Machine.allRoom (m.bounds first)) _ =
    n.firstEnd (Machine.allRoom (n.bounds first)) _
  rw [hbounds]
  exact halike.firstEnd_allRoom (fun htu => hr.contains_iff htu)
    ⟨.inl ⟨rfl, .inl (Nat.zero_le h)⟩, rfl⟩

/-- Whatever is around them, backtracking finds the same with either pattern. -/
def Indistinguishable (p q : Pattern) : Prop :=
  ∀ (C : Context) (s : Subject) (threadLimit first : Nat), first ≤ s.size → ∀ i,
    (C.fill p).firstEnd s threadLimit first i = (C.fill q).firstEnd s threadLimit first i

/-- Regrouping an alternative leaves what backtracking finds as it is. -/
theorem regroups_alt : Regroups .alt Indistinguishable where
  equivalence := {
    refl := fun _ _ _ _ _ _ _ => rfl
    symm := fun h C s limit first hfirst i => (h C s limit first hfirst i).symm
    trans := fun h h' C s limit first hfirst i =>
      (h C s limit first hfirst i).trans (h' C s limit first hfirst i) }
  congr {p p' q q'} h h' C s limit first hfirst i := by
    have hleft := h (C.comp (.altLeft .hole q)) s limit first hfirst i
    have hright := h' (C.comp (.altRight p' .hole)) s limit first hfirst i
    rw [Context.fill_comp, Context.fill_comp] at hleft hright
    exact hleft.trans hright
  assoc p q r C s limit _ hfirst i := firstEnd_alt_alt C p q r s limit hfirst i

end Pattern

/-! ## Results up to the limit -/

/-- The results are the same unless one of the searches had to let too many threads wait. -/
def SameUnlessStopped {α : Type} (x y : Except SearchError α) : Prop :=
  x = y ∨ (∃ limit, x = .error (.threadLimitExceeded limit)) ∨
    ∃ limit, y = .error (.threadLimitExceeded limit)

namespace SameUnlessStopped

variable {α β : Type} {x y : Except SearchError α}

/-- Results stay the same if the same is done with them. -/
theorem bind (h : SameUnlessStopped x y) (f : α → Except SearchError β) :
    SameUnlessStopped (x >>= f) (y >>= f) := by
  rcases h with rfl | ⟨limit, rfl⟩ | ⟨limit, rfl⟩
  · exact .inl rfl
  · exact .inr (.inl ⟨limit, rfl⟩)
  · exact .inr (.inr ⟨limit, rfl⟩)

/-- Results stay the same if what is done with a first one has the same results. -/
theorem bind_congr {f g : α → Except SearchError β}
    (h : ∀ a, x = .ok a → SameUnlessStopped (f a) (g a)) :
    SameUnlessStopped (x >>= f) (x >>= g) := by
  cases x with
  | error e => exact .inl rfl
  | ok a => exact h a rfl

/-- Searches that find the same if they are not stopped. -/
theorem of_spec {a : α} {limit limit' : Nat}
    (hx : x = .ok a ∨ x = .error (.threadLimitExceeded limit))
    (hy : y = .ok a ∨ y = .error (.threadLimitExceeded limit')) : SameUnlessStopped x y := by
  rcases hx with rfl | rfl
  · rcases hy with rfl | rfl
    · exact .inl rfl
    · exact .inr (.inr ⟨limit', rfl⟩)
  · exact .inr (.inl ⟨limit, rfl⟩)

end SameUnlessStopped

namespace Regex

/-- Every search with `r` has the result of the same search with `r'`, unless one of the two had to
let too many threads wait. -/
structure Agrees (r r' : Regex) : Prop where
  findAt : ∀ text start, SameUnlessStopped (r.findAt text start) (r'.findAt text start)
  isMatch : ∀ text, SameUnlessStopped (r.isMatch text) (r'.isMatch text)
  matchesAt : ∀ text start, SameUnlessStopped (r.matchesAt text start) (r'.matchesAt text start)
  endAt : ∀ text start, SameUnlessStopped (r.endAt text start) (r'.endAt text start)

variable {r r' : Regex}

/-- It is enough that the machines agree. -/
theorem agrees_of_machine
    (hfind : ∀ s first, first ≤ s.size →
      SameUnlessStopped ((r.machine s).find first) ((r'.machine s).find first))
    (hend : ∀ s i, i ≤ s.size →
      SameUnlessStopped ((r.machine s).matchEnd i) ((r'.machine s).matchEnd i)) :
    r.Agrees r' := by
  have hfindAt : ∀ text start, SameUnlessStopped (r.findAt text start) (r'.findAt text start) := by
    intro text start
    refine SameUnlessStopped.bind (SameUnlessStopped.bind_congr ?_) _
    rintro ⟨s, first⟩ hlocate
    exact (hfind s first (Subject.of_locate hlocate).2.1).bind _
  have hendAt : ∀ text start, SameUnlessStopped (r.endAt text start) (r'.endAt text start) := by
    intro text start
    refine SameUnlessStopped.bind_congr ?_
    rintro ⟨s, i⟩ hlocate
    exact (hend s i (Subject.of_locate hlocate).2.1).bind _
  exact ⟨hfindAt, fun text => (hfindAt text 0).bind _, fun text start => (hendAt text start).bind _,
    hendAt⟩

/-- Regular expressions of patterns with which backtracking finds the same agree. -/
theorem agrees_of_firstEnd {p q : Pattern} (hr : p.program.SameAnswers r.program)
    (hr' : q.program.SameAnswers r'.program) (hlimit : r'.threadLimit = r.threadLimit)
    (h : ∀ s first, first ≤ s.size → ∀ i,
      p.firstEnd s r.threadLimit first i = q.firstEnd s r.threadLimit first i) :
    r.Agrees r' := by
  refine agrees_of_machine (fun s first hfirst => ?_) (fun s i hi => ?_)
  · have hsame : (p.machine s r.threadLimit).firstMatch _ _ =
        (q.machine s r.threadLimit).firstMatch _ _ :=
      congrArg (List.range' first (s.size + 1 - first)).findSome? <|
        funext fun i => congrArg (Option.map (i, ·)) (h s first hfirst i)
    have hp := Machine.find_spec (m := p.machine s r.threadLimit) p.closed_program first
    have hq := Machine.find_spec (m := q.machine s r.threadLimit) q.closed_program first
    rw [machine, machine, hlimit, ← (hr s _).2 first, ← (hr' s _).2 first]
    exact .of_spec (hp.imp_left fun hp => hp.trans (congrArg Except.ok hsame)) hq
  · have hp := Machine.matchEnd_spec (m := p.machine s r.threadLimit) p.closed_program hi
    have hq := Machine.matchEnd_spec (m := q.machine s r.threadLimit) q.closed_program hi
    rw [machine, machine, hlimit, ← (hr s _).1 i hi, ← (hr' s _).1 i hi]
    exact .of_spec (hp.imp_left fun hp => hp.trans (congrArg Except.ok (h s i hi i))) hq

/-- In a context patterns that cannot be told apart make regular expressions that agree. -/
theorem exists_agrees {p q : Pattern} (h : p.Indistinguishable q) (o : Options)
    (C : Pattern.Context) : ∃ r r', ofPattern o (C.fill p) = .ok r ∧
      ofPattern o (C.fill q) = .ok r' ∧ r.Agrees r' := by
  obtain ⟨r, hr, hlimit, hsame, -⟩ := ofPattern_eq_ok o (C.fill p)
  obtain ⟨r', hr', hlimit', hsame', -⟩ := ofPattern_eq_ok o (C.fill q)
  exact ⟨r, r', hr, hr', agrees_of_firstEnd hsame hsame' (hlimit'.trans hlimit.symm)
    fun s first hfirst => h C s r.threadLimit first hfirst⟩

/-- Whatever is around a list of patterns that is not empty, given by its first or by its last item:
that it is folded by halves and not from the left or from the right makes no difference. As a
sequence it has the same program, shortened or not. As alternatives it makes a regular expression
that agrees in every search, unless one of the two lets too many threads wait. -/
theorem fold_unobservable (o : Options) (C : Pattern.Context) (p : Pattern) (ps : List Pattern) :
    (∀ shorten,
      (∃ a, Assembly.ofPattern shorten (C.fill (.seqAll (p :: ps))) = .ok a ∧
        Assembly.ofPattern shorten (C.fill (ps.foldl .seq p)) = .ok a) ∧
      ∃ a, Assembly.ofPattern shorten (C.fill (.seqAll (ps ++ [p]))) = .ok a ∧
        Assembly.ofPattern shorten (C.fill (ps.foldr .seq p)) = .ok a) ∧
    (∃ r r', ofPattern o (C.fill (.altAll (p :: ps))) = .ok r ∧
      ofPattern o (C.fill (ps.foldl .alt p)) = .ok r' ∧ r.Agrees r') ∧
    ∃ r r', ofPattern o (C.fill (.altAll (ps ++ [p]))) = .ok r ∧
      ofPattern o (C.fill (ps.foldr .alt p)) = .ok r' ∧ r.Agrees r' := by
  refine ⟨fun shorten => ⟨?_, ?_⟩, ?_, ?_⟩
  · exact ((Pattern.regroups_seq.fold_foldl p ps).fill C).exists_assembly shorten
  · exact ((Pattern.regroups_seq.fold_foldr ps p).fill C).exists_assembly shorten
  · exact exists_agrees (Pattern.regroups_alt.fold_foldl p ps) o C
  · exact exists_agrees (Pattern.regroups_alt.fold_foldr ps p) o C

end Regex

end PatternMachine
