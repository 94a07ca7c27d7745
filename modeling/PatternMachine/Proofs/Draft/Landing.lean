import PatternMachine.Proofs.Draft.Finish
import PatternMachine.Proofs.Machine.Landing

/-!
# Landing in a draft

In a draft, too, one passes `jump`s and `nop`s silently until one lands on another instruction
(`Draft.LandsOn`). The machine that runs the program of the draft lands at the positions of the
same instructions (`Draft.lands_iff`).
-/

namespace PatternMachine.Draft

variable {d : Draft}

/-! ## Landing -/

/-- `g` is placed directly after `h`. -/
def Next (d : Draft) (h g : Handle) : Prop :=
  ∃ k, d.order[k]? = some h ∧ d.order[k + 1]? = some g

/-- The instruction of `h` passes silently to that of `g`. -/
def Passes (d : Draft) (h g : Handle) : Prop :=
  d.get? h = some (.jump g) ∨ d.get? h = some .nop ∧ d.Next h g

/-- The instruction of `h` is neither a `jump` nor a `nop`. -/
def Rests (d : Draft) (h : Handle) : Prop :=
  ∃ i, d.get? h = some i ∧ i.silent = false

/-- From `h` one passes `n` instructions silently and rests at `x`. -/
inductive Lands (d : Draft) : (n : Nat) → (h x : Handle) → Prop
  | here {h : Handle} : d.Rests h → Lands d 0 h h
  | pass {n : Nat} {h g x : Handle} : d.Passes h g → Lands d n g x → Lands d (n + 1) h x

/-- From `h` one comes to rest at `x`. -/
def LandsOn (d : Draft) (h x : Handle) : Prop :=
  ∃ n, d.Lands n h x

/-- One lands where the instruction that is passed to lands. -/
theorem LandsOn.pass {h g x : Handle} (hp : d.Passes h g) (hl : d.LandsOn g x) : d.LandsOn h x :=
  hl.elim fun n hn => ⟨n + 1, .pass hp hn⟩

/-- Where one rests, one has landed. -/
theorem Rests.landsOn {h : Handle} (hr : d.Rests h) : d.LandsOn h h :=
  ⟨0, .here hr⟩

/-- Landing is coming to rest. -/
theorem Lands.rests {n : Nat} {h x : Handle} (hl : d.Lands n h x) : d.Rests x := by
  induction hl with
  | here hr => exact hr
  | pass _ _ ih => exact ih

/-- An instruction at rest does not pass. -/
theorem Rests.not_passes {h g : Handle} (hr : d.Rests h) : ¬ d.Passes h g := by
  obtain ⟨i, hi, hs⟩ := hr
  rintro (hj | ⟨hn, -⟩)
  · rw [hi] at hj
    cases hj
    cases hs
  · rw [hi] at hn
    cases hn
    cases hs

/-- In a sound draft every handle has one place, and so one successor. -/
theorem Sound.next_unique (hd : d.Sound) {h g g' : Handle} (hg : d.Next h g) (hg' : d.Next h g') :
    g = g' := by
  obtain ⟨k, hk, hk'⟩ := hg
  obtain ⟨l, hl, hl'⟩ := hg'
  obtain rfl := hd.index_unique hk hl
  rw [hk'] at hl'
  exact Option.some.inj hl'

/-- In a sound draft one passes silently to one instruction only. -/
theorem Sound.passes_unique (hd : d.Sound) {h g g' : Handle} (hg : d.Passes h g)
    (hg' : d.Passes h g') : g = g' := by
  rcases hg with hj | ⟨hn, hx⟩ <;> rcases hg' with hj' | ⟨hn', hx'⟩
  · rw [hj] at hj'
    cases hj'
    rfl
  · rw [hj] at hn'
    cases hn'
  · rw [hn] at hj'
    cases hj'
  · exact hd.next_unique hx hx'

/-- One rests after one number of steps at one instruction only. -/
theorem Sound.lands_unique (hd : d.Sound) {n k : Nat} {h x y : Handle} (hx : d.Lands n h x)
    (hy : d.Lands k h y) : n = k ∧ x = y := by
  induction hx generalizing k y with
  | here hr =>
    cases hy with
    | here => exact ⟨rfl, rfl⟩
    | pass hp => exact absurd hp hr.not_passes
  | pass hp _ ih =>
    cases hy with
    | here hr => exact absurd hp hr.not_passes
    | pass hp' hy =>
      obtain rfl := hd.passes_unique hp hp'
      obtain ⟨rfl, rfl⟩ := ih hy
      exact ⟨rfl, rfl⟩

/-- Whatever one passes to from a placed instruction is placed. -/
theorem Sound.mem_of_passes (hd : d.Sound) {h g : Handle} (hh : h ∈ d.order) (hp : d.Passes h g) :
    g ∈ d.order := by
  rcases hp with hj | ⟨-, k, -, hk⟩
  · exact hd.placed hh hj g (List.mem_singleton_self g)
  · exact Array.mem_of_getElem? hk

/-- From a placed instruction of a sound draft one lands on a placed one. -/
theorem Sound.mem_of_lands (hd : d.Sound) {n : Nat} {h x : Handle} (hh : h ∈ d.order)
    (hl : d.Lands n h x) : x ∈ d.order := by
  induction hl with
  | here => exact hh
  | pass hp _ ih => exact ih (hd.mem_of_passes hh hp)

/-- There is a first instruction. -/
theorem Sound.exists_first (hd : d.Sound) : ∃ h, d.order[0]? = some h :=
  ⟨_, Array.getElem?_eq_getElem hd.nonempty⟩

/-- An instruction that falls through has a next one. -/
theorem Sound.exists_next (hd : d.Sound) {h : Handle} {i : Instr Handle} (hh : h ∈ d.order)
    (hi : d.get? h = some i) (hf : i.fallsThrough = true) : ∃ g, d.Next h g := by
  obtain ⟨k, hk⟩ := Array.getElem?_of_mem hh
  have hlt := hd.next hk hi hf
  exact ⟨d.order[k + 1], k, hk, Array.getElem?_eq_getElem hlt⟩

/-! ## Landing in the program of a draft -/

section

variable {m : Machine}

/-- The machine passes silently from one position to another as the draft does from the handle of
the first to that of the second. -/
theorem silent?_iff (hr : d.Resolves m.program) (hd : d.Sound) {t u : Thread} {h : Handle}
    (hh : d.order[t.pc]? = some h) : m.silent? t = some u ↔
      u.pos = t.pos ∧ ∃ g, d.order[u.pc]? = some g ∧ d.Passes h g := by
  obtain ⟨i, j, hi, hj, hrel⟩ := hr.code hh
  obtain ⟨upc, upos⟩ := u
  unfold Machine.silent?
  rw [hj]
  cases hrel with
  | literal | any | accept | split =>
    simp only [reduceCtorEq, false_iff]
    intro hyp
    obtain ⟨-, g, -, hp⟩ := hyp
    exact absurd hp (Rests.not_passes ⟨_, hi, rfl⟩)
  | @jump g pos hpos =>
    simp only [Option.some.injEq, Thread.mk.injEq]
    refine ⟨?_, ?_⟩
    · intro hyp
      obtain ⟨rfl, rfl⟩ := hyp
      exact ⟨rfl, g, hpos, .inl hi⟩
    · intro hyp
      obtain ⟨rfl, g', hg', hp⟩ := hyp
      obtain rfl := hd.passes_unique (.inl hi) hp
      exact ⟨hd.index_unique hpos hg', rfl⟩
  | nop =>
    simp only [Option.some.injEq, Thread.mk.injEq]
    refine ⟨?_, ?_⟩
    · intro hyp
      obtain ⟨rfl, rfl⟩ := hyp
      have hlt := hd.next hh hi rfl
      have hnext : d.order[t.pc + 1]? = some d.order[t.pc + 1] := Array.getElem?_eq_getElem hlt
      exact ⟨rfl, _, hnext, .inr ⟨hi, t.pc, hh, hnext⟩⟩
    · intro hyp
      obtain ⟨rfl, g, hg, hp⟩ := hyp
      rcases hp with hjump | ⟨-, k, hk, hk'⟩
      · rw [hi] at hjump
        cases hjump
      · obtain rfl := hd.index_unique hh hk
        exact ⟨hd.index_unique hk' hg, rfl⟩

/-- A thread makes a move that is not silent where its instruction rests. -/
theorem silent?_eq_none_iff (hr : d.Resolves m.program) {t : Thread} {h : Handle}
    (hh : d.order[t.pc]? = some h) : m.silent? t = none ↔ d.Rests h := by
  obtain ⟨i, j, hi, hj, hrel⟩ := hr.code hh
  unfold Machine.silent? Rests
  rw [hj, hi]
  cases hrel <;> simp [Instr.silent, Instr.isJump, Instr.isNop]

/-- The machine lands from one position on another as the draft does from the handle of the first
on that of the second. -/
theorem lands_iff (hr : d.Resolves m.program) (hd : d.Sound) {n : Nat} {t x : Thread} {h : Handle}
    (hh : d.order[t.pc]? = some h) : m.Lands n t x ↔
      x.pos = t.pos ∧ ∃ g, d.order[x.pc]? = some g ∧ d.Lands n h g := by
  refine ⟨?_, ?_⟩
  · intro hl
    induction hl generalizing h with
    | here hs => exact ⟨rfl, h, hh, .here ((silent?_eq_none_iff hr hh).1 hs)⟩
    | pass hs _ ih =>
      obtain ⟨hpos, g, hg, hp⟩ := (silent?_iff hr hd hh).1 hs
      obtain ⟨hpos', x, hx, hl⟩ := ih hg
      exact ⟨hpos'.trans hpos, x, hx, .pass hp hl⟩
  · intro hyp
    obtain ⟨hpos, g, hg, hl⟩ := hyp
    induction hl generalizing t with
    | here hrest =>
      have : t = x := by
        obtain ⟨tpc, tpos⟩ := t
        obtain ⟨xpc, xpos⟩ := x
        cases hpos
        cases hd.index_unique hh hg
        rfl
      subst this
      exact .here ((silent?_eq_none_iff hr hh).2 hrest)
    | pass hp _ ih =>
      obtain ⟨k, hk⟩ := Array.getElem?_of_mem
        (hd.mem_of_passes (Array.mem_of_getElem? hh) hp)
      exact .pass ((silent?_iff (u := ⟨k, t.pos⟩) hr hd hh).2 ⟨rfl, _, hk, hp⟩) (ih hk hpos hg)

end

end PatternMachine.Draft
