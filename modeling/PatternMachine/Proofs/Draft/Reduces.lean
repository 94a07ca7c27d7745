import PatternMachine.Proofs.Draft.Landing
import PatternMachine.Proofs.Machine.Linked

/-!
# Shortened drafts that no search can tell apart

A draft reduces to another (`Draft.Reduces`) if the second one leaves out instructions that are
passed silently, and no others, and if edges, successors and the entry land where they landed
before. The positions of one instruction in the two programs are then linked, so that every search
has the same result with either program (`Draft.Reduces.sameAnswers`), errors included.
-/

namespace PatternMachine

/-- Every search of a text by the two programs has the same result, errors included. -/
def Program.SameAnswers (p q : Program) : Prop :=
  ∀ (s : Subject) (limit : Nat),
    (∀ start ≤ s.size,
      Machine.matchEnd ⟨p, s, limit⟩ start = Machine.matchEnd ⟨q, s, limit⟩ start) ∧
    ∀ first, Machine.find ⟨p, s, limit⟩ first = Machine.find ⟨q, s, limit⟩ first

namespace Program.SameAnswers

variable {p q r : Program}

/-- A program has the answers that it has. -/
theorem refl (p : Program) : p.SameAnswers p :=
  fun _ _ => ⟨fun _ _ => rfl, fun _ => rfl⟩

/-- Having the same answers is symmetric. -/
theorem symm (h : p.SameAnswers q) : q.SameAnswers p :=
  fun s limit => ⟨fun start hle => ((h s limit).1 start hle).symm,
    fun first => ((h s limit).2 first).symm⟩

/-- Programs that have the answers of one program have the same answers. -/
theorem trans (hpq : p.SameAnswers q) (hqr : q.SameAnswers r) : p.SameAnswers r :=
  fun s limit => ⟨fun start hle => ((hpq s limit).1 start hle).trans ((hqr s limit).1 start hle),
    fun first => ((hpq s limit).2 first).trans ((hqr s limit).2 first)⟩

/-- Asking for a match at a position is asking whether the attempt there has an end. -/
theorem matchesAt_eq (h : p.SameAnswers q) (s : Subject) (limit : Nat) {start : Nat}
    (hle : start ≤ s.size) :
    Machine.matchesAt ⟨p, s, limit⟩ start = Machine.matchesAt ⟨q, s, limit⟩ start := by
  rw [Machine.matchesAt, Machine.matchesAt, (h s limit).1 start hle]

end Program.SameAnswers

namespace Draft

variable {d e f : Draft}

/-- `h` in `d` comes to rest where `g` in `e` does. -/
def SameLanding (d e : Draft) (h g : Handle) : Prop :=
  ∀ x, d.LandsOn h x ↔ e.LandsOn g x

/-- An instruction lands where it lands. -/
theorem SameLanding.refl (d : Draft) (h : Handle) : SameLanding d d h h :=
  fun _ => Iff.rfl

/-- Landing alike goes from one draft to the next. -/
theorem SameLanding.trans {h g k : Handle} (hde : SameLanding d e h g)
    (hef : SameLanding e f g k) : SameLanding d f h k :=
  fun x => (hde x).trans (hef x)

/-- `e` is `d` without some of the instructions that are passed silently, and with edges that land
where those of `d` do. -/
structure Reduces (d e : Draft) : Prop where
  left : d.Sound
  right : e.Sound
  sublist : e.order.toList.Sublist d.order.toList
  rests : ∀ {h : Handle}, h ∈ d.order → d.Rests h → h ∈ e.order
  instr : ∀ {h : Handle} {i j : Instr Handle}, h ∈ e.order → d.get? h = some i →
    e.get? h = some j → i.Rel (SameLanding d e) j
  landing : ∀ {h : Handle}, h ∈ e.order → SameLanding d e h h
  start : ∀ {h g : Handle}, d.order[0]? = some h → e.order[0]? = some g → SameLanding d e h g
  next : ∀ {h g g' : Handle} {i : Instr Handle}, d.get? h = some i → i.fallsThrough = true →
    d.Next h g → e.Next h g' → SameLanding d e g g'

namespace Reduces

/-- No place is added. -/
theorem mem (h : Reduces d e) {x : Handle} (hx : x ∈ e.order) : x ∈ d.order :=
  Array.mem_toList_iff.1 (h.sublist.subset (Array.mem_toList_iff.2 hx))

/-- An instruction that is left has its kind. -/
theorem rests_iff (h : Reduces d e) {x : Handle} (hx : x ∈ e.order) : e.Rests x ↔ d.Rests x := by
  obtain ⟨i, hi⟩ := h.left.allocated (h.mem hx)
  obtain ⟨j, hj⟩ := h.right.allocated hx
  have hs := (h.instr hx hi hj).silent_eq
  simp only [Rests, hi, hj, Option.some.injEq, exists_eq_left']
  rw [hs]

/-- A sound draft reduces to itself. -/
theorem refl (hd : d.Sound) : Reduces d d where
  left := hd
  right := hd
  sublist := .refl _
  rests hx _ := hx
  instr _ hi hj := by
    rw [hi] at hj
    cases hj
    exact .refl (SameLanding.refl d) _
  landing _ := .refl d _
  start hh hg := by
    rw [hh] at hg
    cases hg
    exact .refl d _
  next _ _ hg hg' := by
    obtain rfl := hd.next_unique hg hg'
    exact .refl d _

/-- What a reduced draft reduces to, the draft before it reduces to. -/
theorem trans (hde : Reduces d e) (hef : Reduces e f) : Reduces d f where
  left := hde.left
  right := hef.right
  sublist := hef.sublist.trans hde.sublist
  rests hx hr :=
    have hxe := hde.rests hx hr
    hef.rests hxe ((hde.rests_iff hxe).2 hr)
  instr hx hi hk := by
    obtain ⟨j, hj⟩ := hde.right.allocated (hef.mem hx)
    refine ((hde.instr (hef.mem hx) hi hj).trans (hef.instr hx hj hk)).mono ?_
    rintro t - v ⟨u, htu, huv⟩
    exact htu.trans huv
  landing hx := (hde.landing (hef.mem hx)).trans (hef.landing hx)
  start hh hk := by
    obtain ⟨g, hg⟩ := hde.right.exists_first
    exact (hde.start hh hg).trans (hef.start hg hk)
  next {h g k i} hi hf hg hk := by
    have hx : h ∈ e.order := hef.mem (hk.elim fun _ hk => Array.mem_of_getElem? hk.1)
    obtain ⟨j, hj⟩ := hde.right.allocated hx
    have hf' : j.fallsThrough = true := (hde.instr hx hi hj).fallsThrough_eq.trans hf
    obtain ⟨g', hg'⟩ := hde.right.exists_next hx hj hf'
    exact (hde.next hi hf hg hg').trans (hef.next hj hf' hg' hk)

/-! ## The same answers -/

/-- The two threads stand at one instruction, which is no `jump` and no `nop`, and at one
character. -/
def link (d e : Draft) (t u : Thread) : Prop :=
  t.pos = u.pos ∧ ∃ h, d.order[t.pc]? = some h ∧ e.order[u.pc]? = some h ∧ d.Rests h

section

variable {m n : Machine}

/-- Threads at one character whose handles come to rest at one instruction meet. -/
theorem meets (h : Reduces d e) (hm : d.Resolves m.program) (hn : e.Resolves n.program)
    {t u : Thread} {x y : Handle} (hpos : t.pos = u.pos) (hx : d.order[t.pc]? = some x)
    (hy : e.order[u.pc]? = some y) (hxy : SameLanding d e x y) :
    Machine.Meets m n (link d e) t u where
  left {k t'} hl := by
    obtain ⟨hpos', z, hz, hlz⟩ := (lands_iff hm h.left hx).1 hl
    obtain ⟨l, hlz'⟩ := (hxy z).1 ⟨k, hlz⟩
    obtain ⟨pc, hpc⟩ := Array.getElem?_of_mem
      (h.right.mem_of_lands (Array.mem_of_getElem? hy) hlz')
    exact ⟨l, ⟨pc, u.pos⟩, (lands_iff hn h.right hy).2 ⟨rfl, z, hpc, hlz'⟩, hpos'.trans hpos, z,
      hz, hpc, hlz.rests⟩
  right {l u'} hl := by
    obtain ⟨hpos', z, hz, hlz⟩ := (lands_iff hn h.right hy).1 hl
    obtain ⟨k, hlz'⟩ := (hxy z).2 ⟨l, hlz⟩
    obtain ⟨pc, hpc⟩ := Array.getElem?_of_mem
      (h.left.mem_of_lands (Array.mem_of_getElem? hx) hlz')
    exact ⟨k, ⟨pc, t.pos⟩, (lands_iff hm h.left hx).2 ⟨rfl, z, hpc, hlz'⟩,
      hpos.trans hpos'.symm, z, hpc, hz, hlz'.rests⟩

/-- Linked threads execute one instruction up to the names of its targets, and what they turn into
meets again. -/
theorem moves (h : Reduces d e) (hm : d.Resolves m.program) (hn : e.Resolves n.program)
    (hs : m.subject = n.subject) {t u : Thread} (hl : link d e t u) :
    (m.move t = .accept ↔ n.move u = .accept) ∧ (m.move t).forks = (n.move u).forks ∧
      List.Forall₂ (Machine.Meets m n (link d e)) (m.move t).threads (n.move u).threads := by
  obtain ⟨hpos, x, hx, hy, i, hi, hsilent⟩ := hl
  obtain ⟨i', c, hi', hc, hic⟩ := hm.code hx
  obtain ⟨j, c', hj, hc', hjc⟩ := hn.code hy
  cases hi.symm.trans hi'
  have hij := h.instr (Array.mem_of_getElem? hy) hi hj
  have hcc : c.Rel (fun k l => ∃ x y, d.order[k]? = some x ∧ e.order[l]? = some y ∧
      SameLanding d e x y) c' := by
    cases hij <;> cases hic <;> cases hjc <;> constructor <;> exact ⟨_, _, ‹_›, ‹_›, ‹_›⟩
  have hat : ∀ pos, m.subject.at? (pos + 0) = n.subject.at? pos :=
    fun pos => by rw [hs, Nat.add_zero]
  refine Machine.moves_rel hat hpos hc hc' hcc ?_ ?_
  · rintro k l ⟨x', y', hx', hy', hsame⟩
    exact h.meets hm hn hpos hx' hy' hsame
  · intro hf pos
    rw [hic.fallsThrough_eq] at hf
    have hg : d.order[t.pc + 1]? = some _ := Array.getElem?_eq_getElem (h.left.next hx hi hf)
    have hg' : e.order[u.pc + 1]? = some _ := Array.getElem?_eq_getElem
      (h.right.next hy hj (hij.fallsThrough_eq.trans hf))
    exact h.meets hm hn rfl hg hg' (h.next hi hf ⟨_, hx, hg⟩ ⟨_, hy, hg'⟩)

/-- Machines over one text with the programs of the two drafts are linked. -/
theorem linked (h : Reduces d e) (hm : d.Resolves m.program) (hn : e.Resolves n.program)
    (hs : m.subject = n.subject) (hlimit : m.threadLimit = n.threadLimit) :
    Machine.Linked m n 0 (link d e) where
  threadLimit := hlimit
  pos hl := hl.1
  unique {t u t' u'} hl hl' := by
    obtain ⟨hpos, x, hx, hy, -⟩ := hl
    obtain ⟨hpos', x', hx', hy', -⟩ := hl'
    refine ⟨?_, ?_⟩
    · rintro rfl
      cases hx.symm.trans hx'
      obtain ⟨pc, pos⟩ := u
      obtain ⟨pc', pos'⟩ := u'
      cases hpos.symm.trans hpos'
      cases h.right.index_unique hy hy'
      rfl
    · rintro rfl
      cases hy.symm.trans hy'
      obtain ⟨pc, pos⟩ := t
      obtain ⟨pc', pos'⟩ := t'
      cases hpos.trans hpos'.symm
      cases h.left.index_unique hx hx'
      rfl
  rests_left := fun ⟨_, _, hx, _, hr⟩ => (silent?_eq_none_iff hm hx).2 hr
  rests_right := fun ⟨_, _, _, hy, hr⟩ =>
    (silent?_eq_none_iff hn hy).2 ((h.rests_iff (Array.mem_of_getElem? hy)).2 hr)
  accept hl := (h.moves hm hn hs hl).1
  forks hl := (h.moves hm hn hs hl).2.1
  threads hl := (h.moves hm hn hs hl).2.2

end

/-- Every search has the same result with the programs of the two drafts. -/
theorem sameAnswers (h : Reduces d e) {p q : Program} (hp : d.finish = .ok p)
    (hq : e.finish = .ok q) : p.SameAnswers q := by
  intro s limit
  have hres := resolves_of_finish hp
  have hres' := resolves_of_finish hq
  have hlinked : Machine.Linked ⟨p, s, limit⟩ ⟨q, s, limit⟩ 0 (link d e) :=
    h.linked hres hres' rfl rfl
  have hstart : ∀ k, Machine.Meets ⟨p, s, limit⟩ ⟨q, s, limit⟩ (link d e)
      ⟨Program.start, k + 0⟩ ⟨Program.start, k⟩ := by
    intro k
    obtain ⟨x, hx⟩ := h.left.exists_first
    obtain ⟨y, hy⟩ := h.right.exists_first
    exact h.meets hres hres' rfl hx hy (h.start hx hy)
  refine ⟨?_, ?_⟩
  · intro start hle
    have := Machine.matchEnd_linked hlinked (closed_of_finish hp) (closed_of_finish hq) rfl hstart
      hle
    simpa [Except.map_id, Option.map_id'] using this
  · intro first
    have := Machine.find_linked hlinked (closed_of_finish hp) (closed_of_finish hq) rfl hstart first
    simpa [Except.map_id, Option.map_id'] using this

end Reduces

end Draft

end PatternMachine
