import Mathlib.Data.List.Forall2
import PatternMachine.Proofs.Instr
import PatternMachine.Proofs.Machine.Landing

/-!
# Machines that differ in silent steps only

Two machines give the same answers if their threads can be linked so that linked threads agree in
what they do, once silent steps are passed over (`Machine.Linked`): they die, accept and split
alike, and the threads they turn into land on linked threads again, or on both sides never land.
`drain_linked` runs the two machines side by side. Each pair of linked threads is entered on both
sides or on neither, and as many threads wait on one side as on the other; so even the thread limit
is hit on both sides at the same moment. The positions of the first machine may be those of the
second one shifted by a fixed distance.
-/

namespace PatternMachine.Machine

variable {b c : Bounds} {m n : Machine} {shift : Nat} {link : Thread → Thread → Prop}

/-- Threads that execute one instruction, up to the names of its targets, over the same characters
do the same and turn into threads that correspond to each other: at related targets, or at the next
instructions one character on or where they are. -/
theorem moves_rel {R : Nat → Nat → Prop} {Q : Thread → Thread → Prop} {t u : Thread}
    {i j : Instr Nat} (hat : ∀ pos, m.subject.at? (pos + shift) = n.subject.at? pos)
    (hpos : t.pos = u.pos + shift) (hi : m.program.code[t.pc]? = some i)
    (hj : n.program.code[u.pc]? = some j) (hij : i.Rel R j)
    (htarget : ∀ x y, R x y → Q ⟨x, t.pos⟩ ⟨y, u.pos⟩)
    (hnext : i.fallsThrough = true → ∀ pos, Q ⟨t.pc + 1, pos + shift⟩ ⟨u.pc + 1, pos⟩) :
    (m.move t = .accept ↔ n.move u = .accept) ∧ (m.move t).forks = (n.move u).forks ∧
      List.Forall₂ Q (m.move t).threads (n.move u).threads := by
  have hread : i.fallsThrough = true → Q ⟨t.pc + 1, t.pos + 1⟩ ⟨u.pc + 1, u.pos + 1⟩ := by
    intro hf
    rw [hpos, Nat.add_right_comm]
    exact hnext hf (u.pos + 1)
  cases hij with
  | literal c =>
    simp only [move, hi, hj, hpos, hat] at hread ⊢
    split
    · simp [Move.threads, Move.forks]
    · split
      · simp [Move.threads, Move.forks]
      · split
        · exact ⟨by simp, rfl, .cons (hread rfl) .nil⟩
        · simp [Move.threads, Move.forks]
  | any =>
    simp only [move, hi, hj, hpos, hat] at hread ⊢
    split
    · simp [Move.threads, Move.forks]
    · split
      · simp [Move.threads, Move.forks]
      · exact ⟨by simp, rfl, .cons (hread rfl) .nil⟩
  | accept => simp [move, hi, hj, Move.threads, Move.forks]
  | jump ht =>
    simp only [move, hi, hj]
    exact ⟨by simp, rfl, .cons (htarget _ _ ht) .nil⟩
  | split ht hu =>
    simp only [move, hi, hj]
    exact ⟨by simp, rfl, .cons (htarget _ _ ht) (.cons (htarget _ _ hu) .nil)⟩
  | nop =>
    have hstay := hnext rfl u.pos
    rw [← hpos] at hstay
    simp only [move, hi, hj]
    exact ⟨by simp, rfl, .cons hstay .nil⟩

/-- `t` lands on a thread exactly if `u` does, and then on a linked one. -/
structure Meets (m n : Machine) (link : Thread → Thread → Prop) (t u : Thread) : Prop where
  left : ∀ {k : Nat} {x : Thread}, m.Lands k t x → ∃ l y, n.Lands l u y ∧ link x y
  right : ∀ {l : Nat} {y : Thread}, n.Lands l u y → ∃ k x, m.Lands k t x ∧ link x y

/-- The threads of `m` and `n` can be linked so that linked threads do the same and meet again. -/
structure Linked (m n : Machine) (shift : Nat) (link : Thread → Thread → Prop) : Prop where
  threadLimit : m.threadLimit = n.threadLimit
  pos : ∀ {t u}, link t u → t.pos = u.pos + shift
  unique : ∀ {t u t' u'}, link t u → link t' u' → (t = t' ↔ u = u')
  rests_left : ∀ {t u}, link t u → m.silent? t = none
  rests_right : ∀ {t u}, link t u → n.silent? u = none
  accept : ∀ {t u}, link t u → (m.move t = .accept ↔ n.move u = .accept)
  forks : ∀ {t u}, link t u → (m.move t).forks = (n.move u).forks
  threads : ∀ {t u}, link t u →
    List.Forall₂ (Meets m n link) (m.move t).threads (n.move u).threads

/-- Of two linked threads, one has been entered exactly if the other one has. -/
def InStep (link : Thread → Thread → Prop) (v : Visited b) (w : Visited c) : Prop :=
  ∀ {t u}, link t u → v.contains t = w.contains u

/-- States that are passed silently are linked to none and may be entered on either side. -/
theorem InStep.passed (hl : Linked m n shift link) {v v' : Visited b} {w w' : Visited c}
    (h : InStep link v w) (hv : m.Passed v v') (hw : n.Passed w w') : InStep link v' w' :=
  fun htu => by rw [hv.rest _ (hl.rests_left htu), hw.rest _ (hl.rests_right htu), h htu]

/-- Linked states that are entered together stay in step. -/
theorem InStep.insert (hl : Linked m n shift link) {v : Visited b} {w : Visited c}
    (h : InStep link v w) {t u : Thread} (htu : link t u) :
    InStep link (v.insert t) (w.insert u) := by
  intro t' u' htu'
  have : (t == t') = (u == u') := by
    rw [Bool.eq_iff_iff, beq_iff_eq, beq_iff_eq]
    exact hl.unique htu htu'
  rw [Visited.contains_insert, Visited.contains_insert, h htu', this]

/-- The two machines end an attempt alike, and after a failure they are ready for the next one. -/
def EndAlike (m n : Machine) (shift : Nat) (link : Thread → Thread → Prop) :
    Attempt b → Attempt c → Prop
  | .accepted e, .accepted e' => e = e' + shift
  | .failed v, .failed w => m.Settled v ∧ n.Settled w ∧ InStep link v w
  | .stopped error, .stopped error' => error = error'
  | .accepted _, .failed _ | .accepted _, .stopped _ | .failed _, .accepted _
  | .failed _, .stopped _ | .stopped _, .accepted _ | .stopped _, .failed _ => False

/-- What holds between two machines that work through `ts` and `us`: both stay within their bounds,
the states they have entered are settled and in step, and their threads meet one by one. -/
structure SideBySide (m n : Machine) (link : Thread → Thread → Prop) (v : Visited b) (w : Visited c)
    (ts us : List Thread) : Prop where
  within_left : ∀ t ∈ ts, b.contains t = true
  within_right : ∀ u ∈ us, c.contains u = true
  settled_left : m.Settled v
  settled_right : n.Settled w
  inStep : InStep link v w
  meets : List.Forall₂ (Meets m n link) ts us

/-- Both machines may drop threads in front, provided that what they have entered stays settled and
in step. -/
theorem SideBySide.drop {v v' : Visited b} {w w' : Visited c} {t u : Thread} {ts us : List Thread}
    (h : SideBySide m n link v w (t :: ts) (u :: us)) (hv : m.Settled v') (hw : n.Settled w')
    (hvw : InStep link v' w') : SideBySide m n link v' w' ts us where
  within_left x hx := h.within_left x (List.mem_cons_of_mem _ hx)
  within_right y hy := h.within_right y (List.mem_cons_of_mem _ hy)
  settled_left := hv
  settled_right := hw
  inStep := hvw
  meets := (List.forall₂_cons.1 h.meets).2

/-- The two machines end alike, or go on side by side while the first one has less to do than
`bound`. -/
def GoOn (m n : Machine) (shift : Nat) (link : Thread → Thread → Prop) (bound : Nat)
    (v : Visited b) (w : Visited c) (ts us : List Thread) : Prop :=
  EndAlike m n shift link (m.drain v ts) (n.drain w us) ∨
    ∃ (v' : Visited b) (w' : Visited c) (ts' us' : List Thread),
      SideBySide m n link v' w' ts' us' ∧ pending v' ts' < bound ∧
      m.drain v ts = m.drain v' ts' ∧ n.drain w us = n.drain w' us'

/-- Both machines execute the instruction of linked threads that neither has entered. -/
theorem SideBySide.enter (hl : Linked m n shift link) (hm : m.StaysIn b) (hn : n.StaysIn c)
    {v : Visited b} {w : Visited c} {ts us : List Thread} {x y : Thread} (hxy : link x y)
    (hbx : b.contains x = true) (hcy : c.contains y = true) (hvx : v.contains x = false)
    (hwy : w.contains y = false) (h : SideBySide m n link (v.insert x) (w.insert y) ts us) :
    GoOn m n shift link (pending v (x :: ts)) v w (x :: ts) (y :: us) := by
  have hlen : ts.length = us.length := h.meets.length_eq
  by_cases ha : m.move x = .accept
  · left
    rw [drain_accept hbx hvx ha, drain_accept hcy hwy ((hl.accept hxy).1 ha)]
    exact hl.pos hxy
  have ha' : n.move y ≠ .accept := fun h => ha ((hl.accept hxy).2 h)
  by_cases hfull : (m.move x).forks = true ∧ m.threadLimit ≤ ts.length
  · obtain ⟨hf, hle⟩ := hfull
    left
    rw [drain_full hbx hvx hf hle, drain_full hcy hwy (hl.forks hxy ▸ hf)
      (hl.threadLimit ▸ hlen ▸ hle), hl.threadLimit]
    rfl
  have hroom : (m.move x).forks = true → ts.length < m.threadLimit :=
    fun hf => Nat.not_le.1 fun hle => hfull ⟨hf, hle⟩
  have hroom' : (n.move y).forks = true → us.length < n.threadLimit :=
    fun hf => hlen ▸ hl.threadLimit ▸ hroom (hl.forks hxy ▸ hf)
  refine .inr ⟨_, _, _, _, ⟨fun t ht => ?_, fun u hu => ?_, h.settled_left, h.settled_right,
    h.inStep, List.rel_append (hl.threads hxy) h.meets⟩, pending_enter hbx hvx,
    drain_enter hbx hvx (hm x hbx).1 ha hroom, drain_enter hcy hwy (hn y hcy).1 ha' hroom'⟩
  · rcases List.mem_append.1 ht with ht | ht
    · exact (hm x hbx).2 t ht
    · exact h.within_left t ht
  · rcases List.mem_append.1 hu with hu | hu
    · exact (hn y hcy).2 u hu
    · exact h.within_right u hu

/-- Both machines take their first threads to where they land, and execute the instruction there
unless they did so before. -/
theorem SideBySide.land (hl : Linked m n shift link) (hm : m.StaysIn b) (hn : n.StaysIn c)
    {v : Visited b} {w : Visited c} {ts us : List Thread} {t u x y : Thread}
    (h : SideBySide m n link v w (t :: ts) (u :: us)) {k l : Nat} (hx : m.Lands k t x)
    (hy : n.Lands l u y) (hxy : link x y) :
    GoOn m n shift link (pending v (t :: ts)) v w (t :: ts) (u :: us) := by
  have hbt := h.within_left t List.mem_cons_self
  have hcu := h.within_right u List.mem_cons_self
  obtain ⟨v', hv, hsv, hsv', heqv⟩ := drain_lands hm hx hbt h.settled_left ts
  obtain ⟨w', hw, hsw, hsw', heqw⟩ := drain_lands hn hy hcu h.settled_right us
  have hvw : InStep link v' w' := InStep.passed hl h.inStep hv hw
  have hle : pending v' (x :: ts) ≤ pending v (t :: ts) := by
    have := hv.unvisited_le
    simp only [pending, List.length_cons]
    omega
  rw [GoOn, heqv, heqw]
  cases hvx : v'.contains x with
  | true =>
    have hwy : w'.contains y = true := hvw hxy ▸ hvx
    refine .inr ⟨v', w', ts, us, h.drop (hsv' hvx) (hsw' hwy) hvw, ?_,
      drain_seen (hm.lands hx hbt) hvx, drain_seen (hn.lands hy hcu) hwy⟩
    simp only [pending, List.length_cons] at hle ⊢
    omega
  | false =>
    have hwy : w'.contains y = false := hvw hxy ▸ hvx
    have hgo := enter hl hm hn hxy (hm.lands hx hbt) (hn.lands hy hcu) hvx hwy
      (h.drop hsv hsw (hvw.insert hl hxy))
    refine hgo.imp_right ?_
    intro hyp
    obtain ⟨v'', w'', ts', us', hside, hlt, heq⟩ := hyp
    exact ⟨v'', w'', ts', us', hside, Nat.lt_of_lt_of_le hlt hle, heq⟩

/-- Both machines drop first threads that never land. -/
theorem SideBySide.never (hl : Linked m n shift link) (hm : m.StaysIn b) (hn : n.StaysIn c)
    {v : Visited b} {w : Visited c} {ts us : List Thread} {t u : Thread}
    (h : SideBySide m n link v w (t :: ts) (u :: us)) (ht : ∀ k x, ¬ m.Lands k t x)
    (hu : ∀ l y, ¬ n.Lands l u y) :
    GoOn m n shift link (pending v (t :: ts)) v w (t :: ts) (u :: us) := by
  obtain ⟨v', hv, hsv, heqv⟩ := drain_never hm ht (h.within_left t List.mem_cons_self)
    h.settled_left ts
  obtain ⟨w', hw, hsw, heqw⟩ := drain_never hn hu (h.within_right u List.mem_cons_self)
    h.settled_right us
  refine .inr ⟨v', w', ts, us, h.drop hsv hsw (InStep.passed hl h.inStep hv hw), ?_, heqv, heqw⟩
  have := hv.unvisited_le
  simp only [pending, List.length_cons]
  omega

/-- Two linked machines that work side by side end alike. -/
theorem drain_linked (hl : Linked m n shift link) (hm : m.StaysIn b) (hn : n.StaysIn c)
    {v : Visited b} {w : Visited c} {ts us : List Thread}
    (h : SideBySide m n link v w ts us) :
    EndAlike m n shift link (m.drain v ts) (n.drain w us) := by
  induction hp : pending v ts using Nat.strongRecOn generalizing v w ts us with
  | _ p ih =>
    subst hp
    match ts, us, h with
    | [], [], h => exact ⟨h.settled_left, h.settled_right, h.inStep⟩
    | [], _ :: _, h => cases h.meets
    | _ :: _, [], h => cases h.meets
    | t :: ts, u :: us, h =>
      have hmeet := (List.forall₂_cons.1 h.meets).1
      have hgo : GoOn m n shift link (pending v (t :: ts)) v w (t :: ts) (u :: us) := by
        by_cases hland : ∃ k x, m.Lands k t x
        · obtain ⟨k, x, hx⟩ := hland
          obtain ⟨l, y, hy, hxy⟩ := hmeet.left hx
          exact h.land hl hm hn hx hy hxy
        · refine h.never hl hm hn (fun k x hx => hland ⟨k, x, hx⟩) ?_
          intro l y hy
          obtain ⟨k, x, hx, -⟩ := hmeet.right hy
          exact hland ⟨k, x, hx⟩
      rcases hgo with hend | ⟨v', w', ts', us', hside, hlt, heqv, heqw⟩
      · exact hend
      · rw [heqv, heqw]
        exact ih _ hlt hside rfl

/-! ## Attempts and scans -/

/-- Nothing entered is settled. -/
theorem settled_empty : m.Settled ({} : Visited b) := by
  intro _ _ _ _ h
  simp at h

/-- Two attempts that have entered nothing are in step. -/
theorem inStep_empty : InStep link ({} : Visited b) ({} : Visited c) := by
  intro _ _ _
  rw [Visited.contains_empty, Visited.contains_empty]

/-- Two linked machines scan alike from places where they meet. -/
theorem scan_linked (hl : Linked m n shift link) (hm : m.StaysIn b) (hn : n.StaysIn c)
    {v : Visited b} {w : Visited c} {start count : Nat}
    (hb : ∀ k ∈ List.range' start count, b.contains ⟨Program.start, k + shift⟩ = true)
    (hc : ∀ k ∈ List.range' start count, c.contains ⟨Program.start, k⟩ = true)
    (hstart : ∀ k, Meets m n link ⟨Program.start, k + shift⟩ ⟨Program.start, k⟩)
    (hv : m.Settled v) (hw : n.Settled w) (hvw : InStep link v w) :
    m.scan v (start + shift) count =
      (n.scan w start count).map (Option.map fun p => (p.1 + shift, p.2 + shift)) := by
  induction count generalizing v w start with
  | zero => rfl
  | succ count ih =>
    rw [List.range'_succ] at hb hc
    have h : EndAlike m n shift link (m.drain v [⟨Program.start, start + shift⟩])
        (n.drain w [⟨Program.start, start⟩]) := drain_linked hl hm hn
      ⟨List.forall_mem_singleton.2 (hb _ List.mem_cons_self),
        List.forall_mem_singleton.2 (hc _ List.mem_cons_self), hv, hw, hvw,
        .cons (hstart start) .nil⟩
    rw [scan, scan, attempt_eq_drain, attempt_eq_drain]
    cases hr : m.drain v [⟨Program.start, start + shift⟩] <;>
      cases hs : n.drain w [⟨Program.start, start⟩] <;> rw [hr, hs] at h
    case accepted.accepted =>
      cases h
      rfl
    case failed.failed =>
      obtain ⟨hsv, hsw, hstep⟩ := h
      rw [Nat.add_right_comm]
      exact ih (fun k hk => hb k (List.mem_cons_of_mem _ hk))
        (fun k hk => hc k (List.mem_cons_of_mem _ hk)) hsv hsw hstep
    case stopped.stopped =>
      cases h
      rfl
    all_goals exact h.elim

/-- Linked machines with closed programs find the same end at the same place. -/
theorem matchEnd_linked (hl : Linked m n shift link) (hp : m.program.Closed)
    (hq : n.program.Closed) (hsize : m.subject.size = n.subject.size + shift)
    (hstart : ∀ k, Meets m n link ⟨Program.start, k + shift⟩ ⟨Program.start, k⟩) {start : Nat}
    (h : start ≤ n.subject.size) :
    m.matchEnd (start + shift) = (n.matchEnd start).map (Option.map (· + shift)) := by
  have hb := contains_start (m := m) hp (Nat.le_refl (start + shift)) (Nat.le_max_left _ _)
  have hc := contains_start (m := n) hq (Nat.le_refl start) (Nat.le_max_left _ _)
  have hm : m.StaysIn (m.bounds (start + shift)) := staysIn_bounds hp (by omega)
  have : EndAlike m n shift link
      (m.drain ({} : Visited (m.bounds (start + shift))) [⟨Program.start, start + shift⟩])
      (n.drain ({} : Visited (n.bounds start)) [⟨Program.start, start⟩]) :=
    drain_linked hl hm (staysIn_bounds hq h)
    ⟨List.forall_mem_singleton.2 hb, List.forall_mem_singleton.2 hc, settled_empty, settled_empty,
      inStep_empty, .cons (hstart start) .nil⟩
  rw [matchEnd, matchEnd, attempt_eq_drain, attempt_eq_drain]
  cases hr : m.drain ({} : Visited (m.bounds (start + shift))) [⟨Program.start, start + shift⟩] <;>
    cases hs : n.drain ({} : Visited (n.bounds start)) [⟨Program.start, start⟩] <;>
    rw [hr, hs] at this
  case accepted.accepted =>
    cases this
    rfl
  case failed.failed => rfl
  case stopped.stopped =>
    cases this
    rfl
  all_goals exact this.elim

/-- Linked machines with closed programs find the same match. -/
theorem find_linked (hl : Linked m n shift link) (hp : m.program.Closed)
    (hq : n.program.Closed) (hsize : m.subject.size = n.subject.size + shift)
    (hstart : ∀ k, Meets m n link ⟨Program.start, k + shift⟩ ⟨Program.start, k⟩) (first : Nat) :
    m.find (first + shift) =
      (n.find first).map (Option.map fun p => (p.1 + shift, p.2 + shift)) := by
  have hcount : m.subject.size + 1 - (first + shift) = n.subject.size + 1 - first := by omega
  rw [find, find, hcount]
  rcases Nat.lt_or_ge n.subject.size first with hlt | hge
  · rw [Nat.sub_eq_zero_of_le hlt]
    rfl
  · refine scan_linked hl (staysIn_bounds hp (by omega)) (staysIn_bounds hq hge) ?_ ?_ hstart
      settled_empty settled_empty inStep_empty
    · intro k hk
      rw [List.mem_range'_1] at hk
      exact contains_start hp (by omega) (by omega)
    · intro k hk
      rw [List.mem_range'_1] at hk
      exact contains_start hq hk.1 (by omega)

end PatternMachine.Machine
