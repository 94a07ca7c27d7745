import PatternMachine.Proofs.Machine.InRange

/-!
# Passing silent instructions

A `jump` and a `nop` read nothing, start no thread and leave the position alone: a thread passes
them silently until it lands on another instruction (`Machine.Lands`), or for ever if they form a
cycle. The states that it passes are entered all the same, and a thread dies at one that was
entered before. This makes no difference as long as the entered states are settled
(`Machine.Settled`): where a silent state was entered, so was the one it lands on. Then a run may be
cut short at any silent thread, by putting the thread it lands on in its place (`drain_lands`), or
by dropping it if it never lands (`drain_never`).
-/

namespace PatternMachine.Machine

variable {b : Bounds} {m : Machine}

/-- The thread that `t` turns into if its instruction is a `jump` or a `nop`. -/
def silent? (m : Machine) (t : Thread) : Option Thread :=
  match m.program.code[t.pc]? with
  | some (.jump target) => some ⟨target, t.pos⟩
  | some .nop => some ⟨t.pc + 1, t.pos⟩
  | some (.literal _) | some .any | some .accept | some (.split _ _) | none => none

/-- `t` becomes `x` by `n` silent steps, and `x` takes no further one. -/
inductive Lands (m : Machine) : (n : Nat) → (t x : Thread) → Prop
  | here {t : Thread} : m.silent? t = none → Lands m 0 t t
  | pass {n : Nat} {t u x : Thread} : m.silent? t = some u → Lands m n u x → Lands m (n + 1) t x

/-- A silent step is a move. -/
theorem move_of_silent {t u : Thread} (h : m.silent? t = some u) : m.move t = .goto u := by
  unfold silent? at h
  unfold move
  split at h <;> simp_all

/-- A thread lands after one number of steps on one thread only. -/
theorem Lands.unique {n k : Nat} {t x y : Thread} (hx : m.Lands n t x) (hy : m.Lands k t y) :
    n = k ∧ x = y := by
  induction hx generalizing k y with
  | here hs =>
    cases hy with
    | here => exact ⟨rfl, rfl⟩
    | pass hs' => rw [hs] at hs'; cases hs'
  | pass hs _ ih =>
    cases hy with
    | here hs' => rw [hs] at hs'; cases hs'
    | pass hs' hy =>
      rw [hs] at hs'
      cases hs'
      obtain ⟨rfl, rfl⟩ := ih hy
      exact ⟨rfl, rfl⟩

/-- Where a thread lands no silent step is left. -/
theorem Lands.rests {n : Nat} {t x : Thread} (h : m.Lands n t x) : m.silent? x = none := by
  induction h with
  | here hs => exact hs
  | pass _ _ ih => exact ih

/-- Silent steps stay within the bounds. -/
theorem StaysIn.silent (hm : m.StaysIn b) {t u : Thread} (hb : b.contains t = true)
    (h : m.silent? t = some u) : b.contains u = true :=
  (hm t hb).2 u (by simp [move_of_silent h, Move.threads])

/-- So a thread within the bounds lands within them. -/
theorem StaysIn.lands (hm : m.StaysIn b) {n : Nat} {t x : Thread} (h : m.Lands n t x)
    (hb : b.contains t = true) : b.contains x = true := by
  induction h with
  | here => exact hb
  | pass hs _ ih => exact ih (hm.silent hb hs)

/-- A silent thread that finds a new state enters it and goes on. -/
theorem drain_silent {v : Visited b} {t u : Thread} {ts : List Thread} (hb : b.contains t = true)
    (hv : v.contains t = false) (h : m.silent? t = some u) :
    m.drain v (t :: ts) = m.drain (v.insert t) (u :: ts) := by
  have hm := move_of_silent h
  rw [drain_enter hb hv (by simp [hm]) (by simp [hm]) (by simp [hm, Move.forks]), hm]
  rfl

/-! ## Settled states -/

/-- Every entered state lands on an entered state. -/
def Settled (m : Machine) (v : Visited b) : Prop :=
  ∀ {n : Nat} {t x : Thread}, m.Lands n t x → v.contains t = true → v.contains x = true

/-- `w` has the states of `v` and, besides, only states that are passed silently. -/
structure Passed (m : Machine) (v w : Visited b) : Prop where
  mono : ∀ t, v.contains t = true → w.contains t = true
  rest : ∀ t, m.silent? t = none → w.contains t = v.contains t

/-- Nothing has been passed at the start. -/
theorem Passed.refl (v : Visited b) : m.Passed v v :=
  ⟨fun _ h => h, fun _ _ => rfl⟩

/-- Entering a silent state first changes nothing about what is passed. -/
theorem Passed.of_insert {v w : Visited b} {t u : Thread} (hs : m.silent? t = some u)
    (h : m.Passed (v.insert t) w) : m.Passed v w where
  mono x hx := h.mono x (by simp [hx])
  rest x hx := by
    have hne : t ≠ x := by
      rintro rfl
      rw [hs] at hx
      cases hx
    rw [h.rest x hx, Visited.contains_insert]
    simp [hne]

/-- Fewer states are left to enter once more have been entered. -/
theorem Passed.unvisited_le {v w : Visited b} (h : m.Passed v w) : w.unvisited ≤ v.unvisited := by
  refine List.countP_mono_left ?_
  intro t _ ht
  cases hv : v.contains t with
  | false => rfl
  | true => simp [h.mono t hv] at ht

/-- A thread may be replaced by the one it lands on. While the thread is on its way, the states it
has passed land on a state not yet entered; each of them is more steps away from it than the thread
is, so the thread meets none of them again. -/
theorem drain_lands_of (hm : m.StaysIn b) {n : Nat} {t x : Thread} (h : m.Lands n t x)
    {v : Visited b} (hb : b.contains t = true)
    (hv : ∀ {k : Nat} {u y : Thread}, m.Lands k u y → v.contains u = true →
      v.contains y = true ∨ y = x ∧ n < k) (ts : List Thread) :
    ∃ w : Visited b, m.Passed v w ∧
      (∀ {k : Nat} {u y : Thread}, m.Lands k u y → w.contains u = true →
        w.contains y = true ∨ y = x) ∧
      m.drain v (t :: ts) = m.drain w (x :: ts) := by
  induction h generalizing v with
  | here hs =>
    exact ⟨v, .refl v, fun hl hu => (hv hl hu).imp_right And.left, rfl⟩
  | @pass n t u x hs hl ih =>
    cases ht : v.contains t with
    | true =>
      have hx : v.contains x = true :=
        (hv (.pass hs hl) ht).resolve_right fun h => Nat.lt_irrefl _ h.2
      refine ⟨v, .refl v, fun hl hu => (hv hl hu).imp_right And.left, ?_⟩
      rw [drain_seen hb ht, drain_seen (hm.lands (.pass hs hl) hb) hx]
    | false =>
      obtain ⟨w, hw, hset, heq⟩ := ih (v := v.insert t) (hm.silent hb hs) fun hl' hu => by
        rename_i k u' y
        simp only [Visited.contains_insert, Bool.or_eq_true, beq_iff_eq] at hu ⊢
        rcases hu with rfl | hu
        · obtain ⟨rfl, rfl⟩ := hl'.unique (.pass hs hl)
          exact .inr ⟨rfl, Nat.lt_succ_self n⟩
        · rcases hv hl' hu with hy | ⟨hy, hlt⟩
          · exact .inl (.inr hy)
          · exact .inr ⟨hy, by omega⟩
      exact ⟨w, hw.of_insert hs, hset, by rw [drain_silent hb ht hs, heq]⟩

/-- From settled states, a thread may be replaced by the one it lands on; the states are settled
again as soon as that one has been entered. -/
theorem drain_lands (hm : m.StaysIn b) {n : Nat} {t x : Thread} (h : m.Lands n t x)
    {v : Visited b} (hb : b.contains t = true) (hv : m.Settled v) (ts : List Thread) :
    ∃ w : Visited b, m.Passed v w ∧ m.Settled (w.insert x) ∧
      (w.contains x = true → m.Settled w) ∧ m.drain v (t :: ts) = m.drain w (x :: ts) := by
  obtain ⟨w, hw, hset, heq⟩ := drain_lands_of hm h hb (fun hl hu => .inl (hv hl hu)) ts
  refine ⟨w, hw, fun hl hu => ?_, fun hx _ _ _ hl hu => ?_, heq⟩
  · simp only [Visited.contains_insert, Bool.or_eq_true, beq_iff_eq] at hu ⊢
    rcases hu with rfl | hu
    · cases hl with
      | here => exact .inl rfl
      | pass hs => rw [h.rests] at hs; cases hs
    · rcases hset hl hu with hy | rfl
      · exact .inr hy
      · exact .inl rfl
  · rcases hset hl hu with hy | rfl
    · exact hy
    · exact hx

/-- From settled states, a thread that never lands may be dropped. -/
theorem drain_never (hm : m.StaysIn b) {t : Thread} (h : ∀ n x, ¬ m.Lands n t x)
    {v : Visited b} (hb : b.contains t = true) (hv : m.Settled v) (ts : List Thread) :
    ∃ w : Visited b, m.Passed v w ∧ m.Settled w ∧ m.drain v (t :: ts) = m.drain w ts := by
  induction hn : v.unvisited using Nat.strongRecOn generalizing v t with
  | _ n ih =>
    subst hn
    cases ht : v.contains t with
    | true => exact ⟨v, .refl v, hv, drain_seen hb ht⟩
    | false =>
      cases hs : m.silent? t with
      | none => exact absurd (.here hs) (h 0 t)
      | some u =>
        have hset : m.Settled (v.insert t) := by
          intro k u' y hl hu
          simp only [Visited.contains_insert, Bool.or_eq_true, beq_iff_eq] at hu ⊢
          rcases hu with rfl | hu
          · exact absurd hl (h k y)
          · exact .inr (hv hl hu)
        obtain ⟨w, hw, hsw, heq⟩ := ih _ (Visited.unvisited_insert_lt hb ht)
          (fun k x hl => h _ x (.pass hs hl)) (hm.silent hb hs) hset rfl
        exact ⟨w, hw.of_insert hs, hsw, by rw [drain_silent hb ht hs, heq]⟩

end PatternMachine.Machine
