import Mathlib.Data.List.Forall2
import PatternMachine.Proofs.Instr
import PatternMachine.Proofs.Machine.FirstEnd

/-!
# Machines that backtrack alike

Two machines find the same ends if some of their threads can be linked one to one so that linked
threads accept together and otherwise lead to linked threads in the same order
(`Machine.Alike.firstEnd_eq`). Between a linked thread and the next ones there may be others, in a
different arrangement on the two sides: such a thread takes no room from the search if it goes on as
a single thread (`firstEnd_eq_of_goto`), or if no way comes back to it
(`firstEnd_erase_of_unreached`).
-/

namespace PatternMachine

/-- Lists whose elements agree one by one about what is found have the same first result. -/
theorem findSome?_eq_of_forall₂ {α β γ : Type} {xs : List α} {ys : List β} {f : α → Option γ}
    {g : β → Option γ} (h : List.Forall₂ (fun x y => f x = g y) xs ys) :
    xs.findSome? f = ys.findSome? g := by
  induction h with
  | nil => rfl
  | cons hxy _ ih => rw [List.findSome?_cons, List.findSome?_cons, hxy, ih]

namespace Machine

variable {b : Bounds} {m n : Machine}

/-! ## Threads that take no room -/

/-- A thread that goes on as a single one finds what that one finds, which cannot come back to the
first with success. -/
theorem firstEnd_eq_of_goto {room : Finset Thread} {u w : Thread} (hu : u ∈ room)
    (hm : m.move u = .goto w) : m.firstEnd room u = m.firstEnd room w := by
  rw [firstEnd_of_goto hu hm]
  by_cases hne : w = u
  · rw [hne, firstEnd_of_goto hu hm, hne]
  by_cases hw : w ∈ room
  · have hw' : w ∈ room.erase u := Finset.mem_erase.2 ⟨hne, hw⟩
    by_cases ha : m.move w = .accept
    · rw [firstEnd_of_accept hw' ha, firstEnd_of_accept hw ha]
    · -- A way from `w` that comes to `u` would come back to `w`.
      have hu' : u ∈ room.erase w := Finset.mem_erase.2 ⟨Ne.symm hne, hu⟩
      have hnone : m.firstEnd (room.erase w) u = none := by
        rw [firstEnd_of_goto hu' hm, Finset.erase_right_comm]
        exact firstEnd_of_notMem (Finset.notMem_erase w _)
      rw [firstEnd_of_move hw' ha, firstEnd_of_move hw ha, Finset.erase_right_comm,
        funext (firstEnd_erase hnone)]
  · rw [firstEnd_of_notMem hw, firstEnd_of_notMem fun h => hw (Finset.mem_of_mem_erase h)]

/-- Nothing is lost without a state to which no way leads. -/
theorem firstEnd_erase_of_unreached {room : Finset Thread} {s : Thread}
    (hs : ∀ y ∈ room, s ∉ (m.move y).threads) {x : Thread} (hne : x ≠ s) :
    m.firstEnd (room.erase s) x = m.firstEnd room x := by
  induction hn : room.card using Nat.strongRecOn generalizing room x with
  | _ n ih =>
    subst hn
    by_cases hx : x ∈ room
    · have hx' : x ∈ room.erase s := Finset.mem_erase.2 ⟨hne, hx⟩
      by_cases ha : m.move x = .accept
      · rw [firstEnd_of_accept hx' ha, firstEnd_of_accept hx ha]
      · rw [firstEnd_of_move hx' ha, firstEnd_of_move hx ha, Finset.erase_right_comm]
        refine findSome?_eq_of_forall₂ (List.forall₂_same.2 fun w hw => ?_)
        refine ih _ (Finset.card_erase_lt_of_mem hx)
          (fun y hy => hs y (Finset.mem_of_mem_erase hy)) ?_ rfl
        rintro rfl
        exact hs x hx hw
    · rw [firstEnd_of_notMem hx, firstEnd_of_notMem fun h => hx (Finset.mem_of_mem_erase h)]

/-- So the threads that it turns into find as much with it as without it. -/
theorem firstEnd_of_unreached {room : Finset Thread} {s : Thread} (h : s ∈ room)
    (ha : m.move s ≠ .accept) (hs : ∀ y ∈ room, s ∉ (m.move y).threads) :
    m.firstEnd room s = (m.move s).threads.findSome? (m.firstEnd room) := by
  rw [firstEnd_of_move h ha]
  refine findSome?_eq_of_forall₂ (List.forall₂_same.2 fun w hw => ?_)
  refine firstEnd_erase_of_unreached hs ?_
  rintro rfl
  exact hs w h hw

/-! ## What threads lead to -/

/-- The room has every state within the bounds that is not one of `keys`. -/
def Ample (b : Bounds) (keys : Thread → Prop) (room : Finset Thread) : Prop :=
  ∀ t, b.contains t = true → ¬ keys t → t ∈ room

/-- A linked state may be taken out of an ample room. -/
theorem Ample.erase {keys : Thread → Prop} {room : Finset Thread} (h : Ample b keys room)
    {t : Thread} (ht : keys t) : Ample b keys (room.erase t) := by
  intro u hu hnot
  refine Finset.mem_erase.2 ⟨?_, h u hu hnot⟩
  rintro rfl
  exact hnot ht

/-- Without `t`, but with all states that are not `keys`, the threads `us` find what the threads
`xs` find. -/
def Leads (m : Machine) (b : Bounds) (keys : Thread → Prop) (t : Thread)
    (us xs : List Thread) : Prop :=
  ∀ room, Ample b keys room → t ∉ room →
    us.findSome? (m.firstEnd room) = xs.findSome? (m.firstEnd room)

namespace Leads

variable {keys : Thread → Prop} {t u v w : Thread} {us vs xs ys : List Thread}

/-- Threads lead to themselves. -/
theorem refl (us : List Thread) : m.Leads b keys t us us :=
  fun _ _ _ => rfl

/-- Threads one after the other lead to what the ones and the others lead to, in this order. -/
theorem append (h : m.Leads b keys t us xs) (h' : m.Leads b keys t vs ys) :
    m.Leads b keys t (us ++ vs) (xs ++ ys) := by
  intro room hroom ht
  rw [List.findSome?_append, List.findSome?_append, h room hroom ht, h' room hroom ht]

/-- A thread that goes on as a single one may be passed over. -/
theorem goto (hm : m.StaysIn b) (hb : b.contains u = true) (hu : ¬ keys u)
    (hmove : m.move u = .goto w) (h : b.contains w = true → m.Leads b keys t [w] xs) :
    m.Leads b keys t [u] xs := by
  have hw : b.contains w = true := (hm u hb).2 w (by simp [hmove, Move.threads])
  intro room hroom ht
  rw [← h hw room hroom ht, List.findSome?_singleton, List.findSome?_singleton,
    firstEnd_eq_of_goto (hroom u hb hu) hmove]

/-- A thread that only `t` leads to may give way to the threads it turns into. -/
theorem fork (hb : b.contains u = true) (hu : ¬ keys u) (hm : m.move u = .fork v w)
    (honly : ∀ y, u ∈ (m.move y).threads → y = t) : m.Leads b keys t [u] [v, w] := by
  intro room hroom ht
  have hunreached : ∀ y ∈ room, u ∉ (m.move y).threads := by
    intro y hy hmem
    exact ht (honly y hmem ▸ hy)
  rw [List.findSome?_singleton,
    firstEnd_of_unreached (hroom u hb hu) (by simp [hm]) hunreached, hm, Move.threads]

end Leads

/-! ## Linked threads -/

/-- `x` is linked to a thread of the other machine. -/
def OnLeft (link : Thread → Thread → Prop) (x : Thread) : Prop :=
  ∃ y, link x y

/-- A thread of the other machine is linked to `y`. -/
def OnRight (link : Thread → Thread → Prop) (y : Thread) : Prop :=
  ∃ x, link x y

variable {link : Thread → Thread → Prop}

/-- The threads `us`, which come from `t`, and the threads `vs`, which come from `u`, lead to linked
threads in the same order. -/
def LeadAlike (m n : Machine) (b : Bounds) (link : Thread → Thread → Prop) (t u : Thread)
    (us vs : List Thread) : Prop :=
  ∃ xs ys, m.Leads b (OnLeft link) t us xs ∧ n.Leads b (OnRight link) u vs ys ∧
    List.Forall₂ link xs ys

/-- Threads that lead to linked ones one by one do so as a whole. -/
theorem LeadAlike.of_forall₂ {t u : Thread} {us vs : List Thread}
    (h : List.Forall₂ (fun x y => b.contains x = true → b.contains y = true →
      LeadAlike m n b link t u [x] [y]) us vs)
    (hus : ∀ x ∈ us, b.contains x = true) (hvs : ∀ y ∈ vs, b.contains y = true) :
    LeadAlike m n b link t u us vs := by
  induction h with
  | nil => exact ⟨[], [], .refl _, .refl _, .nil⟩
  | cons h _ ih =>
    rw [List.forall_mem_cons] at hus hvs
    obtain ⟨xs, ys, hx, hy, hxy⟩ := h hus.1 hvs.1
    obtain ⟨xs', ys', hx', hy', hxy'⟩ := ih hus.2 hvs.2
    exact ⟨xs ++ xs', ys ++ ys', hx.append hx', hy.append hy', List.rel_append hxy hxy'⟩

/-- The threads of `m` and `n` can be linked so that linked threads are at the same position, accept
together and lead to linked threads. -/
structure Alike (m n : Machine) (b : Bounds) (link : Thread → Thread → Prop) : Prop where
  pos : ∀ {t u}, link t u → t.pos = u.pos
  unique : ∀ {t u t' u'}, link t u → link t' u' → (t = t' ↔ u = u')
  accept : ∀ {t u}, link t u → b.contains t = true → b.contains u = true →
    (m.move t = .accept ↔ n.move u = .accept)
  threads : ∀ {t u}, link t u → b.contains t = true → b.contains u = true →
    LeadAlike m n b link t u (m.move t).threads (n.move u).threads

/-- Linked threads find the same end in rooms that have the same linked states. -/
theorem Alike.firstEnd_eq (h : Alike m n b link) {room room' : Finset Thread}
    (hb : ∀ t ∈ room, b.contains t = true) (hb' : ∀ u ∈ room', b.contains u = true)
    (hroom : Ample b (OnLeft link) room) (hroom' : Ample b (OnRight link) room')
    (hsame : ∀ {t u}, link t u → (t ∈ room ↔ u ∈ room')) {t u : Thread} (htu : link t u) :
    m.firstEnd room t = n.firstEnd room' u := by
  induction hcard : room.card using Nat.strongRecOn generalizing room room' t u with
  | _ _ ih =>
    subst hcard
    by_cases ht : t ∈ room
    · have hu : u ∈ room' := (hsame htu).1 ht
      have haccept := h.accept htu (hb t ht) (hb' u hu)
      by_cases ha : m.move t = .accept
      · rw [firstEnd_of_accept ht ha, firstEnd_of_accept hu (haccept.1 ha), h.pos htu]
      obtain ⟨xs, ys, hxs, hys, hxy⟩ := h.threads htu (hb t ht) (hb' u hu)
      rw [firstEnd_of_move ht ha, firstEnd_of_move hu fun ha' => ha (haccept.2 ha'),
        hxs _ (hroom.erase ⟨u, htu⟩) (Finset.notMem_erase t room),
        hys _ (hroom'.erase ⟨t, htu⟩) (Finset.notMem_erase u room')]
      -- Without `t` and `u` the rooms still have the same linked states, since `u` is the only
      -- thread linked to `t`.
      refine findSome?_eq_of_forall₂ (hxy.imp fun x y hxy => ?_)
      refine ih _ (Finset.card_erase_lt_of_mem ht) (fun x hx => hb x (Finset.mem_of_mem_erase hx))
        (fun y hy => hb' y (Finset.mem_of_mem_erase hy)) (hroom.erase ⟨u, htu⟩)
        (hroom'.erase ⟨t, htu⟩) ?_ hxy rfl
      intro x y hxy
      rw [Finset.mem_erase, Finset.mem_erase, hsame hxy, Ne, Ne, h.unique hxy htu]
    · rw [firstEnd_of_notMem ht, firstEnd_of_notMem fun hu => ht ((hsame htu).2 hu)]

/-- Linked threads within the bounds find the same end if they may pass through every state. -/
theorem Alike.firstEnd_allRoom (h : Alike m n b link)
    (hb : ∀ {t u}, link t u → (b.contains t = true ↔ b.contains u = true)) {t u : Thread}
    (htu : link t u) : m.firstEnd (allRoom b) t = n.firstEnd (allRoom b) u := by
  refine h.firstEnd_eq (fun t ht => mem_allRoom.1 ht) (fun u hu => mem_allRoom.1 hu)
    (fun t ht _ => mem_allRoom.2 ht) (fun u hu _ => mem_allRoom.2 hu) (fun hxy => ?_) htu
  rw [mem_allRoom, mem_allRoom, hb hxy]

end Machine

end PatternMachine
