import PatternMachine.Proofs.Instr
import PatternMachine.Proofs.Pattern.Fold
import PatternMachine.Proofs.Program.Layout

/-!
# Code in its surroundings

The code of a pattern leads to its own instructions and to no others, wherever it is placed
(`Pattern.rel_code`). What a context puts around it is the same for all patterns of one size, and
leads only to the first instruction of the pattern or to the outside of its code
(`Pattern.Context.surrounds`).
-/

namespace PatternMachine

/-- Of a list that stands at `b`, the element at `k` stands at `b + k`. -/
theorem StandsAt.getElem {α : Type} {at? : Nat → Option α} {b k : Nat} {xs : List α}
    (h : StandsAt at? b xs) (hk : k < xs.length) : at? (b + k) = some xs[k] := by
  induction xs generalizing b k with
  | nil => exact absurd hk (Nat.not_lt_zero k)
  | cons x xs ih =>
    obtain ⟨hx, hxs⟩ := h
    cases k with
    | zero => exact hx
    | succ k =>
      rw [Nat.add_succ, ← Nat.succ_add]
      exact ih hxs (Nat.lt_of_succ_lt_succ hk)

/-! ## Code at another place -/

/-- One of `size` consecutive places, counted from `b` and from `b'`. -/
def SamePlace (b b' size t t' : Nat) : Prop :=
  ∃ k < size, t = b + k ∧ t' = b' + k

/-- A place among some of the consecutive places is one among all of them. -/
theorem SamePlace.widen {b b' d size size' : Nat} (hle : d + size ≤ size') {t t' : Nat}
    (h : SamePlace (b + d) (b' + d) size t t') : SamePlace b b' size' t t' := by
  obtain ⟨k, hk, rfl, rfl⟩ := h
  exact ⟨d + k, by omega, Nat.add_assoc .., Nat.add_assoc ..⟩

namespace Pattern

/-- The code of a pattern leads to its own instructions, and at another place to the same ones. -/
theorem rel_code (p : Pattern) (b b' : Nat) :
    List.Forall₂ (Instr.Rel (SamePlace b b' p.codeSize)) (p.code b) (p.code b') := by
  have hpart : ∀ {q : Pattern} {b b' d size : Nat}, d + q.codeSize ≤ size →
      List.Forall₂ (Instr.Rel (SamePlace (b + d) (b' + d) q.codeSize))
        (q.code (b + d)) (q.code (b' + d)) →
      List.Forall₂ (Instr.Rel (SamePlace b b' size)) (q.code (b + d)) (q.code (b' + d)) :=
    fun hle h => h.imp fun _ _ hij => hij.mono fun _ _ _ ht => ht.widen hle
  have hplace : ∀ {b b' size : Nat} (d : Nat), d < size →
      SamePlace b b' size (b + d) (b' + d) := fun d hd => ⟨d, hd, rfl, rfl⟩
  induction p generalizing b b' with
  | literal c => exact .cons (.literal c) .nil
  | any => exact .cons .any .nil
  | empty => exact .cons .nop .nil
  | seq l r ihl ihr =>
    exact List.rel_append (hpart (d := 0) (by simp [codeSize]) (ihl b b'))
      (hpart (by simp [codeSize]) (ihr _ _))
  | alt l r ihl ihr =>
    refine .cons (.split (hplace 1 ?_) (hplace (l.codeSize + 2) ?_)) <|
      List.rel_append (hpart ?_ (ihl _ _)) <|
        .cons (.jump ⟨l.codeSize + r.codeSize + 2, ?_, by omega, by omega⟩) <|
          List.rel_append (hpart (d := l.codeSize + 2) ?_ (ihr _ _)) (.cons .nop .nil)
    all_goals simp only [codeSize]; omega
  | star p ih =>
    refine .cons (.split (hplace 1 ?_) (hplace (p.codeSize + 2) ?_)) <|
      List.rel_append (hpart ?_ (ih _ _)) (.cons (.jump (hplace 0 ?_)) (.cons .nop .nil))
    all_goals simp only [codeSize]; omega
  | plus p ih =>
    refine List.rel_append (hpart (d := 0) ?_ (ih _ _)) <|
      .cons (.split (hplace 0 ?_) (hplace (p.codeSize + 1) ?_)) (.cons .nop .nil)
    all_goals simp only [codeSize]; omega
  | opt p ih =>
    refine .cons (.split (hplace 1 ?_) (hplace (p.codeSize + 1) ?_)) <|
      List.rel_append (hpart ?_ (ih _ _)) (.cons .nop .nil)
    all_goals simp only [codeSize]; omega

/-- Code leads nowhere but to itself. -/
theorem targets_code {p : Pattern} {b t : Nat} {i : Instr Nat} (hi : i ∈ p.code b)
    (ht : t ∈ i.targets) : b ≤ t ∧ t < b + p.codeSize := by
  obtain ⟨k, hk, rfl⟩ := List.getElem_of_mem hi
  have hrel := List.Forall₂.get (p.rel_code b b) hk hk
  obtain ⟨u, -, d, hd, rfl, -⟩ := hrel.exists_mem_right ht
  omega

end Pattern

/-- Two programs that hold a pattern have the same of it at the same places. -/
theorem Program.Holds.rel {prog prog' : Program} {p : Pattern} {b b' k : Nat}
    (h : prog.Holds b p) (h' : prog'.Holds b' p) (hk : k < p.codeSize) :
    ∃ i j, prog.code[b + k]? = some i ∧ prog'.code[b' + k]? = some j ∧
      i.Rel (SamePlace b b' p.codeSize) j := by
  have hlen := p.length_code b
  have hlen' := p.length_code b'
  exact ⟨_, _, StandsAt.getElem h (hlen.symm ▸ hk), StandsAt.getElem h' (hlen'.symm ▸ hk),
    List.Forall₂.get (p.rel_code b b') (hlen.symm ▸ hk) (hlen'.symm ▸ hk)⟩

/-! ## Code around a hole -/

/-- `F` puts something around the code of a pattern that is the same for all patterns of the size of
`p`, and that leads to no place inside. -/
def Surrounds (F : Pattern → Pattern) (p : Pattern) (b : Nat) : Prop :=
  ∃ before after : List (Instr Nat),
    (∀ q : Pattern, q.codeSize = p.codeSize →
      (F q).code b = before ++ q.code (b + before.length) ++ after) ∧
    ∀ i ∈ before ++ after, ∀ t ∈ i.targets,
      t ≤ b + before.length ∨ b + before.length + p.codeSize ≤ t

namespace Surrounds

variable {F G : Pattern → Pattern} {p : Pattern} {b : Nat}

/-- Patterns of one size become patterns of one size. -/
theorem codeSize_eq (h : Surrounds F p b) {q : Pattern} (hq : q.codeSize = p.codeSize) :
    (F q).codeSize = (F p).codeSize := by
  obtain ⟨before, after, hcode, -⟩ := h
  rw [← Pattern.length_code (F q) b, ← Pattern.length_code (F p) b, hcode q hq, hcode p rfl]
  simp [hq]

/-- More may be put around. -/
theorem wrap (pre post : List (Instr Nat)) (h : Surrounds F p (b + pre.length))
    (hcode : ∀ q : Pattern, (F q).codeSize = (F p).codeSize →
      (G q).code b = pre ++ (F q).code (b + pre.length) ++ post)
    (htargets : ∀ i ∈ pre ++ post, ∀ t ∈ i.targets,
      t ≤ b + pre.length ∨ b + pre.length + (F p).codeSize ≤ t) : Surrounds G p b := by
  have hsize : ∀ {q : Pattern}, q.codeSize = p.codeSize → (F q).codeSize = (F p).codeSize :=
    h.codeSize_eq
  obtain ⟨before, after, hF, hinside⟩ := h
  have hlen : (F p).codeSize = before.length + p.codeSize + after.length := by
    rw [← Pattern.length_code (F p) (b + pre.length), hF p rfl]
    simp [Nat.add_assoc]
  refine ⟨pre ++ before, after ++ post, fun q hq => ?_, fun i hi t ht => ?_⟩
  · rw [hcode q (hsize hq), hF q hq]
    simp [Nat.add_assoc]
  · rw [List.length_append]
    have hi : i ∈ pre ++ post ∨ i ∈ before ++ after := by
      simp only [List.mem_append] at hi ⊢
      tauto
    rcases hi with hi | hi
    · have := htargets i hi t ht
      omega
    · have := hinside i hi t ht
      omega

end Surrounds

/-- A context surrounds what it is filled with. -/
theorem Pattern.Context.surrounds (C : Context) (p : Pattern) (b : Nat) :
    Surrounds C.fill p b := by
  induction C generalizing b with
  | hole => exact ⟨[], [], fun q _ => by simp [fill], by simp⟩
  | seqLeft C r ih =>
    refine Surrounds.wrap [] (r.code (b + (C.fill p).codeSize)) (ih _) ?_ ?_
    · intro q hq
      simp [fill, code, hq]
    · intro i hi t ht
      exact .inr (targets_code hi ht).1
  | seqRight l C ih =>
    refine Surrounds.wrap (l.code b) [] (ih _) ?_ ?_
    · intro q hq
      simp [fill, code]
    · intro i hi t ht
      rw [List.append_nil] at hi
      have := targets_code hi ht
      rw [length_code]
      omega
  | altLeft C r ih =>
    refine Surrounds.wrap [.split (b + 1) (b + (C.fill p).codeSize + 2)]
      (.jump (b + (C.fill p).codeSize + r.codeSize + 2) ::
        (r.code (b + (C.fill p).codeSize + 2) ++ [.nop])) (ih _) ?_ ?_
    · intro q hq
      simp [fill, code, hq]
    · intro i hi t ht
      simp only [List.cons_append, List.nil_append, List.mem_cons, List.mem_append,
        List.not_mem_nil, or_false, List.length_cons, List.length_nil] at hi ⊢
      rcases hi with rfl | rfl | hi | rfl
      · simp [Instr.targets] at ht
        omega
      · simp [Instr.targets] at ht
        omega
      · have := targets_code hi ht
        omega
      · simp [Instr.targets] at ht
  | altRight l C ih =>
    refine Surrounds.wrap (.split (b + 1) (b + l.codeSize + 2) :: (l.code (b + 1) ++
      [.jump (b + l.codeSize + (C.fill p).codeSize + 2)])) [.nop] (ih _) ?_ ?_
    · intro q hq
      simp [fill, code, hq, Nat.add_assoc]
    · intro i hi t ht
      simp only [List.cons_append, List.append_assoc, List.nil_append, List.mem_cons,
        List.mem_append, List.not_mem_nil, or_false, List.length_cons, List.length_append,
        length_code, List.length_nil] at hi ⊢
      rcases hi with rfl | hi | rfl | rfl
      · simp [Instr.targets] at ht
        omega
      · have := targets_code hi ht
        omega
      · simp [Instr.targets] at ht
        omega
      · simp [Instr.targets] at ht
  | star C ih =>
    refine Surrounds.wrap [.split (b + 1) (b + (C.fill p).codeSize + 2)]
      [.jump b, .nop] (ih _) ?_ ?_
    · intro q hq
      simp [fill, code, hq]
    · simp [Instr.targets]
      omega
  | plus C ih =>
    refine Surrounds.wrap []
      [.split b (b + (C.fill p).codeSize + 1), .nop] (ih _) ?_ ?_
    · intro q hq
      simp [fill, code, hq]
    · simp [Instr.targets]
  | opt C ih =>
    refine Surrounds.wrap [.split (b + 1) (b + (C.fill p).codeSize + 1)]
      [.nop] (ih _) ?_ ?_
    · intro q hq
      simp [fill, code, hq]
    · simp [Instr.targets]
      omega

/-- Outside of a part, a list is the same whatever the part is. -/
theorem getElem?_append_append {α : Type} {before xs ys after : List α} {k : Nat}
    (hlen : ys.length = xs.length) (hk : k < before.length ∨ before.length + xs.length ≤ k) :
    (before ++ ys ++ after)[k]? = (before ++ xs ++ after)[k]? := by
  rcases hk with hk | hk
  · rw [List.append_assoc, List.append_assoc, List.getElem?_append_left hk,
      List.getElem?_append_left hk]
  · rw [List.getElem?_append_right (by rw [List.length_append]; omega),
      List.getElem?_append_right (by rw [List.length_append]; omega), List.length_append,
      List.length_append, hlen]

/-- What is outside of the part is before or behind it. -/
theorem mem_of_getElem?_append_append {α : Type} {before xs after : List α} {k : Nat} {x : α}
    (hk : k < before.length ∨ before.length + xs.length ≤ k)
    (h : (before ++ xs ++ after)[k]? = some x) : x ∈ before ++ after := by
  rcases hk with hk | hk
  · rw [List.append_assoc, List.getElem?_append_left hk] at h
    exact List.mem_append_left _ (List.mem_of_getElem? h)
  · rw [List.getElem?_append_right (by rw [List.length_append]; omega)] at h
    exact List.mem_append_right _ (List.mem_of_getElem? h)

/-- The program of a context with `p` in it holds `p` at some place, and so does that with any other
pattern of that size. Outside of this place the programs are equal, and lead to no place inside. -/
theorem Pattern.Context.exists_holds (C : Context) (p : Pattern) :
    ∃ h, ∀ q : Pattern, q.codeSize = p.codeSize →
      (C.fill q).program.Holds h q ∧ (C.fill q).program.size = (C.fill p).program.size ∧
      ∀ k, k < h ∨ h + p.codeSize ≤ k →
        (C.fill q).program.code[k]? = (C.fill p).program.code[k]? ∧
        ∀ i, (C.fill q).program.code[k]? = some i → ∀ t ∈ i.targets,
          t ≤ h ∨ h + p.codeSize ≤ t := by
  obtain ⟨before, after, hcode, havoids⟩ := C.surrounds p Program.start
  rw [Program.start, Nat.zero_add] at hcode havoids
  have hprogram : ∀ q : Pattern, q.codeSize = p.codeSize → (C.fill q).program =
      ⟨(before ++ q.code before.length ++ (after ++ [Instr.accept])).toArray⟩ := by
    intro q hq
    rw [program, Program.start, hcode q hq, List.append_assoc _ after]
  refine ⟨before.length, fun q hq => ?_⟩
  have hlen : (q.code before.length).length = (p.code before.length).length := by
    rw [length_code, length_code, hq]
  rw [hprogram q hq, hprogram p rfl]
  refine ⟨?_, ?_, fun k hk => ⟨?_, fun i hi t ht => ?_⟩⟩
  · have := StandsAt.of_append before (q.code before.length) (after ++ [Instr.accept])
    simpa only [Program.Holds, List.getElem?_toArray] using this
  · simp [Program.size, hq]
  · simp only [List.getElem?_toArray]
    exact getElem?_append_append hlen (by rwa [length_code])
  · rw [List.getElem?_toArray] at hi
    have hmem := mem_of_getElem?_append_append (by rwa [length_code, hq]) hi
    rw [← List.append_assoc] at hmem
    rcases List.mem_append.1 hmem with hmem | hmem
    · exact havoids i hmem t ht
    · obtain rfl := List.mem_singleton.1 hmem
      cases ht

end PatternMachine
