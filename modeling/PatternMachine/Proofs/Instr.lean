import Mathlib.Data.List.Forall2
import PatternMachine.Instr

/-!
# Instructions up to the names of their targets

A draft, its shortened forms and the finished program hold the same instructions under different
names of their targets. `Instr.Rel R` relates two instructions of one kind whose targets are
related by `R` in order; whatever renames targets, or fails to, is described by it
(`traverse_eq_ok_iff`).
-/

namespace PatternMachine.Instr

variable {α β γ : Type} {R : α → β → Prop}

/-- The same instruction with targets related by `R`. -/
inductive Rel (R : α → β → Prop) : Instr α → Instr β → Prop
  | literal (c : Char) : Rel R (.literal c) (.literal c)
  | any : Rel R .any .any
  | accept : Rel R .accept .accept
  | jump {t : α} {u : β} : R t u → Rel R (.jump t) (.jump u)
  | split {t t' : α} {u u' : β} : R t u → R t' u' → Rel R (.split t t') (.split u u')
  | nop : Rel R .nop .nop

/-- Passing over an instruction without reading, accepting or splitting: a `jump` or a `nop`. -/
def silent (i : Instr α) : Bool :=
  i.isJump || i.isNop

/-- Behind a jump the program does not go on. -/
theorem fallsThrough_of_isJump {i : Instr α} (h : i.isJump = true) : i.fallsThrough = false := by
  cases i with
  | jump => rfl
  | literal | any | accept | split | nop => cases h

namespace Rel

variable {i : Instr α} {j : Instr β}

/-- Instructions are related to themselves if their targets are. -/
theorem refl {S : α → α → Prop} (h : ∀ t, S t t) (i : Instr α) : Rel S i i := by
  cases i <;> constructor <;> exact h _

/-- The relation of the targets may be weakened. -/
theorem mono {S : α → β → Prop} (hij : Rel R i j) (h : ∀ t ∈ i.targets, ∀ u, R t u → S t u) :
    Rel S i j := by
  cases hij with
  | literal => exact .literal _
  | any => exact .any
  | accept => exact .accept
  | jump ht => exact .jump (h _ (by simp [targets]) _ ht)
  | split ht hu => exact .split (h _ (by simp [targets]) _ ht) (h _ (by simp [targets]) _ hu)
  | nop => exact .nop

/-- Related instructions have the targets of one related through those of another. -/
theorem trans {S : β → γ → Prop} {k : Instr γ} (hij : Rel R i j) (hjk : Rel S j k) :
    Rel (fun t v => ∃ u, R t u ∧ S u v) i k := by
  cases hij <;> cases hjk <;> constructor <;> exact ⟨_, ‹_›, ‹_›⟩

/-- The targets of related instructions are related one by one. -/
theorem targets (hij : Rel R i j) : List.Forall₂ R i.targets j.targets := by
  cases hij with
  | literal | any | accept | nop => exact .nil
  | jump ht => exact .cons ht .nil
  | split ht hu => exact .cons ht (.cons hu .nil)

/-- A target on the right comes from one on the left. -/
theorem exists_left (hij : Rel R i j) {u : β} (hu : u ∈ j.targets) : ∃ t ∈ i.targets, R t u := by
  cases hij with
  | literal | any | accept | nop => simp [Instr.targets] at hu
  | jump ht =>
    obtain rfl := List.mem_singleton.1 hu
    exact ⟨_, List.mem_singleton_self _, ht⟩
  | split ht hu' =>
    rcases List.mem_pair.1 hu with rfl | rfl
    · exact ⟨_, List.mem_pair.2 (.inl rfl), ht⟩
    · exact ⟨_, List.mem_pair.2 (.inr rfl), hu'⟩

/-- What holds of all targets of one instruction may be added to the relation. -/
theorem and_right {P : β → Prop} (hij : Rel R i j) (h : ∀ u ∈ j.targets, P u) :
    Rel (fun t u => R t u ∧ P u) i j := by
  cases hij with
  | literal c => exact .literal c
  | any => exact .any
  | accept => exact .accept
  | jump ht => exact .jump ⟨ht, h _ (by simp [Instr.targets])⟩
  | split ht hu =>
    exact .split ⟨ht, h _ (by simp [Instr.targets])⟩ ⟨hu, h _ (by simp [Instr.targets])⟩
  | nop => exact .nop

/-- A target on the left goes to one on the right. -/
theorem exists_mem_right (hij : Rel R i j) {t : α} (ht : t ∈ i.targets) :
    ∃ u ∈ j.targets, R t u := by
  cases hij with
  | literal | any | accept | nop => simp [Instr.targets] at ht
  | jump hu =>
    obtain rfl := List.mem_singleton.1 ht
    exact ⟨_, List.mem_singleton_self _, hu⟩
  | split hu hu' =>
    rcases List.mem_pair.1 ht with rfl | rfl
    · exact ⟨_, List.mem_pair.2 (.inl rfl), hu⟩
    · exact ⟨_, List.mem_pair.2 (.inr rfl), hu'⟩

/-- Targets do not decide whether the program goes on behind an instruction. -/
theorem fallsThrough_eq (hij : Rel R i j) : j.fallsThrough = i.fallsThrough := by
  cases hij <;> rfl

/-- Nor whether an instruction is a jump. -/
theorem isJump_eq (hij : Rel R i j) : j.isJump = i.isJump := by
  cases hij <;> rfl

/-- Nor whether it is a `nop`. -/
theorem isNop_eq (hij : Rel R i j) : j.isNop = i.isNop := by
  cases hij <;> rfl

/-- Nor whether it is passed silently. -/
theorem silent_eq (hij : Rel R i j) : j.silent = i.silent := by
  rw [silent, silent, hij.isJump_eq, hij.isNop_eq]

/-- Only `accept` is related to `accept`. -/
theorem accept_iff (hij : Rel R i j) : j = .accept ↔ i = .accept := by
  cases hij <;> simp

/-- Instructions whose targets have the same new names have one new form. -/
theorem map_eq_map {f : α → γ} {g : β → γ} (hij : Rel (fun t u => f t = g u) i j) :
    i.map f = j.map g := by
  cases hij with
  | literal | any | accept | nop => rfl
  | jump ht => rw [map, map, ht]
  | split ht hu => rw [map, map, ht, hu]

/-- Targets that are all related to something give a related instruction. -/
theorem exists_right (h : ∀ t ∈ i.targets, ∃ u, R t u) : ∃ j, Rel R i j := by
  cases i with
  | literal c => exact ⟨_, .literal c⟩
  | any => exact ⟨_, .any⟩
  | accept => exact ⟨_, .accept⟩
  | jump t =>
    obtain ⟨u, hu⟩ := h t (by simp [Instr.targets])
    exact ⟨_, .jump hu⟩
  | split t t' =>
    obtain ⟨u, hu⟩ := h t (by simp [Instr.targets])
    obtain ⟨u', hu'⟩ := h t' (by simp [Instr.targets])
    exact ⟨_, .split hu hu'⟩
  | nop => exact ⟨_, .nop⟩

end Rel

/-- Targets may be converted twice at once. -/
theorem map_map (g : β → γ) (f : α → β) (i : Instr α) : (i.map f).map g = i.map (g ∘ f) := by
  cases i <;> rfl

/-- The targets of a converted instruction are the converted targets. -/
theorem targets_map (f : α → β) (i : Instr α) : (i.map f).targets = i.targets.map f := by
  cases i <;> rfl

/-- Only what is done to the targets matters. -/
theorem map_congr {f g : α → β} {i : Instr α} (h : ∀ t ∈ i.targets, f t = g t) :
    i.map f = i.map g :=
  ((Rel.refl (S := fun t u => t = u) (fun _ => rfl) i).mono fun t ht _ hu =>
    hu ▸ h t ht).map_eq_map

/-- Renaming succeeds exactly with an instruction whose targets are the new names. -/
theorem traverse_eq_ok_iff {ε : Type} {f : α → Except ε β} {i : Instr α} {j : Instr β} :
    i.traverse f = .ok j ↔ Rel (fun t u => f t = .ok u) i j := by
  refine ⟨?_, ?_⟩
  · intro h
    cases i with
    | literal c => cases h; exact .literal c
    | any => cases h; exact .any
    | accept => cases h; exact .accept
    | nop => cases h; exact .nop
    | jump t =>
      cases ht : f t with
      | error e => simp [traverse, ht, bind, Except.bind] at h
      | ok u =>
        simp only [traverse, ht, bind, Except.bind] at h
        cases h
        exact .jump ht
    | split t t' =>
      cases ht : f t with
      | error e => simp [traverse, ht, bind, Except.bind] at h
      | ok u =>
        cases ht' : f t' with
        | error e => simp [traverse, ht, ht', bind, Except.bind] at h
        | ok u' =>
          simp only [traverse, ht, ht', bind, Except.bind] at h
          cases h
          exact .split ht ht'
  · intro h
    cases h with
    | literal | any | accept | nop => rfl
    | jump ht => simp only [traverse, ht, bind, Except.bind]; rfl
    | split ht ht' => simp only [traverse, ht, ht', bind, Except.bind]; rfl

/-- Renaming fails with what it fails with for the first target that has no new name. -/
theorem first_of_traverse_eq_error {ε : Type} {f : α → Except ε β} {i : Instr α} {e : ε}
    (h : i.traverse f = .error e) : ∃ before t after, i.targets = before ++ t :: after ∧
      (∀ s ∈ before, ∃ u, f s = .ok u) ∧ f t = .error e := by
  cases i with
  | literal | any | accept | nop => cases h
  | jump t =>
    cases ht : f t with
    | error e' =>
      simp only [traverse, ht, bind, Except.bind] at h
      cases h
      exact ⟨[], t, [], rfl, by simp, ht⟩
    | ok u =>
      simp only [traverse, ht, bind, Except.bind] at h
      cases h
  | split t t' =>
    cases ht : f t with
    | error e' =>
      simp only [traverse, ht, bind, Except.bind] at h
      cases h
      exact ⟨[], t, [t'], rfl, by simp, ht⟩
    | ok u =>
      cases ht' : f t' with
      | error e' =>
        simp only [traverse, ht, ht', bind, Except.bind] at h
        cases h
        exact ⟨[t], t', [], rfl, by simpa using ⟨u, ht⟩, ht'⟩
      | ok u' =>
        simp only [traverse, ht, ht', bind, Except.bind] at h
        cases h

/-- Renaming fails only with what it fails with for one of the targets. -/
theorem exists_of_traverse_eq_error {ε : Type} {f : α → Except ε β} {i : Instr α} {e : ε}
    (h : i.traverse f = .error e) : ∃ t ∈ i.targets, f t = .error e := by
  obtain ⟨before, t, after, htargets, -, ht⟩ := first_of_traverse_eq_error h
  exact ⟨t, by simp [htargets], ht⟩

end PatternMachine.Instr
