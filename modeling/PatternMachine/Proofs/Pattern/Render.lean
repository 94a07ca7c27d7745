import PatternMachine.Pattern.Render
import PatternMachine.Proofs.Text.Readable

/-!
# The written form of a pattern can be read back

No two constructors begin with the same letter, and an operand ends where its own written form does
(`Delimited`), so that the separators behind it are found whatever characters are quoted in it. By
induction on the pattern its written form can be told from anything that follows it
(`selfDelimiting_render`).
-/

namespace PatternMachine.Pattern

open Text

/-- The letter with which the pattern's constructor is written. -/
def initial : Pattern → Char
  | literal _ => 'L'
  | any => 'A'
  | empty => 'E'
  | seq _ _ => 'C'
  | alt _ _ => 'U'
  | star _ => 'S'
  | plus _ => 'P'
  | opt _ => 'Q'

/-- What is written of a pattern begins with the letter of its constructor. -/
theorem exists_render_eq (p : Pattern) : ∃ rest, p.render.toList = p.initial :: rest := by
  cases p <;> simp only [render, String.toList_append] <;> exact ⟨_, rfl⟩

/-- Texts that begin with the same written form begin with the same letter. -/
theorem initial_eq {p q : Pattern} {s t : List Char}
    (h : p.render.toList ++ s = q.render.toList ++ t) : p.initial = q.initial := by
  obtain ⟨rest, hp⟩ := p.exists_render_eq
  obtain ⟨rest', hq⟩ := q.exists_render_eq
  rw [hp, hq] at h
  exact (List.cons.inj h).1

/-- Where the pattern is written, nothing else is, and its written form ends in one place. -/
def Delimited (p : Pattern) : Prop :=
  ∀ ⦃q : Pattern⦄ ⦃s t : List Char⦄, p.render.toList ++ s = q.render.toList ++ t → p = q ∧ s = t

namespace Delimited

variable {p p' q q' : Pattern} {s t : List Char}

/-- An operand is followed by its separator, and both can be taken off. -/
theorem operand {sep : List Char} (hp : p.Delimited)
    (h : p.render.toList ++ (sep ++ s) = q.render.toList ++ (sep ++ t)) : p = q ∧ s = t := by
  obtain ⟨rfl, hrest⟩ := hp h
  exact ⟨rfl, List.append_cancel_left hrest⟩

/-- So can two operands, one after the other. -/
theorem operands {sep sep' : List Char} (hp : p.Delimited) (hp' : p'.Delimited)
    (h : p.render.toList ++ (sep ++ (p'.render.toList ++ (sep' ++ s))) =
      q.render.toList ++ (sep ++ (q'.render.toList ++ (sep' ++ t)))) :
    p = q ∧ p' = q' ∧ s = t := by
  obtain ⟨rfl, hrest⟩ := hp.operand h
  exact ⟨rfl, hp'.operand hrest⟩

end Delimited

/-- Every pattern can be told from whatever follows its written form. -/
theorem delimited (p : Pattern) : p.Delimited := by
  induction p with
  | literal c =>
    intro q s t h
    cases q with
    | literal d =>
      simp only [render, String.toList_append, List.append_assoc] at h
      obtain ⟨rfl, hrest⟩ := selfDelimiting_quoteChar (List.append_cancel_left h)
      exact ⟨rfl, List.append_cancel_left hrest⟩
    | any | empty | seq | alt | star | plus | opt => cases initial_eq h
  | any =>
    intro q s t h
    cases q with
    | any => exact ⟨rfl, List.append_cancel_left h⟩
    | literal | empty | seq | alt | star | plus | opt => cases initial_eq h
  | empty =>
    intro q s t h
    cases q with
    | empty => exact ⟨rfl, List.append_cancel_left h⟩
    | literal | any | seq | alt | star | plus | opt => cases initial_eq h
  | seq l r ihl ihr =>
    intro q s t h
    cases q with
    | seq l' r' =>
      simp only [render, String.toList_append, List.append_assoc] at h
      obtain ⟨rfl, rfl, hrest⟩ := ihl.operands ihr (List.append_cancel_left h)
      exact ⟨rfl, hrest⟩
    | literal | any | empty | alt | star | plus | opt => cases initial_eq h
  | alt l r ihl ihr =>
    intro q s t h
    cases q with
    | alt l' r' =>
      simp only [render, String.toList_append, List.append_assoc] at h
      obtain ⟨rfl, rfl, hrest⟩ := ihl.operands ihr (List.append_cancel_left h)
      exact ⟨rfl, hrest⟩
    | literal | any | empty | seq | star | plus | opt => cases initial_eq h
  | star p ih =>
    intro q s t h
    cases q with
    | star p' =>
      simp only [render, String.toList_append, List.append_assoc] at h
      obtain ⟨rfl, hrest⟩ := ih.operand (List.append_cancel_left h)
      exact ⟨rfl, hrest⟩
    | literal | any | empty | seq | alt | plus | opt => cases initial_eq h
  | plus p ih =>
    intro q s t h
    cases q with
    | plus p' =>
      simp only [render, String.toList_append, List.append_assoc] at h
      obtain ⟨rfl, hrest⟩ := ih.operand (List.append_cancel_left h)
      exact ⟨rfl, hrest⟩
    | literal | any | empty | seq | alt | star | opt => cases initial_eq h
  | opt p ih =>
    intro q s t h
    cases q with
    | opt p' =>
      simp only [render, String.toList_append, List.append_assoc] at h
      obtain ⟨rfl, hrest⟩ := ih.operand (List.append_cancel_left h)
      exact ⟨rfl, hrest⟩
    | literal | any | empty | seq | alt | star | plus => cases initial_eq h

/-- Written patterns can be told apart when others follow. -/
theorem selfDelimiting_render : SelfDelimiting fun p : Pattern => p.render.toList :=
  fun p _ _ _ h => p.delimited h

end PatternMachine.Pattern
