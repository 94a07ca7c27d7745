import Mathlib.Data.List.Basic
import PatternMachine.Text.Decimal
import PatternMachine.Text.Quoted

/-!
# Texts that can be read back

A written form may show its own end, so that it can be read back whatever follows it
(`SelfDelimiting`). Quoted characters do (`selfDelimiting_quoteChar`): a character is written as
itself, as a backslash and one letter, or by its code point (`written_escape`), of which the first
is told from the others by the backslash and these by the letter, and the digits of a code point
run up to the first closing brace. Numerals do not, but they tell their number
(`twoDigits_inj`) and hold nothing but digits, so that any other character ends them
(`SelfDelimiting.of_terminator`).
-/

namespace PatternMachine.Text

/-! ## Written forms that need no separator -/

/-- Two texts are the same up to the first `x` and behind it. -/
theorem append_cons_inj {x : Char} {cs ds s t : List Char} (hcs : x ∉ cs) (hds : x ∉ ds)
    (h : cs ++ x :: s = ds ++ x :: t) : cs = ds ∧ s = t := by
  induction cs generalizing ds with
  | nil =>
    cases ds with
    | nil => exact ⟨rfl, (List.cons.inj h).2⟩
    | cons d ds => exact absurd (List.mem_cons.2 (.inl (List.cons.inj h).1)) hds
  | cons c cs ih =>
    cases ds with
    | nil => exact absurd (List.mem_cons.2 (.inl (List.cons.inj h).1.symm)) hcs
    | cons d ds =>
      obtain ⟨rfl, htail⟩ := List.cons.inj h
      obtain ⟨rfl, hrest⟩ := ih (List.not_mem_of_not_mem_cons hcs)
        (List.not_mem_of_not_mem_cons hds) htail
      exact ⟨rfl, hrest⟩

/-- What `write` writes can be told from whatever follows it, and read back. -/
def SelfDelimiting {α : Type} (write : α → List Char) : Prop :=
  ∀ ⦃a b : α⦄ ⦃s t : List Char⦄, write a ++ s = write b ++ t → a = b ∧ s = t

namespace SelfDelimiting

variable {α : Type} {write : α → List Char} {a b : α}

/-- What is written tells what it stands for. -/
theorem eq_iff (h : SelfDelimiting write) : write a = write b ↔ a = b :=
  ⟨fun heq => (h (congrArg (· ++ []) heq)).1, congrArg write⟩

/-- Nothing is written that continues what is written for something else. -/
theorem prefix_iff (h : SelfDelimiting write) : write a <+: write b ↔ a = b := by
  refine ⟨?_, ?_⟩
  · rintro ⟨rest, hrest⟩
    exact (h (hrest.trans (List.append_nil _).symm)).1
  · rintro rfl
    exact List.prefix_refl _

/-- A text of written forms one after the other tells all that is written in it. -/
theorem flatMap_inj (h : SelfDelimiting write) (hne : ∀ a, write a ≠ []) {as bs : List α}
    (heq : as.flatMap write = bs.flatMap write) : as = bs := by
  induction as generalizing bs with
  | nil =>
    cases bs with
    | nil => rfl
    | cons b bs => exact absurd (List.append_eq_nil_iff.1 heq.symm).1 (hne b)
  | cons a as ih =>
    cases bs with
    | nil => exact absurd (List.append_eq_nil_iff.1 heq).1 (hne a)
    | cons b bs =>
      obtain ⟨rfl, hrest⟩ := h heq
      rw [ih hrest]

/-- A character that is written for nothing ends what is written. -/
theorem of_terminator {x : Char} (hinj : ∀ a b, write a = write b → a = b)
    (hx : ∀ a, x ∉ write a) : SelfDelimiting fun a => write a ++ [x] := by
  intro a b s t h
  obtain ⟨heq, hrest⟩ := append_cons_inj (hx a) (hx b) (by simpa using h)
  exact ⟨hinj a b heq, hrest⟩

end SelfDelimiting

/-! ## Numerals -/

/-- The digits up to base sixteen are different characters. -/
theorem digitChar_inj {m n : Nat} (hm : m < 16) (hn : n < 16)
    (h : Nat.digitChar m = Nat.digitChar n) : m = n := by
  have hall : ∀ i j : Fin 16, Nat.digitChar i = Nat.digitChar j → i = j := by decide
  exact congrArg Fin.val (hall ⟨m, hm⟩ ⟨n, hn⟩ h)

/-- A number has one numeral. -/
theorem toDigits_inj {base : Nat} (hlo : 1 < base) (hhi : base ≤ 16) {m n : Nat}
    (h : Nat.toDigits base m = Nat.toDigits base n) : m = n := by
  induction m using Nat.strongRecOn generalizing n with
  | _ m ih =>
    rw [Nat.toDigits_eq_if hlo, Nat.toDigits_eq_if (n := n) hlo] at h
    split at h <;> split at h
    · rename_i hm hn
      exact digitChar_inj (by omega) (by omega) (List.singleton_inj.1 h)
    -- A single digit against a numeral with more in front of it.
    · simp [List.singleton_eq_append_iff, Nat.toDigits_ne_nil] at h
    · simp [List.append_eq_singleton_iff, Nat.toDigits_ne_nil] at h
    · rename_i hm hn
      obtain ⟨hinit, hlast⟩ := List.append_inj' h rfl
      have hdiv := ih (m / base) (Nat.div_lt_self (by omega) hlo) hinit
      have hmod : m % base = n % base := by
        have hm' := Nat.mod_lt m (by omega : 0 < base)
        have hn' := Nat.mod_lt n (by omega : 0 < base)
        exact digitChar_inj (by omega) (by omega) (List.singleton_inj.1 hlast)
      rw [← Nat.div_add_mod m base, ← Nat.div_add_mod n base, hdiv, hmod]

/-- A numeral holds nothing but digits. -/
theorem exists_digit_of_mem_toDigits {base : Nat} (hlo : 1 < base) {n : Nat} {c : Char}
    (h : c ∈ Nat.toDigits base n) : ∃ digit < base, c = Nat.digitChar digit := by
  induction n using Nat.strongRecOn with
  | _ n ih =>
    rw [Nat.toDigits_eq_if hlo] at h
    split at h
    · rename_i hn
      exact ⟨n, hn, List.mem_singleton.1 h⟩
    · rename_i hn
      rcases List.mem_append.1 h with h | h
      · exact ih (n / base) (Nat.div_lt_self (by omega) hlo) h
      · exact ⟨n % base, Nat.mod_lt n (by omega), List.mem_singleton.1 h⟩

/-- A character that is no digit, whatever the base, stands in no numeral. -/
theorem notMem_toDigits {base : Nat} (hlo : 1 < base) {n : Nat} {c : Char}
    (h : ∀ digit, Nat.digitChar digit ≠ c) : c ∉ Nat.toDigits base n := by
  intro hmem
  obtain ⟨digit, -, heq⟩ := exists_digit_of_mem_toDigits hlo hmem
  exact h digit heq.symm

/-- A number of one digit gets a zero in front. -/
theorem toList_twoDigits (n : Nat) : (twoDigits n).toList =
    if n < 10 then '0' :: Nat.toDigits 10 n else Nat.toDigits 10 n := by
  unfold twoDigits
  split <;> simp

/-- A zero in front does not change the number. -/
theorem ofDigitChars_twoDigits (n : Nat) : Nat.ofDigitChars 10 (twoDigits n).toList 0 = n := by
  rw [toList_twoDigits]
  split
  · rw [Nat.ofDigitChars_cons]
    exact Nat.ofDigitChars_ten_toDigits
  · exact Nat.ofDigitChars_ten_toDigits

/-- Different numbers are padded to different texts. -/
theorem twoDigits_inj {m n : Nat} (h : (twoDigits m).toList = (twoDigits n).toList) : m = n := by
  rw [← ofDigitChars_twoDigits m, h, ofDigitChars_twoDigits]

/-- A character that is no digit stands in no padded number. -/
theorem notMem_twoDigits {c : Char} (h : ∀ digit, Nat.digitChar digit ≠ c) (n : Nat) :
    c ∉ (twoDigits n).toList := by
  have hzero : c ≠ '0' := (h 0).symm
  have hdigits : c ∉ Nat.toDigits 10 n := notMem_toDigits (by decide) h
  rw [toList_twoDigits]
  split
  · exact List.not_mem_cons_of_ne_of_not_mem hzero hdigits
  · exact hdigits

/-- A padded number ends at the next character that is no digit. -/
theorem selfDelimiting_twoDigits {x : Char} (hx : ∀ digit, Nat.digitChar digit ≠ x) :
    SelfDelimiting fun n => (twoDigits n).toList ++ [x] :=
  .of_terminator (fun _ _ => twoDigits_inj) (notMem_twoDigits hx)

/-! ## Escapes -/

/-- The letters that stand behind a backslash between apostrophes, with what they mean. -/
def letters : List (Char × Char) :=
  [('0', '\x00'), ('t', '\t'), ('r', '\r'), ('n', '\n'), ('\\', '\\'), ('\'', '\'')]

/-- The ways to write a character between apostrophes. -/
inductive Written (c : Char) : List Char → Prop
  | plain : (∀ p ∈ letters, c ≠ p.2) → Written c [c]
  | letter {l : Char} : (l, c) ∈ letters → Written c ['\\', l]
  | code : Written c (codeEscape c)

/-- An escaped character is written in one of these ways. -/
theorem written_escape (c : Char) : Written c (escape '\'' c) := by
  have hletter : ∀ p ∈ letters, c = p.2 → Written c ['\\', p.1] := by
    rintro p hp rfl
    exact .letter hp
  unfold escape
  split_ifs with h₀ ht hr hn hback hquote hcode
  · exact hletter ('0', '\x00') (by decide) h₀
  · exact hletter ('t', '\t') (by decide) ht
  · exact hletter ('r', '\r') (by decide) hr
  · exact hletter ('n', '\n') (by decide) hn
  · exact hletter ('\\', '\\') (by decide) hback
  · exact hletter ('\'', '\'') (by decide) hquote
  · exact .code
  · exact .plain (by simp [letters, h₀, ht, hr, hn, hback, hquote])

/-- The digits of a code point end at the first closing brace. -/
theorem codeEscape_append_inj {c d : Char} {s t : List Char}
    (h : codeEscape c ++ s = codeEscape d ++ t) : c = d ∧ s = t := by
  have hbrace : ∀ n, '\x7d' ∉ Nat.toDigits 16 n :=
    fun _ => notMem_toDigits (by decide) fun _ => Nat.digitChar_ne _ (by decide)
  have hdigits : SelfDelimiting fun n => Nat.toDigits 16 n ++ ['\x7d'] :=
    .of_terminator (fun _ _ => toDigits_inj (by decide) (by decide)) hbrace
  obtain ⟨hcode, hrest⟩ := hdigits (by simpa [codeEscape] using h)
  exact ⟨Char.toNat_inj.1 hcode, hrest⟩

namespace Written

variable {c d : Char} {cs ds s t : List Char}

/-- What is written for a character ends where the character ends. -/
theorem append_inj (hc : Written c cs) (hd : Written d ds) (h : cs ++ s = ds ++ t) :
    c = d ∧ s = t := by
  have hback : ('\\', '\\') ∈ letters := by decide
  have hmeaning : ∀ p ∈ letters, ∀ q ∈ letters, p.1 = q.1 → p.2 = q.2 := by decide
  have hu : ∀ p ∈ letters, p.1 ≠ 'u' := by decide
  cases hc with
  | plain hc =>
    cases hd with
    | plain hd => exact List.cons.inj h
    | letter | code => exact absurd (List.cons.inj h).1 (hc _ hback)
  | @letter l hl =>
    cases hd with
    | plain hd => exact absurd (List.cons.inj h).1.symm (hd _ hback)
    | @letter m hm =>
      obtain ⟨rfl, hrest⟩ := List.cons.inj (List.cons.inj h).2
      exact ⟨hmeaning _ hl _ hm rfl, hrest⟩
    | code => exact absurd (List.cons.inj (List.cons.inj h).2).1 (hu _ hl)
  | code =>
    cases hd with
    | plain hd => exact absurd (List.cons.inj h).1.symm (hd _ hback)
    | @letter m hm => exact absurd (List.cons.inj (List.cons.inj h).2).1.symm (hu _ hm)
    | code => exact codeEscape_append_inj h

/-- No character is written with a line feed. -/
theorem lineFeed_notMem (hc : Written c cs) : '\n' ∉ cs := by
  have hfeed : ('n', '\n') ∈ letters := by decide
  have hletters : ∀ p ∈ letters, p.1 ≠ '\n' := by decide
  cases hc with
  | plain hc => exact List.not_mem_cons_of_ne_of_not_mem (hc _ hfeed).symm List.not_mem_nil
  | @letter l hl => simpa using (hletters _ hl).symm
  | code =>
    have hdigits : '\n' ∉ Nat.toDigits 16 c.toNat :=
      notMem_toDigits (by decide) fun _ => Nat.digitChar_ne _ (by decide)
    simpa [codeEscape] using hdigits

end Written

/-! ## Quoted characters -/

/-- A quoted character ends with its closing apostrophe. -/
theorem selfDelimiting_quoteChar : SelfDelimiting fun c => (quoteChar c).toList := by
  intro c d s t h
  simp only [quoteChar, String.toList_ofList, List.cons_append, List.append_assoc,
    List.cons.injEq, true_and] at h
  obtain ⟨hcd, hrest⟩ := (written_escape c).append_inj (written_escape d) h
  exact ⟨hcd, (List.cons.inj hrest).2⟩

/-- A quoted character stays on its line. -/
theorem lineFeed_notMem_quoteChar (c : Char) : '\n' ∉ (quoteChar c).toList := by
  simpa [quoteChar] using (written_escape c).lineFeed_notMem

end PatternMachine.Text
