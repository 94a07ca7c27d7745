import PatternMachine.Proofs.Pattern.Reader

/-!
# What a reader has read

A run without violation leaves the derivation of what it has read, in which groups and suffixes nest
no deeper than allowed (`Reader.yield_of_run_ending`). Conversely every such derivation is read
without violation (`Reader.run_alternatives`).
-/

namespace PatternMachine.Reader

open Grammar

section

variable {limit : UInt32} {r r' : Reader} {t : Token} {ts : List Token} {v : Violation}

/-! ## What has been read -/

/-- The tokens in front of the content of the innermost one of `groups`. -/
def openedYield : List OpenGroup → List Token.Kind
  | [] => []
  | g :: groups => openedYield groups ++ g.before.yield ++ [.opening]

/-- The tokens that have been read. -/
def yield (r : Reader) : List Token.Kind :=
  openedYield r.groups ++ r.content.yield

/-- There is nothing to repeat behind `(` and `|`, and only there. -/
theorem Reads.operand?_eq_none_iff (h : Reads limit r t r') (hk : t.kind ≠ .ending) :
    r'.content.operand? = none ↔ t.kind = .opening ∨ t.kind = .bar := by
  cases h with
  | char h | any h => simp [push, h]
  | bar h => simp [h, Alternatives.operand?, Sequence.last?]
  | @suffix _ _ _ _ op h _ => cases op <;> simp [h, Suffix.kind]
  | opening h _ => simp [h, Alternatives.operand?, Sequence.last?]
  | closing h _ => simp [h]
  | ending h => exact absurd h hk

/-- A token without violation is read behind those read before. -/
theorem Reads.yield_eq (h : Reads limit r t r') (hk : t.kind ≠ .ending) :
    r'.yield = r.yield ++ [t.kind] := by
  cases h with
  | char h | any h => simp [yield, push, Item.yield, Factor.yield, h]
  | bar h => simp [yield, Alternatives.yield, Sequence.yield, h]
  | suffix h _ => simp [yield, Item.yield, h]
  | opening h _ => simp [yield, openedYield, Alternatives.yield, Sequence.yield, h]
  | closing h _ => simp [yield, openedYield, Item.yield, Factor.yield, h]
  | ending h => exact absurd h hk

/-- Groups and suffixes nest at most `limit` deep in what has been read. -/
structure Within (limit : UInt32) (r : Reader) : Prop where
  content_le : r.content.nesting ≤ limit.toNat
  before_le : ∀ g ∈ r.groups, g.before.nesting ≤ limit.toNat

/-- Reading a token keeps the nesting within the limit. -/
theorem Reads.within (h : Reads limit r t r') (hr : r.Within limit) : r'.Within limit := by
  obtain ⟨hcontent, hbefore⟩ := hr
  cases h with
  | char _ | any _ => exact ⟨by simpa [push, Item.nesting, Factor.nesting], hbefore⟩
  | bar _ => exact ⟨by simpa [Alternatives.nesting, Sequence.nesting] using hcontent, hbefore⟩
  | suffix _ hlt =>
    simp only [Alternatives.nesting_push] at hcontent
    refine ⟨?_, hbefore⟩
    simp only [Alternatives.nesting_push, Item.nesting]
    omega
  | opening _ _ =>
    refine ⟨by simp [Alternatives.nesting, Sequence.nesting], ?_⟩
    intro g hg
    rcases List.mem_cons.1 hg with rfl | hg
    · exact hcontent
    · exact hbefore g hg
  | @closing g _ _ _ _ hlt =>
    have hg := hbefore g List.mem_cons_self
    refine ⟨?_, fun g' hg' => hbefore g' (List.mem_cons_of_mem _ hg')⟩
    simp only [Alternatives.nesting_push, Item.nesting, Factor.nesting]
    omega
  | ending _ => exact ⟨hcontent, hbefore⟩

/-- A group is opened by its parenthesis. -/
theorem Reads.mem_groups (h : Reads limit r t r') {g : OpenGroup} (hg : g ∈ r'.groups) :
    g ∈ r.groups ∨ t.kind = .opening ∧ g.span = t.span := by
  cases h with
  | char _ | any _ | bar _ | suffix _ _ | ending _ => exact .inl hg
  | opening hk _ =>
    rcases List.mem_cons.1 hg with rfl | hg
    · exact .inr ⟨hk, rfl⟩
    · exact .inl hg
  | closing _ _ => exact .inl (List.mem_cons_of_mem _ hg)

/-- So does a run. -/
theorem within_of_run (h : r.run limit ts = .ok r') (hr : r.Within limit) : r'.Within limit := by
  induction ts generalizing r with
  | nil =>
    cases h
    exact hr
  | cons t ts ih =>
    obtain ⟨ht, h⟩ := run_cons_eq_ok_iff.1 h
    exact ih h ((reads_of_no_violation ht).within hr)

/-- A run reads all its tokens, in their order. -/
theorem yield_of_run (h : r.run limit ts = .ok r') (hts : ∀ t ∈ ts, t.kind ≠ .ending) :
    r'.yield = r.yield ++ ts.map (·.kind) := by
  induction ts generalizing r with
  | nil =>
    cases h
    exact (List.append_nil _).symm
  | cons t ts ih =>
    obtain ⟨ht, h⟩ := run_cons_eq_ok_iff.1 h
    rw [ih h fun u hu => hts u (List.mem_cons_of_mem _ hu),
      (reads_of_no_violation ht).yield_eq (hts t List.mem_cons_self), List.map_cons,
      List.append_assoc, List.singleton_append]

/-- A suffix has nothing to repeat at the start, behind `(` and behind `|`. -/
theorem operand?_of_run (h : start.run limit ts = .ok r) (hts : ∀ t ∈ ts, t.kind ≠ .ending) :
    r.content.operand? = none ↔
      ∀ t, ts.getLast? = some t → t.kind = .opening ∨ t.kind = .bar := by
  rcases List.eq_nil_or_concat ts with rfl | ⟨init, t, heq⟩
  · cases h
    simp [start, Alternatives.operand?, Sequence.last?]
  · rw [List.concat_eq_append] at heq
    subst heq
    obtain ⟨q, -, ht⟩ := run_append_eq_ok_iff.1 h
    obtain ⟨hv, ht⟩ := run_cons_eq_ok_iff.1 ht
    cases ht
    rw [(reads_of_no_violation hv).operand?_eq_none_iff (hts t (by simp))]
    simp

/-- A run through a whole pattern leaves its derivation, which nests at most `limit` deep. -/
theorem yield_of_run_ending {e : Token} (he : e.kind = .ending) (hts : ∀ t ∈ ts, t.kind ≠ .ending)
    (h : start.run limit (ts ++ [e]) = .ok r) :
    r.content.yield = ts.map (·.kind) ∧ r.content.nesting ≤ limit.toNat := by
  obtain ⟨q, hq, h⟩ := run_append_eq_ok_iff.1 h
  obtain ⟨hv, h⟩ := run_cons_eq_ok_iff.1 h
  have hyield := yield_of_run hq hts
  have hwithin := within_of_run hq ⟨Nat.zero_le _, by simp [start]⟩
  obtain ⟨groups, content⟩ := q
  have hgroups : groups = [] := by
    cases groups with
    | nil => rfl
    | cons g groups => simp [violation?, he] at hv
  subst hgroups
  have hread : read ⟨[], content⟩ e = ⟨[], content⟩ := by rw [read, he]
  rw [hread] at h
  cases h
  simp only [yield, start, openedYield, List.nil_append, Alternatives.yield, Sequence.yield]
    at hyield
  exact ⟨hyield, hwithin.content_le⟩

/-! ## Places of violations -/

/-- Every open group has been opened by one of the tokens read. -/
theorem exists_opening_of_run (h : r.run limit ts = .ok r') {g : OpenGroup} (hg : g ∈ r'.groups) :
    g ∈ r.groups ∨ ∃ t ∈ ts, t.kind = .opening ∧ g.span = t.span := by
  induction ts generalizing r with
  | nil =>
    cases h
    exact .inl hg
  | cons t ts ih =>
    obtain ⟨ht, h⟩ := run_cons_eq_ok_iff.1 h
    rcases ih h with hin | ⟨u, hu, hopen⟩
    · rcases (reads_of_no_violation ht).mem_groups hin with hin | ⟨hk, hspan⟩
      · exact .inl hin
      · exact .inr ⟨t, List.mem_cons_self, hk, hspan⟩
    · exact .inr ⟨u, List.mem_cons_of_mem _ hu, hopen⟩

/-- No token is ever called unexpected. -/
theorem Breaks.cause_ne (h : Breaks limit r t v) (expected : String) (found : Token.Kind) :
    v.cause ≠ .unexpectedToken expected found := by
  cases h <;> exact nofun

/-- A violation is reported at the token that breaks the rule, or at an open group. -/
theorem Breaks.span_eq (h : Breaks limit r t v) :
    (t.kind ≠ .ending ∧ v.span = t.span) ∨ ∃ g ∈ r.groups, v.span = g.span := by
  cases h with
  | repetitionMissing hk _ | repeatedTooDeep hk _ _ => exact .inl ⟨by simp [hk], rfl⟩
  | groupUnopened hk _ | openedTooDeep hk _ => exact .inl ⟨by simp [hk], rfl⟩
  | @closedTooDeep g _ _ hg _ | @groupUnclosed g _ _ hg => exact .inr ⟨g, by simp [hg], rfl⟩

end

/-! ## Reading a derivation -/

section

variable {limit : UInt32}

mutual

/-- A factor that does not nest too deep is read. -/
theorem run_factor (f : Factor) {ts : List Token} (hts : ts.map (·.kind) = f.yield) (r : Reader)
    (hf : r.groups.length + f.nesting ≤ limit.toNat) (rest : List Token) :
    r.run limit (ts ++ rest) = (r.push (.bare f)).run limit rest := by
  match f with
  | .char c =>
    obtain ⟨t, rfl, ht⟩ := List.map_eq_singleton_iff.1 hts
    rw [List.singleton_append, run_of_no_violation (by simp [violation?, ht]), read, ht]
  | .any =>
    obtain ⟨t, rfl, ht⟩ := List.map_eq_singleton_iff.1 hts
    rw [List.singleton_append, run_of_no_violation (by simp [violation?, ht]), read, ht]
  | .group content =>
    rw [Factor.nesting] at hf
    rw [Factor.yield] at hts
    obtain ⟨us, vs, rfl, hus, hvs⟩ := List.map_eq_append_iff.1 hts
    obtain ⟨t, us, rfl, ht, hus⟩ := List.map_eq_cons_iff.1 hus
    obtain ⟨u, rfl, hu⟩ := List.map_eq_singleton_iff.1 hvs
    have hopen : r.violation? limit t = none := by
      simp only [violation?, ht, ite_eq_right_iff, reduceCtorEq, imp_false]
      omega
    have hread : r.read t = ⟨⟨t.span, r.content⟩ :: r.groups, .single .empty⟩ := by rw [read, ht]
    have hclose : violation? limit ⟨⟨t.span, r.content⟩ :: r.groups, content⟩ u = none := by
      simp only [violation?, hu, ite_eq_right_iff, reduceCtorEq, imp_false]
      omega
    have hcontent := run_alternatives content hus (⟨t.span, r.content⟩ :: r.groups)
      (by rw [List.length_cons]; omega) ([u] ++ rest)
    rw [List.cons_append, List.cons_append, List.append_assoc, run_of_no_violation hopen, hread,
      hcontent, List.singleton_append, run_of_no_violation hclose, read, hu]
    rfl

/-- An item that does not nest too deep is read. -/
theorem run_item (i : Item) {ts : List Token} (hts : ts.map (·.kind) = i.yield) (r : Reader)
    (hi : r.groups.length + i.nesting ≤ limit.toNat) (rest : List Token) :
    r.run limit (ts ++ rest) = (r.push i).run limit rest := by
  match i with
  | .bare f => exact run_factor f hts r hi rest
  | .suffixed i op =>
    rw [Item.nesting] at hi
    rw [Item.yield] at hts
    obtain ⟨us, vs, rfl, hus, hvs⟩ := List.map_eq_append_iff.1 hts
    obtain ⟨t, rfl, ht⟩ := List.map_eq_singleton_iff.1 hvs
    have hv : (r.push i).violation? limit t = none := by
      rw [violation?_of_suffix_some ht Alternatives.operand?_push, if_neg (by omega)]
    rw [List.append_assoc, run_item i hus r (by omega), List.singleton_append,
      run_of_no_violation hv, read_of_suffix ht]
    simp only [push, suffix, Alternatives.suffix_push]

/-- A sequence that does not nest too deep is read. -/
theorem run_sequence (s : Sequence) {ts : List Token} (hts : ts.map (·.kind) = s.yield)
    (groups : List OpenGroup) (before : Option Alternatives)
    (hs : groups.length + s.nesting ≤ limit.toNat) (rest : List Token) :
    run limit ⟨groups, .behind before .empty⟩ (ts ++ rest) =
      run limit ⟨groups, .behind before s⟩ rest := by
  match s with
  | .empty =>
    obtain rfl := List.map_eq_nil_iff.1 hts
    rfl
  | .snoc s i =>
    rw [Sequence.nesting] at hs
    rw [Sequence.yield] at hts
    obtain ⟨us, vs, rfl, hus, hvs⟩ := List.map_eq_append_iff.1 hts
    rw [List.append_assoc, run_sequence s hus groups before (by omega),
      run_item i hvs ⟨groups, .behind before s⟩ (by show groups.length + _ ≤ _; omega), push,
      Alternatives.push_behind]

/-- An alternative that does not nest too deep is read. -/
theorem run_alternatives (a : Alternatives) {ts : List Token} (hts : ts.map (·.kind) = a.yield)
    (groups : List OpenGroup) (ha : groups.length + a.nesting ≤ limit.toNat) (rest : List Token) :
    run limit ⟨groups, .single .empty⟩ (ts ++ rest) = run limit ⟨groups, a⟩ rest := by
  match a with
  | .single s => exact run_sequence s hts groups none ha rest
  | .snoc a s =>
    rw [Alternatives.nesting] at ha
    rw [Alternatives.yield] at hts
    obtain ⟨us, vs, rfl, hus, hvs⟩ := List.map_eq_append_iff.1 hts
    obtain ⟨t, vs, rfl, ht, hvs⟩ := List.map_eq_cons_iff.1 hvs
    have hbar : violation? limit ⟨groups, a⟩ t = none := by simp [violation?, ht]
    have hread : read ⟨groups, a⟩ t = ⟨groups, .behind (some a) .empty⟩ := by rw [read, ht]; rfl
    rw [List.append_assoc, run_alternatives a hus groups (by omega), List.cons_append,
      run_of_no_violation hbar, hread, run_sequence s hvs groups (some a) (by omega)]
    rfl

end

end

end PatternMachine.Reader
