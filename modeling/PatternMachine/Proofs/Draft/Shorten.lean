import PatternMachine.Draft.Shorten
import PatternMachine.Proofs.Draft.Jumps

/-!
# Shortening keeps the answers

The three simplifications of `Edit.shorten` one after the other: each of them leaves a draft to
which the one before reduces, and in which every edge still lands.
-/

namespace PatternMachine.Draft

variable {d e : Draft}

/-- To shorten a draft is to apply the three simplifications to it. -/
theorem shorten_eq_ok_iff {savings : Savings} : Edit.shorten.run d = .ok savings e ↔
    ∃ d₁ d₂, Edit.skipNops.run d = .ok () d₁ ∧ Edit.shortcutJumps.run d₁ = .ok () d₂ ∧
      Edit.dropDeadJumps.run d₂ = .ok () e ∧ savings = ⟨d.size, d₁.size, e.size⟩ := by
  have hget : ∀ d : Draft, (MonadState.get : Edit Draft).run d = .ok d d := fun _ => rfl
  simp only [Edit.shorten, EStateM.run_bind, hget]
  refine ⟨fun h => ?_, ?_⟩
  · cases hskip : Edit.skipNops.run d with
    | error fault d₁ => simp only [hskip, reduceCtorEq] at h
    | ok _ d₁ =>
      cases hshort : Edit.shortcutJumps.run d₁ with
      | error fault d₂ => simp only [hskip, hshort, reduceCtorEq] at h
      | ok _ d₂ =>
        cases hdrop : Edit.dropDeadJumps.run d₂ with
        | error fault d₃ => simp only [hskip, hshort, hdrop, reduceCtorEq] at h
        | ok _ d₃ =>
          simp only [hskip, hshort, hdrop] at h
          cases h
          exact ⟨d₁, d₂, rfl, hshort, hdrop, rfl⟩
  · rintro ⟨d₁, d₂, hskip, hshort, hdrop, rfl⟩
    simp only [hskip, hshort, hdrop]
    rfl

/-- Where every placed instruction lands, it still does so once silent instructions are left
out. -/
theorem Reduces.lands (h : Reduces d e) (hland : ∀ x ∈ d.order, ∃ y, d.LandsOn x y) :
    ∀ x ∈ e.order, ∃ y, e.LandsOn x y := by
  intro x hx
  obtain ⟨y, hy⟩ := hland x (h.mem hx)
  exact ⟨y, (h.landing hx y).1 hy⟩

/-- Every sound draft whose edges all land can be shortened, and this keeps the answers. -/
theorem Sound.shorten_eq_ok (hd : d.Sound) (hland : ∀ x ∈ d.order, ∃ y, d.LandsOn x y) :
    ∃ savings e, Edit.shorten.run d = .ok savings e ∧ Reduces d e := by
  obtain ⟨d₁, heq₁, hred₁⟩ := hd.skipNops_eq_ok
  obtain ⟨d₂, heq₂, hred₂⟩ := hred₁.right.shortcutJumps_eq_ok (hred₁.lands hland)
  obtain ⟨d₃, heq₃, hred₃⟩ := hred₂.right.dropDeadJumps_eq_ok
  exact ⟨⟨d.size, d₁.size, d₃.size⟩, d₃, shorten_eq_ok_iff.2 ⟨d₁, d₂, heq₁, heq₂, heq₃, rfl⟩,
    (hred₁.trans hred₂).trans hred₃⟩

end PatternMachine.Draft
