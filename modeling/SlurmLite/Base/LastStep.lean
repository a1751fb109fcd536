import Mathlib.Data.List.Basic

/-!
# What the last step of a kind leaves

A fold whose steps each say a thing anew or leave it alone: behind it the thing
is what the last step that says it has said, and what it was where no step does.
-/

namespace Base.LastStep

variable {σ α : Type} {step : σ → α → Option σ} {gives : α → Prop} {a b : α} {as : List α}
  {s s' : σ}

/-- The last element of a list that has the property. -/
def Last (gives : α → Prop) (as : List α) (a : α) : Prop :=
  ∃ before behind, as = before ++ a :: behind ∧ gives a ∧ ∀ b ∈ behind, ¬ gives b

theorem Last.mem (h : Last gives as a) : a ∈ as := by
  obtain ⟨before, behind, rfl, -, -⟩ := h
  exact List.mem_append_right _ List.mem_cons_self

theorem last_cons :
    Last gives (b :: as) a ↔ Last gives as a ∨ a = b ∧ gives b ∧ ∀ c ∈ as, ¬ gives c := by
  constructor
  · rintro ⟨before, behind, h, ha, hbehind⟩
    rcases before with _ | ⟨c, before⟩
    · obtain ⟨rfl, rfl⟩ := List.cons.inj h
      exact Or.inr ⟨rfl, ha, hbehind⟩
    · obtain ⟨rfl, rfl⟩ := List.cons.inj h
      exact Or.inl ⟨before, behind, rfl, ha, hbehind⟩
  · rintro (⟨before, behind, rfl, ha, hbehind⟩ | ⟨rfl, ha, hbehind⟩)
    · exact ⟨b :: before, behind, rfl, ha, hbehind⟩
    · exact ⟨[], as, rfl, ha, hbehind⟩

theorem exists_last (h : ∃ a ∈ as, gives a) : ∃ a, Last gives as a := by
  induction as with
  | nil =>
    obtain ⟨a, ha, -⟩ := h
    exact absurd ha List.not_mem_nil
  | cons b as ih =>
    by_cases hlater : ∃ c ∈ as, gives c
    · obtain ⟨a, ha⟩ := ih hlater
      exact ⟨a, last_cons.mpr (Or.inl ha)⟩
    · obtain ⟨a, ha, hgives⟩ := h
      obtain rfl | ha := List.mem_cons.mp ha
      · exact ⟨a, last_cons.mpr (Or.inr ⟨rfl, hgives, fun c hc hg => hlater ⟨c, hc, hg⟩⟩)⟩
      · exact absurd ⟨a, ha, hgives⟩ hlater

/-- What holds behind a fold was said last, or held before it. -/
theorem foldlM_iff (gives tells : α → Prop) (holds : σ → Prop)
    (hsaid : ∀ {s a s'}, step s a = some s' → gives a → (holds s' ↔ tells a))
    (hleaves : ∀ {s a s'}, step s a = some s' → ¬ gives a → (holds s' ↔ holds s))
    (h : as.foldlM step s = some s') :
    holds s' ↔ (∀ a, Last gives as a → tells a) ∧ ((∀ a ∈ as, ¬ gives a) → holds s) := by
  induction as generalizing s with
  | nil =>
    obtain rfl := Option.some.inj h
    refine ⟨fun hs => ⟨fun a ha => absurd ha.mem List.not_mem_nil, fun _ => hs⟩, fun hs => ?_⟩
    exact hs.2 fun a ha => absurd ha List.not_mem_nil
  | cons b as ih =>
    rw [List.foldlM_cons] at h
    obtain ⟨next, hnext, h⟩ := Option.bind_eq_some_iff.mp h
    rw [ih h]
    simp only [last_cons, List.forall_mem_cons]
    -- a later step says it, this one does, or none
    by_cases hlater : ∀ c ∈ as, ¬ gives c
    · by_cases hb : gives b
      · rw [hsaid hnext hb]
        constructor
        · rintro ⟨hlast, hsaid⟩
          refine ⟨?_, fun hnone => absurd hb hnone.1⟩
          rintro a (ha | ⟨rfl, -⟩)
          · exact hlast a ha
          · exact hsaid hlater
        · rintro ⟨hlast, -⟩
          exact ⟨fun a ha => hlast a (Or.inl ha), fun _ => hlast b (Or.inr ⟨rfl, hb, hlater⟩)⟩
      · rw [hleaves hnext hb]
        constructor
        · rintro ⟨hlast, hheld⟩
          refine ⟨?_, fun _ => hheld hlater⟩
          rintro a (ha | ⟨-, hgives, -⟩)
          · exact hlast a ha
          · exact absurd hgives hb
        · rintro ⟨hlast, hheld⟩
          exact ⟨fun a ha => hlast a (Or.inl ha), fun _ => hheld ⟨hb, hlater⟩⟩
    · constructor
      · rintro ⟨hlast, -⟩
        refine ⟨?_, fun hnone => absurd hnone.2 hlater⟩
        rintro a (ha | ⟨-, -, hnone⟩)
        · exact hlast a ha
        · exact absurd hnone hlater
      · rintro ⟨hlast, -⟩
        exact ⟨fun a ha => hlast a (Or.inl ha), fun hnone => absurd hnone hlater⟩

end Base.LastStep
