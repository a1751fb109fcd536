import Mathlib

/-!
# Folding for the best and its owner

An accumulator goes through a collection one item at a time, keeps the best
value met so far and the owner of it, and takes an owner from a later item while
it has none.

* **Laws** (`Laws`): what a step does, told by whether the accumulator holds the
  best value already.
* **Value** (`at_final`): every order ends at the best value.
* **Owner** (`owner_of_settled`, `exists_orders_of_not_settled`): in every order
  the accumulator ends with an owner of the best value exactly when no item with
  the best value and no owner stands beside an item with another owner.
-/

namespace Base.Best

open Classical

variable {σ ρ ω : Type}

/-- An accumulator, what it does with an item, and the owners of both. -/
structure Race (σ ρ ω : Type) where
  start : σ
  step : σ → ρ → σ
  who : σ → Option ω
  own : ρ → Option ω

/-- The accumulator after a list of items. -/
def Race.final (R : Race σ ρ ω) (rs : List ρ) : σ := rs.foldl R.step R.start

theorem Race.final_append_cons (R : Race σ ρ ω) (xs ys : List ρ) (r : ρ) :
    R.final (xs ++ r :: ys) = ys.foldl R.step (R.step (R.final xs) r) := by
  rw [Race.final, List.foldl_append, List.foldl_cons, Race.final]

/-- What the steps do over the items `rs`: `At` holds of an accumulator with the
best value, `Holder` of an item with it. -/
structure Laws (R : Race σ ρ ω) (At : σ → Prop) (Holder : ρ → Prop) (rs : List ρ) : Prop where
  /-- The first item is taken with its owner. -/
  first : ∀ r ∈ rs, Holder r → At (R.step R.start r) ∧ R.who (R.step R.start r) = R.own r
  /-- The best value stays, an owner is only filled in. -/
  keep : ∀ s, ∀ r ∈ rs, At s → At (R.step s r) ∧ R.who (R.step s r) = (R.who s).or (R.own r)
  /-- The best value is reached with the owner of the item that has it. -/
  take : ∀ s, ∀ r ∈ rs, ¬At s → At (R.step s r) → Holder r ∧ R.who (R.step s r) = R.own r
  /-- Some item brings the best value after any of the others. -/
  sure : (∃ r ∈ rs, Holder r) → ∃ h ∈ rs, Holder h ∧
    ∀ xs : List ρ, (∀ x ∈ xs, x ∈ rs) → ¬At (R.final xs) →
      At (R.step (R.final xs) h) ∧ R.who (R.step (R.final xs) h) = R.own h
  /-- At the start the best value is held only when every item has it. -/
  unstarted : At R.start → ∀ r ∈ rs, Holder r

/-- An item with the best value and no owner leaves no choice of another owner. -/
def Settled (own : ρ → Option ω) (Holder : ρ → Prop) (rs : List ρ) : Prop :=
  (∃ h ∈ rs, Holder h ∧ own h = none) →
    ∀ s ∈ rs, ∀ o, own s = some o → ∃ h ∈ rs, Holder h ∧ own h = some o

variable {R : Race σ ρ ω} {At : σ → Prop} {Holder : ρ → Prop} {rs : List ρ}

/-- What an accumulator with the best value knows of its owner. -/
def Known (R : Race σ ρ ω) (At : σ → Prop) (Holder : ρ → Prop) (rs : List ρ) (s : σ) : Prop :=
  At s → (∃ h ∈ rs, Holder h ∧ R.own h = R.who s) ∨
    (∃ h ∈ rs, Holder h ∧ R.own h = none) ∧ ∃ r ∈ rs, R.own r = R.who s

theorem Laws.known_step (hl : Laws R At Holder rs) {s : σ} {r : ρ} (hr : r ∈ rs)
    (hs : Known R At Holder rs s) : Known R At Holder rs (R.step s r) := by
  intro hat
  by_cases hbefore : At s
  · have hwho := (hl.keep s r hr hbefore).2
    cases hown : R.who s with
    | some o =>
      rw [hwho, hown, Option.some_or]
      rw [← hown]
      exact hs hbefore
    | none =>
      rw [hwho, hown, Option.none_or]
      refine Or.inr ⟨?_, r, hr, rfl⟩
      obtain ⟨h, hmem, hh, ho⟩ | ⟨hnone, -⟩ := hs hbefore
      · exact ⟨h, hmem, hh, ho.trans hown⟩
      · exact hnone
  · obtain ⟨hh, hwho⟩ := hl.take s r hr hbefore hat
    exact Or.inl ⟨r, hr, hh, hwho.symm⟩

theorem Laws.known_foldl (hl : Laws R At Holder rs) {xs : List ρ} {s : σ}
    (hxs : ∀ x ∈ xs, x ∈ rs) (hs : Known R At Holder rs s) :
    Known R At Holder rs (xs.foldl R.step s) := by
  induction xs generalizing s with
  | nil => exact hs
  | cons x xs ih =>
    rw [List.foldl_cons]
    exact ih (fun y hy => hxs y (List.mem_cons_of_mem _ hy))
      (hl.known_step (hxs x List.mem_cons_self) hs)

/-- An accumulator that ends with the best value ends with an owner of it. -/
theorem Laws.owner_of_settled (hl : Laws R At Holder rs) (hs : Settled R.own Holder rs)
    {xs : List ρ} (hne : xs ≠ []) (hxs : ∀ x ∈ xs, x ∈ rs) (hat : At (R.final xs)) :
    ∃ h ∈ rs, Holder h ∧ R.own h = R.who (R.final xs) := by
  obtain ⟨x, rest, rfl⟩ := List.exists_cons_of_ne_nil hne
  have hx := hxs x List.mem_cons_self
  have hfirst : Known R At Holder rs (R.step R.start x) := by
    intro hone
    by_cases hh : Holder x
    · exact Or.inl ⟨x, hx, hh, ((hl.first x hx hh).2).symm⟩
    · have hstart : ¬At R.start := fun h => hh (hl.unstarted h x hx)
      exact absurd (hl.take _ x hx hstart hone).1 hh
  have hknown := hl.known_foldl (fun y hy => hxs y (List.mem_cons_of_mem _ hy)) hfirst
  obtain hdone | ⟨hnone, r, hr, hown⟩ := hknown hat
  · exact hdone
  · cases hwho : R.who ((x :: rest).foldl R.step R.start) with
    | none =>
      obtain ⟨h, hmem, hh, ho⟩ := hnone
      exact ⟨h, hmem, hh, ho.trans hwho.symm⟩
    | some o =>
      obtain ⟨h, hmem, hh, ho⟩ := hs hnone r hr o (hown.trans hwho)
      exact ⟨h, hmem, hh, ho.trans hwho.symm⟩

/-- Every order of the items ends at the best value. -/
theorem Laws.at_final (hl : Laws R At Holder rs) (hex : ∃ r ∈ rs, Holder r) {xs : List ρ}
    (hperm : xs.Perm rs) : At (R.final xs) := by
  obtain ⟨h, hh, -, hsure⟩ := hl.sure hex
  have hxs : ∀ x ∈ xs, x ∈ rs := fun x hx => hperm.subset hx
  obtain ⟨before, after, rfl⟩ := List.append_of_mem (hperm.mem_iff.mpr hh)
  have hbefore : ∀ x ∈ before, x ∈ rs := fun x hx => hxs x (List.mem_append_left _ hx)
  have hafter : ∀ x ∈ after, x ∈ rs := fun x hx =>
    hxs x (List.mem_append_right _ (List.mem_cons_of_mem _ hx))
  have hat : At (R.step (R.final before) h) := by
    by_cases hb : At (R.final before)
    · exact (hl.keep _ h hh hb).1
    · exact (hsure before hbefore hb).1
  rw [R.final_append_cons]
  clear hbefore hxs hperm
  generalize R.step (R.final before) h = s at hat
  induction after generalizing s with
  | nil => exact hat
  | cons x after ih =>
    exact ih (fun y hy => hafter y (List.mem_cons_of_mem _ hy)) _
      (hl.keep s x (hafter x List.mem_cons_self) hat).1

/-- Once at the best value with an owner, the accumulator keeps both. -/
theorem Laws.foldl_some (hl : Laws R At Holder rs) {xs : List ρ} {s : σ} {o : ω}
    (hxs : ∀ x ∈ xs, x ∈ rs) (hat : At s) (hwho : R.who s = some o) :
    At (xs.foldl R.step s) ∧ R.who (xs.foldl R.step s) = some o := by
  induction xs generalizing s with
  | nil => exact ⟨hat, hwho⟩
  | cons x xs ih =>
    have hstep := hl.keep s x (hxs x List.mem_cons_self) hat
    refine ih (fun y hy => hxs y (List.mem_cons_of_mem _ hy)) hstep.1 ?_
    rw [hstep.2, hwho, Option.some_or]

/-- At the best value, items without an owner change nothing. -/
theorem Laws.foldl_none (hl : Laws R At Holder rs) {xs : List ρ} {s : σ}
    (hxs : ∀ x ∈ xs, x ∈ rs ∧ R.own x = none) (hat : At s) (hwho : R.who s = none) :
    At (xs.foldl R.step s) ∧ R.who (xs.foldl R.step s) = none := by
  induction xs generalizing s with
  | nil => exact ⟨hat, hwho⟩
  | cons x xs ih =>
    have hx := hxs x List.mem_cons_self
    have hstep := hl.keep s x hx.1 hat
    refine ih (fun y hy => hxs y (List.mem_cons_of_mem _ hy)) hstep.1 ?_
    rw [hstep.2, hwho, Option.none_or, hx.2]

/-- Without the best value among the items it is not reached. -/
theorem Laws.not_at_foldl (hl : Laws R At Holder rs) {xs : List ρ} {s : σ}
    (hxs : ∀ x ∈ xs, x ∈ rs ∧ ¬Holder x) (hs : ¬At s) : ¬At (xs.foldl R.step s) := by
  induction xs generalizing s with
  | nil => exact hs
  | cons x xs ih =>
    have hx := hxs x List.mem_cons_self
    refine ih (fun y hy => hxs y (List.mem_cons_of_mem _ hy)) ?_
    intro hat
    exact hx.2 (hl.take s x hx.1 hs hat).1

/-- Otherwise two orders end at the best value with owners that are no tie: one
of them is no owner of the best value, and the other is different. -/
theorem Laws.exists_orders_of_not_settled (hl : Laws R At Holder rs)
    (hs : ¬Settled R.own Holder rs) :
    ∃ xs ys, xs.Perm rs ∧ ys.Perm rs ∧ At (R.final xs) ∧ At (R.final ys) ∧
      (∀ h ∈ rs, Holder h → R.own h ≠ R.who (R.final xs)) ∧
      R.who (R.final xs) ≠ R.who (R.final ys) := by
  unfold Settled at hs
  push Not at hs
  obtain ⟨⟨h, hh, hhold, hnone⟩, s, hsmem, o, ho, hother⟩ := hs
  have hne : s ≠ h := by
    rintro rfl
    rw [hnone] at ho
    cases ho
  -- first the item without an owner, then the one with another owner
  have hperm : (h :: s :: (rs.erase h).erase s).Perm rs := by
    have h1 := List.perm_cons_erase ((List.mem_erase_of_ne hne).mpr hsmem)
    exact ((h1.symm.cons h).trans (List.perm_cons_erase hh).symm)
  have hfirst := hl.first h hh hhold
  have hsecond := hl.keep _ s hsmem hfirst.1
  rw [hfirst.2, hnone, Option.none_or, ho] at hsecond
  have hsub : ∀ x ∈ (rs.erase h).erase s, x ∈ rs :=
    fun x hx => List.mem_of_mem_erase (List.mem_of_mem_erase hx)
  have hxs := hl.foldl_some hsub hsecond.1 hsecond.2
  have hxwho : R.who (R.final (h :: s :: (rs.erase h).erase s)) = some o := hxs.2
  by_cases hsome : ∃ g ∈ rs, Holder g ∧ R.own g ≠ none
  · obtain ⟨g, hg, hghold, hgown⟩ := hsome
    obtain ⟨o', ho'⟩ := Option.ne_none_iff_exists'.mp hgown
    have hgfirst := hl.first g hg hghold
    have hrest : ∀ x ∈ rs.erase g, x ∈ rs := fun x hx => List.mem_of_mem_erase hx
    have hys := hl.foldl_some hrest hgfirst.1 (hgfirst.2.trans ho')
    refine ⟨_, g :: rs.erase g, hperm, (List.perm_cons_erase hg).symm, hxs.1, hys.1, ?_, ?_⟩
    · rw [hxwho]
      exact hother
    · rw [hxwho]
      intro heq
      have : R.own g = some o := ho'.trans (hys.2.symm.trans heq.symm)
      exact hother g hg hghold this
  · -- no owner of the best value: the items without it first
    push Not at hsome
    have hshold : ¬Holder s := fun hsh => hother s hsmem hsh ho
    have hstart : ¬At R.start := fun hat => hshold (hl.unstarted hat s hsmem)
    obtain ⟨g, hg, hghold, hsure⟩ := hl.sure ⟨h, hh, hhold⟩
    have hbefore : ∀ x ∈ rs.filter (fun x => ¬Holder x), x ∈ rs ∧ ¬Holder x := by
      intro x hx
      obtain ⟨hmem, hx⟩ := List.mem_filter.mp hx
      exact ⟨hmem, of_decide_eq_true hx⟩
    have hnot := hl.not_at_foldl hbefore hstart
    have htaken := hsure _ (fun x hx => (hbefore x hx).1) hnot
    have hgmem : g ∈ rs.filter (fun x => Holder x) :=
      List.mem_filter.mpr ⟨hg, decide_eq_true hghold⟩
    have hafter : ∀ x ∈ (rs.filter (fun x => Holder x)).erase g, x ∈ rs ∧ R.own x = none := by
      intro x hx
      obtain ⟨hmem, hx⟩ := List.mem_filter.mp (List.mem_of_mem_erase hx)
      exact ⟨hmem, hsome x hmem (of_decide_eq_true hx)⟩
    have hys := hl.foldl_none hafter htaken.1 (htaken.2.trans (hsome g hg hghold))
    have hyperm : (rs.filter (fun x => ¬Holder x) ++
        g :: (rs.filter (fun x => Holder x)).erase g).Perm rs := by
      have h1 := (List.perm_cons_erase hgmem).symm
      have h2 := (h1.append_left (rs.filter (fun x => ¬Holder x))).trans List.perm_append_comm
      refine h2.trans ?_
      have h3 := List.filter_append_perm (fun x => decide (Holder x)) rs
      refine List.Perm.trans (List.Perm.of_eq ?_) h3
      congr 1
      exact List.filter_congr fun x _ => by simp
    refine ⟨_, _, hperm, hyperm, hxs.1, ?_, ?_, ?_⟩
    · rw [R.final_append_cons]
      exact hys.1
    · rw [hxwho]
      exact hother
    · rw [hxwho, R.final_append_cons, hys.2]
      exact Option.some_ne_none o

end Base.Best
