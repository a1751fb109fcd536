import Mathlib

/-!
# Chains of parents

A partial function that gives each element its parent. Where no element is above
itself and there are finitely many, every chain ends.

* **Induction** (`chain_induction`): what holds of an element when it holds of its
  parent holds of all.
* **Walks** (`ends_iff_acyclic`): a loop along the parents ends for all elements of a
  list exactly when there is no circle.
* **Shares** (`sum_shares`): a weight divided among the children of an element.
-/

namespace Base.Chains

variable {α : Type*}

/-- `b` is the parent of `a`. -/
def Up (up : α → Option α) (a b : α) : Prop := up a = some b

/-- No element is above itself. -/
def Acyclic (up : α → Option α) : Prop := ∀ a, ¬Relation.TransGen (Up up) a a

/-- An element without a cycle is not its own parent. -/
theorem Acyclic.ne {up : α → Option α} (h : Acyclic up) {a b : α} (hab : up a = some b) :
    a ≠ b := by
  rintro rfl
  exact h a (.single hab)

/-- Where a rank falls from every element to its parent, there is no cycle. -/
theorem acyclic_of_rank {up : α → Option α} (rank : α → Nat)
    (h : ∀ a b, up a = some b → rank b < rank a) : Acyclic up := by
  have hfalls : ∀ a b, Relation.TransGen (Up up) a b → rank b < rank a := by
    intro a b hab
    induction hab with
    | single hab => exact h _ _ hab
    | tail _ hbc ih => exact (h _ _ hbc).trans ih
  exact fun a ha => Nat.lt_irrefl _ (hfalls a a ha)

/-- Induction along the chains of a list that is closed under parents. -/
theorem chain_induction {up : α → Option α} (hacyclic : Acyclic up) {l : List α}
    (hclosed : ∀ a ∈ l, ∀ b, up a = some b → b ∈ l) {P : α → Prop}
    (step : ∀ a ∈ l, (∀ b, up a = some b → P b) → P a) : ∀ a ∈ l, P a := by
  classical
  -- below, in the list: well founded, since the list is finite
  let below : {a // a ∈ l} → {a // a ∈ l} → Prop := fun b a =>
    Relation.TransGen (Up up) a.1 b.1
  have : Finite {a // a ∈ l} := (List.finite_toSet l).to_subtype
  have : IsTrans {a // a ∈ l} below := ⟨fun _ _ _ hab hbc => hbc.trans hab⟩
  have : Std.Irrefl below := ⟨fun a ha => hacyclic a.1 ha⟩
  have hwf : WellFounded below := Finite.wellFounded_of_trans_of_irrefl below
  intro a ha
  have hall : ∀ x : {a // a ∈ l}, P x.1 := by
    intro x
    induction x using hwf.induction with
    | _ x ih =>
      refine step x.1 x.2 fun b hb => ?_
      exact ih ⟨b, hclosed x.1 x.2 b hb⟩ (.single hb)
  exact hall ⟨a, ha⟩

/-- Whether the walk from an element to its parents ends within so many elements. -/
def ends (up : α → Option α) : Nat → α → Bool
  | 0, _ => false
  | n + 1, a =>
    match up a with
    | none => true
    | some b => ends up n b

/-- A walk around a circle does not end. -/
theorem ends_of_circle {up : α → Option α} (n : Nat) {a : α}
    (h : Relation.TransGen (Up up) a a) : ends up n a = false := by
  induction n generalizing a with
  | zero => rfl
  | succ n ih =>
    obtain ⟨b, hab, hba⟩ := Relation.TransGen.head'_iff.mp h
    have hup : up a = some b := hab
    rw [ends, hup]
    exact ih (Relation.TransGen.tail' hba hab)

/-- The elements of a walk that is not at its end yet, each above the ones before it. -/
theorem exists_walk {up : α → Option α} {l : List α}
    (hclosed : ∀ a ∈ l, ∀ b, up a = some b → b ∈ l) {n : Nat} {a : α} (ha : a ∈ l)
    (h : ends up n a = false) :
    ∃ walk : List α, walk.length = n + 1 ∧ walk ⊆ l ∧
      walk.Pairwise (Relation.TransGen (Up up)) ∧
      ∀ b ∈ walk, Relation.ReflTransGen (Up up) a b := by
  induction n generalizing a with
  | zero =>
    refine ⟨[a], rfl, List.cons_subset.mpr ⟨ha, List.nil_subset _⟩,
      List.pairwise_singleton _ _, ?_⟩
    intro b hb
    rw [List.mem_singleton.mp hb]
  | succ n ih =>
    rw [ends] at h
    cases hup : up a with
    | none =>
      rw [hup] at h
      cases h
    | some b =>
      rw [hup] at h
      obtain ⟨walk, hlen, hsub, hpair, hreach⟩ := ih (hclosed a ha b hup) h
      have habove : ∀ c ∈ walk, Relation.TransGen (Up up) a c := fun c hc =>
        Relation.TransGen.head' hup (hreach c hc)
      refine ⟨a :: walk, by rw [List.length_cons, hlen], List.cons_subset.mpr ⟨ha, hsub⟩,
        List.pairwise_cons.mpr ⟨habove, hpair⟩, ?_⟩
      intro c hc
      obtain rfl | hc := List.mem_cons.mp hc
      · exact .refl
      · exact (habove c hc).to_reflTransGen

/-- As many steps as the list has elements are enough where there is no circle. -/
theorem ends_iff_acyclic {up : α → Option α} {l : List α}
    (hclosed : ∀ a ∈ l, ∀ b, up a = some b → b ∈ l) (hout : ∀ a, a ∉ l → up a = none) :
    (∀ a ∈ l, ends up l.length a = true) ↔ Acyclic up := by
  constructor
  · intro h a hcircle
    by_cases ha : a ∈ l
    · exact Bool.false_ne_true ((ends_of_circle _ hcircle).symm.trans (h a ha))
    · obtain ⟨b, hab, -⟩ := Relation.TransGen.head'_iff.mp hcircle
      have hup : up a = some b := hab
      rw [hout a ha] at hup
      cases hup
  · intro hacyclic a ha
    by_contra hends
    obtain ⟨walk, hlen, hsub, hpair, -⟩ := exists_walk hclosed ha (Bool.eq_false_iff.mpr hends)
    -- no element comes twice, so the walk is longer than the list
    have hnodup : walk.Nodup := by
      refine List.Pairwise.imp (fun {b c} hbc => ?_) hpair
      rintro rfl
      exact hacyclic b hbc
    have hle := (List.subperm_of_subset hnodup hsub).length_le
    omega

/-- What is divided by weight among the children of an element adds up to it. -/
theorem sum_shares {K : Type*} [Field K] {w v : α → K} {children : List α} {x : K}
    (hv : ∀ c ∈ children, v c = w c / (children.map w).sum * x)
    (hsum : (children.map w).sum ≠ 0) : (children.map v).sum = x := by
  have hmap : children.map v = children.map fun c => w c * (x / (children.map w).sum) := by
    refine List.map_congr_left fun c hc => ?_
    rw [hv c hc]
    ring
  rw [hmap, List.sum_map_mul_right, mul_div_cancel₀ _ hsum]

end Base.Chains
