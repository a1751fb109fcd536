import Mathlib

/-!
# Sets changed by additions and removals

A list of deltas changes a set from the first to the last: each adds an element
or removes one.

* **The last word** (`mem_changed_congr`, `mem_changed_of_not_named`): what a list
  of deltas says of an element it names does not depend on the set it began with,
  and the others stay.
* **Repetitions** (`changed_repeated`): a delta that comes again later may be left out.
-/

namespace Base.Deltas

variable {α : Type}

/-- One change of a set. -/
inductive Delta (α : Type) where
  | add (a : α)
  | drop (a : α)
deriving DecidableEq

/-- The element that a delta is about. -/
def Delta.name : Delta α → α
  | add a => a
  | drop a => a

/-- The set after a change. -/
def Delta.apply (s : Set α) : Delta α → Set α
  | add a => insert a s
  | drop a => s \ {a}

/-- The set after all changes. -/
def changed (s : Set α) (ds : List (Delta α)) : Set α := ds.foldl Delta.apply s

/-- Some delta is about the element. -/
def Named (ds : List (Delta α)) (a : α) : Prop := ∃ d ∈ ds, d.name = a

@[simp] theorem changed_nil (s : Set α) : changed s [] = s := rfl

@[simp] theorem changed_cons (s : Set α) (d : Delta α) (ds : List (Delta α)) :
    changed s (d :: ds) = changed (d.apply s) ds := rfl

theorem changed_append (s : Set α) (ds ds' : List (Delta α)) :
    changed s (ds ++ ds') = changed (changed s ds) ds' := List.foldl_append

theorem named_cons {d : Delta α} {ds : List (Delta α)} {a : α} :
    Named (d :: ds) a ↔ d.name = a ∨ Named ds a := by
  constructor
  · rintro ⟨e, he, hname⟩
    obtain rfl | he := List.mem_cons.mp he
    · exact Or.inl hname
    · exact Or.inr ⟨e, he, hname⟩
  · rintro (hname | ⟨e, he, hname⟩)
    · exact ⟨d, List.mem_cons_self, hname⟩
    · exact ⟨e, List.mem_cons_of_mem _ he, hname⟩

section Membership

variable {s s' : Set α} {d : Delta α} {ds : List (Delta α)} {a : α}

theorem mem_apply_of_ne (h : d.name ≠ a) : a ∈ d.apply s ↔ a ∈ s := by
  cases d with
  | add b => exact Set.mem_insert_iff.trans (or_iff_right (Ne.symm h))
  | drop b => exact and_iff_left (Ne.symm h)

theorem mem_apply_self : d.name ∈ d.apply s ↔ d.name ∈ d.apply s' := by
  cases d with
  | add b => exact iff_of_true (Set.mem_insert _ _) (Set.mem_insert _ _)
  | drop b => exact iff_of_false (fun h => h.2 rfl) fun h => h.2 rfl

/-- An element that no delta is about stays where it is. -/
theorem mem_changed_of_not_named (h : ¬Named ds a) : a ∈ changed s ds ↔ a ∈ s := by
  induction ds generalizing s with
  | nil => exact Iff.rfl
  | cons d ds ih =>
    rw [named_cons, not_or] at h
    rw [changed_cons, ih h.2]
    exact mem_apply_of_ne h.1

theorem mem_changed_of_mem_iff (h : a ∈ s ↔ a ∈ s') : a ∈ changed s ds ↔ a ∈ changed s' ds := by
  induction ds generalizing s s' with
  | nil => exact h
  | cons d ds ih =>
    refine ih ?_
    by_cases hd : d.name = a
    · subst hd
      exact mem_apply_self
    · rw [mem_apply_of_ne hd, mem_apply_of_ne hd]
      exact h

/-- The deltas about an element decide on it, wherever they start. -/
theorem mem_changed_congr (h : Named ds a) : a ∈ changed s ds ↔ a ∈ changed s' ds := by
  induction ds generalizing s s' with
  | nil => exact absurd h (by rintro ⟨d, hd, -⟩; cases hd)
  | cons d ds ih =>
    obtain rfl | hrest := named_cons.mp h
    · rw [changed_cons, changed_cons]
      exact mem_changed_of_mem_iff mem_apply_self
    · exact ih hrest

/-- Two sets become the same when they differ in what is named only. -/
theorem changed_eq_iff : changed s ds = changed s' ds ↔ ∀ a, ¬Named ds a → (a ∈ s ↔ a ∈ s') := by
  constructor
  · intro heq a hn
    rw [← @mem_changed_of_not_named _ s _ _ hn, heq, mem_changed_of_not_named hn]
  · intro h
    refine Set.ext fun a => ?_
    by_cases hn : Named ds a
    · exact mem_changed_congr hn
    · exact mem_changed_of_mem_iff (h a hn)

/-- A delta that comes again is not needed before. -/
theorem changed_repeated (ds' : List (Delta α)) :
    changed s (ds ++ d :: (ds' ++ [d])) = changed s (ds ++ (ds' ++ [d])) := by
  rw [changed_append, changed_append, changed_cons]
  refine changed_eq_iff.mpr fun a hn => mem_apply_of_ne fun hd => hn ?_
  exact ⟨d, List.mem_append_right _ List.mem_cons_self, hd⟩

end Membership

end Base.Deltas
