import Mathlib

/-!
# Gathering results

Several threads add the results they have, one at a time and in any
interleaving, to a list that another thread waits on until it is long enough.

* `Reached.balance`: nothing is lost or counted twice in any interleaving.
* `waitEnds_of_perm`, `length_of_waitEnds`: the wait is released when the last
  result is in, and not before, exactly when it waits for as many as there are.
-/

namespace Base.Gather

variable {α : Type}

/-- What the threads still have to add, and the shared list. -/
structure State (α : Type) where
  left : List (List α)
  got : List α

/-- Before anything was added. -/
def start (threads : List (List α)) : State α := ⟨threads, []⟩

/-- One thread adds its next result. -/
inductive Step : State α → State α → Prop
  | add (before after : List (List α)) (a : α) (rest got : List α) :
      Step ⟨before ++ (a :: rest) :: after, got⟩ ⟨before ++ rest :: after, a :: got⟩

/-- The states that the threads go through. -/
inductive Reached (threads : List (List α)) : State α → Prop
  | start : Reached threads (start threads)
  | step {s t : State α} : Reached threads s → Step s t → Reached threads t

/-- Nothing is left to add. -/
def Done (s : State α) : Prop := ∀ l ∈ s.left, l = []

/-- The wait for `count` results is over when every thread has added what it
had, and not before; what was gathered are then the `expected` results. -/
def WaitEnds (count : Int) (expected : List α) (threads : List (List α)) : Prop :=
  ∀ s, Reached threads s → (count ≤ s.got.length ↔ Done s) ∧ (Done s → s.got.Perm expected)

/-- What is left and what was gathered are together what there was. -/
theorem Reached.balance {threads : List (List α)} {s : State α} (h : Reached threads s) :
    (s.left.flatten ++ s.got).Perm threads.flatten := by
  induction h with
  | start => exact List.Perm.of_eq (List.append_nil _)
  | step _ hstep ih =>
    cases hstep with
    | add before after a rest got =>
      refine List.Perm.trans ?_ ih
      simp only [List.flatten_append, List.flatten_cons, List.append_assoc, List.cons_append]
      refine List.Perm.append_left _ ?_
      have hmove : (rest ++ (after.flatten ++ a :: got)).Perm
          (a :: (rest ++ (after.flatten ++ got))) := by
        rw [← List.append_assoc, ← List.append_assoc]
        exact List.perm_middle
      exact hmove

theorem done_iff {s : State α} : Done s ↔ s.left.flatten = [] := by
  rw [List.flatten_eq_nil_iff]
  rfl

/-- A wait for as many results as there are ends when they are all in. -/
theorem waitEnds_of_perm {threads : List (List α)} {expected : List α}
    (h : threads.flatten.Perm expected) : WaitEnds expected.length expected threads := by
  intro s hs
  have hbal := hs.balance.trans h
  have hlen := hbal.length_eq
  rw [List.length_append] at hlen
  refine ⟨?_, fun hdone => ?_⟩
  · rw [done_iff, ← List.length_eq_zero_iff]
    omega
  · rw [done_iff.mp hdone, List.nil_append] at hbal
    exact hbal

/-- While something is left, some thread can add it. -/
theorem exists_step {s : State α} (h : ¬ Done s) : ∃ t, Step s t := by
  simp only [Done, not_forall] at h
  obtain ⟨l, hl, hne⟩ := h
  obtain ⟨before, after, hleft⟩ := List.append_of_mem hl
  obtain ⟨a, rest, rfl⟩ := List.exists_cons_of_ne_nil hne
  refine ⟨⟨before ++ rest :: after, a :: s.got⟩, ?_⟩
  have hs : s = ⟨before ++ (a :: rest) :: after, s.got⟩ := by
    rw [← hleft]
  rw [hs]
  exact .add before after a rest s.got

/-- Every number of results is gathered at some time. -/
theorem exists_reached {threads : List (List α)} {k : Nat} (hk : k ≤ threads.flatten.length) :
    ∃ s, Reached threads s ∧ s.got.length = k := by
  induction k with
  | zero => exact ⟨_, .start, rfl⟩
  | succ k ih =>
    obtain ⟨s, hs, hgot⟩ := ih (by omega)
    have hlen := hs.balance.length_eq
    rw [List.length_append] at hlen
    have hleft : ¬ Done s := by
      rw [done_iff, ← List.length_eq_zero_iff]
      omega
    obtain ⟨t, ht⟩ := exists_step hleft
    refine ⟨t, hs.step ht, ?_⟩
    cases ht
    rw [List.length_cons, hgot]

/-- A wait that ends with the results waits for as many as there are. -/
theorem length_of_waitEnds {count : Int} {threads : List (List α)} {expected : List α}
    (h : WaitEnds count expected threads) (hne : threads.flatten ≠ []) :
    count = threads.flatten.length := by
  have hpos : 0 < threads.flatten.length := List.length_pos_iff.mpr hne
  obtain ⟨s, hs, hgot⟩ := @exists_reached _ threads (threads.flatten.length - 1) (by omega)
  obtain ⟨t, ht, hall⟩ := @exists_reached _ threads threads.flatten.length (Nat.le_refl _)
  have hslen := hs.balance.length_eq
  have htlen := ht.balance.length_eq
  rw [List.length_append] at hslen htlen
  have hbefore := (h s hs).1.not
  have hafter := (h t ht).1
  rw [done_iff, ← List.length_eq_zero_iff] at hbefore hafter
  have h1 := hbefore.mpr (by omega)
  have h2 := hafter.mpr (by omega)
  omega

end Base.Gather
