import Mathlib

/-!
# Searching by index

Functions that search a sequence from the front or the back and return the
index of what they find, or -1. `test i` says whether place `i` is wanted.

* **Meaning**: `IsLowest` and `IsHighest`, for any property of indices; a lowest result is
  the only one.
* **One place**: `lowest` and `highest`, the scans place by place.
* **A run of places**: `firstRun` counts the places in a row and may give up
  at a place that is not wanted (`firstRun_spec`).
-/

namespace Base.Search

/-- `r` is the lowest index with the property, or -1 when there is none. -/
def IsLowest (P : Nat → Prop) (r : Int) : Prop :=
  (∃ i : Nat, r = i ∧ P i ∧ ∀ j < i, ¬ P j) ∨ (r = -1 ∧ ∀ i, ¬ P i)

/-- `r` is the highest index with the property, or -1 when there is none. -/
def IsHighest (P : Nat → Prop) (r : Int) : Prop :=
  (∃ i : Nat, r = i ∧ P i ∧ ∀ j, i < j → ¬ P j) ∨ (r = -1 ∧ ∀ i, ¬ P i)

theorem IsLowest.congr {P Q : Nat → Prop} (h : ∀ i, P i ↔ Q i) {r : Int} (hr : IsLowest P r) :
    IsLowest Q r := by
  have hPQ : P = Q := funext fun i => propext (h i)
  rwa [← hPQ]

theorem IsLowest.unique {P : Nat → Prop} {r r' : Int} (h : IsLowest P r) (h' : IsLowest P r') :
    r = r' := by
  obtain ⟨i, rfl, hi, hmin⟩ | ⟨rfl, hnone⟩ := h <;>
    obtain ⟨j, rfl, hj, hmin'⟩ | ⟨rfl, hnone'⟩ := h'
  · have hij : i = j := by
      apply Nat.le_antisymm
      · exact Nat.le_of_not_lt fun hlt => hmin j hlt hj
      · exact Nat.le_of_not_lt fun hlt => hmin' i hlt hi
    rw [hij]
  · exact absurd hi (hnone' i)
  · exact absurd hj (hnone j)
  · rfl

/-- A property that holds somewhere has a lowest place. -/
theorem exists_lowest {P : Nat → Prop} (h : ∃ i, P i) : ∃ i, P i ∧ ∀ j < i, ¬ P j := by
  classical
  exact ⟨Nat.find h, Nat.find_spec h, fun j hj => Nat.find_min h hj⟩

/-! ## One place -/

/-- The first of the `k` places from `i` on that is wanted. -/
def lowest (test : Nat → Bool) : Nat → Nat → Int
  | 0, _ => -1
  | k + 1, i => if test i then i else lowest test k (i + 1)

/-- The last of the first `k` places that is wanted. -/
def highest (test : Nat → Bool) : Nat → Int
  | 0 => -1
  | k + 1 => if test k then k else highest test k

theorem lowest_spec (test : Nat → Bool) (k i : Nat) :
    IsLowest (fun j => i ≤ j ∧ j < i + k ∧ test j = true) (lowest test k i) := by
  induction k generalizing i with
  | zero => exact Or.inr ⟨rfl, by rintro j ⟨hlo, hhi, -⟩; omega⟩
  | succ k ih =>
    rw [lowest]
    split
    · rename_i htest
      exact Or.inl ⟨i, rfl, ⟨Nat.le_refl _, by omega, htest⟩, fun j hj h => by omega⟩
    · rename_i htest
      have hskip : ∀ j, (i + 1 ≤ j ∧ j < i + 1 + k ∧ test j = true) ↔
          (i ≤ j ∧ j < i + (k + 1) ∧ test j = true) := by
        intro j
        constructor
        · rintro ⟨hlo, hhi, hj⟩
          exact ⟨by omega, by omega, hj⟩
        · rintro ⟨hlo, hhi, hj⟩
          have hne : i ≠ j := by
            rintro rfl
            exact htest hj
          exact ⟨by omega, by omega, hj⟩
      exact (ih (i + 1)).congr hskip

theorem lowest_of_none {test : Nat → Bool} {k i : Nat}
    (h : ∀ j, i ≤ j → j < i + k → test j = false) : lowest test k i = -1 := by
  refine (lowest_spec test k i).unique (Or.inr ⟨rfl, ?_⟩)
  rintro j ⟨hlo, hhi, hj⟩
  rw [h j hlo hhi] at hj
  cases hj

theorem lowest_of_first {test : Nat → Bool} {k i j : Nat} (hlo : i ≤ j) (hhi : j < i + k)
    (hj : test j = true) (hfirst : ∀ l, i ≤ l → l < j → test l = false) :
    lowest test k i = j := by
  refine (lowest_spec test k i).unique (Or.inl ⟨j, rfl, ⟨hlo, hhi, hj⟩, ?_⟩)
  rintro l hl ⟨hle, -, htest⟩
  rw [hfirst l hle hl] at htest
  cases htest

theorem highest_spec (test : Nat → Bool) (k : Nat) :
    IsHighest (fun j => j < k ∧ test j = true) (highest test k) := by
  induction k with
  | zero => exact Or.inr ⟨rfl, by rintro j ⟨hj, -⟩; omega⟩
  | succ k ih =>
    rw [highest]
    split
    · rename_i htest
      exact Or.inl ⟨k, rfl, ⟨Nat.lt_succ_self k, htest⟩, fun j hj h => by omega⟩
    · rename_i htest
      have hskip : (fun j => j < k + 1 ∧ test j = true) = fun j => j < k ∧ test j = true := by
        funext j
        apply propext
        constructor
        · rintro ⟨hj, hset⟩
          have hne : j ≠ k := by
            rintro rfl
            exact htest hset
          exact ⟨by omega, hset⟩
        · rintro ⟨hj, hset⟩
          exact ⟨by omega, hset⟩
      rw [hskip]
      exact ih

/-! ## A run of places -/

/-- The `n` places from `s` on are below `stop` and all wanted. -/
def RunAt (test : Nat → Bool) (stop n s : Nat) : Prop :=
  s + n ≤ stop ∧ ∀ i, s ≤ i → i < s + n → test i = true

/-- The scan for `n` wanted places in a row: `k` places are left from `i` on,
and the last `cnt` were wanted. It may give up at a place that is not. -/
def firstRun (test giveUp : Nat → Bool) (n : Nat) : Nat → Nat → Nat → Int
  | 0, _, _ => -1
  | k + 1, i, cnt =>
    if test i then
      if n ≤ cnt + 1 then (i : Int) - cnt else firstRun test giveUp n k (i + 1) (cnt + 1)
    else if giveUp i then -1
    else firstRun test giveUp n k (i + 1) 0

/-- What a scan from `start` to `stop` returns: the first run, or -1 where there
is none, or where it gave up before one. -/
def RunResult (test giveUp : Nat → Bool) (n start stop : Nat) (r : Int) : Prop :=
  (∃ s : Nat, r = s ∧ start ≤ s ∧ RunAt test stop n s ∧
      ∀ t, start ≤ t → t < s → ¬ RunAt test stop n t) ∨
    r = -1 ∧
      ((∀ t, start ≤ t → ¬ RunAt test stop n t) ∨
        ∃ g, giveUp g = true ∧ start ≤ g ∧ g < stop ∧ ∀ t, start ≤ t → t ≤ g →
          ¬ RunAt test stop n t)

/-- The `cnt` places before `i` are wanted, and no run starts before them. -/
structure Counting (test : Nat → Bool) (n start stop i cnt : Nat) : Prop where
  short : cnt < n
  inside : start + cnt ≤ i
  row : ∀ j, i ≤ j + cnt → j < i → test j = true
  none : ∀ t, start ≤ t → t + cnt < i → ¬ RunAt test stop n t

/-- A place that is not wanted ends every run there could be around it. -/
theorem Counting.fail {test : Nat → Bool} {n start stop i cnt : Nat}
    (h : Counting test n start stop i cnt) (hi : test i = false) :
    ∀ t, start ≤ t → t < i + 1 → ¬ RunAt test stop n t := by
  intro t hstart ht hrun
  by_cases hin : t + cnt < i
  · exact h.none t hstart hin hrun
  · have hshort := h.short
    have hset := hrun.2 i (by omega) (by omega)
    rw [hi] at hset
    cases hset

theorem firstRun_counting {test giveUp : Nat → Bool} {n start stop : Nat} (k i cnt : Nat)
    (hstop : i + k = stop) (h : Counting test n start stop i cnt) :
    RunResult test giveUp n start stop (firstRun test giveUp n k i cnt) := by
  induction k generalizing i cnt with
  | zero =>
    refine Or.inr ⟨rfl, Or.inl fun t ht hrun => ?_⟩
    have hshort := h.short
    have hlen := hrun.1
    exact h.none t ht (by omega) hrun
  | succ k ih =>
    have hinside := h.inside
    rw [firstRun]
    split
    · rename_i hset
      have hrow : ∀ j, i + 1 ≤ j + (cnt + 1) → j < i + 1 → test j = true := by
        intro j hlo hhi
        by_cases hji : j = i
        · rwa [hji]
        · exact h.row j (by omega) (by omega)
      split
      · -- the run is complete
        rename_i hfull
        have hshort := h.short
        refine Or.inl ⟨i - cnt, by omega, by omega, ⟨by omega, ?_⟩, ?_⟩
        · intro j hlo hhi
          exact hrow j (by omega) (by omega)
        · intro t hstart ht
          exact h.none t hstart (by omega)
      · rename_i hmore
        refine ih (i + 1) (cnt + 1) (by omega) ⟨by omega, by omega, hrow, ?_⟩
        intro t hstart ht
        exact h.none t hstart (by omega)
    · rename_i hset
      have hclear : test i = false := by simpa using hset
      have hfail := h.fail hclear
      split
      · rename_i hgive
        exact Or.inr ⟨rfl, Or.inr ⟨i, hgive, by omega, by omega, fun t hstart ht =>
          hfail t hstart (by omega)⟩⟩
      · have hshort := h.short
        refine ih (i + 1) 0 (by omega) ⟨by omega, by omega, ?_, ?_⟩
        · intro j hlo hhi
          omega
        · intro t hstart ht
          exact hfail t hstart (by omega)

/-- The scan of the places from `start` to `stop`. -/
theorem firstRun_spec (test giveUp : Nat → Bool) {n : Nat} (hn : 1 ≤ n) (start k : Nat) :
    RunResult test giveUp n start (start + k) (firstRun test giveUp n k start 0) := by
  refine firstRun_counting k start 0 rfl ⟨by omega, by omega, ?_, ?_⟩
  · intro j hlo hhi
    omega
  · intro t hstart ht
    omega

/-- A scan of everything that never gives up finds the first run. -/
theorem firstRun_isLowest (test : Nat → Bool) {n : Nat} (hn : 1 ≤ n) (k : Nat) :
    IsLowest (RunAt test k n) (firstRun test (fun _ => false) n k 0 0) := by
  have hspec := firstRun_spec test (fun _ => false) hn 0 k
  rw [Nat.zero_add] at hspec
  obtain ⟨s, hr, -, hrun, hmin⟩ | ⟨hr, hnone⟩ := hspec
  · exact Or.inl ⟨s, hr, hrun, fun t ht => hmin t (Nat.zero_le _) ht⟩
  · refine Or.inr ⟨hr, fun t => ?_⟩
    obtain hnone | ⟨g, hgive, -⟩ := hnone
    · exact hnone t (Nat.zero_le _)
    · cases hgive

end Base.Search
