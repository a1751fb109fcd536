import Mathlib.Algebra.BigOperators.Group.List.Basic
import Mathlib.Algebra.Order.BigOperators.Group.List
import Mathlib.Data.UInt

/-!
# Sums that wrap

Counters of 32 bits that a loop adds to, and amounts kept as two counters.

* **Loops** (`foldl_adds`): a field that every turn adds something to.
* **Wrapping** (`toNat_sum`, `carried_eq_iff`): the exact sum comes back as long
  as no counter wraps.
-/

namespace Base.Sums

/-- A field that every turn of a loop adds to holds the sum of what was added. -/
theorem foldl_adds {σ α M : Type} [AddMonoid M] {turn : σ → α → σ} (field : σ → M) (added : α → M)
    (h : ∀ s a, field (turn s a) = field s + added a) (s : σ) (as : List α) :
    field (as.foldl turn s) = field s + (as.map added).sum := by
  induction as generalizing s with
  | nil => simp
  | cons a as ih =>
    rw [List.foldl_cons, ih, h, List.map_cons, List.sum_cons, add_assoc]

/-- What only some elements add is the sum over these. -/
theorem sum_map_ite {α M : Type} [AddMonoid M] (p : α → Bool) (added : α → M) (as : List α) :
    (as.map fun a => if p a then added a else 0).sum = ((as.filter p).map added).sum := by
  induction as with
  | nil => rfl
  | cons a as ih =>
    rw [List.map_cons, List.sum_cons, ih]
    cases hp : p a with
    | true => rw [List.filter_cons_of_pos hp, List.map_cons, List.sum_cons, if_pos rfl]
    | false =>
      rw [List.filter_cons_of_neg (by rw [hp]; exact Bool.false_ne_true),
        if_neg Bool.false_ne_true, zero_add]

/-- Of two sums with one below the other term by term, equal ones have equal terms. -/
theorem sum_map_eq_iff {α M : Type} [AddCommMonoid M] [PartialOrder M]
    [IsOrderedCancelAddMonoid M] {f g : α → M} {as : List α} (h : ∀ a ∈ as, f a ≤ g a) :
    (as.map f).sum = (as.map g).sum ↔ ∀ a ∈ as, f a = g a := by
  constructor
  · intro hsum a ha
    by_contra hne
    have hlt := List.sum_lt_sum f g h ⟨a, ha, lt_of_le_of_ne (h a ha) hne⟩
    exact hlt.ne hsum
  · intro heq
    rw [List.map_congr_left heq]

/-- A sum of counters is the exact sum, wrapped. -/
theorem toNat_sum {α : Type} (f : α → UInt32) (as : List α) :
    (as.map f).sum.toNat = (as.map fun a => (f a).toNat).sum % 4294967296 := by
  induction as with
  | nil => rfl
  | cons a as ih =>
    rw [List.map_cons, List.sum_cons, UInt32.toNat_add, ih, List.map_cons, List.sum_cons]
    omega

/-- Two wrapped counters, the first worth `k` of the second, hold the exact
amount only where neither wraps. -/
theorem carried_eq_iff {a b k m : Nat} (hk : 0 < k) (hm : 0 < m) :
    a % m * k + b % m = a * k + b ↔ a < m ∧ b < m := by
  constructor
  · intro h
    have ha := Nat.mod_le a m
    have hb := Nat.mod_le b m
    have hak := Nat.mul_le_mul_right k ha
    have hb' : b % m = b := by omega
    have ha' : a % m = a := Nat.eq_of_mul_eq_mul_right hk (by omega)
    rw [← ha', ← hb']
    exact ⟨Nat.mod_lt a hm, Nat.mod_lt b hm⟩
  · rintro ⟨ha, hb⟩
    rw [Nat.mod_eq_of_lt ha, Nat.mod_eq_of_lt hb]

end Base.Sums
