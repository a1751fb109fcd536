import Mathlib

/-!
# Keyed lists updated in place

A list whose elements carry a key and are looked up from the front. An update acts on the
first element with the key.

* **Lookup** (`find`): what it finds in lists that are appended, selected from and mapped.
* **Updates** (`modifyFirst`): what is found after them.
-/

namespace Base.Assoc

variable {α γ : Type} [DecidableEq α] (key : γ → α)

/-- The first element with the key. -/
def find (l : List γ) (k : α) : Option γ := l.find? fun x => key x = k

/-- `f` at the first element with the key. -/
def modifyFirst (k : α) (f : γ → γ) : List γ → List γ
  | [] => []
  | x :: l => if key x = k then f x :: l else x :: modifyFirst k f l

variable {key} {k k' : α} {f : γ → γ} {x : γ} {l l' : List γ}

/-! ## Lookup -/

@[simp] theorem find_nil : find key [] k = none := rfl

theorem find_cons : find key (x :: l) k = if key x = k then some x else find key l k := by
  unfold find
  by_cases h : key x = k
  · rw [if_pos h]
    exact List.find?_cons_of_pos (decide_eq_true h)
  · rw [if_neg h]
    exact List.find?_cons_of_neg (by rw [decide_eq_true_eq]; exact h)

theorem mem_of_find (h : find key l k = some x) : x ∈ l := List.mem_of_find?_eq_some h

theorem find_append : find key (l ++ l') k = (find key l k).or (find key l' k) := List.find?_append

/-- A selection in which the first element with the key is. -/
theorem find_filter_of_pos {p : γ → Bool} (h : find key l k = some x) (hp : p x = true) :
    find key (l.filter p) k = some x := by
  induction l with
  | nil => cases h
  | cons y l ih =>
    rw [find_cons] at h
    split at h
    next hy =>
      obtain rfl := Option.some.inj h
      rw [List.filter_cons_of_pos hp, find_cons, if_pos hy]
    next hy =>
      rw [List.filter_cons]
      split
      · rw [find_cons, if_neg hy]
        exact ih h
      · exact ih h

theorem find_map {g : γ → γ} (hg : ∀ x, key (g x) = key x) :
    find key (l.map g) k = (find key l k).map g := by
  induction l with
  | nil => rfl
  | cons x l ih =>
    rw [List.map_cons, find_cons, find_cons, hg, ih]
    split <;> rfl

/-! ## Updates -/

theorem find_modifyFirst (hf : ∀ x, key (f x) = key x) :
    find key (modifyFirst key k f l) k' =
      if k' = k then (find key l k').map f else find key l k' := by
  induction l with
  | nil => simp [modifyFirst]
  | cons x l ih =>
    unfold modifyFirst
    by_cases hx : key x = k
    · rw [if_pos hx, find_cons, find_cons, hf, hx]
      by_cases hk : k' = k
      · rw [if_pos hk.symm, if_pos hk, if_pos hk.symm, Option.map_some]
      · rw [if_neg (Ne.symm hk), if_neg hk, if_neg (Ne.symm hk)]
    · rw [if_neg hx, find_cons, find_cons, ih]
      by_cases hk : key x = k'
      · have hne : k' ≠ k := fun he => hx (hk.trans he)
        rw [if_pos hk, if_pos hk, if_neg hne]
      · rw [if_neg hk, if_neg hk]

end Base.Assoc
