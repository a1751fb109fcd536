import Mathlib

/-!
# Tables of rows

The statements of a database on a table as a list of rows in the order the server
keeps them: updates of the rows that meet a condition, insertions that a key can
refuse, and insertions that turn into an update when the key is taken.

* **Updates** (`update`): the frame of an update (`update_frame`), and how it is
  seen through a selection (`filter_update`).
* **Insertions** (`insertNew`, `upsert`).
-/

namespace Base.Table

variable {α β : Type}

/-- `UPDATE … SET set WHERE cond`. -/
def update (cond : α → Prop) [DecidablePred cond] (set : α → α) (t : List α) : List α :=
  t.map fun r => if cond r then set r else r

/-- `INSERT` of a row whose key is not taken. -/
def insertNew (same : α → Prop) [DecidablePred same] (new : α) (t : List α) : Option (List α) :=
  if ∃ r ∈ t, same r then none else some (t ++ [new])

/-- `INSERT … ON DUPLICATE KEY UPDATE set`. -/
def upsert (same : α → Prop) [DecidablePred same] (new : α) (set : α → α) (t : List α) : List α :=
  if ∃ r ∈ t, same r then update same set t else t ++ [new]

section Update

variable {cond : α → Prop} [DecidablePred cond] {set : α → α} {t : List α} {r : α}

theorem mem_update : r ∈ update cond set t ↔ ∃ s ∈ t, r = if cond s then set s else s := by
  unfold update
  rw [List.mem_map]
  exact exists_congr fun s => and_congr_right fun _ => eq_comm

theorem forall_mem_update {P : α → Prop} :
    (∀ r ∈ update cond set t, P r) ↔
      ∀ r ∈ t, (cond r → P (set r)) ∧ (¬cond r → P r) := by
  unfold update
  rw [List.forall_mem_map]
  refine forall₂_congr fun r _ => ?_
  by_cases h : cond r
  · rw [if_pos h]
    exact ⟨fun hP => ⟨fun _ => hP, fun hn => absurd h hn⟩, fun hP => hP.1 h⟩
  · rw [if_neg h]
    exact ⟨fun hP => ⟨fun hc => absurd hc h, fun _ => hP⟩, fun hP => hP.2 h⟩

theorem update_append (t t' : List α) :
    update cond set (t ++ t') = update cond set t ++ update cond set t' :=
  List.map_append

theorem update_singleton (r : α) : update cond set [r] = [if cond r then set r else r] := rfl

/-- An update that meets no row changes nothing. -/
theorem update_eq_self (h : ∀ r ∈ t, ¬cond r) : update cond set t = t := by
  unfold update
  refine (List.map_congr_left fun r hr => ?_).trans (List.map_id t)
  exact if_neg (h r hr)

/-- The rows that do not meet the condition stay as they are. -/
theorem update_frame : List.Forall₂ (fun r r' => ¬cond r → r' = r) t (update cond set t) := by
  unfold update
  rw [List.forall₂_map_right_iff, List.forall₂_same]
  exact fun r _ h => if_neg h

/-- An update that does not change which rows are selected is seen through the
selection. -/
theorem filter_update {p : α → Bool} (hset : ∀ r ∈ t, cond r → p (set r) = p r) :
    (update cond set t).filter p = update cond set (t.filter p) := by
  unfold update
  rw [List.filter_map]
  congr 1
  refine List.filter_congr fun r hr => ?_
  rw [Function.comp_apply]
  by_cases h : cond r
  · rw [if_pos h, hset r hr h]
  · rw [if_neg h]

/-- An update of other rows is not seen through a selection. -/
theorem filter_update_of_not {p : α → Bool} (hset : ∀ r ∈ t, cond r → p (set r) = p r)
    (hnot : ∀ r ∈ t, p r = true → ¬cond r) : (update cond set t).filter p = t.filter p := by
  rw [filter_update hset]
  exact update_eq_self fun r hr => hnot r (List.mem_of_mem_filter hr) (List.of_mem_filter hr)

end Update

end Base.Table
