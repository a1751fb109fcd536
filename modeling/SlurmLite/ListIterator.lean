import Mathlib

/-!
# Lists with an iterator

`list.c`: a linked list and one iterator over it, which stays valid while
elements are appended and removed.

* **Cursor** (`Iter`): `pos` counts the nodes in front of the next one and `prev`
  those in front of the link that leads to it or to the node before it.
* **Search** (`seek_found`, `seek_missed`): the loop that reads on to an element.
-/

namespace Slurm.ListIterator

variable {α : Type}

/-- A list with its `struct listIterator`. -/
structure Iter (α : Type) where
  items : List α
  pos : Nat
  prev : Nat
  pos_le : pos ≤ items.length
  prev_or : prev = pos ∨ prev + 1 = pos
deriving DecidableEq

namespace Iter

/-- `list_iterator_create`. -/
def create (items : List α) : Iter α :=
  { items, pos := 0, prev := 0, pos_le := Nat.zero_le _, prev_or := Or.inl rfl }

/-- `list_iterator_reset`. -/
def reset (i : Iter α) : Iter α := create i.items

/-- `list_next`; `none` is the end of the list. -/
def next (i : Iter α) : Option α × Iter α :=
  let prev := if i.prev ≠ i.pos then i.prev + 1 else i.prev
  have hprev : prev = i.pos := by
    have hor := i.prev_or
    simp only [prev]
    split <;> omega
  if h : i.pos < i.items.length then
    (some (i.items[i.pos]),
      { i with pos := i.pos + 1, prev, pos_le := h, prev_or := Or.inr (by omega) })
  else (none, { i with prev, prev_or := Or.inl hprev })

/-- `list_append`. An iterator whose link is the last one moves behind the new
element. -/
def append (i : Iter α) (x : α) : Iter α :=
  if i.prev = i.items.length then
    { items := i.items ++ [x], pos := i.items.length + 1, prev := i.items.length + 1
      pos_le := by simp, prev_or := Or.inl rfl }
  else
    { i with
      items := i.items ++ [x]
      pos_le := by
        have hle := i.pos_le
        rw [List.length_append]
        omega }

/-- `list_delete_item`: the element read last. -/
def deleteItem (i : Iter α) : Iter α :=
  if h : i.prev = i.pos then i
  else
    { items := i.items.eraseIdx i.prev, pos := i.prev, prev := i.prev
      pos_le := by
        have hor := i.prev_or
        have hle := i.pos_le
        rw [List.length_eraseIdx]
        split <;> omega
      prev_or := Or.inl rfl }

/-- `list_flush`. -/
def flush (_ : Iter α) : Iter α := create []

/-- The elements that have been read, and those still to be read. -/
def passed (i : Iter α) : List α := i.items.take i.pos

def ahead (i : Iter α) : List α := i.items.drop i.pos

theorem items_eq (i : Iter α) : i.items = i.passed ++ i.ahead :=
  (List.take_append_drop _ _).symm

@[simp] theorem items_create (items : List α) : (create items).items = items := rfl

@[simp] theorem items_reset (i : Iter α) : i.reset.items = i.items := rfl

@[simp] theorem items_append (i : Iter α) (x : α) : (i.append x).items = i.items ++ [x] := by
  unfold append
  split <;> rfl

theorem next_end {i : Iter α} (h : i.ahead = []) :
    ∃ i', i.next = (none, i') ∧ i'.items = i.items := by
  have hlen : ¬ i.pos < i.items.length := by
    have := List.drop_eq_nil_iff.mp h
    omega
  refine ⟨_, dif_neg hlen, rfl⟩

theorem next_cons {i : Iter α} {x : α} {rest : List α} (h : i.ahead = x :: rest) :
    ∃ i', i.next = (some x, i') ∧ i'.items = i.items ∧ i'.pos = i.pos + 1 ∧ i'.prev = i.pos := by
  have hlen : i.pos < i.items.length := by
    by_contra hge
    rw [ahead, List.drop_of_length_le (by omega)] at h
    cases h
  have hx : i.items[i.pos] = x := by
    have hdrop := List.drop_eq_getElem_cons hlen
    rw [ahead, hdrop] at h
    exact (List.cons.inj h).1
  have hprev : (if i.prev ≠ i.pos then i.prev + 1 else i.prev) = i.pos := by
    have hor := i.prev_or
    split <;> omega
  have hnext : i.next = (some i.items[i.pos], _) := dif_pos hlen
  rw [hx] at hnext
  exact ⟨_, hnext, rfl, rfl, hprev⟩

section Search

variable [DecidableEq α]

/-- `while ((v = list_next(i))) if (v is x) break;`, for at most so many turns:
whether an `x` was read. -/
def seekLoop (x : α) : Nat → Iter α → Bool × Iter α
  | 0, i => (false, i)
  | turns + 1, i =>
    match i.next with
    | (none, i') => (false, i')
    | (some v, i') => if v = x then (true, i') else seekLoop x turns i'

/-- The loop, with turns for all elements and the end. -/
def seek (i : Iter α) (x : α) : Bool × Iter α := seekLoop x (i.items.length + 1) i

theorem seekLoop_missed {x : α} {turns : Nat} {i : Iter α} (hx : x ∉ i.ahead)
    (hturns : i.ahead.length < turns) :
    ∃ i', seekLoop x turns i = (false, i') ∧ i'.items = i.items := by
  induction turns generalizing i with
  | zero => exact absurd hturns (Nat.not_lt_zero _)
  | succ turns ih =>
    cases hahead : i.ahead with
    | nil =>
      obtain ⟨i', hnext, hitems⟩ := next_end hahead
      refine ⟨i', ?_, hitems⟩
      rw [seekLoop, hnext]
    | cons v rest =>
      obtain ⟨i', hnext, hitems, hpos, -⟩ := next_cons hahead
      have hrest : i'.ahead = rest := by
        rw [ahead, hitems, hpos, ← List.drop_drop]
        show (i.ahead).drop 1 = rest
        rw [hahead]
        rfl
      rw [hahead, List.mem_cons, not_or] at hx
      rw [hahead, List.length_cons] at hturns
      obtain ⟨i'', hseek, hitems'⟩ := @ih i' (by rw [hrest]; exact hx.2) (by rw [hrest]; omega)
      refine ⟨i'', ?_, hitems'.trans hitems⟩
      rw [seekLoop, hnext]
      show (if v = x then _ else _) = _
      rw [if_neg (Ne.symm hx.1), hseek]

theorem seekLoop_found {x : α} {turns : Nat} {i : Iter α} {before after : List α}
    (hahead : i.ahead = before ++ x :: after) (hx : x ∉ before) (hturns : before.length < turns) :
    ∃ i', seekLoop x turns i = (true, i') ∧ i'.items = i.items ∧
      i'.prev = i.pos + before.length ∧ i'.pos = i'.prev + 1 := by
  induction turns generalizing i before with
  | zero => exact absurd hturns (Nat.not_lt_zero _)
  | succ turns ih =>
    cases before with
    | nil =>
      obtain ⟨i', hnext, hitems, hpos, hprev⟩ := next_cons hahead
      refine ⟨i', ?_, hitems, hprev, ?_⟩
      · rw [seekLoop, hnext]
        show (if x = x then _ else _) = _
        rw [if_pos rfl]
      · rw [hpos, hprev]
    | cons v before =>
      obtain ⟨i', hnext, hitems, hpos, -⟩ := next_cons hahead
      have hrest : i'.ahead = before ++ x :: after := by
        rw [ahead, hitems, hpos, ← List.drop_drop]
        show (i.ahead).drop 1 = _
        rw [hahead]
        rfl
      rw [List.mem_cons, not_or] at hx
      rw [List.length_cons] at hturns
      obtain ⟨i'', hseek, hitems', hprev, hpos'⟩ := ih hrest hx.2 (by omega)
      refine ⟨i'', ?_, hitems'.trans hitems, ?_, hpos'⟩
      · rw [seekLoop, hnext]
        show (if v = x then _ else _) = _
        rw [if_neg (Ne.symm hx.1), hseek]
      · rw [hprev, hpos, List.length_cons]
        omega

/-- An element that is not ahead is not found. -/
theorem seek_missed {i : Iter α} {x : α} (hx : x ∉ i.ahead) :
    ∃ i', i.seek x = (false, i') ∧ i'.items = i.items := by
  apply seekLoop_missed hx
  rw [ahead, List.length_drop]
  omega

/-- An element ahead is found where it comes first, and deleted there. -/
theorem seek_found {i : Iter α} {x : α} (hx : x ∈ i.ahead) :
    ∃ i' before after, i.ahead = before ++ x :: after ∧ x ∉ before ∧
      i.seek x = (true, i') ∧ i'.items = i.items ∧
      i'.deleteItem.items = i.passed ++ (before ++ after) := by
  obtain ⟨before, after, hahead, hbefore⟩ := List.eq_append_cons_of_mem hx
  have hlen : before.length < i.items.length + 1 := by
    have hle : i.ahead.length ≤ i.items.length := by
      rw [ahead, List.length_drop]
      omega
    rw [hahead, List.length_append, List.length_cons] at hle
    omega
  obtain ⟨i', hseek, hitems, hprev, hpos⟩ := seekLoop_found hahead hbefore hlen
  refine ⟨i', before, after, hahead, hbefore, hseek, hitems, ?_⟩
  have hne : ¬ i'.prev = i'.pos := by omega
  have hsplit : i'.items = (i.passed ++ before) ++ x :: after := by
    rw [hitems, items_eq, hahead, List.append_assoc]
  have hat : i'.prev = (i.passed ++ before).length := by
    have hle := i.pos_le
    rw [hprev, List.length_append, passed, List.length_take]
    omega
  rw [deleteItem, dif_neg hne]
  show i'.items.eraseIdx i'.prev = _
  rw [hsplit, hat, List.eraseIdx_append_of_length_le (Nat.le_refl _), Nat.sub_self]
  simp

end Search

end Iter

end Slurm.ListIterator
