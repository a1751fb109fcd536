import Mathlib

/-!
# Records in a stream

Records that are written one after the other and read until one cannot be read. What comes back
from a stream that was cut off anywhere are the records that are whole in it.

* **Framing** (`Framing`): how a record is written, and what the reader takes.
* **Reading** (`readAll_take`, `readAll_flat`).
-/

namespace Base.Stream

variable {α β : Type}

/-- Writing and reading one record. Some records are written that are not read back; a record
that was cut off is not read either. -/
structure Framing (α β : Type) where
  frame : α → List β
  parse : List β → Option (α × List β)
  ok : α → Prop
  frame_ne : ∀ m, frame m ≠ []
  parse_nil : parse [] = none
  parse_frame : ∀ m rest, ok m → parse (frame m ++ rest) = some (m, rest)
  parse_bad : ∀ m rest, ¬ok m → parse (frame m ++ rest) = none
  parse_cut : ∀ m p, p <+: frame m → p ≠ frame m → parse p = none

/-- The records of a stream, up to the first that cannot be read. -/
def readAll (parse : List β → Option (α × List β)) : Nat → List β → List α
  | 0, _ => []
  | n + 1, bs =>
    match parse bs with
    | none => []
    | some (m, rest) => m :: readAll parse n rest

theorem readAll_of_none {parse : List β → Option (α × List β)} {n : Nat} {bs : List β}
    (h : parse bs = none) : readAll parse n bs = [] := by
  cases n with
  | zero => rfl
  | succ n => simp only [readAll, h]

variable (F : Framing α β)

/-- Records, one after the other. -/
def flat (ms : List α) : List β := ms.flatMap F.frame

variable {F}

theorem flat_cons (m : α) (ms : List α) : flat F (m :: ms) = F.frame m ++ flat F ms :=
  List.flatMap_cons

theorem length_flat_cons (m : α) (ms : List α) :
    (flat F (m :: ms)).length = (F.frame m).length + (flat F ms).length := by
  rw [flat_cons, List.length_append]

/-- A stream that was cut off after `k` symbols: of the `j` records that are whole in it, those
that come before the first that cannot be read. -/
theorem readAll_take (F : Framing α β) [DecidablePred F.ok] (ms : List α) :
    ∀ (k n : Nat), min k (flat F ms).length ≤ n →
    ∃ j ≤ ms.length, readAll F.parse n ((flat F ms).take k) = (ms.take j).takeWhile F.ok ∧
      (flat F (ms.take j)).length ≤ k ∧
      (j < ms.length → k < (flat F (ms.take (j + 1))).length) := by
  induction ms with
  | nil =>
    intro k n _
    refine ⟨0, Nat.le_refl 0, ?_, Nat.zero_le k, fun h => absurd h (Nat.lt_irrefl 0)⟩
    exact readAll_of_none (by rw [flat, List.flatMap_nil, List.take_nil, F.parse_nil])
  | cons m ms ih =>
    intro k n hn
    have hlen : 0 < (F.frame m).length := List.length_pos_iff.mpr (F.frame_ne m)
    rw [length_flat_cons] at hn
    rcases Nat.lt_or_ge k (F.frame m).length with hcut | hwhole
    · -- the first record is cut off
      refine ⟨0, Nat.zero_le _, ?_, Nat.zero_le k, fun _ => ?_⟩
      · have htake : (flat F (m :: ms)).take k = (F.frame m).take k := by
          rw [flat_cons, List.take_append_of_le_length hcut.le]
        refine readAll_of_none (htake ▸ F.parse_cut m _ (List.take_prefix _ _) fun he => ?_)
        have := congrArg List.length he
        rw [List.length_take] at this
        omega
      · rw [List.take_succ_cons, List.take_zero, length_flat_cons]
        omega
    · obtain ⟨j, hj, hread, hle, hnext⟩ :=
        ih (k - (F.frame m).length) (n - 1) (by omega)
      have htake : (flat F (m :: ms)).take k =
          F.frame m ++ (flat F ms).take (k - (F.frame m).length) := by
        rw [flat_cons, List.take_append, List.take_of_length_le hwhole]
      refine ⟨j + 1, Nat.succ_le_succ hj, ?_, ?_, fun hlt => ?_⟩
      · rw [htake, List.take_succ_cons]
        by_cases hok : F.ok m
        · obtain ⟨n, rfl⟩ := Nat.exists_eq_succ_of_ne_zero (show n ≠ 0 by omega)
          rw [List.takeWhile_cons_of_pos (by simpa using hok), ← hread]
          simp only [readAll, F.parse_frame m _ hok]
          rfl
        · rw [List.takeWhile_cons_of_neg (by simpa using hok)]
          exact readAll_of_none (F.parse_bad m _ hok)
      · rw [List.take_succ_cons, length_flat_cons]
        omega
      · rw [List.length_cons, Nat.add_lt_add_iff_right] at hlt
        have hnext' := hnext hlt
        rw [List.take_succ_cons, length_flat_cons]
        omega

/-- A whole stream: every record up to the first that cannot be read. -/
theorem readAll_flat (F : Framing α β) [DecidablePred F.ok] {ms : List α} {n : Nat}
    (hn : (flat F ms).length ≤ n) :
    readAll F.parse n (flat F ms) = ms.takeWhile F.ok := by
  obtain ⟨j, hj, hread, -, hnext⟩ := readAll_take F ms (flat F ms).length n (by omega)
  rw [List.take_length] at hread
  have hall : j = ms.length := by
    by_contra hne
    have hlt := hnext (Nat.lt_of_le_of_ne hj hne)
    have hsub : ((ms.take (j + 1)).flatMap F.frame).Sublist (ms.flatMap F.frame) :=
      (List.take_sublist _ _).flatMap _
    exact absurd hsub.length_le (Nat.not_le.mpr hlt)
  rw [hread, hall, List.take_length]

end Base.Stream
