import SlurmLite.Archive.Write

/-!
# Each byte once

Which bytes of a text `_write_to_file` hands to `write`, by their positions, whatever the
bytes are. The same loop stands in `dump_assoc_mgr_state`.

* **Positions** (`written`): an interrupted call goes back by one, so the position before
  it is written a second time, or the one before the text.
* **The law** (`writtenOnce_iff`): every position once and in order, or a failure.
-/

namespace Slurm.Archive

open Base.CLib Base.Files

/-- The positions of the bytes that the `write` calls take, from `pos` on. -/
def written : List WriteResult → Int → List Int
  | [], _ => []
  | .wrote amount :: rest, pos =>
    (List.range amount).map (fun i : Nat => pos + i) ++ written rest (pos + amount)
  | .error errno :: rest, pos => if errno = eintr then written rest (pos - 1) else []

/-- A text reported as written has every byte written once, in order; a `write` that fails is
reported. -/
structure WrittenOnce (data : List Char) (writes : Writes) (rc : Int) : Prop where
  whole : rc = slurmSuccess →
    written writes.results 0 = (List.range data.length).map fun i : Nat => (i : Int)
  reported : writes.fails = true → rc ≠ slurmSuccess

section Loop

variable {fd : Int} {outside : Int → Char} {data : List Char} {results : List WriteResult}

theorem writeLoop_written {pos nwrite rc : Int} {sent : List Char}
    (h : writeLoop fd outside data results pos nwrite = some (rc, sent)) :
    sent = (written results pos).map (charAt outside data) := by
  induction results generalizing pos nwrite sent with
  | nil =>
    unfold writeLoop at h
    split at h
    · cases h
    · cases h
      rfl
  | cons result rest ih =>
    unfold writeLoop at h
    split at h
    · cases h
    · cases result with
      | wrote amount =>
        simp only at h
        split at h
        · rcases Option.map_eq_some_iff.mp h with ⟨done, hdone, heq⟩
          cases heq
          rw [written, List.map_append, List.map_map, ← ih hdone]
          rfl
        · cases h
      | error errno =>
        simp only at h
        split at h
        · rename_i hintr
          rw [written, if_pos hintr]
          exact ih h
        · rename_i hintr
          split at h
          · cases h
            rw [written, if_neg hintr, List.map_nil]
          · cases h

/-- The calls stay below the end that the loop set out for. -/
theorem written_lt {pos nwrite rc : Int} {sent : List Char}
    (h : writeLoop fd outside data results pos nwrite = some (rc, sent)) :
    ∀ p ∈ written results pos, p < pos + nwrite := by
  induction results generalizing pos nwrite sent with
  | nil =>
    intro p hp
    cases hp
  | cons result rest ih =>
    intro p hp
    unfold writeLoop at h
    split at h
    · cases h
    · cases result with
      | wrote amount =>
        simp only at h
        split at h
        · rename_i hok
          rcases Option.map_eq_some_iff.mp h with ⟨done, hdone, heq⟩
          cases heq
          rw [written, List.mem_append] at hp
          rcases hp with hp | hp
          · rcases List.mem_map.mp hp with ⟨i, hi, rfl⟩
            rw [List.mem_range] at hi
            omega
          · have hlt := ih hdone p hp
            omega
        · cases h
      | error errno =>
        simp only at h
        split at h
        · rename_i hintr
          rw [written, if_pos hintr] at hp
          have hlt := ih h p hp
          omega
        · rename_i hintr
          rw [written, if_neg hintr] at hp
          cases hp

/-- Without an interruption the positions follow each other. -/
theorem written_eq_range {pos nwrite : Nat} {sent : List Char}
    (hintr : results.countP (·.interrupted) = 0)
    (h : writeLoop fd outside data results pos nwrite = some (slurmSuccess, sent)) :
    written results pos = (List.range nwrite).map fun i : Nat => ((pos + i : Nat) : Int) := by
  induction results generalizing pos nwrite sent with
  | nil =>
    unfold writeLoop at h
    split at h
    · cases h
    · rename_i hzero
      have hn : nwrite = 0 := by omega
      rw [hn]
      rfl
  | cons result rest ih =>
    rw [List.countP_cons] at hintr
    unfold writeLoop at h
    split at h
    · cases h
    · cases result with
      | wrote amount =>
        simp only at h
        split at h
        · rename_i hok
          rcases Option.map_eq_some_iff.mp h with ⟨⟨rc, tail⟩, hdone, heq⟩
          cases heq
          have hpos : ((pos : Int) + (amount : Int)) = ((pos + amount : Nat) : Int) := by omega
          have hleft : ((nwrite : Int) - (amount : Int)) = ((nwrite - amount : Nat) : Int) := by
            omega
          have hsum : nwrite = amount + (nwrite - amount) := by omega
          rw [hpos, hleft] at hdone
          rw [written, hpos, ih (by omega) hdone]
          conv_rhs => rw [hsum, List.range_add, List.map_append, List.map_map]
          congr 1
          apply List.map_congr_left
          intro i _
          show ((pos + amount + i : Nat) : Int) = ((pos + (amount + i) : Nat) : Int)
          omega
        · cases h
      | error errno =>
        simp only at h
        split at h
        · rename_i hsig
          simp [WriteResult.interrupted, hsig] at hintr
        · split at h
          · have hrc := congrArg Prod.fst (Option.some.inj h)
            exact absurd hrc (by simp)
          · cases h

end Loop

/-- Every byte is written once and in order, or a failure is reported, exactly when no call
is interrupted and the length fits an `int`, or a call fails. -/
theorem writtenOnce_iff {fd rc : Int} {data sent : List Char} {writes : Writes}
    (h : writeToFile fd data writes = some (rc, sent)) :
    sent = (written writes.results 0).map (charAt writes.outside data) ∧
      (WrittenOnce data writes rc ↔
        writes.fails = true ∨ writes.interrupts = 0 ∧ data.length < 2147483648) := by
  refine ⟨writeLoop_written h, ?_, ?_⟩
  · intro honce
    by_cases hfails : writes.fails = true
    · exact Or.inl hfails
    · right
      have hrc : rc = 0 := (writeToFile_rc_eq_zero_iff h).mpr (Bool.eq_false_iff.mpr hfails)
      subst hrc
      have hwhole := honce.whole rfl
      have hlen : data.length = fit data.length + writes.interrupts := by
        have hsent := writeToFile_length h
        rw [writeLoop_written h, List.length_map, hwhole, List.length_map, List.length_range]
          at hsent
        exact hsent
      by_cases hzero : data.length = 0
      · have hle := fit_le data.length
        omega
      · -- the last position is below the number of bytes that the loop starts with
        have hlast : ((data.length - 1 : Nat) : Int) ∈ written writes.results 0 := by
          rw [hwhole]
          exact List.mem_map.mpr ⟨_, List.mem_range.mpr (by omega), rfl⟩
        have hlt := written_lt h _ hlast
        have hfit : data.length ≤ fit data.length := by
          unfold fit
          omega
        have hle := fit_le data.length
        exact ⟨by omega, lt_of_fit_eq (by omega)⟩
  · rintro (hfails | ⟨hintr, hshort⟩)
    · have hrc : rc ≠ 0 := by
        rw [Ne, writeToFile_rc_eq_zero_iff h, hfails]
        simp
      exact ⟨fun heq => absurd heq hrc, fun _ => hrc⟩
    · refine ⟨?_, ?_⟩
      · intro hrc
        subst hrc
        rw [writeToFile, int32_of_range (by omega) (by omega)] at h
        have hrange := @written_eq_range _ _ _ _ 0 _ _ hintr h
        simpa using hrange
      · intro hfails hrc
        have hnot := (writeToFile_rc_eq_zero_iff h).mp hrc
        rw [hfails] at hnot
        cases hnot

/-- Two calls that take a text in two parts. -/
theorem writtenOnce_partial : ∃ sent,
    writeToFile 3 "abc".toList ⟨[.wrote 1, .wrote 2], fun _ => 'x'⟩ = some (0, sent) ∧
      WrittenOnce "abc".toList ⟨[.wrote 1, .wrote 2], fun _ => 'x'⟩ 0 := by
  have hrun : writeToFile 3 "abc".toList ⟨[.wrote 1, .wrote 2], fun _ => 'x'⟩ =
      some (0, "abc".toList) := by decide
  exact ⟨_, hrun, (writtenOnce_iff hrun).2.mpr (Or.inr ⟨by decide, by decide⟩)⟩

/-- After an interruption the byte before the text is written, and success reported. -/
theorem not_writtenOnce_interrupted :
    writeToFile 3 "ab".toList ⟨[.error eintr, .wrote 3], fun _ => 'x'⟩ =
        some (0, "xab".toList) ∧
      ¬WrittenOnce "ab".toList ⟨[.error eintr, .wrote 3], fun _ => 'x'⟩ 0 := by
  refine ⟨by decide, ?_⟩
  intro honce
  exact absurd (honce.whole rfl) (by decide)

end Slurm.Archive
