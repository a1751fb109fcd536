import SlurmLite.Archive.Write
import SlurmLite.Base.SqlValues

/-!
# The value tuples of an archive file

Each row of an archive file is a tuple of the insert it holds. The columns are printed
between quotes as they are, and a column that is null as the text `(null)`.

* **Text** (`rowText_eq`): the tuple as a list of quoted values.
* **The law** (`tuple_readsBack_iff`): which rows a tuple reads back as.
-/

namespace Slurm.Archive

open Base.SqlValues

/-- The values that the tuple of a row stands for: its columns, and the mark of a record
written by an archive that keeps deleted ones. -/
def Target.denotes (t : Target) (row : Row) : List (Option (List Char)) :=
  row.cols ++ if t.withDeleted then [some ['1']] else []

/-- What printing a column that is null gives. -/
def absent : List Char := "(null)".toList

theorem rowText_eq (t : Target) {row : Row} (hne : row.cols ≠ []) :
    t.rowText row =
      [',', ' '].intercalate ((t.denotes row).map fun c => quote (c.getD absent)) ++ [')'] := by
  unfold Target.rowText Target.denotes
  cases t.withDeleted with
  | false =>
    rw [if_neg Bool.false_ne_true, if_neg Bool.false_ne_true, List.append_nil]
    rfl
  | true =>
    have hmap : row.cols.map (fun c => quote (c.getD absent)) ≠ [] := by
      intro h
      exact hne (List.map_eq_nil_iff.mp h)
    rw [if_pos rfl, if_pos rfl, List.map_append, List.map_singleton,
      Base.Text.intercalate_append_singleton _ _ hmap]
    simp only [List.append_assoc]
    rfl

/-- A quoted value takes two characters at least. -/
theorem length_le_intercalate (cols : List (Option (List Char))) :
    cols.length ≤ ([',', ' '].intercalate (cols.map fun c => quote (c.getD absent))).length := by
  induction cols with
  | nil => exact Nat.le_refl _
  | cons c cs ih =>
    have hquote : 1 ≤ (quote (c.getD absent)).length := Nat.succ_pos _
    cases cs with
    | nil =>
      rw [List.map_cons, List.map_nil, List.intercalate_singleton]
      exact hquote
    | cons c' cs =>
      rw [List.map_cons] at ih
      rw [List.map_cons, List.map_cons, List.intercalate_cons_cons, List.length_append,
        List.length_append, List.length_cons]
      omega

/-- The tuple of a row, whatever stands after it, reads as the row exactly when no column is
null and every column's text is free of quotes and of backslashes, except those before a
percent sign or an underscore. -/
theorem tuple_readsBack_iff (t : Target) {row : Row} (hne : row.cols ≠ []) (after : List Char) :
    (readList ('(' :: (t.rowText row ++ after))).map Prod.fst = some (t.denotes row) ↔
      ∀ col ∈ row.cols, ∃ text, col = some text ∧ Clean text := by
  have hdenotes : t.denotes row ≠ [] := by
    unfold Target.denotes
    intro h
    exact hne (List.append_eq_nil_iff.mp h).1
  have hlist : readList ('(' :: (t.rowText row ++ after)) =
      readValues (t.rowText row ++ after).length (t.rowText row ++ after) := rfl
  have hfuel : (t.denotes row).length ≤ (t.rowText row ++ after).length := by
    have hle := length_le_intercalate (t.denotes row)
    rw [rowText_eq t hne, List.length_append, List.length_append]
    omega
  have htext : t.rowText row ++ after =
      [',', ' '].intercalate ((t.denotes row).map fun c => quote (c.getD absent)) ++
        ')' :: after := by
    rw [rowText_eq t hne, List.append_assoc]
    rfl
  rw [hlist, htext, readValues_quoted_iff absent hdenotes (by rwa [← htext]) after]
  unfold Target.denotes
  rw [List.forall_mem_append]
  apply and_iff_left
  intro col hcol
  split at hcol
  · rw [List.mem_singleton.mp hcol]
    exact ⟨['1'], rfl, clean_of_plain (by simp)⟩
  · cases hcol

/-- A job row of an archive that keeps deleted ones. -/
def jobTarget : Target where
  localtime _ := ⟨0, 0, 0, 1, 0, 70, 0⟩
  archDir := []
  archType := []
  insert := []
  currEnd := 0
  withDeleted := true

theorem tuple_readsBack_job :
    jobTarget.rowText ⟨1, 2, false, [some "7".toList, some "50\\% done".toList]⟩ =
        "'7', '50\\% done', '1')".toList ∧
      (readList ('(' :: (jobTarget.rowText
          ⟨1, 2, false, [some "7".toList, some "50\\% done".toList]⟩ ++
          ",\n('8'".toList))).map Prod.fst =
        some [some "7".toList, some "50\\% done".toList, some ['1']] := by
  have hne : (⟨1, 2, false, [some "7".toList, some "50\\% done".toList]⟩ : Row).cols ≠ [] :=
    List.cons_ne_nil _ _
  refine ⟨by decide, (tuple_readsBack_iff jobTarget hne ",\n('8'".toList).mpr ?_⟩
  intro col hcol
  rcases List.mem_cons.mp hcol with rfl | hcol
  · exact ⟨_, rfl, clean_of_plain (by simp)⟩
  · rw [List.mem_singleton.mp hcol]
    exact ⟨_, rfl, by simp [Clean]⟩

/-- A name with a quote ends its text early; a column that is null reads as a text. -/
theorem not_tuple_readsBack :
    readList ('(' :: jobTarget.rowText ⟨1, 2, false, [some "o'neil".toList]⟩) = none ∧
      (readList ('(' :: jobTarget.rowText ⟨1, 2, false, [none]⟩)).map Prod.fst =
        some [some "(null)".toList, some ['1']] ∧
      jobTarget.denotes ⟨1, 2, false, [none]⟩ = [none, some ['1']] :=
  ⟨by decide, by decide, by decide⟩

end Slurm.Archive
