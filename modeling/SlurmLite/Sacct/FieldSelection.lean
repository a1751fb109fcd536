import SlurmLite.JobcompFiletxt
import SlurmLite.Sacct.Columns
import SlurmLite.Sacct.OptionLists

/-!
# The selection of fields

`parse_command_line` of `options.c` cuts a format at its commas and looks each
token up in the table of fields. A width after `%` is written into the table.

* **The loop** (`fieldLoop`): it ends at the first part that is blank.
* **Columns** (`columns`): what the list of fields shows in the end, against
  what a token asks for by itself (`asked`).
* `selects_iff`: the formats whose columns are those of their tokens.
-/

namespace Slurm.FieldSelection

open Base.Text Base.CLib Base.MapM Slurm.Print
open Slurm.CharList (makeLower)
open Slurm.Filetxt (atoi)

/-- The token before a `%`. -/
def command (start : Text) : Text :=
  match strchr '%' start with
  | none => start
  | some (name, _) => name

/-- The width after a `%`, zero where there is none. -/
def newlen (start : Text) : Int :=
  match strchr '%' start with
  | none => 0
  | some (_, width) => atoi width

/-- `!strncasecmp(fields[i].name, start, command_len)`. -/
def named (start : Text) (field : PrintField) : Bool :=
  (makeLower (command start)).isPrefixOf (makeLower field.name)

/-- The first field with the name of a token. -/
def fieldIdx (fields : List PrintField) (start : Text) : Option Nat :=
  fields.findIdx? (named start)

/-- `if(newlen) fields[i].len = newlen;` -/
def setLen (fields : List PrintField) (start : Text) (i : Nat) : List PrintField :=
  if newlen start ≠ 0 then fields.modify i fun field => { field with len := newlen start }
  else fields

/-- The loop over the parts between the commas, with the fields selected so far. There is no
result when the program exits at an invalid field. -/
def fieldLoop : List PrintField → List Nat → List Text → Option (List Nat × List PrintField)
  | fields, list, [] => some (list, fields)
  | fields, list, part :: parts =>
    let start := part.dropWhile isspace
    -- `continue` leaves `start` at the terminator that `*end = 0` put there
    if start = [] then some (list, fields)
    else do
      let i ← fieldIdx fields start
      fieldLoop (setLen fields start i) (list ++ [i]) parts

/-- The selection for one `--format` string, after which a comma is put. -/
def selectFields (fields : List PrintField) (format : Text) :
    Option (List Nat × List PrintField) :=
  fieldLoop fields [] ((format ++ [',']).splitOn ',').dropLast

/-- The fields of the list with the widths that the table has in the end. -/
def columns (list : List Nat) (fields : List PrintField) : List (Nat × Option Int) :=
  list.map fun i => (i, fields[i]?.map (·.len))

/-- The parts of a format without the blanks before them. -/
def parts (format : Text) : List Text := (format.splitOn ',').map (·.dropWhile isspace)

/-- The column that a token asks for. -/
def asked (fields : List PrintField) (start : Text) : Option (Nat × Option Int) :=
  (fieldIdx fields start).map fun i =>
    (i, if newlen start ≠ 0 then some (newlen start) else fields[i]?.map (·.len))

/-! ## The loop -/

section Loop

variable {fields : List PrintField} {start : Text} {list : List Nat} {i j : Nat}

theorem splitOn_append_comma (format : Text) :
    ((format ++ [',']).splitOn ',').dropLast = format.splitOn ',' := by
  rw [List.splitOn_append_cons_self, List.splitOn_nil, List.dropLast_concat]

/-- A width changes no name. -/
theorem names_setLen (fields : List PrintField) (start : Text) (i : Nat) :
    (setLen fields start i).map (·.name) = fields.map (·.name) := by
  unfold setLen
  split
  · refine List.ext_getElem? fun j => ?_
    rw [List.getElem?_map, List.getElem?_map, List.getElem?_modify]
    cases fields[j]? with
    | none => rfl
    | some field =>
      simp only [Option.map_eq_map, Option.map_some]
      split
      · rfl
      · rfl
  · rfl

theorem fieldIdx_congr {fields' : List PrintField}
    (h : fields'.map (·.name) = fields.map (·.name)) (start : Text) :
    fieldIdx fields' start = fieldIdx fields start := by
  have hname : ∀ fs : List PrintField, fieldIdx fs start =
      (fs.map (·.name)).findIdx? fun name =>
        (makeLower (command start)).isPrefixOf (makeLower name) := by
    intro fs
    rw [List.findIdx?_map]
    rfl
  rw [hname, hname, h]

/-- The table after the tokens of a list. -/
def setAll (table fields : List PrintField) (starts : List Text) : List PrintField :=
  starts.foldl (fun fields start => ((fieldIdx table start).map (setLen fields start)).getD fields)
    fields

/-- The loop in two passes: the fields of the parts before the first blank one, and the widths. -/
theorem fieldLoop_eq {table : List PrintField}
    (h : fields.map (·.name) = table.map (·.name)) (list : List Nat) (segs : List Text) :
    fieldLoop fields list segs =
      (((segs.map (·.dropWhile isspace)).takeWhile (· ≠ [])).mapM (fieldIdx table)).map
        fun is => (list ++ is,
          setAll table fields ((segs.map (·.dropWhile isspace)).takeWhile (· ≠ []))) := by
  induction segs generalizing fields list with
  | nil => simp [fieldLoop, setAll]
  | cons seg segs ih =>
    rw [fieldLoop, List.map_cons, List.takeWhile_cons]
    by_cases hstart : seg.dropWhile isspace = []
    · rw [if_pos hstart, hstart]
      simp [setAll]
    · rw [if_neg hstart, if_pos (decide_eq_true hstart), List.mapM_cons, Option.bind_eq_bind,
        fieldIdx_congr h]
      cases hidx : fieldIdx table (seg.dropWhile isspace) with
      | none => rfl
      | some i =>
        have hnames : (setLen fields (seg.dropWhile isspace) i).map (·.name) =
            table.map (·.name) := (names_setLen _ _ _).trans h
        rw [Option.bind_some, Option.bind_eq_bind, Option.bind_some, ih hnames]
        cases ((segs.map (·.dropWhile isspace)).takeWhile (· ≠ [])).mapM (fieldIdx table) with
        | none => rfl
        | some is =>
          simp only [Option.map_some, Option.bind_eq_bind, Option.bind_some, List.append_assoc,
            List.singleton_append, setAll, List.foldl_cons, hidx, Option.getD_some]
          rfl

end Loop

/-! ## Widths -/

section Widths

variable {table fields : List PrintField} {start : Text} {starts : List Text} {i : Nat}

/-- The width of field `i` after a token. -/
def nextLen (table : List PrintField) (i : Nat) (len : Option Int) (start : Text) : Option Int :=
  if fieldIdx table start = some i ∧ newlen start ≠ 0 then len.map fun _ => newlen start else len

theorem len_setLen (start : Text) (i j : Nat) :
    (setLen fields start j)[i]?.map (·.len) =
      if j = i ∧ newlen start ≠ 0 then (fields[i]?.map (·.len)).map fun _ => newlen start
      else fields[i]?.map (·.len) := by
  unfold setLen
  by_cases hlen : newlen start ≠ 0
  · rw [if_pos hlen, List.getElem?_modify]
    cases fields[i]? with
    | none => simp
    | some field =>
      simp only [Option.map_eq_map, Option.map_some]
      by_cases hj : j = i
      · rw [if_pos hj, if_pos ⟨hj, hlen⟩]
      · rw [if_neg hj, if_neg fun h => hj h.1]
  · rw [if_neg hlen, if_neg fun h => hlen h.2]

theorem len_setAll (starts : List Text) (fields : List PrintField) (i : Nat) :
    (setAll table fields starts)[i]?.map (·.len) =
      starts.foldl (nextLen table i) (fields[i]?.map (·.len)) := by
  induction starts generalizing fields with
  | nil => rfl
  | cons start starts ih =>
    rw [setAll, List.foldl_cons, List.foldl_cons]
    refine (ih _).trans (congrArg (starts.foldl (nextLen table i)) ?_)
    unfold nextLen
    cases hidx : fieldIdx table start with
    | none => rfl
    | some j =>
      rw [Option.map_some, Option.getD_some, len_setLen]
      simp only [Option.some.injEq]

/-- The width that a token asks for field `i`. -/
def askedLen (table : List PrintField) (i : Nat) (start : Text) : Option Int :=
  if newlen start ≠ 0 then some (newlen start) else table[i]?.map (·.len)

theorem nextLen_of_asked {len : Option Int} (hi : fieldIdx table start = some i)
    (hlen : len.isSome) (h : len = table[i]?.map (·.len)) :
    nextLen table i len start = askedLen table i start := by
  unfold nextLen askedLen
  by_cases hnew : newlen start ≠ 0
  · obtain ⟨n, rfl⟩ := Option.isSome_iff_exists.mp hlen
    rw [if_pos ⟨hi, hnew⟩, if_pos hnew]
    rfl
  · rw [if_neg fun h => hnew h.2, if_neg hnew]
    exact h

/-- A width that all tokens for a field ask for stays. -/
theorem foldl_nextLen_self {len : Int}
    (h : ∀ start ∈ starts, fieldIdx table start = some i → askedLen table i start = some len) :
    starts.foldl (nextLen table i) (some len) = some len := by
  induction starts with
  | nil => rfl
  | cons start starts ih =>
    have hnext : nextLen table i (some len) start = some len := by
      unfold nextLen
      split
      · rename_i hnew
        have hasked := h start List.mem_cons_self hnew.1
        unfold askedLen at hasked
        rwa [if_pos hnew.2] at hasked
      · rfl
    rw [List.foldl_cons, hnext]
    exact ih fun s hs => h s (List.mem_cons_of_mem _ hs)

/-- With one width asked for by all tokens of a field it is the width in the end. -/
theorem foldl_nextLen {len : Int} (htable : (table[i]?.map (·.len)).isSome)
    (h : ∀ start ∈ starts, fieldIdx table start = some i → askedLen table i start = some len)
    (hex : ∃ start ∈ starts, fieldIdx table start = some i) :
    starts.foldl (nextLen table i) (table[i]?.map (·.len)) = some len := by
  induction starts with
  | nil => obtain ⟨s, hs, -⟩ := hex; cases hs
  | cons start starts ih =>
    have hrest : ∀ s ∈ starts, fieldIdx table s = some i → askedLen table i s = some len :=
      fun s hs => h s (List.mem_cons_of_mem _ hs)
    rw [List.foldl_cons]
    by_cases hi : fieldIdx table start = some i
    · rw [nextLen_of_asked hi htable rfl, h start List.mem_cons_self hi]
      exact foldl_nextLen_self hrest
    · have hsame : nextLen table i (table[i]?.map (·.len)) start = table[i]?.map (·.len) :=
        if_neg fun h => hi h.1
      rw [hsame]
      obtain ⟨s, hs, hsi⟩ := hex
      obtain rfl | hs := List.mem_cons.mp hs
      · exact absurd hsi hi
      · exact ih hrest ⟨s, hs, hsi⟩

end Widths

/-! ## Columns -/

section Columns

variable {table fs : List PrintField} {format : Text} {list : List Nat} {starts : List Text}

/-- The parts of a format that are not blank. -/
def formatTokens (format : Text) : List Text := (parts format).filter (· ≠ [])

theorem takeWhile_eq_filter_iff (ps : List Text) :
    ps.takeWhile (· ≠ []) = ps.filter (· ≠ []) ↔ ps.Pairwise fun p q => p = [] → q = [] := by
  induction ps with
  | nil => simp
  | cons p ps ih =>
    rw [List.takeWhile_cons, List.filter_cons, List.pairwise_cons]
    by_cases hp : p = []
    · subst hp
      simp only [ne_eq, not_true_eq_false, decide_false, Bool.false_eq_true, if_false, true_implies]
      constructor
      · intro h
        have hall := List.filter_eq_nil_iff.mp h.symm
        have hblank : ∀ q ∈ ps, q = [] := fun q hq => by simpa using hall q hq
        refine ⟨hblank, List.pairwise_of_forall_mem_list fun q hq r hr _ => hblank r hr⟩
      · rintro ⟨hblank, -⟩
        refine (List.filter_eq_nil_iff.mpr fun q hq => ?_).symm
        simp [hblank q hq]
    · rw [if_pos (decide_eq_true hp), if_pos (decide_eq_true hp), List.cons.injEq, ih]
      constructor
      · exact fun h => ⟨fun q _ hnil => absurd hnil hp, h.2⟩
      · exact fun h => ⟨rfl, h.2⟩

/-- Both passes of a selection that comes to its end. -/
theorem selectFields_eq_some (h : selectFields table format = some (list, fs)) :
    ((parts format).takeWhile (· ≠ [])).mapM (fieldIdx table) = some list ∧
      fs = setAll table table ((parts format).takeWhile (· ≠ [])) := by
  rw [selectFields, splitOn_append_comma, fieldLoop_eq rfl] at h
  obtain ⟨is, his, heq⟩ := Option.map_eq_some_iff.mp h
  rw [List.nil_append, Prod.mk.injEq] at heq
  exact ⟨heq.1 ▸ his, heq.2.symm⟩

theorem asked_eq {start : Text} {i : Nat} (hi : fieldIdx table start = some i) :
    asked table start = some (i, askedLen table i start) := by
  rw [asked, hi]
  rfl

theorem mapM_asked (h : starts.mapM (fieldIdx table) = some list)
    (hlen : ∀ start ∈ starts, ∀ i, fieldIdx table start = some i →
      fs[i]?.map (·.len) = askedLen table i start) :
    starts.mapM (asked table) = some (columns list fs) := by
  refine mapM_eq_some_iff.mpr ?_
  have hidx := mapM_eq_some_iff.mp h
  clear h
  induction hidx with
  | nil => exact List.Forall₂.nil
  | cons hi hrest ih =>
    rename_i start i starts list
    refine List.Forall₂.cons ?_ (ih fun s hs => hlen s (List.mem_cons_of_mem _ hs))
    rw [asked_eq hi, ← hlen start List.mem_cons_self i hi]

theorem isSome_len {start : Text} {i : Nat} (hi : fieldIdx table start = some i) :
    (table[i]?.map (·.len)).isSome := by
  obtain ⟨hlt, -⟩ := List.findIdx?_eq_some_iff_getElem.mp hi
  rw [List.getElem?_eq_getElem hlt]
  rfl

end Columns

/-- Where the program does not exit at an invalid field, the columns are those the tokens of the
format ask for exactly if no blank part stands before a token and tokens for the same field ask
for the same width. -/
theorem selects_iff {table fs : List PrintField} {format : Text} {list : List Nat}
    (h : selectFields table format = some (list, fs)) :
    (formatTokens format).mapM (asked table) = some (columns list fs) ↔
      ((parts format).Pairwise fun p q => p = [] → q = []) ∧
        ∀ s ∈ formatTokens format, ∀ t ∈ formatTokens format,
          fieldIdx table s = fieldIdx table t → asked table s = asked table t := by
  obtain ⟨hidx, hfs⟩ := selectFields_eq_some h
  rw [← takeWhile_eq_filter_iff]
  constructor
  · intro hcols
    have hwhole : (parts format).takeWhile (· ≠ []) = formatTokens format := by
      refine List.Sublist.eq_of_length ?_ ?_
      · have hself : ((parts format).takeWhile (· ≠ [])).filter (· ≠ []) =
            (parts format).takeWhile (· ≠ []) :=
          List.filter_eq_self.mpr fun q hq =>
            List.mem_takeWhile_imp (p := fun q : Text => decide (q ≠ [])) hq
        rw [← hself]
        exact (List.takeWhile_sublist _).filter _
      · have h1 := (mapM_eq_some_iff.mp hidx).length_eq
        have h2 := (mapM_eq_some_iff.mp hcols).length_eq
        rw [columns, List.length_map] at h2
        rw [h1, h2]
    refine ⟨hwhole, fun s hs t ht hst => ?_⟩
    have hcolumn : ∀ s ∈ formatTokens format, ∃ i, fieldIdx table s = some i ∧
        asked table s = some (i, fs[i]?.map (·.len)) := by
      intro s hs
      obtain ⟨c, hc, hasked⟩ := mem_mapM hcols hs
      obtain ⟨j, -, rfl⟩ := List.mem_map.mp hc
      obtain ⟨i, hi, heq⟩ := Option.map_eq_some_iff.mp hasked
      exact ⟨i, hi, by rw [hasked, (Prod.mk.inj heq).1]⟩
    obtain ⟨i, hi, hs'⟩ := hcolumn s hs
    obtain ⟨j, hj, ht'⟩ := hcolumn t ht
    obtain rfl : i = j := Option.some.inj (hi.symm.trans (hst.trans hj))
    rw [hs', ht']
  · rintro ⟨hwhole, hsame⟩
    rw [hwhole] at hidx hfs
    refine mapM_asked hidx fun s hs i hi => ?_
    obtain ⟨len, hlen⟩ : ∃ len, askedLen table i s = some len := by
      unfold askedLen
      split
      · exact ⟨_, rfl⟩
      · exact Option.isSome_iff_exists.mp (isSome_len hi)
    rw [hlen, hfs, len_setAll]
    refine foldl_nextLen (isSome_len hi) (fun t ht hti => ?_) ⟨s, hs, hi⟩
    have heq := hsame t ht s hs (hti.trans hi.symm)
    rw [asked_eq hti, asked_eq hi, Option.some.injEq, Prod.mk.injEq] at heq
    rw [heq.2, hlen]

theorem selects_iff_jobid :
    (formatTokens "jobid%20".toList).mapM (asked fields) =
        some (columns [17] (setLen fields "jobid%20".toList 17)) ↔
      ((parts "jobid%20".toList).Pairwise fun p q => p = [] → q = []) ∧
        ∀ s ∈ formatTokens "jobid%20".toList, ∀ t ∈ formatTokens "jobid%20".toList,
          fieldIdx fields s = fieldIdx fields t → asked fields s = asked fields t :=
  selects_iff (by decide +kernel)

/-- The second width is shown in both columns of a field. -/
theorem not_selects_widths :
    ¬∀ (table fs : List PrintField) (format : Text) (list : List Nat),
      selectFields table format = some (list, fs) →
        (formatTokens format).mapM (asked table) = some (columns list fs) := by
  intro h
  have hselect : selectFields fields "jobid%5,jobid%20".toList =
      some ([17, 17], setLen fields "jobid%20".toList 17) := by decide +kernel
  have hcolumns := h _ _ _ _ hselect
  revert hcolumns
  decide +kernel

end Slurm.FieldSelection
