import SlurmLite.Base.CLib
import SlurmLite.Base.Files

/-!
# Writing an archive file

`_write_to_file` and `_write_archive_file` of `mysql_jobacct_process.c`, with
the outcome of every system call as an input. The rows a query returned are
printed one at a time into `<name>.new`, a closing clause follows, and the
file then takes the place of `<name>`, which is kept as `<name>.old`.

* **Outcomes**: a call consumes exactly the results it is given, so `none`
  means that the results do not belong to a call that returns.
* **Return code**: `writeToFile_rc_eq_zero_iff`: a text is reported written exactly when no
  `write` failed; `writeArchiveFile_rc_eq_zero_iff`: the whole file exactly
  when no `write` of the closing clause failed.
-/

namespace Slurm.Archive

open Base.CLib Base.Files

/-! ## One text -/

/-- What one `write` returns: how much it took, or `-1` and `errno`. -/
inductive WriteResult where
  | wrote (amount : Nat)
  | error (errno : ℕ+)
deriving DecidableEq

/-- `SLURM_SUCCESS`. -/
abbrev slurmSuccess : Int := 0

/-- `SLURM_ERROR`. -/
abbrev slurmError : Int := -1

/-- `EINTR`. -/
abbrev eintr : ℕ+ := 4

/-- The results of the `write` calls of one `_write_to_file`, and the memory
around the text it writes. -/
structure Writes where
  results : List WriteResult
  outside : Int → Char

/-- The character at `data[i]`. -/
def charAt (outside : Int → Char) (data : List Char) (i : Int) : Char :=
  if 0 ≤ i then data.getD i.toNat (outside i) else outside i

/-- The `amount` characters from `data[pos]` on. -/
def chunk (outside : Int → Char) (data : List Char) (pos : Int) (amount : Nat) : List Char :=
  (List.range amount).map fun i : Nat => charAt outside data (pos + i)

/-- The loop of `_write_to_file` from `pos` on, with `nwrite` characters left:
the return code and what reached the file. An interrupted call returns `-1`,
which the loop adds to `pos` and takes from `nwrite` like any other amount. -/
def writeLoop (fd : Int) (outside : Int → Char) (data : List Char) :
    List WriteResult → Int → Int → Option (Int × List Char)
  | [], _, nwrite => if 0 < nwrite then none else some (slurmSuccess, [])
  | result :: rest, pos, nwrite =>
    if nwrite ≤ 0 then none
    else
      match result with
      | .wrote amount =>
        if 0 ≤ fd ∧ (amount : Int) ≤ nwrite then
          (writeLoop fd outside data rest (pos + amount) (nwrite - amount)).map fun done =>
            (done.1, chunk outside data pos amount ++ done.2)
        else none
      | .error errno =>
        if errno = eintr then writeLoop fd outside data rest (pos - 1) (nwrite + 1)
        else if rest = [] then some ((errno : Nat), [])
        else none

/-- `_write_to_file`: `strlen(data)` is kept in an `int`. -/
def writeToFile (fd : Int) (data : List Char) (writes : Writes) : Option (Int × List Char) :=
  writeLoop fd writes.outside data writes.results 0 (int32 data.length)

/-- A `write` that fails, in the eyes of `_write_to_file`. -/
def WriteResult.fails : WriteResult → Bool
  | .wrote _ => false
  | .error errno => errno ≠ eintr

/-- A `write` that a signal interrupted. -/
def WriteResult.interrupted : WriteResult → Bool
  | .wrote _ => false
  | .error errno => errno = eintr

/-- Some `write` fails. -/
def Writes.fails (writes : Writes) : Bool := writes.results.any (·.fails)

/-- How many `write` calls are interrupted. -/
def Writes.interrupts (writes : Writes) : Nat := writes.results.countP (·.interrupted)

theorem writeLoop_rc_eq_zero_iff {fd : Int} {outside : Int → Char} {data : List Char}
    {results : List WriteResult} {pos nwrite rc : Int} {sent : List Char}
    (h : writeLoop fd outside data results pos nwrite = some (rc, sent)) :
    rc = 0 ↔ results.any (·.fails) = false := by
  induction results generalizing pos nwrite sent with
  | nil =>
    unfold writeLoop at h
    split at h
    · cases h
    · cases h
      simp
  | cons result rest ih =>
    unfold writeLoop at h
    split at h
    · cases h
    · cases result with
      | wrote amount =>
        simp only at h
        split at h
        · obtain ⟨done, hdone, heq⟩ := Option.map_eq_some_iff.mp h
          cases heq
          rw [ih hdone]
          simp [WriteResult.fails]
        · cases h
      | error errno =>
        simp only at h
        split at h
        · rename_i hintr
          rw [ih h]
          simp [WriteResult.fails, hintr]
        · rename_i hintr
          split at h
          · cases h
            simp [WriteResult.fails, hintr]
          · cases h

/-- Every interruption adds one character: the loop goes back by one and
counts one more to write. -/
theorem writeLoop_length {fd : Int} {outside : Int → Char} {data : List Char}
    {results : List WriteResult} {pos nwrite : Int} {sent : List Char}
    (h : writeLoop fd outside data results pos nwrite = some (slurmSuccess, sent)) :
    sent.length = nwrite.toNat + results.countP (·.interrupted) := by
  induction results generalizing pos nwrite sent with
  | nil =>
    unfold writeLoop at h
    split at h
    · cases h
    · cases h
      simp only [List.length_nil, List.countP_nil]
      omega
  | cons result rest ih =>
    unfold writeLoop at h
    split at h
    · cases h
    · cases result with
      | wrote amount =>
        simp only at h
        split at h
        · rename_i hok
          obtain ⟨done, hdone, heq⟩ := Option.map_eq_some_iff.mp h
          obtain ⟨rc, tail⟩ := done
          cases heq
          have htail := ih hdone
          rw [List.countP_cons_of_neg (by simp [WriteResult.interrupted])]
          simp only [chunk, List.length_append, List.length_map, List.length_range]
          omega
        · cases h
      | error errno =>
        simp only at h
        split at h
        · rename_i hintr
          have htail := ih h
          rw [List.countP_cons_of_pos (by simp [WriteResult.interrupted, hintr])]
          omega
        · split at h
          · have hrc := congrArg Prod.fst (Option.some.inj h)
            exact absurd hrc (by simp)
          · cases h

theorem chunk_eq {outside : Int → Char} {data : List Char} {pos amount : Nat}
    (h : pos + amount ≤ data.length) :
    chunk outside data pos amount = (data.drop pos).take amount := by
  apply List.ext_getElem
  · simp only [chunk, List.length_map, List.length_range, List.length_take, List.length_drop]
    omega
  · intro i hi _
    have hlt : pos + i < data.length := by
      simp only [chunk, List.length_map, List.length_range] at hi
      omega
    have hnat : ((pos : Int) + (i : Int)).toNat = pos + i := by omega
    simp only [chunk, List.getElem_map, List.getElem_range, charAt, hnat, List.getElem_take,
      List.getElem_drop, List.getD_eq_getElem _ _ hlt]
    rw [if_pos (by omega)]

/-- Without an interruption the loop sends the text from `pos` on. -/
theorem writeLoop_sent {fd : Int} {outside : Int → Char} {data : List Char}
    {results : List WriteResult} {pos nwrite : Nat} {sent : List Char}
    (hlen : pos + nwrite ≤ data.length) (hintr : results.countP (·.interrupted) = 0)
    (h : writeLoop fd outside data results pos nwrite = some (slurmSuccess, sent)) :
    sent = (data.drop pos).take nwrite := by
  induction results generalizing pos nwrite sent with
  | nil =>
    unfold writeLoop at h
    split at h
    · cases h
    · rename_i hzero
      cases h
      obtain rfl : nwrite = 0 := by omega
      rw [List.take_zero]
  | cons result rest ih =>
    rw [List.countP_cons] at hintr
    unfold writeLoop at h
    split at h
    · cases h
    · cases result with
      | wrote amount =>
        simp only at h
        split at h
        · rename_i hok
          obtain ⟨done, hdone, heq⟩ := Option.map_eq_some_iff.mp h
          obtain ⟨rc, tail⟩ := done
          cases heq
          have hpos : ((pos : Int) + (amount : Int)) = ((pos + amount : Nat) : Int) := by omega
          have hleft : ((nwrite : Int) - (amount : Int)) = ((nwrite - amount : Nat) : Int) := by
            omega
          rw [hpos, hleft] at hdone
          have htail := ih (by omega) (by omega) hdone
          rw [htail, chunk_eq (by omega), ← List.drop_drop]
          have hsum : nwrite = amount + (nwrite - amount) := by omega
          conv_rhs => rw [hsum, List.take_add]
        · cases h
      | error errno =>
        simp only at h
        split at h
        · rename_i hsig
          simp [WriteResult.interrupted, hsig] at hintr
        · split at h
          · have hrc := congrArg Prod.fst (Option.some.inj h)
            exact absurd hrc (by simp)
          · cases h

/-- The characters `_write_to_file` sets out to write. -/
def fit (n : Nat) : Nat := (int32 n).toNat

theorem fit_of_lt {n : Nat} (h : n < 2147483648) : fit n = n := by
  unfold fit
  rw [int32_of_range (by omega) (by omega)]
  omega

theorem fit_le (n : Nat) : fit n ≤ n := by
  unfold fit int32
  rw [Int.bmod_def]
  split <;> omega

theorem lt_of_fit_eq {n : Nat} (h : fit n = n) : n < 2147483648 := by
  have := int32_lt (n : Int)
  unfold fit at h
  omega

theorem writeToFile_rc_eq_zero_iff {fd rc : Int} {data sent : List Char} {writes : Writes}
    (h : writeToFile fd data writes = some (rc, sent)) : rc = 0 ↔ writes.fails = false :=
  writeLoop_rc_eq_zero_iff h

theorem writeToFile_length {fd : Int} {data sent : List Char} {writes : Writes}
    (h : writeToFile fd data writes = some (slurmSuccess, sent)) :
    sent.length = fit data.length + writes.interrupts := writeLoop_length h

theorem writeToFile_sent {fd : Int} {data sent : List Char} {writes : Writes}
    (hshort : data.length < 2147483648) (hintr : writes.interrupts = 0)
    (h : writeToFile fd data writes = some (slurmSuccess, sent)) : sent = data := by
  rw [writeToFile, int32_of_range (by omega) (by omega)] at h
  rw [@writeLoop_sent fd writes.outside data writes.results 0 _ _ (by omega) hintr h,
    List.drop_zero, List.take_length]

/-- A text cannot be written where no file is open. -/
theorem writeToFile_of_closed {fd rc : Int} {data sent : List Char} {writes : Writes}
    (hfd : fd < 0) (hpos : 0 < fit data.length)
    (h : writeToFile fd data writes = some (rc, sent)) : rc ≠ 0 := by
  intro hrc
  subst hrc
  -- every result would be an interruption, and none of them ends the loop
  have hloop : ∀ (results : List WriteResult) (pos nwrite : Int), 0 < nwrite →
      writeLoop fd writes.outside data results pos nwrite ≠ some (0, sent) := by
    intro results
    induction results with
    | nil =>
      intro pos nwrite hn h
      unfold writeLoop at h
      rw [if_pos hn] at h
      cases h
    | cons result rest ih =>
      intro pos nwrite hn h
      unfold writeLoop at h
      rw [if_neg (by omega)] at h
      cases result with
      | wrote amount =>
        simp only at h
        rw [if_neg (by omega)] at h
        cases h
      | error errno =>
        simp only at h
        split at h
        · exact ih _ _ (by omega) h
        · split at h
          · have hrc := congrArg Prod.fst (Option.some.inj h)
            exact absurd hrc (by simp)
          · cases h
  refine hloop writes.results 0 (int32 data.length) ?_ h
  unfold fit at hpos
  omega

/-! ## The file -/

/-- A row of a query's result: the time it is ordered by (`submit` for jobs),
the time it ended, the mark of a deleted record, and the text of the columns
asked for (`none` where the column is null). -/
structure Row where
  start : Nat
  stop : Nat
  deleted : Bool
  cols : List (Option (List Char))
deriving DecidableEq

/-- `struct tm`. -/
structure Tm where
  sec : Int
  min : Int
  hour : Int
  mday : Int
  mon : Int
  year : Int
  isdst : Int
deriving DecidableEq

/-- `printf("%*.*u", width, width, n)`. -/
def printfU (width : Nat) (n : Int) : List Char := Base.Text.padded width (uint32 n)

/-- The first of the month `localtime` gives, as the file names show it. -/
def monthStamp (tm : Tm) : List Char :=
  let tm := { tm with sec := 0, min := 0, hour := 0, mday := 1 }
  printfU 4 (tm.year + 1900) ++ "-".toList ++ printfU 2 (tm.mon + 1) ++ "-".toList ++
    printfU 2 tm.mday ++ "T".toList ++ printfU 2 tm.hour ++ ":".toList ++ printfU 2 tm.min ++
    ":".toList ++ printfU 2 tm.sec

/-- The three names of an archive file. -/
structure Names where
  reg : List Char
deriving DecidableEq

/-- The name the replaced file is kept under. -/
def Names.old (names : Names) : List Char := names.reg ++ ".old".toList

/-- The name the file is written under. -/
def Names.new (names : Names) : List Char := names.reg ++ ".new".toList

/-- What one call of `_write_archive_file` is given. `localtime_r` is taken
not to fail here: its result is not looked at. -/
structure Target where
  localtime : Int → Tm
  archDir : List Char
  archType : List Char
  insert : List Char
  currEnd : Int
  withDeleted : Bool

/-- `"%s/%s_archive_%s_%s.sql"`. -/
def Target.regFile (t : Target) (periodStart : Int) : Names :=
  ⟨t.archDir ++ "/".toList ++ t.archType ++ "_archive_".toList ++
    monthStamp (t.localtime periodStart) ++ "_".toList ++ monthStamp (t.localtime t.currEnd) ++
    ".sql".toList⟩

/-- A column as `'%s'`. -/
def quoted (col : Option (List Char)) : List Char :=
  "'".toList ++ col.getD "(null)".toList ++ "'".toList

/-- A row's columns, and the parenthesis that closes it. -/
def Target.rowText (t : Target) (row : Row) : List Char :=
  ", ".toList.intercalate (row.cols.map quoted) ++
    if t.withDeleted then ", '1')".toList else ")".toList

/-- What stands before the first row of a file. -/
def Target.head (t : Target) : List Char := t.insert ++ "\nvalues\n(".toList

/-- What stands before every other row. -/
def separator : List Char := ",\n(".toList

/-- The closing clause. -/
def Target.trailer (t : Target) : List Char :=
  if t.withDeleted then " on duplicate key update deleted=1;".toList
  else " on duplicate key update period_end=VALUES(period_end);".toList

/-- The outcomes of the system calls of one `_write_archive_file`: the result
of each `creat` (and `errno` after it), the `write` calls row by row, those of
the closing clause, and which renames take effect. -/
structure Calls where
  creat : Nat → Int
  creatErrno : Int
  rows : List Writes
  trailer : Writes
  takes : FileSystem.Takes

/-- The variables of `_write_archive_file`: `file` is what `fd` refers to and
`opened` counts the calls of `creat`. -/
structure Writing where
  periodStart : Int
  fd : Int
  rc : Int
  names : Option Names
  file : Option Nat
  opened : Nat
  fs : FileSystem (List Char)

/-- Before the loop. -/
def Writing.start (fs : FileSystem (List Char)) : Writing :=
  ⟨0, 0, slurmSuccess, none, none, 0, fs⟩

/-- Characters written to `fd`. -/
def Writing.send (w : Writing) (more : List Char) : Writing :=
  match w.file with
  | none => w
  | some file => { w with fs := w.fs.append file more }

/-- The first branch of the loop: names made from the row's time, and the file
created under the new one. -/
def Target.openFile (t : Target) (calls : Calls) (w : Writing) (row : Row) : Writing :=
  let names := t.regFile row.start
  let fd := calls.creat w.opened
  { w with
    periodStart := row.start
    fd := fd
    names := some names
    file := if 0 ≤ fd then some (w.fs.created names.new) else none
    opened := w.opened + 1
    fs := if 0 ≤ fd then w.fs.creat names.new else w.fs }

/-- The variables a row is written with. -/
def Target.ready (t : Target) (calls : Calls) (w : Writing) (row : Row) : Writing :=
  if w.periodStart = 0 then t.openFile calls w row else w

/-- The text `values` holds for a row. -/
def Target.values (t : Target) (w : Writing) (row : Row) : List Char :=
  (if w.periodStart = 0 then t.head else separator) ++ t.rowText row

/-- The row loop. A file is created as long as `period_start` is zero; a file
number of zero ends the loop, and so does a text that cannot be written. -/
def Target.writeRows (t : Target) (calls : Calls) :
    List Row → List Writes → Writing → Option Writing
  | [], [], w => some w
  | [], _ :: _, _ => none
  | row :: rows, results, w =>
    if w.periodStart = 0 ∧ calls.creat w.opened = 0 then
      if results = [] then some { t.ready calls w row with rc := calls.creatErrno } else none
    else
      match results with
      | [] => none
      | writes :: results =>
        match writeToFile (t.ready calls w row).fd (t.values w row) writes with
        | none => none
        | some (rc, sent) =>
          if rc ≠ slurmSuccess then
            if results = [] then some { (t.ready calls w row).send sent with rc := rc }
            else none
          else t.writeRows calls rows results
            { (t.ready calls w row).send sent with rc := rc }

/-- What `_write_archive_file` returns and leaves. -/
structure Outcome where
  rc : Int
  names : Option Names
  fs : FileSystem (List Char)

/-- `_write_archive_file`: the closing clause goes to whatever `fd` is, and
its return code replaces that of the rows. -/
def Target.writeArchiveFile (t : Target) (calls : Calls) (rows : List Row)
    (fs : FileSystem (List Char)) : Option Outcome :=
  match t.writeRows calls rows calls.rows (.start fs) with
  | none => none
  | some w =>
    match writeToFile w.fd t.trailer calls.trailer with
    | none => none
    | some (rc, sent) =>
      let w := w.send sent
      match w.names with
      | none => some ⟨rc, none, w.fs⟩
      | some names =>
        let fs :=
          if rc ≠ slurmSuccess then w.fs.unlink calls.takes.unlinkNew names.new
          else w.fs.shuffle calls.takes names.old names.reg names.new
        some ⟨rc, some names, fs⟩

end Slurm.Archive
