import SlurmLite.Archive.Write

/-!
# What an archive file holds

The text of a whole archive and the file `_write_archive_file` publishes,
compared.

* **Return code**: `writeArchiveFile_rc_eq_zero_iff`: success is reported
  exactly when no `write` of the closing clause failed, whatever became of the
  rows.
* **Enough**: `published_of_intact` gives the conditions under which the
  published file holds the whole text.
* **Needed**: `intact_of_published` shows them necessary, by counting
  characters: `writeRows_length` for one file, `writeRows_bytes_lt` for the
  files a `period_start` of zero makes the loop start over.
-/

namespace Slurm.Archive

open Base.CLib Base.Files

/-- The text of the rows after the first. -/
def Target.body (t : Target) (rows : List Row) : List Char :=
  rows.flatMap fun row => separator ++ t.rowText row

/-- The whole content of the archive of a query's result. -/
def Target.text (t : Target) (first : Row) (rest : List Row) : List Char :=
  t.head ++ t.rowText first ++ t.body rest ++ t.trailer

/-- The file that ends up under the archive's name has this content. -/
def Outcome.Published (out : Outcome) (text : List Char) : Prop :=
  ∃ names, out.names = some names ∧ out.fs.read names.reg = some text

/-! ## Names -/

theorem Names.old_ne_reg (names : Names) : names.reg ≠ names.old := by
  intro h
  have := congrArg List.length h
  simp [Names.old] at this

theorem Names.new_ne_reg (names : Names) : names.reg ≠ names.new := by
  intro h
  have := congrArg List.length h
  simp [Names.new] at this

theorem Names.new_ne_old (names : Names) : names.new ≠ names.old := by
  intro h
  have hsuffix := List.append_cancel_left h
  exact absurd hsuffix (by decide)

/-! ## One row -/

@[simp] theorem send_nil (w : Writing) : w.send [] = w := by
  obtain ⟨_, _, _, _, file, _, fs⟩ := w
  cases file with
  | none => rfl
  | some file => simp [Writing.send, FileSystem.append]

theorem send_send (w : Writing) (rc : Int) (more rest : List Char) :
    { w.send more with rc := rc }.send rest = { w.send (more ++ rest) with rc := rc } := by
  obtain ⟨_, _, _, _, file, _, fs⟩ := w
  cases file with
  | none => rfl
  | some file => simp [Writing.send, FileSystem.append_append]

@[simp] theorem send_file (w : Writing) (more : List Char) : (w.send more).file = w.file := by
  unfold Writing.send
  split <;> rfl

@[simp] theorem send_fd (w : Writing) (more : List Char) : (w.send more).fd = w.fd := by
  unfold Writing.send
  split <;> rfl

@[simp] theorem send_names (w : Writing) (more : List Char) : (w.send more).names = w.names := by
  unfold Writing.send
  split <;> rfl

@[simp] theorem send_periodStart (w : Writing) (more : List Char) :
    (w.send more).periodStart = w.periodStart := by
  unfold Writing.send
  split <;> rfl

@[simp] theorem send_dir (w : Writing) (more : List Char) : (w.send more).fs.dir = w.fs.dir := by
  unfold Writing.send
  split <;> rfl

/-- Only the open file gets the characters. -/
theorem send_bytes (w : Writing) (more : List Char) (file : Nat) :
    (w.send more).fs.bytes file =
      if w.file = some file then w.fs.bytes file ++ more else w.fs.bytes file := by
  obtain ⟨_, _, _, _, opened, _, fs⟩ := w
  cases opened with
  | none => simp [Writing.send]
  | some opened =>
    by_cases h : file = opened
    · subst h
      simp [Writing.send]
    · have h' : ¬ some opened = some file := fun heq => h (Option.some.inj heq).symm
      simp [Writing.send, h', FileSystem.append_bytes_of_ne _ _ h]

/-- What the loop does at a row: it stops because the file number is zero, or
it writes the row's text, and stops when that fails. -/
theorem writeRows_cons_cases {t : Target} {calls : Calls} {row : Row} {rows : List Row}
    {results : List Writes} {w w' : Writing}
    (h : t.writeRows calls (row :: rows) results w = some w') :
    ((w.periodStart = 0 ∧ calls.creat w.opened = 0) ∧ results = [] ∧
      w' = { t.ready calls w row with rc := calls.creatErrno }) ∨
    ∃ writes rest rc sent, ¬(w.periodStart = 0 ∧ calls.creat w.opened = 0) ∧
      results = writes :: rest ∧
      writeToFile (t.ready calls w row).fd (t.values w row) writes = some (rc, sent) ∧
      ((rc ≠ slurmSuccess ∧ rest = [] ∧ w' = { (t.ready calls w row).send sent with rc := rc }) ∨
        (rc = slurmSuccess ∧
          t.writeRows calls rows rest { (t.ready calls w row).send sent with rc := rc } =
            some w')) := by
  unfold Target.writeRows at h
  split at h
  · rename_i hzero
    split at h
    · rename_i hnil
      exact Or.inl ⟨hzero, hnil, (Option.some.inj h).symm⟩
    · cases h
  · rename_i hopen
    right
    cases results with
    | nil => cases h
    | cons writes rest =>
      simp only at h
      split at h
      · cases h
      · rename_i rc sent hwrite
        refine ⟨writes, rest, rc, sent, hopen, rfl, hwrite, ?_⟩
        split at h
        · rename_i hrc
          split at h
          · rename_i hnil
            exact Or.inl ⟨hrc, hnil, (Option.some.inj h).symm⟩
          · cases h
        · rename_i hrc
          exact Or.inr ⟨not_not.mp hrc, h⟩

theorem ready_of_started {t : Target} {calls : Calls} {w : Writing} {row : Row}
    (h : w.periodStart ≠ 0) : t.ready calls w row = w := if_neg h

theorem values_of_started {t : Target} {w : Writing} {row : Row} (h : w.periodStart ≠ 0) :
    t.values w row = separator ++ t.rowText row := by
  rw [Target.values, if_neg h]

/-! ## Rows into one file -/

/-- No `write` of the rows fails. -/
def RowsWritten (results : List Writes) : Prop := ∀ writes ∈ results, writes.fails = false

/-- The interruptions of all rows. -/
def interrupts (results : List Writes) : Nat := (results.map (·.interrupts)).sum

/-- Once a file is open for good, the rows all go to it. -/
theorem writeRows_started {t : Target} {calls : Calls} {rows : List Row} {results : List Writes}
    {w w' : Writing} (hw : w.periodStart ≠ 0) (hok : RowsWritten results)
    (h : t.writeRows calls rows results w = some w') :
    ∃ sent rc, w' = { w.send sent with rc := rc } ∧
      sent.length = (rows.map fun row => fit (separator ++ t.rowText row).length).sum +
        interrupts results ∧
      ((∀ row ∈ rows, (separator ++ t.rowText row).length < 2147483648) →
        interrupts results = 0 → sent = t.body rows) := by
  induction rows generalizing results w with
  | nil =>
    cases results with
    | nil =>
      obtain rfl : w = w' := Option.some.inj h
      exact ⟨[], w.rc, by simp, rfl, fun _ _ => rfl⟩
    | cons writes rest => cases h
  | cons row rows ih =>
    obtain ⟨hzero, -, -⟩ | ⟨writes, rest, rc, sent, -, rfl, hwrite, hstep⟩ :=
      writeRows_cons_cases h
    · exact absurd hzero.1 hw
    rw [ready_of_started hw, values_of_started hw] at hwrite
    rw [ready_of_started hw] at hstep
    have hrc : rc = slurmSuccess :=
      (writeToFile_rc_eq_zero_iff hwrite).mpr (hok writes List.mem_cons_self)
    subst hrc
    obtain ⟨hne, -⟩ | ⟨-, hrest⟩ := hstep
    · exact absurd rfl hne
    obtain ⟨more, rc, rfl, hlen, hexact⟩ :=
      ih (by simpa using hw) (fun u hu => hok u (List.mem_cons_of_mem _ hu)) hrest
    refine ⟨sent ++ more, rc, ?_, ?_, ?_⟩
    · rw [send_send]
    · rw [List.length_append, hlen, writeToFile_length hwrite]
      simp only [List.map_cons, List.sum_cons, interrupts]
      omega
    · intro hshort hintr
      simp only [interrupts, List.map_cons, List.sum_cons] at hintr
      have hsent : sent = separator ++ t.rowText row :=
        writeToFile_sent (hshort row List.mem_cons_self) (by omega) hwrite
      have hmore : more = t.body rows :=
        hexact (fun r hr => hshort r (List.mem_cons_of_mem _ hr)) (by unfold interrupts; omega)
      rw [hsent, hmore]
      rfl

/-! ## The first row -/

theorem ready_of_zero {t : Target} {calls : Calls} {w : Writing} {row : Row}
    (h : w.periodStart = 0) : t.ready calls w row = t.openFile calls w row := if_pos h

theorem values_of_zero {t : Target} {w : Writing} {row : Row} (h : w.periodStart = 0) :
    t.values w row = t.head ++ t.rowText row := by
  rw [Target.values, if_pos h]

/-- Opening empties the file it opens and leaves the others alone. -/
theorem openFile_bytes (t : Target) (calls : Calls) (w : Writing) (row : Row) (file : Nat) :
    (t.openFile calls w row).fs.bytes file =
      if (t.openFile calls w row).file = some file then [] else w.fs.bytes file := by
  simp only [Target.openFile]
  by_cases hfd : 0 ≤ calls.creat w.opened
  · simp only [hfd, if_true]
    by_cases hfile : file = w.fs.created (t.regFile row.start).new
    · subst hfile
      rw [if_pos rfl, FileSystem.creat_bytes_created]
    · rw [if_neg (fun h => hfile (Option.some.inj h).symm),
        FileSystem.creat_bytes_of_ne _ hfile]
  · simp [hfd]

/-- A file opened and written to holds what was written; the others are as
they were. -/
theorem openSend_bytes (t : Target) (calls : Calls) (w : Writing) (row : Row) (sent : List Char)
    (file : Nat) :
    (((t.openFile calls w row).send sent).fs.bytes file = w.fs.bytes file ∧
        ((t.openFile calls w row).send sent).file ≠ some file) ∨
      ((t.openFile calls w row).send sent).file = some file ∧
        ((t.openFile calls w row).send sent).fs.bytes file = sent := by
  rw [send_bytes, openFile_bytes, send_file]
  by_cases hfile : (t.openFile calls w row).file = some file
  · exact Or.inr ⟨hfile, by simp [hfile]⟩
  · exact Or.inl ⟨by simp [hfile], hfile⟩

/-- A result with one row, or with times other than zero, goes to one file. -/
theorem writeRows_first {t : Target} {calls : Calls} {first : Row} {rest : List Row}
    {fs : FileSystem (List Char)} {results : List Writes} {w' : Writing}
    (hcreat : calls.creat 0 ≠ 0) (honce : first.start ≠ 0 ∨ rest = [])
    (hok : RowsWritten results)
    (h : t.writeRows calls (first :: rest) results (.start fs) = some w') :
    ∃ sent rc, w' = { (t.openFile calls (.start fs) first).send sent with rc := rc } ∧
      sent.length = fit (t.head ++ t.rowText first).length +
        (rest.map fun row => fit (separator ++ t.rowText row).length).sum + interrupts results ∧
      ((t.head ++ t.rowText first).length < 2147483648 →
        (∀ row ∈ rest, (separator ++ t.rowText row).length < 2147483648) →
        interrupts results = 0 → sent = t.head ++ t.rowText first ++ t.body rest) := by
  have hstart : (Writing.start fs).periodStart = 0 := rfl
  obtain ⟨hzero, -, -⟩ | ⟨writes, more, rc, sent, -, rfl, hwrite, hstep⟩ :=
    writeRows_cons_cases h
  · exact absurd hzero.2 hcreat
  rw [ready_of_zero hstart, values_of_zero hstart] at hwrite
  rw [ready_of_zero hstart] at hstep
  have hrc : rc = slurmSuccess :=
    (writeToFile_rc_eq_zero_iff hwrite).mpr (hok writes List.mem_cons_self)
  subst hrc
  obtain ⟨hne, -⟩ | ⟨-, hrest⟩ := hstep
  · exact absurd rfl hne
  have hmoreOk : RowsWritten more := fun u hu => hok u (List.mem_cons_of_mem _ hu)
  have hlen := writeToFile_length hwrite
  by_cases hnil : rest = []
  · subst hnil
    cases more with
    | cons u more => cases hrest
    | nil =>
      refine ⟨sent, slurmSuccess, (Option.some.inj hrest).symm, ?_, ?_⟩
      · simpa [interrupts] using hlen
      · intro hshort _ hintr
        simp only [interrupts, List.map_cons, List.map_nil, List.sum_cons, List.sum_nil] at hintr
        rw [writeToFile_sent hshort (by omega) hwrite]
        simp [Target.body]
  · have hne : first.start ≠ 0 := honce.resolve_right hnil
    obtain ⟨tail, rc, rfl, htail, hexact⟩ :=
      writeRows_started (by simpa [Target.openFile] using hne) hmoreOk hrest
    refine ⟨sent ++ tail, rc, by rw [send_send], ?_, ?_⟩
    · rw [List.length_append, htail, hlen]
      simp only [interrupts, List.map_cons, List.sum_cons]
      omega
    · intro hshort hall hintr
      simp only [interrupts, List.map_cons, List.sum_cons] at hintr
      rw [writeToFile_sent hshort (by omega) hwrite,
        hexact hall (by unfold interrupts; omega)]

theorem fit_sum_le (t : Target) (rows : List Row) :
    (rows.map fun row => fit (separator ++ t.rowText row).length).sum ≤ (t.body rows).length := by
  rw [Target.body, List.length_flatMap]
  exact List.sum_le_sum fun row _ => fit_le _

/-- Where no `write` is interrupted, a file of the loop is never longer than
the texts of the rows left, and shorter when a second row starts a new one. -/
theorem writeRows_bytes_lt {t : Target} {calls : Calls} {row : Row} {rows : List Row}
    {results : List Writes} {w w' : Writing} (hw : w.periodStart = 0) (hok : RowsWritten results)
    (hintr : interrupts results = 0)
    (h : t.writeRows calls (row :: rows) results w = some w') (file : Nat) :
    w'.fs.bytes file = w.fs.bytes file ∧ w'.file ≠ some file ∨
      (w'.fs.bytes file).length ≤ (t.head ++ t.rowText row ++ t.body rows).length ∧
      (row.start = 0 → rows ≠ [] →
        (w'.fs.bytes file).length < (t.head ++ t.rowText row ++ t.body rows).length) := by
  have hhead : 0 < t.head.length := by simp [Target.head]
  induction rows generalizing row results w with
  | nil =>
    obtain ⟨-, -, rfl⟩ | ⟨writes, more, rc, sent, -, rfl, hwrite, hstep⟩ := writeRows_cons_cases h
    · rw [ready_of_zero hw]
      have hopen := openFile_bytes t calls w row file
      split at hopen
      · right
        simp [hopen]
      · rename_i hfile
        exact Or.inl ⟨hopen, hfile⟩
    · rw [ready_of_zero hw, values_of_zero hw] at hwrite
      rw [ready_of_zero hw] at hstep
      have hrc := (writeToFile_rc_eq_zero_iff hwrite).mpr (hok writes List.mem_cons_self)
      subst hrc
      obtain ⟨hne, -⟩ | ⟨-, hrest⟩ := hstep
      · exact absurd rfl hne
      cases more with
      | cons u more => cases hrest
      | nil =>
        obtain rfl := Option.some.inj hrest
        have hlen := writeToFile_length hwrite
        have hfit := fit_le (t.head ++ t.rowText row).length
        simp only [interrupts, List.map_cons, List.map_nil, List.sum_cons,
          List.sum_nil] at hintr
        obtain hsame | ⟨-, hsent⟩ := openSend_bytes t calls w row sent file
        · exact Or.inl hsame
        · right
          rw [show ({ (t.openFile calls w row).send sent with rc := slurmSuccess } :
            Writing).fs.bytes file = sent from hsent]
          simp only [Target.body, List.flatMap_nil, List.append_nil]
          exact ⟨by omega, fun _ hnil => absurd rfl hnil⟩
  | cons next rows ih =>
    obtain ⟨-, -, rfl⟩ | ⟨writes, more, rc, sent, -, rfl, hwrite, hstep⟩ := writeRows_cons_cases h
    · rw [ready_of_zero hw]
      have hopen := openFile_bytes t calls w row file
      split at hopen
      · right
        simp only [hopen, List.length_nil, List.length_append]
        exact ⟨by omega, fun _ _ => by omega⟩
      · rename_i hfile
        exact Or.inl ⟨hopen, hfile⟩
    · rw [ready_of_zero hw, values_of_zero hw] at hwrite
      rw [ready_of_zero hw] at hstep
      have hrc := (writeToFile_rc_eq_zero_iff hwrite).mpr (hok writes List.mem_cons_self)
      subst hrc
      obtain ⟨hne, -⟩ | ⟨-, hrest⟩ := hstep
      · exact absurd rfl hne
      have hmoreOk : RowsWritten more := fun u hu => hok u (List.mem_cons_of_mem _ hu)
      have hlen := writeToFile_length hwrite
      have hfit := fit_le (t.head ++ t.rowText row).length
      simp only [interrupts, List.map_cons, List.sum_cons] at hintr
      have hsplit := openSend_bytes t calls w row sent file
      have hbody : (t.body (next :: rows)).length =
          3 + (t.rowText next).length + (t.body rows).length := by
        simp [Target.body, separator]
        omega
      by_cases hzero : row.start = 0
      · -- the next row starts its file anew, so this row's text is lost
        have hnext := ih (by simpa [Target.openFile] using hzero) hmoreOk
          (by unfold interrupts; omega) hrest
        simp only [List.length_append] at hnext hlen hfit ⊢
        obtain ⟨hkept, hother⟩ | ⟨hle, -⟩ := hnext
        · obtain ⟨hsame, -⟩ | ⟨-, hsent⟩ := hsplit
          · left
            exact ⟨hkept.trans hsame, hother⟩
          · right
            rw [hkept, show ({ (t.openFile calls w row).send sent with rc := slurmSuccess } :
              Writing).fs.bytes file = sent from hsent]
            exact ⟨by omega, fun _ _ => by omega⟩
        · right
          exact ⟨by omega, fun _ _ => by omega⟩
      · obtain ⟨tail, rc, rfl, htail, -⟩ :=
          writeRows_started (by simpa [Target.openFile] using hzero) hmoreOk hrest
        have hsum := fit_sum_le t (next :: rows)
        have hnone : interrupts more = 0 := by unfold interrupts; omega
        rw [send_send]
        obtain ⟨hsame, hother⟩ | ⟨-, hsent⟩ := openSend_bytes t calls w row (sent ++ tail) file
        · exact Or.inl ⟨hsame, hother⟩
        · right
          rw [show ({ (t.openFile calls w row).send (sent ++ tail) with rc := rc } :
            Writing).fs.bytes file = sent ++ tail from hsent]
          simp only [List.length_append] at hlen hfit ⊢
          exact ⟨by omega, fun h => absurd h hzero⟩

/-! ## The published file -/

/-- The closing clause is written to the file the rows went to, and the
shuffle follows a success. -/
theorem writeArchiveFile_cases {t : Target} {calls : Calls} {rows : List Row}
    {fs : FileSystem (List Char)} {out : Outcome}
    (h : t.writeArchiveFile calls rows fs = some out) :
    ∃ w sent, t.writeRows calls rows calls.rows (.start fs) = some w ∧
      writeToFile w.fd t.trailer calls.trailer = some (out.rc, sent) ∧ out.names = w.names ∧
      ∀ names, w.names = some names → out.rc = slurmSuccess →
        out.fs = (w.send sent).fs.shuffle calls.takes names.old names.reg names.new := by
  unfold Target.writeArchiveFile at h
  split at h
  · cases h
  · rename_i w hrows
    split at h
    · cases h
    · rename_i rc sent htrailer
      simp only [send_names] at h
      refine ⟨w, sent, hrows, ?_⟩
      split at h
      · rename_i hnone
        obtain rfl := Option.some.inj h
        exact ⟨htrailer, hnone.symm, fun names hnames => by rw [hnone] at hnames; cases hnames⟩
      · rename_i names hnames
        obtain rfl := Option.some.inj h
        refine ⟨htrailer, hnames.symm, fun names' hnames' hrc => ?_⟩
        obtain rfl := Option.some.inj (hnames.symm.trans hnames')
        rw [if_neg (not_not.mpr hrc)]

/-- Success is reported exactly when the closing clause is written. -/
theorem writeArchiveFile_rc_eq_zero_iff {t : Target} {calls : Calls} {rows : List Row}
    {fs : FileSystem (List Char)} {out : Outcome}
    (h : t.writeArchiveFile calls rows fs = some out) :
    out.rc = 0 ↔ calls.trailer.fails = false := by
  obtain ⟨w, sent, -, htrailer, -⟩ := writeArchiveFile_cases h
  exact writeToFile_rc_eq_zero_iff htrailer

theorem fit_trailer (t : Target) :
    fit t.trailer.length = t.trailer.length ∧ 0 < t.trailer.length := by
  unfold Target.trailer
  split <;> decide

/-- The archive's name ends up on the file just written. -/
def Renamed (takes : FileSystem.Takes) (names : Names) (fs : FileSystem (List Char)) : Prop :=
  if takes.unlinkReg ∨ fs.dir names.reg = none then takes.linkReg = true
  else fs.dir names.reg = fs.dir names.new

theorem shuffle_dir_iff_renamed {takes : FileSystem.Takes} {names : Names}
    {fs written : FileSystem (List Char)} (h : written.dir = (fs.creat names.new).dir) :
    (written.shuffle takes names.old names.reg names.new).dir names.reg =
      some (fs.created names.new) ↔ Renamed takes names fs := by
  rw [FileSystem.shuffle_dir_reg _ _ names.old_ne_reg names.new_ne_reg names.new_ne_old, h,
    FileSystem.creat_dir_of_ne _ names.new_ne_reg, FileSystem.creat_dir_self, Renamed]
  by_cases hgone : takes.unlinkReg ∨ fs.dir names.reg = none
  · rw [if_pos hgone, if_pos hgone]
    cases takes.linkReg <;> simp
  · rw [if_neg hgone, if_neg hgone, FileSystem.dir_eq_created_iff]
    exact ⟨fun h => h.2, fun h => ⟨fun hnone => hgone (Or.inr hnone), h⟩⟩

/-- The texts `_write_to_file` is given for the rows. -/
def Target.texts (t : Target) (first : Row) (rest : List Row) : List (List Char) :=
  (t.head ++ t.rowText first) :: rest.map fun row => separator ++ t.rowText row

/-- The calls and the rows under which a success leaves the whole archive. -/
structure Intact (t : Target) (calls : Calls) (fs : FileSystem (List Char)) (first : Row)
    (rest : List Row) : Prop where
  /-- The file does not get the number zero. -/
  created : calls.creat 0 ≠ 0
  /-- The file is created once. -/
  once : first.start ≠ 0 ∨ rest = []
  /-- No text is too long for an `int`. -/
  short : ∀ text ∈ t.texts first rest, text.length < 2147483648
  /-- No `write` is interrupted. -/
  uninterrupted : interrupts calls.rows = 0 ∧ calls.trailer.interrupts = 0
  /-- The archive's name goes to the new file. -/
  renamed : Renamed calls.takes (t.regFile first.start) fs

section Published

variable {t : Target} {calls : Calls} {fs : FileSystem (List Char)} {first : Row}
  {rest : List Row} {out : Outcome}

/-- Where a success is reported, the file was opened. -/
theorem openFile_file_of_success {sent : List Char} {rc : Int} {w : Writing}
    (hw : w = { (t.openFile calls (.start fs) first).send sent with rc := rc })
    {tail : List Char}
    (htrailer : writeToFile w.fd t.trailer calls.trailer = some (slurmSuccess, tail)) :
    (t.openFile calls (.start fs) first).file =
      some (fs.created (t.regFile first.start).new) ∧
    (t.openFile calls (.start fs) first).fs = fs.creat (t.regFile first.start).new := by
  obtain ⟨hfit, hpos⟩ := fit_trailer t
  have hfd : 0 ≤ calls.creat 0 := by
    by_contra hneg
    have hclosed : w.fd < 0 := by
      subst hw
      rw [show ({ (t.openFile calls (.start fs) first).send sent with rc := rc } : Writing).fd =
        calls.creat 0 from send_fd ..]
      omega
    exact writeToFile_of_closed hclosed (by omega) htrailer rfl
  have hopened : (Writing.start fs).opened = 0 := rfl
  constructor
  · simp only [Target.openFile, hopened, if_pos hfd]
    rfl
  · simp only [Target.openFile, hopened, if_pos hfd]
    rfl

/-- Under these conditions the published file is the whole archive. -/
theorem published_of_intact (hrows : RowsWritten calls.rows) (hrc : out.rc = slurmSuccess)
    (hint : Intact t calls fs first rest)
    (h : t.writeArchiveFile calls (first :: rest) fs = some out) :
    out.Published (t.text first rest) := by
  obtain ⟨w, tail, hwrite, htrailer, hnames, hshuffle⟩ := writeArchiveFile_cases h
  obtain ⟨sent, rc, hw, -, hexact⟩ := writeRows_first hint.created hint.once hrows hwrite
  rw [hrc] at htrailer
  obtain ⟨hfile, hfs⟩ := openFile_file_of_success hw htrailer
  have hsent := hexact (hint.short _ List.mem_cons_self)
    (fun row hrow => hint.short _ (List.mem_cons_of_mem _ (List.mem_map_of_mem hrow)))
    hint.uninterrupted.1
  obtain ⟨hfit, -⟩ := fit_trailer t
  have htail := writeToFile_sent (lt_of_fit_eq hfit) hint.uninterrupted.2 htrailer
  have hwnames : w.names = some (t.regFile first.start) := by
    subst hw
    exact send_names ..
  refine ⟨t.regFile first.start, hnames.trans hwnames, ?_⟩
  rw [hshuffle _ hwnames hrc, FileSystem.read, (shuffle_dir_iff_renamed ?_).mpr hint.renamed,
    Option.map_some, FileSystem.shuffle_bytes]
  · -- the file holds the rows and the closing clause
    subst hw
    rw [send_send]
    obtain ⟨-, hother⟩ | ⟨-, hbytes⟩ := openSend_bytes t calls (.start fs) first (sent ++ tail)
      (fs.created (t.regFile first.start).new)
    · rw [send_file] at hother
      exact absurd hfile hother
    · rw [show ({ (t.openFile calls (.start fs) first).send (sent ++ tail) with rc := rc } :
        Writing).fs.bytes (fs.created (t.regFile first.start).new) = sent ++ tail from hbytes,
        hsent, htail, Target.text]
  · subst hw
    rw [send_dir]
    exact (send_dir ..).trans (congrArg _ hfs)

theorem short_of_fit_sum {rows : List Row}
    (h : (rows.map fun row => fit (separator ++ t.rowText row).length).sum =
      (t.body rows).length) :
    ∀ row ∈ rows, (separator ++ t.rowText row).length < 2147483648 := by
  induction rows with
  | nil => exact fun row hrow => absurd hrow List.not_mem_nil
  | cons row rows ih =>
    have hsum := fit_sum_le t rows
    have hfit := fit_le (separator ++ t.rowText row).length
    have hbody : (t.body (row :: rows)).length =
        (separator ++ t.rowText row).length + (t.body rows).length := by
      simp only [Target.body, List.flatMap_cons, List.length_append]
    rw [List.map_cons, List.sum_cons, hbody] at h
    intro r hr
    obtain rfl | hr := List.mem_cons.mp hr
    · exact lt_of_fit_eq (by omega)
    · exact ih (by omega) r hr

theorem fit_sum_of_short {rows : List Row}
    (h : ∀ row ∈ rows, (separator ++ t.rowText row).length < 2147483648) :
    (rows.map fun row => fit (separator ++ t.rowText row).length).sum = (t.body rows).length := by
  rw [Target.body, List.length_flatMap]
  exact congrArg List.sum (List.map_congr_left fun row hrow => fit_of_lt (h row hrow))

/-- The conditions are necessary where no file held the archive before: for
any calls none of which is interrupted, and for interrupted calls that write
short texts to one open file. -/
theorem intact_of_published (hrows : RowsWritten calls.rows) (hrc : out.rc = slurmSuccess)
    (hnew : ∀ file, fs.bytes file ≠ t.text first rest)
    (hcase : (interrupts calls.rows = 0 ∧ calls.trailer.interrupts = 0) ∨
      (calls.creat 0 ≠ 0 ∧ (first.start ≠ 0 ∨ rest = []) ∧
        ∀ text ∈ t.texts first rest, text.length < 2147483648))
    (h : t.writeArchiveFile calls (first :: rest) fs = some out)
    (hpub : out.Published (t.text first rest)) : Intact t calls fs first rest := by
  obtain ⟨w, tail, hwrite, htrailer, hnames, hshuffle⟩ := writeArchiveFile_cases h
  rw [hrc] at htrailer
  obtain ⟨names, hout, hread⟩ := hpub
  have hwnames : w.names = some names := hnames.symm.trans hout
  rw [hshuffle names hwnames hrc] at hread
  obtain ⟨file, hdir, hbytes⟩ := Option.map_eq_some_iff.mp hread
  rw [FileSystem.shuffle_bytes, send_bytes] at hbytes
  have htail := writeToFile_length htrailer
  obtain ⟨hfit, -⟩ := fit_trailer t
  have hstart : (Writing.start fs).periodStart = 0 := rfl
  have hhead : 0 < t.head.length := by simp [Target.head]
  have htext : (t.text first rest).length = (t.head ++ t.rowText first).length +
      (t.body rest).length + t.trailer.length := by
    simp only [Target.text, List.length_append]
  have honce : first.start ≠ 0 ∨ rest = [] := by
    obtain hnone | hone := hcase
    · by_contra hmany
      rw [not_or, not_not] at hmany
      obtain ⟨hsame, hother⟩ | ⟨-, hlt⟩ :=
        writeRows_bytes_lt hstart hrows hnone.1 hwrite file
      · rw [if_neg hother] at hbytes
        exact hnew file (hsame.symm.trans hbytes)
      · have hlt := hlt hmany.1 hmany.2
        have hlen := congrArg List.length hbytes
        simp only [List.length_append] at hlt htext
        split at hlen
        · rw [List.length_append] at hlen
          omega
        · omega
    · exact hone.2.1
  have hcreated : calls.creat 0 ≠ 0 := by
    obtain hnone | hone := hcase
    · intro hzero
      -- the loop stops at once, and only the closing clause is written
      obtain ⟨-, -, hw⟩ | ⟨_, _, _, _, hne, -⟩ := writeRows_cons_cases hwrite
      · rw [ready_of_zero hstart] at hw
        have hopen := openFile_bytes t calls (.start fs) first file
        subst hw
        split at hbytes
        · rename_i hfile
          rw [show ({ t.openFile calls (.start fs) first with rc := calls.creatErrno } :
            Writing).fs.bytes file = [] from hopen.trans (if_pos hfile)] at hbytes
          have hlen := congrArg List.length hbytes
          simp only [List.nil_append, List.length_append] at hlen htext
          omega
        · rename_i hfile
          exact hnew file ((hopen.trans (if_neg hfile)).symm.trans hbytes)
      · exact hne ⟨hstart, hzero⟩
    · exact hone.1
  obtain ⟨sent, rc, hw, hlen, -⟩ := writeRows_first hcreated honce hrows hwrite
  obtain ⟨hfile, hfs⟩ := openFile_file_of_success hw htrailer
  obtain rfl : t.regFile first.start = names := by
    subst hw
    exact Option.some.inj ((send_names ..).symm.trans hwnames)
  have hsplit := openSend_bytes t calls (.start fs) first sent file
  -- a file that held the text before is excluded, so it is the one just written
  have hcur : file = fs.created (t.regFile first.start).new ∧
      sent.length + tail.length = (t.text first rest).length := by
    subst hw
    obtain ⟨hsame, hother⟩ | ⟨hcur, hsent⟩ := hsplit
    · rw [if_neg hother] at hbytes
      exact absurd (hsame.symm.trans hbytes) (hnew file)
    · rw [if_pos hcur, show ({ (t.openFile calls (.start fs) first).send sent with rc := rc } :
        Writing).fs.bytes file = sent from hsent] at hbytes
      rw [send_file, hfile] at hcur
      refine ⟨(Option.some.inj hcur).symm, ?_⟩
      rw [← hbytes, List.length_append]
  obtain ⟨rfl, htotal⟩ := hcur
  have hfirst := fit_le (t.head ++ t.rowText first).length
  have hsum := fit_sum_le t rest
  have hclean : interrupts calls.rows = 0 ∧ calls.trailer.interrupts = 0 := by
    obtain hnone | ⟨-, -, hshort⟩ := hcase
    · exact hnone
    · have h1 := fit_of_lt (hshort _ List.mem_cons_self)
      have h2 := fit_sum_of_short fun row hrow =>
        hshort _ (List.mem_cons_of_mem _ (List.mem_map_of_mem hrow))
      constructor <;> omega
  refine ⟨hcreated, honce, ?_, hclean, ?_⟩
  · intro text htextMem
    obtain rfl | htextMem := List.mem_cons.mp htextMem
    · exact lt_of_fit_eq (by omega)
    · obtain ⟨row, hrow, rfl⟩ := List.mem_map.mp htextMem
      exact short_of_fit_sum (by omega) row hrow
  · refine (shuffle_dir_iff_renamed ?_).mp hdir
    subst hw
    rw [send_dir]
    exact (send_dir ..).trans (congrArg _ hfs)

end Published

end Slurm.Archive
