import SlurmLite.Sacct.Print

/-!
# Columns

The print routines of `print_fields.c` and the rows `sacct` puts together with
them: the header, and a row for each record, in three modes.

* `joinBars`: with `-p` and `-P` a row is its texts with bars between them;
* `userText`: what of a row is free text, from the record or from the system;
* `splitsInColumns_iff`: a row has the columns of its header exactly when its
  free texts hold no bar.
-/

namespace Slurm.Print

open Base.Text Base.CLib Slurm.ParseTime

/-! ## The table of fields -/

/-- The print routines that the table names. -/
inductive Routine where
  | str | int | date | timeFromSecs
deriving DecidableEq

/-- `print_field_t`. -/
structure PrintField where
  len : Int
  name : Text
  printRoutine : Routine
  type : FieldType
deriving DecidableEq

/-- `fields` of `sacct.c`. -/
def fields : List PrintField := [
    ⟨10, "AllocCPUS".toList, .int, .allocCpus⟩,
    ⟨10, "Account".toList, .str, .account⟩,
    ⟨7, "AssocID".toList, .int, .associd⟩,
    ⟨10, "AveCPU".toList, .str, .aveCpu⟩,
    ⟨10, "AvePages".toList, .str, .avePages⟩,
    ⟨10, "AveRSS".toList, .str, .aveRss⟩,
    ⟨10, "AveVMSize".toList, .str, .aveVsize⟩,
    ⟨16, "BlockID".toList, .str, .blockid⟩,
    ⟨10, "Cluster".toList, .str, .cluster⟩,
    ⟨10, "CPUTime".toList, .timeFromSecs, .cpuTime⟩,
    ⟨10, "CPUTimeRAW".toList, .int, .cpuTimeRaw⟩,
    ⟨10, "Elapsed".toList, .timeFromSecs, .elapsed⟩,
    ⟨19, "Eligible".toList, .date, .eligible⟩,
    ⟨19, "End".toList, .date, .end⟩,
    ⟨8, "ExitCode".toList, .str, .exitcode⟩,
    ⟨6, "GID".toList, .int, .gid⟩,
    ⟨9, "Group".toList, .str, .group⟩,
    ⟨10, "JobID".toList, .str, .jobid⟩,
    ⟨10, "JobName".toList, .str, .jobname⟩,
    ⟨9, "Layout".toList, .str, .layout⟩,
    ⟨8, "MaxPages".toList, .str, .maxPages⟩,
    ⟨12, "MaxPagesNode".toList, .str, .maxPagesNode⟩,
    ⟨14, "MaxPagesTask".toList, .int, .maxPagesTask⟩,
    ⟨10, "MaxRSS".toList, .str, .maxRss⟩,
    ⟨10, "MaxRSSNode".toList, .str, .maxRssNode⟩,
    ⟨10, "MaxRSSTask".toList, .int, .maxRssTask⟩,
    ⟨10, "MaxVMSize".toList, .str, .maxVsize⟩,
    ⟨14, "MaxVMSizeNode".toList, .str, .maxVsizeNode⟩,
    ⟨14, "MaxVMSizeTask".toList, .int, .maxVsizeTask⟩,
    ⟨10, "MinCPU".toList, .str, .minCpu⟩,
    ⟨10, "MinCPUNode".toList, .str, .minCpuNode⟩,
    ⟨10, "MinCPUTask".toList, .int, .minCpuTask⟩,
    ⟨10, "NCPUS".toList, .int, .allocCpus⟩,
    ⟨15, "NodeList".toList, .str, .nodelist⟩,
    ⟨8, "NNodes".toList, .str, .nnodes⟩,
    ⟨8, "NTasks".toList, .int, .ntasks⟩,
    ⟨10, "Priority".toList, .int, .prio⟩,
    ⟨10, "Partition".toList, .str, .partition⟩,
    ⟨10, "QOS".toList, .str, .qos⟩,
    ⟨6, "QOSRAW".toList, .int, .qosraw⟩,
    ⟨8, "ReqCPUS".toList, .int, .reqCpus⟩,
    ⟨10, "Reserved".toList, .timeFromSecs, .resv⟩,
    ⟨10, "ResvCPU".toList, .timeFromSecs, .resvCpu⟩,
    ⟨10, "ResvCPURAW".toList, .int, .resvCpu⟩,
    ⟨19, "Start".toList, .date, .start⟩,
    ⟨10, "State".toList, .str, .state⟩,
    ⟨19, "Submit".toList, .date, .submit⟩,
    ⟨10, "Suspended".toList, .timeFromSecs, .suspended⟩,
    ⟨10, "SystemCPU".toList, .str, .systemcpu⟩,
    ⟨10, "Timelimit".toList, .str, .timelimit⟩,
    ⟨10, "TotalCPU".toList, .str, .totalcpu⟩,
    ⟨6, "UID".toList, .int, .uid⟩,
    ⟨9, "User".toList, .str, .user⟩,
    ⟨10, "UserCPU".toList, .str, .usercpu⟩,
    ⟨10, "WCKey".toList, .str, .wckey⟩,
    ⟨10, "WCKeyID".toList, .int, .wckeyid⟩]

/-- A field of a list: a row of the table, with the width asked for. -/
structure Field where
  entry : PrintField
  mem_fields : entry ∈ fields
  len : Int

/-! ## Print routines -/

/-- `print_fields_parsable_print`. -/
inductive Parsable where
  | not | ending | noEnding
deriving DecidableEq

/-- `struct tm`, what is printed of it. -/
structure Tm where
  year : Nat
  mon : Nat
  mday : Nat
  hour : Nat
  min : Nat
  sec : Nat

section

variable (localtime : Int → Tm)

/-- `slurm_make_time_str`, in the ISO 8601 format. -/
def makeTimeStr (time : Int) (size : Nat) : Text :=
  let tm := localtime time
  snprintf size <|
    if time = 0 then "Unknown".toList
    else padded 4 tm.year ++ '-' :: (padded 2 tm.mon ++ '-' :: (padded 2 tm.mday ++
      'T' :: (padded 2 tm.hour ++ ':' :: (padded 2 tm.min ++ ':' :: padded 2 tm.sec))))

/-- `"%*s"`: to the right for a width that is not negative, else to the left. -/
def justify (len : Int) (text : Text) : Text :=
  if 0 ≤ len then List.replicate (len.natAbs - text.length) ' ' ++ text
  else text ++ List.replicate (len.natAbs - text.length) ' '

/-- `NO_VAL` or `INFINITE`. -/
def unset (value : Int) : Bool := uint32 value = 4294967294 || uint32 value = 4294967295

/-- What a print routine prints in a mode with bars; a value of another kind
than it takes is not defined. -/
def shown (routine : Routine) (len : Int) : Value → Option Text
  | .str value => if routine = .str then some (value.getD []) else none
  | .int value =>
    match routine with
    | .str => none
    | .int => some (if unset value then [] else intText value)
    | .date => some (makeTimeStr localtime value (len.natAbs + 1))
    | .timeFromSecs => some (if unset value then [] else secs2timeStr (uint32 value) 32)

/-- What it prints in a column of its width. -/
def aligned (routine : Routine) (len : Int) : Value → Option Text
  | .str value =>
    if routine = .str then
      let cut := value.map fun value =>
        if value.length > len.natAbs then value.take (len.natAbs - 1) ++ ['+'] else value
      some (justify len ((cut.getD [' ']).take len.natAbs))
    else none
  | .int value =>
    match routine with
    | .str => none
    | .int => some (if unset value then justify len.natAbs [' '] else justify len (intText value))
    | .date => some (justify len ((makeTimeStr localtime value (len.natAbs + 1)).take len.natAbs))
    | .timeFromSecs =>
      some (justify len (if unset value then [' '] else secs2timeStr (uint32 value) 32))

/-- `print_fields_str`, `print_fields_int`, `print_fields_date` and
`print_fields_time_from_secs`. -/
def printRoutine (mode : Parsable) (routine : Routine) (len : Int) (value : Value) (last : Bool) :
    Option Text :=
  match mode with
  | .not => (aligned localtime routine len value).map (· ++ [' '])
  | .ending => (shown localtime routine len value).map (· ++ ['|'])
  | .noEnding => (shown localtime routine len value).map fun text =>
    if last then text else text ++ ['|']

/-- The printing of a row from column `currInx` on; `none` when the loop has not
come to the end of the list. -/
def rowLoop (mode : Parsable) (fieldCount : Nat) : Nat → List Field → List Value → Option Text
  | _, [], _ => some []
  | _, _ :: _, [] => none
  | currInx, f :: fs, v :: vs => do
    let text ← printRoutine localtime mode f.entry.printRoutine f.len v (currInx = fieldCount)
    let rest ← rowLoop mode fieldCount (currInx + 1) fs vs
    some (text ++ rest)

/-- The row that `print_fields` prints for a record, without its newline. -/
def printRow (env : Env) (mode : Parsable) (o : Object) (stack : Text) (fs : List Field) :
    Option Text :=
  rowLoop localtime mode fs.length 1 fs (printFields env o stack (fs.map (·.entry.type)))

end

/-- `print_fields_header`: one name. -/
def headerName (mode : Parsable) (f : Field) (last : Bool) : Text :=
  match mode with
  | .not => justify f.len.natAbs (f.entry.name.take f.len.natAbs) ++ [' ']
  | .ending => f.entry.name ++ ['|']
  | .noEnding => if last then f.entry.name else f.entry.name ++ ['|']

/-- The names of the header from column `currInx` on. -/
def headerLoop (mode : Parsable) (fieldCount : Nat) : Nat → List Field → Text
  | _, [] => []
  | currInx, f :: fs =>
    headerName mode f (currInx = fieldCount) ++ headerLoop mode fieldCount (currInx + 1) fs

/-- `print_fields_header`: the row of names, without its newline. -/
def printFieldsHeader (mode : Parsable) (fs : List Field) : Text := headerLoop mode fs.length 1 fs

/-! ## Bars -/

/-- Texts with bars between them, and one behind the last for `-p`. -/
def joinBars (ending : Bool) : List Text → Text
  | [] => []
  | [text] => if ending then text ++ ['|'] else text
  | text :: texts => text ++ '|' :: joinBars ending texts

/-- What a row of these texts should split into. -/
def columns (ending : Bool) (texts : List Text) : List Text :=
  if texts = [] then [[]] else texts ++ if ending then [[]] else []

theorem splitOn_joinBars (ending : Bool) (texts : List Text) :
    (joinBars ending texts).splitOn '|' =
      if texts = [] then [[]]
      else texts.flatMap (·.splitOn '|') ++ if ending then [[]] else [] := by
  induction texts with
  | nil => exact List.splitOn_nil '|'
  | cons text texts ih =>
    rw [if_neg (List.cons_ne_nil _ _)]
    cases texts with
    | nil =>
      cases ending with
      | false => simp [joinBars]
      | true => simp [joinBars, List.splitOn_append_cons_self]
    | cons next texts =>
      rw [if_neg (List.cons_ne_nil _ _)] at ih
      simp only [joinBars, List.splitOn_append_cons_self, ih, List.flatMap_cons,
        List.append_assoc]

theorem length_splitOn_of_mem {text : Text} (h : '|' ∈ text) :
    1 < (text.splitOn '|').length := by
  obtain ⟨u, v, rfl⟩ := List.append_of_mem h
  have hu := List.length_pos_iff.mpr (List.splitOn_ne_nil '|' u)
  have hv := List.length_pos_iff.mpr (List.splitOn_ne_nil '|' v)
  rw [List.splitOn_append_cons_self, List.length_append]
  omega

theorem length_flatMap_splitOn (texts : List Text) :
    texts.length ≤ (texts.flatMap (·.splitOn '|')).length ∧
      ((texts.flatMap (·.splitOn '|')).length = texts.length → ∀ text ∈ texts, '|' ∉ text) := by
  induction texts with
  | nil => exact ⟨Nat.le_refl 0, fun _ _ h => absurd h List.not_mem_nil⟩
  | cons text texts ih =>
    rw [List.flatMap_cons, List.length_append, List.length_cons, List.forall_mem_cons]
    have hpos := List.length_pos_iff.mpr (List.splitOn_ne_nil '|' text)
    refine ⟨by omega, fun h => ⟨fun hbar => ?_, ih.2 (by omega)⟩⟩
    have := length_splitOn_of_mem hbar
    omega

theorem flatMap_splitOn {texts : List Text} (h : ∀ text ∈ texts, '|' ∉ text) :
    texts.flatMap (·.splitOn '|') = texts := by
  induction texts with
  | nil => rfl
  | cons text texts ih =>
    obtain ⟨htext, htexts⟩ := List.forall_mem_cons.mp h
    rw [List.flatMap_cons, List.splitOn_eq_singleton htext, ih htexts]
    rfl

theorem splitOn_joinBars_of_barless {ending : Bool} {texts : List Text}
    (h : ∀ text ∈ texts, '|' ∉ text) :
    (joinBars ending texts).splitOn '|' = columns ending texts := by
  rw [splitOn_joinBars, columns, flatMap_splitOn h]

theorem length_columns {ending : Bool} {texts names : List Text}
    (h : texts.length = names.length) :
    (columns ending texts).length = (columns ending names).length := by
  unfold columns
  by_cases hnil : texts = []
  · obtain rfl := hnil
    obtain rfl := List.eq_nil_of_length_eq_zero h.symm
    rfl
  · have hnames : names ≠ [] := by
      rintro rfl
      exact hnil (List.eq_nil_of_length_eq_zero h)
    rw [if_neg hnil, if_neg hnames, List.length_append, List.length_append, h]

/-- A row splits into as many values as the header, each in its place. -/
def SplitsInColumns (ending : Bool) (header row : Text) (texts : List Text) : Prop :=
  (row.splitOn '|').length = (header.splitOn '|').length ∧
    row.splitOn '|' = columns ending texts

theorem splitsInColumns_joinBars {ending : Bool} {names texts : List Text}
    (hlen : texts.length = names.length) (hnames : ∀ name ∈ names, '|' ∉ name) :
    SplitsInColumns ending (joinBars ending names) (joinBars ending texts) texts ↔
      ∀ text ∈ texts, '|' ∉ text := by
  constructor
  · rintro ⟨-, hsplit⟩
    rw [splitOn_joinBars, columns] at hsplit
    by_cases hnil : texts = []
    · rw [hnil]
      exact fun _ h => absurd h List.not_mem_nil
    · rw [if_neg hnil, if_neg hnil, List.append_cancel_right_eq] at hsplit
      exact (length_flatMap_splitOn texts).2 (congrArg List.length hsplit)
  · intro h
    refine ⟨?_, splitOn_joinBars_of_barless h⟩
    rw [splitOn_joinBars_of_barless h, splitOn_joinBars_of_barless hnames]
    exact length_columns hlen

/-! ## Rows as texts with bars -/

section

variable {localtime : Int → Tm}

/-- The texts of the columns of a row. -/
def texts (localtime : Int → Tm) : List Field → List Value → Option (List Text)
  | [], _ => some []
  | _ :: _, [] => none
  | f :: fs, v :: vs => do
    let text ← shown localtime f.entry.printRoutine f.len v
    let rest ← texts localtime fs vs
    some (text :: rest)

/-- The modes with bars. -/
def Parsable.bars (mode : Parsable) : Prop := mode ≠ .not

theorem printRoutine_bars {mode : Parsable} (hmode : mode.bars) (routine : Routine) (len : Int)
    (value : Value) (last : Bool) :
    printRoutine localtime mode routine len value last =
      (shown localtime routine len value).map fun text =>
        if last && mode = .noEnding then text else text ++ ['|'] := by
  cases mode with
  | not => exact absurd rfl hmode
  | ending => simp [printRoutine]
  | noEnding => simp [printRoutine]

theorem texts_ne_nil {f : Field} {fs : List Field} {vs : List Value} {ts : List Text}
    (h : texts localtime (f :: fs) vs = some ts) : ts ≠ [] := by
  cases vs with
  | nil => cases h
  | cons v vs =>
    obtain ⟨text, -, h⟩ := Option.bind_eq_some_iff.mp h
    obtain ⟨rest, -, h⟩ := Option.bind_eq_some_iff.mp h
    cases h
    exact List.cons_ne_nil _ _

theorem rowLoop_eq {mode : Parsable} (hmode : mode.bars) {fieldCount currInx : Nat}
    {fs : List Field} (vs : List Value) (hcount : currInx + fs.length = fieldCount + 1) :
    rowLoop localtime mode fieldCount currInx fs vs =
      (texts localtime fs vs).map (joinBars (mode = .ending)) := by
  induction fs generalizing currInx vs with
  | nil => rfl
  | cons f fs ih =>
    cases vs with
    | nil => rfl
    | cons v vs =>
      rw [List.length_cons] at hcount
      rw [rowLoop, texts, printRoutine_bars hmode, ih vs (by omega)]
      cases shown localtime f.entry.printRoutine f.len v with
      | none => rfl
      | some text =>
        cases hrest : texts localtime fs vs with
        | none => rfl
        | some rest =>
          simp only [Option.map_some, Option.bind_eq_bind, Option.bind_some,
            Option.some.injEq]
          cases fs with
          | nil =>
            obtain rfl : [] = rest := by simpa [texts] using hrest
            have hlast : currInx = fieldCount := by simpa using hcount
            cases mode with
            | not => exact absurd rfl hmode
            | ending => simp [joinBars]
            | noEnding => simp [joinBars, hlast]
          | cons g fs =>
            have hlast : currInx ≠ fieldCount := by
              rw [List.length_cons] at hcount
              omega
            obtain ⟨next, more, rfl⟩ := List.exists_cons_of_ne_nil (texts_ne_nil hrest)
            simp [joinBars, hlast]

/-- The names of a field list. -/
def names (fs : List Field) : List Text := fs.map (·.entry.name)

theorem headerLoop_eq {mode : Parsable} (hmode : mode.bars) {fieldCount currInx : Nat}
    {fs : List Field} (hcount : currInx + fs.length = fieldCount + 1) :
    headerLoop mode fieldCount currInx fs = joinBars (mode = .ending) (names fs) := by
  induction fs generalizing currInx with
  | nil => rfl
  | cons f fs ih =>
    rw [List.length_cons] at hcount
    rw [headerLoop, ih (by omega)]
    cases fs with
    | nil =>
      have hlast : currInx = fieldCount := by simpa using hcount
      cases mode with
      | not => exact absurd rfl hmode
      | ending => simp [names, joinBars, headerName]
      | noEnding => simp [names, joinBars, headerName, hlast]
    | cons g fs =>
      have hlast : currInx ≠ fieldCount := by
        rw [List.length_cons] at hcount
        omega
      cases mode with
      | not => exact absurd rfl hmode
      | ending => simp [names, joinBars, headerName]
      | noEnding => simp [names, joinBars, headerName, hlast]

theorem length_texts {fs : List Field} {vs : List Value} {ts : List Text}
    (h : texts localtime fs vs = some ts) : ts.length = fs.length := by
  induction fs generalizing vs ts with
  | nil =>
    cases h
    rfl
  | cons f fs ih =>
    cases vs with
    | nil => cases h
    | cons v vs =>
      obtain ⟨text, -, h⟩ := Option.bind_eq_some_iff.mp h
      obtain ⟨rest, hrest, h⟩ := Option.bind_eq_some_iff.mp h
      cases h
      rw [List.length_cons, List.length_cons, ih hrest]

/-- No name in the table holds a bar. -/
theorem names_barless (fs : List Field) : ∀ name ∈ names fs, '|' ∉ name := by
  have htable : ∀ entry ∈ fields, '|' ∉ entry.name := by decide +kernel
  intro name hname
  obtain ⟨f, -, rfl⟩ := List.mem_map.mp hname
  exact htable _ f.mem_fields

end

/-! ## Texts that sacct makes itself -/

theorem bar_not_digits {text : Text} (h : Digits text) : '|' ∉ text :=
  fun hbar => absurd (h _ hbar) (by decide)

theorem bar_not_intText (n : Int) : '|' ∉ intText n := by
  intro hbar
  rcases numChar_intText hbar with h | h
  · exact absurd h (by decide)
  · exact absurd h (by decide)

theorem bar_not_convertNumUnit (n : Int) (bufSize origType : Nat) :
    '|' ∉ convertNumUnit n bufSize origType := by
  intro hbar
  rcases convertNumUnit_chars hbar with h | h
  · exact absurd h (by decide)
  · exact absurd h (by decide)

theorem bar_not_snprintf {text : Text} (h : '|' ∉ text) (size : Nat) : '|' ∉ snprintf size text :=
  fun hbar => h (List.mem_of_mem_take hbar)

theorem bar_not_clock (days hours minutes seconds : Nat) :
    '|' ∉ clock days hours minutes seconds := by
  have hpad : ∀ n, '|' ∉ padded 2 n := fun n => bar_not_digits (digits_padded 2 n)
  have hdays : '|' ∉ decimal days := bar_not_digits (digits_decimal days)
  unfold clock
  split <;> simp [hpad, hdays]

theorem bar_not_elapsedTime {secs usecs : Int} {text : Text}
    (h : elapsedTime secs usecs = some text) : '|' ∉ text := by
  have hpad : ∀ w n, '|' ∉ padded w n := fun w n => bar_not_digits (digits_padded w n)
  have htext : ∀ days hours minutes seconds subsec : Nat, '|' ∉
      if days ≠ 0 then clock days hours minutes seconds
      else if hours ≠ 0 then clock 0 hours minutes seconds
      else if subsec ≠ 0 then
        padded 2 minutes ++ ':' :: (padded 2 seconds ++ '.' :: padded 3 subsec)
      else clock 0 0 minutes seconds := by
    intro days hours minutes seconds subsec
    split
    · exact bar_not_clock _ _ _ _
    · split
      · exact bar_not_clock _ _ _ _
      · split
        · simp [hpad]
        · exact bar_not_clock _ _ _ _
  unfold elapsedTime at h
  split at h
  · cases h
  · rw [Option.some.injEq] at h
    subst h
    exact htext _ _ _ _ _

theorem bar_not_stepLayoutTypeName (taskDist : Nat) : '|' ∉ stepLayoutTypeName taskDist := by
  unfold stepLayoutTypeName
  split <;> decide

theorem bar_not_jobStateString (inx : Int) : '|' ∉ jobStateString inx := by
  unfold jobStateString
  split
  · decide
  · split <;> decide

theorem bar_not_exitText (status : Int) : '|' ∉ exitText status := by
  refine bar_not_snprintf ?_ _
  have hdec : ∀ n, '|' ∉ decimal n := fun n => bar_not_digits (digits_decimal n)
  simp [hdec]

theorem bar_not_makeTimeStr (localtime : Int → Tm) (time : Int) (size : Nat) :
    '|' ∉ makeTimeStr localtime time size := by
  refine bar_not_snprintf ?_ _
  have hpad : ∀ w n, '|' ∉ padded w n := fun w n => bar_not_digits (digits_padded w n)
  split
  · decide
  · simp [hpad]

theorem bar_not_secs2timeStr (time size : Nat) : '|' ∉ secs2timeStr time size := by
  unfold secs2timeStr
  split
  · exact bar_not_snprintf (by decide) _
  · exact bar_not_snprintf (bar_not_clock _ _ _ _) _

/-- What is printed of a number holds no bar. -/
theorem bar_not_shown_int {localtime : Int → Tm} {routine : Routine} {len n : Int} {text : Text}
    (h : shown localtime routine len (.int n) = some text) : '|' ∉ text := by
  cases routine with
  | str => cases h
  | int =>
    obtain rfl := Option.some.inj h
    split
    · exact List.not_mem_nil
    · exact bar_not_intText n
  | date =>
    obtain rfl := Option.some.inj h
    exact bar_not_makeTimeStr _ _ _
  | timeFromSecs =>
    obtain rfl := Option.some.inj h
    split
    · exact List.not_mem_nil
    · exact bar_not_secs2timeStr _ _

/-! ## Free texts -/

/-- The field's routine is `print_fields_str`. -/
def textual : FieldType → Bool
  | .account | .aveCpu | .avePages | .aveRss | .aveVsize | .blockid | .cluster | .exitcode
  | .group | .jobid | .jobname | .layout | .maxPages | .maxPagesNode | .maxRss | .maxRssNode
  | .maxVsize | .maxVsizeNode | .minCpu | .minCpuNode | .nodelist | .nnodes | .partition | .qos
  | .state | .systemcpu | .timelimit | .totalcpu | .user | .usercpu | .wckey => true
  | _ => false

theorem printRoutine_eq_str_iff :
    ∀ entry ∈ fields, entry.printRoutine = .str ↔ textual entry.type = true := by
  decide +kernel

/-- The fields that pass `outbuf`. -/
def shows : FieldType → Bool
  | .avePages | .aveRss | .aveVsize | .exitcode | .maxPages | .maxRss | .maxVsize | .nnodes
  | .state => true
  | _ => false

theorem fills_of_not_shows {o : Object} {f : FieldType} (h : shows f = false) : Fills o f := by
  cases f
  case avePages | aveRss | aveVsize | maxPages | maxRss | maxVsize | state => cases h
  all_goals exact trivial

/-- What a field shows of a text that is not made by `sacct` itself: from the
record, from the user and group files, or from the node and quality-of-service
names. -/
def userText (env : Env) (o : Object) : FieldType → Option Text
  | .account => o.pick (·.account) (fun _ job => job.account) fun _ => none
  | .blockid => o.pick (·.blockid) (fun _ _ => none) (·.blockid)
  | .cluster => o.pick (·.cluster) (fun _ job => job.cluster) fun _ => none
  | .group => env.getgrgid <| uint32 <| o.pick (·.gid) (fun _ _ => noVal) (·.gid)
  | .jobname => o.pick (·.jobname) (fun step _ => step.stepname) (·.jobname)
  | .maxPagesNode => (sacctNode env o (·.maxPagesId)).join
  | .maxRssNode => (sacctNode env o (·.maxRssId)).join
  | .maxVsizeNode => (sacctNode env o (·.maxVsizeId)).join
  | .minCpuNode => (sacctNode env o (·.minCpuId)).join
  | .nodelist => o.pick (·.nodes) (fun step _ => step.nodes) (·.nodelist)
  | .partition => o.pick (·.partition) (fun _ _ => none) (·.partition)
  | .qos => findQosNameFromList env.qosList <| o.pick (·.qos) (fun _ _ => noVal) fun _ => noVal
  | .state => if stateInt o = noVal then (stateChar o).map (snprintf formatStringSize) else none
  | .timelimit => o.pick (fun _ => none) (fun _ _ => none) (·.timelimit)
  | .user => o.pick
      (fun job => match job.user with
        | some user => some user
        | none => if job.uid = 4294967295 then none else env.getpwuid job.uid)
      (fun _ _ => none) (·.uidName)
  | .wckey => o.pick (·.wckey) (fun _ _ => none) fun _ => none
  | _ => none

/-- A text without bars, if there is one. -/
def Barless (text : Option Text) : Prop := ∀ t ∈ text, '|' ∉ t

theorem barless_iff_of_not {text : Option Text} (h : ∀ t, text = some t → '|' ∉ t) :
    Barless text ↔ Barless none :=
  ⟨fun _ _ ht => absurd ht (by simp), fun _ t ht => h t ht⟩

theorem barless_some {t : Text} : Barless (some t) ↔ '|' ∉ t := by
  simp [Barless]

/-- A field that passes a value of its own. -/
theorem action_pass {env : Env} {o : Object} {f : FieldType} {v : Value}
    (h : action env o f = some (.pass v)) : shows f = false ∧
      ((∃ n, v = .int n ∧ textual f = false) ∨
        ∃ t, v = .str t ∧ textual f = true ∧ (Barless t ↔ Barless (userText env o f))) := by
  cases f
  all_goals
    simp only [action, action.int, action.str, action.time, action.node, action.elapsed,
      action.size, Option.map_eq_some_iff, Option.some.injEq, Action.pass.injEq, reduceCtorEq,
      and_false, exists_false] at h
  -- a completed job has no account of its own
  case account =>
    obtain rfl := h
    refine ⟨rfl, Or.inr ⟨_, rfl, rfl, ?_⟩⟩
    cases o with
    | job => exact Iff.rfl
    | jobstep => exact Iff.rfl
    | jobcomp =>
      refine barless_iff_of_not fun t ht => ?_
      obtain rfl := Option.some.inj ht
      decide
  case maxPagesNode | maxRssNode | maxVsizeNode | minCpuNode =>
    obtain ⟨t, ht, rfl⟩ := h
    exact ⟨rfl, Or.inr ⟨_, rfl, rfl, by rw [userText, ht, Option.join_some]⟩⟩
  case aveCpu | minCpu | systemcpu | totalcpu | usercpu =>
    obtain rfl := h
    exact ⟨rfl, Or.inr ⟨_, rfl, rfl, barless_iff_of_not fun _ => bar_not_elapsedTime⟩⟩
  case jobid =>
    obtain rfl := h
    refine ⟨rfl, Or.inr ⟨_, rfl, rfl, barless_iff_of_not fun t ht => ?_⟩⟩
    have hdec : ∀ n, '|' ∉ decimal n := fun n => bar_not_digits (digits_decimal n)
    obtain rfl := Option.some.inj ht
    cases o <;> simp [Object.pick, hdec]
  case layout =>
    obtain rfl := h
    refine ⟨rfl, Or.inr ⟨_, rfl, rfl, barless_iff_of_not fun t ht => ?_⟩⟩
    cases o with
    | job j step =>
      obtain ⟨s, -, rfl⟩ := Option.map_eq_some_iff.mp ht
      exact bar_not_stepLayoutTypeName _
    | jobstep s j =>
      obtain rfl := Option.some.inj ht
      exact bar_not_stepLayoutTypeName _
    | jobcomp j => cases ht
  case «end» | start | submit =>
    obtain ⟨n, -, rfl⟩ := h
    exact ⟨rfl, Or.inl ⟨_, rfl, rfl⟩⟩
  case blockid | cluster | group | jobname | nodelist | partition | qos | timelimit | user
      | wckey =>
    obtain rfl := h
    exact ⟨rfl, Or.inr ⟨_, rfl, rfl, Iff.rfl⟩⟩
  all_goals
    obtain rfl := h
    exact ⟨rfl, Or.inl ⟨_, rfl, rfl⟩⟩

theorem barless_sizeText (n : Int) : Barless (sizeText n) := by
  intro t ht
  unfold sizeText at ht
  split at ht
  · obtain rfl := Option.some.inj ht
    exact bar_not_convertNumUnit _ _ _
  · cases ht

theorem barless_stateText (env : Env) (o : Object) :
    Barless (stateText o) ↔ Barless (userText env o .state) := by
  unfold stateText userText
  dsimp only
  by_cases hstate : stateInt o = noVal
  · rw [if_pos hstate, if_neg fun h => absurd (hstate.symm.trans h.1) (by decide),
      if_neg (not_not.mpr hstate)]
  · rw [if_neg hstate, if_pos hstate]
    refine barless_iff_of_not fun t ht => ?_
    split at ht
    · obtain rfl := Option.some.inj ht
      refine bar_not_snprintf ?_ _
      simp [bar_not_jobStateString, bar_not_intText]
    · obtain rfl := Option.some.inj ht
      exact bar_not_snprintf (bar_not_jobStateString _) _

/-- A field that passes `outbuf`. -/
theorem action_shows {env : Env} {o : Object} {f : FieldType} {written : Option Text}
    (h : action env o f = some (.show written)) :
    shows f = true ∧ textual f = true ∧ (Barless written ↔ Barless (userText env o f)) := by
  cases f
  all_goals
    simp only [action, action.int, action.str, action.time, action.node, action.elapsed,
      action.size, Option.map_eq_some_iff, Option.some.injEq, Action.show.injEq, reduceCtorEq,
      and_false, exists_false] at h
  case exitcode =>
    obtain rfl := h
    refine ⟨rfl, rfl, barless_iff_of_not fun t ht => ?_⟩
    obtain rfl := Option.some.inj ht
    exact bar_not_exitText _
  case nnodes =>
    obtain ⟨t, ht, rfl⟩ := h
    refine ⟨rfl, rfl, barless_iff_of_not fun t' ht' => ?_⟩
    obtain rfl := Option.some.inj ht'
    obtain ⟨n, -, rfl⟩ := Option.map_eq_some_iff.mp ht
    exact bar_not_convertNumUnit _ _ _
  case state =>
    obtain rfl := h
    exact ⟨rfl, rfl, barless_stateText env o⟩
  all_goals
    obtain rfl := h
    exact ⟨rfl, rfl, barless_iff_of_not fun t ht => barless_sizeText _ t ht⟩

/-! ## The columns of a row -/

theorem userText_of_not_textual {env : Env} {o : Object} {f : FieldType}
    (h : textual f = false) : userText env o f = none := by
  cases f
  all_goals first | rfl | cases h

/-- What is printed of a field's own value holds a bar if its free text does. -/
theorem bar_shown {localtime : Int → Tm} {env : Env} {o : Object} {f : FieldType} {v : Value}
    {routine : Routine} {len : Int} {t : Text} (hroutine : routine = .str ↔ textual f = true)
    (ht : shown localtime routine len v = some t)
    (hv : (∃ n, v = .int n ∧ textual f = false) ∨
      ∃ t, v = .str t ∧ textual f = true ∧ (Barless t ↔ Barless (userText env o f))) :
    '|' ∉ t ↔ Barless (userText env o f) := by
  rcases hv with ⟨n, rfl, htextual⟩ | ⟨value, rfl, htextual, hbar⟩
  · rw [userText_of_not_textual htextual]
    exact ⟨fun _ => by simp [Barless], fun _ => bar_not_shown_int ht⟩
  · rw [shown, if_pos (hroutine.mpr htextual)] at ht
    obtain rfl := Option.some.inj ht
    rw [← hbar]
    cases value <;> simp [Barless]

/-- Some field shows `outbuf` before any field has filled it: what the stack
holds is printed. -/
def LeftOver (o : Object) : List FieldType → Prop
  | [] => False
  | f :: fs => ¬ Fills o f ∨ (shows f = false ∧ LeftOver o fs)

/-- The texts of a row hold no bar exactly when its free texts hold none, and
the stack holds none if it is printed. -/
theorem texts_barless {localtime : Int → Tm} {env : Env} {o : Object} {outbuf : Text}
    {fs : List Field} {ts : List Text}
    (h : texts localtime fs (passes env o.begin outbuf (fs.map (·.entry.type))) = some ts) :
    (∀ t ∈ ts, '|' ∉ t) ↔
      (∀ f ∈ fs, Barless (userText env o.begin f.entry.type)) ∧
        (LeftOver o (fs.map (·.entry.type)) → '|' ∉ outbuf) := by
  induction fs generalizing outbuf ts with
  | nil =>
    cases h
    simp [LeftOver]
  | cons f fs ih =>
    rw [List.map_cons, passes] at h
    cases ha : action env o.begin f.entry.type with
    | none =>
      rw [ha] at h
      cases h
    | some a =>
      rw [ha] at h
      obtain ⟨t, ht, h⟩ := Option.bind_eq_some_iff.mp h
      obtain ⟨rest, hrest, h⟩ := Option.bind_eq_some_iff.mp h
      cases h
      have hroutine := printRoutine_eq_str_iff _ f.mem_fields
      have hrest := ih hrest
      rw [List.map_cons, List.forall_mem_cons, List.forall_mem_cons, LeftOver, hrest]
      cases a with
      | pass v =>
        obtain ⟨hshows, hv⟩ := action_pass ha
        have hbar := bar_shown hroutine ht hv
        have hleft : ¬ (¬ Fills o f.entry.type) := not_not.mpr (fills_of_not_shows hshows)
        simp only [hbar, hshows, hleft, false_or, true_and, and_assoc]
        rfl
      | «show» written =>
        obtain ⟨hshows, htextual, hbar⟩ := action_shows ha
        have hfills := action_show ha
        rw [Action.run, shown, if_pos (hroutine.mpr htextual)] at ht
        obtain rfl := Option.some.inj ht
        cases written with
        | none =>
          have hleft : ¬ Fills o f.entry.type := by simpa using hfills
          have huser : Barless (userText env o.begin f.entry.type) :=
            hbar.mp (by simp [Barless])
          simp only [Action.run, Option.getD_some, Option.getD_none, hleft, huser,
            not_false_eq_true, true_or, true_and, forall_const]
          tauto
        | some w =>
          have hleft : ¬ (¬ Fills o f.entry.type) := not_not.mpr (hfills.mp rfl)
          rw [barless_some] at hbar
          simp only [Action.run, Option.getD_some, hleft, hshows, ← hbar, false_or,
            reduceCtorEq, false_and, false_implies, and_true]
          tauto

/-- A row splits at its bars into the values of its fields, as many as the
header has, exactly when the free texts of the record hold no bar, nor what the
stack holds if a field shows it. -/
theorem splitsInColumns_iff {localtime : Int → Tm} {env : Env} {mode : Parsable} {o : Object}
    {stack row : Text} {fs : List Field} (hmode : mode.bars)
    (h : printRow localtime env mode o stack fs = some row) :
    ∃ ts, texts localtime fs (printFields env o stack (fs.map (·.entry.type))) = some ts ∧
      (SplitsInColumns (mode = .ending) (printFieldsHeader mode fs) row ts ↔
        (∀ f ∈ fs, Barless (userText env o.begin f.entry.type)) ∧
          (LeftOver o (fs.map (·.entry.type)) → '|' ∉ stack)) := by
  rw [printRow, rowLoop_eq hmode _ (by omega)] at h
  obtain ⟨ts, hts, rfl⟩ := Option.map_eq_some_iff.mp h
  refine ⟨ts, hts, ?_⟩
  have hlen : ts.length = (names fs).length := by rw [length_texts hts, names, List.length_map]
  rw [printFieldsHeader, headerLoop_eq hmode (by omega),
    splitsInColumns_joinBars hlen (names_barless fs)]
  exact texts_barless hts

/-- `sacct -o jobid,jobname`. -/
def idAndName : List Field := [
  ⟨⟨10, "JobID".toList, .str, .jobid⟩, by decide +kernel, 10⟩,
  ⟨⟨10, "JobName".toList, .str, .jobname⟩, by decide +kernel, 10⟩]

/-- The row of a completed job with this name, with `-P`. -/
def rowOfName (name : Text) : Option Text :=
  printRow (fun _ => ⟨0, 0, 0, 0, 0, 0⟩) bareEnv .noEnding
    (.jobcomp { completedComp with jobname := some name }) [] idAndName

theorem splitsInColumns_run :
    ∃ ts, texts (fun _ => ⟨0, 0, 0, 0, 0, 0⟩) idAndName
        (printFields bareEnv (.jobcomp completedComp) [] (idAndName.map (·.entry.type))) = some ts ∧
      (SplitsInColumns (Parsable.noEnding = .ending) (printFieldsHeader .noEnding idAndName)
          "7|run".toList ts ↔
        (∀ f ∈ idAndName, Barless (userText bareEnv (Object.jobcomp completedComp).begin
            f.entry.type)) ∧
          (LeftOver (.jobcomp completedComp) (idAndName.map (·.entry.type)) → '|' ∉ [])) :=
  splitsInColumns_iff (fun h => nomatch h) (by decide +kernel : rowOfName "run".toList = some _)

/-- The name `a|b` makes three values of two. -/
theorem not_splitsInColumns_bar :
    rowOfName "a|b".toList = some "7|a|b".toList ∧
      ∀ ts, ¬ SplitsInColumns false (printFieldsHeader .noEnding idAndName) "7|a|b".toList ts := by
  refine ⟨by decide +kernel, fun ts h => absurd h.1 ?_⟩
  decide +kernel

end Slurm.Print
