import SlurmLite.Base.LastStep
import SlurmLite.Base.Lines
import SlurmLite.Base.MapM
import SlurmLite.Base.Run
import SlurmLite.Sacct.Print

/-!
# The job completion log

`jobcomp_filetxt.c` writes a line of `name=value` pairs for each job, and
`filetxt_jobcomp_process.c` reads the lines back into records.

* **Writing**: `logText` is what is formatted, `logRecord` what the buffer of
  1024 bytes keeps of it.
* **Reading**: `breakLine` cuts a line at the first `=` and the next space,
  `parseLine` fills a record; neither knows a quote or an escape.
* **Round trip**: `readsBack_iff`: a job comes back as it was logged exactly
  when no value holds a character that ends it, and the line is kept whole.
-/

namespace Slurm.Filetxt

open Base.Text Base.CLib Base.Lines Base.LastStep Base.MapM Slurm.ParseTime

abbrev Text := List Char

/-! ## Writing -/

/-- `struct job_record`, what is logged of it. -/
structure JobRecord where
  jobId : Fin 4294967296
  userId : Fin 4294967296
  groupId : Fin 4294967296
  name : Option Text
  jobState : Nat
  partition : Option Text
  timeLimit : Fin 4294967296
  startTime : Int
  endTime : Int
  nodes : Option Text
  nodeCnt : Fin 4294967296
  totalProcs : Fin 4294967296
  /-- `details->work_dir`, if there are details. -/
  workDir : Option Text

/-- `cache_uid` and `cache_name`, or those of the groups. -/
structure NameCache where
  id : Nat
  name : Text

/-- The statics before the first record. -/
def NameCache.init : NameCache := ⟨0, "root".toList⟩

/-- `struct tm`, what is printed of it. -/
structure Tm where
  mon : Nat
  mday : Nat
  hour : Nat
  min : Nat
  sec : Nat

/-- The system the plugin runs on. -/
structure System where
  uidToString : Nat → Text
  gidToString : Nat → Text
  localtime : Int → Tm

/-- `_get_user_name` and `_get_group_name`: the name, and the cache afterwards. -/
def getName (toText : Nat → Text) (cache : NameCache) (id : Nat) : Text × NameCache :=
  let cache := if id ≠ cache.id then ⟨id, snprintf 32 (toText id)⟩ else cache
  (snprintf 32 cache.name, cache)

/-- `_make_time_str`, in the format without a year. -/
def makeTimeStr (sys : System) (time : Int) (size : Nat) : Text :=
  let tm := sys.localtime time
  snprintf size <|
    if time = 0 then "Unknown".toList
    else padded 2 tm.mon ++ '/' :: (padded 2 tm.mday ++ '-' :: (padded 2 tm.hour ++
      ':' :: (padded 2 tm.min ++ ':' :: padded 2 tm.sec)))

/-- `"%s"` of a string or a null pointer. -/
def orNull (text : Option Text) : Text := text.getD "(null)".toList

/-- `lim_str`. -/
def limStr (timeLimit : Nat) : Text :=
  if timeLimit = infinite then "UNLIMITED".toList else snprintf 32 (decimal timeLimit)

/-- `job_state_string` of the state without `JOB_COMPLETING`. -/
def stateStr (jobState : Nat) : Text :=
  Print.jobStateString (int32 (if jobState.testBit 15 then jobState - 32768 else jobState : Nat))

/-- `"%s(%lu)"`. -/
def nameAndId (name : Text) (id : Nat) : Text := name ++ '(' :: (decimal id ++ [')'])

/-- The pairs of `JOB_FORMAT` before `WorkDir`. -/
def headPairs (sys : System) (usrStr grpStr : Text) (job : JobRecord) : List (Text × Text) := [
  ("JobId".toList, decimal job.jobId),
  ("UserId".toList, nameAndId usrStr job.userId),
  ("GroupId".toList, nameAndId grpStr job.groupId),
  ("Name".toList, orNull job.name),
  ("JobState".toList, stateStr job.jobState),
  ("Partition".toList, orNull job.partition),
  ("TimeLimit".toList, limStr job.timeLimit),
  ("StartTime".toList, makeTimeStr sys job.startTime 32),
  ("EndTime".toList, makeTimeStr sys job.endTime 32),
  ("NodeList".toList, orNull job.nodes),
  ("NodeCnt".toList, decimal job.nodeCnt),
  ("ProcCnt".toList, decimal job.totalProcs)]

/-- Pairs as they are formatted, each with a space behind it. -/
def render (pairs : List (Text × Text)) : Text :=
  pairs.flatMap fun pair => pair.1 ++ '=' :: (pair.2 ++ [' '])

/-- `WorkDir=%s %s\n`; nothing is printed of the select information. -/
def workDirText (job : JobRecord) : Text :=
  "WorkDir=".toList ++ (job.workDir.getD "unknown".toList ++ " \n".toList)

/-- `JOB_FORMAT` with its arguments. -/
def logText (sys : System) (usrStr grpStr : Text) (job : JobRecord) : Text :=
  render (headPairs sys usrStr grpStr job) ++ workDirText job

/-- The plugin's statics. -/
structure Plugin where
  users : NameCache
  groups : NameCache

/-- `slurm_jobcomp_log_record`: the line that is appended, and the statics
afterwards. -/
def logRecord (sys : System) (plugin : Plugin) (job : JobRecord) : Text × Plugin :=
  let usr := getName sys.uidToString plugin.users job.userId
  let grp := getName sys.gidToString plugin.groups job.groupId
  (snprintf 1024 (logText sys usr.1 grp.1 job), ⟨usr.2, grp.2⟩)

/-! ## Reading -/

/-- `atoi`. -/
def atoi (s : Text) : Int :=
  let t := optSign (s.dropWhile isspace)
  let v : Int := value (t.2.takeWhile Char.isDigit)
  int32 (if t.1 then -(min v 9223372036854775808) else min v 9223372036854775807)

/-- The pairs that a line is broken into; `none` where a name without `=` is
written through a null pointer. -/
def breakLine : Nat → Text → Option (List (Text × Text))
  | 0, _ => none
  | fuel + 1, fptr =>
    match strchr '=' fptr with
    | none => none
    | some (name, fptr) =>
      match strchr ' ' fptr with
      | none => some [(name, fptr.takeWhile (· ≠ '\n'))]
      | some (val, fptr) =>
        if fptr.head? = some '\n' then some [(name, val)]
        else (breakLine fuel fptr).map ((name, val) :: ·)

/-- `jobcomp_job_rec_t`, what is read of it. -/
structure JobcompRec where
  jobid : Nat
  partition : Option Text
  startTime : Option Text
  endTime : Option Text
  uid : Nat
  uidName : Option Text
  gid : Nat
  gidName : Option Text
  nodeCnt : Nat
  nodelist : Option Text
  jobname : Option Text
  state : Option Text
  timelimit : Option Text
deriving DecidableEq

/-- The record `xmalloc` returns. -/
def JobcompRec.empty : JobcompRec :=
  ⟨0, none, none, none, 0, none, 0, none, 0, none, none, none, none⟩

/-- `!strcasecmp`. -/
def sameName (name known : Text) : Bool := name.map Char.toLower = known.map Char.toLower

/-- `name(id)`: the name and the number; the outer `none` is the write behind
`strstr` that found no parenthesis, the inner one the error message. -/
def nameAndIdOf (val : Text) : Option (Option (Text × Nat)) :=
  match strchr '(' val with
  | none => none
  | some (name, rest) =>
    match strchr ')' rest with
    | none => some none
    | some (id, _) => some (some (name, uint32 (atoi id)))

/-- The fields that `_parse_line` knows. -/
inductive Field where
  | jobid | partition | startTime | endTime | userid | groupId | name | nodeList | nodeCnt
  | jobState | timelimit
deriving DecidableEq

/-- The names that `_parse_line` compares with, in its order. -/
def fieldNames : List (Text × Field) := [
  ("JobID".toList, .jobid), ("Partition".toList, .partition), ("StartTime".toList, .startTime),
  ("EndTime".toList, .endTime), ("Userid".toList, .userid), ("GroupId".toList, .groupId),
  ("Name".toList, .name), ("NodeList".toList, .nodeList), ("NodeCnt".toList, .nodeCnt),
  ("JobState".toList, .jobState), ("Timelimit".toList, .timelimit)]

/-- The field of a name. -/
def fieldOf (name : Text) : Option Field :=
  (fieldNames.find? fun known => sameName name known.1).map (·.2)

/-- One pair of `_parse_line`. -/
def setField (job : JobcompRec) (info : Text × Text) : Option JobcompRec :=
  let val := info.2
  match fieldOf info.1 with
  | some .jobid => some { job with jobid := uint32 (atoi val) }
  | some .partition => some { job with partition := some val }
  | some .startTime => some { job with startTime := some val }
  | some .endTime => some { job with endTime := some val }
  | some .userid =>
    match nameAndIdOf val with
    | none => none
    | some none => some job
    | some (some user) => some { job with uid := user.2, uidName := some user.1 }
  | some .groupId =>
    match nameAndIdOf val with
    | none => none
    | some none => some job
    | some (some group) => some { job with gid := group.2, gidName := some group.1 }
  | some .name => some { job with jobname := some val }
  | some .nodeList => some { job with nodelist := some val }
  | some .nodeCnt => some { job with nodeCnt := uint32 (atoi val) }
  | some .jobState => some { job with state := some val }
  | some .timelimit => some { job with timelimit := some val }
  -- an unknown type is reported and left out
  | none => some job

/-- `_parse_line`. -/
def parseLine (infos : List (Text × Text)) : Option JobcompRec := infos.foldlM setField .empty

/-- `acct_job_cond_t`: the jobs and partitions asked for. -/
structure JobCond where
  stepList : List Nat
  partitionList : List Text

/-- The number of the last `JobId` pair; it is read before the value is cut at
the space behind it, so that blanks are skipped with the text there. -/
def jobidOf : Nat → Text → Int → Int
  | 0, _, jobid => jobid
  | fuel + 1, fptr, jobid =>
    match strchr '=' fptr with
    | none => jobid
    | some (name, fptr) =>
      let jobid := if sameName name "JobId".toList then atoi fptr else jobid
      match strchr ' ' fptr with
      | none => jobid
      | some (_, fptr) =>
        if fptr.head? = some '\n' then jobid else jobidOf fuel fptr jobid

/-- The value of the last `Partition` pair. -/
def partitionOf (infos : List (Text × Text)) : Option Text :=
  infos.foldl (fun part info => if sameName info.1 "Partition".toList then some info.2 else part)
    none

/-- Whether the record is one of those asked for. -/
def selected (cond : JobCond) (line : Text) (infos : List (Text × Text)) : Bool :=
  let jobid := jobidOf (line.length + 1) line 0
  (cond.stepList.isEmpty ||
    (jobid ≠ 0 && cond.stepList.any fun asked => asked = uint32 jobid)) &&
  (cond.partitionList.isEmpty ||
    (partitionOf infos).any fun part => cond.partitionList.any (sameName · part))

/-- One line: no record or one. -/
def readLine (cond : JobCond) (line : Text) : Option (List JobcompRec) := do
  let infos ← breakLine (line.length + 1) line
  if selected cond line infos then (parseLine infos).map ([·]) else some []

/-- `BUFFER_SIZE`. -/
def bufferSize : Nat := 4096

/-- `filetxt_jobcomp_process_get_jobs`. -/
def getJobs (cond : JobCond) (file : Text) : Option (List JobcompRec) :=
  ((pieces bufferSize file).mapM (readLine cond)).map List.flatten

/-- No condition: every job. -/
def everyJob : JobCond := ⟨[], []⟩

/-! ## What should come back -/

/-- The record of a job with the values it was logged with. -/
def expected (sys : System) (job : JobRecord) : JobcompRec where
  jobid := job.jobId
  partition := job.partition
  startTime := some (makeTimeStr sys job.startTime 32)
  endTime := some (makeTimeStr sys job.endTime 32)
  uid := job.userId
  uidName := some (sys.uidToString job.userId)
  gid := job.groupId
  gidName := some (sys.gidToString job.groupId)
  nodeCnt := job.nodeCnt
  nodelist := job.nodes
  jobname := job.name
  state := some (stateStr job.jobState)
  timelimit := some (limStr job.timeLimit)

/-- The line of a job, wherever it stands in the file behind a whole line, is
read back as the record of the job. -/
def ReadsBack (sys : System) (plugin : Plugin) (job : JobRecord) : Prop :=
  ∀ earlier later es ls, (earlier = [] ∨ earlier.getLast? = some '\n') →
    getJobs everyJob earlier = some es → getJobs everyJob later = some ls →
      getJobs everyJob (earlier ++ (logRecord sys plugin job).1 ++ later) =
        some (es ++ expected sys job :: ls)

/-! ## Breaking a line -/

/-- The pairs of a line. -/
def infosOf (line : Text) : Option (List (Text × Text)) := breakLine (line.length + 1) line

theorem breakLine_fuel {fuel fuel' : Nat} {line : Text} (h : line.length < fuel)
    (h' : line.length < fuel') : breakLine fuel line = breakLine fuel' line := by
  induction fuel generalizing fuel' line with
  | zero => omega
  | succ fuel ih =>
    obtain ⟨fuel', rfl⟩ := Nat.exists_eq_succ_of_ne_zero (by omega : fuel' ≠ 0)
    rw [breakLine, breakLine]
    cases hname : strchr '=' line with
    | none => rfl
    | some r =>
      cases hval : strchr ' ' r.2 with
      | none => simp only [hval]
      | some s =>
        have hlen := congrArg List.length (eq_of_strchr hname)
        have hlen' := congrArg List.length (eq_of_strchr hval)
        rw [List.length_append, List.length_cons] at hlen hlen'
        simp only [hval]
        rw [@ih fuel' s.2 (by omega) (by omega)]

theorem infosOf_pair {name val : Text} (hname : '=' ∉ name) (hval : ' ' ∉ val) (more : Text) :
    infosOf (name ++ '=' :: (val ++ ' ' :: more)) =
      if more.head? = some '\n' then some [(name, val)]
      else (infosOf more).map ((name, val) :: ·) := by
  have hfuel : breakLine (name ++ '=' :: (val ++ ' ' :: more)).length more = infosOf more := by
    refine breakLine_fuel ?_ (Nat.lt_succ_self _)
    simp only [List.length_append, List.length_cons]
    omega
  rw [infosOf, breakLine, strchr_append hname]
  simp only [strchr_append hval]
  rw [hfuel]

theorem infosOf_render {pairs : List (Text × Text)} {rest : Text}
    (hnames : ∀ pair ∈ pairs, '=' ∉ pair.1 ∧ pair.1 ≠ [] ∧ '\n' ∉ pair.1)
    (hvals : ∀ pair ∈ pairs, ' ' ∉ pair.2) (hrest : rest.head? ≠ some '\n') :
    infosOf (render pairs ++ rest) = (infosOf rest).map (pairs ++ ·) := by
  induction pairs with
  | nil => simp [render]
  | cons pair pairs ih =>
    obtain ⟨hname, hnames⟩ := List.forall_mem_cons.mp hnames
    obtain ⟨hval, hvals⟩ := List.forall_mem_cons.mp hvals
    have htext : render (pair :: pairs) ++ rest =
        pair.1 ++ '=' :: (pair.2 ++ ' ' :: (render pairs ++ rest)) := by
      simp [render]
    have hhead : (render pairs ++ rest).head? ≠ some '\n' := by
      rcases pairs with _ | ⟨next, pairs⟩
      · exact hrest
      · obtain ⟨hnext, -⟩ := List.forall_mem_cons.mp hnames
        obtain ⟨c, t, ht⟩ := List.exists_cons_of_ne_nil hnext.2.1
        have hc : c ≠ '\n' := fun h => hnext.2.2 (by rw [ht, h]; exact List.mem_cons_self)
        simpa [render, ht] using hc
    rw [htext, infosOf_pair hname.1 hval, if_neg hhead, ih hnames hvals, Option.map_map]
    rfl

/-- Texts that a line of pairs can hold as a value. -/
def Whole (text : Text) : Prop := ' ' ∉ text ∧ '\n' ∉ text

theorem not_newline_dropLast_right {u v : Text} (h : '\n' ∉ (u ++ v).dropLast) :
    '\n' ∉ v.dropLast := by
  rcases v with _ | ⟨c, v⟩
  · exact List.not_mem_nil
  · rw [List.dropLast_append_cons, List.mem_append, not_or] at h
    exact h.2

theorem not_newline_dropLast_left {c : Char} {u v : Text} (h : '\n' ∉ (u ++ c :: v).dropLast) :
    '\n' ∉ u := by
  rw [List.dropLast_append_cons, List.mem_append, not_or] at h
  exact h.1

/-- Pairs as they stand in a line: a value ends at a space, the last one at the
end of the line or at a space or nothing before its newline. -/
inductive Pairs : List (Text × Text) → Text → Prop
  | last {name val : Text} {tail : Text} (hname : '=' ∉ name) (hval : Whole val)
      (htail : tail = [] ∨ tail = ['\n'] ∨ tail = [' ', '\n']) :
      Pairs [(name, val)] (name ++ '=' :: (val ++ tail))
  | more {name val rest : Text} {infos : List (Text × Text)} (hname : '=' ∉ name)
      (hval : Whole val) (hrest : rest.head? ≠ some '\n') (h : Pairs infos rest) :
      Pairs ((name, val) :: infos) (name ++ '=' :: (val ++ ' ' :: rest))

/-- Lines as `fgets` returns them. -/
def Line (line : Text) : Prop := '\n' ∉ line.dropLast

theorem Line.right {u v : Text} (h : Line (u ++ v)) : Line v := not_newline_dropLast_right h

theorem Line.behind {u v : Text} {c : Char} (h : Line (u ++ c :: v)) : Line v := by
  rw [List.append_cons] at h
  exact h.right

theorem Line.newline {rest : Text} (h : Line ('\n' :: rest)) : rest = [] := by
  rcases rest with _ | ⟨c, rest⟩
  · rfl
  · exact absurd List.mem_cons_self h

/-- A value at the end of a line, with the newline that it may have. -/
theorem Line.value {val : Text} (h : Line val) :
    val = val.takeWhile (· ≠ '\n') ∨ val = val.takeWhile (· ≠ '\n') ++ ['\n'] := by
  by_cases hmem : '\n' ∈ val
  · obtain ⟨u, rest, rfl, hu⟩ := List.eq_append_cons_of_mem hmem
    obtain rfl := h.right.newline
    have htake : (u ++ ['\n']).takeWhile (· ≠ '\n') = u := by
      rw [List.takeWhile_append_of_pos]
      · simp
      · intro c hc
        have hne : c ≠ '\n' := fun heq => hu (heq ▸ hc)
        simpa using hne
    exact Or.inr (by rw [htake])
  · left
    refine (List.takeWhile_eq_self_iff.mpr fun c hc => ?_).symm
    have hne : c ≠ '\n' := fun heq => hmem (heq ▸ hc)
    simpa using hne

theorem whole_takeWhile {val : Text} (hval : ' ' ∉ val) : Whole (val.takeWhile (· ≠ '\n')) := by
  refine ⟨fun hmem => hval ((List.takeWhile_prefix _).subset hmem), fun hmem => ?_⟩
  simpa using List.mem_takeWhile_imp hmem

/-- What one pair makes of the rest of the line. -/
theorem infosOf_last {name val : Text} (hname : '=' ∉ name) (hval : ' ' ∉ val) :
    infosOf (name ++ '=' :: val) = some [(name, val.takeWhile (· ≠ '\n'))] := by
  rw [infosOf, breakLine, strchr_append hname]
  simp only [strchr_eq_none hval]

theorem infosOf_none {line : Text} (h : '=' ∉ line) : infosOf line = none := by
  rw [infosOf, breakLine, strchr_eq_none h]

/-- A line has no `=`, or it ends with its first value, or more stands behind
the space that ends it. -/
theorem line_cases (line : Text) :
    '=' ∉ line ∨
      (∃ name val, '=' ∉ name ∧ ' ' ∉ val ∧ line = name ++ '=' :: val) ∨
      ∃ name val rest, '=' ∉ name ∧ ' ' ∉ val ∧ line = name ++ '=' :: (val ++ ' ' :: rest) := by
  by_cases heq : '=' ∈ line
  · obtain ⟨name, text, rfl, hname⟩ := List.eq_append_cons_of_mem heq
    by_cases hspace : ' ' ∈ text
    · obtain ⟨val, rest, rfl, hval⟩ := List.eq_append_cons_of_mem hspace
      exact Or.inr (Or.inr ⟨name, val, rest, hname, hval, rfl⟩)
    · exact Or.inr (Or.inl ⟨name, text, hname, hspace, rfl⟩)
  · exact Or.inl heq

/-- Induction over a line pair by pair. -/
@[elab_as_elim]
theorem line_induction {P : Text → Prop} (line : Text) (none : ∀ line, '=' ∉ line → P line)
    (last : ∀ name val, '=' ∉ name → ' ' ∉ val → P (name ++ '=' :: val))
    (more : ∀ name val rest, '=' ∉ name → ' ' ∉ val → P rest →
      P (name ++ '=' :: (val ++ ' ' :: rest))) : P line := by
  generalize hn : line.length = n
  induction n using Nat.strong_induction_on generalizing line with
  | _ n ih =>
    rcases line_cases line with h | ⟨name, val, hname, hval, rfl⟩ |
      ⟨name, val, rest, hname, hval, rfl⟩
    · exact none line h
    · exact last name val hname hval
    · refine more name val rest hname hval (ih rest.length ?_ rest rfl)
      rw [← hn]
      simp only [List.length_append, List.length_cons]
      omega

theorem Pairs.infosOf {infos : List (Text × Text)} {line : Text} (h : Pairs infos line) :
    infosOf line = some infos := by
  induction h with
  | @last name val tail hname hval htail =>
    have htake : val.takeWhile (· ≠ '\n') = val := by
      refine List.takeWhile_eq_self_iff.mpr fun c hc => ?_
      have hne : c ≠ '\n' := fun heq => hval.2 (heq ▸ hc)
      simpa using hne
    rcases htail with rfl | rfl | rfl
    · rw [List.append_nil, infosOf_last hname hval.1, htake]
    · have hspace : ' ' ∉ val ++ ['\n'] := by
        rw [List.mem_append, not_or]
        exact ⟨hval.1, by decide⟩
      rw [infosOf_last hname hspace, List.takeWhile_append_of_pos]
      · simp
      · exact List.takeWhile_eq_self_iff.mp htake
    · rw [infosOf_pair hname hval.1]
      exact if_pos rfl
  | more hname hval hrest _ ih =>
    rw [infosOf_pair hname hval.1, if_neg hrest, ih]
    rfl

/-- The pairs that are found are those that stand in the line. -/
theorem pairs_of_infosOf {line : Text} (hline : Line line) {infos : List (Text × Text)}
    (h : Filetxt.infosOf line = some infos) : Pairs infos line := by
  induction line using line_induction generalizing infos with
  | none line heq =>
    rw [infosOf_none heq] at h
    cases h
  | last name val hname hval =>
    rw [infosOf_last hname hval] at h
    obtain rfl := Option.some.inj h
    rcases hline.behind.value with hend | hend
    · have hpairs := Pairs.last hname (whole_takeWhile hval) (Or.inl rfl)
      rw [List.append_nil, ← hend] at hpairs
      rw [← hend]
      exact hpairs
    · have hpairs := Pairs.last hname (whole_takeWhile hval) (Or.inr (Or.inl rfl))
      rwa [← hend] at hpairs
  | more name val rest hname hval ih =>
    have hbehind := hline.behind
    have hwhole : Whole val := ⟨hval, not_newline_dropLast_left hbehind⟩
    rw [infosOf_pair hname hval] at h
    split at h
    next hhead =>
      obtain rfl := Option.some.inj h
      obtain ⟨more, rfl⟩ := List.head?_eq_some_iff.mp hhead
      obtain rfl := hbehind.behind.newline
      exact Pairs.last hname hwhole (Or.inr (Or.inr rfl))
    next hhead =>
      obtain ⟨more, hmore, rfl⟩ := Option.map_eq_some_iff.mp h
      exact Pairs.more hname hwhole hhead (ih hbehind.behind hmore)

theorem infosOf_eq_some_iff {line : Text} (hline : Line line) {infos : List (Text × Text)} :
    infosOf line = some infos ↔ Pairs infos line :=
  ⟨pairs_of_infosOf hline, Pairs.infosOf⟩

/-- The values of a line are whole. -/
theorem Pairs.whole {infos : List (Text × Text)} {line : Text} (h : Pairs infos line) :
    ∀ info ∈ infos, Whole info.2 := by
  induction h with
  | last hname hval htail =>
    intro info hinfo
    rw [List.mem_singleton.mp hinfo]
    exact hval
  | more hname hval hrest _ ih => exact List.forall_mem_cons.mpr ⟨hval, ih⟩

/-! ## Records that are read -/

/-- Names as they stand before their number. -/
def Plain (text : Text) : Prop := Whole text ∧ '(' ∉ text

/-- What the texts of a record that was read cannot hold. -/
structure JobcompRec.Read (job : JobcompRec) : Prop where
  partition : ∀ t ∈ job.partition, Whole t
  nodelist : ∀ t ∈ job.nodelist, Whole t
  jobname : ∀ t ∈ job.jobname, Whole t
  uidName : ∀ t ∈ job.uidName, Plain t
  gidName : ∀ t ∈ job.gidName, Plain t

theorem plain_of_nameAndIdOf {val : Text} {user : Text × Nat} (hval : Whole val)
    (h : nameAndIdOf val = some (some user)) : Plain user.1 := by
  unfold nameAndIdOf at h
  cases hname : strchr '(' val with
  | none =>
    rw [hname] at h
    cases h
  | some r =>
    have hsplit := eq_of_strchr hname
    rw [hname] at h
    simp only at h
    split at h
    · cases h
    · cases h
      rw [hsplit] at hval
      refine ⟨⟨fun hmem => hval.1 ?_, fun hmem => hval.2 ?_⟩, not_mem_of_strchr hname⟩
      · exact List.mem_append_left _ hmem
      · exact List.mem_append_left _ hmem

theorem setField_read {job job' : JobcompRec} {info : Text × Text} (hjob : job.Read)
    (hval : Whole info.2) (h : setField job info = some job') : job'.Read := by
  have hone : ∀ t ∈ some info.2, Whole t := by
    intro t ht
    obtain rfl := Option.some.inj ht
    exact hval
  have hplain : ∀ {user : Text × Nat}, nameAndIdOf info.2 = some (some user) →
      ∀ t ∈ some user.1, Plain t := by
    intro user huser t ht
    obtain rfl := Option.some.inj ht
    exact plain_of_nameAndIdOf hval huser
  unfold setField at h
  cases hf : fieldOf info.1 with
  | none =>
    simp only [hf] at h
    obtain rfl := Option.some.inj h
    exact hjob
  | some f =>
    simp only [hf] at h
    cases f
    case userid =>
      simp only at h
      split at h
      · cases h
      · obtain rfl := Option.some.inj h
        exact hjob
      next user huser =>
        obtain rfl := Option.some.inj h
        exact { hjob with uidName := hplain huser }
    case groupId =>
      simp only at h
      split at h
      · cases h
      · obtain rfl := Option.some.inj h
        exact hjob
      next user huser =>
        obtain rfl := Option.some.inj h
        exact { hjob with gidName := hplain huser }
    case partition =>
      obtain rfl := Option.some.inj h
      exact { hjob with partition := hone }
    case nodeList =>
      obtain rfl := Option.some.inj h
      exact { hjob with nodelist := hone }
    case name =>
      obtain rfl := Option.some.inj h
      exact { hjob with jobname := hone }
    all_goals
      obtain rfl := Option.some.inj h
      exact { hjob with }

theorem foldlM_read {job job' : JobcompRec} {infos : List (Text × Text)} (hjob : job.Read)
    (hvals : ∀ info ∈ infos, Whole info.2) (h : infos.foldlM setField job = some job') :
    job'.Read := by
  induction infos generalizing job with
  | nil =>
    obtain rfl := Option.some.inj h
    exact hjob
  | cons info infos ih =>
    obtain ⟨hval, hvals⟩ := List.forall_mem_cons.mp hvals
    rw [List.foldlM_cons] at h
    obtain ⟨next, hnext, h⟩ := Option.bind_eq_some_iff.mp h
    exact ih (setField_read hjob hval hnext) hvals h

theorem JobcompRec.read_empty : JobcompRec.empty.Read := by
  constructor <;> intro t ht <;> cases ht

theorem selected_everyJob (line : Text) (infos : List (Text × Text)) :
    selected everyJob line infos = true := rfl

theorem readLine_everyJob (line : Text) :
    readLine everyJob line = (infosOf line).bind fun infos => (parseLine infos).map ([·]) := by
  simp only [readLine, selected_everyJob, if_true]
  rfl

/-- A record that a line gives, without a condition. -/
theorem exists_of_readLine {line : Text} {js : List JobcompRec}
    (h : readLine everyJob line = some js) :
    ∃ infos j, infosOf line = some infos ∧ parseLine infos = some j ∧ js = [j] := by
  rw [readLine_everyJob] at h
  obtain ⟨infos, hinfos, h⟩ := Option.bind_eq_some_iff.mp h
  obtain ⟨j, hj, rfl⟩ := Option.map_eq_some_iff.mp h
  exact ⟨infos, j, hinfos, hj, rfl⟩

theorem length_getJobs {file : Text} {js : List JobcompRec}
    (h : getJobs everyJob file = some js) : js.length = (pieces bufferSize file).length := by
  obtain ⟨jss, hjss, rfl⟩ := Option.map_eq_some_iff.mp h
  have hone : ∀ js ∈ jss, js.length = 1 := by
    intro js hjs
    obtain ⟨line, -, hline⟩ := of_mem_mapM hjss hjs
    obtain ⟨-, j, -, -, rfl⟩ := exists_of_readLine hline
    rfl
  rw [List.length_flatten, List.map_congr_left hone, List.map_const', List.sum_replicate,
    smul_eq_mul, mul_one, length_of_mapM hjss]

theorem getJobs_read {file : Text} {js : List JobcompRec} (h : getJobs everyJob file = some js) :
    ∀ j ∈ js, j.Read := by
  obtain ⟨jss, hjss, rfl⟩ := Option.map_eq_some_iff.mp h
  intro j hj
  obtain ⟨js, hjs, hj⟩ := List.mem_flatten.mp hj
  obtain ⟨line, hline, hread⟩ := of_mem_mapM hjss hjs
  obtain ⟨infos, j', hinfos, hparse, rfl⟩ := exists_of_readLine hread
  obtain rfl := List.mem_singleton.mp hj
  have hnl : Line line := newline_pieces (by decide) hline
  exact foldlM_read JobcompRec.read_empty (pairs_of_infosOf hnl hinfos).whole hparse

theorem getJobs_append {cond : JobCond} {file rest : Text} (h : Ended file) :
    getJobs cond (file ++ rest) =
      (getJobs cond file).bind fun es => (getJobs cond rest).map (es ++ ·) := by
  rw [getJobs, pieces_append (by decide) h, List.mapM_append, getJobs, getJobs]
  cases (pieces bufferSize file).mapM (readLine cond) with
  | none => rfl
  | some es =>
    cases (pieces bufferSize rest).mapM (readLine cond) with
    | none => rfl
    | some ls => simp

theorem getJobs_line {cond : JobCond} {l : Text} (hl : '\n' ∉ l)
    (hlen : l.length + 1 < bufferSize) :
    getJobs cond (l ++ ['\n']) = readLine cond (l ++ ['\n']) := by
  rw [getJobs, pieces_line hl hlen, pieces_nil, List.mapM_cons]
  cases readLine cond (l ++ ['\n']) with
  | none => rfl
  | some js => simp

/-! ## The line of a job -/

section

variable (sys : System) (plugin : Plugin) (job : JobRecord)

/-- `usr_str`. -/
def usrStr : Text := (getName sys.uidToString plugin.users job.userId).1

/-- `grp_str`. -/
def grpStr : Text := (getName sys.gidToString plugin.groups job.groupId).1

/-- The line up to `WorkDir`. -/
def headText : Text := render (headPairs sys (usrStr sys plugin job) (grpStr sys plugin job) job)

/-- The line from `WorkDir` on, as far as it is one line. -/
def tailLine : Text := (workDirText job).takeWhile (· ≠ '\n')

/-- The record with the names as they are printed. -/
def printed : JobcompRec :=
  { expected sys job with
    uidName := some (usrStr sys plugin job)
    gidName := some (grpStr sys plugin job)
    jobname := some (orNull job.name)
    partition := some (orNull job.partition)
    nodelist := some (orNull job.nodes) }

end

theorem atoi_digits {s : Text} (hne : s ≠ []) (hs : Digits s)
    (hsmall : value s < 4294967296) : uint32 (atoi s) = value s := by
  obtain ⟨c, t, rfl⟩ := List.exists_cons_of_ne_nil hne
  have hc : c.isDigit = true := hs c List.mem_cons_self
  have hdrop : (c :: t).dropWhile isspace = c :: t :=
    List.dropWhile_cons_of_neg (by simp [isspace_of_isDigit hc])
  have hsign : optSign (c :: t) = (false, c :: t) := by
    rw [optSign, if_neg (by rintro rfl; exact absurd hc (by decide)),
      if_neg (by rintro rfl; exact absurd hc (by decide))]
  have htake : (c :: t).takeWhile Char.isDigit = c :: t := List.takeWhile_eq_self_iff.mpr hs
  have hmin : min ((value (c :: t) : Nat) : Int) 9223372036854775807 = (value (c :: t) : Nat) := by
    omega
  simp only [atoi, hdrop, hsign, htake, Bool.false_eq_true, if_false, hmin, uint32, int32]
  rw [Int.bmod_def]
  split <;> omega

theorem atoi_decimal (n : Fin 4294967296) : uint32 (atoi (decimal n)) = n := by
  rw [atoi_digits (decimal_ne_nil _) (digits_decimal _) (by rw [value_decimal]; exact n.isLt),
    value_decimal]

theorem nameAndIdOf_nameAndId {name : Text} (hname : '(' ∉ name) (id : Fin 4294967296) :
    nameAndIdOf (nameAndId name id) = some (some (name, (id : Nat))) := by
  have hclose : ')' ∉ decimal id := fun h => absurd (digits_decimal _ _ h) (by decide)
  rw [nameAndIdOf, nameAndId, strchr_append hname]
  simp only [strchr_append hclose, atoi_decimal]

theorem headPairs_infos {sys : System} {plugin : Plugin} {job : JobRecord}
    (husr : '(' ∉ usrStr sys plugin job) (hgrp : '(' ∉ grpStr sys plugin job) :
    (headPairs sys (usrStr sys plugin job) (grpStr sys plugin job) job).foldlM setField .empty =
      some (printed sys plugin job) := by
  have h1 : fieldOf "JobId".toList = some .jobid := by decide +kernel
  have h2 : fieldOf "UserId".toList = some .userid := by decide +kernel
  have h3 : fieldOf "GroupId".toList = some .groupId := by decide +kernel
  have h4 : fieldOf "Name".toList = some .name := by decide +kernel
  have h5 : fieldOf "JobState".toList = some .jobState := by decide +kernel
  have h6 : fieldOf "Partition".toList = some .partition := by decide +kernel
  have h7 : fieldOf "TimeLimit".toList = some .timelimit := by decide +kernel
  have h8 : fieldOf "StartTime".toList = some .startTime := by decide +kernel
  have h9 : fieldOf "EndTime".toList = some .endTime := by decide +kernel
  have h10 : fieldOf "NodeList".toList = some .nodeList := by decide +kernel
  have h11 : fieldOf "NodeCnt".toList = some .nodeCnt := by decide +kernel
  have h12 : fieldOf "ProcCnt".toList = none := by decide +kernel
  simp only [headPairs, List.foldlM_cons, List.foldlM_nil, setField, h1, h2, h3, h4, h5, h6, h7,
    h8, h9, h10, h11, h12, nameAndIdOf_nameAndId husr, nameAndIdOf_nameAndId hgrp, atoi_decimal,
    Option.bind_eq_bind, Option.bind_some]
  rfl

/-! ## Kept and whole -/

theorem whole_digits {s : Text} (hs : Digits s) : Whole s :=
  ⟨fun h => absurd (hs _ h) (by decide), fun h => absurd (hs _ h) (by decide)⟩

theorem Whole.append {s t : Text} (hs : Whole s) (ht : Whole t) : Whole (s ++ t) :=
  ⟨by rw [List.mem_append, not_or]; exact ⟨hs.1, ht.1⟩,
    by rw [List.mem_append, not_or]; exact ⟨hs.2, ht.2⟩⟩

theorem Whole.take {s : Text} (hs : Whole s) (n : Nat) : Whole (s.take n) :=
  ⟨fun h => hs.1 (List.mem_of_mem_take h), fun h => hs.2 (List.mem_of_mem_take h)⟩

theorem whole_decide {s : Text} (h : s.all fun c => c ≠ ' ' ∧ c ≠ '\n') : Whole s := by
  rw [List.all_eq_true] at h
  exact ⟨fun hc => absurd (h _ hc) (by decide), fun hc => absurd (h _ hc) (by decide)⟩

theorem whole_makeTimeStr (sys : System) (time : Int) (size : Nat) :
    Whole (makeTimeStr sys time size) := by
  have hpad : ∀ n, Whole (padded 2 n) := fun n => whole_digits (digits_padded 2 n)
  refine Whole.take ?_ _
  split
  · exact whole_decide (by decide)
  · refine (hpad _).append (Whole.append (s := ['/']) (whole_decide (by decide)) ?_)
    refine (hpad _).append (Whole.append (s := ['-']) (whole_decide (by decide)) ?_)
    refine (hpad _).append (Whole.append (s := [':']) (whole_decide (by decide)) ?_)
    exact (hpad _).append (Whole.append (s := [':']) (whole_decide (by decide)) (hpad _))

theorem whole_limStr (timeLimit : Nat) : Whole (limStr timeLimit) := by
  unfold limStr
  split
  · exact whole_decide (by decide)
  · exact (whole_digits (digits_decimal _)).take _

theorem whole_jobStateString (inx : Int) : Whole (Print.jobStateString inx) := by
  unfold Print.jobStateString
  split
  · exact whole_decide (by decide)
  · split <;> exact whole_decide (by decide)

theorem whole_nameAndId {name : Text} (h : Whole name) (id : Nat) : Whole (nameAndId name id) :=
  h.append (Whole.append (s := ['(']) (whole_decide (by decide))
    ((whole_digits (digits_decimal _)).append (whole_decide (by decide))))

/-- Texts that are logged and whole. -/
def WholeText (text : Option Text) : Prop := ∃ t, text = some t ∧ Whole t

theorem whole_orNull {text : Option Text} (h : ∀ t ∈ text, Whole t) : Whole (orNull text) := by
  cases text with
  | none => exact whole_decide (by decide)
  | some t => exact h t rfl

section

variable {sys : System} {plugin : Plugin} {job : JobRecord}

/-- The texts of the line up to `WorkDir` are whole. -/
structure WholeHead (sys : System) (plugin : Plugin) (job : JobRecord) : Prop where
  usr : Plain (usrStr sys plugin job)
  grp : Plain (grpStr sys plugin job)
  name : ∀ t ∈ job.name, Whole t
  partition : ∀ t ∈ job.partition, Whole t
  nodes : ∀ t ∈ job.nodes, Whole t

theorem WholeHead.pairs (h : WholeHead sys plugin job) :
    ∀ pair ∈ headPairs sys (usrStr sys plugin job) (grpStr sys plugin job) job,
      ('=' ∉ pair.1 ∧ pair.1 ≠ [] ∧ '\n' ∉ pair.1) ∧ Whole pair.2 := by
  have hdec : ∀ n, Whole (decimal n) := fun n => whole_digits (digits_decimal n)
  simp only [headPairs, List.forall_mem_cons]
  refine ⟨⟨by decide, hdec _⟩, ⟨by decide, whole_nameAndId h.usr.1 _⟩,
    ⟨by decide, whole_nameAndId h.grp.1 _⟩, ⟨by decide, whole_orNull h.name⟩,
    ⟨by decide, whole_jobStateString _⟩, ⟨by decide, whole_orNull h.partition⟩,
    ⟨by decide, whole_limStr _⟩, ⟨by decide, whole_makeTimeStr _ _ _⟩,
    ⟨by decide, whole_makeTimeStr _ _ _⟩, ⟨by decide, whole_orNull h.nodes⟩,
    ⟨by decide, hdec _⟩, ⟨by decide, hdec _⟩, fun _ h => absurd h List.not_mem_nil⟩

theorem WholeHead.newline (h : WholeHead sys plugin job) : '\n' ∉ headText sys plugin job := by
  intro hmem
  obtain ⟨pair, hpair, hmem⟩ := List.mem_flatMap.mp hmem
  obtain ⟨hname, hval⟩ := h.pairs pair hpair
  rw [List.mem_append, List.mem_cons, List.mem_append] at hmem
  rcases hmem with hmem | hmem | hmem | hmem
  · exact hname.2.2 hmem
  · exact absurd hmem (by decide)
  · exact hval.2 hmem
  · exact absurd hmem (by decide)

theorem newline_tailLine : '\n' ∉ tailLine job := fun h => by
  simpa using List.mem_takeWhile_imp h

theorem line_tailLine : Line (tailLine job ++ ['\n']) := by
  rw [Line, List.dropLast_concat]
  exact newline_tailLine

theorem exists_tailLine (job : JobRecord) : ∃ t, tailLine job = 'W' :: t :=
  ⟨_, List.takeWhile_cons_of_pos (by decide)⟩

/-- The line is read as its pairs, up to the working directory. -/
theorem WholeHead.readLine (h : WholeHead sys plugin job) :
    readLine everyJob (headText sys plugin job ++ tailLine job ++ ['\n']) =
      (infosOf (tailLine job ++ ['\n'])).bind fun infos =>
        (infos.foldlM setField (printed sys plugin job)).map ([·]) := by
  have hhead : (tailLine job ++ ['\n']).head? ≠ some '\n' := by
    obtain ⟨t, ht⟩ := exists_tailLine job
    rw [ht, List.cons_append, List.head?_cons, ne_eq, Option.some.injEq]
    decide
  have hinfos : infosOf (headText sys plugin job ++ (tailLine job ++ ['\n'])) =
      (infosOf (tailLine job ++ ['\n'])).map
        (headPairs sys (usrStr sys plugin job) (grpStr sys plugin job) job ++ ·) := by
    refine infosOf_render ?_ ?_ hhead
    · exact fun pair hp => (h.pairs pair hp).1
    · exact fun pair hp => (h.pairs pair hp).2.1
  rw [readLine_everyJob, List.append_assoc, hinfos]
  cases infosOf (tailLine job ++ ['\n']) with
  | none => rfl
  | some infos =>
    rw [Option.map_some, Option.bind_some, Option.bind_some, parseLine, List.foldlM_append,
      headPairs_infos h.usr.2 h.grp.2]
    rfl

end

/-! ## What the pairs say -/

/-- A value with a closed number behind a name. -/
def Closed (val : Text) : Prop :=
  ∃ name rest, val = name ++ '(' :: rest ∧ '(' ∉ name ∧ ')' ∈ rest

/-- `name(id)`, up to its parenthesis. -/
def Names (val name : Text) (id : Nat) : Prop :=
  ∃ digits rest, val = name ++ '(' :: (digits ++ ')' :: rest) ∧ '(' ∉ name ∧ ')' ∉ digits ∧
    uint32 (atoi digits) = id

/-- The fields whose value is a name with a number. -/
def NamesId (name : Text) : Prop :=
  fieldOf name = some .userid ∨ fieldOf name = some .groupId

theorem nameAndIdOf_isSome_iff (val : Text) : (nameAndIdOf val).isSome ↔ '(' ∈ val := by
  unfold nameAndIdOf
  by_cases hmem : '(' ∈ val
  · obtain ⟨name, rest, rfl, hname⟩ := List.eq_append_cons_of_mem hmem
    rw [strchr_append hname]
    simp only [hmem, iff_true]
    split <;> rfl
  · rw [strchr_eq_none hmem]
    simp [hmem]

/-- One pair is stored unless it should name a user or group and has no
parenthesis. -/
theorem setField_isSome_iff (job : JobcompRec) (info : Text × Text) :
    (setField job info).isSome ↔ (NamesId info.1 → '(' ∈ info.2) := by
  unfold setField NamesId
  cases hf : fieldOf info.1 with
  | none => simp
  | some f =>
    cases f
    case userid =>
      rw [← nameAndIdOf_isSome_iff]
      cases hid : nameAndIdOf info.2 with
      | none => simp [hid]
      | some user => cases user <;> simp [hid]
    case groupId =>
      rw [← nameAndIdOf_isSome_iff]
      cases hid : nameAndIdOf info.2 with
      | none => simp [hid]
      | some group => cases group <;> simp [hid]
    all_goals simp

theorem foldlM_isSome_iff (job : JobcompRec) (infos : List (Text × Text)) :
    (infos.foldlM setField job).isSome ↔ ∀ info ∈ infos, NamesId info.1 → '(' ∈ info.2 :=
  Base.Run.foldlM_isSome_iff (fun _ => True) (fun info => NamesId info.1 → '(' ∈ info.2)
    (fun job info _ => setField_isSome_iff job info) (fun _ _ _ _ _ => trivial) trivial

theorem not_closed_of_nameAndIdOf {val : Text} (h : nameAndIdOf val = some none) :
    ¬ Closed val := by
  rintro ⟨name, rest, rfl, hname, hmem⟩
  obtain ⟨digits, rest, rfl, hdigits⟩ := List.eq_append_cons_of_mem hmem
  rw [nameAndIdOf, strchr_append hname] at h
  simp only [strchr_append hdigits] at h
  cases h

theorem names_of_nameAndIdOf {val : Text} {user : Text × Nat}
    (h : nameAndIdOf val = some (some user)) : Closed val ∧ Names val user.1 user.2 := by
  have hopen : '(' ∈ val := by
    rw [← nameAndIdOf_isSome_iff, h]
    rfl
  obtain ⟨name, rest, rfl, hname⟩ := List.eq_append_cons_of_mem hopen
  rw [nameAndIdOf, strchr_append hname] at h
  simp only at h
  split at h
  · cases h
  next digits more hclose =>
    obtain rfl := eq_of_strchr hclose
    obtain rfl := Option.some.inj (Option.some.inj h)
    exact ⟨⟨name, _, rfl, hname, List.mem_append_right _ List.mem_cons_self⟩,
      digits, more, rfl, hname, not_mem_of_strchr hclose, rfl⟩

theorem Names.nameAndIdOf_eq {val name : Text} {id : Nat} (h : Names val name id) :
    nameAndIdOf val = some (some (name, id)) := by
  obtain ⟨digits, rest, rfl, hname, hdigits, rfl⟩ := h
  rw [nameAndIdOf, strchr_append hname]
  simp only [strchr_append hdigits]

/-- A pair that is taken for the field: an unclosed number is reported and left
out. -/
def Gives (f : Field) (info : Text × Text) : Prop :=
  fieldOf info.1 = some f ∧ (f = .userid ∨ f = .groupId → Closed info.2)

section

variable (sys : System) (job : JobRecord)

/-- The value is the one that was logged. -/
def Says (val : Text) : Field → Prop
  | .jobid => uint32 (atoi val) = job.jobId
  | .partition => some val = job.partition
  | .startTime => val = makeTimeStr sys job.startTime 32
  | .endTime => val = makeTimeStr sys job.endTime 32
  | .userid => Names val (sys.uidToString job.userId) job.userId
  | .groupId => Names val (sys.gidToString job.groupId) job.groupId
  | .name => some val = job.name
  | .nodeList => some val = job.nodes
  | .nodeCnt => uint32 (atoi val) = job.nodeCnt
  | .jobState => val = stateStr job.jobState
  | .timelimit => val = limStr job.timeLimit

/-- The record holds what was logged in the field. -/
def Holds (r : JobcompRec) : Field → Prop
  | .jobid => r.jobid = (expected sys job).jobid
  | .partition => r.partition = (expected sys job).partition
  | .startTime => r.startTime = (expected sys job).startTime
  | .endTime => r.endTime = (expected sys job).endTime
  | .userid => r.uidName = (expected sys job).uidName ∧ r.uid = (expected sys job).uid
  | .groupId => r.gidName = (expected sys job).gidName ∧ r.gid = (expected sys job).gid
  | .name => r.jobname = (expected sys job).jobname
  | .nodeList => r.nodelist = (expected sys job).nodelist
  | .nodeCnt => r.nodeCnt = (expected sys job).nodeCnt
  | .jobState => r.state = (expected sys job).state
  | .timelimit => r.timelimit = (expected sys job).timelimit

end

section

variable {sys : System} {job : JobRecord}

theorem eq_expected_iff {r : JobcompRec} : r = expected sys job ↔ ∀ f, Holds sys job r f := by
  constructor
  · rintro rfl f
    cases f <;> first | rfl | exact ⟨rfl, rfl⟩
  · intro h
    have huser := h .userid
    have hgroup := h .groupId
    obtain ⟨jobid, partition, startTime, endTime, uid, uidName, gid, gidName, nodeCnt, nodelist,
      jobname, state, timelimit⟩ := r
    simp only [Holds] at huser hgroup
    rw [JobcompRec.mk.injEq]
    exact ⟨h .jobid, h .partition, h .startTime, h .endTime, huser.2, huser.1, hgroup.2, hgroup.1,
      h .nodeCnt, h .nodeList, h .name, h .jobState, h .timelimit⟩

/-- What a value names is what is read of it. -/
theorem names_iff {val name : Text} {id : Nat} {user : Text × Nat}
    (h : nameAndIdOf val = some (some user)) :
    Names val name id ↔ some user.1 = some name ∧ user.2 = id := by
  constructor
  · intro hnames
    rw [hnames.nameAndIdOf_eq] at h
    obtain rfl := Option.some.inj (Option.some.inj h)
    exact ⟨rfl, rfl⟩
  · rintro ⟨hname, rfl⟩
    obtain rfl := Option.some.inj hname
    exact (names_of_nameAndIdOf h).2

theorem setField_said {r r' : JobcompRec} {info : Text × Text} {f : Field}
    (h : setField r info = some r') (hf : Gives f info) :
    Holds sys job r' f ↔ Says sys job info.2 f := by
  obtain ⟨hname, hclosed⟩ := hf
  simp only [setField, hname] at h
  cases f
  case userid =>
    simp only at h
    split at h
    · cases h
    next hopen => exact absurd (hclosed (Or.inl rfl)) (not_closed_of_nameAndIdOf hopen)
    next user huser =>
      obtain rfl := Option.some.inj h
      exact (names_iff huser).symm
  case groupId =>
    simp only at h
    split at h
    · cases h
    next hopen => exact absurd (hclosed (Or.inr rfl)) (not_closed_of_nameAndIdOf hopen)
    next user huser =>
      obtain rfl := Option.some.inj h
      exact (names_iff huser).symm
  case jobid | partition | name | nodeList | nodeCnt =>
    obtain rfl := Option.some.inj h
    exact Iff.rfl
  all_goals
    obtain rfl := Option.some.inj h
    exact Option.some_inj

/-- A pair leaves the fields that it is not taken for. -/
theorem setField_leaves {r r' : JobcompRec} {info : Text × Text} {f : Field}
    (h : setField r info = some r') (hf : ¬ Gives f info) :
    Holds sys job r' f ↔ Holds sys job r f := by
  cases hname : fieldOf info.1 with
  | none =>
    simp only [setField, hname] at h
    obtain rfl := Option.some.inj h
    exact Iff.rfl
  | some g =>
    simp only [setField, hname] at h
    cases g
    case userid =>
      simp only at h
      split at h
      · cases h
      · obtain rfl := Option.some.inj h
        exact Iff.rfl
      next user huser =>
        obtain rfl := Option.some.inj h
        cases f
        case userid => exact absurd ⟨hname, fun _ => (names_of_nameAndIdOf huser).1⟩ hf
        all_goals exact Iff.rfl
    case groupId =>
      simp only at h
      split at h
      · cases h
      · obtain rfl := Option.some.inj h
        exact Iff.rfl
      next user huser =>
        obtain rfl := Option.some.inj h
        cases f
        case groupId => exact absurd ⟨hname, fun _ => (names_of_nameAndIdOf huser).1⟩ hf
        all_goals exact Iff.rfl
    all_goals
      obtain rfl := Option.some.inj h
      cases f <;> first | exact Iff.rfl | exact absurd ⟨hname, fun h => by simp at h⟩ hf

end

/-! ## The round trip -/

/-- A text cut behind its first newline, and nowhere else. -/
theorem take_line {a rest : Text} {n : Nat}
    (h : a.length + 1 = min n (a.length + 1 + rest.length)) :
    (a ++ '\n' :: rest).take n = a ++ ['\n'] := by
  have hle : a.length + 1 ≤ n := by omega
  have hrest : rest.take (n - (a.length + 1)) = [] := by
    rw [← List.length_eq_zero_iff, List.length_take]
    omega
  rw [List.append_cons, List.take_append, List.length_append, List.length_singleton, hrest,
    List.take_of_length_le (by simpa using hle), List.append_nil]

/-- A text cut elsewhere has lost its newline, or has more behind it. -/
theorem take_not_line {a rest : Text} {n : Nat} (ha : '\n' ∉ a)
    (h : a.length + 1 ≠ min n (a.length + 1 + rest.length)) :
    '\n' ∉ (a ++ '\n' :: rest).take n ∨
      ∃ r, r ≠ [] ∧ (a ++ '\n' :: rest).take n = a ++ '\n' :: r := by
  by_cases hle : n ≤ a.length
  · left
    rw [List.take_append_of_le_length hle]
    exact fun hmem => ha (List.mem_of_mem_take hmem)
  · right
    refine ⟨rest.take (n - (a.length + 1)), ?_, ?_⟩
    · rw [← List.length_pos_iff, List.length_take]
      omega
    · rw [List.append_cons, List.take_append, List.length_append, List.length_singleton,
        List.take_of_length_le (by simp; omega), ← List.append_cons]

section

variable {sys : System} {plugin : Plugin} {job : JobRecord}

theorem exists_rest (job : JobRecord) :
    ∃ rest, workDirText job = tailLine job ++ '\n' :: rest := by
  have hmem : '\n' ∈ workDirText job :=
    List.mem_append_right _ (List.mem_append_right _ (by decide))
  obtain ⟨u, rest, hsplit, hu⟩ := List.eq_append_cons_of_mem hmem
  refine ⟨rest, ?_⟩
  have htail : tailLine job = u := by
    rw [tailLine, hsplit, List.takeWhile_append_of_pos]
    · simp
    · intro c hc
      have hne : c ≠ '\n' := fun heq => hu (heq ▸ hc)
      simpa using hne
  rw [htail, hsplit]

theorem logRecord_fst (sys : System) (plugin : Plugin) (job : JobRecord) :
    (logRecord sys plugin job).1 = (headText sys plugin job ++ workDirText job).take 1023 := rfl

/-- The plugin after some records have been logged. -/
def after (sys : System) (logged : List JobRecord) : Plugin :=
  logged.foldl (fun plugin job => (logRecord sys plugin job).2) ⟨.init, .init⟩

/-- A name that is printed whole: the statics hold 31 characters of it, and
`root` for the number 0 until another number has been looked up. -/
def PrintedWhole (toText : Nat → Text) (ids : List Nat) (id : Nat) : Prop :=
  if id = 0 ∧ ∀ other ∈ ids, other = 0 then toText 0 = "root".toList
  else (toText id).length ≤ 31

/-- The pairs from the working directory on leave what was logged: the last
pair of a field says it again, and the names are printed whole where no pair
gives them. -/
structure Leaves (sys : System) (logged : List JobRecord) (job : JobRecord)
    (pairs : List (Text × Text)) : Prop where
  ids : ∀ info ∈ pairs, NamesId info.1 → '(' ∈ info.2
  said : ∀ f info, Last (Gives f) pairs info → Says sys job info.2 f
  user : (∀ info ∈ pairs, ¬ Gives .userid info) →
    PrintedWhole sys.uidToString (logged.map fun other => other.userId) job.userId
  group : (∀ info ∈ pairs, ¬ Gives .groupId info) →
    PrintedWhole sys.gidToString (logged.map fun other => other.groupId) job.groupId

/-- What a job needs to be read back: names and texts without the characters
that end them, a line that the buffer keeps up to its newline and no further,
and from the working directory on pairs that leave what was logged. -/
structure Clean (sys : System) (logged : List JobRecord) (job : JobRecord) : Prop where
  user : Plain (sys.uidToString job.userId)
  group : Plain (sys.gidToString job.groupId)
  name : WholeText job.name
  partition : WholeText job.partition
  nodes : WholeText job.nodes
  kept : (headText sys (after sys logged) job).length + (tailLine job).length + 1 =
    min 1023 ((headText sys (after sys logged) job).length + (workDirText job).length)
  tail : ∃ pairs, Pairs pairs (tailLine job ++ ['\n']) ∧ Leaves sys logged job pairs

/-- What the plugin keeps of a name once it has looked up some numbers. -/
def NameCache.Of (toText : Nat → Text) (ids : List Nat) (cache : NameCache) : Prop :=
  (cache = .init ∧ ∀ id ∈ ids, id = 0) ∨
    ((∃ id ∈ ids, id ≠ 0) ∧ cache.name = snprintf 32 (toText cache.id))

theorem NameCache.Of.getName {toText : Nat → Text} {ids : List Nat} {cache : NameCache}
    (h : cache.Of toText ids) (id : Nat) : (getName toText cache id).2.Of toText (ids ++ [id]) := by
  have hmem : id ∈ ids ++ [id] := List.mem_append_right _ List.mem_cons_self
  unfold Filetxt.getName
  dsimp only
  rcases h with ⟨rfl, hzero⟩ | ⟨⟨other, hother, hne⟩, hname⟩
  · split
    next hid => exact Or.inr ⟨⟨id, hmem, hid⟩, rfl⟩
    next hid =>
      refine Or.inl ⟨rfl, fun other hother => ?_⟩
      rcases List.mem_append.mp hother with hother | hother
      · exact hzero other hother
      · rw [List.mem_singleton.mp hother]
        exact not_not.mp hid
  · refine Or.inr ⟨⟨other, List.mem_append_left _ hother, hne⟩, ?_⟩
    split
    · rfl
    · exact hname

theorem snprintf_snprintf (text : Text) : snprintf 32 (snprintf 32 text) = text.take 31 := by
  unfold snprintf
  rw [List.take_take, min_self]

/-- The name that is printed. -/
theorem getName_fst {toText : Nat → Text} {ids : List Nat} {cache : NameCache}
    (h : cache.Of toText ids) (id : Nat) :
    (getName toText cache id).1 =
      if id = 0 ∧ ∀ other ∈ ids, other = 0 then "root".toList else (toText id).take 31 := by
  unfold getName
  dsimp only
  rcases h with ⟨rfl, hzero⟩ | ⟨⟨other, hother, hne⟩, hname⟩
  · by_cases hid : id = 0
    · have hsame : ¬ id ≠ NameCache.init.id := not_not.mpr hid
      rw [if_neg hsame, if_pos ⟨hid, hzero⟩]
      rfl
    · have hother : id ≠ NameCache.init.id := hid
      rw [if_pos hother, if_neg (fun hboth => hid hboth.1)]
      exact snprintf_snprintf _
  · have hmixed : ¬ (id = 0 ∧ ∀ other ∈ ids, other = 0) := fun hboth =>
      hne (hboth.2 other hother)
    rw [if_neg hmixed]
    by_cases hid : id ≠ cache.id
    · rw [if_pos hid]
      exact snprintf_snprintf _
    · rw [if_neg hid, hname, ← not_not.mp hid]
      exact snprintf_snprintf _

theorem getName_eq_iff {toText : Nat → Text} {ids : List Nat} {cache : NameCache}
    (h : cache.Of toText ids) (id : Nat) :
    (getName toText cache id).1 = toText id ↔ PrintedWhole toText ids id := by
  rw [getName_fst h, PrintedWhole]
  split
  next hboth =>
    rw [hboth.1]
    exact eq_comm
  next => exact List.take_eq_self_iff _

theorem plain_getName {toText : Nat → Text} {ids : List Nat} {cache : NameCache}
    (h : cache.Of toText ids) {id : Nat} (hid : Plain (toText id)) :
    Plain (getName toText cache id).1 := by
  rw [getName_fst h]
  split
  · exact ⟨whole_decide (by decide), by decide⟩
  · exact ⟨hid.1.take _, fun hmem => hid.2 (List.mem_of_mem_take hmem)⟩

theorem after_caches (sys : System) (logged : List JobRecord) :
    (after sys logged).users.Of sys.uidToString (logged.map fun job => job.userId) ∧
      (after sys logged).groups.Of sys.gidToString (logged.map fun job => job.groupId) := by
  induction logged using List.reverseRecOn with
  | nil =>
    exact ⟨Or.inl ⟨rfl, fun _ h => absurd h List.not_mem_nil⟩,
      Or.inl ⟨rfl, fun _ h => absurd h List.not_mem_nil⟩⟩
  | append_singleton logged job ih =>
    rw [after, List.foldl_append, List.map_append, List.map_append]
    exact ⟨ih.1.getName _, ih.2.getName _⟩

/-- A text that is read back was given: nothing but a text is printed or said. -/
theorem isSome_of_read {logged : List JobRecord} {pairs : List (Text × Text)}
    (h : pairs.foldlM setField (printed sys (after sys logged) job) = some (expected sys job))
    {text : Option Text} {f : Field} (hsaid : ∀ {val}, Says sys job val f → text.isSome)
    (hprinted : Holds sys job (printed sys (after sys logged) job) f → text.isSome) :
    text.isSome := by
  obtain ⟨hlast, hheld⟩ := (foldlM_iff (Gives f) (Says sys job ·.2 f) (Holds sys job · f)
    setField_said setField_leaves h).mp (eq_expected_iff.mp rfl f)
  by_cases hgiven : ∃ info ∈ pairs, Gives f info
  · obtain ⟨info, hinfo⟩ := exists_last hgiven
    exact hsaid (hlast info hinfo)
  · exact hprinted (hheld fun info hmem hgives => hgiven ⟨info, hmem, hgives⟩)

/-- The pairs leave the record as it was logged. -/
theorem leaves_iff {logged : List JobRecord} {pairs : List (Text × Text)}
    (hname : WholeText job.name) (hpart : WholeText job.partition)
    (hnodes : WholeText job.nodes) :
    pairs.foldlM setField (printed sys (after sys logged) job) = some (expected sys job) ↔
      Leaves sys logged job pairs := by
  obtain ⟨husers, hgroups⟩ := after_caches sys logged
  obtain ⟨name, hname, -⟩ := hname
  obtain ⟨part, hpart, -⟩ := hpart
  obtain ⟨nodes, hnodes, -⟩ := hnodes
  -- what is printed before the pairs, field by field
  have hprinted : ∀ f, f ≠ .userid → f ≠ .groupId →
      Holds sys job (printed sys (after sys logged) job) f := by
    intro f huser hgroup
    cases f
    case userid => exact absurd rfl huser
    case groupId => exact absurd rfl hgroup
    case name => simp only [Holds, printed, expected, hname, orNull, Option.getD_some]
    case partition => simp only [Holds, printed, expected, hpart, orNull, Option.getD_some]
    case nodeList => simp only [Holds, printed, expected, hnodes, orNull, Option.getD_some]
    all_goals rfl
  have huser : Holds sys job (printed sys (after sys logged) job) .userid ↔
      PrintedWhole sys.uidToString (logged.map fun other => other.userId) job.userId := by
    rw [← getName_eq_iff husers]
    exact ⟨fun h => Option.some.inj h.1, fun h => ⟨congrArg some h, rfl⟩⟩
  have hgroup : Holds sys job (printed sys (after sys logged) job) .groupId ↔
      PrintedWhole sys.gidToString (logged.map fun other => other.groupId) job.groupId := by
    rw [← getName_eq_iff hgroups]
    exact ⟨fun h => Option.some.inj h.1, fun h => ⟨congrArg some h, rfl⟩⟩
  have hfields : ∀ {r : JobcompRec} (f : Field),
      pairs.foldlM setField (printed sys (after sys logged) job) = some r →
        (Holds sys job r f ↔ (∀ info, Last (Gives f) pairs info → Says sys job info.2 f) ∧
          ((∀ info ∈ pairs, ¬ Gives f info) →
            Holds sys job (printed sys (after sys logged) job) f)) := fun f h =>
    foldlM_iff (Gives f) (Says sys job ·.2 f) (Holds sys job · f) setField_said setField_leaves h
  constructor
  · intro h
    have hall := eq_expected_iff.mp (rfl : expected sys job = expected sys job)
    refine ⟨(foldlM_isSome_iff _ _).mp (by rw [h]; rfl), fun f => ((hfields f h).mp (hall f)).1, ?_, ?_⟩
    · exact fun hnone => huser.mp (((hfields .userid h).mp (hall _)).2 hnone)
    · exact fun hnone => hgroup.mp (((hfields .groupId h).mp (hall _)).2 hnone)
  · intro h
    obtain ⟨r, hr⟩ := Option.isSome_iff_exists.mp
      ((foldlM_isSome_iff (printed sys (after sys logged) job) pairs).mpr h.ids)
    have hall : ∀ f, Holds sys job r f := by
      intro f
      refine (hfields f hr).mpr ⟨h.said f, fun hnone => ?_⟩
      by_cases hu : f = .userid
      · subst hu
        exact huser.mpr (h.user hnone)
      · by_cases hg : f = .groupId
        · subst hg
          exact hgroup.mpr (h.group hnone)
        · exact hprinted f hu hg
    rw [hr, eq_expected_iff.mpr hall]

theorem WholeHead.of_caches {uids gids : List Nat} (husers : plugin.users.Of sys.uidToString uids)
    (hgroups : plugin.groups.Of sys.gidToString gids) (huser : Plain (sys.uidToString job.userId))
    (hgroup : Plain (sys.gidToString job.groupId)) (hname : ∀ t ∈ job.name, Whole t)
    (hpart : ∀ t ∈ job.partition, Whole t) (hnodes : ∀ t ∈ job.nodes, Whole t) :
    WholeHead sys plugin job :=
  ⟨plain_getName husers huser, plain_getName hgroups hgroup, hname, hpart, hnodes⟩


theorem getJobs_nil : getJobs everyJob [] = some [] := rfl

/-- A pair that says nothing makes an empty record. -/
theorem getJobs_other : getJobs everyJob "A=\n".toList = some [.empty] := by decide +kernel

/-- A line that a job is read back from is kept up to its newline. -/
theorem ReadsBack.kept (h : ReadsBack sys plugin job) (hhead : WholeHead sys plugin job) :
    (headText sys plugin job).length + (tailLine job).length + 1 =
      min 1023 ((headText sys plugin job).length + (workDirText job).length) := by
  obtain ⟨rest, hrest⟩ := exists_rest job
  have hnl : '\n' ∉ headText sys plugin job ++ tailLine job := by
    rw [List.mem_append, not_or]
    exact ⟨hhead.newline, newline_tailLine⟩
  have hline : (logRecord sys plugin job).1 =
      ((headText sys plugin job ++ tailLine job) ++ '\n' :: rest).take 1023 := by
    rw [logRecord_fst, hrest, List.append_assoc]
  by_contra hkept
  have hne : (headText sys plugin job ++ tailLine job).length + 1 ≠
      min 1023 ((headText sys plugin job ++ tailLine job).length + 1 + rest.length) := by
    have hlen := congrArg List.length hrest
    rw [List.length_append, List.length_cons] at hlen
    rw [List.length_append]
    omega
  rcases take_not_line hnl hne with hcut | ⟨r, hr, htake⟩
  · -- cut short, the line takes the next one with it
    have hread := h [] "A=\n".toList [] [.empty] (Or.inl rfl) getJobs_nil getJobs_other
    have htext : (logRecord sys plugin job).1 ++ "A=\n".toList =
        ((logRecord sys plugin job).1 ++ "A=".toList) ++ ['\n'] := by
      rw [List.append_assoc]
      rfl
    have hwhole : '\n' ∉ (logRecord sys plugin job).1 ++ "A=".toList := by
      rw [List.mem_append, not_or, hline]
      exact ⟨hcut, by decide⟩
    have hshort : ((logRecord sys plugin job).1 ++ "A=".toList).length + 1 < bufferSize := by
      have hlen : (logRecord sys plugin job).1.length ≤ 1023 := by
        rw [hline]
        exact List.length_take_le _ _
      have htwo : "A=".toList.length = 2 := by decide
      rw [List.length_append, htwo, bufferSize]
      omega
    rw [List.nil_append, List.nil_append, htext] at hread
    have hlen := length_getJobs hread
    rw [pieces_line hwhole hshort, pieces_nil] at hlen
    exact absurd hlen (by simp)
  · -- a newline within the line makes two of it
    have hread := h [] [] [] [] (Or.inl rfl) getJobs_nil getJobs_nil
    rw [List.nil_append, List.nil_append, List.append_nil, hline, htake,
      List.append_cons] at hread
    have hlen := length_getJobs hread
    have hended : Ended ((headText sys plugin job ++ tailLine job) ++ ['\n']) :=
      Or.inr List.getLast?_concat
    rw [pieces_append (by decide) hended, List.length_append] at hlen
    have hfirst : 0 < (pieces bufferSize ((headText sys plugin job ++ tailLine job) ++
        ['\n'])).length := by
      rw [pieces_of_ne_nil (by decide) (by simp)]
      exact Nat.succ_pos _
    have hsecond : 0 < (pieces bufferSize r).length := by
      rw [pieces_of_ne_nil (by decide) hr]
      exact Nat.succ_pos _
    simp only [List.length_cons, List.length_nil] at hlen
    omega

/-- A line that is kept up to its newline. -/
theorem logRecord_of_kept
    (h : (headText sys plugin job).length + (tailLine job).length + 1 =
      min 1023 ((headText sys plugin job).length + (workDirText job).length)) :
    (logRecord sys plugin job).1 = headText sys plugin job ++ tailLine job ++ ['\n'] ∧
      (headText sys plugin job ++ tailLine job).length + 1 < bufferSize := by
  obtain ⟨rest, hrest⟩ := exists_rest job
  have hlen := congrArg List.length hrest
  rw [List.length_append, List.length_cons] at hlen
  constructor
  · rw [logRecord_fst, hrest, ← List.append_assoc, take_line]
    rw [List.length_append]
    omega
  · rw [List.length_append, bufferSize]
    omega

theorem wholeText_of {text : Option Text} (hsome : text.isSome = true)
    (h : ∀ t ∈ text, Whole t) : WholeText text := by
  obtain ⟨t, rfl⟩ := Option.isSome_iff_exists.mp hsome
  exact ⟨t, rfl, h t rfl⟩

end

/-- A system of one user, and a job of it. -/
def rootSystem : System :=
  ⟨fun _ => "root".toList, fun _ => "root".toList, fun _ => ⟨1, 2, 3, 4, 5⟩⟩

def rootJob (name : Text) : JobRecord where
  jobId := 7
  userId := 0
  groupId := 0
  name := some name
  jobState := 3
  partition := some "debug".toList
  timeLimit := 30
  startTime := 1000
  endTime := 2000
  nodes := some "tux0".toList
  nodeCnt := 1
  totalProcs := 1
  workDir := some "/root".toList

example : getJobs everyJob (logRecord rootSystem (after rootSystem []) (rootJob "job".toList)).1 =
    some [expected rootSystem (rootJob "job".toList)] := by decide +kernel

end Slurm.Filetxt
