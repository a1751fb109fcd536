import SlurmLite.JobcompFiletxt

/-!
# The lines of the job completion log

`filetxt_jobcomp_process_get_jobs` over a log that anything may stand in.

* **Breaking**: `breaks_iff`: the pairs of a line are found exactly when no
  space stands behind its last `=`, but for one before the newline; any other
  is the end of a value, and the name behind it has no `=`.
* **Records**: `parseLine_isSome_iff`: a user or group without a parenthesis
  is written to behind the end of the search.
* **Files**: `neverNull_iff` puts these together, with the condition that the
  caller gave; the lines that are printed, or not asked for, are not parsed.
-/

namespace Slurm.Filetxt

open Base.Text Base.CLib Base.Lines Base.MapM Slurm.ParseTime

/-! ## Reading with any condition -/

/-- `acct_job_cond_t`, what is read of it here. -/
structure GetCond extends JobCond where
  duplicates : Nat

/-- `fdump_flag`: `duplicates & FDUMP_FLAG`. -/
def GetCond.fdump (cond : GetCond) : Bool := cond.duplicates.testBit 2

/-- One line of `filetxt_jobcomp_process_get_jobs`: `none` where a null pointer
is followed, else the record, if there is one. -/
def processLine (cond : Option GetCond) (line : Text) : Option (Option JobcompRec) := do
  let infos ← infosOf line
  -- `job_cond->step_list` is read without the test that `duplicates` had
  let cond ← cond
  if !selected cond.toJobCond line infos then some none
  -- `_do_fdump` prints the pairs, and the line is done
  else if cond.fdump then some none
  else (parseLine infos).map some

/-- `filetxt_jobcomp_process_get_jobs`. -/
def processJobs (cond : Option GetCond) (file : Text) : Option (List JobcompRec) :=
  ((pieces bufferSize file).mapM (processLine cond)).map fun jobs => jobs.filterMap id

/-- The log is read to its end: each line is left out or makes one of the
records that are returned. -/
def NeverNull (cond : Option GetCond) (log : Text) : Prop :=
  ∃ jobs, processJobs cond log = some jobs ∧ ∀ line ∈ pieces bufferSize log,
    processLine cond line = some none ∨ ∃ job ∈ jobs, processLine cond line = some (some job)

/-! ## Lines that break into pairs -/

/-- No space stands behind the last `=`, but for one before the newline. -/
def LastValue (line : Text) : Prop :=
  ∃ before last, line = before ++ '=' :: last ∧ '=' ∉ last ∧
    (' ' ∉ last ∨ ∃ val, ' ' ∉ val ∧ last = val ++ [' ', '\n'])

/-- Behind a space that is not right before the newline, the line has its last
`=` where the rest has it. -/
theorem lastValue_append {name val rest : Text} (hrest : rest.head? ≠ some '\n') :
    LastValue (name ++ '=' :: (val ++ ' ' :: rest)) ↔ LastValue rest := by
  constructor
  · rintro ⟨before, last, hline, hlast, hend⟩
    have hlast' : '=' :: last <:+ name ++ '=' :: (val ++ ' ' :: rest) := ⟨before, hline.symm⟩
    have hspace : ' ' :: rest <:+ name ++ '=' :: (val ++ ' ' :: rest) :=
      ⟨name ++ '=' :: val, by simp⟩
    rcases List.suffix_or_suffix_of_suffix hlast' hspace with h | h
    · rcases List.suffix_cons_iff.mp h with h | ⟨u, rfl⟩
      · exact absurd (List.cons.inj h).1 (by decide)
      · exact ⟨u, last, rfl, hlast, hend⟩
    · -- the space stands behind the last `=`, so that it is the one before the newline
      exfalso
      rcases List.suffix_cons_iff.mp h with h | ⟨u, rfl⟩
      · exact absurd (List.cons.inj h).1 (by decide)
      · rcases hend with hend | ⟨w, hw, hend⟩
        · exact hend (List.mem_append_right _ List.mem_cons_self)
        · have hrest' : ' ' :: rest <:+ w ++ [' ', '\n'] := ⟨u, hend⟩
          rcases List.suffix_or_suffix_of_suffix hrest' (List.suffix_append _ _) with h | h
          · rcases List.suffix_cons_iff.mp h with h | h
            · exact hrest (by rw [(List.cons.inj h).2]; rfl)
            · have hsub : ' ' ∈ ['\n'] := h.subset List.mem_cons_self
              exact absurd hsub (by decide)
          · rcases List.suffix_cons_iff.mp h with h | ⟨v, rfl⟩
            · exact hrest (by rw [← (List.cons.inj h).2]; rfl)
            · have hends : (u ++ ' ' :: v) ++ [' ', '\n'] = w ++ [' ', '\n'] := by
                rw [← hend, List.append_assoc, List.cons_append]
              have hw' := List.append_cancel_right hends
              rw [← hw', List.mem_append, List.mem_cons] at hw
              exact hw (Or.inr (Or.inl rfl))
  · rintro ⟨before, last, rfl, hlast, hend⟩
    exact ⟨name ++ '=' :: (val ++ ' ' :: before), last, by simp, hlast, hend⟩

/-- The last `=` of a text that starts with one. -/
theorem exists_last (text : Text) : ∃ before last, '=' :: text = before ++ '=' :: last ∧
    '=' ∉ last ∧ last <:+ text := by
  induction text with
  | nil => exact ⟨[], [], rfl, List.not_mem_nil, List.suffix_refl _⟩
  | cons c text ih =>
    obtain ⟨before, last, hsplit, hlast, hsuffix⟩ := ih
    by_cases hc : c = '='
    · refine ⟨'=' :: before, last, ?_, hlast, hsuffix.trans (List.suffix_cons _ _)⟩
      rw [hc, hsplit, List.cons_append]
    · rcases before with _ | ⟨d, before⟩
      · obtain rfl := (List.cons.inj hsplit).2
        refine ⟨[], c :: text, rfl, ?_, List.suffix_refl _⟩
        rw [List.mem_cons, not_or]
        exact ⟨Ne.symm hc, hlast⟩
      · refine ⟨'=' :: c :: before, last, ?_, hlast, hsuffix.trans (List.suffix_cons _ _)⟩
        rw [(List.cons.inj hsplit).2]
        rfl

/-- The pairs of a line are found exactly when no space but one before the
newline stands behind its last `=`. -/
theorem breaks_iff {line : Text} (hline : Line line) :
    (∃ infos, infosOf line = some infos) ↔ LastValue line := by
  induction line using line_induction with
  | none line heq =>
    constructor
    · rintro ⟨infos, h⟩
      rw [infosOf_none heq] at h
      cases h
    · rintro ⟨before, last, rfl, -, -⟩
      exact absurd (List.mem_append_right _ List.mem_cons_self) heq
  | last name val hname hval =>
    constructor
    · intro _
      obtain ⟨before, last, hsplit, hlast, hsuffix⟩ := exists_last val
      refine ⟨name ++ before, last, ?_, hlast, Or.inl fun hmem => hval (hsuffix.subset hmem)⟩
      rw [hsplit, List.append_assoc]
    · intro _
      exact ⟨_, infosOf_last hname hval⟩
  | more name val rest hname hval ih =>
    rw [infosOf_pair hname hval]
    by_cases hhead : rest.head? = some '\n'
    · obtain ⟨more, rfl⟩ := List.head?_eq_some_iff.mp hhead
      obtain rfl := hline.behind.behind.newline
      rw [if_pos hhead]
      refine ⟨fun _ => ?_, fun _ => ⟨_, rfl⟩⟩
      obtain ⟨before, last, hsplit, hlast, hsuffix⟩ := exists_last val
      refine ⟨name ++ before, last ++ [' ', '\n'], ?_, ?_, Or.inr ⟨last, ?_, rfl⟩⟩
      · rw [← List.cons_append, hsplit, List.append_assoc, List.append_assoc, List.cons_append]
      · rw [List.mem_append, not_or]
        exact ⟨hlast, by decide⟩
      · exact fun hmem => hval (hsuffix.subset hmem)
    · rw [if_neg hhead, lastValue_append hhead, ← ih hline.behind.behind]
      simp only [Option.map_eq_some_iff]
      constructor
      · rintro ⟨-, infos, h, -⟩
        exact ⟨infos, h⟩
      · rintro ⟨infos, h⟩
        exact ⟨_, infos, h, rfl⟩

/-! ## The record of a line -/

/-- A record comes of the pairs exactly when every user and group has its
parenthesis. -/
theorem parseLine_isSome_iff (infos : List (Text × Text)) :
    (parseLine infos).isSome ↔ ∀ info ∈ infos, NamesId info.1 → '(' ∈ info.2 :=
  foldlM_isSome_iff .empty infos

/-! ## Whole logs -/

/-- What the caller and a line must be: a condition was given, the line's last
value is its end, and, if the line is asked for and not only printed, its users
and groups have their parentheses. -/
structure Readable (cond : Option GetCond) (line : Text) : Prop where
  given : cond.isSome
  broken : LastValue line
  ids : ∀ c ∈ cond, c.fdump = false → ∀ infos, Pairs infos line →
    selected c.toJobCond line infos → ∀ info ∈ infos, NamesId info.1 → '(' ∈ info.2

theorem processLine_isSome_iff {line : Text} (hline : Line line) (cond : Option GetCond) :
    (processLine cond line).isSome ↔ Readable cond line := by
  unfold processLine
  cases hinfos : infosOf line with
  | none =>
    have hbroken : ¬LastValue line := by
      rw [← breaks_iff hline, hinfos]
      simp
    simp only [Option.bind_eq_bind, Option.bind_none, Option.isSome_none, Bool.false_eq_true,
      false_iff]
    exact fun h => hbroken h.broken
  | some infos =>
    have hbroken : LastValue line := (breaks_iff hline).mp ⟨infos, hinfos⟩
    have hpairs : ∀ infos', Pairs infos' line ↔ infos' = infos := by
      intro infos'
      rw [← infosOf_eq_some_iff hline, hinfos, Option.some.injEq, eq_comm]
    cases cond with
    | none =>
      simp only [Option.bind_eq_bind, Option.bind_some, Option.bind_none, Option.isSome_none,
        Bool.false_eq_true, false_iff]
      exact fun h => absurd h.given (by simp)
    | some c =>
      have hready : Readable (some c) line ↔ (c.fdump = false →
          selected c.toJobCond line infos → ∀ info ∈ infos, NamesId info.1 → '(' ∈ info.2) := by
        constructor
        · exact fun h hdump => h.ids c rfl hdump infos ((hpairs _).mpr rfl)
        · intro h
          refine ⟨rfl, hbroken, fun c' hc' hdump infos' hinfos' => ?_⟩
          obtain rfl := Option.some.inj hc'
          rw [(hpairs infos').mp hinfos']
          exact h hdump
      rw [hready, ← parseLine_isSome_iff]
      cases hselected : selected c.toJobCond line infos with
      | false => simp [hselected]
      | true => cases hdump : c.fdump <;> simp [hselected, hdump]

/-- The log is read to its end exactly when no line leads to a null pointer. -/
theorem neverNull_iff_lines (cond : Option GetCond) (log : Text) :
    NeverNull cond log ↔ ∀ line ∈ pieces bufferSize log, (processLine cond line).isSome := by
  constructor
  · rintro ⟨jobs, -, h⟩ line hline
    rcases h line hline with h | ⟨job, -, h⟩
    · rw [h]
      rfl
    · rw [h]
      rfl
  · intro h
    obtain ⟨jobs, hjobs⟩ := exists_mapM fun line hline => Option.isSome_iff_exists.mp (h line hline)
    refine ⟨jobs.filterMap id, by rw [processJobs, hjobs]; rfl, fun line hline => ?_⟩
    obtain ⟨job, hmem, hjob⟩ := mem_mapM hjobs hline
    cases job with
    | none => exact Or.inl hjob
    | some job => exact Or.inr ⟨job, List.mem_filterMap.mpr ⟨some job, hmem, rfl⟩, hjob⟩

/-- `filetxt_jobcomp_process_get_jobs` follows no null pointer exactly when each
line of the log is readable. -/
theorem neverNull_iff (cond : Option GetCond) (log : Text) :
    NeverNull cond log ↔ ∀ line ∈ pieces bufferSize log, Readable cond line := by
  rw [neverNull_iff_lines]
  refine forall₂_congr fun line hmem => ?_
  exact processLine_isSome_iff (newline_pieces (by decide) hmem) cond

/-- Every job, and no printing. -/
def everyJobCond : GetCond := ⟨everyJob, 0⟩

/-- A job whose working directory has a space in it, as the plugin logs it. -/
def spacedLog : Text := "JobId=7 UserId=amy(500) WorkDir=/home/amy/my runs \n".toList

/-- The directory ends at its space, and there is no `=` behind it. -/
theorem not_neverNull_spaced : ¬NeverNull (some everyJobCond) spacedLog := by
  have hnull : processLine (some everyJobCond) spacedLog = none := by decide +kernel
  have hline : spacedLog ∈ pieces bufferSize spacedLog := by decide +kernel
  rw [neverNull_iff_lines]
  intro h
  have hsome := h spacedLog hline
  rw [hnull] at hsome
  exact absurd hsome (by decide)

end Slurm.Filetxt
