import SlurmLite.Base.SqlRows
import SlurmLite.Base.Text
import SlurmLite.Base.CLib

/-!
# Limits as columns

`_setup_association_limits`, `_setup_qos_limits` and `_setup_resv_limits` put the limits of a
record into three texts at once: the columns and the values of an `insert`, and the
assignments for `on duplicate key update`.

* **The texts**: each field is an entry, what is appended to the three texts for it; a
  limit that is not set adds none, one that is cleared adds NULL.
* **What fits** (`AssociationFits`, `QosFits`, `ResvFits`): 64-bit limits that both formats print
  alike, no lists of preempted qos, and strings that are one value between their quotes.
* **Agreement** (`setup_agrees_iff`): the three texts agree exactly for those.
-/

namespace Slurm.SetupLimits

open Base.SqlRows Base.Text Base.CLib

abbrev Text := List Char

/-! ## Records -/

/-- `qos_level_t`. -/
inductive QosLevel where
  | none
  | set
  | modify
deriving DecidableEq

/-- `acct_association_rec_t`, what is read of it here. -/
structure AssociationRec where
  sharesRaw : UInt32 := 0xfffffffe
  grpCpuMins : UInt64 := 0xfffffffe
  grpCpus : UInt32 := 0xfffffffe
  grpJobs : UInt32 := 0xfffffffe
  grpNodes : UInt32 := 0xfffffffe
  grpSubmitJobs : UInt32 := 0xfffffffe
  grpWall : UInt32 := 0xfffffffe
  maxCpuMinsPj : UInt64 := 0xfffffffe
  maxCpusPj : UInt32 := 0xfffffffe
  maxJobs : UInt32 := 0xfffffffe
  maxNodesPj : UInt32 := 0xfffffffe
  maxSubmitJobs : UInt32 := 0xfffffffe
  maxWallPj : UInt32 := 0xfffffffe
  qosList : Option (List Text) := Option.none

/-- A `double`: the `int` it is converted to, and the text that `%f` prints. -/
structure UsageFactor where
  toInt : Int
  text : Text
  word : Word text

/-- `acct_qos_rec_t`, what is read of it here. -/
structure QosRec where
  description : Option Text := Option.none
  priority : UInt32 := 0xfffffffe
  grpCpuMins : UInt64 := 0xfffffffe
  grpCpus : UInt32 := 0xfffffffe
  grpJobs : UInt32 := 0xfffffffe
  grpNodes : UInt32 := 0xfffffffe
  grpSubmitJobs : UInt32 := 0xfffffffe
  grpWall : UInt32 := 0xfffffffe
  maxCpuMinsPu : UInt64 := 0xfffffffe
  maxCpusPu : UInt32 := 0xfffffffe
  maxJobsPu : UInt32 := 0xfffffffe
  maxNodesPu : UInt32 := 0xfffffffe
  maxSubmitJobsPu : UInt32 := 0xfffffffe
  maxWallPu : UInt32 := 0xfffffffe
  preempteeList : Option (List Text) := Option.none
  preemptorList : Option (List Text) := Option.none
  jobFlags : Option Text := Option.none
  usageFactor : UsageFactor

/-- `acct_reservation_rec_t`, what is read of it here. -/
structure ResvRec where
  assocs : Option Text
  cpus : UInt32
  flags : UInt16
  name : Option Text
  nodes : Option Text
  nodeInx : Option Text
  timeEnd : Int64
  timeStart : Int64

/-- The columns of `assoc_table`. -/
def assocTableFields : List Text := List.map String.toList [
  "creation_time", "mod_time", "deleted", "id", "user", "acct", "cluster", "partition",
  "parent_acct", "lft", "rgt", "fairshare", "max_jobs", "max_submit_jobs", "max_cpus_per_job",
  "max_nodes_per_job", "max_wall_duration_per_job", "max_cpu_mins_per_job", "grp_jobs",
  "grp_submit_jobs", "grp_cpus", "grp_nodes", "grp_wall", "grp_cpu_mins", "qos", "delta_qos"]

/-- The columns of `qos_table`. -/
def qosTableFields : List Text := List.map String.toList [
  "creation_time", "mod_time", "deleted", "id", "name", "description", "max_jobs_per_user",
  "max_submit_jobs_per_user", "max_cpus_per_user", "max_nodes_per_user",
  "max_wall_duration_per_user", "max_cpu_mins_per_user", "grp_jobs", "grp_submit_jobs", "grp_cpus",
  "grp_nodes", "grp_wall", "grp_cpu_mins", "job_flags", "preemptees", "preemptors", "priority",
  "usage_factor"]

/-- The columns of `resv_table`. -/
def resvTableFields : List Text := List.map String.toList [
  "id", "name", "cluster", "deleted", "cpus", "assoclist", "nodelist", "node_inx", "start", "end",
  "flags"]

/-! ## The texts -/

/-- A column with the same value in `vals` and in `extra`. -/
def same (col : String) (b : Body) : Entry := ⟨col.toList, b, col.toList, b⟩

/-- A limit that is printed as `val` and as `upd`: NULL if it is `INFINITE`, and left
out if it is another value that is negative as an `int`. -/
def limitAs (col : String) (x val upd : Nat) : List Entry :=
  if int32 x ≥ 0 then [⟨col.toList, .word (decimal val), col.toList, .word (decimal upd)⟩]
  else if int32 x = -1 then [same col (.word "NULL".toList)]
  else []

/-- A limit of 32 bits, `%u` in both texts, or `%d`, which is the same where it is
printed. -/
def limit (col : String) (x : UInt32) : List Entry := limitAs col x.toNat x.toNat x.toNat

/-- A limit of 64 bits, `%llu` in both texts. -/
def limit64 (col : String) (x : UInt64) : List Entry := limitAs col x.toNat x.toNat x.toNat

/-- A limit of 64 bits, `%llu` in `vals` and `%u` in `extra`. -/
def limitCut (col : String) (x : UInt64) : List Entry :=
  limitAs col x.toNat x.toNat (x.toNat % 4294967296)

/-- `\"%s\"` of a string that is there. -/
def string (col : String) : Option Text → List Entry
  | .none => []
  | some s => [same col (.quoted '"' s)]

/-- A number, `%u`, unless it is left out. -/
def number (col : String) (given : Bool) (x : Nat) : List Entry :=
  if given then [same col (.word (decimal x))] else []

/-- The fair share, and `shares_raw` afterwards. -/
def fairshare (sharesRaw : UInt32) (getFs : Bool) : List Entry × UInt32 :=
  if int32 sharesRaw.toNat ≥ 0 then
    ([same "fairshare" (.word (decimal sharesRaw.toNat))], sharesRaw)
  else if int32 sharesRaw.toNat = -1 ∨ getFs then ([same "fairshare" (.word "1".toList)], 1)
  else ([], sharesRaw)

/-- `",%s"` of each name. -/
def qosVal (names : List Text) : Text := names.flatMap (',' :: ·)

/-- A text between single quotes in `vals` and double ones in `extra`. -/
def mixed (col : String) (s : Text) : Entry :=
  ⟨col.toList, .quoted '\'' s, col.toList, .quoted '"' s⟩

/-- The names of a list that are not blank. -/
def nonBlank (qosList : List Text) : List Text := qosList.filter (· ≠ [])

/-- The qos of an association. -/
def associationQos (qosList : Option (List Text)) (defaultQosStr : Option Text)
    (qosLevel : QosLevel) : List Entry :=
  if qosLevel = .modify then []
  else
    match qosList, qosLevel, defaultQosStr with
    | some (tmpChar :: rest), _, _ =>
      match nonBlank (tmpChar :: rest) with
      | [] => []
      | first :: more =>
        let qosType :=
          if first.head? = some '+' ∨ first.head? = some '-' then "delta_qos" else "qos"
        [mixed qosType (qosVal (first :: more))]
    | _, .set, some defaultQosStr => [mixed "qos" defaultQosStr]
    | _, _, _ => [mixed "qos" [], mixed "delta_qos" []]

/-- What `_setup_association_limits` prints of the limits but the fair share. -/
def associationLimits (assoc : AssociationRec) : List Entry := List.flatten [
  limit64 "grp_cpu_mins" assoc.grpCpuMins,
  limit "grp_cpus" assoc.grpCpus,
  limit "grp_jobs" assoc.grpJobs,
  limit "grp_nodes" assoc.grpNodes,
  limit "grp_submit_jobs" assoc.grpSubmitJobs,
  limit "grp_wall" assoc.grpWall,
  limitCut "max_cpu_mins_per_job" assoc.maxCpuMinsPj,
  limit "max_cpus_per_job" assoc.maxCpusPj,
  limit "max_jobs" assoc.maxJobs,
  limit "max_nodes_per_job" assoc.maxNodesPj,
  limit "max_submit_jobs" assoc.maxSubmitJobs,
  limit "max_wall_duration_per_job" assoc.maxWallPj]

/-- The entries of `_setup_association_limits`. -/
def associationEntries (assoc : AssociationRec) (defaultQosStr : Option Text)
    (qosLevel : QosLevel) (getFs : Bool) : List Entry :=
  (fairshare assoc.sharesRaw getFs).1 ++ associationLimits assoc ++
    associationQos assoc.qosList defaultQosStr qosLevel

/-- `_setup_association_limits`: the three texts, and the record afterwards. -/
def setupAssociationLimits (assoc : AssociationRec) (defaultQosStr : Option Text)
    (qosLevel : QosLevel) (getFs : Bool) : Texts × AssociationRec :=
  (textsOf (associationEntries assoc defaultQosStr qosLevel getFs),
    { assoc with sharesRaw := (fairshare assoc.sharesRaw getFs).2 })

/-- A list of qos names: the column is `qos`, the assignment is to another. -/
def preempt (name : String) (qosLevel : QosLevel) (qosList : Option (List Text)) : List Entry :=
  match qosLevel, qosList with
  | .modify, _ => []
  | _, some (tmpChar :: rest) =>
    [⟨"qos".toList, .quoted '"' (qosVal (tmpChar :: rest)), name.toList,
      .quoted '"' (qosVal (tmpChar :: rest))⟩]
  | _, _ => []

/-- `usage_factor`, `%f` in both texts, 1 if it is `INFINITE`. -/
def usageFactor (f : UsageFactor) : List Entry :=
  if f.toInt ≥ 0 then [same "usage_factor" (.word f.text)]
  else if f.toInt = -1 then [same "usage_factor" (.word "1".toList)]
  else []

/-- The entries of `_setup_qos_limits` up to the lists. -/
def qosLimits (qos : QosRec) : List Entry := List.flatten [
  string "description" qos.description,
  limit "priority" qos.priority,
  limit64 "grp_cpu_mins" qos.grpCpuMins,
  limit "grp_cpus" qos.grpCpus,
  limit "grp_jobs" qos.grpJobs,
  limit "grp_nodes" qos.grpNodes,
  limit "grp_submit_jobs" qos.grpSubmitJobs,
  limit "grp_wall" qos.grpWall,
  limitCut "max_cpu_mins_per_user" qos.maxCpuMinsPu,
  limit "max_cpus_per_user" qos.maxCpusPu,
  limit "max_jobs_per_user" qos.maxJobsPu,
  limit "max_nodes_per_user" qos.maxNodesPu,
  limit "max_submit_jobs_per_user" qos.maxSubmitJobsPu,
  limit "max_wall_duration_per_user" qos.maxWallPu]

/-- The entries behind the lists. -/
def qosFlags (qos : QosRec) : List Entry :=
  string "job_flags" qos.jobFlags ++ usageFactor qos.usageFactor

/-- The lists of an entry. -/
def preemptLists (qos : QosRec) (qosLevel : QosLevel) : List Entry :=
  preempt "preemptees" qosLevel qos.preempteeList ++ preempt "preemptors" qosLevel qos.preemptorList

/-- `_setup_qos_limits`. -/
def setupQosLimits (qos : QosRec) (qosLevel : QosLevel) : Texts :=
  textsOf (qosLimits qos ++ preemptLists qos qosLevel ++ qosFlags qos)

/-- The entries of `_setup_resv_limits`; a time is printed with `%u`. -/
def resvEntries (resv : ResvRec) : List Entry := List.flatten [
  string "assoclist" resv.assocs,
  number "cpus" (resv.cpus ≠ 0xfffffffe) resv.cpus.toNat,
  number "flags" (resv.flags ≠ 0xfffe) resv.flags.toNat,
  string "name" resv.name,
  string "nodelist" resv.nodes,
  string "node_inx" resv.nodeInx,
  number "end" (resv.timeEnd ≠ 0) (uint32 resv.timeEnd.toInt),
  number "start" (resv.timeStart ≠ 0) (uint32 resv.timeStart.toInt)]

/-- `_setup_resv_limits`. -/
def setupResvLimits (resv : ResvRec) : Texts := textsOf (resvEntries resv)

/-! ## What fits -/

/-- A limit of 64 bits that `%u` prints as `%llu` does, or that is not printed. -/
def Prints (x : UInt64) : Prop := int32 x.toNat ≥ 0 → x.toNat < 4294967296

/-- A string that is one value between double quotes. -/
def Literal (s : Text) : Prop := ∃ v, (Body.quoted '"' s).value = some v

/-- A string that is the same value between quotes of either kind. -/
def SameLiteral (s : Text) : Prop := SameValue (.quoted '\'' s) (.quoted '"' s)

/-- Strings without quotes and backslashes are. -/
theorem sameLiteral_of_plain {s : Text} (hs : ∀ c ∈ s, c ≠ '\\' ∧ c ≠ '\'' ∧ c ≠ '"') :
    SameLiteral s ∧ Literal s := by
  have hsingle : (Body.quoted '\'' s).value = some (.str s) :=
    value_plain rfl fun c hc => ⟨(hs c hc).1, (hs c hc).2.1⟩
  have hdouble : (Body.quoted '"' s).value = some (.str s) :=
    value_plain rfl fun c hc => ⟨(hs c hc).1, (hs c hc).2.2⟩
  exact ⟨⟨_, hsingle, hdouble⟩, ⟨_, hdouble⟩⟩

/-- What an association must be. -/
structure AssociationFits (assoc : AssociationRec) (defaultQosStr : Option Text)
    (qosLevel : QosLevel) : Prop where
  cpuMins : Prints assoc.maxCpuMinsPj
  qos : qosLevel ≠ .modify → ∀ names ∈ assoc.qosList, SameLiteral (qosVal (nonBlank names))
  default : qosLevel = .set → (∀ names ∈ assoc.qosList, names = []) →
    ∀ s ∈ defaultQosStr, SameLiteral s

/-- What a qos must be. -/
structure QosFits (qos : QosRec) (qosLevel : QosLevel) : Prop where
  description : ∀ s ∈ qos.description, Literal s
  cpuMins : Prints qos.maxCpuMinsPu
  preemptees : qosLevel ≠ .modify → ∀ names ∈ qos.preempteeList, names = []
  preemptors : qosLevel ≠ .modify → ∀ names ∈ qos.preemptorList, names = []
  jobFlags : ∀ s ∈ qos.jobFlags, Literal s

/-- What a reservation must be. -/
structure ResvFits (resv : ResvRec) : Prop where
  assocs : ∀ s ∈ resv.assocs, Literal s
  name : ∀ s ∈ resv.name, Literal s
  nodes : ∀ s ∈ resv.nodes, Literal s
  nodeInx : ∀ s ∈ resv.nodeInx, Literal s

/-! ## Entries and their columns -/

/-- Entries that print words and names, under the columns that are given or some
of them. -/
structure Block (cols : List Text) (es : List Entry) : Prop where
  ok : ∀ e ∈ es, e.Ok
  name : ∀ e ∈ es, e.name = e.col
  cols : (es.map Entry.col).Sublist cols

theorem Block.append {cols cols' : List Text} {es es' : List Entry} (h : Block cols es)
    (h' : Block cols' es') : Block (cols ++ cols') (es ++ es') where
  ok e he := (List.mem_append.mp he).elim (h.ok e) (h'.ok e)
  name e he := (List.mem_append.mp he).elim (h.name e) (h'.name e)
  cols := by
    rw [List.map_append]
    exact h.cols.append h'.cols

theorem Block.nil (cols : List Text) : Block cols [] :=
  ⟨fun _ he => absurd he List.not_mem_nil, fun _ he => absurd he List.not_mem_nil,
    List.nil_sublist _⟩

theorem Block.one {e : Entry} (hok : e.Ok) (hname : e.name = e.col) : Block [e.col] [e] where
  ok _ he := List.mem_singleton.mp he ▸ hok
  name _ he := List.mem_singleton.mp he ▸ hname
  cols := List.Sublist.refl _

/-- Blocks one behind the other. -/
theorem Block.flatten {ess : List (List Entry)} {cols : List Text}
    (h : List.Forall₂ (fun es col => Block [col] es) ess cols) : Block cols ess.flatten := by
  induction h with
  | nil => exact Block.nil []
  | cons hes _ ih => exact hes.append ih

/-- The same values on both sides. -/
def Same (es : List Entry) : Prop := ∀ e ∈ es, SameValue e.val e.upd

theorem same_append (es es' : List Entry) : Same (es ++ es') ↔ Same es ∧ Same es' :=
  List.forall_mem_append

theorem same_flatten (ess : List (List Entry)) : Same ess.flatten ↔ ∀ es ∈ ess, Same es := by
  constructor
  · exact fun h es hes e he => h e (List.mem_flatten_of_mem hes he)
  · intro h e he
    obtain ⟨es, hes, he⟩ := List.mem_flatten.mp he
    exact h es hes e he

/-- The same texts in the same quotes on both sides, or words. -/
def Alike (es : List Entry) : Prop := ∀ e ∈ es, Parallel e.val e.upd

theorem alike_flatten {ess : List (List Entry)} (h : ∀ es ∈ ess, Alike es) :
    Alike ess.flatten := by
  intro e he
  obtain ⟨es, hes, he⟩ := List.mem_flatten.mp he
  exact h es hes e he

theorem word_decimal (n : Nat) : Word (decimal n) := by
  refine ⟨decimal_ne_nil n, fun c hc => ?_⟩
  have hdigit := digits_decimal n c hc
  simp [wordChar, Char.isAlphanum, hdigit]

theorem word_null : Word "NULL".toList := by decide

theorem word_one : Word "1".toList := by decide

theorem decimal_inj {m n : Nat} : decimal m = decimal n ↔ m = n := by
  constructor
  · intro h
    rw [← value_decimal m, h, value_decimal]
  · exact congrArg decimal

/-! ## One field -/

section

variable {col : String} (hcol : Word col.toList)
include hcol

theorem block_limitAs (x val upd : Nat) : Block [col.toList] (limitAs col x val upd) := by
  unfold limitAs
  split
  · exact Block.one (e := ⟨col.toList, _, col.toList, _⟩)
      ⟨hcol, word_decimal val, hcol, word_decimal upd⟩ rfl
  · split
    · exact Block.one (e := same col _) ⟨hcol, word_null, hcol, word_null⟩ rfl
    · exact Block.nil _

theorem block_string (s : Option Text) : Block [col.toList] (string col s) := by
  cases s with
  | none => exact Block.nil _
  | some s =>
    have hquote : Body.Ok (.quoted '"' s) := rfl
    exact Block.one (e := same col _) ⟨hcol, hquote, hcol, hquote⟩ rfl

theorem block_number (given : Bool) (x : Nat) : Block [col.toList] (number col given x) := by
  unfold number
  split
  · exact Block.one (e := same col _) ⟨hcol, word_decimal x, hcol, word_decimal x⟩ rfl
  · exact Block.nil _

end

theorem block_fairshare (sharesRaw : UInt32) (getFs : Bool) :
    Block ["fairshare".toList] (fairshare sharesRaw getFs).1 := by
  have hcol : Word "fairshare".toList := by decide
  unfold fairshare
  split
  · exact Block.one (e := same "fairshare" _)
      ⟨hcol, word_decimal _, hcol, word_decimal _⟩ rfl
  · split
    · exact Block.one (e := same "fairshare" _) ⟨hcol, word_one, hcol, word_one⟩ rfl
    · exact Block.nil _

theorem block_usageFactor (f : UsageFactor) : Block ["usage_factor".toList] (usageFactor f) := by
  have hcol : Word "usage_factor".toList := by decide
  unfold usageFactor
  split
  · exact Block.one (e := same "usage_factor" _) ⟨hcol, f.word, hcol, f.word⟩ rfl
  · split
    · exact Block.one (e := same "usage_factor" _) ⟨hcol, word_one, hcol, word_one⟩ rfl
    · exact Block.nil _

theorem alike_limitAs (col : String) (x val upd : Nat) : Alike (limitAs col x val upd) := by
  unfold limitAs
  intro e he
  split at he
  · obtain rfl := List.mem_singleton.mp he
    exact .word _ _
  · split at he
    · obtain rfl := List.mem_singleton.mp he
      exact .word _ _
    · cases he

theorem alike_same (col : String) {b : Body} (h : Parallel b b) : Alike [same col b] := by
  intro e he
  obtain rfl := List.mem_singleton.mp he
  exact h

theorem sameValue_self {w : Text} (hw : Word w) : SameValue (.word w) (.word w) :=
  (sameValue_word hw hw).mpr rfl

theorem same_one (e : Entry) : Same [e] ↔ SameValue e.val e.upd := List.forall_mem_singleton

/-- A limit has the same value in both texts where it is printed alike. -/
theorem same_limitAs (col : String) (x val upd : Nat) :
    Same (limitAs col x val upd) ↔ (int32 x ≥ 0 → val = upd) := by
  unfold limitAs
  split
  next h =>
    rw [same_one, sameValue_word (word_decimal val) (word_decimal upd), decimal_inj]
    exact ⟨fun heq _ => heq, fun himp => himp h⟩
  next h =>
    refine ⟨fun _ hx => absurd hx h, fun _ => ?_⟩
    split
    · exact (same_one _).mpr (sameValue_self word_null)
    · exact fun e he => absurd he List.not_mem_nil

theorem same_limit (col : String) (x : UInt32) : Same (limit col x) :=
  (same_limitAs col _ _ _).mpr fun _ => rfl

theorem same_limit64 (col : String) (x : UInt64) : Same (limit64 col x) :=
  (same_limitAs col _ _ _).mpr fun _ => rfl

theorem same_limitCut (col : String) (x : UInt64) : Same (limitCut col x) ↔ Prints x := by
  unfold limitCut Prints
  rw [same_limitAs]
  refine imp_congr_right fun _ => ?_
  omega

theorem same_string (col : String) (s : Option Text) :
    Same (string col s) ↔ ∀ t ∈ s, Literal t := by
  cases s with
  | none => simp [string, Same]
  | some s =>
    rw [string, same_one]
    simp [same, SameValue, Literal]

theorem same_number (col : String) (given : Bool) (x : Nat) : Same (number col given x) := by
  unfold number
  split
  · exact (same_one _).mpr (sameValue_self (word_decimal x))
  · exact fun e he => absurd he List.not_mem_nil

theorem same_fairshare (sharesRaw : UInt32) (getFs : Bool) :
    Same (fairshare sharesRaw getFs).1 := by
  unfold fairshare
  split
  · exact (same_one _).mpr (sameValue_self (word_decimal _))
  · split
    · exact (same_one _).mpr (sameValue_self word_one)
    · exact fun e he => absurd he List.not_mem_nil

theorem same_usageFactor (f : UsageFactor) : Same (usageFactor f) := by
  unfold usageFactor
  split
  · exact (same_one _).mpr (sameValue_self f.word)
  · split
    · exact (same_one _).mpr (sameValue_self word_one)
    · exact fun e he => absurd he List.not_mem_nil

theorem alike_string (col : String) (s : Option Text) : Alike (string col s) := by
  cases s with
  | none => exact fun e he => absurd he List.not_mem_nil
  | some s => exact alike_same col (.quoted '"' s)

theorem alike_number (col : String) (given : Bool) (x : Nat) : Alike (number col given x) := by
  unfold number
  split
  · exact alike_same col (.word _ _)
  · exact fun e he => absurd he List.not_mem_nil

theorem alike_usageFactor (f : UsageFactor) : Alike (usageFactor f) := by
  unfold usageFactor
  split
  · exact alike_same _ (.word _ _)
  · split
    · exact alike_same _ (.word _ _)
    · exact fun e he => absurd he List.not_mem_nil

/-! ## Associations -/

/-- Texts that are one item each. -/
def Whole (es : List Entry) : Prop :=
  ∀ e ∈ es, e.val.tokens.isSome = true ∧ e.upd.tokens.isSome = true

theorem whole_limitAs (col : String) (x val upd : Nat) : Whole (limitAs col x val upd) := by
  unfold limitAs
  intro e he
  split at he
  · obtain rfl := List.mem_singleton.mp he
    exact ⟨rfl, rfl⟩
  · split at he
    · obtain rfl := List.mem_singleton.mp he
      exact ⟨rfl, rfl⟩
    · cases he

theorem whole_fairshare (sharesRaw : UInt32) (getFs : Bool) :
    Whole (fairshare sharesRaw getFs).1 := by
  unfold fairshare
  intro e he
  split at he
  · obtain rfl := List.mem_singleton.mp he
    exact ⟨rfl, rfl⟩
  · split at he
    · obtain rfl := List.mem_singleton.mp he
      exact ⟨rfl, rfl⟩
    · cases he

/-- The columns of the limits of an association. -/
def associationCols : List Text := List.map String.toList [
  "grp_cpu_mins", "grp_cpus", "grp_jobs", "grp_nodes", "grp_submit_jobs", "grp_wall",
  "max_cpu_mins_per_job", "max_cpus_per_job", "max_jobs", "max_nodes_per_job", "max_submit_jobs",
  "max_wall_duration_per_job"]

theorem block_associationLimits (assoc : AssociationRec) :
    Block associationCols (associationLimits assoc) := by
  have hwords : ∀ col ∈ associationCols, Word col := by decide
  simp only [associationCols, List.map_cons, List.map_nil, List.forall_mem_cons] at hwords
  obtain ⟨h1, h2, h3, h4, h5, h6, h7, h8, h9, h10, h11, h12, -⟩ := hwords
  exact Block.flatten <| .cons (block_limitAs h1 _ _ _) <| .cons (block_limitAs h2 _ _ _) <|
    .cons (block_limitAs h3 _ _ _) <| .cons (block_limitAs h4 _ _ _) <|
    .cons (block_limitAs h5 _ _ _) <| .cons (block_limitAs h6 _ _ _) <|
    .cons (block_limitAs h7 _ _ _) <| .cons (block_limitAs h8 _ _ _) <|
    .cons (block_limitAs h9 _ _ _) <| .cons (block_limitAs h10 _ _ _) <|
    .cons (block_limitAs h11 _ _ _) <| .cons (block_limitAs h12 _ _ _) .nil

theorem whole_associationLimits (assoc : AssociationRec) : Whole (associationLimits assoc) := by
  intro e he
  obtain ⟨es, hes, he⟩ := List.mem_flatten.mp he
  have hall : ∀ es ∈ [limit64 "grp_cpu_mins" assoc.grpCpuMins, limit "grp_cpus" assoc.grpCpus,
      limit "grp_jobs" assoc.grpJobs, limit "grp_nodes" assoc.grpNodes,
      limit "grp_submit_jobs" assoc.grpSubmitJobs, limit "grp_wall" assoc.grpWall,
      limitCut "max_cpu_mins_per_job" assoc.maxCpuMinsPj,
      limit "max_cpus_per_job" assoc.maxCpusPj, limit "max_jobs" assoc.maxJobs,
      limit "max_nodes_per_job" assoc.maxNodesPj, limit "max_submit_jobs" assoc.maxSubmitJobs,
      limit "max_wall_duration_per_job" assoc.maxWallPj], Whole es := by
    simp only [List.forall_mem_cons]
    exact ⟨whole_limitAs _ _ _ _, whole_limitAs _ _ _ _, whole_limitAs _ _ _ _,
      whole_limitAs _ _ _ _, whole_limitAs _ _ _ _, whole_limitAs _ _ _ _, whole_limitAs _ _ _ _,
      whole_limitAs _ _ _ _, whole_limitAs _ _ _ _, whole_limitAs _ _ _ _, whole_limitAs _ _ _ _,
      whole_limitAs _ _ _ _, fun _ h => absurd h List.not_mem_nil⟩
  exact hall es hes e he

theorem same_associationLimits (assoc : AssociationRec) :
    Same (associationLimits assoc) ↔ Prints assoc.maxCpuMinsPj := by
  rw [associationLimits, same_flatten]
  simp only [List.forall_mem_cons, same_limit, same_limit64, same_limitCut, true_and,
    List.not_mem_nil, false_imp_iff, implies_true, and_true]

theorem sameLiteral_nil : SameLiteral [] :=
  (sameLiteral_of_plain fun _ hc => absurd hc List.not_mem_nil).1

theorem mixed_ok {col : String} (hcol : Word col.toList) (s : Text) : (mixed col s).Ok :=
  ⟨hcol, rfl, hcol, rfl⟩

theorem block_mixed {col : String} (hcol : Word col.toList) (s : Text) :
    Block [col.toList] [mixed col s] := Block.one (e := mixed col s) (mixed_ok hcol s) rfl

theorem Block.mono {cols cols' : List Text} {es : List Entry} (h : Block cols es)
    (hcols : cols.Sublist cols') : Block cols' es :=
  ⟨h.ok, h.name, h.cols.trans hcols⟩

theorem word_qos : Word "qos".toList := by decide

theorem word_deltaQos : Word "delta_qos".toList := by decide

/-- A list of qos with names on it. -/
def Listed (qosList : Option (List Text)) (names : List Text) : Prop :=
  qosList = some names ∧ names ≠ []

/-- What the entries for the qos are: none, the list, the default, or the two that
clear it. -/
inductive QosEntries (qosList : Option (List Text)) (defaultQosStr : Option Text)
    (qosLevel : QosLevel) : List Entry → Prop
  | modify (h : qosLevel = .modify) : QosEntries qosList defaultQosStr qosLevel []
  | blank {names : List Text} (h : qosLevel ≠ .modify) (hnames : Listed qosList names)
      (hblank : nonBlank names = []) : QosEntries qosList defaultQosStr qosLevel []
  | listed {names : List Text} {col : String} (h : qosLevel ≠ .modify)
      (hnames : Listed qosList names) (hcol : col = "qos" ∨ col = "delta_qos") :
      QosEntries qosList defaultQosStr qosLevel [mixed col (qosVal (nonBlank names))]
  | default {s : Text} (h : qosLevel = .set) (hnames : ∀ names ∈ qosList, names = [])
      (hs : defaultQosStr = some s) :
      QosEntries qosList defaultQosStr qosLevel [mixed "qos" s]
  | clear (h : qosLevel ≠ .modify) (hnames : ∀ names ∈ qosList, names = [])
      (hdefault : qosLevel = .set → defaultQosStr = .none) :
      QosEntries qosList defaultQosStr qosLevel [mixed "qos" [], mixed "delta_qos" []]

theorem associationQos_entries (qosList : Option (List Text)) (defaultQosStr : Option Text)
    (qosLevel : QosLevel) :
    QosEntries qosList defaultQosStr qosLevel
      (associationQos qosList defaultQosStr qosLevel) := by
  unfold associationQos
  by_cases hmodify : qosLevel = .modify
  · rw [if_pos hmodify]
    exact .modify hmodify
  · rw [if_neg hmodify]
    split
    next _ _ tmpChar rest =>
      have hnames : Listed (some (tmpChar :: rest)) (tmpChar :: rest) :=
        ⟨rfl, List.cons_ne_nil _ _⟩
      split
      next hblank => exact .blank hmodify hnames hblank
      next first more hmore =>
        rw [← hmore]
        refine .listed hmodify hnames ?_
        split
        · exact Or.inr rfl
        · exact Or.inl rfl
    next hnone =>
      refine .default rfl (fun names hmem => ?_) rfl
      cases names with
      | nil => rfl
      | cons tmpChar rest => exact absurd hmem (hnone tmpChar rest)
    next hlist hset =>
      refine .clear hmodify (fun names hmem => ?_) fun h => ?_
      · cases names with
        | nil => rfl
        | cons tmpChar rest => exact absurd hmem (hlist tmpChar rest)
      · subst h
        cases defaultQosStr with
        | none => rfl
        | some s => exact absurd rfl (hset s rfl)

section

variable {qosList : Option (List Text)} {defaultQosStr : Option Text} {qosLevel : QosLevel}
  {es : List Entry}

theorem QosEntries.block (h : QosEntries qosList defaultQosStr qosLevel es) :
    Block ["qos".toList, "delta_qos".toList] es := by
  have hqos : ["qos".toList].Sublist ["qos".toList, "delta_qos".toList] :=
    List.singleton_sublist.mpr List.mem_cons_self
  have hdelta : ["delta_qos".toList].Sublist ["qos".toList, "delta_qos".toList] :=
    List.singleton_sublist.mpr (List.mem_cons_of_mem _ List.mem_cons_self)
  cases h with
  | modify h => exact Block.nil _
  | blank h hnames hblank => exact Block.nil _
  | listed h hnames hcol =>
    rcases hcol with rfl | rfl
    · exact (block_mixed word_qos _).mono hqos
    · exact (block_mixed word_deltaQos _).mono hdelta
  | default h hnames hs => exact (block_mixed word_qos _).mono hqos
  | clear h hnames hdefault => exact (block_mixed word_qos []).append (block_mixed word_deltaQos [])

/-- Of two entries the first has an empty text. -/
theorem QosEntries.whole_dropLast (h : QosEntries qosList defaultQosStr qosLevel es) :
    Whole es.dropLast := by
  cases h with
  | clear h hnames hdefault =>
    intro e he
    obtain rfl := List.mem_singleton.mp he
    exact ⟨rfl, rfl⟩
  | _ => exact fun e he => absurd he List.not_mem_nil

theorem QosEntries.same_iff (h : QosEntries qosList defaultQosStr qosLevel es) :
    Same es ↔
      (qosLevel ≠ .modify → ∀ names ∈ qosList, SameLiteral (qosVal (nonBlank names))) ∧
      (qosLevel = .set → (∀ names ∈ qosList, names = []) →
        ∀ s ∈ defaultQosStr, SameLiteral s) := by
  have hnil : Same [] := fun e he => absurd he List.not_mem_nil
  have hempty : (∀ names ∈ qosList, names = []) →
      ∀ names ∈ qosList, SameLiteral (qosVal (nonBlank names)) := by
    intro hnames names hmem
    rw [hnames names hmem]
    exact sameLiteral_nil
  cases h with
  | modify h =>
    refine ⟨fun _ => ⟨fun hne => absurd h hne, fun hset => ?_⟩, fun _ => hnil⟩
    rw [h] at hset
    cases hset
  | blank h hnames hblank =>
    refine ⟨fun _ => ⟨fun _ names' hmem => ?_, fun _ hall => ?_⟩, fun _ => hnil⟩
    · obtain rfl : _ = names' := Option.some.inj (hnames.1.symm.trans hmem)
      rw [hblank]
      exact sameLiteral_nil
    · exact absurd (hall _ hnames.1) hnames.2
  | listed h hnames hcol =>
    rw [same_one]
    constructor
    · refine fun hsame => ⟨fun _ names' hmem => ?_, fun _ hall => ?_⟩
      · obtain rfl : _ = names' := Option.some.inj (hnames.1.symm.trans hmem)
        exact hsame
      · exact absurd (hall _ hnames.1) hnames.2
    · exact fun hfits => hfits.1 h _ hnames.1
  | default h hnames hs =>
    rw [same_one]
    constructor
    · refine fun hsame => ⟨fun _ => hempty hnames, fun _ _ s' hs' => ?_⟩
      obtain rfl : _ = s' := Option.some.inj (hs.symm.trans hs')
      exact hsame
    · exact fun hfits => hfits.2 h hnames _ hs
  | clear h hnames hdefault =>
    have hboth : Same [mixed "qos" [], mixed "delta_qos" []] :=
      List.forall_mem_cons.mpr ⟨sameLiteral_nil, (same_one _).mpr sameLiteral_nil⟩
    refine ⟨fun _ => ⟨fun _ => hempty hnames, fun hset _ s hs => ?_⟩, fun _ => hboth⟩
    rw [hdefault hset] at hs
    cases hs

end

theorem mem_dropLast_append {α : Type*} {x : α} {l k : List α} (h : x ∈ (l ++ k).dropLast) :
    x ∈ l ∨ x ∈ k.dropLast := by
  rcases k.eq_nil_or_concat with rfl | ⟨k, y, rfl⟩
  · rw [List.append_nil] at h
    exact Or.inl (List.mem_of_mem_dropLast h)
  · rw [List.concat_eq_append, ← List.append_assoc, List.dropLast_concat] at h
    rw [List.concat_eq_append, List.dropLast_concat]
    exact List.mem_append.mp h

/-- Entries of which all but the last are one item each begin outside. -/
theorem outside_entries {es : List Entry} (hok : ∀ e ∈ es, e.Ok) (hwhole : Whole es.dropLast) :
    Outside .out (es.map Entry.valPart) ∧ Outside .out (es.map Entry.updPart) := by
  constructor
  · refine outside_dropLast (fun p hp => ?_) (fun p hp => ?_) rfl rfl
    · obtain ⟨e, he, rfl⟩ := List.mem_map.mp hp
      exact (hok e he).valPart
    · rw [← List.map_dropLast] at hp
      obtain ⟨e, he, rfl⟩ := List.mem_map.mp hp
      exact (hwhole e he).1
  · refine outside_dropLast (fun p hp => ?_) (fun p hp => ?_) rfl rfl
    · obtain ⟨e, he, rfl⟩ := List.mem_map.mp hp
      exact (hok e he).updPart
    · rw [← List.map_dropLast] at hp
      obtain ⟨e, he, rfl⟩ := List.mem_map.mp hp
      exact (hwhole e he).2

/-- Entries under distinct columns of the table agree where they have the same values:
all but the last are one item each, or they are alike. -/
theorem Block.agrees_iff {cols fields : List Text} {es : List Entry} (h : Block cols es)
    (hcols : cols.Nodup ∧ ∀ col ∈ cols, col ∈ fields) (hes : Whole es.dropLast ∨ Alike es) :
    Agrees fields (textsOf es) ↔ Same es := by
  have hnodup : (es.map Entry.col).Nodup := h.cols.nodup hcols.1
  have hmem : ∀ e ∈ es, e.col ∈ fields := fun e he =>
    hcols.2 _ (h.cols.subset (List.mem_map_of_mem he))
  have hagrees : Agrees fields (textsOf es) ↔ (es.map Entry.col).Nodup ∧
      (∀ e ∈ es, e.col ∈ fields) ∧ Same es := by
    rcases hes with hwhole | halike
    · obtain ⟨hvalOut, hupdOut⟩ := outside_entries h.ok hwhole
      exact Base.SqlRows.agrees_iff h.ok h.name hvalOut hupdOut
    · exact agrees_iff_of_parallel h.ok h.name halike
  rw [hagrees]
  exact ⟨fun hall => hall.2.2, fun hsame => ⟨hnodup, hmem, hsame⟩⟩

theorem associationCols_distinct :
    (["fairshare".toList] ++ associationCols ++ ["qos".toList, "delta_qos".toList]).Nodup ∧
      ∀ col ∈ ["fairshare".toList] ++ associationCols ++ ["qos".toList, "delta_qos".toList],
        col ∈ assocTableFields := by
  decide

/-- `_setup_association_limits`. -/
theorem association_agrees_iff (assoc : AssociationRec) (defaultQosStr : Option Text)
    (qosLevel : QosLevel) (getFs : Bool) :
    Agrees assocTableFields (setupAssociationLimits assoc defaultQosStr qosLevel getFs).1 ↔
      AssociationFits assoc defaultQosStr qosLevel := by
  have hqos := associationQos_entries assoc.qosList defaultQosStr qosLevel
  have hblock : Block _ (associationEntries assoc defaultQosStr qosLevel getFs) :=
    ((block_fairshare assoc.sharesRaw getFs).append (block_associationLimits assoc)).append
      hqos.block
  have hwhole : Whole (associationEntries assoc defaultQosStr qosLevel getFs).dropLast := by
    intro e he
    rcases mem_dropLast_append he with he | he
    · rcases List.mem_append.mp he with he | he
      · exact whole_fairshare _ _ e he
      · exact whole_associationLimits _ e he
    · exact hqos.whole_dropLast e he
  have hiff := hblock.agrees_iff associationCols_distinct (Or.inl hwhole)
  refine hiff.trans ?_
  rw [associationEntries, same_append, same_append, same_associationLimits, hqos.same_iff]
  constructor
  · rintro ⟨⟨-, hmins⟩, hlist, hdefault⟩
    exact ⟨hmins, hlist, hdefault⟩
  · rintro ⟨hmins, hlist, hdefault⟩
    exact ⟨⟨same_fairshare _ _, hmins⟩, hlist, hdefault⟩

/-! ## Qos -/

/-- The columns of the limits of a qos. -/
def qosCols : List Text := List.map String.toList [
  "description", "priority", "grp_cpu_mins", "grp_cpus", "grp_jobs", "grp_nodes",
  "grp_submit_jobs", "grp_wall", "max_cpu_mins_per_user", "max_cpus_per_user",
  "max_jobs_per_user", "max_nodes_per_user", "max_submit_jobs_per_user",
  "max_wall_duration_per_user"]

theorem block_qosLimits (qos : QosRec) : Block qosCols (qosLimits qos) := by
  have hwords : ∀ col ∈ qosCols, Word col := by decide
  simp only [qosCols, List.map_cons, List.map_nil, List.forall_mem_cons] at hwords
  obtain ⟨h1, h2, h3, h4, h5, h6, h7, h8, h9, h10, h11, h12, h13, h14, -⟩ := hwords
  exact Block.flatten <| .cons (block_string h1 _) <| .cons (block_limitAs h2 _ _ _) <|
    .cons (block_limitAs h3 _ _ _) <| .cons (block_limitAs h4 _ _ _) <|
    .cons (block_limitAs h5 _ _ _) <| .cons (block_limitAs h6 _ _ _) <|
    .cons (block_limitAs h7 _ _ _) <| .cons (block_limitAs h8 _ _ _) <|
    .cons (block_limitAs h9 _ _ _) <| .cons (block_limitAs h10 _ _ _) <|
    .cons (block_limitAs h11 _ _ _) <| .cons (block_limitAs h12 _ _ _) <|
    .cons (block_limitAs h13 _ _ _) <| .cons (block_limitAs h14 _ _ _) .nil

theorem block_qosFlags (qos : QosRec) :
    Block ["job_flags".toList, "usage_factor".toList] (qosFlags qos) :=
  (block_string (by decide) _).append (block_usageFactor _)

theorem alike_qosLimits (qos : QosRec) : Alike (qosLimits qos) := by
  refine alike_flatten ?_
  simp only [List.forall_mem_cons]
  exact ⟨alike_string _ _, alike_limitAs _ _ _ _, alike_limitAs _ _ _ _, alike_limitAs _ _ _ _,
    alike_limitAs _ _ _ _, alike_limitAs _ _ _ _, alike_limitAs _ _ _ _, alike_limitAs _ _ _ _,
    alike_limitAs _ _ _ _, alike_limitAs _ _ _ _, alike_limitAs _ _ _ _, alike_limitAs _ _ _ _,
    alike_limitAs _ _ _ _, alike_limitAs _ _ _ _, fun _ h => absurd h List.not_mem_nil⟩

theorem same_qosLimits (qos : QosRec) :
    Same (qosLimits qos) ↔ (∀ s ∈ qos.description, Literal s) ∧ Prints qos.maxCpuMinsPu := by
  rw [qosLimits, same_flatten]
  simp only [List.forall_mem_cons, same_string, same_limit, same_limit64, same_limitCut, true_and,
    List.not_mem_nil, false_imp_iff, implies_true, and_true]

/-- A list of preempted qos adds no entry, or one under a column that the table does
not have. -/
theorem preempt_cases (name : String) (qosLevel : QosLevel) (qosList : Option (List Text)) :
    (preempt name qosLevel qosList = [] ∧
      (qosLevel ≠ .modify → ∀ names ∈ qosList, names = [])) ∨
    ((∃ names, preempt name qosLevel qosList =
        [⟨"qos".toList, .quoted '"' (qosVal names), name.toList, .quoted '"' (qosVal names)⟩]) ∧
      ¬(qosLevel ≠ .modify → ∀ names ∈ qosList, names = [])) := by
  unfold preempt
  split
  · exact Or.inl ⟨rfl, fun h => absurd rfl h⟩
  next tmpChar rest hmodify =>
    refine Or.inr ⟨⟨_, rfl⟩, fun h => ?_⟩
    exact List.cons_ne_nil _ _ (h hmodify _ rfl)
  next hmodify hlist =>
    refine Or.inl ⟨rfl, fun _ names hmem => ?_⟩
    cases names with
    | nil => rfl
    | cons tmpChar rest => exact absurd hmem (hlist tmpChar rest)

theorem preempt_ok {name : String} (hname : Word name.toList) (qosLevel : QosLevel)
    (qosList : Option (List Text)) : ∀ e ∈ preempt name qosLevel qosList, e.Ok := by
  intro e he
  rcases preempt_cases name qosLevel qosList with ⟨h, -⟩ | ⟨⟨names, h⟩, -⟩
  · rw [h] at he
    cases he
  · rw [h] at he
    obtain rfl := List.mem_singleton.mp he
    exact ⟨word_qos, rfl, hname, rfl⟩

theorem preempt_nil {name : String} {qosLevel : QosLevel} {qosList : Option (List Text)}
    (h : ∀ e ∈ preempt name qosLevel qosList, e.col ∈ qosTableFields) :
    qosLevel ≠ .modify → ∀ names ∈ qosList, names = [] := by
  rcases preempt_cases name qosLevel qosList with ⟨-, hnil⟩ | ⟨⟨names, hone⟩, -⟩
  · exact hnil
  · rw [hone] at h
    have hcol : "qos".toList ∈ qosTableFields := h _ List.mem_cons_self
    exact absurd hcol (by decide)

theorem qosCols_distinct :
    (qosCols ++ ["job_flags".toList, "usage_factor".toList]).Nodup ∧
      ∀ col ∈ qosCols ++ ["job_flags".toList, "usage_factor".toList], col ∈ qosTableFields := by
  decide

/-- Without the lists, `_setup_qos_limits` agrees where the limit is printed alike and the
strings are one value each. -/
theorem qos_agrees_of_nil (qos : QosRec) :
    Agrees qosTableFields (textsOf (qosLimits qos ++ qosFlags qos)) ↔
      ((∀ s ∈ qos.description, Literal s) ∧ Prints qos.maxCpuMinsPu) ∧
        ∀ s ∈ qos.jobFlags, Literal s := by
  have hblock := (block_qosLimits qos).append (block_qosFlags qos)
  have halike : Alike (qosLimits qos ++ qosFlags qos) :=
    List.forall_mem_append.mpr ⟨alike_qosLimits qos,
      List.forall_mem_append.mpr ⟨alike_string _ _, alike_usageFactor _⟩⟩
  refine (hblock.agrees_iff qosCols_distinct (Or.inr halike)).trans ?_
  rw [same_append, same_qosLimits, qosFlags, same_append, same_string]
  exact and_congr_right fun _ => and_iff_left (same_usageFactor _)

/-- `_setup_qos_limits`. -/
theorem qos_agrees_iff (qos : QosRec) (qosLevel : QosLevel) :
    Agrees qosTableFields (setupQosLimits qos qosLevel) ↔ QosFits qos qosLevel := by
  have hok : ∀ e ∈ qosLimits qos ++ preemptLists qos qosLevel ++ qosFlags qos, e.Ok := by
    refine List.forall_mem_append.mpr ⟨List.forall_mem_append.mpr ⟨(block_qosLimits qos).ok, ?_⟩,
      (block_qosFlags qos).ok⟩
    exact List.forall_mem_append.mpr ⟨preempt_ok (by decide) _ _,
      preempt_ok (by decide) _ _⟩
  have hlists : (qosLevel ≠ .modify → ∀ names ∈ qos.preempteeList, names = []) →
      (qosLevel ≠ .modify → ∀ names ∈ qos.preemptorList, names = []) →
      setupQosLimits qos qosLevel = textsOf (qosLimits qos ++ qosFlags qos) := by
    intro hees hors
    have hnil : ∀ {name : String} {qosList : Option (List Text)},
        (qosLevel ≠ .modify → ∀ names ∈ qosList, names = []) →
        preempt name qosLevel qosList = [] := by
      intro name qosList h
      rcases preempt_cases name qosLevel qosList with ⟨heq, -⟩ | ⟨-, hne⟩
      · exact heq
      · exact absurd h hne
    rw [setupQosLimits, preemptLists, hnil hees, hnil hors, List.append_nil, List.append_nil]
  constructor
  · intro h
    have hcols := cols_of_agrees hok h
    have hpre := (List.forall_mem_append.mp (List.forall_mem_append.mp hcols).1).2
    have hees := preempt_nil (List.forall_mem_append.mp hpre).1
    have hors := preempt_nil (List.forall_mem_append.mp hpre).2
    rw [hlists hees hors, qos_agrees_of_nil] at h
    exact ⟨h.1.1, h.1.2, hees, hors, h.2⟩
  · intro h
    rw [hlists h.preemptees h.preemptors, qos_agrees_of_nil]
    exact ⟨⟨h.description, h.cpuMins⟩, h.jobFlags⟩

/-! ## Reservations -/

/-- The columns of a reservation. -/
def resvCols : List Text := List.map String.toList [
  "assoclist", "cpus", "flags", "name", "nodelist", "node_inx", "end", "start"]

theorem block_resvEntries (resv : ResvRec) : Block resvCols (resvEntries resv) := by
  have hwords : ∀ col ∈ resvCols, Word col := by decide
  simp only [resvCols, List.map_cons, List.map_nil, List.forall_mem_cons] at hwords
  obtain ⟨h1, h2, h3, h4, h5, h6, h7, h8, -⟩ := hwords
  exact Block.flatten <| .cons (block_string h1 _) <| .cons (block_number h2 _ _) <|
    .cons (block_number h3 _ _) <| .cons (block_string h4 _) <| .cons (block_string h5 _) <|
    .cons (block_string h6 _) <| .cons (block_number h7 _ _) <|
    .cons (block_number h8 _ _) .nil

theorem alike_resvEntries (resv : ResvRec) : Alike (resvEntries resv) := by
  refine alike_flatten ?_
  simp only [List.forall_mem_cons]
  exact ⟨alike_string _ _, alike_number _ _ _, alike_number _ _ _, alike_string _ _,
    alike_string _ _, alike_string _ _, alike_number _ _ _, alike_number _ _ _,
    fun _ h => absurd h List.not_mem_nil⟩

theorem same_resvEntries (resv : ResvRec) : Same (resvEntries resv) ↔ ResvFits resv := by
  rw [resvEntries, same_flatten]
  simp only [List.forall_mem_cons, same_string, same_number, true_and, List.not_mem_nil,
    false_imp_iff, implies_true, and_true]
  constructor
  · rintro ⟨hassocs, hname, hnodes, hinx⟩
    exact ⟨hassocs, hname, hnodes, hinx⟩
  · rintro ⟨hassocs, hname, hnodes, hinx⟩
    exact ⟨hassocs, hname, hnodes, hinx⟩

theorem resvCols_distinct :
    resvCols.Nodup ∧ ∀ col ∈ resvCols, col ∈ resvTableFields := by
  decide

/-- `_setup_resv_limits`. -/
theorem resv_agrees_iff (resv : ResvRec) :
    Agrees resvTableFields (setupResvLimits resv) ↔ ResvFits resv :=
  ((block_resvEntries resv).agrees_iff resvCols_distinct (Or.inr (alike_resvEntries resv))).trans
    (same_resvEntries resv)

/-! ## Agreement -/

/-- **Limits.** The columns, the values and the assignments that the three functions
print agree exactly for the records that fit. -/
theorem setup_agrees_iff (assoc : AssociationRec) (defaultQosStr : Option Text)
    (level : QosLevel) (getFs : Bool) (qos : QosRec) (qosLevel : QosLevel) (resv : ResvRec) :
    (Agrees assocTableFields (setupAssociationLimits assoc defaultQosStr level getFs).1 ↔
      AssociationFits assoc defaultQosStr level) ∧
    (Agrees qosTableFields (setupQosLimits qos qosLevel) ↔ QosFits qos qosLevel) ∧
    (Agrees resvTableFields (setupResvLimits resv) ↔ ResvFits resv) :=
  ⟨association_agrees_iff assoc defaultQosStr level getFs, qos_agrees_iff qos qosLevel,
    resv_agrees_iff resv⟩

/-- An association with 2³² minutes of CPU time for each job. -/
def wideAssoc : AssociationRec := { maxCpuMinsPj := 4294967296 }

/-- The limit is printed whole as the value, and as 0 in the assignment. -/
theorem not_agrees_wide :
    ¬Agrees assocTableFields (setupAssociationLimits wideAssoc .none .none true).1 := by
  have hcols : readWords (setupAssociationLimits wideAssoc .none .none true).1.cols =
      some (List.map String.toList ["fairshare", "max_cpu_mins_per_job", "qos", "delta_qos"]) := by
    decide +kernel
  have hvals : readValues (setupAssociationLimits wideAssoc .none .none true).1.vals =
      some [.word "1".toList, .word "4294967296".toList, .str [], .str []] := by
    decide +kernel
  have hextra : readAssignments (setupAssociationLimits wideAssoc .none .none true).1.extra =
      some [("fairshare".toList, .word "1".toList),
        ("max_cpu_mins_per_job".toList, .word "0".toList), ("qos".toList, .str []),
        ("delta_qos".toList, .str [])] := by
    decide +kernel
  rintro ⟨names, values, assigns, hnames, hvalues, hassigns, -, -, -, hperm⟩
  obtain rfl := Option.some.inj (hcols.symm.trans hnames)
  obtain rfl := Option.some.inj (hvals.symm.trans hvalues)
  obtain rfl := Option.some.inj (hextra.symm.trans hassigns)
  have hmem := hperm.subset (List.mem_cons_of_mem _ List.mem_cons_self)
  exact absurd hmem (by decide +kernel)

end Slurm.SetupLimits
