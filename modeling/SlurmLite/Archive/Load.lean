import Mathlib

/-!
# Loading an archive

`mysql_jobacct_process_archive_load`: the file is read into a buffer that grows
with every read, and what stands in it up to the first NUL is executed. A read
that fails ends the loop as the end of the file does.

* **Reading** (`readLoop_eq`): the buffer holds what was read and `BUF_SIZE` zero
  bytes behind it.
* **Loading** (`loadsWhole_iff`): when the file is executed whole or not at all.
-/

namespace Slurm.Archive

/-! ## The file -/

/-- `BUF_SIZE`. -/
def loadBufSize : Nat := 16384

/-- The greatest `int`. -/
def intMax : Nat := 2147483647

/-- What a call of `read` gives: some bytes (none at the end of the file), an
interruption or another error. -/
inductive ReadResult
  | bytes (bs : List UInt8)
  | eintr
  | failed

/-- The results of reading what is left of a file, up to its end or an error. -/
inductive Reads : List UInt8 → List ReadResult → Prop
  | eof : Reads [] [.bytes []]
  | got {bs rest : List UInt8} {results : List ReadResult} (hne : bs ≠ [])
      (hle : bs.length ≤ loadBufSize) (h : Reads rest results) :
      Reads (bs ++ rest) (.bytes bs :: results)
  | eintr {left : List UInt8} {results : List ReadResult} (h : Reads left results) :
      Reads left (.eintr :: results)
  | failed (left : List UInt8) : Reads left [.failed]

/-- A file that has been opened and how its reads turn out. -/
structure OpenFile where
  content : List UInt8
  results : List ReadResult
  reads : Reads content results

/-- The server: the texts that have a statement in them and those it takes
without an error, which a text without a statement never is. -/
structure Server where
  hasStatement : List UInt8 → Bool
  accepts : List UInt8 → Bool
  empty_refused : ∀ text, hasStatement text = false → accepts text = false

/-- `acct_archive_rec_t`; the file is `none` where `open` fails. -/
structure ArchRec where
  insert : Option (List UInt8)
  archiveFile : Option (Option OpenFile)

/-- The return code and the text given to `mysql_query`. -/
structure Loaded where
  rc : Int
  query : Option (List UInt8)
deriving DecidableEq

/-! ## The code -/

/-- `data`, `data_size` and `data_allocated`. -/
structure LoadBuf where
  data : List UInt8
  dataSize : Nat
  dataAllocated : Nat

/-- The buffer after `read` has stored bytes at `&data[data_size]` and `xrealloc`
has added zero bytes at the end. -/
def LoadBuf.store (b : LoadBuf) (bs : List UInt8) : LoadBuf where
  data := b.data.take b.dataSize ++ bs ++ b.data.drop (b.dataSize + bs.length) ++
    List.replicate bs.length 0
  dataSize := b.dataSize + bs.length
  dataAllocated := b.dataAllocated + bs.length

/-- The loop over the reads; there is no result when `data_allocated` overflows. -/
def readLoop : List ReadResult → LoadBuf → Option LoadBuf
  | [], _ => none
  | .eintr :: results, b => readLoop results b
  -- the error is logged and the loop left with what there is
  | .failed :: _, b => some b
  | .bytes bs :: results, b =>
    if bs = [] then some b
    else if intMax < b.dataAllocated + bs.length then none
    else readLoop results (b.store bs)

/-- `xmalloc(BUF_SIZE)`. -/
def freshBuf : LoadBuf := ⟨List.replicate loadBufSize 0, 0, loadBufSize⟩

/-- The text that a `char *` points to. -/
def cText (data : List UInt8) : List UInt8 := data.takeWhile (· ≠ 0)

/-- `mysql_db_query_check_after` and what is made of its return code. -/
def execute (server : Server) (text : List UInt8) : Loaded :=
  ⟨if server.accepts text then 0 else -1, some text⟩

/-- `mysql_jobacct_process_archive_load`; `ENOENT` is 2. -/
def archiveLoad (server : Server) (archRec : Option ArchRec) : Option Loaded :=
  match archRec with
  | none => some ⟨-1, none⟩
  | some ⟨some insert, _⟩ => some (execute server (cText insert))
  | some ⟨none, some none⟩ => some ⟨2, none⟩
  | some ⟨none, some (some file)⟩ =>
    (readLoop file.results freshBuf).map fun b => execute server (cText b.data)
  | some ⟨none, none⟩ => some ⟨-1, none⟩

/-! ## Reading -/

/-- What the reads have given before the loop ends. -/
def gotten : List ReadResult → List UInt8
  | .bytes bs :: results => bs ++ gotten results
  | .eintr :: results => gotten results
  | .failed :: _ => []
  | [] => []

/-- The buffer that holds some bytes and `BUF_SIZE` zero bytes behind them. -/
def bufOf (d : List UInt8) : LoadBuf :=
  ⟨d ++ List.replicate loadBufSize 0, d.length, d.length + loadBufSize⟩

theorem store_bufOf (d : List UInt8) {bs : List UInt8} (hle : bs.length ≤ loadBufSize) :
    (bufOf d).store bs = bufOf (d ++ bs) := by
  have hdrop : (d ++ List.replicate loadBufSize (0 : UInt8)).drop (d.length + bs.length) =
      List.replicate (loadBufSize - bs.length) 0 := by
    rw [List.drop_append, List.drop_eq_nil_of_le (Nat.le_add_right _ _), List.nil_append,
      Nat.add_sub_cancel_left, List.drop_replicate]
  have hzeros : List.replicate (loadBufSize - bs.length) (0 : UInt8) ++
      List.replicate bs.length 0 = List.replicate loadBufSize 0 := by
    rw [← List.replicate_add, Nat.sub_add_cancel hle]
  unfold LoadBuf.store bufOf
  simp only [List.take_left', hdrop, List.append_assoc, hzeros, List.length_append,
    Nat.add_right_comm]

/-- The loop ends with all that was read, unless its size overflows an `int`. -/
theorem readLoop_eq {left : List UInt8} {results : List ReadResult} (h : Reads left results)
    {d : List UInt8} (hd : d.length + loadBufSize ≤ intMax) :
    readLoop results (bufOf d) =
      if (d ++ gotten results).length + loadBufSize ≤ intMax then
        some (bufOf (d ++ gotten results))
      else none := by
  induction h generalizing d with
  | eof => simp [readLoop, gotten, hd]
  | @got bs rest results hne hle _ ih =>
    have halloc : (bufOf d).dataAllocated + bs.length = (d ++ bs).length + loadBufSize := by
      simp only [bufOf, List.length_append]
      omega
    rw [readLoop, if_neg hne, halloc, store_bufOf d hle, gotten, ← List.append_assoc]
    by_cases hover : intMax < (d ++ bs).length + loadBufSize
    · rw [if_pos hover, if_neg]
      rw [List.length_append]
      omega
    · rw [if_neg hover, ih (by omega)]
  | eintr _ ih => exact ih hd
  | failed left => simp [readLoop, gotten, hd]

theorem gotten_prefix {left : List UInt8} {results : List ReadResult} (h : Reads left results) :
    gotten results <+: left := by
  induction h with
  | eof => exact List.prefix_rfl
  | got _ _ _ ih => exact (List.prefix_append_right_inj _).mpr ih
  | eintr _ ih => exact ih
  | failed left => exact List.nil_prefix

theorem cText_append_zeros (d : List UInt8) (n : Nat) :
    cText (d ++ List.replicate n 0) = cText d := by
  have hzeros : (List.replicate n (0 : UInt8)).takeWhile (· ≠ 0) = [] := by
    cases n <;> simp [List.replicate_succ]
  unfold cText
  rw [List.takeWhile_append, hzeros, List.append_nil]
  split
  · rename_i h
    exact (List.IsPrefix.eq_of_length (List.takeWhile_prefix _) h).symm
  · rfl

/-- What loading an opened file does. -/
theorem archiveLoad_opened (server : Server) (file : OpenFile) :
    archiveLoad server (some ⟨none, some (some file)⟩) =
      if (gotten file.results).length + loadBufSize ≤ intMax then
        some (execute server (cText (gotten file.results)))
      else none := by
  have hloop := readLoop_eq file.reads (d := []) (by decide)
  rw [List.nil_append] at hloop
  have hfresh : freshBuf = bufOf [] := rfl
  rw [archiveLoad, hfresh, hloop]
  split
  · simp [bufOf, cText_append_zeros]
  · rfl

/-! ## Loading -/

/-- The text executed is the whole content of the file, or no statement is
executed and an error is returned. -/
def LoadsWhole (server : Server) (content : Option (List UInt8)) (r : Loaded) : Prop :=
  (∃ text, content = some text ∧ r.query = some text) ∨
    (∀ text, r.query = some text → server.hasStatement text = false) ∧ r.rc ≠ 0

/-- What was read is the whole file, without a NUL, or has no statement in it; and
its size with the buffer fits an `int`. -/
def ReadWhole (server : Server) (file : OpenFile) : Prop :=
  (gotten file.results).length + loadBufSize ≤ intMax ∧
    (gotten file.results = file.content ∧ 0 ∉ file.content ∨
      server.hasStatement (cText (gotten file.results)) = false)

theorem cText_eq_content {file : OpenFile} :
    cText (gotten file.results) = file.content ↔
      gotten file.results = file.content ∧ 0 ∉ file.content := by
  constructor
  · intro h
    have hpre := gotten_prefix file.reads
    have hlen : file.content.length ≤ (gotten file.results).length := by
      rw [← h]
      exact (List.takeWhile_prefix _).length_le
    have heq := hpre.eq_of_length (Nat.le_antisymm hpre.length_le hlen)
    refine ⟨heq, fun hmem => ?_⟩
    rw [heq] at h
    have hall := List.takeWhile_eq_self_iff.mp h 0 hmem
    simp at hall
  · rintro ⟨heq, hnul⟩
    rw [heq]
    refine List.takeWhile_eq_self_iff.mpr fun c hc => ?_
    have hne : c ≠ 0 := by
      rintro rfl
      exact hnul hc
    simpa using hne

/-- **Loading an archive.** For every file, every sequence of results of `read` and
every server, the file is executed whole, or not at all with an error, exactly
when it cannot be opened or is read whole. -/
theorem loadsWhole_iff (server : Server) (file : Option OpenFile) :
    (∃ r, archiveLoad server (some ⟨none, some file⟩) = some r ∧
        LoadsWhole server (file.map (·.content)) r) ↔
      ∀ f, file = some f → ReadWhole server f := by
  cases file with
  | none =>
    constructor
    · intro _ f hf
      cases hf
    · intro _
      refine ⟨⟨2, none⟩, rfl, .inr ⟨fun text h => ?_, ?_⟩⟩
      · exact absurd h (by simp)
      · decide
  | some f =>
    rw [archiveLoad_opened]
    constructor
    · rintro ⟨r, hr, hwhole⟩ f' hf
      obtain rfl := Option.some_inj.mp hf
      by_cases hsize : (gotten f.results).length + loadBufSize ≤ intMax
      · rw [if_pos hsize, Option.some_inj] at hr
        subst hr
        refine ⟨hsize, ?_⟩
        rcases hwhole with ⟨text, hcontent, hquery⟩ | ⟨hnone, -⟩
        · have hc : f.content = text := Option.some_inj.mp hcontent
          have hq : cText (gotten f.results) = text := Option.some_inj.mp hquery
          exact .inl (cText_eq_content.mp (hq.trans hc.symm))
        · exact .inr (hnone _ rfl)
      · rw [if_neg hsize] at hr
        cases hr
    · intro h
      obtain ⟨hsize, hcase⟩ := h f rfl
      rw [if_pos hsize]
      refine ⟨_, rfl, ?_⟩
      rcases hcase with hall | hnone
      · exact .inl ⟨f.content, rfl, congrArg some (cText_eq_content.mpr hall)⟩
      · -- the server answers a text without a statement with an error
        refine .inr ⟨fun text htext => ?_, ?_⟩
        · obtain rfl := Option.some_inj.mp htext
          exact hnone
        · simp [execute, server.empty_refused _ hnone]

/-- A server that takes every text but the empty one. -/
def plainServer : Server where
  hasStatement text := !text.isEmpty
  accepts text := !text.isEmpty
  empty_refused _ h := h

/-- The bytes of a text. -/
def bytesOf (text : String) : List UInt8 := text.toList.map fun c => UInt8.ofNat c.toNat

/-- A file of two rows whose second read fails. -/
def brokenFile : OpenFile where
  content := bytesOf "insert into t values (1)" ++ bytesOf ", (2)"
  results := [.bytes (bytesOf "insert into t values (1)"), .failed]
  reads := .got (by decide) (by decide) (.failed _)

theorem not_loadsWhole_broken :
    ¬ ∃ r, archiveLoad plainServer (some ⟨none, some (some brokenFile)⟩) = some r ∧
      LoadsWhole plainServer (some brokenFile.content) r := by
  have hload : archiveLoad plainServer (some ⟨none, some (some brokenFile)⟩) =
      some ⟨0, some (bytesOf "insert into t values (1)")⟩ := by
    rw [archiveLoad_opened]
    decide
  rintro ⟨r, hr, hwhole⟩
  obtain rfl := Option.some_inj.mp (hload.symm.trans hr)
  rcases hwhole with ⟨text, hcontent, hquery⟩ | ⟨-, hrc⟩
  · rw [← hquery] at hcontent
    revert hcontent
    decide
  · exact hrc rfl

end Slurm.Archive
