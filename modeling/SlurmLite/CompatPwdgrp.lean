import SlurmLite.Base.Buffer
import SlurmLite.Base.Lines

/-!
# The passwd and group files

`compat_pwdgrp.c` looks users and groups up in two files of its own, with a
reader that goes through a file line by line in the caller's buffer:

* `parsepwent` and `parsegrent` take one line apart;
* `pgsreader` hands the lines of the file to a parser until it takes one, and
  steps over lines that do not fit the buffer with a counter, `skip`;
* the four lookups read on until a record has their key.

Every buffer that is filled without a newline counts `skip` up, but a line
counts it down only once, so that what follows a very long line is lost.
-/

namespace Slurm.PwdGrp

open Base.CLib Base.Buffer Base.Lines

/-! ## The records -/

/-- `struct passwd`. -/
structure Passwd where
  pwName : List Char
  pwPasswd : List Char
  pwUid : Nat
  pwGid : Nat
  pwGecos : List Char
  pwDir : List Char
  pwShell : List Char
  deriving DecidableEq

/-- `struct group`. -/
structure Group where
  grName : List Char
  grPasswd : List Char
  grGid : Nat
  grMem : List (List Char)
  deriving DecidableEq

/-- A number field and the text after its colon. -/
def numberField (line : List Char) : Option (Nat × List Char) :=
  match strtoul line with
  | some (t, c :: rest) => if c = ':' then some (uint32 t, rest) else none
  | _ => none

/-- `__parsepwent`, `none` for a line it does not take. -/
def parsepwent (line : List Char) : Option Passwd := do
  let (pwName, line) ← strchr ':' line
  let (pwPasswd, line) ← strchr ':' line
  let (pwUid, line) ← numberField line
  let (pwGid, line) ← numberField line
  let (pwGecos, line) ← strchr ':' line
  let (pwDir, pwShell) ← strchr ':' line
  some ⟨pwName, pwPasswd, pwUid, pwGid, pwGecos, pwDir, pwShell⟩

/-- A member list: no empty name, and none that begins with a space. -/
def parseMembers (text : List Char) : Option (List (List Char)) :=
  if text = [] then some []
  else
    let members := text.splitOn ','
    if members.all (fun m => m.head?.any fun c => !isspace c) then some members else none

/-- `__parsegrent` on a line at address `lineBuff` of a buffer of `buflen`
bytes. The member pointers go behind the line, from the next multiple of eight
on, and must end before the buffer does. -/
def parsegrent (lineBuff buflen : Nat) (line : List Char) : Option Group := do
  let (grName, rest) ← strchr ':' line
  let (grPasswd, rest) ← strchr ':' rest
  let (grGid, text) ← numberField rest
  let members ← parseMembers text
  let p := lineBuff + (if text = [] then line.length - 1 else line.length)
  let table := (p + 8) / 8 * 8
  if table + 8 * (members.length + 1) > lineBuff + buflen then none
  else some ⟨grName, grPasswd, grGid, members⟩

/-! ## The reader -/

/-- `PWD_BUFFER_SIZE`. -/
def pwdBufferSize : Nat := 1024

/-- `ENOENT`: here, the end of the file. -/
def enoent : Int := 2

/-- `ERANGE`: the buffer is too small, or the file could not be read. -/
def erange : Int := 34

/-- Lines that are neither empty nor a comment nor begin with a space. -/
def isRecord : List Char → Bool
  | [] => false
  | c :: _ => c ≠ '#' && !isspace c

/-- The line in the buffer without its newline; `none` when the buffer is full
and the line goes on. -/
def bufferLine (buflen : Nat) (lineBuff : List Char) : Option (List Char) :=
  if lineBuff.getLast? = some '\n' then some lineBuff.dropLast
  else if lineBuff.length - 1 + 2 = buflen then none
  else some lineBuff

/-- What a call of `pgsreader` leaves: its return value, with the record where
that is zero, what is still to be read, and the lines it gave to the parser. -/
structure Reading (α : Type) where
  rv : Except Int α
  stream : List (List Char)
  offered : List (List Char)

section

variable {α : Type}

/-- The loop of `__pgsreader` over what `fgets_unlocked` returns. An empty
string, which only a NUL byte in the file could make, would be read before its
start. -/
def pgsreaderLoop (parserfunc : List Char → Option α) (buflen : Nat) :
    Nat → List (List Char) → Option (Reading α)
  | _, [] => some ⟨.error enoent, [], []⟩
  | skip, piece :: stream =>
    if cstr piece = [] then none
    else
      match bufferLine buflen (cstr piece) with
      | none => pgsreaderLoop parserfunc buflen (skip + 1) stream
      | some line =>
        if skip ≠ 0 then pgsreaderLoop parserfunc buflen (skip - 1) stream
        else if isRecord line then
          match parserfunc line with
          | some data => some ⟨.ok data, stream, [line]⟩
          | none =>
            (pgsreaderLoop parserfunc buflen skip stream).map fun r =>
              { r with offered := line :: r.offered }
        else pgsreaderLoop parserfunc buflen skip stream

/-- `__pgsreader`. The size goes to `fgets` as an `int`; what becomes of one
that does not fit is not defined by the language. -/
def pgsreader (parserfunc : List Char → Option α) (buflen : Nat) (stream : List (List Char)) :
    Option (Reading α) :=
  if buflen < pwdBufferSize then some ⟨.error erange, stream, []⟩
  else if 2147483647 < buflen then none
  else pgsreaderLoop parserfunc buflen 0 stream

/-! ## The lookups -/

/-- What a lookup returns, and the lines it gave to the parser on the way. -/
structure Lookup (α : Type) where
  rv : Int
  result : Option α
  offered : List (List Char)
  deriving DecidableEq

/-- The loop of a lookup: records are read until one is `found`. -/
def lookupLoop (parserfunc : List Char → Option α) (found : α → Bool) (buflen : Nat) :
    Nat → List (List Char) → Option (Lookup α)
  | 0, _ => none
  | fuel + 1, stream => do
    let r ← pgsreader parserfunc buflen stream
    match r.rv with
    | .ok data =>
      if found data then some ⟨0, some data, r.offered⟩
      else
        (lookupLoop parserfunc found buflen fuel r.stream).map fun l =>
          { l with offered := r.offered ++ l.offered }
    | .error rv => some ⟨if rv = enoent then 0 else rv, none, r.offered⟩

/-- A lookup in a file, or with the error its `fopen` gave. -/
def lookup (parserfunc : List Char → Option α) (found : α → Bool) (buflen : Nat) :
    Except Int (List Char) → Option (Lookup α)
  | .error errno => some ⟨errno, none, []⟩
  | .ok file =>
    lookupLoop parserfunc found buflen ((pieces buflen file).length + 1) (pieces buflen file)

end

/-- `compat_getpwuid_r`. -/
def compatGetpwuidR (key buflen : Nat) (file : Except Int (List Char)) : Option (Lookup Passwd) :=
  lookup parsepwent (fun resultbuf => resultbuf.pwUid = key) buflen file

/-- `compat_getpwnam_r`. -/
def compatGetpwnamR (key : List Char) (buflen : Nat) (file : Except Int (List Char)) :
    Option (Lookup Passwd) :=
  lookup parsepwent (fun resultbuf => strcmp resultbuf.pwName key = 0) buflen file

/-- `compat_getgrgid_r` with a buffer at address `buffer`. -/
def compatGetgrgidR (key buffer buflen : Nat) (file : Except Int (List Char)) :
    Option (Lookup Group) :=
  lookup (parsegrent buffer buflen) (fun resultbuf => resultbuf.grGid = key) buflen file

/-- `compat_getgrnam_r` with a buffer at address `buffer`. -/
def compatGetgrnamR (key : List Char) (buffer buflen : Nat) (file : Except Int (List Char)) :
    Option (Lookup Group) :=
  lookup (parsegrent buffer buflen) (fun resultbuf => strcmp resultbuf.grName key = 0) buflen file

/-! ## What is handed to the parser

`handed` follows the counter alone, as if no line were ever taken: a line that
is taken is only handed over when `skip` is zero, where the next call starts. -/

/-- The lines given to the parser from a count of `skip` on. -/
def handed (buflen : Nat) : Nat → List (List Char) → List (List Char)
  | _, [] => []
  | skip, piece :: stream =>
    match bufferLine buflen piece with
    | none => handed buflen (skip + 1) stream
    | some line =>
      if skip ≠ 0 then handed buflen (skip - 1) stream
      else if isRecord line then line :: handed buflen skip stream
      else handed buflen skip stream

/-- Pieces of a text without NUL bytes. -/
def Pieces (stream : List (List Char)) : Prop := ∀ piece ∈ stream, piece ≠ [] ∧ nul ∉ piece

theorem pieces_of_text {buflen : Nat} (hbuf : 1 < buflen) {file : List Char} (hnul : nul ∉ file) :
    Pieces (pieces buflen file) := fun _ h =>
  ⟨(mem_pieces hbuf h).1, fun hmem => hnul ((mem_pieces hbuf h).2 _ hmem)⟩

section

variable {α : Type} {parserfunc : List Char → Option α}

/-- What a call returns that finds `ls` to hand over and `rest` to read: the
first line that is taken, or the end of the file when none is. -/
inductive Reads (parserfunc : List Char → Option α) (buflen : Nat) (ls : List (List Char))
    (stream : List (List Char)) : Reading α → Prop
  | taken {data : α} {failed : List (List Char)} {line : List Char} {rest : List (List Char)}
      (hfailed : ∀ l ∈ failed, parserfunc l = none) (hline : parserfunc line = some data)
      (hls : ls = failed ++ line :: handed buflen 0 rest) (hlen : rest.length < stream.length)
      (hrest : Pieces rest) : Reads parserfunc buflen ls stream ⟨.ok data, rest, failed ++ [line]⟩
  | ended (hfailed : ∀ l ∈ ls, parserfunc l = none) :
      Reads parserfunc buflen ls stream ⟨.error enoent, [], ls⟩

theorem Reads.cons_stream {buflen : Nat} {ls stream : List (List Char)} {r : Reading α}
    (piece : List Char) (h : Reads parserfunc buflen ls stream r) :
    Reads parserfunc buflen ls (piece :: stream) r := by
  cases h with
  | taken hfailed hline hls hlen hrest =>
    exact .taken hfailed hline hls (Nat.lt_succ_of_lt hlen) hrest
  | ended hfailed => exact .ended hfailed

theorem Reads.cons_line {buflen : Nat} {ls stream : List (List Char)} {r : Reading α}
    {line : List Char} (hline : parserfunc line = none) (h : Reads parserfunc buflen ls stream r) :
    Reads parserfunc buflen (line :: ls) stream { r with offered := line :: r.offered } := by
  cases h with
  | taken hfailed htaken hls hlen hrest =>
    exact .taken (List.forall_mem_cons.mpr ⟨hline, hfailed⟩) htaken (congrArg _ hls) hlen hrest
  | ended hfailed => exact .ended (List.forall_mem_cons.mpr ⟨hline, hfailed⟩)

/-- A call hands lines over until one is taken, or until the file ends. -/
theorem pgsreaderLoop_spec {buflen skip : Nat} {stream : List (List Char)} (hs : Pieces stream) :
    ∃ r, pgsreaderLoop parserfunc buflen skip stream = some r ∧
      Reads parserfunc buflen (handed buflen skip stream) stream r := by
  induction stream generalizing skip with
  | nil => exact ⟨_, rfl, .ended fun _ h => absurd h List.not_mem_nil⟩
  | cons piece stream ih =>
    obtain ⟨hne, hnul⟩ := hs piece List.mem_cons_self
    have hrest : Pieces stream := fun p hp => hs p (List.mem_cons_of_mem _ hp)
    have hcstr := cstr_of_not_mem hnul
    cases hbl : bufferLine buflen piece with
    | none =>
      obtain ⟨r, hr, h⟩ := @ih (skip + 1) hrest
      refine ⟨r, by simpa [pgsreaderLoop, hcstr, hne, hbl] using hr, ?_⟩
      rw [handed, hbl]
      exact h.cons_stream piece
    | some line =>
      by_cases hskip : skip ≠ 0
      · obtain ⟨r, hr, h⟩ := @ih (skip - 1) hrest
        refine ⟨r, by simpa [pgsreaderLoop, hcstr, hne, hbl, hskip] using hr, ?_⟩
        simp only [handed, hbl, if_pos hskip]
        exact h.cons_stream piece
      · rw [not_not] at hskip
        subst hskip
        obtain ⟨r, hr, h⟩ := @ih 0 hrest
        by_cases hrec : isRecord line = true
        · have hhand : handed buflen 0 (piece :: stream) = line :: handed buflen 0 stream := by
            simp [handed, hbl, hrec]
          rw [hhand]
          cases hparse : parserfunc line with
          | some data =>
            refine ⟨⟨.ok data, stream, [] ++ [line]⟩, ?_, ?_⟩
            · simp [pgsreaderLoop, hcstr, hne, hbl, hrec, hparse]
            · exact .taken (fun _ h => absurd h List.not_mem_nil) hparse rfl
                (Nat.lt_succ_self _) hrest
          | none =>
            refine ⟨{ r with offered := line :: r.offered }, ?_, ?_⟩
            · simp [pgsreaderLoop, hcstr, hne, hbl, hrec, hparse, hr]
            · exact (h.cons_stream piece).cons_line hparse
        · refine ⟨r, by simpa [pgsreaderLoop, hcstr, hne, hbl, hrec] using hr, ?_⟩
          have hhand : handed buflen 0 (piece :: stream) = handed buflen 0 stream := by
            simp [handed, hbl, hrec]
          rw [hhand]
          exact h.cons_stream piece

/-- What a lookup should return that has `ls` to hand over: the first record of
theirs that is found, after the lines up to it. -/
def firstOf (parserfunc : List Char → Option α) (found : α → Bool) (ls : List (List Char)) :
    Lookup α :=
  let hit := fun l => (parserfunc l).any found
  ⟨0, (ls.find? hit).bind parserfunc, ls.takeWhile (fun l => !hit l) ++ (ls.find? hit).toList⟩

theorem firstOf_append {found : α → Bool} {missed : List (List Char)} (ls : List (List Char))
    (h : ∀ l ∈ missed, (parserfunc l).any found = false) :
    firstOf parserfunc found (missed ++ ls) =
      { firstOf parserfunc found ls with
        offered := missed ++ (firstOf parserfunc found ls).offered } := by
  induction missed with
  | nil => rfl
  | cons l missed ih =>
    obtain ⟨hl, hmissed⟩ := List.forall_mem_cons.mp h
    have htail := ih hmissed
    simp only [firstOf, Lookup.mk.injEq, true_and] at htail ⊢
    rw [List.cons_append, List.find?_cons_of_neg (by simp [hl]),
      List.takeWhile_cons_of_pos (by simp [hl]), htail.1, List.cons_append, htail.2]
    exact ⟨rfl, rfl⟩

/-- A lookup stops at the first record that is found among the lines handed
over, whatever the size of the buffer, as long as the reader takes it. -/
theorem lookupLoop_eq {found : α → Bool} {buflen fuel : Nat} (hmin : pwdBufferSize ≤ buflen)
    (hmax : buflen ≤ 2147483647) {stream : List (List Char)} (hs : Pieces stream)
    (hfuel : stream.length < fuel) :
    lookupLoop parserfunc found buflen fuel stream =
      some (firstOf parserfunc found (handed buflen 0 stream)) := by
  induction fuel generalizing stream with
  | zero => exact absurd hfuel (Nat.not_lt_zero _)
  | succ fuel ih =>
    obtain ⟨r, hr, h⟩ := @pgsreaderLoop_spec α parserfunc buflen 0 stream hs
    have hread : pgsreader parserfunc buflen stream = some r := by
      rw [pgsreader, if_neg (by omega), if_neg (by omega), hr]
    rw [lookupLoop, hread]
    cases h with
    | ended hfailed =>
      have hmiss : ∀ l ∈ handed buflen 0 stream, (parserfunc l).any found = false := by
        intro l hl
        rw [hfailed l hl]
        rfl
      have := firstOf_append [] hmiss
      rw [List.append_nil] at this
      rw [this]
      simp [firstOf]
    | @taken data failed line rest hfailed hline hls hlen hrest =>
      have hmiss : ∀ l ∈ failed, (parserfunc l).any found = false := by
        intro l hl
        rw [hfailed l hl]
        rfl
      rw [hls, firstOf_append _ hmiss]
      by_cases hfound : found data = true
      · simp [firstOf, hfound, hline]
      · have hmissed : ∀ l ∈ [line], (parserfunc l).any found = false := by
          intro l hl
          rw [List.mem_singleton.mp hl, hline]
          simpa using hfound
        have := firstOf_append (handed buflen 0 rest) hmissed
        rw [List.singleton_append] at this
        rw [this]
        simp [hfound, ih hrest (by omega)]

end

/-! ## Line by line

In terms of the lines of the file, `skip` is a backlog: a line that fills whole
buffers adds one for each of them, and every line takes one off. -/

/-- The line itself, when it is handed over at a count of `skip`. -/
def offer (room skip : Nat) (l : List Char) : List (List Char) :=
  if skip = 0 ∧ l.length < room ∧ isRecord l = true then [l] else []

/-- The lines handed over among `ls`, from a count of `skip` on. -/
def kept (room : Nat) : Nat → List (List Char) → List (List Char)
  | _, [] => []
  | skip, l :: ls => offer room skip l ++ kept room (skip + wholeBuffers room l - 1) ls

theorem bufferLine_line (buflen : Nat) (l : List Char) :
    bufferLine buflen (l ++ ['\n']) = some l := by
  rw [bufferLine, if_pos List.getLast?_concat, List.dropLast_concat]

theorem getLast?_ne_newline {l : List Char} (hl : '\n' ∉ l) : l.getLast? ≠ some '\n' :=
  fun h => hl (List.mem_of_getLast? h)

theorem bufferLine_full {buflen : Nat} (hbuf : 1 < buflen) {l : List Char} (hl : '\n' ∉ l)
    (hlen : l.length + 1 = buflen) : bufferLine buflen l = none := by
  rw [bufferLine, if_neg (getLast?_ne_newline hl), if_pos (by omega)]

theorem bufferLine_short {buflen : Nat} {l : List Char} (hl : '\n' ∉ l) (hne : l ≠ [])
    (hlen : l.length + 1 < buflen) : bufferLine buflen l = some l := by
  have hpos := List.length_pos_iff.mpr hne
  rw [bufferLine, if_neg (getLast?_ne_newline hl), if_neg (by omega)]

/-- A piece that is a whole line is handed over or counts `skip` down. -/
theorem handed_line {buflen skip : Nat} {piece l : List Char} {stream : List (List Char)}
    (h : bufferLine buflen piece = some l) (hlen : l.length < buflen - 1) :
    handed buflen skip (piece :: stream) =
      offer (buflen - 1) skip l ++ handed buflen (skip - 1) stream := by
  rw [handed, h, offer]
  by_cases hskip : skip = 0
  · subst hskip
    by_cases hrec : isRecord l = true
    · simp [hlen, hrec]
    · simp [hrec]
  · simp [hskip]

/-- A line that overflows the buffer: its first buffer counts `skip` up. -/
theorem handed_overflow {buflen : Nat} (hbuf : 1 < buflen) {l : List Char} (hl : '\n' ∉ l)
    (hlen : buflen - 1 ≤ l.length) (skip : Nat) (f : List Char) :
    handed buflen skip (pieces buflen (l ++ f)) =
      handed buflen (skip + 1) (pieces buflen (l.drop (buflen - 1) ++ f)) := by
  have hfull : '\n' ∉ l.take (buflen - 1) := fun h => hl (List.mem_of_mem_take h)
  have hsize : (l.take (buflen - 1)).length + 1 = buflen := by
    rw [List.length_take]
    omega
  conv_lhs => rw [← List.take_append_drop (buflen - 1) l, List.append_assoc]
  rw [pieces_full hbuf hfull hsize, handed, bufferLine_full hbuf hfull hsize]

theorem wholeBuffers_drop {room : Nat} (hroom : 0 < room) {l : List Char}
    (hlen : room ≤ l.length) : wholeBuffers room l = wholeBuffers room (l.drop room) + 1 := by
  rw [wholeBuffers, wholeBuffers, List.length_drop, ← Nat.add_div_right _ hroom,
    Nat.sub_add_cancel hlen]

theorem offer_of_skip {room skip : Nat} (hskip : skip ≠ 0) (l : List Char) :
    offer room skip l = [] := if_neg fun h => hskip h.1

theorem offer_of_long {room : Nat} {l : List Char} (hlen : room ≤ l.length) (skip : Nat) :
    offer room skip l = [] := if_neg fun h => absurd h.2.1 (by omega)

/-- What a line of the file, however long, does to the lines handed over. -/
theorem handed_pieces_line {buflen : Nat} (hbuf : 1 < buflen) {l : List Char} (hl : '\n' ∉ l)
    (skip : Nat) (f : List Char) :
    handed buflen skip (pieces buflen (l ++ '\n' :: f)) =
      offer (buflen - 1) skip l ++
        handed buflen (skip + wholeBuffers (buflen - 1) l - 1) (pieces buflen f) := by
  generalize hn : l.length = n
  induction n using Nat.strong_induction_on generalizing l skip with
  | _ n ih =>
    by_cases hlen : l.length < buflen - 1
    · rw [pieces_line hl (by omega), handed_line (bufferLine_line _ _) hlen,
        (wholeBuffers_eq_zero_iff (by omega)).mpr hlen, Nat.add_zero]
    · have hdrop : '\n' ∉ l.drop (buflen - 1) := fun h => hl (List.mem_of_mem_drop h)
      rw [handed_overflow hbuf hl (by omega),
        ih (l.drop (buflen - 1)).length (by rw [List.length_drop]; omega) hdrop (skip + 1) rfl,
        offer_of_skip (by omega), offer_of_long (by omega),
        wholeBuffers_drop (by omega) (by omega : buflen - 1 ≤ l.length)]
      congr 2
      omega

/-- A last line without its newline does the same, and nothing follows it. -/
theorem handed_pieces_last {buflen : Nat} (hbuf : 1 < buflen) {l : List Char} (hl : '\n' ∉ l)
    (skip : Nat) : handed buflen skip (pieces buflen l) = offer (buflen - 1) skip l := by
  generalize hn : l.length = n
  induction n using Nat.strong_induction_on generalizing l skip with
  | _ n ih =>
    by_cases hnil : l = []
    · rw [hnil, pieces_nil]
      exact (if_neg fun h => absurd h.2.2 (by decide)).symm
    · by_cases hlen : l.length < buflen - 1
      · rw [pieces_last hl hnil (by omega),
          handed_line (bufferLine_short hl hnil (by omega)) hlen]
        exact List.append_nil _
      · have hdrop : '\n' ∉ l.drop (buflen - 1) := fun h => hl (List.mem_of_mem_drop h)
        have hover := handed_overflow hbuf hl (by omega) skip []
        rw [List.append_nil, List.append_nil] at hover
        rw [hover, ih (l.drop (buflen - 1)).length (by rw [List.length_drop]; omega) hdrop
            (skip + 1) rfl, offer_of_skip (by omega), offer_of_long (by omega)]

/-- The lines handed over, by the lines of the file. -/
theorem handed_pieces {buflen : Nat} (hbuf : 1 < buflen) (skip : Nat) (file : List Char) :
    handed buflen skip (pieces buflen file) = kept (buflen - 1) skip (linesOf file) := by
  induction file using lines_induction generalizing skip with
  | nil => rfl
  | last l hl hne =>
    rw [linesOf_last hl hne, handed_pieces_last hbuf hl]
    exact (List.append_nil _).symm
  | line l f hl ih => rw [linesOf_line hl, handed_pieces_line hbuf hl, kept, ih]

/-- The record lines that fit the buffer with their newline and the NUL. -/
def fitting (room : Nat) (ls : List (List Char)) : List (List Char) :=
  ls.filter fun l => decide (l.length < room) && isRecord l

theorem kept_sublist (room skip : Nat) (ls : List (List Char)) :
    (kept room skip ls).Sublist (fitting room ls) := by
  induction ls generalizing skip with
  | nil => exact List.Sublist.refl _
  | cons l ls ih =>
    rw [kept, offer]
    split
    case isTrue h =>
      rw [fitting, List.filter_cons_of_pos (by simp [h.2])]
      exact (ih _).cons_cons l
    case isFalse h =>
      refine (ih _).trans ?_
      exact (List.sublist_cons_self l ls).filter _

/-- All of them are handed over exactly when nothing is owed where they stand. -/
theorem kept_eq_fitting_iff (room skip : Nat) (ls : List (List Char)) :
    kept room skip ls = fitting room ls ↔
      ∀ before l after, ls = before ++ l :: after → l.length < room → isRecord l = true →
        backlog room skip before = 0 := by
  induction ls generalizing skip with
  | nil => simp [kept, fitting]
  | cons l ls ih =>
    rw [kept]
    by_cases hfit : l.length < room ∧ isRecord l = true
    · have hcons : fitting room (l :: ls) = l :: fitting room ls := by
        rw [fitting, List.filter_cons_of_pos (by simp [hfit])]
        rfl
      rw [hcons]
      by_cases hskip : skip = 0
      · rw [offer, if_pos ⟨hskip, hfit⟩, List.singleton_append, List.cons.injEq,
          and_iff_right rfl, ih]
        constructor
        · intro h before m after hls hm hrec
          rcases before with _ | ⟨b, before⟩
          · exact hskip
          · obtain ⟨rfl, hrest⟩ := List.cons.inj hls
            exact h before m after hrest hm hrec
        · exact fun h before m after hls => h (l :: before) m after (congrArg _ hls)
      · rw [offer_of_skip hskip, List.nil_append]
        constructor
        · intro h
          have := (kept_sublist room (skip + wholeBuffers room l - 1) ls).length_le
          rw [h, List.length_cons] at this
          omega
        · exact fun h => absurd (h [] l ls rfl hfit.1 hfit.2) hskip
    · have hcons : fitting room (l :: ls) = fitting room ls := by
        rw [fitting, List.filter_cons_of_neg (by simpa using hfit)]
        rfl
      rw [hcons, offer, if_neg fun h => hfit h.2, List.nil_append, ih]
      constructor
      · intro h before m after hls hm hrec
        rcases before with _ | ⟨b, before⟩
        · obtain ⟨rfl, -⟩ := List.cons.inj hls
          exact absurd ⟨hm, hrec⟩ hfit
        · obtain ⟨rfl, hrest⟩ := List.cons.inj hls
          exact h before m after hrest hm hrec
      · exact fun h before m after hls => h (l :: before) m after (congrArg _ hls)

/-- No stretch of lines in front of a record line that fits fills more whole
buffers than it has lines. -/
def NoBacklog (room : Nat) (ls : List (List Char)) : Prop :=
  ∀ earlier stretch l later, ls = earlier ++ stretch ++ l :: later → l.length < room →
    isRecord l = true → stretchBuffers room stretch ≤ stretch.length

theorem kept_eq_fitting_iff_noBacklog (room : Nat) (ls : List (List Char)) :
    kept room 0 ls = fitting room ls ↔ NoBacklog room ls := by
  rw [kept_eq_fitting_iff]
  constructor
  · intro h earlier stretch l later hls hlen hrec
    have hzero := h (earlier ++ stretch) l later hls hlen hrec
    exact (backlog_le_iff room 0 _).mp (Nat.le_of_eq hzero) earlier stretch rfl
  · intro h before l after hls hlen hrec
    refine Nat.le_zero.mp ((backlog_le_iff room 0 before).mpr fun earlier stretch hsplit => ?_)
    exact h earlier stretch l after (hsplit ▸ hls) hlen hrec

/-- Nothing is lost in a file whose lines all stay below two whole buffers. -/
theorem noBacklog_of_short {room : Nat} (hroom : 0 < room) {ls : List (List Char)}
    (h : ∀ l ∈ ls, l.length < 2 * room) : NoBacklog room ls := by
  have hstretch : ∀ stretch : List (List Char), (∀ l ∈ stretch, l.length < 2 * room) →
      stretchBuffers room stretch ≤ stretch.length := by
    intro stretch hs
    induction stretch with
    | nil => exact Nat.le_refl 0
    | cons l stretch ih =>
      obtain ⟨hl, hrest⟩ := List.forall_mem_cons.mp hs
      have hone : wholeBuffers room l < 2 := (Nat.div_lt_iff_lt_mul hroom).mpr hl
      have := ih hrest
      simp only [stretchBuffers, List.map_cons, List.sum_cons, List.length_cons] at this ⊢
      omega
  intro earlier stretch l later hls _ _
  refine hstretch stretch fun m hm => h m ?_
  rw [hls]
  simp [hm]

/-! ## Looking up -/

section

variable {α : Type} {parserfunc : List Char → Option α}

/-- A lookup with a buffer the reader takes, by the lines of the file. -/
theorem lookup_eq (found : α → Bool) {buflen : Nat} (hmin : pwdBufferSize ≤ buflen)
    (hmax : buflen ≤ 2147483647) {file : List Char} (hnul : nul ∉ file) :
    lookup parserfunc found buflen (.ok file) =
      some (firstOf parserfunc found (kept (buflen - 1) 0 (linesOf file))) := by
  have hbuf : 1 < buflen := by
    unfold pwdBufferSize at hmin
    omega
  rw [lookup, lookupLoop_eq hmin hmax (pieces_of_text hbuf hnul) (Nat.lt_succ_self _),
    handed_pieces hbuf]

/-- What every lookup in a file should do: hand over the record lines that fit
the buffer, each once and in order, up to the first record that has the key,
and return that record, or none when no record has it. -/
structure LooksUp (buflen : Nat) (file : List Char) : Prop where
  getpwuid : ∀ key, compatGetpwuidR key buflen (.ok file) =
    some (firstOf parsepwent (fun pw => pw.pwUid = key) (fitting (buflen - 1) (linesOf file)))
  getpwnam : ∀ key, compatGetpwnamR key buflen (.ok file) =
    some (firstOf parsepwent (fun pw => pw.pwName = key) (fitting (buflen - 1) (linesOf file)))
  getgrgid : ∀ key buffer, compatGetgrgidR key buffer buflen (.ok file) =
    some (firstOf (parsegrent buffer buflen) (fun gr => gr.grGid = key)
      (fitting (buflen - 1) (linesOf file)))
  getgrnam : ∀ key buffer, compatGetgrnamR key buffer buflen (.ok file) =
    some (firstOf (parsegrent buffer buflen) (fun gr => gr.grName = key)
      (fitting (buflen - 1) (linesOf file)))

/-- Where nothing is found every line is handed over. -/
theorem firstOf_offered {found : α → Bool} {ls : List (List Char)}
    (h : ∀ l ∈ ls, (parserfunc l).any found = false) :
    (firstOf parserfunc found ls).offered = ls := by
  have := firstOf_append [] h
  rw [List.append_nil] at this
  rw [this]
  exact List.append_nil ls

end

/-- No user's name contains a colon. -/
theorem parsepwent_pwName {line : List Char} {pw : Passwd} (h : parsepwent line = some pw) :
    ':' ∉ pw.pwName := by
  simp only [parsepwent, Option.bind_eq_bind, Option.bind_eq_some_iff, Prod.exists,
    Option.some.injEq] at h
  obtain ⟨pwName, _, hname, _, _, -, _, _, -, _, _, -, _, _, -, _, _, -, rfl⟩ := h
  exact not_mem_of_strchr hname

/-- The key of no user: every line is handed over. -/
theorem firstOf_colon (ls : List (List Char)) :
    (firstOf parsepwent (fun pw => pw.pwName = [':']) ls).offered = ls := by
  refine firstOf_offered fun l _ => ?_
  cases hl : parsepwent l with
  | none => rfl
  | some pw =>
    have hcolon := parsepwent_pwName hl
    simp only [Option.any_some, decide_eq_false_iff_not]
    intro heq
    exact hcolon (heq ▸ List.mem_singleton_self ':')

theorem compatGetpwnamR_eq (key : List Char) {buflen : Nat} (hmin : pwdBufferSize ≤ buflen)
    (hmax : buflen ≤ 2147483647) {file : List Char} (hnul : nul ∉ file) :
    compatGetpwnamR key buflen (.ok file) =
      some (firstOf parsepwent (fun pw => pw.pwName = key)
        (kept (buflen - 1) 0 (linesOf file))) := by
  simp only [compatGetpwnamR, strcmp_eq_zero_iff]
  exact lookup_eq _ hmin hmax hnul

theorem compatGetgrnamR_eq (key : List Char) (buffer : Nat) {buflen : Nat}
    (hmin : pwdBufferSize ≤ buflen) (hmax : buflen ≤ 2147483647) {file : List Char}
    (hnul : nul ∉ file) :
    compatGetgrnamR key buffer buflen (.ok file) =
      some (firstOf (parsegrent buffer buflen) (fun gr => gr.grName = key)
        (kept (buflen - 1) 0 (linesOf file))) := by
  simp only [compatGetgrnamR, strcmp_eq_zero_iff]
  exact lookup_eq _ hmin hmax hnul

/-- Only a buffer of a size the reader takes lets a lookup end without an
error. -/
theorem lookup_size {α : Type} {parserfunc : List Char → Option α} {found : α → Bool}
    {buflen : Nat} {file : List Char} {l : Lookup α}
    (h : lookup parserfunc found buflen (.ok file) = some l) (hrv : l.rv = 0) :
    pwdBufferSize ≤ buflen ∧ buflen ≤ 2147483647 := by
  by_contra hsize
  rw [lookup, lookupLoop, pgsreader] at h
  by_cases hmin : buflen < pwdBufferSize
  · rw [if_pos hmin] at h
    cases h
    have herr : (if erange = enoent then (0 : Int) else erange) = 0 := hrv
    exact absurd herr (by decide)
  · rw [if_neg hmin, if_pos (by omega)] at h
    cases h

/-- The lookups read a file as they should exactly when the buffer has at least
`PWD_BUFFER_SIZE` bytes, and no more than an `int` counts, and no stretch of
lines in front of a record line that fits fills more whole buffers than it has
lines. -/
theorem looksUp_iff {file : List Char} (hnul : nul ∉ file) (buflen : Nat) :
    LooksUp buflen file ↔
      pwdBufferSize ≤ buflen ∧ buflen ≤ 2147483647 ∧ NoBacklog (buflen - 1) (linesOf file) := by
  constructor
  · intro h
    obtain ⟨hmin, hmax⟩ := lookup_size (h.getpwnam [':']) rfl
    refine ⟨hmin, hmax, (kept_eq_fitting_iff_noBacklog _ _).mp ?_⟩
    have heq := h.getpwnam [':']
    rw [compatGetpwnamR_eq _ hmin hmax hnul, Option.some.injEq] at heq
    have hoff := congrArg Lookup.offered heq
    rwa [firstOf_colon, firstOf_colon] at hoff
  · rintro ⟨hmin, hmax, hlines⟩
    have hkept := (kept_eq_fitting_iff_noBacklog _ _).mpr hlines
    constructor
    · intro key
      rw [← hkept]
      exact lookup_eq _ hmin hmax hnul
    · intro key
      rw [← hkept]
      exact compatGetpwnamR_eq key hmin hmax hnul
    · intro key buffer
      rw [← hkept]
      exact lookup_eq _ hmin hmax hnul
    · intro key buffer
      rw [← hkept]
      exact compatGetgrnamR_eq key buffer hmin hmax hnul

/-- A long line in front of one record line. -/
def behind (n : Nat) : List Char :=
  List.replicate n 'x' ++ '\n' :: "root:x:0:0:r:/:/sh\n".toList

theorem nul_not_mem_behind (n : Nat) : nul ∉ behind n := by
  rw [behind, List.mem_append, not_or]
  exact ⟨fun h => absurd (List.eq_of_mem_replicate h) (by decide), by decide⟩

theorem linesOf_behind (n : Nat) :
    linesOf (behind n) = [List.replicate n 'x', "root:x:0:0:r:/:/sh".toList] := by
  rw [behind, linesOf_line fun h => absurd (List.eq_of_mem_replicate h) (by decide)]
  rfl

/-- A record line is read behind one of fifteen hundred characters. -/
theorem looksUp_behind_long_line : LooksUp 1024 (behind 1500) := by
  refine (looksUp_iff (nul_not_mem_behind 1500) 1024).mpr
    ⟨by decide, by decide, noBacklog_of_short (by decide) ?_⟩
  rw [linesOf_behind]
  exact List.forall_mem_cons.mpr ⟨by rw [List.length_replicate]; decide, by decide⟩

/-- Behind a line of two whole buffers the same record is not found. -/
theorem not_looksUp_behind_two_buffers :
    nul ∉ behind 2046 ∧ ¬ LooksUp 1024 (behind 2046) := by
  have hnul := nul_not_mem_behind 2046
  refine ⟨hnul, fun h => ?_⟩
  have heq := h.getpwnam "root".toList
  rw [compatGetpwnamR_eq _ (by decide) (by decide) hnul, linesOf_behind, Option.some.injEq] at heq
  have hbuffers : wholeBuffers 1023 (List.replicate 2046 'x') = 2 := by
    rw [wholeBuffers, List.length_replicate]
  have hkept : kept (1024 - 1) 0 [List.replicate 2046 'x', "root:x:0:0:r:/:/sh".toList] = [] := by
    rw [kept, offer_of_long (by rw [List.length_replicate]; decide), hbuffers]
    decide
  have hfit : fitting (1024 - 1) [List.replicate 2046 'x', "root:x:0:0:r:/:/sh".toList] =
      ["root:x:0:0:r:/:/sh".toList] := by
    rw [fitting, List.filter_cons_of_neg (by rw [List.length_replicate]; decide)]
    decide
  rw [hkept, hfit] at heq
  exact absurd (congrArg Lookup.offered heq) (by decide +kernel)

end Slurm.PwdGrp
