import SlurmLite.Base.Buffer
import SlurmLite.Hostlist.Array

/-!
# Building a hostlist from text

The parser behind `hostlist_create`: `_next_tok` cuts the text into tokens,
`_parse_single_range`, `_parse_box_range` and `_parse_range_list` read the text
between brackets, `_push_range_list` expands a range in the prefix, and
`hostname_create` splits a plain host name.

The parser works in a copy of the text and ends tokens by writing NULs into
it. `nextTok` therefore returns the text from the token on, with its NULs
written, and the offset at which scanning goes on. The NULs
`_parse_range_list` writes at commas and dashes lie between two NULs written
by its caller and are never read again, so they are left out.

The pushes of a token depend on the token alone, so `_push_range_list` and
the token loop are described by the ranges they push, in order
(`rangeListPushes`, `tokenPushes`), and then push them. A list that fails is
destroyed with everything pushed onto it before.
-/

namespace Slurm.Hosts

open Base.Text Base.CLib Base.Buffer

/-- How building a list ends without a list: the source returns NULL, reads
outside an object, or does not return. -/
inductive Failure where
  | invalid
  | undefined
  | diverges
deriving DecidableEq

/-! ## Host names -/

/-- `struct hostname_components`. -/
structure Hostname where
  hostname : List Char
  pfx : List Char
  num : Nat
  suffix : Option (List Char)
deriving DecidableEq

/-- `host_prefix_end`: the index of the last character that is not a trailing
digit, `-1` when there is none. -/
def hostPrefixEnd (hostname : List Char) : Int := (stem hostname).length - 1

/-- `hostname_create`. -/
def hostnameCreate (hostname : List Char) : Hostname :=
  let idx := hostPrefixEnd hostname
  let plain : Hostname := { hostname := hostname, pfx := hostname, num := 0, suffix := none }
  if idx = hostname.length - 1 then plain
  else
    let suffix := hostname.drop (idx + 1).toNat
    match strtoul suffix with
    | some (num, []) =>
      { hostname := hostname, pfx := hostname.take (idx + 1).toNat, num := num,
        suffix := some suffix }
    | some (num, _) => { plain with num := num }
    | none => plain

/-- The range `hostlist_push_host` pushes. -/
def hostRange (str : List Char) : HostRange :=
  let hn := hostnameCreate str
  match hn.suffix with
  | some suffix => hostrangeCreate hn.pfx hn.num hn.num suffix.length
  | none => hostrangeCreateSingle str

/-- `hostlist_push_host`. -/
def hostlistPushHost (hl : Hostlist) (str : List Char) : Option Hostlist :=
  (hostlistPushRange hl (hostRange str)).map (·.1)

/-! ## Text between brackets -/

/-- `struct _range`. -/
structure SuffixRange where
  lo : Nat
  hi : Nat
  width : Nat
deriving DecidableEq

/-- `MAX_RANGE`. -/
def maxRange : Nat := 16384

/-- `MAX_RANGES`. -/
def maxRanges : Nat := 12288

/-- `MAX_PREFIX_CNT`. -/
def maxPrefixCnt : Nat := 1024

/-- The size of the token and prefix buffers. -/
def bufSize : Nat := 1024

/-- `_parse_single_range`. The text after the lower bound is looked at only when
no dash follows, and a dash with nothing after it counts as a single number. -/
def parseSingleRange (str : List Char) : Option SuffixRange :=
  if 'x' ∈ str then none
  else
    let cut := strchr '-' str
    let s := (cut.map (·.1)).getD str
    let p := (cut.map (·.2)).getD []
    if p.head? = some '-' then none
    else
      match strtoul s with
      | none => none
      | some (lo, q) =>
        match if p = [] then some (lo, q) else strtoul p with
        | some (hi, []) =>
          if lo > hi then none
          else if ulong (hi - lo + 1) > maxRange then none
          else some { lo := lo, hi := hi, width := s.length }
        | _ => none

/-- `alpha_num[i]`. -/
def alphaNum (i : Nat) : Char := "0123456789ABCDEFGHIJKLMNOPQRSTUVWXYZ".toList.getD i '0'

/-- A coordinate of a box corner. -/
def boxDigit (c : Char) : Option Nat :=
  if '0' ≤ c ∧ c ≤ '9' then some (c.toNat - 48)
  else if 'A' ≤ c ∧ c ≤ 'Z' then some (c.toNat - 65 + 10)
  else none

/-- The rows of a box: one range of `z` values for each `x` and `y`. A row that
does not parse, or that finds the array full, ends the box with `-1`, which
the caller takes for success. -/
def boxRows (len z0 z1 : Nat) : List (Nat × Nat) → List SuffixRange → List SuffixRange
  | [], acc => acc
  | (x, y) :: rows, acc =>
    if acc.length = len then acc
    else
      match parseSingleRange [alphaNum x, alphaNum y, alphaNum z0, '-',
          alphaNum x, alphaNum y, alphaNum z1] with
      | none => acc
      | some r => boxRows len z0 z1 rows (acc ++ [r])

/-- `_parse_box_range`, `none` for the return value 0. -/
def parseBoxRange (str : List Char) (len : Nat) (acc : List SuffixRange) :
    Option (List SuffixRange) :=
  match str with
  | [c0, c1, c2, 'x', d0, d1, d2] => do
    let a0 ← boxDigit c0
    let b0 ← boxDigit d0
    let a1 ← boxDigit c1
    let b1 ← boxDigit d1
    let a2 ← boxDigit c2
    let b2 ← boxDigit d2
    let rows := (List.range' a0 (b0 + 1 - a0)).flatMap fun x =>
      (List.range' a1 (b1 + 1 - a1)).map fun y => (x, y)
    some (boxRows len a2 b2 rows acc)
  | _ => none

/-- The loop of `_parse_range_list` over the items between commas. -/
def parseItems (len : Nat) : List (List Char) → List SuffixRange → Option (List SuffixRange)
  | [], acc => some acc
  | item :: items, acc =>
    if acc.length = len then none
    else if item[3]? = some 'x' ∧ item.length = 7 then
      match parseBoxRange item len acc with
      | none => none
      | some acc' => parseItems len items acc'
    else
      match parseSingleRange item with
      | none => none
      | some r => parseItems len items (acc ++ [r])

/-- `_parse_range_list`, `none` for the return value -1. -/
def parseRangeList (str : List Char) (len : Nat) : Option (List SuffixRange) :=
  parseItems len (str.splitOn ',') []

/-! ## Prefix ranges -/

/-- The ranges of one bracket, pushed with one prefix. -/
def withPrefix (p : List Char) (rs : List SuffixRange) : List HostRange :=
  rs.map fun r => hostrangeCreate p r.lo r.hi r.width

/-- The loop of `_push_range_list` over the ranges in the prefix. Its inner
loop `for (j = lo; j <= hi; j++)` never ends when `hi` is the largest
`unsigned long`; `new_prefix` keeps what fits in its buffer. -/
def prefixPushes (pre post : List Char) (rs : List SuffixRange) :
    Nat → List SuffixRange → Except Failure (List HostRange)
  | _, [] => .ok []
  | cnt, r :: more =>
    let cnt' := ulong (cnt + (r.hi - r.lo + 1))
    if cnt' > maxPrefixCnt then .error .invalid
    else if r.hi = ulongMax then .error .diverges
    else do
      let rest ← prefixPushes pre post rs cnt' more
      let here := (List.range' r.lo (r.hi + 1 - r.lo)).flatMap fun j =>
        withPrefix ((pre ++ padded r.width j ++ post).take (bufSize - 1)) rs
      .ok (here ++ rest)

/-- `_push_range_list`: the ranges it pushes. A prefix that fills its buffer
leaves it without a terminating NUL. -/
def rangeListPushes (p : List Char) (rs : List SuffixRange) :
    Except Failure (List HostRange) :=
  if p.length ≥ bufSize then .error .undefined
  else
    match strrchr '[' p with
    | none => .ok (withPrefix p rs)
    | some (pre, body) =>
      match strrchr ']' body with
      | none => .ok (withPrefix p rs)
      | some (inner, post) =>
        if '[' ∈ pre then .error .invalid
        else
          match parseRangeList inner maxRanges with
          | none => .error .invalid
          | some nrs => prefixPushes pre post rs 0 nrs

/-! ## Tokens -/

/-- The number of characters before the next separator or the end. -/
def scanTok (sep t : List Char) : Nat :=
  (t.takeWhile fun c => c ≠ nul && !sep.contains c).length

/-- The scan stops at the first separator. -/
theorem scanTok_append {sep s rest : List Char} (hs : ∀ c ∈ s, c ≠ nul ∧ c ∉ sep)
    (hrest : ∀ c ∈ rest.head?, c ∈ sep) : scanTok sep (s ++ rest) = s.length := by
  have hall : ∀ c ∈ s, (decide (c ≠ nul) && !sep.contains c) = true := by
    intro c hc
    obtain ⟨h1, h2⟩ := hs c hc
    simp [h1, h2]
  have hstop : rest.takeWhile (fun c => decide (c ≠ nul) && !sep.contains c) = [] := by
    cases rest with
    | nil => rfl
    | cons c rest =>
      have hc : c ∈ sep := hrest c rfl
      rw [List.takeWhile_cons_of_neg (by simp [hc])]
  rw [scanTok, List.takeWhile_append_of_pos hall, hstop, List.append_nil]

/-- Where `_next_tok` ends the token at the start of `t`. The search for a second
bracket looks at the first characters of the token, as many as follow the
first closing bracket. When no closing bracket follows at all, `q` is NULL, and
where the searches return (`searchLeaves`) they do not change where the token ends. -/
def tokEnd (sep t : List Char) : Nat :=
  let e := scanTok sep t
  if (t.take e).contains '[' && !(t.take e).contains ']' then
    match strchr ']' (cstr (t.drop e)) with
    | none => e
    | some (u, _) =>
      if u.contains '[' then e
      else
        let q := e + u.length + 1
        let e' := q + scanTok sep (t.drop q)
        if cstr (t.drop e') ≠ [] && (t.take (e' - q)).contains '[' &&
            !(t.take (e' - q)).contains ']' then
          match strchr ']' (cstr (t.drop e')) with
          | none => e'
          | some (v, _) => if v.contains '[' then e' else e' + v.length + 1
        else e'
  else e

/-- Whether `_next_tok` reads past the text. When no closing bracket follows an open one, `q` is
NULL and `*str - q` is an address: unless the token ends the text, `memchr` looks that far for a
closing bracket, and there is none. -/
def searchLeaves (sep s : List Char) : Bool :=
  let t := s.dropWhile (sep.contains ·)
  let e := scanTok sep t
  (t.take e).contains '[' && !(t.take e).contains ']' && cstr (t.drop e) ≠ [] &&
    !(cstr (t.drop e)).contains ']'

/-- `_next_tok`: the text from the token on, its NULs written, and the offset of
`*str` in it. -/
def nextTok (sep s : List Char) : Option (List Char × Nat) :=
  let t := s.dropWhile (sep.contains ·)
  if cstr t = [] then none
  else
    let e := tokEnd sep t
    let k := e + ((t.drop e).takeWhile (sep.contains ·)).length
    some (t.take e ++ List.replicate (k - e) nul ++ t.drop k, k)

/-- The push of a token taken as one host name, through the buffer `cur_tok`. -/
def hostPush (tok : List Char) : Except Failure (List HostRange) :=
  if tok.length ≥ bufSize then .error .undefined else .ok [hostRange tok]

/-- The body of the loop of `_hostlist_create_bracketed`: the ranges a token
pushes, and the buffer with the NULs written at its brackets. -/
def tokenPushes (buf : List Char) : Except Failure (List HostRange × List Char) :=
  let tok := cstr buf
  match strrchr '[' tok with
  | none => (hostPush tok).map (·, buf)
  | some (p, body) =>
    let buf' := buf.set p.length nul
    match strchr ']' body with
    | none => (hostPush tok).map (·, buf')
    | some (inner, after) =>
      if after ≠ [] ∧ after.head? ≠ some ',' then .error .invalid
      else
        match parseRangeList inner maxRanges with
        | none => .error .invalid
        | some rs =>
          (rangeListPushes p rs).map (·, buf'.set (p.length + 1 + inner.length) nul)

/-- Pushing ranges one by one. -/
def pushAll (hl : Hostlist) : List HostRange → Option Hostlist
  | [] => some hl
  | r :: rs => (hostlistPushRange hl r).bind fun s => pushAll s.1 rs

/-- The loop of `_hostlist_create_bracketed`. Every token takes at least one
character, so the length of the text bounds the number of rounds. -/
def createLoop (sep : List Char) : Nat → List Char → Hostlist → Except Failure Hostlist
  | 0, _, hl => .ok hl
  | fuel + 1, s, hl =>
    if searchLeaves sep s then .error .undefined
    else
      match nextTok sep s with
      | none => .ok hl
      | some (buf, k) =>
        match tokenPushes buf with
        | .error e => .error e
        | .ok (rs, buf') =>
          match pushAll hl rs with
          | none => .error .undefined
          | some hl' => createLoop sep fuel (buf'.drop k) hl'

/-- The separators of `hostlist_create`. -/
def separators : List Char := ['\t', ',', ' ']

/-- `hostlist_create`. -/
def hostlistCreate (str : List Char) : Except Failure Hostlist :=
  createLoop separators (str.length + 1) str hostlistNew

/-- The live ranges of a list, read slot by slot. -/
def Hostlist.ranges (hl : Hostlist) : Option (List HostRange) :=
  (hl.hr.take hl.nranges).mapM fun
    | .live r => some r
    | _ => none

/-- `hostlist_push_list`. -/
def hostlistPushList (h1 h2 : Hostlist) : Option Hostlist :=
  h2.ranges.bind (pushAll h1)

/-- `hostlist_push`: the hosts pushed, and the list. A text that is not accepted
pushes nothing. -/
def hostlistPush (hl : Hostlist) (hosts : List Char) : Option (Int × Hostlist) :=
  match hostlistCreate hosts with
  | .error .invalid => some (0, hl)
  | .error _ => none
  | .ok new => (hostlistPushList hl new).map (new.nhosts, ·)

end Slurm.Hosts
