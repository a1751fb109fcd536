import SlurmLite.Base.Buffer
import SlurmLite.Hostlist.Build

/-!
# Printing a hostlist

`hostlist_ranged_string` over a buffer of cells, with every write checked, and
the text it stands for (`rangedText`): consecutive ranges with one prefix form
a group, and a group of several hosts is printed between brackets.

* `hostlistRangedString_spec` — nothing is written outside the `n` characters
  given, and the call returns `-1` exactly when the text does not fit.

The source keeps the length in an `int`; texts are taken to be shorter than
2^31 characters. The branches for three-dimensional host names and for
BlueGene are not compiled.
-/

namespace Slurm.Hosts

open Base.Text Base.CLib Base.Buffer

/-! ## The functions -/

/-- `hostrange_numstr` at `i`. -/
def hostrangeNumstr (hr : HostRange) (n : Nat) (b : List Char) (i : Nat) :
    Option (List Char × Nat) :=
  if hr.singlehost ∨ n = 0 then some (b, 0)
  else do
    let (b, len) ← snprintf b i n (padded hr.width hr.lo)
    if len < n ∧ hr.lo < hr.hi then
      let (b, len2) ← snprintf b (i + len) (n - len) ('-' :: padded hr.width hr.hi)
      some (b, len + len2)
    else some (b, len)

/-- `_is_bracket_needed` for the first of the ranges left to print. -/
def isBracketNeeded (h1 : HostRange) (rest : List HostRange) : Bool :=
  hostrangeCount h1 > 1 || hostrangeWithinRange (some h1) rest.head?

/-- The body of the loop of `_get_bracketed_list`: whether it breaks, the length
and the buffer. -/
def bracketItem (bracket : Bool) (n i : Nat) (hr : HostRange) (len : Nat) (b : List Char) :
    Option (Bool × Nat × List Char) := do
  let (b, k) ← hostrangeNumstr hr (n - len) b (i + len)
  if len + k ≥ n then some (true, len + k, b)
  else if bracket then (put b (i + (len + k)) ',').map fun b => (false, len + k + 1, b)
  else some (false, len + k, b)

/-- The loop of `_get_bracketed_list`: the ranges left, the length and the
buffer. -/
def bracketLoop (bracket : Bool) (n i : Nat) :
    HostRange → List HostRange → Nat → List Char → Option (List HostRange × Nat × List Char)
  | hr, [], len, b =>
    match bracketItem bracket n i hr len b with
    | none => none
    | some (stop, len, b) => some (if stop then [hr] else [], len, b)
  | hr, next :: more, len, b =>
    match bracketItem bracket n i hr len b with
    | none => none
    | some (stop, len, b) =>
      if stop then some (hr :: next :: more, len, b)
      else if hostrangeWithinRange (some next) (some hr) then
        bracketLoop bracket n i next more len b
      else some (next :: more, len, b)

/-- The end of `_get_bracketed_list`: the last comma becomes the closing bracket,
or the text is terminated. -/
def bracketClose (bracket : Bool) (n i len : Nat) (b : List Char) : Option (List Char) :=
  if bracket && len < n && len > 0 then
    (put b (i + (len - 1)) ']').bind fun b => put b (i + len) nul
  else if len ≥ n then
    if n > 0 then put b (i + (n - 1)) nul else some b
  else put b (i + len) nul

/-- `_get_bracketed_list` for the ranges `hr :: rest`. Its sizes are `int`s: `n` is at most
2147483647. -/
def getBracketedList (hr : HostRange) (rest : List HostRange) (n : Nat) (b : List Char)
    (i : Nat) : Option (List HostRange × Nat × List Char) := do
  let bracket := isBracketNeeded hr rest
  let (b, len) ← snprintf b i n hr.pfx
  if len > n then some (hr :: rest, n, b)
  else
    let b ← if bracket && len < n then put b (i + len) '[' else some b
    let len := if bracket && len < n then len + 1 else len
    let (left, len, b) ← bracketLoop bracket n i hr rest len b
    (bracketClose bracket n i len b).map fun b => (left, len, b)

/-- The comma `hostlist_ranged_string` puts behind a group. -/
def putComma (n : Nat) (left : List HostRange) (len : Nat) (b : List Char) :
    Option (Nat × List Char) :=
  if len > 0 ∧ len < n ∧ left ≠ [] then (put b len ',').map fun b => (len + 1, b)
  else some (len, b)

/-- The loop of `hostlist_ranged_string`. Every round prints a range or fills the
buffer, so the number of ranges bounds the rounds. -/
def rangedLoop (n : Nat) : Nat → List HostRange → Nat → List Char → Option (Nat × List Char)
  | 0, _, len, b => some (len, b)
  | _ + 1, [], len, b => some (len, b)
  | fuel + 1, hr :: rest, len, b =>
    if len < n then do
      let (left, k, b) ← getBracketedList hr rest (n - len) b len
      let (len, b) ← putComma n left (len + k) b
      rangedLoop n fuel left len b
    else some (len, b)

/-- `hostlist_ranged_string`: the result and the buffer, for a size that is an `int`. -/
def hostlistRangedString (hl : Hostlist) (n : Nat) (b : List Char) :
    Option (Int × List Char) := do
  let rs ← hl.ranges
  let (len, b) ← rangedLoop n rs.length rs 0 b
  if len ≥ n then
    let b ← if n > 0 then put b (n - 1) nul else some b
    some (-1, b)
  else
    let b ← put b len nul
    some ((len : Int), b)

/-! ## The text -/

/-- What `hostrange_numstr` prints. -/
def numText (hr : HostRange) : List Char :=
  if hr.singlehost then []
  else if hr.lo < hr.hi then padded hr.width hr.lo ++ '-' :: padded hr.width hr.hi
  else padded hr.width hr.lo

/-- The ranges in groups that are printed with one prefix. -/
def rangeGroups : List HostRange → List (List HostRange)
  | [] => []
  | r :: rest =>
    match rangeGroups rest with
    | (s :: g) :: gs =>
      if hostrangeWithinRange (some s) (some r) then (r :: s :: g) :: gs
      else [r] :: (s :: g) :: gs
    | gs => [r] :: gs

/-- The numbers of a group, each followed by `c`. -/
def numTexts (g : List HostRange) : List Char := g.flatMap fun r => numText r ++ [',']

/-- What `_get_bracketed_list` prints for a group. -/
def groupText : List HostRange → List Char
  | [] => []
  | r :: g =>
    if hostrangeCount r > 1 ∨ g ≠ [] then
      r.pfx ++ '[' :: (numTexts (r :: g)).dropLast ++ [']']
    else r.pfx ++ numText r

/-- One more group behind the text so far. -/
def addGroup (text : List Char) (g : List HostRange) : List Char :=
  text ++ (if text = [] then [] else [',']) ++ groupText g

/-- What `hostlist_ranged_string` prints. -/
def rangedText (rs : List HostRange) : List Char := (rangeGroups rs).foldl addGroup []

/-! ## Groups -/

theorem hostrangeWithinRange_comm (h1 h2 : HostRange) :
    hostrangeWithinRange (some h1) (some h2) = hostrangeWithinRange (some h2) (some h1) := by
  rw [Bool.eq_iff_iff, hostrangeWithinRange_iff, hostrangeWithinRange_iff]
  exact ⟨fun ⟨h, a, b⟩ => ⟨h.symm, b, a⟩, fun ⟨h, a, b⟩ => ⟨h.symm, b, a⟩⟩

@[simp] theorem rangeGroups_nil : rangeGroups [] = [] := rfl

@[simp] theorem rangeGroups_singleton (r : HostRange) : rangeGroups [r] = [[r]] := rfl

/-- The first group starts with the first range. -/
theorem rangeGroups_cons_head (r : HostRange) (rest : List HostRange) :
    ∃ g gs, rangeGroups (r :: rest) = (r :: g) :: gs := by
  rw [rangeGroups]
  split
  · split
    · exact ⟨_, _, rfl⟩
    · exact ⟨_, _, rfl⟩
  · exact ⟨_, _, rfl⟩

theorem rangeGroups_cons_cons {r s : HostRange} {rest g : List HostRange}
    {gs : List (List HostRange)} (h : rangeGroups (s :: rest) = (s :: g) :: gs) :
    rangeGroups (r :: s :: rest) =
      if hostrangeWithinRange (some s) (some r) then (r :: s :: g) :: gs
      else [r] :: (s :: g) :: gs := by
  rw [rangeGroups, h]

/-- Groups cut a list into consecutive pieces. -/
theorem flatten_rangeGroups (rs : List HostRange) : (rangeGroups rs).flatten = rs := by
  induction rs with
  | nil => rfl
  | cons r rest ih =>
    cases rest with
    | nil => rfl
    | cons s rest =>
      obtain ⟨g, gs, h⟩ := rangeGroups_cons_head s rest
      rw [rangeGroups_cons_cons h]
      rw [h] at ih
      split
      · simpa using ih
      · simpa using ih

/-- What the first group and its ranges tell about brackets. -/
theorem isBracketNeeded_iff {r : HostRange} {rest g : List HostRange}
    {gs : List (List HostRange)} (h : rangeGroups (r :: rest) = (r :: g) :: gs) :
    isBracketNeeded r rest = true ↔ hostrangeCount r > 1 ∨ g ≠ [] := by
  rw [isBracketNeeded, Bool.or_eq_true, decide_eq_true_eq]
  refine or_congr Iff.rfl ?_
  cases rest with
  | nil =>
    rw [rangeGroups_singleton] at h
    obtain rfl : [] = g := (List.cons.inj (List.cons.inj h).1).2
    simp [hostrangeWithinRange_none]
  | cons s rest =>
    obtain ⟨g', gs', h'⟩ := rangeGroups_cons_head s rest
    rw [rangeGroups_cons_cons h'] at h
    rw [List.head?_cons, hostrangeWithinRange_comm]
    by_cases hw : hostrangeWithinRange (some s) (some r) = true
    · rw [if_pos hw] at h
      obtain rfl := (List.cons.inj (List.cons.inj h).1).2
      simp [hw]
    · rw [if_neg hw] at h
      obtain rfl := (List.cons.inj (List.cons.inj h).1).2
      simp [hw]

/-! ## What is written -/

/-- `hostrange_numstr` writes its text, or reports that it does not fit. -/
theorem hostrangeNumstr_spec (hr : HostRange) {n : Nat} {b out : List Char}
    (hout : out <+: b) (hn : out.length + n ≤ b.length) :
    ∃ b' k, hostrangeNumstr hr n b out.length = some (b', k) ∧ b'.length = b.length ∧
      out <+: b' ∧
      (n ≤ k ∧ n ≤ (numText hr).length ∨
        k = (numText hr).length ∧ k < n ∧ out ++ numText hr <+: b') := by
  unfold hostrangeNumstr numText
  cases hs : hr.singlehost with
  | true =>
    refine ⟨b, 0, if_pos (.inl rfl), rfl, hout, ?_⟩
    rcases Nat.eq_zero_or_pos n with rfl | hpos
    · exact .inl ⟨Nat.le_refl _, Nat.zero_le _⟩
    · exact .inr ⟨by simp, hpos, by simpa using hout⟩
  | false =>
    rcases Nat.eq_zero_or_pos n with rfl | hpos
    · exact ⟨b, 0, if_pos (.inr rfl), rfl, hout, .inl ⟨Nat.le_refl _, Nat.zero_le _⟩⟩
    rw [if_neg (by simp; omega)]
    obtain ⟨b1, h1, hl1, hp1, ht1⟩ := snprintf_of_le (padded hr.width hr.lo) hout hn
    simp only [h1, Option.bind_eq_bind, Option.bind_some, Bool.false_eq_true, if_false]
    by_cases hfit : (padded hr.width hr.lo).length < n
    · have htxt : out ++ padded hr.width hr.lo <+: b1 :=
        (List.prefix_append _ _).trans (ht1 hfit)
      by_cases hlt : hr.lo < hr.hi
      · rw [if_pos ⟨hfit, hlt⟩, if_pos hlt]
        have hroom : (out ++ padded hr.width hr.lo).length +
            (n - (padded hr.width hr.lo).length) ≤ b1.length := by
          rw [hl1, List.length_append]
          omega
        obtain ⟨b2, h2, hl2, hp2, ht2⟩ :=
          snprintf_of_le ('-' :: padded hr.width hr.hi) htxt hroom
        rw [List.length_append] at h2
        refine ⟨b2, (padded hr.width hr.lo).length +
          ('-' :: padded hr.width hr.hi).length, by rw [h2]; rfl, hl2.trans hl1,
          (List.prefix_append _ _).trans hp2, ?_⟩
        simp only [List.length_append]
        by_cases hfit2 : (padded hr.width hr.lo).length +
            ('-' :: padded hr.width hr.hi).length < n
        · refine .inr ⟨trivial, hfit2, ?_⟩
          have := (List.prefix_append _ _).trans (ht2 (by omega))
          simpa using this
        · exact .inl ⟨by omega, by omega⟩
      · rw [if_neg (fun h => hlt h.2), if_neg hlt]
        exact ⟨b1, _, rfl, hl1, hp1, .inr ⟨rfl, hfit, htxt⟩⟩
    · rw [if_neg (fun h => hfit h.1)]
      refine ⟨b1, _, rfl, hl1, hp1, .inl ⟨by omega, ?_⟩⟩
      split
      · rw [List.length_append]
        omega
      · omega

/-- What the loop writes for a group. -/
def loopText (bracket : Bool) (g : List HostRange) : List Char :=
  if bracket then numTexts g else g.flatMap numText

theorem loopText_cons (bracket : Bool) (r : HostRange) (g : List HostRange) :
    loopText bracket (r :: g) =
      numText r ++ (if bracket then [','] else []) ++ loopText bracket g := by
  cases bracket <;> simp [loopText, numTexts]

/-- The body of the loop writes the numbers of `hr` and a comma behind `txt`,
or breaks when they do not fit. -/
theorem bracketItem_spec (bracket : Bool) {n : Nat} {pre : List Char} (hr : HostRange)
    {txt b : List Char} (hpre : pre ++ txt <+: b) (htxt : txt.length ≤ n)
    (hn : pre.length + n ≤ b.length) :
    ∃ stop len b', bracketItem bracket n pre.length hr txt.length b = some (stop, len, b') ∧
      b'.length = b.length ∧
      (stop = true ∧ n ≤ len ∧ n ≤ (txt ++ numText hr).length ∨
        ∃ txt', txt' = txt ++ numText hr ++ (if bracket then [','] else []) ∧
          stop = false ∧ len = txt'.length ∧ len ≤ n ∧ (bracket = false → len < n) ∧
          pre ++ txt' <+: b') := by
  have hroom : (pre ++ txt).length + (n - txt.length) ≤ b.length := by
    rw [List.length_append]
    omega
  obtain ⟨b1, k, h1, hl1, -, hk⟩ := hostrangeNumstr_spec hr hpre hroom
  rw [List.length_append] at h1
  unfold bracketItem
  simp only [h1, Option.bind_eq_bind, Option.bind_some]
  rcases hk with ⟨hk, hk'⟩ | ⟨rfl, hk, hp1⟩
  · refine ⟨true, txt.length + k, b1, if_pos (by omega), hl1, .inl ⟨rfl, by omega, ?_⟩⟩
    rw [List.length_append]
    omega
  · have hlen : txt.length + (numText hr).length = (txt ++ numText hr).length :=
      List.length_append.symm
    have hlen' : pre.length + (txt ++ numText hr).length =
        (pre ++ txt ++ numText hr).length := by
      simp only [List.length_append]
      omega
    rw [if_neg (by omega)]
    cases bracket with
    | false =>
      refine ⟨false, _, b1, rfl, hl1, .inr ⟨_, rfl, rfl, ?_, by omega, fun _ => by omega, ?_⟩⟩
      · simp [List.length_append]
      · simpa using hp1
    | true =>
      obtain ⟨b2, h2, hl2, hp2⟩ := put_end ',' hp1 (by omega)
      rw [← hlen', ← hlen] at h2
      refine ⟨false, _, b2, by rw [if_pos rfl, h2]; rfl, hl2.trans hl1,
        .inr ⟨_, rfl, rfl, ?_, by omega, by simp, ?_⟩⟩
      · simp only [if_true, List.length_append, List.length_singleton]
      · simpa using hp2

/-- The loop of `_get_bracketed_list` writes the numbers of the first group
behind `txt`, or reports that they do not fit. -/
theorem bracketLoop_spec (bracket : Bool) (n : Nat) {pre : List Char} :
    ∀ (rest : List HostRange) (hr : HostRange) (txt b : List Char) (g : List HostRange)
      (gs : List (List HostRange)),
    rangeGroups (hr :: rest) = (hr :: g) :: gs → (bracket = false → g = []) →
    pre ++ txt <+: b → txt.length ≤ n → pre.length + n ≤ b.length →
    ∃ left len b', bracketLoop bracket n pre.length hr rest txt.length b =
        some (left, len, b') ∧ b'.length = b.length ∧
      (n ≤ len ∧ n ≤ (txt ++ loopText bracket (hr :: g)).length ∨
        rangeGroups left = gs ∧ len = (txt ++ loopText bracket (hr :: g)).length ∧
        len ≤ n ∧ (bracket = false → len < n) ∧
        pre ++ (txt ++ loopText bracket (hr :: g)) <+: b') := by
  have hnil : loopText bracket [] = [] := by cases bracket <;> rfl
  intro rest
  induction rest with
  | nil =>
    intro hr txt b g gs hg hbr hpre htxt hn
    rw [rangeGroups_singleton] at hg
    obtain ⟨hhead, rfl⟩ := List.cons.inj hg
    obtain rfl : [] = g := (List.cons.inj hhead).2
    rw [loopText_cons, hnil, List.append_nil, bracketLoop]
    obtain ⟨stop, len, b', he, hl, h | h⟩ := bracketItem_spec bracket hr hpre htxt hn
    · obtain ⟨rfl, h1, h2⟩ := h
      refine ⟨[hr], len, b', by rw [he]; rfl, hl, .inl ⟨h1, ?_⟩⟩
      simp only [List.length_append] at h2 ⊢
      omega
    · obtain ⟨txt', rfl, rfl, rfl, h1, h2, hp⟩ := h
      rw [← List.append_assoc]
      exact ⟨[], _, b', by rw [he]; rfl, hl, .inr ⟨rfl, rfl, h1, h2, hp⟩⟩
  | cons next more ih =>
    intro hr txt b g gs hg hbr hpre htxt hn
    obtain ⟨g', gs', hg'⟩ := rangeGroups_cons_head next more
    rw [rangeGroups_cons_cons hg'] at hg
    rw [loopText_cons, bracketLoop]
    obtain ⟨stop, len, b', he, hl, h | h⟩ := bracketItem_spec bracket hr hpre htxt hn
    · obtain ⟨rfl, h1, h2⟩ := h
      refine ⟨hr :: next :: more, len, b', by rw [he]; rfl, hl, .inl ⟨h1, ?_⟩⟩
      simp only [List.length_append] at h2 ⊢
      omega
    · obtain ⟨txt', htxt', rfl, rfl, h1, h2, hp⟩ := h
      rw [← List.append_assoc, ← List.append_assoc, ← htxt', he]
      by_cases hw : hostrangeWithinRange (some next) (some hr) = true
      · rw [if_pos hw] at hg
        obtain ⟨hhead, rfl⟩ := List.cons.inj hg
        obtain rfl := (List.cons.inj hhead).2
        have hb : bracket = true := by
          cases bracket with
          | true => rfl
          | false => exact absurd (hbr rfl) (by simp)
        obtain ⟨left, len, b'', he', hl', h'⟩ :=
          ih next txt' b' g' gs' hg' (by simp [hb]) hp h1 (by omega)
        exact ⟨left, len, b'', by simp only [if_pos hw, he']; rfl, hl'.trans hl, h'⟩
      · rw [if_neg hw] at hg
        obtain ⟨hhead, rfl⟩ := List.cons.inj hg
        obtain rfl : [] = g := (List.cons.inj hhead).2
        rw [hnil, List.append_nil]
        exact ⟨_, _, b', by simp only [if_neg hw]; rfl, hl, .inr ⟨hg', rfl, h1, h2, hp⟩⟩

/-- A full buffer ends the loop at once. -/
theorem bracketLoop_full {bracket : Bool} {n i len : Nat} (hr : HostRange)
    (rest : List HostRange) (b : List Char) (h : n ≤ len) :
    bracketLoop bracket n i hr rest len b = some (hr :: rest, len, b) := by
  have hitem : bracketItem bracket n i hr len b = some (true, len, b) := by
    have hm : n - len = 0 := by omega
    rw [bracketItem, hm, hostrangeNumstr, if_pos (.inr rfl)]
    exact if_pos (by omega)
  cases rest with
  | nil => rw [bracketLoop, hitem]; rfl
  | cons next more => rw [bracketLoop, hitem]; rfl

theorem dropLast_numTexts_append (r : HostRange) (g : List HostRange) :
    (numTexts (r :: g)).dropLast ++ [','] = numTexts (r :: g) := by
  induction g generalizing r with
  | nil => simp [numTexts]
  | cons s g ih =>
    have hcons : numTexts (r :: s :: g) = numText r ++ [','] ++ numTexts (s :: g) := rfl
    have hne : numTexts (s :: g) ≠ [] := by simp [numTexts]
    rw [hcons, List.dropLast_append_of_ne_nil hne, List.append_assoc, ih]

theorem pfx_length_le_groupText (r : HostRange) (g : List HostRange) :
    r.pfx.length ≤ (groupText (r :: g)).length := by
  rw [groupText]
  split
  · simp only [List.length_append, List.append_assoc]
    omega
  · rw [List.length_append]
    omega

/-- When the text is cut short only a NUL is written, at the last cell. -/
theorem bracketClose_cut (bracket : Bool) {n i len : Nat} {b : List Char} (h : n ≤ len)
    (hn : i + n ≤ b.length) :
    ∃ b', bracketClose bracket n i len b = some b' ∧ b'.length = b.length := by
  rw [bracketClose, if_neg (by simp; omega), if_pos h]
  by_cases hpos : n > 0
  · rw [if_pos hpos]
    exact put_of_lt nul (by omega)
  · exact ⟨b, if_neg hpos, rfl⟩

theorem bracketClose_plain {n : Nat} {b out txt : List Char} (h : txt.length < n)
    (hn : out.length + n ≤ b.length) (hout : out ++ txt <+: b) :
    ∃ b', bracketClose false n out.length txt.length b = some b' ∧ b'.length = b.length ∧
      out ++ txt <+: b' := by
  have hlen : out.length + txt.length = (out ++ txt).length := List.length_append.symm
  obtain ⟨b', h1, h2, h3⟩ := put_end nul hout (by omega)
  refine ⟨b', ?_, h2, (List.prefix_append _ _).trans h3⟩
  rw [bracketClose, if_neg (by simp), if_neg (by omega), hlen, h1]

/-- The last comma becomes the closing bracket. -/
theorem bracketClose_bracket {n : Nat} {b out txt : List Char} (h : txt.length + 1 < n)
    (hn : out.length + n ≤ b.length) (hout : out ++ (txt ++ [',']) <+: b) :
    ∃ b', bracketClose true n out.length (txt.length + 1) b = some b' ∧
      b'.length = b.length ∧ out ++ (txt ++ [']']) <+: b' := by
  have hbody : out ++ txt <+: b := by
    refine List.IsPrefix.trans ?_ hout
    exact ⟨[','], by simp⟩
  have hlen : out.length + (txt.length + 1 - 1) = (out ++ txt).length := by simp
  obtain ⟨b1, h1, hl1, hp1⟩ := put_end ']' hbody (by omega)
  have hlen1 : out.length + (txt.length + 1) = (out ++ txt ++ [']']).length := by
    simp
  obtain ⟨b2, h2, hl2, hp2⟩ := put_end nul hp1 (by omega)
  refine ⟨b2, ?_, hl2.trans hl1, ?_⟩
  · rw [bracketClose, if_pos (by simpa using h), hlen, h1, Option.bind_some, hlen1, h2]
  · rw [← List.append_assoc]
    exact (List.prefix_append _ _).trans hp2

/-- `_get_bracketed_list` writes the text of the first group, or reports that it
does not fit. -/
theorem getBracketedList_spec {hr : HostRange} {rest g : List HostRange}
    {gs : List (List HostRange)} (hg : rangeGroups (hr :: rest) = (hr :: g) :: gs)
    {n : Nat} {b out : List Char} (hout : out <+: b) (hn : out.length + n ≤ b.length) :
    ∃ left len b', getBracketedList hr rest n b out.length = some (left, len, b') ∧
      b'.length = b.length ∧
      (n ≤ len ∧ n ≤ (groupText (hr :: g)).length ∨
        rangeGroups left = gs ∧ len = (groupText (hr :: g)).length ∧ len < n ∧
        out ++ groupText (hr :: g) <+: b') := by
  have hbr := isBracketNeeded_iff hg
  have hpfx := pfx_length_le_groupText hr g
  obtain ⟨b1, h1, hl1, hp1, ht1⟩ := snprintf_of_le hr.pfx hout hn
  unfold getBracketedList
  simp only [h1, Option.bind_eq_bind, Option.bind_some]
  by_cases hlong : hr.pfx.length > n
  · rw [if_pos hlong]
    exact ⟨_, n, b1, rfl, hl1, .inl ⟨Nat.le_refl _, by omega⟩⟩
  rw [if_neg hlong]
  by_cases hfull : hr.pfx.length = n
  · -- the prefix fills the buffer, so the loop stops at once
    have hno : (isBracketNeeded hr rest && decide (hr.pfx.length < n)) = false := by
      simp [hfull]
    simp only [hno, Bool.false_eq_true, if_false]
    obtain ⟨b2, h2, hl2⟩ := bracketClose_cut (isBracketNeeded hr rest) (b := b1)
      (i := out.length) (Nat.le_of_eq hfull.symm) (by omega)
    rw [bracketLoop_full hr rest b1 (by omega), Option.bind_some, h2]
    exact ⟨hr :: rest, hr.pfx.length, b2, rfl, hl2.trans hl1, .inl ⟨by omega, by omega⟩⟩
  -- there is room behind the prefix
  have hlt : hr.pfx.length < n := by omega
  have htxt : out ++ hr.pfx <+: b1 := (List.prefix_append _ _).trans (ht1 hlt)
  cases hb : isBracketNeeded hr rest with
  | true =>
    have hgt : groupText (hr :: g) =
        hr.pfx ++ '[' :: (numTexts (hr :: g)).dropLast ++ [']'] := if_pos (hbr.mp hb)
    obtain ⟨b2, h2, hl2, hp2⟩ := put_end '[' htxt (by rw [List.length_append]; omega)
    rw [List.length_append] at h2
    have hlen : hr.pfx.length + 1 = (hr.pfx ++ ['[']).length := by simp
    rw [List.append_assoc] at hp2
    obtain ⟨left, len, b3, h3, hl3, hcase⟩ := bracketLoop_spec true n
      rest hr (hr.pfx ++ ['[']) b2 g gs hg (by simp) hp2 (by omega) (by omega)
    simp only [Bool.true_and, decide_eq_true hlt, if_true, h2, Option.bind_some, hlen, h3]
    have htext : hr.pfx ++ ['['] ++ loopText true (hr :: g) =
        hr.pfx ++ '[' :: (numTexts (hr :: g)).dropLast ++ [','] := by
      rw [show loopText true (hr :: g) = numTexts (hr :: g) from rfl,
        ← dropLast_numTexts_append]
      simp
    have htot : (groupText (hr :: g)).length =
        (hr.pfx ++ '[' :: (numTexts (hr :: g)).dropLast).length + 1 := by
      rw [hgt, List.length_append, List.length_singleton]
    rw [htext, List.length_append, List.length_singleton, ← htot] at hcase
    rcases hcase with ⟨hc1, hc2⟩ | ⟨hleft, rfl, hc2, -, hp3⟩
    · obtain ⟨b4, h4, hl4⟩ := bracketClose_cut true (b := b3) (i := out.length) hc1 (by omega)
      rw [h4]
      exact ⟨left, len, b4, rfl, by omega, .inl ⟨hc1, hc2⟩⟩
    · by_cases hfit : (groupText (hr :: g)).length < n
      · have hfit' := hfit
        rw [htot] at hfit'
        obtain ⟨b4, h4, hl4, hp4⟩ := bracketClose_bracket hfit' (by omega) hp3
        rw [← htot] at h4
        rw [h4]
        refine ⟨left, _, b4, rfl, by omega, .inr ⟨hleft, rfl, hfit, ?_⟩⟩
        rw [hgt]
        exact hp4
      · obtain ⟨b4, h4, hl4⟩ := bracketClose_cut true (b := b3) (i := out.length)
          (Nat.le_of_not_lt hfit) (by omega)
        rw [h4]
        exact ⟨left, _, b4, rfl, by omega, .inl ⟨by omega, by omega⟩⟩
  | false =>
    -- without brackets the group is one host
    have hno : ¬ (hostrangeCount hr > 1 ∨ g ≠ []) := by
      intro h
      rw [hbr.mpr h] at hb
      exact absurd hb (by simp)
    obtain rfl : g = [] := by
      by_contra hne
      exact hno (.inr hne)
    have hgt : groupText [hr] = hr.pfx ++ loopText false [hr] := by
      rw [groupText, if_neg hno]
      simp [loopText]
    obtain ⟨left, len, b3, h3, hl3, hcase⟩ := bracketLoop_spec false n
      rest hr hr.pfx b1 [] gs hg (fun _ => rfl) htxt (by omega) (by omega)
    rw [← hgt] at hcase
    simp only [Bool.false_and, Bool.false_eq_true, if_false, Option.bind_some, h3]
    rcases hcase with ⟨hc1, hc2⟩ | ⟨hleft, rfl, -, hc2, hp3⟩
    · obtain ⟨b4, h4, hl4⟩ := bracketClose_cut false (b := b3) (i := out.length) hc1 (by omega)
      rw [h4]
      exact ⟨left, len, b4, rfl, by omega, .inl ⟨hc1, hc2⟩⟩
    · obtain ⟨b4, h4, hl4, hp4⟩ := bracketClose_plain (hc2 rfl) (by omega) hp3
      rw [h4]
      exact ⟨left, _, b4, rfl, by omega, .inr ⟨hleft, rfl, hc2 rfl, hp4⟩⟩

/-! ## The whole text -/

theorem length_le_foldl_addGroup (gs : List (List HostRange)) :
    ∀ text : List Char, text.length ≤ (gs.foldl addGroup text).length := by
  induction gs with
  | nil => exact fun _ => Nat.le_refl _
  | cons g gs ih =>
    intro text
    refine Nat.le_trans ?_ (ih (addGroup text g))
    simp only [addGroup, List.length_append]
    omega

/-- The comma behind a text that more groups follow. -/
def comma (text : List Char) (gs : List (List HostRange)) : List Char :=
  if text = [] ∨ gs = [] then [] else [',']

/-- A full buffer ends the loop. -/
theorem rangedLoop_full {n len : Nat} (fuel : Nat) (rs : List HostRange) (b : List Char)
    (h : n ≤ len) : rangedLoop n fuel rs len b = some (len, b) := by
  cases fuel with
  | zero => rfl
  | succ fuel =>
    cases rs with
    | nil => rfl
    | cons r rest => exact if_neg (by omega)

theorem rangeGroups_eq_nil {rs : List HostRange} : rangeGroups rs = [] ↔ rs = [] := by
  constructor
  · intro h
    rw [← flatten_rangeGroups rs, h]
    rfl
  · rintro rfl
    rfl

theorem putComma_full {n len : Nat} (left : List HostRange) (b : List Char) (h : n ≤ len) :
    putComma n left len b = some (len, b) :=
  if_neg fun h' => absurd h'.2.1 (by omega)

theorem putComma_spec {n : Nat} {text b : List Char} (left : List HostRange)
    (hn : n ≤ b.length) (hlen : text.length < n) (hp : text <+: b) :
    ∃ b', putComma n left text.length b =
        some ((text ++ comma text (rangeGroups left)).length, b') ∧ b'.length = b.length ∧
      text ++ comma text (rangeGroups left) <+: b' ∧
      (text ++ comma text (rangeGroups left)).length ≤ n := by
  by_cases hc : text = [] ∨ rangeGroups left = []
  · have hno : ¬ (text.length > 0 ∧ text.length < n ∧ left ≠ []) := by
      rintro ⟨h1, -, h2⟩
      exact hc.elim (List.length_pos_iff.mp h1) fun h => h2 (rangeGroups_eq_nil.mp h)
    rw [comma, if_pos hc, List.append_nil, putComma, if_neg hno]
    exact ⟨b, rfl, rfl, hp, by omega⟩
  · have hyes : text.length > 0 ∧ text.length < n ∧ left ≠ [] := by
      rw [not_or] at hc
      exact ⟨List.length_pos_iff.mpr hc.1, hlen, fun h => hc.2 (rangeGroups_eq_nil.mpr h)⟩
    obtain ⟨b', h1, h2, h3⟩ := put_end ',' hp (by omega)
    rw [comma, if_neg hc, putComma, if_pos hyes, h1, List.length_append]
    exact ⟨b', rfl, h2, h3, hlen⟩

/-- The loop of `hostlist_ranged_string` writes the groups left behind the text
so far, or fills the buffer. -/
theorem rangedLoop_spec {n : Nat} :
    ∀ (fuel : Nat) (rs : List HostRange) (text b : List Char), rs.length ≤ fuel →
    n ≤ b.length → (text ++ comma text (rangeGroups rs)).length ≤ n →
    text ++ comma text (rangeGroups rs) <+: b →
    ∃ len b', rangedLoop n fuel rs (text ++ comma text (rangeGroups rs)).length b =
        some (len, b') ∧ b'.length = b.length ∧
      (n ≤ len ∧ n ≤ ((rangeGroups rs).foldl addGroup text).length ∨
        len = ((rangeGroups rs).foldl addGroup text).length ∧ len < n ∧
        (rangeGroups rs).foldl addGroup text <+: b') := by
  intro fuel
  induction fuel with
  | zero =>
    intro rs text b hf hn hlen hp
    obtain rfl := List.length_eq_zero_iff.mp (Nat.le_zero.mp hf)
    have hcomma : text ++ comma text (rangeGroups []) = text := by simp [comma]
    rw [hcomma] at hlen hp ⊢
    refine ⟨text.length, b, rfl, rfl, ?_⟩
    rcases Nat.lt_or_ge text.length n with h | h
    · exact .inr ⟨rfl, h, hp⟩
    · exact .inl ⟨h, h⟩
  | succ fuel ih =>
    intro rs text b hf hn hlen hp
    cases rs with
    | nil =>
      have hcomma : text ++ comma text (rangeGroups []) = text := by simp [comma]
      rw [hcomma] at hlen hp ⊢
      refine ⟨text.length, b, rfl, rfl, ?_⟩
      rcases Nat.lt_or_ge text.length n with h | h
      · exact .inr ⟨rfl, h, hp⟩
      · exact .inl ⟨h, h⟩
    | cons hr rest =>
      obtain ⟨g, gs, hg⟩ := rangeGroups_cons_head hr rest
      have hadd : addGroup text (hr :: g) =
          text ++ comma text (rangeGroups (hr :: rest)) ++ groupText (hr :: g) := by
        simp [addGroup, comma, hg]
      -- the text only grows: once it is too long it stays so
      have hmore := length_le_foldl_addGroup gs (addGroup text (hr :: g))
      rw [hadd, List.length_append] at hmore
      have hfold : (rangeGroups (hr :: rest)).foldl addGroup text =
          gs.foldl addGroup (addGroup text (hr :: g)) := by rw [hg]; rfl
      rw [hfold]
      rcases Nat.lt_or_ge (text ++ comma text (rangeGroups (hr :: rest))).length n with
        hlt | hge
      · obtain ⟨left, k, b1, h1, hl1, hcase⟩ := getBracketedList_spec hg hp
          (n := n - (text ++ comma text (rangeGroups (hr :: rest))).length) (by omega)
        rw [rangedLoop, if_pos hlt, h1]
        simp only [Option.bind_eq_bind, Option.bind_some]
        rcases hcase with ⟨hc1, hc2⟩ | ⟨hleft, rfl, hc2, hp1⟩
        · rw [putComma_full left b1 (by omega), Option.bind_some,
            rangedLoop_full fuel left b1 (by omega), hadd]
          exact ⟨_, b1, rfl, hl1, .inl ⟨by omega, by omega⟩⟩
        · rw [← List.length_append, ← hadd]
          rw [← hadd] at hp1
          have hfit : (addGroup text (hr :: g)).length < n := by
            rw [hadd, List.length_append]
            omega
          obtain ⟨b2, h2, hl2, hp2, hle⟩ := putComma_spec left (b := b1) (by omega) hfit hp1
          have hshort : left.length ≤ fuel := by
            have hrs := congrArg List.length (flatten_rangeGroups (hr :: rest))
            rw [hg, List.flatten_cons, ← hleft, flatten_rangeGroups] at hrs
            simp only [List.length_append, List.length_cons] at hrs hf
            omega
          obtain ⟨len, b3, h3, hl3, hcase⟩ :=
            ih left (addGroup text (hr :: g)) b2 hshort (by omega) hle hp2
          rw [h2, Option.bind_some, h3]
          rw [hleft] at hcase
          exact ⟨len, b3, rfl, by omega, hcase⟩
      · rw [rangedLoop_full _ _ _ hge]
        rw [hadd]
        exact ⟨_, b, rfl, rfl, .inl ⟨hge, by omega⟩⟩

/-- `hostlist_ranged_string` stays inside its buffer; it returns `-1` exactly when
the text does not fit, and otherwise the length of the text it leaves there. -/
theorem hostlistRangedString_spec {hl : Hostlist} {rs : List HostRange}
    (hrs : hl.ranges = some rs) {n : Nat} {b : List Char} (hn : n ≤ b.length) :
    ∃ ret b', hostlistRangedString hl n b = some (ret, b') ∧ b'.length = b.length ∧
      (n ≤ (rangedText rs).length ∧ ret = -1 ∨
        (rangedText rs).length < n ∧ ret = (rangedText rs).length ∧
          rangedText rs ++ [nul] <+: b') := by
  obtain ⟨len, b1, h1, hl1, hcase⟩ :=
    rangedLoop_spec rs.length rs [] b (Nat.le_refl _) hn (by simp [comma]) (by simp [comma])
  have hzero : ([] ++ comma [] (rangeGroups rs)).length = 0 := by simp [comma]
  rw [hzero] at h1
  unfold hostlistRangedString
  simp only [hrs, Option.bind_eq_bind, Option.bind_some, h1]
  rcases hcase with ⟨hc1, hc2⟩ | ⟨rfl, hc2, hp⟩
  · rw [if_pos hc1]
    by_cases hpos : n > 0
    · obtain ⟨b2, h2, hl2⟩ := put_of_lt (b := b1) (i := n - 1) nul (by omega)
      rw [if_pos hpos, h2]
      exact ⟨-1, b2, rfl, by omega, .inl ⟨hc2, rfl⟩⟩
    · rw [if_neg hpos]
      exact ⟨-1, b1, rfl, hl1, .inl ⟨hc2, rfl⟩⟩
  · obtain ⟨b2, h2, hl2, hp2⟩ := put_end nul hp (by omega)
    rw [if_neg (by omega), h2]
    exact ⟨_, b2, rfl, by omega, .inr ⟨hc2, rfl, hp2⟩⟩

end Slurm.Hosts
