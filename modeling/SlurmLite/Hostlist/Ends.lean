import SlurmLite.Hostlist.Build

/-!
# How `hostlist_create` ends

Every round of the token loop takes a character, so the loop ends
(`parsePushes_fuel`); what may not end is the loop of `_push_range_list` over a
range in the prefix, which counts up to a bound that may be the largest
`unsigned long`. The guard in front of it counts hosts in wrapping arithmetic,
and lets such a range through when it is short enough, or as long as the whole
type. Besides, a call of `_next_tok` may read past the text (`callTexts`).
`hostlistCreate_ends_iff` says for which texts the function returns, and
how many ranges the list then has at most.
-/

namespace Slurm.Hosts

open Base.CLib Base.Buffer

/-! ## The tokens the loop comes to -/

/-- The tokens the loop takes up, the one that fails included. -/
def reached (sep : List Char) : Nat → List Char → List (List Char)
  | 0, _ => []
  | fuel + 1, s =>
    match nextTok sep s with
    | none => []
    | some (buf, k) =>
      cstr buf ::
        match tokenPushes buf with
        | .error _ => []
        | .ok (_, buf') => reached sep fuel (buf'.drop k)

/-- The texts `_next_tok` is called on. -/
def callTexts (sep : List Char) : Nat → List Char → List (List Char)
  | 0, _ => []
  | fuel + 1, s =>
    s ::
      match nextTok sep s with
      | none => []
      | some (buf, k) =>
        match tokenPushes buf with
        | .error _ => []
        | .ok (_, buf') => callTexts sep fuel (buf'.drop k)

/-- The texts `hostlist_create` calls `_next_tok` on. -/
def hostTexts (str : List Char) : List (List Char) := callTexts separators (str.length + 1) str

/-- The tokens `hostlist_create` takes up. -/
def hostTokens (str : List Char) : List (List Char) := reached separators (str.length + 1) str

/-- A token taken as one host name: it has no bracket, or its last one is not
closed. -/
def PlainToken (tok : List Char) : Prop :=
  match strrchr '[' tok with
  | none => True
  | some (_, body) => ']' ∉ body

/-- The text in front of a token's ranges, when these are accepted. -/
def tokenPrefix (tok : List Char) : Option (List Char) := do
  let (p, body) ← strrchr '[' tok
  let (inner, after) ← strchr ']' body
  if after ≠ [] ∧ after.head? ≠ some ',' then none
  else (parseRangeList inner maxRanges).map fun _ => p

/-- The ranges in a prefix, when it is accepted. -/
def prefixRanges (p : List Char) : Option (List SuffixRange) := do
  let (pre, body) ← strrchr '[' p
  let (inner, _) ← strrchr ']' body
  if '[' ∈ pre then none else parseRangeList inner maxRanges

/-- What the guard counts for a range. -/
def rangeSize (r : SuffixRange) : Nat := ulong (r.hi - r.lo + 1)

/-- Some range ends at the largest `unsigned long`, and the guard does not stop
before it. -/
def Endless (nrs : List SuffixRange) : Prop :=
  ∃ before r after, nrs = before ++ r :: after ∧ r.hi = ulongMax ∧
    (before.map rangeSize).sum + rangeSize r ≤ maxPrefixCnt

/-- The token fits its buffers, and no range in its prefix is endless. -/
structure TokenEnds (tok : List Char) : Prop where
  name : PlainToken tok → tok.length < bufSize
  pfx : ∀ p, tokenPrefix tok = some p →
    p.length < bufSize ∧ ∀ nrs, prefixRanges p = some nrs → ¬ Endless nrs

/-- The number of ranges the limits allow for a token: one for a name, as many as
the array between brackets holds, and those once for each host of a prefix. -/
def rangeLimit (tok : List Char) : Nat :=
  match strrchr '[' tok with
  | none => 1
  | some (p, body) =>
    if ']' ∉ body then 1
    else if '[' ∈ p then maxPrefixCnt * maxRanges
    else maxRanges

/-- `hostlist_create` returns: the token loop ends, and gives NULL or a list with at
most as many ranges as its tokens are allowed. -/
def CreateEnds (str : List Char) : Prop :=
  (∀ fuel, str.length < fuel →
      createLoop separators fuel str hostlistNew = hostlistCreate str) ∧
    (hostlistCreate str = .error .invalid ∨
      ∃ hl, hostlistCreate str = .ok hl ∧ hl.nranges ≤ ((hostTokens str).map rangeLimit).sum)

/-! ## How many ranges are parsed -/

theorem boxRows_length {len z0 z1 : Nat} :
    ∀ (rows : List (Nat × Nat)) (acc : List SuffixRange), acc.length ≤ len →
    (boxRows len z0 z1 rows acc).length ≤ len := by
  intro rows
  induction rows with
  | nil => exact fun acc h => h
  | cons xy rows ih =>
    obtain ⟨x, y⟩ := xy
    intro acc h
    rw [boxRows]
    split
    · exact h
    · split
      · exact h
      · apply ih
        rw [List.length_append, List.length_singleton]
        omega

theorem parseBoxRange_length {str : List Char} {len : Nat} {acc rs : List SuffixRange}
    (h : parseBoxRange str len acc = some rs) (hacc : acc.length ≤ len) : rs.length ≤ len := by
  unfold parseBoxRange at h
  split at h
  · simp only [Option.bind_eq_bind, Option.bind_eq_some_iff] at h
    obtain ⟨_, -, _, -, _, -, _, -, _, -, _, -, h⟩ := h
    obtain rfl := Option.some.inj h
    exact boxRows_length _ _ hacc
  · cases h

theorem parseItems_length {len : Nat} :
    ∀ (items : List (List Char)) (acc rs : List SuffixRange),
    parseItems len items acc = some rs → acc.length ≤ len → rs.length ≤ len := by
  intro items
  induction items with
  | nil =>
    intro acc rs h hacc
    obtain rfl := Option.some.inj h
    exact hacc
  | cons item items ih =>
    intro acc rs h hacc
    rw [parseItems] at h
    split at h
    · cases h
    split at h
    · split at h
      · cases h
      next acc' hbox => exact ih _ _ h (parseBoxRange_length hbox hacc)
    · split at h
      · cases h
      · apply ih _ _ h
        rw [List.length_append, List.length_singleton]
        omega

theorem parseRangeList_length {str : List Char} {len : Nat} {rs : List SuffixRange}
    (h : parseRangeList str len = some rs) : rs.length ≤ len :=
  parseItems_length _ _ _ h (Nat.zero_le _)

/-- The size test of a parsed range is made in wrapping arithmetic too. -/
theorem parseSingleRange_size {str : List Char} {r : SuffixRange}
    (h : parseSingleRange str = some r) : rangeSize r ≤ maxRange := by
  unfold parseSingleRange at h
  simp only at h
  split at h
  · cases h
  split at h
  · cases h
  split at h
  · cases h
  split at h
  · split at h
    · cases h
    split at h
    · cases h
    next hsize =>
      obtain rfl := Option.some.inj h
      exact Nat.le_of_not_lt hsize
  · cases h

theorem parseRangeList_size {str : List Char} {len : Nat} {rs : List SuffixRange}
    (h : parseRangeList str len = some rs) : ∀ r ∈ rs, rangeSize r ≤ maxRange :=
  parseRangeList_forall (fun _ _ => parseSingleRange_size) h

/-! ## Prefix ranges -/

theorem prefixPushes_cases {pre post : List Char} {rs : List SuffixRange} :
    ∀ (nrs : List SuffixRange) (cnt : Nat), cnt ≤ maxPrefixCnt →
    (∀ r ∈ nrs, r.Bounded ∧ rangeSize r ≤ maxRange) →
    ((∃ before r after, nrs = before ++ r :: after ∧ r.hi = ulongMax ∧
        cnt + (before.map rangeSize).sum + rangeSize r ≤ maxPrefixCnt) ∧
      prefixPushes pre post rs cnt nrs = .error .diverges) ∨
    ((¬ ∃ before r after, nrs = before ++ r :: after ∧ r.hi = ulongMax ∧
        cnt + (before.map rangeSize).sum + rangeSize r ≤ maxPrefixCnt) ∧
      (prefixPushes pre post rs cnt nrs = .error .invalid ∨
        ∃ out, prefixPushes pre post rs cnt nrs = .ok out ∧
          out.length ≤ (maxPrefixCnt - cnt) * rs.length)) := by
  intro nrs
  induction nrs with
  | nil =>
    intro cnt hcnt _
    right
    refine ⟨by simp, .inr ⟨[], rfl, by simp⟩⟩
  | cons n more ih =>
    intro cnt hcnt hall
    obtain ⟨⟨hle, hhi⟩, hsize⟩ := hall n List.mem_cons_self
    have hmax : ulongMax = 18446744073709551615 := rfl
    have hrange : maxRange = 16384 := rfl
    have hpre : maxPrefixCnt = 1024 := rfl
    have hcnt' : ulong ((cnt : Int) + (n.hi - n.lo + 1)) = cnt + rangeSize n := by
      unfold rangeSize ulong at *
      omega
    rw [prefixPushes]
    simp only [hcnt']
    by_cases hguard : cnt + rangeSize n > maxPrefixCnt
    · rw [if_pos hguard]
      refine .inr ⟨?_, .inl rfl⟩
      rintro ⟨before, r, after, hsplit, -, hsum⟩
      cases before with
      | nil =>
        cases hsplit
        simp only [List.map_nil, List.sum_nil] at hsum
        omega
      | cons a before =>
        cases hsplit
        simp only [List.map_cons, List.sum_cons] at hsum
        omega
    rw [if_neg hguard]
    by_cases htop : n.hi = ulongMax
    · rw [if_pos htop]
      refine .inl ⟨⟨[], n, more, rfl, htop, ?_⟩, rfl⟩
      simp only [List.map_nil, List.sum_nil]
      omega
    rw [if_neg htop]
    -- below the top of the type the guard counts the hosts of the range
    have hreal : rangeSize n = n.hi - n.lo + 1 := by
      unfold rangeSize ulong
      omega
    rcases ih (cnt + rangeSize n) (by omega) (fun r hr => hall r (List.mem_cons_of_mem _ hr)) with
      ⟨⟨before, r, after, hsplit, hr, hsum⟩, hdiv⟩ | ⟨hno, hres⟩
    · refine .inl ⟨⟨n :: before, r, after, by rw [hsplit]; rfl, hr, ?_⟩, ?_⟩
      · simp only [List.map_cons, List.sum_cons]
        omega
      · rw [hdiv]
        rfl
    · refine .inr ⟨?_, ?_⟩
      · rintro ⟨before, r, after, hsplit, hr, hsum⟩
        cases before with
        | nil =>
          cases hsplit
          exact htop hr
        | cons a before =>
          cases hsplit
          simp only [List.map_cons, List.sum_cons] at hsum
          exact hno ⟨before, r, after, rfl, hr, by omega⟩
      · rcases hres with hinv | ⟨out, hout, hlen⟩
        · left
          rw [hinv]
          rfl
        · right
          rw [hout]
          refine ⟨_, rfl, ?_⟩
          have hhere : ((List.range' n.lo (n.hi + 1 - n.lo)).flatMap fun j =>
              withPrefix ((pre ++ Base.Text.padded n.width j ++ post).take (bufSize - 1))
                rs).length = (n.hi + 1 - n.lo) * rs.length := by
            simp [withPrefix]
          rw [List.length_append, hhere]
          have hsplit : maxPrefixCnt - cnt =
              (n.hi + 1 - n.lo) + (maxPrefixCnt - (cnt + rangeSize n)) := by omega
          rw [hsplit, Nat.add_mul]
          omega

theorem rangeListPushes_cases {p : List Char} {rs : List SuffixRange}
    (hrs : rs.length ≤ maxRanges) :
    (((p.length < bufSize ∧ ∀ nrs, prefixRanges p = some nrs → ¬ Endless nrs) ∧
        (rangeListPushes p rs = .error .invalid ∨
          ∃ out, rangeListPushes p rs = .ok out ∧
            out.length ≤ if '[' ∈ p then maxPrefixCnt * maxRanges else maxRanges)) ∨
      (¬ (p.length < bufSize ∧ ∀ nrs, prefixRanges p = some nrs → ¬ Endless nrs) ∧
        (rangeListPushes p rs = .error .undefined ∨
          rangeListPushes p rs = .error .diverges))) := by
  unfold rangeListPushes prefixRanges
  by_cases hlen : p.length < bufSize
  · rw [if_neg (by omega)]
    -- without a prefix range the ranges are pushed once
    have hplain : (withPrefix p rs).length ≤
        if '[' ∈ p then maxPrefixCnt * maxRanges else maxRanges := by
      rw [withPrefix, List.length_map]
      have hone : maxRanges ≤ maxPrefixCnt * maxRanges := Nat.le_mul_of_pos_left _ (by decide)
      split <;> omega
    cases hopen : strrchr '[' p with
    | none => exact .inl ⟨⟨hlen, by simp⟩, .inr ⟨_, rfl, hplain⟩⟩
    | some pb =>
      obtain ⟨pre, body⟩ := pb
      have hmem : '[' ∈ p := by
        by_contra hno
        rw [strrchr_eq_none hno] at hopen
        cases hopen
      simp only [Option.bind_eq_bind, Option.bind_some]
      cases hclose : strrchr ']' body with
      | none => exact .inl ⟨⟨hlen, by simp⟩, .inr ⟨_, rfl, hplain⟩⟩
      | some ip =>
        obtain ⟨inner, post⟩ := ip
        simp only [Option.bind_some]
        by_cases hthird : '[' ∈ pre
        · rw [if_pos hthird, if_pos hthird]
          exact .inl ⟨⟨hlen, by simp⟩, .inl rfl⟩
        rw [if_neg hthird, if_neg hthird]
        cases hnrs : parseRangeList inner maxRanges with
        | none => exact .inl ⟨⟨hlen, by simp⟩, .inl rfl⟩
        | some nrs =>
          have hall : ∀ r ∈ nrs, r.Bounded ∧ rangeSize r ≤ maxRange := fun r hr =>
            ⟨parseRangeList_bounded hnrs r hr, parseRangeList_size hnrs r hr⟩
          have hiff : Endless nrs ↔ ∃ before r after, nrs = before ++ r :: after ∧
              r.hi = ulongMax ∧
                0 + (before.map rangeSize).sum + rangeSize r ≤ maxPrefixCnt := by
            simp only [Endless, Nat.zero_add]
          rcases @prefixPushes_cases pre post rs nrs 0 (Nat.zero_le _) hall with
            ⟨hend, hdiv⟩ | ⟨hno, hres⟩
          · exact .inr ⟨fun h => h.2 nrs rfl (hiff.mpr hend), .inr hdiv⟩
          · refine .inl ⟨⟨hlen, ?_⟩, ?_⟩
            · rintro nrs' hnrs'
              cases hnrs'
              exact fun h => hno (hiff.mp h)
            · rcases hres with hinv | ⟨out, hout, hle⟩
              · exact .inl hinv
              · refine .inr ⟨out, hout, ?_⟩
                rw [if_pos hmem]
                exact Nat.le_trans hle (Nat.mul_le_mul_left _ hrs)
  · rw [if_pos (by omega)]
    exact .inr ⟨fun h => hlen h.1, .inl rfl⟩

/-! ## Tokens -/

/-- A token taken as one host name. -/
theorem tokenEnds_plain {tok : List Char} (h : PlainToken tok) (hp : tokenPrefix tok = none) :
    TokenEnds tok ↔ tok.length < bufSize :=
  ⟨fun ht => ht.name h, fun hlen => ⟨fun _ => hlen, by simp [hp]⟩⟩

theorem hostPush_cases (tok buf : List Char) :
    (tok.length < bufSize ∧ (hostPush tok).map (·, buf) = .ok ([hostRange tok], buf)) ∨
      (¬ tok.length < bufSize ∧ (hostPush tok).map (·, buf) = .error .undefined) := by
  unfold hostPush
  by_cases hlen : tok.length < bufSize
  · rw [if_neg (by omega)]
    exact .inl ⟨hlen, rfl⟩
  · rw [if_pos (by omega)]
    exact .inr ⟨hlen, rfl⟩

/-- What a token gives: NULL or its ranges, when it ends. -/
theorem tokenPushes_cases (buf : List Char) :
    (TokenEnds (cstr buf) ∧
      (tokenPushes buf = .error .invalid ∨
        ∃ out buf', tokenPushes buf = .ok (out, buf') ∧ out.length ≤ rangeLimit (cstr buf))) ∨
    (¬ TokenEnds (cstr buf) ∧
      (tokenPushes buf = .error .undefined ∨ tokenPushes buf = .error .diverges)) := by
  unfold tokenPushes
  simp only
  generalize cstr buf = tok
  cases hopen : strrchr '[' tok with
  | none =>
    have hplain : PlainToken tok := by simp [PlainToken, hopen]
    have hpfx : tokenPrefix tok = none := by simp [tokenPrefix, hopen]
    rw [tokenEnds_plain hplain hpfx]
    rcases hostPush_cases tok buf with ⟨hlen, hpush⟩ | ⟨hlen, hpush⟩
    · exact .inl ⟨hlen, .inr ⟨_, _, hpush, by simp [rangeLimit, hopen]⟩⟩
    · exact .inr ⟨hlen, .inl hpush⟩
  | some pb =>
    obtain ⟨p, body⟩ := pb
    simp only
    cases hclose : strchr ']' body with
    | none =>
      have hno := not_mem_of_strchr_none hclose
      have hplain : PlainToken tok := by simp [PlainToken, hopen, hno]
      have hpfx : tokenPrefix tok = none := by simp [tokenPrefix, hopen, hclose]
      rw [tokenEnds_plain hplain hpfx]
      rcases hostPush_cases tok (buf.set p.length nul) with ⟨hlen, hpush⟩ | ⟨hlen, hpush⟩
      · exact .inl ⟨hlen, .inr ⟨_, _, hpush, by simp [rangeLimit, hopen, hno]⟩⟩
      · exact .inr ⟨hlen, .inl hpush⟩
    | some ia =>
      obtain ⟨inner, after⟩ := ia
      have hmem : ']' ∈ body := by rw [eq_of_strchr hclose]; simp
      have hplain : ¬ PlainToken tok := by simp [PlainToken, hopen, hmem]
      have hends : (∀ q, tokenPrefix tok ≠ some q) → TokenEnds tok := fun h =>
        ⟨fun hp => absurd hp hplain, fun q hq => absurd hq (h q)⟩
      simp only
      -- text behind the bracket is refused
      by_cases hafter : after ≠ [] ∧ after.head? ≠ some ','
      · rw [if_pos hafter]
        exact .inl ⟨hends (by simp [tokenPrefix, hopen, hclose, hafter]), .inl rfl⟩
      rw [if_neg hafter]
      cases hrs : parseRangeList inner maxRanges with
      | none =>
        exact .inl ⟨hends (by simp [tokenPrefix, hopen, hclose, hrs]), .inl rfl⟩
      | some rs =>
        have hpfx : tokenPrefix tok = some p := by
          simp only [tokenPrefix, hopen, hclose, Option.bind_eq_bind, Option.bind_some]
          rw [if_neg hafter, hrs]
          rfl
        -- a second bracket in the prefix multiplies what is pushed
        have hlimit : rangeLimit tok =
            if '[' ∈ p then maxPrefixCnt * maxRanges else maxRanges := by
          simp [rangeLimit, hopen, hmem]
        have hiff : TokenEnds tok ↔
            p.length < bufSize ∧ ∀ nrs, prefixRanges p = some nrs → ¬ Endless nrs := by
          constructor
          · exact fun h => h.pfx p hpfx
          · intro h
            refine ⟨fun hp => absurd hp hplain, fun q hq => ?_⟩
            rw [hpfx] at hq
            cases hq
            exact h
        rw [hiff, hlimit]
        simp only
        rcases rangeListPushes_cases (parseRangeList_length hrs) with
          ⟨hok, hres⟩ | ⟨hbad, hres⟩
        · refine .inl ⟨hok, ?_⟩
          rcases hres with hinv | ⟨out, hout, hle⟩
          · left
            rw [hinv]
            rfl
          · right
            rw [hout]
            exact ⟨_, _, rfl, hle⟩
        · refine .inr ⟨hbad, ?_⟩
          rcases hres with hres | hres
          · left
            rw [hres]
            rfl
          · right
            rw [hres]
            rfl

/-- The NULs a token writes change nothing about the length of the text. -/
theorem tokenPushes_buf {buf buf' : List Char} {out : List HostRange}
    (h : tokenPushes buf = .ok (out, buf')) : buf'.length = buf.length := by
  unfold tokenPushes at h
  simp only at h
  split at h
  · obtain ⟨a, -, he⟩ := except_map_ok h
    rw [← (Prod.mk.inj he).2]
  split at h
  · obtain ⟨a, -, he⟩ := except_map_ok h
    rw [← (Prod.mk.inj he).2, List.length_set]
  split at h
  · cases h
  split at h
  · cases h
  · obtain ⟨a, -, he⟩ := except_map_ok h
    rw [← (Prod.mk.inj he).2, List.length_set, List.length_set]

/-! ## The token loop -/

/-- A text that is not empty behind its leading separators starts with a character
of a token. -/
theorem scanTok_pos {sep s : List Char} (hne : cstr (s.dropWhile (sep.contains ·)) ≠ []) :
    0 < scanTok sep (s.dropWhile (sep.contains ·)) := by
  have hhead := List.head?_dropWhile_not (sep.contains ·) s
  cases ht : s.dropWhile (sep.contains ·) with
  | nil =>
    rw [ht] at hne
    exact absurd rfl hne
  | cons c t =>
    rw [ht] at hne hhead
    have hnul : c ≠ nul := by
      rintro rfl
      exact hne rfl
    have hc : sep.contains c = false := hhead
    rw [scanTok, List.takeWhile_cons_of_pos (by rw [hc]; simpa using hnul)]
    exact Nat.succ_pos _

theorem scanTok_le_tokEnd (sep t : List Char) : scanTok sep t ≤ tokEnd sep t := by
  unfold tokEnd
  simp only
  split
  · split
    · omega
    · split
      · omega
      · split
        · split
          · omega
          · split <;> omega
        · omega
  · omega

/-- A call takes at least one character of the text. -/
theorem nextTok_shorter {sep s buf : List Char} {k : Nat} (h : nextTok sep s = some (buf, k)) :
    buf.length - k < s.length := by
  unfold nextTok at h
  simp only at h
  split at h
  · cases h
  next hne =>
    have hpos := scanTok_pos hne
    have hshort := (List.dropWhile_sublist (sep.contains ·) (l := s)).length_le
    have hfull : 0 < (s.dropWhile (sep.contains ·)).length := by
      apply List.length_pos_iff.mpr
      intro hnil
      rw [hnil] at hne
      exact hne rfl
    generalize s.dropWhile (sep.contains ·) = t at h hpos hshort hfull
    have hend := scanTok_le_tokEnd sep t
    obtain ⟨rfl, rfl⟩ := Prod.mk.inj (Option.some.inj h)
    simp only [List.length_append, List.length_take, List.length_replicate, List.length_drop]
    omega

/-- More rounds than characters change nothing: the loop has ended before. -/
theorem createLoop_fuel {sep : List Char} :
    ∀ (fuel fuel' : Nat) (s : List Char) (hl : Hostlist), s.length < fuel → s.length < fuel' →
    createLoop sep fuel s hl = createLoop sep fuel' s hl := by
  intro fuel
  induction fuel with
  | zero => intro _ s _ h; omega
  | succ fuel ih =>
    intro fuel' s hl h h'
    cases fuel' with
    | zero => omega
    | succ fuel' =>
      rw [createLoop, createLoop]
      refine if_congr Iff.rfl rfl ?_
      cases hcall : nextTok sep s with
      | none => rfl
      | some bk =>
        obtain ⟨buf, k⟩ := bk
        have hshort := nextTok_shorter hcall
        simp only
        cases htok : tokenPushes buf with
        | error e => rfl
        | ok rb =>
          obtain ⟨rs, buf'⟩ := rb
          have hlen : (buf'.drop k).length < s.length := by
            rw [List.length_drop, tokenPushes_buf htok]
            exact hshort
          simp only
          cases pushAll hl rs with
          | none => rfl
          | some hl' => exact ih fuel' (buf'.drop k) hl' (by omega) (by omega)

/-- The ranges a text pushes, when every call stays inside it and every token it comes to ends. -/
theorem parsePushes_cases {sep : List Char} : ∀ (fuel : Nat) (s : List Char),
    (((∀ t ∈ callTexts sep fuel s, searchLeaves sep t = false) ∧
        ∀ tok ∈ reached sep fuel s, TokenEnds tok) ∧
      (parsePushes sep fuel s = .error .invalid ∨
        ∃ out, parsePushes sep fuel s = .ok out ∧
          out.length ≤ ((reached sep fuel s).map rangeLimit).sum)) ∨
    (¬ ((∀ t ∈ callTexts sep fuel s, searchLeaves sep t = false) ∧
        ∀ tok ∈ reached sep fuel s, TokenEnds tok) ∧
      (parsePushes sep fuel s = .error .undefined ∨
        parsePushes sep fuel s = .error .diverges)) := by
  intro fuel
  induction fuel with
  | zero => exact fun s => .inl ⟨by simp [reached, callTexts], .inr ⟨[], rfl, by simp⟩⟩
  | succ fuel ih =>
    intro s
    rw [reached, callTexts, parsePushes]
    by_cases hleaves : searchLeaves sep s = true
    · rw [if_pos hleaves]
      exact .inr ⟨fun h => absurd (h.1 s List.mem_cons_self) (by simp [hleaves]), .inl rfl⟩
    have hstays : searchLeaves sep s = false := Bool.eq_false_iff.mpr hleaves
    rw [if_neg hleaves]
    cases nextTok sep s with
    | none => exact .inl ⟨by simp [hstays], .inr ⟨[], rfl, by simp⟩⟩
    | some bk =>
      obtain ⟨buf, k⟩ := bk
      simp only [List.forall_mem_cons, List.map_cons, List.sum_cons, hstays, true_and]
      rcases tokenPushes_cases buf with
        ⟨hends, hinv | ⟨rs, buf', hok, hle⟩⟩ | ⟨hbad, hres⟩
      · rw [hinv]
        exact .inl ⟨⟨by simp, hends, by simp⟩, .inl rfl⟩
      · rw [hok]
        simp only
        rcases ih (buf'.drop k) with
          ⟨⟨hcalls, hall⟩, hinv | ⟨out, hout, hlen⟩⟩ | ⟨hbad, hres⟩
        · rw [hinv]
          exact .inl ⟨⟨hcalls, hends, hall⟩, .inl rfl⟩
        · rw [hout]
          refine .inl ⟨⟨hcalls, hends, hall⟩, .inr ⟨_, rfl, ?_⟩⟩
          rw [List.length_append]
          omega
        · refine .inr ⟨fun h => hbad ⟨h.1, h.2.2⟩, ?_⟩
          rcases hres with hres | hres
          · rw [hres]
            exact .inl rfl
          · rw [hres]
            exact .inr rfl
      · refine .inr ⟨fun h => hbad h.2.1, ?_⟩
        rcases hres with hres | hres
        · rw [hres]
          exact .inl rfl
        · rw [hres]
          exact .inr rfl

theorem length_pushRange_le (rs : List HostRange) (r : HostRange) :
    (pushRange rs r).length ≤ rs.length + 1 := by
  rcases rs.eq_nil_or_concat' with rfl | ⟨rs, t, rfl⟩
  · simp
  · rw [pushRange_append, pushTail]
    split <;> simp

/-- Pushing merges ranges, so a list has no more than were pushed. -/
theorem length_pushRanges_le (ss : List HostRange) :
    ∀ rs : List HostRange, (pushRanges rs ss).length ≤ rs.length + ss.length := by
  induction ss with
  | nil => exact fun rs => Nat.le_refl _
  | cons s ss ih =>
    intro rs
    have h1 := ih (pushRange rs s)
    have h2 := length_pushRange_le rs s
    rw [pushRanges_cons, List.length_cons]
    omega

/-- `hostlist_create` returns, with as many ranges as the limits allow, exactly when
no call of `_next_tok` leaves the text and every token it comes to fits its buffers and has no
endless prefix range. -/
theorem hostlistCreate_ends_iff (str : List Char) :
    CreateEnds str ↔ (∀ t ∈ hostTexts str, searchLeaves separators t = false) ∧
      ∀ tok ∈ hostTokens str, TokenEnds tok := by
  rcases @parsePushes_cases separators (str.length + 1) str with
    ⟨hall, hres⟩ | ⟨hbad, hres⟩
  · refine iff_of_true ⟨fun fuel hfuel => ?_, ?_⟩ hall
    · exact createLoop_fuel _ _ str hostlistNew hfuel (Nat.lt_succ_self _)
    · rcases hres with hinv | ⟨out, hout, hlen⟩
      · exact .inl (hostlistCreate_error hinv)
      · obtain ⟨free, hfree⟩ := hostlistCreate_ok hout
        refine .inr ⟨_, hfree, ?_⟩
        have hpush := length_pushRanges_le out []
        rw [ofRanges_nranges]
        rw [List.length_nil] at hpush
        exact Nat.le_trans (by omega) hlen
  · refine iff_of_false ?_ hbad
    rintro ⟨-, hinv | ⟨hl, hok, -⟩⟩
    · rcases hres with hres | hres
      · rw [hostlistCreate_error hres] at hinv
        cases hinv
      · rw [hostlistCreate_error hres] at hinv
        cases hinv
    · rcases hres with hres | hres
      · rw [hostlistCreate_error hres] at hok
        cases hok
      · rw [hostlistCreate_error hres] at hok
        cases hok

/-- A prefix range that ends at the largest `unsigned long` is counted as one host,
and its loop does not end. -/
theorem not_hostlistCreate_ends : ¬ ∀ str : List Char, CreateEnds str := by
  intro h
  have hpush : hostPushes "a[18446744073709551615]b[1]".toList = .error .diverges := by
    decide +kernel
  have hdiv := hostlistCreate_error hpush
  rcases (h "a[18446744073709551615]b[1]".toList).2 with hinv | ⟨hl, hok, -⟩
  · rw [hdiv] at hinv
    cases hinv
  · rw [hdiv] at hok
    cases hok

end Slurm.Hosts
