import SlurmLite.Hostlist.Print

/-!
# Printing and parsing back

The text `hostlist_ranged_string` leaves is read back by `hostlist_create`
group by group: `_next_tok` cuts it at the commas outside brackets
(`nextTok_group`), and each token pushes the ranges of its group, printed with
the width of their lowest number (`tokenPushes_group`).

The parser has limits the printer does not have: at most `MAX_RANGE` hosts in a
range, `MAX_RANGES` ranges in a bracket, 1023 characters in a token, and no
separators or brackets in a prefix. `Printable` are the lists within them, and
`hostlistRangedString_roundTrip` is the round trip for these.
-/

namespace Slurm.Hosts

open Base.Text Base.CLib Base.Buffer

/-! ## Characters -/

/-- A character that neither separates tokens nor belongs to a bracket. -/
def Plain (c : Char) : Prop :=
  c ∉ separators ∧ c ≠ '[' ∧ c ≠ ']' ∧ c ≠ nul

instance (c : Char) : Decidable (Plain c) := inferInstanceAs (Decidable (_ ∧ _))

theorem plain_of_isDigit {c : Char} (h : c.isDigit = true) : Plain c := by
  have hb : 48 ≤ c.toNat ∧ c.toNat ≤ 57 := by
    simp only [Char.isDigit, Bool.and_eq_true, decide_eq_true_eq] at h
    exact ⟨UInt32.le_iff_toNat_le.mp h.1, UInt32.le_iff_toNat_le.mp h.2⟩
  refine ⟨?_, ?_, ?_, ?_⟩
  · simp only [separators, List.mem_cons, List.not_mem_nil, or_false, not_or]
    refine ⟨?_, ?_, ?_⟩ <;> (rintro rfl; exact absurd hb (by decide))
  all_goals (rintro rfl; exact absurd hb (by decide))

/-- The characters of a printed number range. -/
theorem mem_numText {r : HostRange} {c : Char} (h : c ∈ numText r) :
    c.isDigit = true ∨ c = '-' := by
  unfold numText at h
  split at h
  · cases h
  split at h
  · rcases List.mem_append.mp h with h | h
    · exact .inl (digits_padded _ _ c h)
    · rcases List.mem_cons.mp h with rfl | h
      · exact .inr rfl
      · exact .inl (digits_padded _ _ c h)
  · exact .inl (digits_padded _ _ c h)

theorem plain_of_mem_numText {r : HostRange} {c : Char} (h : c ∈ numText r) : Plain c := by
  rcases mem_numText h with h | rfl
  · exact plain_of_isDigit h
  · decide

theorem notMem_numText {r : HostRange} {c : Char} (hd : c.isDigit = false) (hc : c ≠ '-') :
    c ∉ numText r := by
  intro h
  rcases mem_numText h with h | h
  · exact absurd (h.symm.trans hd) (by simp)
  · exact hc h

/-! ## Reading numbers back -/

/-- The range as the parser reads its text. -/
def readBack (r : HostRange) : SuffixRange :=
  { lo := r.lo, hi := r.hi, width := (padded r.width r.lo).length }

theorem strtoul_padded {w n : Nat} (h : n ≤ ulongMax) : strtoul (padded w n) = some (n, []) := by
  rw [strtoul_digits (padded_ne_nil w n) (digits_padded w n), value_padded, Nat.min_eq_left h]

/-- `_parse_single_range` reads a printed range back. -/
theorem parseSingleRange_numText {r : HostRange} (hs : r.singlehost = false) (hw : r.Wf)
    (ho : r.Ordered) (hsize : r.names.length ≤ maxRange) :
    parseSingleRange (numText r) = some (readBack r) := by
  have hmax : ulongMax = 18446744073709551615 := rfl
  have hle := ho hs
  have hlo : r.lo ≤ ulongMax := by have := hw.lo_lt; omega
  have hhi : r.hi ≤ ulongMax := by have := hw.hi_lt; omega
  have hx : 'x' ∉ numText r := notMem_numText (by decide) (by decide)
  have hdash : ∀ w n, '-' ∉ padded w n := fun w n h =>
    absurd (digits_padded w n _ h) (by decide)
  have hcount : ¬ ulong ((r.hi : Int) - r.lo + 1) > maxRange := by
    rw [length_names, hs] at hsize
    simp only [Bool.false_eq_true, if_false] at hsize
    unfold ulong
    omega
  unfold parseSingleRange
  rw [if_neg hx]
  by_cases hlt : r.lo < r.hi
  · have htext : numText r = padded r.width r.lo ++ '-' :: padded r.width r.hi := by
      rw [numText, hs, if_neg (by simp), if_pos hlt]
    have hhead : ¬ (padded r.width r.hi).head? = some '-' := by
      intro h
      exact hdash _ _ (List.mem_of_mem_head? h)
    simp only [htext, strchr_append (hdash _ _), Option.map_some, Option.getD_some,
      if_neg hhead, strtoul_padded hlo, if_neg (padded_ne_nil r.width r.hi), strtoul_padded hhi]
    rw [if_neg (by omega), if_neg hcount]
    rfl
  · have heq : r.hi = r.lo := by omega
    have htext : numText r = padded r.width r.lo := by
      rw [numText, hs, if_neg (by simp), if_neg hlt]
    simp only [htext, strchr_eq_none (hdash _ _), Option.map_none, Option.getD_none,
      List.head?_nil, strtoul_padded hlo, if_true]
    rw [heq] at hcount
    rw [if_neg (by simp), if_neg (by omega), if_neg hcount, readBack, heq]

/-- The numbers of a group between commas. -/
def numsText : List HostRange → List Char
  | [] => []
  | [r] => numText r
  | r :: s :: g => numText r ++ ',' :: numsText (s :: g)

theorem numsText_eq (r : HostRange) (g : List HostRange) :
    (numTexts (r :: g)).dropLast = numsText (r :: g) := by
  have happ : ∀ (g : List HostRange) (r : HostRange),
      numsText (r :: g) ++ [','] = numTexts (r :: g) := by
    intro g
    induction g with
    | nil => intro r; simp [numsText, numTexts]
    | cons s g ih =>
      intro r
      rw [numsText, List.append_assoc, List.cons_append, ih s]
      simp [numTexts]
  rw [← happ g r, List.dropLast_concat]

theorem splitOn_numsText (r : HostRange) (g : List HostRange) :
    (numsText (r :: g)).splitOn ',' = (r :: g).map numText := by
  have hno : ∀ r : HostRange, ',' ∉ numText r := fun r =>
    notMem_numText (by decide) (by decide)
  induction g generalizing r with
  | nil => exact List.splitOn_eq_singleton (hno r)
  | cons s g ih =>
    rw [numsText, List.splitOn_append_cons_self, List.splitOn_eq_singleton (hno r), ih s]
    rfl

theorem parseItems_numTexts {len : Nat} :
    ∀ (g : List HostRange) (acc : List SuffixRange),
    (∀ r ∈ g, r.singlehost = false ∧ r.Wf ∧ r.Ordered ∧ r.names.length ≤ maxRange) →
    acc.length + g.length ≤ len →
    parseItems len (g.map numText) acc = some (acc ++ g.map readBack) := by
  intro g
  induction g with
  | nil => exact fun acc _ _ => by simp [parseItems]
  | cons r g ih =>
    intro acc hg hlen
    obtain ⟨hs, hw, ho, hsize⟩ := hg r (by simp)
    rw [List.length_cons] at hlen
    have hx : ¬ ((numText r)[3]? = some 'x' ∧ (numText r).length = 7) := by
      rintro ⟨h, -⟩
      exact notMem_numText (by decide) (by decide) (List.mem_of_getElem? h)
    rw [List.map_cons, parseItems, if_neg (by omega), if_neg hx,
      parseSingleRange_numText hs hw ho hsize]
    have hrest := ih (acc ++ [readBack r]) (fun s hs => hg s (by simp [hs]))
      (by simp only [List.length_append, List.length_singleton]; omega)
    simp only [hrest, List.map_cons, List.append_assoc, List.singleton_append]

/-! ## Cutting tokens -/

/-- The text of one token: a plain name, or a prefix and numbers between
brackets. -/
inductive TokenText : List Char → Prop
  | plain {s : List Char} : s ≠ [] → (∀ c ∈ s, Plain c) → TokenText s
  | bracket {p nums : List Char} : (∀ c ∈ p, Plain c) →
      (∀ c ∈ nums, Plain c ∨ c = ',') → TokenText (p ++ '[' :: nums ++ [']'])

/-- A text at which a token ends: nothing, or a separator first. -/
def Stops (s : List Char) : Prop := ∀ c ∈ s.head?, c ∈ separators

/-- Without an open bracket the token ends where the scan stops. -/
theorem tokEnd_closed {sep t : List Char}
    (h : ((t.take (scanTok sep t)).contains '[' && !(t.take (scanTok sep t)).contains ']') =
      false) : tokEnd sep t = scanTok sep t := by
  unfold tokEnd
  dsimp only
  rw [h]
  rfl

/-- With an open bracket it ends behind the closing one, when the scan stops there. -/
theorem tokEnd_open {sep t u v : List Char}
    (h : ((t.take (scanTok sep t)).contains '[' && !(t.take (scanTok sep t)).contains ']') =
      true)
    (hclose : strchr ']' (cstr (t.drop (scanTok sep t))) = some (u, v)) (hu : '[' ∉ u)
    (hstop : scanTok sep (t.drop (scanTok sep t + u.length + 1)) = 0) :
    tokEnd sep t = scanTok sep t + u.length + 1 := by
  unfold tokEnd
  dsimp only
  rw [if_pos h, hclose]
  simp only [hstop, Nat.add_zero, Nat.sub_self, List.take_zero]
  simp [hu]

theorem tokEnd_plain {s rest : List Char} (hs : ∀ c ∈ s, Plain c) (hrest : Stops rest) :
    tokEnd separators (s ++ rest) = s.length := by
  have hscan := scanTok_append (fun c hc => ⟨(hs c hc).2.2.2, (hs c hc).1⟩) hrest
  have hno : '[' ∉ s := fun h => (hs _ h).2.1 rfl
  rw [tokEnd_closed, hscan]
  rw [hscan, List.take_left]
  simp [hno]

/-- A bracket with one number range has no separator inside. -/
theorem tokEnd_bracket_one {p nums rest : List Char} (hp : ∀ c ∈ p, Plain c)
    (hn : ∀ c ∈ nums, Plain c) (hrest : Stops rest) :
    tokEnd separators (p ++ '[' :: nums ++ [']'] ++ rest) =
      (p ++ '[' :: nums ++ [']']).length := by
  have hall : ∀ c ∈ p ++ '[' :: nums ++ [']'], c ≠ nul ∧ c ∉ separators := by
    intro c hc
    simp only [List.mem_append, List.mem_cons, List.not_mem_nil, or_false] at hc
    rcases hc with (hc | rfl | hc) | rfl
    · exact ⟨(hp c hc).2.2.2, (hp c hc).1⟩
    · decide
    · exact ⟨(hn c hc).2.2.2, (hn c hc).1⟩
    · decide
  have hscan := scanTok_append hall hrest
  rw [tokEnd_closed, hscan]
  rw [hscan, List.take_left]
  simp

/-- A bracket with several number ranges: the scan stops at the first comma, and
the closing bracket after it ends the token. -/
theorem tokEnd_bracket_more {p a c rest : List Char} (hp : ∀ d ∈ p, Plain d)
    (ha : ∀ d ∈ a, Plain d) (hc : ∀ d ∈ c, Plain d ∨ d = ',') (hrest : Stops rest) :
    tokEnd separators (p ++ '[' :: (a ++ ',' :: c) ++ [']'] ++ rest) =
      (p ++ '[' :: (a ++ ',' :: c) ++ [']']).length := by
  have hall : ∀ d ∈ p ++ '[' :: a, d ≠ nul ∧ d ∉ separators := by
    intro d hd
    simp only [List.mem_append, List.mem_cons] at hd
    rcases hd with hd | rfl | hd
    · exact ⟨(hp d hd).2.2.2, (hp d hd).1⟩
    · decide
    · exact ⟨(ha d hd).2.2.2, (ha d hd).1⟩
  have hsplit : p ++ '[' :: (a ++ ',' :: c) ++ [']'] ++ rest =
      (p ++ '[' :: a) ++ ((',' :: c) ++ ']' :: rest) := by simp
  have hstops : Stops ((',' :: c) ++ ']' :: rest) := by
    intro d hd
    obtain rfl := Option.some.inj hd
    decide
  have hscan := scanTok_append hall hstops
  have hclose : ']' ∉ p ++ '[' :: a := by
    simp only [List.mem_append, List.mem_cons, not_or]
    exact ⟨fun h => (hp _ h).2.2.1 rfl, by decide, fun h => (ha _ h).2.2.1 rfl⟩
  have hclose' : ']' ∉ ',' :: c := by
    simp only [List.mem_cons, not_or]
    exact ⟨by decide, fun h => (hc _ h).elim (fun h => h.2.2.1 rfl) (by decide)⟩
  have hopen : '[' ∉ ',' :: c := by
    simp only [List.mem_cons, not_or]
    exact ⟨by decide, fun h => (hc _ h).elim (fun h => h.2.1 rfl) (by decide)⟩
  have hnul : nul ∉ (',' :: c) ++ [']'] := by
    simp only [List.mem_append, List.mem_cons, List.not_mem_nil, or_false, not_or]
    exact ⟨⟨by decide, fun h => (hc _ h).elim (fun h => h.2.2.2 rfl) (by decide)⟩, by decide⟩
  have hcstr : cstr ((',' :: c) ++ ']' :: rest) = (',' :: c) ++ ']' :: cstr rest := by
    have hc := cstr_append rest hnul
    simpa using hc
  have hend : (p ++ '[' :: a).length + (',' :: c).length + 1 =
      (p ++ '[' :: (a ++ ',' :: c) ++ [']']).length := by
    simp only [List.length_append, List.length_cons, List.length_nil]
    omega
  have hdrop : (p ++ '[' :: (a ++ ',' :: c) ++ [']'] ++ rest).drop
      (p ++ '[' :: (a ++ ',' :: c) ++ [']']).length = rest := List.drop_left
  have hzero : scanTok separators rest = 0 := by
    have := @scanTok_append separators [] rest (by simp) hrest
    simpa using this
  rw [← hend] at hdrop ⊢
  rw [hsplit] at hdrop ⊢
  rw [tokEnd_open (u := ',' :: c), hscan]
  · rw [hscan, List.take_left]
    simp [hclose]
  · rw [hscan, List.drop_left, hcstr, strchr_append hclose']
  · exact hopen
  · rw [hscan, hdrop]
    exact hzero

/-- A token ends where its text ends. -/
theorem TokenText.tokEnd {s rest : List Char} (h : TokenText s) (hrest : Stops rest) :
    Slurm.Hosts.tokEnd separators (s ++ rest) = s.length := by
  cases h with
  | plain _ hs => exact tokEnd_plain hs hrest
  | @bracket p nums hp hn =>
    by_cases hcomma : ',' ∈ nums
    · obtain ⟨a, c, rfl, ha⟩ := List.eq_append_cons_of_mem hcomma
      refine tokEnd_bracket_more hp (fun d hd => ?_) (fun d hd => hn d (by simp [hd])) hrest
      refine (hn d (by simp [hd])).resolve_right ?_
      rintro rfl
      exact ha hd
    · refine tokEnd_bracket_one hp (fun d hd => (hn d hd).resolve_right ?_) hrest
      rintro rfl
      exact hcomma hd

/-- A closing bracket in the text ends the search for one. -/
theorem searchLeaves_of_mem {sep s : List Char}
    (h : ']' ∈ cstr (s.dropWhile (sep.contains ·))) : searchLeaves sep s = false := by
  unfold searchLeaves
  dsimp only
  generalize s.dropWhile (sep.contains ·) = t at h
  have hnul : nul ∉ t.take (scanTok sep t) := by
    intro hmem
    rw [scanTok, ← List.prefix_iff_eq_take.mp (List.takeWhile_prefix _)] at hmem
    have hne := List.mem_takeWhile_imp hmem
    simp at hne
  have hsplit := cstr_append (t.drop (scanTok sep t)) hnul
  rw [List.take_append_drop] at hsplit
  rw [hsplit] at h
  rcases List.mem_append.mp h with hin | hin
  · simp [hin]
  · simp [hin]

theorem TokenText.ne_nil {s : List Char} (h : TokenText s) : s ≠ [] := by
  cases h with
  | plain hne _ => exact hne
  | bracket => simp

theorem TokenText.nul_notMem {s : List Char} (h : TokenText s) : nul ∉ s := by
  cases h with
  | plain _ hs => exact fun h => (hs _ h).2.2.2 rfl
  | bracket hp hn =>
    simp only [List.mem_append, List.mem_cons, List.not_mem_nil, or_false, not_or]
    exact ⟨⟨fun h => (hp _ h).2.2.2 rfl, by decide,
      fun h => (hn _ h).elim (fun h => h.2.2.2 rfl) (by decide)⟩, by decide⟩

/-- A token does not start with a separator. -/
theorem TokenText.head {s : List Char} (h : TokenText s) :
    ∃ c t, s = c :: t ∧ c ∉ separators := by
  cases h with
  | plain hne hs =>
    obtain ⟨c, t, rfl⟩ := List.exists_cons_of_ne_nil hne
    exact ⟨c, t, rfl, (hs c (by simp)).1⟩
  | @bracket p nums hp _ =>
    cases p with
    | nil => exact ⟨'[', nums ++ [']'], by simp, by decide⟩
    | cons c p => exact ⟨c, p ++ '[' :: nums ++ [']'], by simp, (hp c (by simp)).1⟩

/-- A token does not start with a separator to be passed over. -/
theorem TokenText.dropWhile {s : List Char} (h : TokenText s) (rest : List Char) :
    (s ++ rest).dropWhile (separators.contains ·) = s ++ rest := by
  obtain ⟨c, t, hct, hc⟩ := h.head
  rw [hct, List.cons_append, List.dropWhile_cons_of_neg (by simpa using hc)]

/-- `_next_tok` stays inside the text of a token and what follows it. -/
theorem TokenText.stays {s rest : List Char} (h : TokenText s) (hrest : Stops rest) :
    searchLeaves separators (s ++ rest) = false := by
  have hfirst := h.dropWhile rest
  have hnul := h.nul_notMem
  cases h with
  | plain _ hs =>
    have hscan := scanTok_append (fun c hc => ⟨(hs c hc).2.2.2, (hs c hc).1⟩) hrest
    have hno : '[' ∉ s := fun h => (hs _ h).2.1 rfl
    unfold searchLeaves
    simp only [hfirst, hscan, List.take_left]
    simp [hno]
  | bracket hp hn =>
    apply searchLeaves_of_mem
    rw [hfirst, cstr_append rest hnul]
    simp

/-- `_next_tok` on the text of a token and what follows it. -/
theorem nextTok_token {s : List Char} (h : TokenText s) {rest : List Char} (hrest : Stops rest) :
    nextTok separators (s ++ rest) =
      some (s ++ List.replicate (rest.takeWhile (separators.contains ·)).length nul ++
          rest.dropWhile (separators.contains ·),
        s.length + (rest.takeWhile (separators.contains ·)).length) := by
  have hfirst := h.dropWhile rest
  have hcstr : cstr (s ++ rest) ≠ [] := by
    rw [cstr_append rest h.nul_notMem]
    simp [h.ne_nil]
  have hlen : ∀ l : List Char, l.drop (l.takeWhile (separators.contains ·)).length =
      l.dropWhile (separators.contains ·) := by
    intro l
    have hl := @List.drop_left _ (l.takeWhile (separators.contains ·))
      (l.dropWhile (separators.contains ·))
    rwa [List.takeWhile_append_dropWhile] at hl
  have hdrop : (s ++ rest).drop (s.length + (rest.takeWhile (separators.contains ·)).length) =
      rest.dropWhile (separators.contains ·) := by
    rw [← List.drop_drop, List.drop_left, hlen]
  unfold nextTok
  dsimp only
  rw [hfirst, if_neg hcstr, h.tokEnd hrest, List.drop_left, List.take_left, hdrop,
    Nat.add_sub_cancel_left]

/-! ## The ranges a group is read back as -/

/-- The group is printed with brackets. -/
def Bracketed : List HostRange → Prop
  | [] => False
  | r :: g => hostrangeCount r > 1 ∨ g ≠ []

instance decidableBracketed : ∀ g : List HostRange, Decidable (Bracketed g)
  | [] => isFalse id
  | _ :: _ => inferInstanceAs (Decidable (_ ∨ _))

/-- The ranges the parser pushes for the text of a group. -/
def groupPushes (g : List HostRange) : List HostRange :=
  if Bracketed g then
    g.map fun r => hostrangeCreate r.pfx r.lo r.hi (padded r.width r.lo).length
  else [hostRange (groupText g)]

theorem groupText_bracketed {r : HostRange} {g : List HostRange} (h : Bracketed (r :: g)) :
    groupText (r :: g) = r.pfx ++ '[' :: numsText (r :: g) ++ [']'] := by
  have hb : hostrangeCount r > 1 ∨ g ≠ [] := h
  rw [groupText, if_pos hb, numsText_eq]

/-- What the parser needs of a group to read it back. -/
structure GroupOk (g : List HostRange) : Prop where
  ne_nil : g ≠ []
  wf : ∀ r ∈ g, r.Wf
  ordered : ∀ r ∈ g, r.Ordered
  size : ∀ r ∈ g, r.names.length ≤ maxRange
  pfx : ∀ r ∈ g, ∀ c ∈ r.pfx, Plain c
  bracketed : Bracketed g → g.length ≤ maxRanges ∧
    ∀ r ∈ g, r.singlehost = false ∧ some r.pfx = g.head?.map HostRange.pfx ∧
      r.pfx.length < bufSize
  single : ¬ Bracketed g → groupText g ≠ [] ∧ (groupText g).length < bufSize ∧
    value (tail (groupText g)) ≤ ulongMax

theorem mem_numsText {g : List HostRange} {c : Char} (h : c ∈ numsText g) :
    Plain c ∨ c = ',' := by
  induction g with
  | nil => cases h
  | cons r g ih =>
    cases g with
    | nil => exact .inl (plain_of_mem_numText h)
    | cons s g =>
      rcases List.mem_append.mp h with h | h
      · exact .inl (plain_of_mem_numText h)
      · rcases List.mem_cons.mp h with rfl | h
        · exact .inr rfl
        · exact ih h

theorem GroupOk.plain {g : List HostRange} (h : GroupOk g) (hb : ¬ Bracketed g) :
    ∀ c ∈ groupText g, Plain c := by
  obtain ⟨r, g, rfl⟩ := List.exists_cons_of_ne_nil h.ne_nil
  intro c hc
  have hno : ¬ (hostrangeCount r > 1 ∨ g ≠ []) := hb
  rw [groupText, if_neg hno] at hc
  rcases List.mem_append.mp hc with hc | hc
  · exact h.pfx r (by simp) c hc
  · exact plain_of_mem_numText hc

theorem GroupOk.tokenText {g : List HostRange} (h : GroupOk g) : TokenText (groupText g) := by
  obtain ⟨r, g, rfl⟩ := List.exists_cons_of_ne_nil h.ne_nil
  by_cases hb : Bracketed (r :: g)
  · rw [groupText_bracketed hb]
    exact .bracket (h.pfx r (by simp)) fun c hc => mem_numsText hc
  · exact .plain (h.single hb).1 (h.plain hb)

/-- A token pushes the ranges its group is read back as; the NULs it writes lie
inside the token. -/
theorem tokenPushes_group {g : List HostRange} (h : GroupOk g) {buf : List Char}
    (hbuf : cstr buf = groupText g) :
    ∃ buf', tokenPushes buf = .ok (groupPushes g, buf') ∧
      ∀ k, (groupText g).length ≤ k → buf'.drop k = buf.drop k := by
  obtain ⟨r, g, rfl⟩ := List.exists_cons_of_ne_nil h.ne_nil
  by_cases hb : Bracketed (r :: g)
  · obtain ⟨hlen, hall⟩ := h.bracketed hb
    have hp := h.pfx r (by simp)
    have hpfx := (hall r (by simp)).2.2
    have htext := groupText_bracketed hb
    have hopen : strrchr '[' (groupText (r :: g)) =
        some (r.pfx, numsText (r :: g) ++ [']']) := by
      rw [htext, List.append_assoc, List.cons_append]
      refine strrchr_append _ ?_
      simp only [List.mem_append, List.mem_cons, List.not_mem_nil, or_false, not_or]
      exact ⟨fun hc => (mem_numsText hc).elim (fun hc => hc.2.1 rfl) (by decide), by decide⟩
    have hclose : strchr ']' (numsText (r :: g) ++ [']']) = some (numsText (r :: g), []) :=
      strchr_append (fun hc => (mem_numsText hc).elim (fun hc => hc.2.2.1 rfl) (by decide)) []
    have hrange : ∀ s ∈ r :: g, s.singlehost = false ∧ s.Wf ∧ s.Ordered ∧
        s.names.length ≤ maxRange := fun s hs =>
      ⟨(hall s hs).1, h.wf s hs, h.ordered s hs, h.size s hs⟩
    have hparse : parseRangeList (numsText (r :: g)) maxRanges =
        some ((r :: g).map readBack) := by
      rw [parseRangeList, splitOn_numsText,
        parseItems_numTexts (r :: g) [] hrange (by simpa using hlen)]
      rfl
    have hno : '[' ∉ r.pfx := fun hc => (hp _ hc).2.1 rfl
    have hpush : rangeListPushes r.pfx ((r :: g).map readBack) =
        .ok (groupPushes (r :: g)) := by
      rw [rangeListPushes, if_neg (by omega), strrchr_eq_none hno, groupPushes, if_pos hb,
        withPrefix, List.map_map]
      refine congrArg Except.ok (List.map_congr_left fun s hs => ?_)
      have hsp : s.pfx = r.pfx := Option.some.inj (hall s hs).2.1
      simp [readBack, hsp]
    refine ⟨(buf.set r.pfx.length nul).set (r.pfx.length + 1 + (numsText (r :: g)).length) nul,
      ?_, fun k hk => ?_⟩
    · unfold tokenPushes
      simp only [hbuf, hopen, hclose, hparse, hpush]
      rw [if_neg (by simp)]
      rfl
    · have hk' : r.pfx.length + 1 + (numsText (r :: g)).length < k := by
        rw [htext] at hk
        simp only [List.length_append, List.length_cons, List.length_nil] at hk
        omega
      rw [List.drop_set_of_lt hk', List.drop_set_of_lt (by omega)]
  · obtain ⟨-, hlen, -⟩ := h.single hb
    have hplain : '[' ∉ groupText (r :: g) := fun hc => (h.plain hb _ hc).2.1 rfl
    refine ⟨buf, ?_, fun k _ => rfl⟩
    unfold tokenPushes
    simp only [hbuf, strrchr_eq_none hplain]
    rw [hostPush, if_neg (by omega), groupPushes, if_neg hb]
    rfl

/-! ## The whole text -/

/-- The texts of some groups with commas between them. -/
def groupsText : List (List HostRange) → List Char
  | [] => []
  | [g] => groupText g
  | g :: h :: gs => groupText g ++ ',' :: groupsText (h :: gs)

theorem groupsText_head {g : List HostRange} (gs : List (List HostRange)) (h : GroupOk g) :
    ∃ c t, groupsText (g :: gs) = c :: t ∧ c ∉ separators := by
  obtain ⟨c, t, hct, hc⟩ := h.tokenText.head
  cases gs with
  | nil => exact ⟨c, t, hct, hc⟩
  | cons g' gs => exact ⟨c, t ++ ',' :: groupsText (g' :: gs), by simp [groupsText, hct], hc⟩

/-- Reading the text of some groups pushes what they are read back as. -/
theorem parsePushes_groupsText :
    ∀ (gs : List (List HostRange)) (fuel : Nat), gs.length < fuel →
    (∀ g ∈ gs, GroupOk g) →
    parsePushes separators fuel (groupsText gs) = .ok (gs.flatMap groupPushes) := by
  intro gs
  induction gs with
  | nil =>
    intro fuel hfuel _
    obtain ⟨fuel, rfl⟩ := Nat.exists_eq_add_of_lt hfuel
    rfl
  | cons g gs ih =>
    intro fuel hfuel hok
    obtain ⟨fuel, rfl⟩ : ∃ f, fuel = f + 1 := ⟨fuel - 1, by simp at hfuel; omega⟩
    rw [List.length_cons] at hfuel
    have hg := hok g (by simp)
    have htok := hg.tokenText
    rw [List.flatMap_cons, parsePushes]
    cases gs with
    | nil =>
      have hnext := nextTok_token htok (show Stops [] by simp [Stops])
      have hcstr := cstr_append [] htok.nul_notMem
      rw [show cstr [] = [] from rfl] at hcstr
      obtain ⟨buf', hpush, hdrop⟩ := tokenPushes_group hg (hcstr.trans (List.append_nil _))
      simp only [List.append_nil, List.takeWhile_nil, List.dropWhile_nil, List.length_nil,
        List.replicate_zero, Nat.add_zero] at hnext hpush hdrop
      have hrest : parsePushes separators fuel [] = .ok [] := by
        cases fuel <;> rfl
      have hstays := htok.stays (show Stops [] by simp [Stops])
      rw [List.append_nil] at hstays
      rw [groupsText, hstays, if_neg Bool.false_ne_true, hnext]
      simp only [hpush, hdrop _ (Nat.le_refl _), List.drop_length, hrest]
      rfl
    | cons h gs =>
      obtain ⟨c, t, hct, hc⟩ := groupsText_head gs (hok h (by simp))
      have hstop : Stops (',' :: groupsText (h :: gs)) := by
        intro d hd
        obtain rfl := Option.some.inj hd
        decide
      have htake : (',' :: groupsText (h :: gs)).takeWhile (separators.contains ·) = [','] := by
        rw [List.takeWhile_cons_of_pos (by decide), hct,
          List.takeWhile_cons_of_neg (by simpa using hc)]
      have hdropw : (',' :: groupsText (h :: gs)).dropWhile (separators.contains ·) =
          groupsText (h :: gs) := by
        rw [List.dropWhile_cons_of_pos (by decide), hct,
          List.dropWhile_cons_of_neg (by simpa using hc)]
      have hnext := nextTok_token htok hstop
      rw [htake, hdropw] at hnext
      have hcstr : cstr (groupText g ++ [nul] ++ groupsText (h :: gs)) = groupText g := by
        rw [List.append_assoc, cstr_append _ htok.nul_notMem]
        simp [cstr]
      obtain ⟨buf', hpush, hdrop⟩ := tokenPushes_group hg hcstr
      have hlen : (groupText g).length + 1 = (groupText g ++ [nul]).length := by simp
      have hcut : buf'.drop ((groupText g).length + 1) = groupsText (h :: gs) := by
        rw [hdrop ((groupText g).length + 1) (Nat.le_succ _), hlen, List.drop_left]
      have hrest := ih fuel (by omega) (fun g' hg' => hok g' (by simp [hg']))
      have hone : List.replicate [','].length nul = [nul] := rfl
      rw [hone, List.length_singleton] at hnext
      rw [groupsText, htok.stays hstop, if_neg Bool.false_ne_true, hnext]
      simp only [hpush, hcut, hrest]
      rfl

theorem groupsText_cons (g : List HostRange) (gs : List (List HostRange)) :
    groupsText (g :: gs) = groupText g ++ gs.flatMap fun h => ',' :: groupText h := by
  induction gs generalizing g with
  | nil => simp [groupsText]
  | cons h gs ih => rw [groupsText, ih h, List.flatMap_cons]; rfl

theorem foldl_addGroup {gs : List (List HostRange)} :
    ∀ {text : List Char}, text ≠ [] →
      gs.foldl addGroup text = text ++ gs.flatMap fun h => ',' :: groupText h := by
  induction gs with
  | nil => exact fun _ => by simp
  | cons g gs ih =>
    intro text ht
    have hadd : addGroup text g = text ++ ',' :: groupText g := by
      rw [addGroup, if_neg ht]
      simp
    rw [List.foldl_cons, hadd, ih (by simp)]
    simp

theorem rangedText_eq {rs : List HostRange} (h : ∀ g ∈ rangeGroups rs, groupText g ≠ []) :
    rangedText rs = groupsText (rangeGroups rs) := by
  rw [rangedText]
  cases hg : rangeGroups rs with
  | nil => rfl
  | cons g gs =>
    have hadd : addGroup [] g = groupText g := by simp [addGroup]
    rw [List.foldl_cons, hadd, groupsText_cons]
    exact foldl_addGroup (h g (by simp [hg]))

/-! ## The round trip -/

/-- The ranges of a group have one prefix, and several of them are no single
hosts. -/
theorem rangeGroups_same (rs : List HostRange) :
    ∀ g ∈ rangeGroups rs, ∃ r t, g = r :: t ∧
      ∀ s ∈ t, s.pfx = r.pfx ∧ s.singlehost = false ∧ r.singlehost = false := by
  induction rs with
  | nil => simp
  | cons r rest ih =>
    intro g hg
    cases rest with
    | nil =>
      obtain rfl : g = [r] := by simpa using hg
      exact ⟨r, [], rfl, by simp⟩
    | cons s rest =>
      obtain ⟨g', gs, h⟩ := rangeGroups_cons_head s rest
      rw [rangeGroups_cons_cons h] at hg
      rw [h] at ih
      split at hg
      · rename_i hw
        obtain ⟨hp, hs, hr⟩ := hostrangeWithinRange_iff.mp hw
        rcases List.mem_cons.mp hg with rfl | hg
        · obtain ⟨s', t', he, hall⟩ := ih (s :: g') (by simp)
          obtain ⟨rfl, rfl⟩ := List.cons.inj he
          refine ⟨r, s :: g', rfl, fun x hx => ?_⟩
          rcases List.mem_cons.mp hx with rfl | hx
          · exact ⟨hp, hs, hr⟩
          · exact ⟨(hall x hx).1.trans hp, (hall x hx).2.1, hr⟩
        · exact ih g (by simp [hg])
      · rcases List.mem_cons.mp hg with rfl | hg
        · exact ⟨r, [], rfl, by simp⟩
        · exact ih g hg

/-- The lists whose printed text is within the limits of the parser. -/
structure Printable (rs : List HostRange) : Prop where
  ordered : ∀ r ∈ rs, r.Ordered
  size : ∀ r ∈ rs, r.names.length ≤ maxRange
  pfx : ∀ r ∈ rs, ∀ c ∈ r.pfx, Plain c
  bracketed : ∀ g ∈ rangeGroups rs, Bracketed g →
    g.length ≤ maxRanges ∧ ∀ r ∈ g, r.pfx.length < bufSize
  single : ∀ g ∈ rangeGroups rs, ¬ Bracketed g → groupText g ≠ [] ∧
    (groupText g).length < bufSize ∧ value (tail (groupText g)) ≤ ulongMax
  noWrap : NoWrap [] ((rangeGroups rs).flatMap groupPushes)

theorem mem_of_mem_rangeGroups {rs g : List HostRange} {r : HostRange}
    (hg : g ∈ rangeGroups rs) (hr : r ∈ g) : r ∈ rs := by
  rw [← flatten_rangeGroups rs]
  exact List.mem_flatten.mpr ⟨g, hg, hr⟩

theorem Printable.groupOk {rs : List HostRange} (h : Printable rs) (hok : ∀ r ∈ rs, r.Ok) :
    ∀ g ∈ rangeGroups rs, GroupOk g := by
  intro g hg
  have hmem := fun r (hr : r ∈ g) => mem_of_mem_rangeGroups hg hr
  obtain ⟨r, t, rfl, hall⟩ := rangeGroups_same rs g hg
  refine ⟨by simp, fun s hs => (hok s (hmem s hs)).toWf, fun s hs => h.ordered s (hmem s hs),
    fun s hs => h.size s (hmem s hs), fun s hs => h.pfx s (hmem s hs), fun hb => ?_,
    h.single _ hg⟩
  obtain ⟨hlen, hp⟩ := h.bracketed _ hg hb
  have hr : r.singlehost = false := by
    rcases hb with hcount | hne
    · cases hs : r.singlehost with
      | false => rfl
      | true => simp [hostrangeCount, hs] at hcount
    · obtain ⟨s, t, rfl⟩ := List.exists_cons_of_ne_nil hne
      exact (hall s (by simp)).2.2
  refine ⟨hlen, fun s hs => ⟨?_, ?_, hp s hs⟩⟩
  · rcases List.mem_cons.mp hs with rfl | hs
    · exact hr
    · exact (hall s hs).2.1
  · rcases List.mem_cons.mp hs with rfl | hs
    · rfl
    · exact congrArg some (hall s hs).1

/-- A group is read back as ranges with its names. -/
theorem names_groupPushes {g : List HostRange} (h : GroupOk g) :
    names (groupPushes g) = names g ∧ ∀ r ∈ groupPushes g, r.Pushed := by
  by_cases hb : Bracketed g
  · rw [groupPushes, if_pos hb]
    obtain ⟨-, hall⟩ := h.bracketed hb
    refine ⟨?_, fun s hs => ?_⟩
    · rw [names, names, List.flatMap_map]
      refine List.flatMap_congr fun r hr => ?_
      have hs := (hall r hr).1
      have hre : Reprint r (hostrangeCreate r.pfx r.lo r.hi (padded r.width r.lo).length) := by
        refine ⟨(padded r.width r.lo).length, ?_, padded_length_padded _ _ _ (Nat.le_refl _)⟩
        cases r
        simp_all [hostrangeCreate]
      exact hre.names
    · obtain ⟨r, hr, rfl⟩ := List.mem_map.mp hs
      have hlt := (h.wf r hr).hi_lt
      have hmax : ulongMax = 18446744073709551615 := rfl
      exact hostrangeCreate_pushed (h.ordered r hr (hall r hr).1) (by omega)
  · obtain ⟨r, g, rfl⟩ := List.exists_cons_of_ne_nil h.ne_nil
    rw [groupPushes, if_neg hb]
    obtain ⟨-, -, hval⟩ := h.single hb
    have hno : ¬ (hostrangeCount r > 1 ∨ g ≠ []) := hb
    have hnil : g = [] := by
      by_contra hne
      exact hno (.inr hne)
    subst hnil
    refine ⟨?_, fun s hs => ?_⟩
    · rw [names_cons, names_nil, List.append_nil, hostRange_names hval, names_cons, names_nil,
        List.append_nil, groupText, if_neg hno]
      have hord := h.ordered r (by simp)
      have hsize := h.size r (by simp)
      have hmax : maxRange = 16384 := rfl
      have hone : r.names.length = 1 := by
        have hpos := names_length_pos hord
        have hc := hostrangeCount_eq_length hord (by omega)
        have hle : ¬ hostrangeCount r > 1 := fun hc => hno (.inl hc)
        omega
      rw [length_names] at hone
      cases hs : r.singlehost with
      | true => simp [numText, HostRange.names, hs]
      | false =>
        have heq : r.hi = r.lo := by
          rw [hs] at hone
          simp at hone
          have := hord hs
          omega
        simp [numText, HostRange.names, HostRange.numbers, HostRange.nameAt, hs, heq]
    · obtain rfl := List.mem_singleton.mp hs
      exact hostRange_pushed _

theorem names_flatMap_groupPushes {gs : List (List HostRange)} (h : ∀ g ∈ gs, GroupOk g) :
    names (gs.flatMap groupPushes) = names gs.flatten ∧
      ∀ r ∈ gs.flatMap groupPushes, r.Pushed := by
  induction gs with
  | nil => simp
  | cons g gs ih =>
    obtain ⟨h1, h2⟩ := names_groupPushes (h g (by simp))
    obtain ⟨h3, h4⟩ := ih fun g' hg' => h g' (by simp [hg'])
    refine ⟨by simp [h1, h3], fun r hr => ?_⟩
    rw [List.flatMap_cons] at hr
    rcases List.mem_append.mp hr with hr | hr
    · exact h2 r hr
    · exact h4 r hr

theorem length_le_groupsText {gs : List (List HostRange)} (h : ∀ g ∈ gs, GroupOk g) :
    gs.length ≤ (groupsText gs).length := by
  induction gs with
  | nil => simp
  | cons g gs ih =>
    have hpos : 0 < (groupText g).length :=
      List.length_pos_iff.mpr (h g (by simp)).tokenText.ne_nil
    have hrest := ih fun g' hg' => h g' (by simp [hg'])
    cases gs with
    | nil => exact hpos
    | cons g' gs =>
      rw [groupsText]
      simp only [List.length_append, List.length_cons] at hrest ⊢
      omega

theorem nul_notMem_groupsText {gs : List (List HostRange)} (h : ∀ g ∈ gs, GroupOk g) :
    nul ∉ groupsText gs := by
  induction gs with
  | nil => simp [groupsText]
  | cons g gs ih =>
    have hg := (h g (by simp)).tokenText.nul_notMem
    have hrest := ih fun g' hg' => h g' (by simp [hg'])
    cases gs with
    | nil => simpa [groupsText] using hg
    | cons g' gs =>
      rw [groupsText]
      simp only [List.mem_append, List.mem_cons, not_or]
      exact ⟨hg, by decide, hrest⟩

/-- The text of a list within the limits of the parser is read back as a list with
the same names. -/
theorem hostlistCreate_rangedText {rs : List HostRange} (hok : ∀ r ∈ rs, r.Ok) (hp : Printable rs) :
    nul ∉ rangedText rs ∧ ∃ free, hostlistCreate (rangedText rs) =
      .ok (Hostlist.ofRanges (pushRanges [] ((rangeGroups rs).flatMap groupPushes)) free
        (int32 (hosts ((rangeGroups rs).flatMap groupPushes)))) ∧
      names (pushRanges [] ((rangeGroups rs).flatMap groupPushes)) = names rs := by
  have hgroups := hp.groupOk hok
  have htext : rangedText rs = groupsText (rangeGroups rs) :=
    rangedText_eq fun g hg => (hgroups g hg).tokenText.ne_nil
  have hparse : hostPushes (groupsText (rangeGroups rs)) =
      .ok ((rangeGroups rs).flatMap groupPushes) :=
    parsePushes_groupsText _ _ (Nat.lt_succ_of_le (length_le_groupsText hgroups)) hgroups
  obtain ⟨free, hcreate⟩ := hostlistCreate_ok hparse
  obtain ⟨hnames, hpushed⟩ := names_flatMap_groupPushes hgroups
  rw [flatten_rangeGroups] at hnames
  obtain ⟨hn1, -⟩ := names_pushRanges ok_nil (by simp) hpushed hp.noWrap
  rw [htext]
  refine ⟨nul_notMem_groupsText hgroups, free, hcreate, ?_⟩
  rw [hn1, hnames]
  rfl

/-- What `hostlist_ranged_string` prints for a list within the limits of the
parser, `hostlist_create` reads back as a list with the same host names, for every
size that is an `int`. -/
theorem hostlistRangedString_roundTrip {hl : Hostlist} {rs : List HostRange} (hb : Built hl)
    (hrs : hl.ranges = some rs) (hp : Printable rs) {n : Nat} (_ : n ≤ 2147483647)
    {buf : List Char} (hn : n ≤ buf.length) :
    ∃ ret buf', hostlistRangedString hl n buf = some (ret, buf') ∧
      (ret ≠ -1 → ∃ hl' rs', hostlistCreate (cstr buf') = .ok hl' ∧ hl'.ranges = some rs' ∧
        names rs' = names rs) := by
  obtain ⟨ss, hholds⟩ := hb.holds
  obtain rfl : ss = rs := by
    have hr := hholds.ranges
    rw [hr] at hrs
    exact Option.some.inj hrs
  obtain ⟨hnul, free, hcreate, hnames⟩ := hostlistCreate_rangedText hholds.ok hp
  obtain ⟨ret, buf', hprint, -, hcase⟩ := hostlistRangedString_spec hrs hn
  refine ⟨ret, buf', hprint, fun hret => ?_⟩
  rcases hcase with ⟨-, hbad⟩ | ⟨-, -, hbuf⟩
  · exact absurd hbad hret
  rw [ cstr_of_prefix hnul hbuf]
  exact ⟨_, _, hcreate, ofRanges_ranges _ _ _, hnames⟩

theorem hostlistRangedString_roundTrip_mixed :
    ∃ hl rs, hostlistCreate "a[1-3,08],b,c5".toList = .ok hl ∧ hl.ranges = some rs ∧
      ∃ ret buf', hostlistRangedString hl 20 (List.replicate 20 nul) = some (ret, buf') ∧
        (ret ≠ -1 → ∃ hl' rs', hostlistCreate (cstr buf') = .ok hl' ∧ hl'.ranges = some rs' ∧
          names rs' = names rs) := by
  have hcreate : hostlistCreate "a[1-3,08],b,c5".toList =
      .ok (Hostlist.ofRanges [hostrangeCreate ['a'] 1 3 1, hostrangeCreate ['a'] 8 8 2,
        hostrangeCreateSingle ['b'], hostrangeCreate ['c'] 5 5 1] 12 6) := rfl
  refine ⟨_, _, hcreate, ofRanges_ranges _ _ _, ?_⟩
  refine hostlistRangedString_roundTrip (Built.create hcreate) (ofRanges_ranges _ _ _)
    ⟨?_, ?_, ?_, ?_, ?_, ?_⟩ (by decide) (by simp)
  · decide
  · intro r hr
    refine Nat.le_trans (m := 3) ?_ (by simp [maxRange])
    revert r
    decide
  · intro r hr c hc
    simp only [List.mem_cons, List.not_mem_nil, or_false] at hr
    rcases hr with rfl | rfl | rfl | rfl <;>
      (obtain rfl := List.mem_singleton.mp hc; decide)
  · decide
  · decide +kernel
  · decide

/-- Two ranges the parser accepts join to one with more hosts than it accepts. -/
theorem hostlistRangedString_joined_rejected :
    ∃ hl ret buf', hostlistCreate "a[0-16383],a[16384-16385]".toList = .ok hl ∧
      hostlistRangedString hl 16 (List.replicate 16 nul) = some (ret, buf') ∧ ret ≠ -1 ∧
      hostlistCreate (cstr buf') = .error .invalid := by
  refine ⟨Hostlist.ofRanges [hostrangeCreate ['a'] 0 16385 1] 15 16386, 10,
    "a[0-16385]".toList ++ List.replicate 6 nul, rfl, by decide, by decide, by decide⟩

end Slurm.Hosts
