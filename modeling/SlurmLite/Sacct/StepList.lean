import SlurmLite.JobcompFiletxt
import SlurmLite.Sacct.OptionLists

/-!
# Selected steps

`_addto_step_list` of `options.c` cuts the value of `-j` into selected steps
with a scanner of its own: after a comma at the end of the string it reads on
behind the terminator.

* **The scanner** (`stepScan`), without a result where it leaves the string.
* **The tokens** (`stepTokens`): those of the text between the quotes.
* `stepScan_append`: what the scanner makes of a text that goes on.
* `takesTokens_iff`: the strings that are cut into their tokens.
-/

namespace Slurm.StepList

open Base.Text Base.CLib Slurm.CharList Slurm.OptionLists
open Slurm.Filetxt (atoi atoi_digits)

/-! ## The list -/

/-- `NO_VAL`. -/
abbrev noVal : Nat := 4294967294

/-- `jobacct_selected_step_t`. -/
structure SelectedStep where
  jobid : Nat
  stepid : Nat
deriving DecidableEq

/-- The step that a token names: the job, and the step after the first dot. -/
def selectedStep (name : Text) : SelectedStep :=
  match strchr '.' name with
  | none => ⟨uint32 (atoi name), noVal⟩
  | some (name, dot) => ⟨uint32 (atoi name), uint32 (atoi dot)⟩

/-- The loop of the scanner; there is no result when it reads behind the terminator. -/
def stepScan (quoteC : Option Char) : Text → Text → Option (List Text)
  | [], name => some [name]
  | c :: names, name =>
    if quoteC = some c then some [name]
    else if isQuote c then stepScan quoteC names (name ++ ['`'])
    else if c = ',' then
      match names with
      -- `i++` at the comma and again at the end of the loop, with no test between
      | [] => none
      | c' :: names => (stepScan quoteC names [c']).map (name :: ·)
    else stepScan quoteC names (name ++ [c])

/-- The texts that are copied into `name`. -/
def stepPieces : Text → Option (List Text)
  | [] => some [[]]
  | c :: names => if isQuote c then stepScan (some c) names [] else stepScan none (c :: names) []

/-- A step that is in the list already is not added. -/
def keepStep (s : List SelectedStep × Nat) (step : SelectedStep) : List SelectedStep × Nat :=
  if step ∈ s.1 then s else (s.1 ++ [step], s.2 + 1)

/-- `_addto_step_list`: the list afterwards and the number returned. -/
def addtoStepList (stepList : List SelectedStep) (names : Text) :
    Option (List SelectedStep × Nat) :=
  (stepPieces names).map fun names =>
    ((names.filter (· ≠ [])).map selectedStep).foldl keepStep (stepList, 0)

/-! ## The tokens -/

/-- The text between the quotes, or all of it. -/
def content : Text → Text
  | [] => []
  | c :: names => if isQuote c then names.takeWhile (· ≠ c) else c :: names

/-- Quotes within a token count as backticks. -/
def tick (c : Char) : Char := if isQuote c then '`' else c

/-- The non-empty tokens of a string, split at the commas. -/
def stepTokens (names : Text) : List Text := tokens ((content names).map tick)

/-- The scanner stays in the string, the texts it takes are the tokens, and the list gets the
steps they name. -/
structure TakesTokens (names : Text) : Prop where
  taken : ∃ ps, stepPieces names = some ps ∧
    (ps.filter (· ≠ [])).map (·.map tick) = stepTokens names
  added : ∀ stepList, addtoStepList stepList names =
    some (((stepTokens names).map selectedStep).foldl keepStep (stepList, 0))

section Scan

variable {quoteC : Option Char} {c : Char} {name names : Text}

theorem stepScan_end (hend : quoteC = some c) : stepScan quoteC (c :: names) name =
    some [name] := by
  rw [stepScan.eq_def]
  exact if_pos hend

theorem stepScan_quote (hend : quoteC ≠ some c) (hc : isQuote c = true) :
    stepScan quoteC (c :: names) name = stepScan quoteC names (name ++ ['`']) := by
  rw [stepScan.eq_def]
  exact (if_neg hend).trans (if_pos hc)

theorem stepScan_cut {c' : Char} (hend : quoteC ≠ some ',') :
    stepScan quoteC (',' :: c' :: names) name = (stepScan quoteC names [c']).map (name :: ·) := by
  rw [stepScan.eq_def]
  exact if_neg hend

theorem stepScan_other (hend : quoteC ≠ some c) (hc : ¬isQuote c = true) (hcomma : c ≠ ',') :
    stepScan quoteC (c :: names) name = stepScan quoteC names (name ++ [c]) := by
  rw [stepScan.eq_def]
  exact (if_neg hend).trans ((if_neg hc).trans (if_neg hcomma))

/-- The first text goes on from what has been read of it. -/
theorem stepScan_first {ps : List Text} (h : stepScan quoteC names name = some ps) :
    ∃ t rest, ps = (name ++ t) :: rest := by
  fun_induction stepScan quoteC names name generalizing ps with
  | case1 name => exact ⟨[], [], by rw [List.append_nil, Option.some.inj h]⟩
  | case2 c names name hend => exact ⟨[], [], by rw [List.append_nil, Option.some.inj h]⟩
  | case3 c names name hend hquote ih =>
    obtain ⟨t, rest, rfl⟩ := ih h
    exact ⟨'`' :: t, rest, by rw [List.append_assoc, List.singleton_append]⟩
  | case4 => cases h
  | case5 name c' names hend hquote ih =>
    obtain ⟨ps', -, rfl⟩ := Option.map_eq_some_iff.mp h
    exact ⟨[], ps', by rw [List.append_nil]⟩
  | case6 c names name hend hquote hcomma ih =>
    obtain ⟨t, rest, rfl⟩ := ih h
    exact ⟨c :: t, rest, by rw [List.append_assoc, List.singleton_append]⟩

/-- A text that does not end in a comma is cut as by itself, and its last piece goes on. -/
theorem stepScan_append {u : Text} (hend : ∀ c ∈ u, quoteC ≠ some c) (hlast : ¬[','] <:+ u)
    (name : Text) :
    ∃ ps last, scan none u name = ps ++ [last] ∧
      ∀ rest, stepScan quoteC (u ++ rest) name = (stepScan quoteC rest last).map (ps ++ ·) := by
  generalize hnone : (none : Option Char) = q
  fun_induction scan q u name with
  | case1 name =>
    refine ⟨[], name, rfl, fun rest => ?_⟩
    rw [List.nil_append]
    exact Option.map_id'.symm
  | case2 c u name hc => rw [← hnone] at hc; cases hc
  | case3 c u name hc hquote ih =>
    obtain ⟨ps, last, hscan, hrest⟩ := ih (fun d hd => hend d (List.mem_cons_of_mem _ hd))
      (fun h => hlast (h.trans (List.suffix_cons _ _)))
    refine ⟨ps, last, hscan, fun rest => ?_⟩
    rw [List.cons_append, stepScan_quote (hend c List.mem_cons_self) hquote]
    exact hrest rest
  | case4 name hc => exact absurd List.suffix_rfl hlast
  | case5 name c' u hc hquote ih =>
    obtain ⟨ps, last, hscan, hrest⟩ := ih
      (fun d hd => hend d (List.mem_cons_of_mem _ (List.mem_cons_of_mem _ hd)))
      (fun h => hlast (h.trans ((List.suffix_cons _ _).trans (List.suffix_cons _ _))))
    refine ⟨name :: ps, last, by rw [hscan, List.cons_append], fun rest => ?_⟩
    rw [List.cons_append, List.cons_append, stepScan_cut (hend ',' List.mem_cons_self), hrest,
      Option.map_map]
    rfl
  | case6 c u name hc hquote hcomma ih =>
    obtain ⟨ps, last, hscan, hrest⟩ := ih (fun d hd => hend d (List.mem_cons_of_mem _ hd))
      (fun h => hlast (h.trans (List.suffix_cons _ _)))
    refine ⟨ps, last, hscan, fun rest => ?_⟩
    rw [List.cons_append, stepScan_other (hend c List.mem_cons_self) hquote hcomma]
    exact hrest rest

end Scan

/-! ## The cut of a string -/

section Cut

variable {names u : Text}

theorem tick_comma (c : Char) : tick c = ',' ↔ c = ',' := by
  unfold tick
  split
  · rename_i hquote
    refine iff_of_false (by decide) ?_
    rintro rfl
    rw [isQuote_comma] at hquote
    cases hquote
  · rfl

theorem tick_tick (c : Char) : tick (tick c) = tick c := by
  unfold tick
  split
  · rfl
  · rfl

theorem comma_mem_map_tick (t : Text) : ',' ∈ t.map tick ↔ ',' ∈ t := by
  simp only [List.mem_map, tick_comma, exists_eq_right]

/-- Up to quotes the scanner loses no character. -/
theorem intercalate_scan_tick (u name : Text) :
    [','].intercalate ((scan none u name).map (·.map tick)) = name.map tick ++ u.map tick := by
  generalize hnone : (none : Option Char) = q
  fun_induction scan q u name with
  | case1 name => simp
  | case2 c u name hc => rw [← hnone] at hc; cases hc
  | case3 c u name hc hquote ih =>
    have hc' : tick c = '`' := if_pos hquote
    rw [ih, List.map_append, List.append_assoc, ← hc']
    show _ ++ (tick (tick c) :: _) = _ ++ (tick c :: _)
    rw [tick_tick]
    rfl
  | case4 name hc => simp [tick, isQuote_comma]
  | case5 name c' u hc hquote ih =>
    have hne : (scan q u [c']).map (·.map tick) ≠ [] := by
      rw [ne_eq, List.map_eq_nil_iff]
      exact scan_ne_nil _ _ _
    rw [List.map_cons, List.intercalate_cons_of_ne_nil hne, ih]
    simp [tick, isQuote_comma]
  | case6 c u name hc hquote hcomma ih =>
    rw [ih, List.map_append, List.append_assoc]
    rfl

/-- Without two commas together the pieces are those between the commas. -/
theorem scan_tick_eq_splitOn (h : ¬[',', ','] <:+: u) :
    (scan none u []).map (·.map tick) = (u.map tick).splitOn ',' := by
  have hfree : ∀ p ∈ scan none u [], ',' ∉ p := noComma_scan_iff.mpr h
  have hcomma : ∀ l ∈ (scan none u []).map (·.map tick), ',' ∉ l := by
    intro l hl
    obtain ⟨p, hp, rfl⟩ := List.mem_map.mp hl
    rw [comma_mem_map_tick]
    exact hfree p hp
  have hne : (scan none u []).map (·.map tick) ≠ [] := by
    rw [ne_eq, List.map_eq_nil_iff]
    exact scan_ne_nil _ _ _
  have hsplit := List.splitOn_intercalate ',' hcomma hne
  rw [intercalate_scan_tick, List.map_nil, List.nil_append] at hsplit
  exact hsplit.symm

theorem stepPieces_eq (names : Text) :
    ∃ quoteC rest, stepPieces names = stepScan quoteC (content names ++ rest) [] ∧
      (∀ c ∈ content names, quoteC ≠ some c) ∧
      (rest = [] ∨ ∃ q r, quoteC = some q ∧ rest = q :: r) := by
  cases names with
  | nil => exact ⟨none, [], rfl, by simp, Or.inl rfl⟩
  | cons c names =>
    by_cases hc : isQuote c = true
    · have hcontent : content (c :: names) = names.takeWhile (· ≠ c) := if_pos hc
      refine ⟨some c, names.dropWhile (· ≠ c), ?_, ?_, ?_⟩
      · rw [hcontent, List.takeWhile_append_dropWhile]
        exact if_pos hc
      · rw [hcontent]
        rintro d hd h
        have := List.mem_takeWhile_imp hd
        rw [Option.some.inj h] at this
        simp at this
      · cases hrest : names.dropWhile (· ≠ c) with
        | nil => exact Or.inl rfl
        | cons d r =>
          have hhead := List.head?_dropWhile_not (fun d => decide (d ≠ c)) names
          rw [hrest] at hhead
          exact Or.inr ⟨c, r, rfl, by simpa using hhead⟩
    · have hcontent : content (c :: names) = c :: names := if_neg hc
      refine ⟨none, [], ?_, by simp, Or.inl rfl⟩
      rw [hcontent, List.append_nil]
      exact if_neg hc

/-- At the end of the text the last piece is complete. -/
theorem stepScan_rest {quoteC : Option Char} {rest : Text}
    (h : rest = [] ∨ ∃ q r, quoteC = some q ∧ rest = q :: r) (last : Text) :
    stepScan quoteC rest last = some [last] := by
  obtain rfl | ⟨q, r, hq, rfl⟩ := h
  · rfl
  · exact stepScan_end hq

/-- A text that does not end in a comma is cut to its end. -/
theorem stepPieces_of_content (hlast : ¬[','] <:+ content names) :
    stepPieces names = some (scan none (content names) []) := by
  obtain ⟨quoteC, rest, hpieces, hend, hrest⟩ := stepPieces_eq names
  obtain ⟨ps, last, hscan, hgo⟩ := stepScan_append hend hlast []
  rw [hpieces, hgo, stepScan_rest hrest, hscan]
  rfl

theorem filter_map_tick (ps : List Text) :
    (ps.filter (· ≠ [])).map (·.map tick) = (ps.map (·.map tick)).filter (· ≠ []) := by
  rw [List.filter_map]
  congr 1
  refine List.filter_congr fun p _ => ?_
  simp

/-- The pieces of a text are its tokens when no two commas stand together. -/
theorem scan_tokens (h : ¬[',', ','] <:+: u) :
    ((scan none u []).filter (· ≠ [])).map (·.map tick) = tokens (u.map tick) := by
  rw [filter_map_tick, scan_tick_eq_splitOn h, tokens]

end Cut

/-! ## The step of a token -/

section Token

variable {p : Char → Bool}

theorem tick_pred (hd : p '"' = p '`') (hs : p '\'' = p '`') (c : Char) : p (tick c) = p c := by
  unfold tick
  split
  · rename_i hquote
    rw [isQuote, Bool.or_eq_true, decide_eq_true_eq, decide_eq_true_eq] at hquote
    obtain rfl | rfl := hquote
    · exact hd.symm
    · exact hs.symm
  · rfl

theorem tick_eq_iff {d : Char} (hd : d ≠ '"' ∧ d ≠ '\'' ∧ d ≠ '`') (c : Char) :
    tick c = d ↔ c = d := by
  have := tick_pred (p := fun c => decide (c = d)) (by simp [hd.1.symm, hd.2.2.symm])
    (by simp [hd.2.1.symm, hd.2.2.symm]) c
  simpa using this

theorem optSign_tick (t : Text) : optSign (t.map tick) =
    ((optSign t).1, (optSign t).2.map tick) := by
  cases t with
  | nil => rfl
  | cons c t =>
    rw [List.map_cons, optSign, optSign]
    simp only [tick_eq_iff (d := '-') (by decide), tick_eq_iff (d := '+') (by decide)]
    split
    · rfl
    · split
      · rfl
      · rfl

theorem takeWhile_digit_tick (t : Text) :
    (t.map tick).takeWhile Char.isDigit = t.takeWhile Char.isDigit := by
  induction t with
  | nil => rfl
  | cons c t ih =>
    rw [List.map_cons, List.takeWhile_cons, List.takeWhile_cons, ih,
      tick_pred (p := Char.isDigit) (by decide) (by decide)]
    split
    · rename_i hdigit
      have hc : ¬isQuote c = true := by
        intro hquote
        rw [isQuote, Bool.or_eq_true, decide_eq_true_eq, decide_eq_true_eq] at hquote
        obtain rfl | rfl := hquote
        · revert hdigit; decide
        · revert hdigit; decide
      rw [tick, if_neg hc]
    · rfl

theorem atoi_tick (t : Text) : atoi (t.map tick) = atoi t := by
  have hspace : (t.map tick).dropWhile isspace = (t.dropWhile isspace).map tick := by
    have hcomp : isspace ∘ tick = isspace :=
      funext fun c => tick_pred (p := isspace) (by decide) (by decide) c
    rw [List.dropWhile_map, hcomp]
  unfold atoi
  simp only [hspace, optSign_tick, takeWhile_digit_tick]

theorem strchr_tick (t : Text) :
    strchr '.' (t.map tick) = (strchr '.' t).map fun r => (r.1.map tick, r.2.map tick) := by
  induction t with
  | nil => rfl
  | cons c t ih =>
    rw [List.map_cons, strchr, strchr]
    simp only [tick_eq_iff (d := '.') (by decide)]
    split
    · rfl
    · rw [ih, Option.map_map, Option.map_map]
      rfl

/-- A token names the same step with its quotes and with backticks. -/
theorem selectedStep_tick (t : Text) : selectedStep (t.map tick) = selectedStep t := by
  unfold selectedStep
  rw [strchr_tick]
  cases strchr '.' t with
  | none => simp only [Option.map_none, atoi_tick]
  | some r => simp only [Option.map_some, atoi_tick]

end Token

/-! ## Strings that are cut into their tokens -/

section Taken

variable {names : Text}

theorem map_selectedStep (ps : List Text) :
    (ps.map (·.map tick)).map selectedStep = ps.map selectedStep := by
  rw [List.map_map]
  exact List.map_congr_left fun p _ => selectedStep_tick p

theorem takesTokens_of_content (hadj : ¬[',', ','] <:+: content names)
    (hlast : ¬[','] <:+ content names) : TakesTokens names := by
  have hpieces := stepPieces_of_content hlast
  have htokens := scan_tokens hadj
  refine ⟨⟨_, hpieces, htokens⟩, fun stepList => ?_⟩
  rw [addtoStepList, hpieces, Option.map_some, stepTokens, ← htokens, map_selectedStep]

/-- A piece with a comma is no token. -/
theorem noComma_of_tokens {ps : List Text}
    (h : (ps.filter (· ≠ [])).map (·.map tick) = stepTokens names) : ∀ p ∈ ps, ',' ∉ p := by
  intro p hp hmem
  have hne : p ≠ [] := List.ne_nil_of_mem hmem
  have hin : p.map tick ∈ stepTokens names := by
    rw [← h]
    exact List.mem_map_of_mem (List.mem_filter.mpr ⟨hp, decide_eq_true hne⟩)
  exact noComma_splitOn (List.mem_of_mem_filter hin) ((comma_mem_map_tick p).mpr hmem)

/-- A text that ends in commas, cut before them. -/
theorem exists_commas {l : Text} (h : [','] <:+ l) :
    ∃ w more, l = w ++ ',' :: more ∧ (∀ c ∈ more, c = ',') ∧ ¬[','] <:+ w := by
  induction l using List.reverseRecOn with
  | nil => exact absurd h.length_le (by decide)
  | append_singleton l c ih =>
    obtain rfl : c = ',' := by
      obtain ⟨t, ht⟩ := h
      exact (List.append_inj' ht rfl).2 |> List.singleton_injective |>.symm
    by_cases hl : [','] <:+ l
    · obtain ⟨w, more, rfl, hmore, hw⟩ := ih hl
      refine ⟨w, more ++ [','], by simp, fun d hd => ?_, hw⟩
      obtain hd | hd := List.mem_append.mp hd
      · exact hmore d hd
      · exact List.mem_singleton.mp hd
    · exact ⟨l, [], rfl, by simp, hl⟩

theorem tokens_append_comma (t : Text) : tokens (t ++ [',']) = tokens t := by
  rw [tokens, List.splitOn_append_cons_self, List.splitOn_nil, List.filter_append]
  exact List.append_nil _

/-- With a comma at the end the scanner leaves the string, or takes more than the tokens. -/
theorem TakesTokens.noLast (h : TakesTokens names) : ¬[','] <:+ content names := by
  intro hcomma
  obtain ⟨w, more, hcontent, hmore, hw⟩ := exists_commas hcomma
  obtain ⟨ps, hpieces, htokens⟩ := h.taken
  obtain ⟨quoteC, rest, heq, hend, hrest⟩ := stepPieces_eq names
  have hcut : quoteC ≠ some ',' := hend ',' (by rw [hcontent]; simp)
  obtain ⟨before, last, hscan, hgo⟩ := stepScan_append
    (fun c hc => hend c (by rw [hcontent]; exact List.mem_append_left _ hc)) hw []
  have hfree := noComma_of_tokens htokens
  rw [heq, hcontent, List.append_assoc, hgo] at hpieces
  obtain ⟨after, hafter, rfl⟩ := Option.map_eq_some_iff.mp hpieces
  cases more with
  | cons c more =>
    -- the second comma begins a piece
    obtain rfl := hmore c List.mem_cons_self
    rw [List.cons_append, List.cons_append, stepScan_cut hcut] at hafter
    obtain ⟨after', hafter', rfl⟩ := Option.map_eq_some_iff.mp hafter
    obtain ⟨t, rest', rfl⟩ := stepScan_first hafter'
    exact hfree ([','] ++ t) (by simp) (by simp)
  | nil =>
    obtain rfl | ⟨q, r, -, rfl⟩ := hrest
    · rw [List.append_nil, stepScan.eq_def] at hafter
      simp [hcut, isQuote_comma] at hafter
    · -- the closing quote begins a piece
      rw [List.cons_append, List.nil_append, stepScan_cut hcut] at hafter
      obtain ⟨after', hafter', rfl⟩ := Option.map_eq_some_iff.mp hafter
      obtain ⟨t, rest', rfl⟩ := stepScan_first hafter'
      have hadj : ¬[',', ','] <:+: w := by
        refine noComma_scan_iff.mp fun p hp => hfree p ?_
        rw [hscan] at hp
        obtain hp | hp := List.mem_append.mp hp
        · exact List.mem_append_left _ hp
        · rw [List.mem_singleton.mp hp]
          simp
      have hmeant : stepTokens names = tokens (w.map tick) := by
        rw [stepTokens, hcontent, List.map_append]
        exact tokens_append_comma _
      rw [hmeant, ← scan_tokens hadj, hscan] at htokens
      have hlen := congrArg List.length htokens
      simp [List.filter_append, List.filter_cons] at hlen
      split at hlen
      · simp at hlen
      · simp at hlen

/-- Two commas together make a piece with a comma. -/
theorem TakesTokens.noAdjacent (h : TakesTokens names) : ¬[',', ','] <:+: content names := by
  obtain ⟨ps, hpieces, htokens⟩ := h.taken
  rw [stepPieces_of_content h.noLast] at hpieces
  obtain rfl := Option.some.inj hpieces
  exact noComma_scan_iff.mp (noComma_of_tokens htokens)

end Taken

/-- A string is cut into its tokens, within its bounds, exactly when between its quotes it does
not end in a comma and has no two commas together. -/
theorem takesTokens_iff (names : Text) :
    TakesTokens names ↔ ¬[',', ','] <:+: content names ∧ ¬[','] <:+ content names :=
  ⟨fun h => ⟨h.noAdjacent, h.noLast⟩, fun h => takesTokens_of_content h.1 h.2⟩

/-- A comma at the end makes the scanner read behind the terminator. -/
theorem not_takesTokens_comma : ¬∀ names : Text, TakesTokens names := by
  intro h
  obtain ⟨ps, hps, -⟩ := (h "5,".toList).taken
  have hnone : stepPieces "5,".toList = none := by decide +kernel
  rw [hnone] at hps
  cases hps

end Slurm.StepList
