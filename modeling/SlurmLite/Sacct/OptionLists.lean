import SlurmLite.Base.MapM
import SlurmLite.Base.Run
import SlurmLite.Base.Sql
import SlurmLite.CharList
import SlurmLite.Sacct.NumUnit

/-!
# Lists from option strings

The values of options are cut into lists by `slurm_addto_char_list` and
`_addto_id_char_list`, which change the option string in place.

* **The cuts** (`scan_badAfterCut_iff`, `openEscape_scan_iff`): what the names
  of the scanner are free of.
* `elements_safe_iff`: the strings whose elements can stand between quotes.
* `lists_added_iff`: the strings without quotes whose tokens are added.
-/

namespace Slurm.OptionLists

open Base.Text Base.CLib Base.MapM Base.Run Base.Sql Slurm.CharList Slurm.Print

/-! ## The option string -/

/-- What the loop of the scanner leaves of the text it reads. -/
def rescan (quoteC : Option Char) : Text → Text
  | [] => []
  | c :: names =>
    if quoteC = some c then c :: names
    else if isQuote c then '`' :: rescan quoteC names
    else if c = ',' then
      match names with
      | [] => [c]
      | c' :: names => c :: c' :: rescan quoteC names
    else c :: rescan quoteC names

/-- The option string after a call. -/
def namesAfter : Text → Text
  | [] => []
  | c :: names => if isQuote c then c :: rescan (some c) names else rescan none (c :: names)

/-! ## The calls -/

/-- `addName`, with the number of names added so far. -/
def addCounted (s : List Text × Nat) (name : Text) : List Text × Nat :=
  (addName s.1 name, if s.1.any (sameName · name) then s.2 else s.2 + 1)

/-- `slurm_addto_char_list`: the list afterwards and the number returned. -/
def slurmAddtoCharList (charList : List Text) (names : Text) : List Text × Nat :=
  (pieces names).foldl addCounted (charList, 0)

/-- `_convert_to_id`; for a name without an id the program exits. -/
def convertToId (number : Text → Option Nat) (name : Text) : Option Text :=
  (number name).map fun id => intText (int32 id)

/-- The id that is stored for a name. -/
def toId (number : Text → Option Nat) (name : Text) : Option Text :=
  if name.head?.any Char.isDigit then some name else convertToId number name

/-- An id that is in the list already is not added. -/
def keepFirst (s : List Text × Nat) (id : Text) : List Text × Nat :=
  if s.1.any (sameName · id) then s else (s.1 ++ [id], s.2 + 1)

/-- One name of `_addto_id_char_list`, which drops an empty one. -/
def addId (number : Text → Option Nat) (s : List Text × Nat) (name : Text) :
    Option (List Text × Nat) :=
  if name = [] then some s else (toId number name).map (keepFirst s)

/-- `_addto_id_char_list`: the list afterwards and the number returned. -/
def addtoIdCharList (number : Text → Option Nat) (charList : List Text) (names : Text) :
    Option (List Text × Nat) :=
  (pieces names).foldlM (addId number) (charList, 0)

/-- A call on the option string: for names, or for ids of groups or users. -/
inductive Call where
  | char
  | id (gid : Bool)
deriving DecidableEq

/-- The list and the option string after a call. -/
def call (number : Bool → Text → Option Nat) (s : List Text × Text) : Call →
    Option (List Text × Text)
  | .char => some ((slurmAddtoCharList s.1 s.2).1, namesAfter s.2)
  | .id gid => (addtoIdCharList (number gid) s.1 s.2).map fun r => (r.1, namesAfter s.2)

/-! ## Properties of option strings -/

/-- An unwanted character right after a comma at which the scanner cuts. -/
def badAfterCut (bad : Char → Bool) (quoteC : Option Char) : Text → Bool
  | [] => false
  | c :: names =>
    if quoteC = some c then false
    else if c = ',' then
      match names with
      | [] => false
      | c' :: names => bad c' || badAfterCut bad quoteC names
    else badAfterCut bad quoteC names

/-- Whether a text ends within an escape, from its start or from within one. -/
def openEscape (odd : Bool) : Text → Bool
  | [] => odd
  | c :: name => openEscape (c = '\\' && !odd) name

/-- An odd number of backslashes right before a cut or before the end of the names. -/
def escapeBeforeCut (quoteC : Option Char) (odd : Bool) : Text → Bool
  | [] => odd
  | c :: names =>
    if quoteC = some c then odd
    else if c = ',' then
      odd || match names with
        | [] => false
        | c' :: names => escapeBeforeCut quoteC (c' = '\\') names
    else escapeBeforeCut quoteC (c = '\\' && !odd) names

/-- After the opening quote, if there is one, no cut is next to a quote or an odd number of
backslashes. -/
def CleanCuts : Text → Prop
  | [] => True
  | c :: names =>
    if isQuote c then
      badAfterCut isQuote (some c) names = false ∧ escapeBeforeCut (some c) false names = false
    else
      badAfterCut isQuote none (c :: names) = false ∧
        escapeBeforeCut none false (c :: names) = false

/-- No quote is stored in the element, and between quotes it stays inside. -/
structure Safe (e : Text) : Prop where
  noQuote : ∀ c ∈ e, isQuote c = false
  inside : Inside e

/-- The non-empty tokens of a string split at its commas. -/
def tokens (names : Text) : List Text := (names.splitOn ',').filter (· ≠ [])

/-- Values are equal when their letters are. -/
local instance lawfulBEq_value : LawfulBEq (List Char) := inferInstance

/-- The distinct values, ignoring case, that are not in the list. -/
def fresh (charList values : List Text) : List Text :=
  (values.map makeLower).dedup.filter (· ∉ charList.map makeLower)

/-- The list holds what it held and the new values, ignoring case, and the count is theirs. -/
structure Added (charList values after : List Text) (count : Nat) : Prop where
  perm : (after.map makeLower).Perm (charList.map makeLower ++ fresh charList values)
  noComma : (∀ e ∈ charList, ',' ∉ e) → ∀ e ∈ after, ',' ∉ e
  count_eq : charList.length + count = after.length

/-! ## What the scanner cuts -/

section Scan

variable {quoteC : Option Char} {c : Char} {name names : Text} {bad : Char → Bool}

theorem isQuote_backtick : isQuote '`' = false := by decide

theorem isQuote_comma : isQuote ',' = false := by decide

/-- A second call cuts the changed string as the first one cut the string. -/
theorem scan_rescan (hq : ∀ q, quoteC = some q → isQuote q = true) (names name : Text) :
    scan quoteC (rescan quoteC names) name = scan quoteC names name := by
  have hback : quoteC ≠ some '`' := by
    intro h
    have := hq _ h
    rw [isQuote_backtick] at this
    exact Bool.false_ne_true this
  fun_induction rescan quoteC names generalizing name with
  | case1 => rfl
  | case2 => rfl
  | case3 c names hend hquote ih =>
    rw [scan_quote hend hquote, scan_other hback (by decide) (by decide)]
    exact ih _
  | case4 => rfl
  | case5 c' names hend hquote ih => rw [scan_cut hend, scan_cut hend, ih]
  | case6 c names hend hquote hcomma ih =>
    rw [scan_other hend hquote hcomma, scan_other hend hquote hcomma]
    exact ih _

theorem pieces_namesAfter (names : Text) : pieces (namesAfter names) = pieces names := by
  cases names with
  | nil => rfl
  | cons c names =>
    by_cases hc : isQuote c = true
    · have hq : ∀ q, some c = some q → isQuote q = true := fun q h => Option.some.inj h ▸ hc
      rw [namesAfter, if_pos hc, pieces, pieces, if_pos hc, if_pos hc, scan_rescan hq]
    · have hfirst : ∃ rest, rescan none (c :: names) = c :: rest := by
        rw [rescan.eq_def]
        dsimp only
        rw [if_neg (by simp), if_neg hc]
        split
        · cases names with
          | nil => exact ⟨_, rfl⟩
          | cons d names => exact ⟨_, rfl⟩
        · exact ⟨_, rfl⟩
      obtain ⟨rest, hrest⟩ := hfirst
      rw [namesAfter, if_neg hc, pieces, if_neg hc, hrest, pieces, if_neg hc, ← hrest,
        scan_rescan (by simp)]

theorem badAfterCut_end (hend : quoteC = some c) : badAfterCut bad quoteC (c :: names) = false := by
  rw [badAfterCut.eq_def]
  exact if_pos hend

theorem badAfterCut_cut {c' : Char} (hend : quoteC ≠ some ',') :
    badAfterCut bad quoteC (',' :: c' :: names) = (bad c' || badAfterCut bad quoteC names) := by
  rw [badAfterCut.eq_def]
  exact if_neg hend

theorem badAfterCut_other (hend : quoteC ≠ some c) (hcomma : c ≠ ',') :
    badAfterCut bad quoteC (c :: names) = badAfterCut bad quoteC names := by
  rw [badAfterCut.eq_def]
  exact (if_neg hend).trans (if_neg hcomma)

theorem good_append {d : Char} (hd : bad d = false) :
    (∀ e ∈ name ++ [d], bad e = false) ↔ ∀ e ∈ name, bad e = false := by
  constructor
  · exact fun h e he => h e (List.mem_append_left _ he)
  · intro h e he
    obtain he | he := List.mem_append.mp he
    · exact h e he
    · rw [List.mem_singleton.mp he]
      exact hd

/-- Quotes and commas reach the names of the scanner only right after a cut. -/
theorem scan_badAfterCut_iff (hbad : ∀ d, bad d = true → isQuote d = true ∨ d = ',') :
    (∀ p ∈ scan quoteC names name, ∀ d ∈ p, bad d = false) ↔
      (∀ d ∈ name, bad d = false) ∧ badAfterCut bad quoteC names = false := by
  fun_induction scan quoteC names name with
  | case1 name => simp [badAfterCut]
  | case2 c names name hend => simp [badAfterCut_end hend]
  | case3 c names name hend hquote ih =>
    have hback : bad '`' = false := by
      refine Bool.eq_false_iff.mpr fun h => ?_
      exact absurd (hbad _ h) (by decide)
    have hcomma : c ≠ ',' := fun h => by rw [h, isQuote_comma] at hquote; cases hquote
    rw [ih, good_append hback, badAfterCut_other hend hcomma]
  | case4 name hend => simp [badAfterCut.eq_def, hend]
  | case5 name c' names hend hquote ih =>
    rw [List.forall_mem_cons, ih, badAfterCut_cut hend, Bool.or_eq_false_iff]
    simp only [List.mem_singleton, forall_eq]
  | case6 c names name hend hquote hcomma ih =>
    have hc : bad c = false := by
      refine Bool.eq_false_iff.mpr fun h => ?_
      exact (hbad c h).elim hquote hcomma
    rw [ih, good_append hc, badAfterCut_other hend hcomma]

theorem openEscape_append (odd : Bool) (name : Text) (c : Char) :
    openEscape odd (name ++ [c]) = (decide (c = '\\') && !openEscape odd name) := by
  induction name generalizing odd with
  | nil => rfl
  | cons d name ih => exact ih _

theorem escapeBeforeCut_cut {odd : Bool} {c' : Char} (hend : quoteC ≠ some ',') :
    escapeBeforeCut quoteC odd (',' :: c' :: names) =
      (odd || escapeBeforeCut quoteC (c' = '\\') names) := by
  rw [escapeBeforeCut.eq_def]
  exact if_neg hend

theorem escapeBeforeCut_other {odd : Bool} (hend : quoteC ≠ some c) (hcomma : c ≠ ',') :
    escapeBeforeCut quoteC odd (c :: names) =
      escapeBeforeCut quoteC (c = '\\' && !odd) names := by
  rw [escapeBeforeCut.eq_def]
  exact (if_neg hend).trans (if_neg hcomma)

theorem openEscape_scan_iff :
    (∀ p ∈ scan quoteC names name, openEscape false p = false) ↔
      escapeBeforeCut quoteC (openEscape false name) names = false := by
  fun_induction scan quoteC names name with
  | case1 name => simp [escapeBeforeCut]
  | case2 c names name hend => simp [escapeBeforeCut.eq_def, hend]
  | case3 c names name hend hquote ih =>
    have hcomma : c ≠ ',' := fun h => by rw [h, isQuote_comma] at hquote; cases hquote
    have hback : c ≠ '\\' := fun h => by rw [h] at hquote; revert hquote; decide
    rw [ih, openEscape_append, escapeBeforeCut_other hend hcomma, decide_eq_false hback]
    rfl
  | case4 name hend => simp [escapeBeforeCut.eq_def, hend, openEscape]
  | case5 name c' names hend hquote ih =>
    rw [List.forall_mem_cons, ih, escapeBeforeCut_cut hend, Bool.or_eq_false_iff]
    simp [openEscape]
  | case6 c names name hend hquote hcomma ih =>
    rw [ih, openEscape_append, escapeBeforeCut_other hend hcomma]

/-- The cuts are clean exactly when no name has a quote or ends within an escape. -/
theorem cleanCuts_iff (names : Text) :
    CleanCuts names ↔
      ∀ p ∈ pieces names, (∀ d ∈ p, isQuote d = false) ∧ openEscape false p = false := by
  have hboth : ∀ quoteC names, (badAfterCut isQuote quoteC names = false ∧
      escapeBeforeCut quoteC false names = false) ↔ ∀ p ∈ scan quoteC names [],
        (∀ d ∈ p, isQuote d = false) ∧ openEscape false p = false := by
    intro quoteC names
    have hquote := @scan_badAfterCut_iff quoteC [] names isQuote fun d => Or.inl
    have hescape := @openEscape_scan_iff quoteC [] names
    constructor
    · rintro ⟨h1, h2⟩ p hp
      exact ⟨hquote.mpr ⟨by simp, h1⟩ p hp, hescape.mpr h2 p hp⟩
    · intro h
      exact ⟨(hquote.mp fun p hp => (h p hp).1).2, hescape.mp fun p hp => (h p hp).2⟩
  cases names with
  | nil => simp [CleanCuts, pieces, openEscape]
  | cons c names =>
    unfold CleanCuts pieces
    dsimp only
    split
    · exact hboth _ _
    · exact hboth _ _

end Scan

/-! ## Safe elements -/

section SafeElements

variable {e : Text} {c : Char}

theorem isQuote_toLower (c : Char) : isQuote c.toLower = isQuote c := by
  have h1 : c.toLower = '"' ↔ c = '"' := toLower_eq_iff (by decide)
  have h2 : c.toLower = '\'' ↔ c = '\'' := toLower_eq_iff (by decide)
  simp only [isQuote, h1, h2]

theorem openEscape_makeLower (odd : Bool) (e : Text) :
    openEscape odd (makeLower e) = openEscape odd e := by
  induction e generalizing odd with
  | nil => rfl
  | cons c e ih =>
    have h : c.toLower = '\\' ↔ c = '\\' := toLower_eq_iff (by decide)
    have hcons : makeLower (c :: e) = c.toLower :: makeLower e := rfl
    rw [hcons, openEscape, openEscape, ih]
    simp only [h]

/-- An element without quotes is safe unless it ends within an escape. -/
theorem within_iff {odd : Bool} (h : ∀ c ∈ e, isQuote c = false) :
    Within odd e ↔ openEscape odd e = false := by
  induction e generalizing odd with
  | nil => rfl
  | cons c e ih =>
    have hc : c ≠ '\'' := fun hc => by
      have := h c List.mem_cons_self
      rw [hc] at this
      revert this
      decide
    have he : ∀ d ∈ e, isQuote d = false := fun d hd => h d (List.mem_cons_of_mem _ hd)
    cases odd with
    | true =>
      rw [Within, ih he, openEscape, Bool.not_true, Bool.and_false]
    | false =>
      rw [Within, openEscape, Bool.not_false, Bool.and_true]
      by_cases hback : c = '\\'
      · rw [if_pos (Or.inl hback), ih he, decide_eq_true hback]
      · rw [if_neg, ih he, decide_eq_false hback]
        · exact and_iff_right hc
        · rintro (h | ⟨h, -⟩)
          · exact hback h
          · exact hc h

theorem safe_iff (e : Text) :
    Safe e ↔ (∀ c ∈ e, isQuote c = false) ∧ openEscape false e = false := by
  constructor
  · exact fun h => ⟨h.noQuote, (within_iff h.noQuote).mp h.inside⟩
  · exact fun h => ⟨h.1, (within_iff h.1).mpr h.2⟩

theorem safe_makeLower_iff (e : Text) : Safe (makeLower e) ↔ Safe e := by
  rw [safe_iff, safe_iff, openEscape_makeLower]
  unfold makeLower
  simp only [List.forall_mem_map, isQuote_toLower]

/-- The cuts of a string are clean exactly when its names are safe. -/
theorem cleanCuts_iff_safe (names : Text) : CleanCuts names ↔ ∀ p ∈ pieces names, Safe p := by
  simp only [cleanCuts_iff, safe_iff]

theorem safe_of_plain (h : ∀ c ∈ e, isQuote c = false ∧ c ≠ '\\') : Safe e := by
  refine (safe_iff e).mpr ⟨fun c hc => (h c hc).1, ?_⟩
  induction e with
  | nil => rfl
  | cons c e ih =>
    rw [openEscape, decide_eq_false (h c List.mem_cons_self).2, Bool.false_and]
    exact ih fun d hd => h d (List.mem_cons_of_mem _ hd)

theorem safe_intText (n : Int) : Safe (intText n) := by
  refine safe_of_plain fun c hc => ?_
  obtain hdigit | hsign := numChar_intText hc
  · constructor
    · refine Bool.eq_false_iff.mpr fun hquote => ?_
      rw [isQuote, Bool.or_eq_true, decide_eq_true_eq, decide_eq_true_eq] at hquote
      obtain rfl | rfl := hquote
      · revert hdigit; decide
      · revert hdigit; decide
    · rintro rfl
      revert hdigit
      decide
  · have hall : "-.KMGP?".toList.all (fun c => !isQuote c && c != '\\') = true := by decide
    have := List.all_eq_true.mp hall c hsign
    rw [Bool.and_eq_true, Bool.not_eq_true', bne_iff_ne] at this
    exact this

end SafeElements

/-! ## Elements of the lists -/

section Elements

variable {l : List Text} {n e : Text} {ns : List Text}

theorem foldl_addCounted (s : List Text × Nat) (ns : List Text) :
    (ns.foldl addCounted s).1 = ns.foldl addName s.1 := by
  induction ns generalizing s with
  | nil => rfl
  | cons n ns ih => exact ih _

theorem mem_addName_last (l : List Text) (n : Text) : makeLower n ∈ addName l n :=
  List.mem_append_right _ (List.mem_singleton_self _)

/-- A name in lower case stays in the list: it goes only to come back. -/
theorem mem_addName_of_mem (m : Text) (h : makeLower n ∈ l) : makeLower n ∈ addName l m := by
  by_cases hsame : sameName (makeLower n) m = true
  · have heq : makeLower n = makeLower m := by
      unfold sameName at hsame
      rw [makeLower_makeLower] at hsame
      exact of_decide_eq_true hsame
    rw [heq]
    exact mem_addName_last l m
  · have hstays := List.mem_eraseP_of_neg (p := (sameName · m)) (l := l) hsame
    exact List.mem_append_left _ (hstays.mpr h)

theorem mem_foldl_addName (h : n ∈ ns) : makeLower n ∈ ns.foldl addName l := by
  have hkeep : ∀ (ns l : List Text), makeLower n ∈ l → makeLower n ∈ ns.foldl addName l := by
    intro ns
    induction ns with
    | nil => exact fun _ h => h
    | cons m ns ih => exact fun l h => ih _ (mem_addName_of_mem m h)
  induction ns generalizing l with
  | nil => cases h
  | cons m ns ih =>
    obtain rfl | h := List.mem_cons.mp h
    · exact hkeep ns _ (mem_addName_last l n)
    · exact ih h

theorem of_mem_foldl_addName (h : e ∈ ns.foldl addName l) : e ∈ l ∨ ∃ n ∈ ns, e = makeLower n := by
  induction ns generalizing l with
  | nil => exact Or.inl h
  | cons m ns ih =>
    obtain hmem | ⟨n, hn, rfl⟩ := ih h
    · obtain hmem | hmem := List.mem_append.mp hmem
      · exact Or.inl (List.mem_of_mem_eraseP hmem)
      · exact Or.inr ⟨m, List.mem_cons_self, List.mem_singleton.mp hmem⟩
    · exact Or.inr ⟨n, List.mem_cons_of_mem _ hn, rfl⟩

/-- The names of `_addto_id_char_list` one by one: the ids of those that are not empty. -/
theorem foldlM_addId (number : Text → Option Nat) (ns : List Text) (s : List Text × Nat) :
    ns.foldlM (addId number) s =
      ((ns.filter (· ≠ [])).mapM (toId number)).map (·.foldl keepFirst s) := by
  induction ns generalizing s with
  | nil => rfl
  | cons n ns ih =>
    rw [List.foldlM_cons, Option.bind_eq_bind, addId]
    by_cases hn : n = []
    · rw [if_pos hn, Option.bind_some, ih, List.filter_cons_of_neg (by simpa using hn)]
    · rw [if_neg hn, List.filter_cons_of_pos (by simpa using hn), List.mapM_cons,
        Option.bind_eq_bind]
      cases toId number n with
      | none => rfl
      | some id =>
        rw [Option.map_some, Option.bind_some, Option.bind_some, ih]
        cases (ns.filter (· ≠ [])).mapM (toId number) with
        | none => rfl
        | some ids => rfl

theorem of_mem_foldl_keepFirst {s : List Text × Nat} (h : e ∈ (ns.foldl keepFirst s).1) :
    e ∈ s.1 ∨ e ∈ ns := by
  induction ns generalizing s with
  | nil => exact Or.inl h
  | cons m ns ih =>
    obtain hmem | hmem := ih h
    · unfold keepFirst at hmem
      split at hmem
      · exact Or.inl hmem
      · obtain hmem | hmem := List.mem_append.mp hmem
        · exact Or.inl hmem
        · exact Or.inr (List.mem_cons.mpr (Or.inl (List.mem_singleton.mp hmem)))
    · exact Or.inr (List.mem_cons_of_mem _ hmem)

/-- What an id list stores: a number as it was written, or the id of a name. -/
theorem safe_toId {number : Text → Option Nat} (hn : Safe n) (h : toId number n = some e) :
    Safe e := by
  unfold toId at h
  split at h
  · rw [← Option.some.inj h]
    exact hn
  · obtain ⟨id, -, rfl⟩ := Option.map_eq_some_iff.mp h
    exact safe_intText _

/-- A call with safe names keeps a list safe. -/
theorem Safe.call {number : Bool → Text → Option Nat} {s t : List Text × Text} {c : Call}
    (hnames : ∀ p ∈ pieces s.2, Safe p) (hs : ∀ e ∈ s.1, Safe e)
    (h : OptionLists.call number s c = some t) :
    (∀ e ∈ t.1, Safe e) ∧ pieces t.2 = pieces s.2 := by
  cases c with
  | char =>
    obtain rfl := Option.some.inj h
    refine ⟨fun e he => ?_, pieces_namesAfter _⟩
    have hfold : (slurmAddtoCharList s.1 s.2).1 = (pieces s.2).foldl addName s.1 :=
      foldl_addCounted _ _
    rw [hfold] at he
    obtain he | ⟨n, hn, rfl⟩ := of_mem_foldl_addName he
    · exact hs e he
    · exact (safe_makeLower_iff n).mpr (hnames n hn)
  | id gid =>
    obtain ⟨r, hr, rfl⟩ := Option.map_eq_some_iff.mp h
    refine ⟨fun e he => ?_, pieces_namesAfter _⟩
    rw [addtoIdCharList, foldlM_addId] at hr
    obtain ⟨ids, hids, rfl⟩ := Option.map_eq_some_iff.mp hr
    obtain he | he := of_mem_foldl_keepFirst he
    · exact hs e he
    · obtain ⟨n, hn, hid⟩ := of_mem_mapM hids he
      exact safe_toId (hnames n (List.mem_of_mem_filter hn)) hid

end Elements

/-- All elements that calls store are safe exactly when the cuts of the string are clean. -/
theorem elements_safe_iff (number : Bool → Text → Option Nat) (names : Text) :
    (∀ (charList : List Text) (calls : List Call) (t : List Text × Text),
        (∀ e ∈ charList, Safe e) → run (call number) (charList, names) calls = some t →
        ∀ e ∈ t.1, Safe e) ↔
      CleanCuts names := by
  rw [cleanCuts_iff_safe]
  constructor
  · intro h p hp
    refine (safe_makeLower_iff p).mp (h [] [.char] _ (by simp) rfl _ ?_)
    have hfold : (slurmAddtoCharList [] names).1 = (pieces names).foldl addName [] :=
      foldl_addCounted _ _
    rw [hfold]
    exact mem_foldl_addName hp
  · intro hnames charList calls t hcl hrun
    have hstep : ∀ s c s', ((∀ e ∈ s.1, Safe e) ∧ pieces s.2 = pieces names) →
        call number s c = some s' → (∀ e ∈ s'.1, Safe e) ∧ pieces s'.2 = pieces names := by
      rintro s c s' ⟨hs, hp⟩ hcall
      obtain ⟨hs', hp'⟩ := Safe.call (hp ▸ hnames) hs hcall
      exact ⟨hs', hp'.trans hp⟩
    exact (reached hstep ⟨hcl, rfl⟩ hrun).1

/-- The quote after the comma is stored. -/
theorem not_elements_safe :
    ¬∀ (number : Bool → Text → Option Nat) (names : Text) (calls : List Call)
      (t : List Text × Text), run (call number) ([], names) calls = some t →
      ∀ e ∈ t.1, Safe e := by
  intro h
  have hrun : run (call fun _ _ => none) ([], "a,'b".toList) [.char] =
      some (["a".toList, "'b".toList], "a,'b".toList) := by decide +kernel
  have hsafe := h _ _ _ _ hrun "'b".toList (by simp)
  exact absurd (hsafe.noQuote '\'' (by decide)) (by decide)

/-! ## Tokens -/

section Tokens

variable {names name : Text}

/-- Without quotes the scanner loses no character. -/
theorem intercalate_scan {quoteC : Option Char} (hend : ∀ c, quoteC ≠ some c) (name : Text)
    (h : ∀ c ∈ names, isQuote c = false) :
    [','].intercalate (scan quoteC names name) = name ++ names := by
  fun_induction scan quoteC names name with
  | case1 name => simp
  | case2 c names name hc => exact absurd hc (hend c)
  | case3 c names name hc hquote ih =>
    rw [h c List.mem_cons_self] at hquote
    cases hquote
  | case4 name hc => simp
  | case5 name c' names hc hquote ih =>
    have hrest : ∀ d ∈ names, isQuote d = false := fun d hd =>
      h d (List.mem_cons_of_mem _ (List.mem_cons_of_mem _ hd))
    rw [List.intercalate_cons_of_ne_nil (scan_ne_nil _ _ _), ih hrest]
    simp
  | case6 c names name hc hquote hcomma ih =>
    rw [ih fun d hd => h d (List.mem_cons_of_mem _ hd), List.append_assoc, List.singleton_append]

theorem intercalate_pieces (h : ∀ c ∈ names, isQuote c = false) :
    [','].intercalate (pieces names) = names := by
  cases names with
  | nil => rfl
  | cons c names =>
    have hc : ¬isQuote c = true := Bool.eq_false_iff.mp (h c List.mem_cons_self)
    rw [pieces, if_neg hc, intercalate_scan (by simp) [] h, List.nil_append]

/-- Names without commas are those between the commas. -/
theorem pieces_eq_splitOn (h : ∀ c ∈ names, isQuote c = false)
    (hcomma : ∀ p ∈ pieces names, ',' ∉ p) : pieces names = names.splitOn ',' := by
  have hsplit := List.splitOn_intercalate ',' hcomma (pieces_ne_nil names)
  rw [intercalate_pieces h] at hsplit
  exact hsplit.symm

theorem badAfterCut_comma_iff {quoteC : Option Char} (hend : ∀ c, quoteC ≠ some c) :
    badAfterCut (· = ',') quoteC names = true ↔ [',', ','] <:+: names := by
  fun_induction badAfterCut (· = ',') quoteC names with
  | case1 => simp
  | case2 c names hc => exact absurd hc (hend c)
  | case3 hc => exact iff_of_false (by simp) fun h => absurd h.length_le (by decide)
  | case4 c' names hc ih =>
    rw [Bool.or_eq_true, decide_eq_true_eq, ih, List.infix_cons_iff, List.infix_cons_iff]
    constructor
    · rintro (rfl | h)
      · exact Or.inl ⟨names, rfl⟩
      · exact Or.inr (Or.inr h)
    · rintro (h | h | h)
      · exact Or.inl (List.cons_prefix_cons.mp (List.cons_prefix_cons.mp h).2).1.symm
      · exact Or.inl (List.cons_prefix_cons.mp h).1.symm
      · exact Or.inr h
  | case5 c names hc hcomma ih =>
    rw [ih, List.infix_cons_iff]
    refine (or_iff_right fun hpre => ?_).symm
    exact hcomma (List.cons_prefix_cons.mp hpre).1.symm

/-- The names of the scanner have no commas exactly when no two commas are adjacent. -/
theorem noComma_scan_iff :
    (∀ p ∈ scan none names [], ',' ∉ p) ↔ ¬[',', ','] <:+: names := by
  have hscan := @scan_badAfterCut_iff none [] names (· = ',') fun d hd =>
    Or.inr (of_decide_eq_true hd)
  have hiff := @badAfterCut_comma_iff names none (by simp)
  rw [← hiff, Bool.not_eq_true]
  refine Iff.trans ⟨fun hp p hp' d hd => ?_, fun hp p hp' hd => ?_⟩
    (hscan.trans (and_iff_right (by simp)))
  · exact decide_eq_false fun hdc => hp p hp' (hdc ▸ hd)
  · exact of_decide_eq_false (hp p hp' _ hd) rfl

theorem noComma_pieces_iff (h : ∀ c ∈ names, isQuote c = false) :
    (∀ p ∈ pieces names, ',' ∉ p) ↔ ¬[',', ','] <:+: names := by
  cases names with
  | nil => simp [pieces]
  | cons c names =>
    have hc : ¬isQuote c = true := Bool.eq_false_iff.mp (h c List.mem_cons_self)
    rw [pieces, if_neg hc]
    exact noComma_scan_iff

theorem empty_mem_splitOn (h : [',', ','] <:+: names) : [] ∈ names.splitOn ',' := by
  obtain ⟨a, b, rfl⟩ := h
  have hcut : a ++ [',', ','] ++ b = a ++ ',' :: ([] ++ ',' :: b) := by simp
  rw [hcut, List.splitOn_append_cons_self, List.splitOn_append_cons_self, List.splitOn_nil]
  simp

end Tokens

/-! ## New elements -/

/-- A list that has grown by those of the values it did not have. -/
def Grown (old vs now : List Text) (count : Nat) : Prop :=
  ∃ new : List Text, new.Nodup ∧ (∀ n, n ∈ new ↔ n ∈ vs ∧ n ∉ old) ∧ now.Perm (old ++ new) ∧
    count = new.length

section GrownLists

variable {old vs now now' : List Text} {count count' : Nat}

theorem Grown.refl (old : List Text) : Grown old [] old 0 :=
  ⟨[], List.nodup_nil, by simp, by simp, rfl⟩

/-- One more value: the list keeps its elements if it has it, and gets it otherwise. -/
theorem Grown.step (h : Grown old vs now count) {v : Text}
    (hnow : now'.Perm (if v ∈ now then now else now ++ [v]))
    (hcount : count' = if v ∈ now then count else count + 1) :
    Grown old (vs ++ [v]) now' count' := by
  obtain ⟨new, hnodup, hmem, hperm, hlen⟩ := h
  have hin : v ∈ now ↔ v ∈ old ∨ v ∈ new := by
    rw [hperm.mem_iff, List.mem_append]
  by_cases hv : v ∈ now
  · rw [if_pos hv] at hnow hcount
    refine ⟨new, hnodup, fun n => ?_, hnow.trans hperm, hcount.trans hlen⟩
    rw [hmem, List.mem_append, List.mem_singleton]
    constructor
    · exact fun ⟨h1, h2⟩ => ⟨Or.inl h1, h2⟩
    · rintro ⟨h1 | rfl, h2⟩
      · exact ⟨h1, h2⟩
      · exact (hmem n).mp ((hin.mp hv).resolve_left h2)
  · rw [if_neg hv] at hnow hcount
    have hold : v ∉ old := fun h => hv (hin.mpr (Or.inl h))
    have hnew : v ∉ new := fun h => hv (hin.mpr (Or.inr h))
    refine ⟨new ++ [v], ?_, fun n => ?_, ?_, ?_⟩
    · refine List.nodup_append.mpr ⟨hnodup, List.nodup_singleton v, ?_⟩
      rintro a ha b hb rfl
      exact hnew (List.mem_singleton.mp hb ▸ ha)
    · rw [List.mem_append, hmem, List.mem_append, List.mem_singleton]
      constructor
      · rintro (⟨h1, h2⟩ | rfl)
        · exact ⟨Or.inl h1, h2⟩
        · exact ⟨Or.inr rfl, hold⟩
      · rintro ⟨h1 | rfl, h2⟩
        · exact Or.inl ⟨h1, h2⟩
        · exact Or.inr rfl
    · rw [← List.append_assoc]
      exact hnow.trans (hperm.append_right [v])
    · rw [hcount, hlen, List.length_append, List.length_singleton]

/-- A loop whose steps add their values adds all of them. -/
theorem Grown.foldl {f : List Text × Nat → Text → List Text × Nat}
    (hf : ∀ s v, ((f s v).1.map makeLower).Perm (if makeLower v ∈ s.1.map makeLower
        then s.1.map makeLower else s.1.map makeLower ++ [makeLower v]) ∧
      (f s v).2 = if makeLower v ∈ s.1.map makeLower then s.2 else s.2 + 1)
    (ns : List Text) {s : List Text × Nat} (h : Grown old vs (s.1.map makeLower) s.2) :
    Grown old (vs ++ ns.map makeLower) ((ns.foldl f s).1.map makeLower) (ns.foldl f s).2 := by
  induction ns generalizing s vs with
  | nil => rwa [List.map_nil, List.append_nil]
  | cons n ns ih =>
    have hrest := ih (h.step (hf s n).1 (hf s n).2)
    rwa [List.append_assoc, List.singleton_append] at hrest

theorem any_sameName (l : List Text) (n : Text) :
    l.any (sameName · n) = true ↔ makeLower n ∈ l.map makeLower := by
  simp only [List.any_eq_true, sameName, decide_eq_true_eq, List.mem_map]

theorem grown_addCounted (s : List Text × Nat) (v : Text) :
    ((addCounted s v).1.map makeLower).Perm (if makeLower v ∈ s.1.map makeLower
        then s.1.map makeLower else s.1.map makeLower ++ [makeLower v]) ∧
      (addCounted s v).2 = if makeLower v ∈ s.1.map makeLower then s.2 else s.2 + 1 := by
  have herase : (s.1.eraseP (sameName · v)).map makeLower =
      (s.1.map makeLower).erase (makeLower v) := by
    have hsame : (sameName · v) = (· == makeLower v) ∘ makeLower := by
      funext n
      rw [Function.comp_apply, Bool.eq_iff_iff, sameName, decide_eq_true_eq, beq_iff_eq]
    rw [List.erase_eq_eraseP', List.eraseP_map, hsame]
  have hmap : (addCounted s v).1.map makeLower =
      (s.1.map makeLower).erase (makeLower v) ++ [makeLower v] := by
    show (s.1.eraseP (sameName · v) ++ [makeLower v]).map makeLower = _
    rw [List.map_append, herase, List.map_singleton, makeLower_makeLower]
  refine ⟨?_, ?_⟩
  · rw [hmap]
    split
    · rename_i hmem
      exact (List.perm_append_singleton _ _).trans (List.perm_cons_erase hmem).symm
    · rename_i hmem
      rw [List.erase_of_not_mem hmem]
  · show (if s.1.any (sameName · v) = true then s.2 else s.2 + 1) = _
    simp only [any_sameName]

theorem grown_keepFirst (s : List Text × Nat) (v : Text) :
    ((keepFirst s v).1.map makeLower).Perm (if makeLower v ∈ s.1.map makeLower
        then s.1.map makeLower else s.1.map makeLower ++ [makeLower v]) ∧
      (keepFirst s v).2 = if makeLower v ∈ s.1.map makeLower then s.2 else s.2 + 1 := by
  unfold keepFirst
  simp only [any_sameName]
  split
  · exact ⟨List.Perm.refl _, rfl⟩
  · rw [List.map_append, List.map_singleton]
    exact ⟨List.Perm.refl _, rfl⟩

/-- What a loop has added, as the claim of a call counts it. -/
theorem Grown.added {charList values after : List Text}
    (h : Grown (charList.map makeLower) (values.map makeLower) (after.map makeLower) count)
    (hcomma : (∀ e ∈ charList, ',' ∉ e) → ∀ e ∈ after, ',' ∉ e) :
    Added charList values after count := by
  obtain ⟨new, hnodup, hmem, hperm, hlen⟩ := h
  have hfresh : new.Perm (fresh charList values) := by
    refine (List.perm_ext_iff_of_nodup hnodup ((List.nodup_dedup _).filter _)).mpr fun n => ?_
    rw [hmem, List.mem_filter, List.mem_dedup, decide_eq_true_eq]
  refine ⟨hperm.trans (hfresh.append_left _), hcomma, ?_⟩
  have := hperm.length_eq
  rw [List.length_append, List.length_map, List.length_map] at this
  rw [hlen, this]

end GrownLists

section Calls

variable {names : Text}

theorem comma_makeLower (e : Text) : ',' ∈ makeLower e ↔ ',' ∈ e := by
  have hcomma : ∀ c : Char, c.toLower = ',' ↔ c = ',' := fun c => toLower_eq_iff (by decide)
  unfold makeLower
  simp only [List.mem_map, hcomma, exists_eq_right]

/-- `slurm_addto_char_list` adds what the scanner cuts. -/
theorem grown_slurmAddtoCharList (charList : List Text) (names : Text) :
    Grown (charList.map makeLower) ((pieces names).map makeLower)
      ((slurmAddtoCharList charList names).1.map makeLower)
      (slurmAddtoCharList charList names).2 := by
  have h := Grown.foldl grown_addCounted (pieces names) (s := (charList, 0)) (Grown.refl _)
  rwa [List.nil_append] at h

theorem mem_slurmAddtoCharList {charList : List Text} {p : Text} (hp : p ∈ pieces names) :
    makeLower p ∈ (slurmAddtoCharList charList names).1 := by
  have hfold : (slurmAddtoCharList charList names).1 = (pieces names).foldl addName charList :=
    foldl_addCounted _ _
  rw [hfold]
  exact mem_foldl_addName hp

/-- With no empty token the tokens of the string are added, and only with none. -/
theorem charList_added_iff (hq : ∀ c ∈ names, isQuote c = false) :
    (∀ charList, Added charList (tokens names) (slurmAddtoCharList charList names).1
      (slurmAddtoCharList charList names).2) ↔ [] ∉ names.splitOn ',' := by
  constructor
  · intro h hempty
    have hadded := h []
    have hcomma : ∀ p ∈ pieces names, ',' ∉ p := by
      intro p hp hmem
      refine hadded.noComma (by simp) _ (mem_slurmAddtoCharList hp) ?_
      exact (comma_makeLower p).mpr hmem
    rw [← pieces_eq_splitOn hq hcomma] at hempty
    have hmem : makeLower (makeLower []) ∈ fresh [] (tokens names) := by
      have hperm := hadded.perm.mem_iff (a := makeLower (makeLower []))
      rw [List.map_nil, List.nil_append] at hperm
      exact hperm.mp (List.mem_map_of_mem (mem_slurmAddtoCharList hempty))
    obtain ⟨t, ht, hnil⟩ := List.mem_map.mp (List.mem_dedup.mp (List.mem_filter.mp hmem).1)
    have ht' : t = [] := List.map_eq_nil_iff.mp hnil
    rw [tokens, List.mem_filter, ht'] at ht
    simp at ht
  · intro hempty charList
    have hcomma := (noComma_pieces_iff hq).mpr fun h => hempty (empty_mem_splitOn h)
    have hpieces := pieces_eq_splitOn hq hcomma
    have htokens : tokens names = pieces names := by
      rw [tokens, ← hpieces]
      refine List.filter_eq_self.mpr fun p hp => decide_eq_true ?_
      rintro rfl
      exact hempty (hpieces ▸ hp)
    rw [htokens]
    refine (grown_slurmAddtoCharList charList names).added fun hcl e he => ?_
    have hfold : (slurmAddtoCharList charList names).1 = (pieces names).foldl addName charList :=
      foldl_addCounted _ _
    rw [hfold] at he
    obtain he | ⟨p, hp, rfl⟩ := of_mem_foldl_addName he
    · exact hcl e he
    · exact fun h => hcomma p hp ((comma_makeLower p).mp h)

/-- `_addto_id_char_list` adds the ids of the names that are not empty. -/
theorem addtoIdCharList_eq (number : Text → Option Nat) (charList : List Text) (names : Text) :
    addtoIdCharList number charList names =
      (((pieces names).filter (· ≠ [])).mapM (toId number)).map
        (·.foldl keepFirst (charList, 0)) := foldlM_addId number _ _

theorem noComma_toId {number : Text → Option Nat} {n e : Text} (hn : ',' ∉ n)
    (h : toId number n = some e) : ',' ∉ e := by
  unfold toId at h
  split at h
  · rwa [← Option.some.inj h]
  · obtain ⟨id, -, rfl⟩ := Option.map_eq_some_iff.mp h
    intro hmem
    obtain hdigit | hsign := numChar_intText hmem
    · exact absurd hdigit (by decide)
    · exact absurd hsign (by decide)

theorem mem_foldl_keepFirst {charList ids : List Text} {id : Text} (h : id ∈ ids) :
    makeLower id ∈ (ids.foldl keepFirst (charList, 0)).1.map makeLower := by
  have hgrown := Grown.foldl grown_keepFirst ids (s := (charList, 0)) (Grown.refl _)
  rw [List.nil_append] at hgrown
  obtain ⟨new, -, hmem, hperm, -⟩ := hgrown
  rw [hperm.mem_iff, List.mem_append, hmem]
  by_cases hold : makeLower id ∈ charList.map makeLower
  · exact Or.inl hold
  · exact Or.inr ⟨List.mem_map_of_mem h, hold⟩

theorem noComma_splitOn {t : Text} (h : t ∈ names.splitOn ',') : ',' ∉ t := by
  induction names generalizing t with
  | nil =>
    rw [List.splitOn_nil, List.mem_singleton] at h
    rw [h]
    exact List.not_mem_nil
  | cons c names ih =>
    rw [List.splitOn_cons_eq_if_modifyHead] at h
    split at h
    · obtain rfl | h := List.mem_cons.mp h
      · exact List.not_mem_nil
      · exact ih h
    · rename_i hc
      obtain ⟨first, rest, hsplit⟩ := List.exists_cons_of_ne_nil (List.splitOn_ne_nil ',' names)
      rw [hsplit, List.modifyHead_cons] at h
      rw [hsplit] at ih
      obtain rfl | h := List.mem_cons.mp h
      · intro hmem
        obtain rfl | hmem := List.mem_cons.mp hmem
        · exact hc (beq_self_eq_true _)
        · exact ih List.mem_cons_self hmem
      · exact ih (List.mem_cons_of_mem _ h)

/-- With no two commas together the ids of the tokens are added, and only with none. -/
theorem idList_added_iff (hq : ∀ c ∈ names, isQuote c = false) :
    (∀ number charList values, (tokens names).mapM (toId number) = some values →
      ∃ r, addtoIdCharList number charList names = some r ∧ Added charList values r.1 r.2) ↔
      ¬[',', ','] <:+: names := by
  rw [← noComma_pieces_iff hq]
  constructor
  · intro h p hp hcomma
    -- names with commas have no id, all others have
    let number : Text → Option Nat := fun name => if ',' ∈ name then none else some 0
    have htoken : ∀ t ∈ tokens names, ∃ id, toId number t = some id := by
      intro t ht
      have ht' : ',' ∉ t := noComma_splitOn (List.mem_of_mem_filter ht)
      unfold toId
      split
      · exact ⟨t, rfl⟩
      · exact ⟨intText (int32 0), by simp [convertToId, number, ht']⟩
    obtain ⟨values, hvalues⟩ := exists_mapM htoken
    obtain ⟨r, hr, hadded⟩ := h number [] values hvalues
    rw [addtoIdCharList_eq] at hr
    obtain ⟨ids, hids, rfl⟩ := Option.map_eq_some_iff.mp hr
    have hne : p ≠ [] := List.ne_nil_of_mem hcomma
    have hmem : p ∈ (pieces names).filter (· ≠ []) := List.mem_filter.mpr ⟨hp, decide_eq_true hne⟩
    obtain ⟨id, hid, hpid⟩ := mem_mapM hids hmem
    have hself : id = p := by
      unfold toId at hpid
      split at hpid
      · exact (Option.some.inj hpid).symm
      · simp [convertToId, number, hcomma] at hpid
    obtain ⟨e, he, hlower⟩ := List.mem_map.mp (@mem_foldl_keepFirst [] _ _ hid)
    refine hadded.noComma (by simp) e he ?_
    rw [← comma_makeLower, hlower, hself]
    exact (comma_makeLower p).mpr hcomma
  · intro hcomma number charList values hvalues
    have hpieces := pieces_eq_splitOn hq hcomma
    have htokens : (pieces names).filter (· ≠ []) = tokens names := by rw [hpieces, tokens]
    refine ⟨values.foldl keepFirst (charList, 0), ?_, ?_⟩
    · rw [addtoIdCharList_eq, htokens, hvalues]
      rfl
    · have hgrown := Grown.foldl grown_keepFirst values (s := (charList, 0)) (Grown.refl _)
      rw [List.nil_append] at hgrown
      refine hgrown.added fun hcl e he => ?_
      obtain he | he := of_mem_foldl_keepFirst he
      · exact hcl e he
      · obtain ⟨t, ht, hid⟩ := of_mem_mapM hvalues he
        refine noComma_toId (hcomma t ?_) hid
        rw [← htokens] at ht
        exact List.mem_of_mem_filter ht

end Calls

/-- From a string without quotes both lists get its tokens, each where the string has no
empty token that this list would see. -/
theorem lists_added_iff {names : Text} (hq : ∀ c ∈ names, isQuote c = false) :
    ((∀ charList, Added charList (tokens names) (slurmAddtoCharList charList names).1
        (slurmAddtoCharList charList names).2) ↔ [] ∉ names.splitOn ',') ∧
      ((∀ number charList values, (tokens names).mapM (toId number) = some values →
        ∃ r, addtoIdCharList number charList names = some r ∧ Added charList values r.1 r.2) ↔
        ¬[',', ','] <:+: names) :=
  ⟨charList_added_iff hq, idList_added_iff hq⟩

theorem lists_added_ab :
    ((∀ charList, Added charList (tokens "A,b".toList) (slurmAddtoCharList charList "A,b".toList).1
        (slurmAddtoCharList charList "A,b".toList).2) ↔ [] ∉ "A,b".toList.splitOn ',') ∧
      ((∀ number charList values, (tokens "A,b".toList).mapM (toId number) = some values →
        ∃ r, addtoIdCharList number charList "A,b".toList = some r ∧
          Added charList values r.1 r.2) ↔ ¬[',', ','] <:+: "A,b".toList) := by
  refine lists_added_iff fun c hc => ?_
  have hall : "A,b".toList.all (fun c => !isQuote c) = true := by decide
  exact (Bool.not_eq_true' _).mp (List.all_eq_true.mp hall c hc)

/-- An element with a comma is stored where two commas stand together. -/
theorem not_lists_added :
    ¬∀ (charList : List Text) (names : Text), (∀ c ∈ names, isQuote c = false) →
      Added charList (tokens names) (slurmAddtoCharList charList names).1
        (slurmAddtoCharList charList names).2 := by
  intro h
  have hall : "a,,b".toList.all (fun c => !isQuote c) = true := by decide
  have hadded := h [] "a,,b".toList fun c hc =>
    (Bool.not_eq_true' _).mp (List.all_eq_true.mp hall c hc)
  have hafter : slurmAddtoCharList [] "a,,b".toList = (["a".toList, ",b".toList], 2) := by
    decide +kernel
  rw [hafter] at hadded
  exact hadded.noComma (by simp) ",b".toList (by simp) (by decide)

end Slurm.OptionLists
