import Mathlib

/-!
# Lists of names cut from option strings

`slurm_addto_char_list` cuts a string at its commas and appends the names to a
list, in lower case. A name that is in the list already moves to its end.

* **The scanner** (`scan`): quotes become backticks, except that the character
  after a separating comma is taken over as it is.
* **The list** (`addName`, `addtoCharList`): no name is there twice.
* **Joined texts** (`Plain`, `joined`): a text that names without commas and
  quotes were joined to is cut into these names again (`pieces_joined`).
-/

namespace Slurm.CharList

/-- A name, or a text of names. -/
abbrev Text := List Char

def isQuote (c : Char) : Bool := c = '"' || c = '\''

/-- The loop of the scanner, with the quote that ends the string and the part of a name read. -/
def scan (quoteC : Option Char) : Text → Text → List Text
  | [], name => [name]
  | c :: names, name =>
    if quoteC = some c then [name]
    else if isQuote c then scan quoteC names (name ++ ['`'])
    else if c = ',' then
      match names with
      | [] => [name, []]
      -- `i++` at the comma and again at the end of the loop
      | c' :: names => name :: scan quoteC names [c']
    else scan quoteC names (name ++ [c])

/-- The names that a string is cut into. -/
def pieces : Text → List Text
  | [] => [[]]
  | c :: names => if isQuote c then scan (some c) names [] else scan none (c :: names) []

/-- `_make_lower`. -/
def makeLower (change : Text) : Text := change.map Char.toLower

/-- `!strcasecmp`. -/
def sameName (tmpChar name : Text) : Bool := makeLower tmpChar = makeLower name

/-- One name: the first one like it is removed and this one tacked on the end. -/
def addName (charList : List Text) (name : Text) : List Text :=
  charList.eraseP (sameName · name) ++ [makeLower name]

/-- `slurm_addto_char_list`. -/
def addtoCharList (charList : List Text) (names : Text) : List Text :=
  (pieces names).foldl addName charList

theorem scan_ne_nil (quoteC : Option Char) (names name : Text) : scan quoteC names name ≠ [] := by
  fun_induction scan quoteC names name with
  | case1 | case2 | case4 | case5 => exact List.cons_ne_nil _ _
  | case3 c names name hend hquote ih => exact ih
  | case6 c names name hend hquote hcomma ih => exact ih

theorem pieces_ne_nil (names : Text) : pieces names ≠ [] := by
  unfold pieces
  split
  · exact List.cons_ne_nil _ _
  · split
    · exact scan_ne_nil _ _ _
    · exact scan_ne_nil _ _ _

/-- Even an empty string gives one name. -/
theorem addtoCharList_ne_nil (charList : List Text) (names : Text) :
    addtoCharList charList names ≠ [] := by
  have hlast := List.dropLast_append_getLast (pieces_ne_nil names)
  unfold addtoCharList
  rw [← hlast, List.foldl_append]
  exact List.append_ne_nil_of_right_ne_nil _ (List.cons_ne_nil _ _)

/-! ## Names without separators -/

/-- A character that is part of a name wherever it stands. -/
def plainChar (c : Char) : Bool := !isQuote c && c != ','

/-- A name without commas and quotes. -/
def Plain (name : Text) : Prop := name ≠ [] ∧ ∀ c ∈ name, plainChar c = true

/-- Names with a comma before each. -/
def joined (names : List Text) : Text := names.flatMap (',' :: ·)

section Scan

variable {c : Char} {name names : Text}

theorem isQuote_of_plain (h : plainChar c = true) : isQuote c = false := by
  unfold plainChar at h
  rw [Bool.and_eq_true, Bool.not_eq_true'] at h
  exact h.1

theorem scan_quote {quoteC : Option Char} (hend : quoteC ≠ some c) (hc : isQuote c = true) :
    scan quoteC (c :: names) name = scan quoteC names (name ++ ['`']) := by
  rw [scan.eq_def]
  exact (if_neg hend).trans (if_pos hc)

theorem scan_cut {quoteC : Option Char} {c' : Char} (hend : quoteC ≠ some ',') :
    scan quoteC (',' :: c' :: names) name = name :: scan quoteC names [c'] := by
  rw [scan.eq_def]
  exact if_neg hend

theorem scan_other {quoteC : Option Char} (hend : quoteC ≠ some c) (hc : ¬isQuote c = true)
    (hcomma : c ≠ ',') : scan quoteC (c :: names) name = scan quoteC names (name ++ [c]) := by
  rw [scan.eq_def]
  exact (if_neg hend).trans ((if_neg hc).trans (if_neg hcomma))

theorem scan_plain (h : plainChar c = true) :
    scan none (c :: names) name = scan none names (name ++ [c]) := by
  have hcomma : c ≠ ',' := by
    unfold plainChar at h
    rw [Bool.and_eq_true, bne_iff_ne] at h
    exact h.2
  exact scan_other (by simp) (Bool.eq_false_iff.mp (isQuote_of_plain h)) hcomma

theorem scan_append {rest : Text} (h : ∀ c ∈ rest, plainChar c = true) :
    scan none (rest ++ names) name = scan none names (name ++ rest) := by
  induction rest generalizing name with
  | nil => rw [List.nil_append, List.append_nil]
  | cons c rest ih =>
    rw [List.cons_append, scan_plain (h c List.mem_cons_self),
      ih fun d hd => h d (List.mem_cons_of_mem _ hd), List.append_assoc, List.singleton_append]

theorem scan_joined {list : List Text} (hl : ∀ n ∈ list, Plain n) :
    scan none (joined list) name = name :: list := by
  induction list generalizing name with
  | nil => rfl
  | cons n list ih =>
    obtain ⟨hne, hplain⟩ := hl n List.mem_cons_self
    cases n with
    | nil => exact absurd rfl hne
    | cons c rest =>
      have hrest : ∀ d ∈ rest, plainChar d = true := fun d hd =>
          hplain d (List.mem_cons_of_mem _ hd)
      have hcut : scan none (joined ((c :: rest) :: list)) name =
          name :: scan none (rest ++ joined list) [c] := rfl
      rw [hcut, scan_append hrest, ih fun m hm => hl m (List.mem_cons_of_mem _ hm)]
      rfl

end Scan

/-- The names are cut again from the text after its first comma. -/
theorem pieces_joined {list : List Text} (hne : list ≠ []) (hl : ∀ n ∈ list, Plain n) :
    pieces ((joined list).drop 1) = list := by
  cases list with
  | nil => exact absurd rfl hne
  | cons n list =>
    obtain ⟨hn, hplain⟩ := hl n List.mem_cons_self
    cases n with
    | nil => exact absurd rfl hn
    | cons c rest =>
      have hc : isQuote c = false := isQuote_of_plain (hplain c List.mem_cons_self)
      have hdrop : (joined ((c :: rest) :: list)).drop 1 = c :: (rest ++ joined list) := rfl
      rw [hdrop, pieces, hc, if_neg (by simp), ← List.cons_append, scan_append hplain,
        scan_joined fun m hm => hl m (List.mem_cons_of_mem _ hm)]
      rfl

/-! ## Lists of names -/

/-- Every name is in lower case, as `addName` leaves it. -/
def Lowered (list : List Text) : Prop := ∀ n ∈ list, makeLower n = n

section Lists

variable {list : List Text} {name n : Text}

/-- Only capitals change, by 32. -/
theorem toLower_cases (c : Char) :
    c.toLower = c ∨ 65 ≤ c.toNat ∧ c.toNat ≤ 90 ∧ c.toLower.toNat = c.toNat + 32 := by
  by_cases h : c.val ≥ 'A'.val ∧ c.val ≤ 'Z'.val
  · right
    have h1 : 65 ≤ c.toNat := UInt32.le_iff_toNat_le.mp h.1
    have h2 : c.toNat ≤ 90 := UInt32.le_iff_toNat_le.mp h.2
    have hval : c.toLower.val = c.val + 32 := by
      unfold Char.toLower
      rw [dif_pos h]
      rfl
    have hadd : c.toLower.toNat = (c.val + 32).toNat := congrArg UInt32.toNat hval
    have hc : c.toNat = c.val.toNat := rfl
    have h32 : (32 : UInt32).toNat = 32 := rfl
    rw [UInt32.toNat_add] at hadd
    omega
  · left
    unfold Char.toLower
    rw [dif_neg h]

theorem toLower_toLower (c : Char) : c.toLower.toLower = c.toLower := by
  obtain h | ⟨h1, h2, h3⟩ := toLower_cases c
  · rw [h, h]
  · obtain h | ⟨-, h4, -⟩ := toLower_cases c.toLower
    · exact h
    · omega

/-- Characters that are not letters have no other in their case. -/
theorem toLower_eq_iff {c d : Char} (hd : d.toNat < 65 ∨ 90 < d.toNat ∧ d.toNat < 97) :
    c.toLower = d ↔ c = d := by
  obtain h | ⟨h1, h2, h3⟩ := toLower_cases c
  · rw [h]
  · constructor
    · rintro rfl
      omega
    · rintro rfl
      omega

theorem makeLower_makeLower (name : Text) : makeLower (makeLower name) = makeLower name := by
  unfold makeLower
  rw [List.map_map]
  exact List.map_congr_left fun c _ => toLower_toLower c

theorem eraseP_congr {α : Type} {p q : α → Bool} {l : List α} (h : ∀ a ∈ l, p a = q a) :
    l.eraseP p = l.eraseP q := by
  induction l with
  | nil => rfl
  | cons a l ih =>
    rw [List.eraseP_cons, List.eraseP_cons, h a List.mem_cons_self,
      ih fun b hb => h b (List.mem_cons_of_mem _ hb)]

theorem addName_eq (h : Lowered list) :
    addName list name = list.erase (makeLower name) ++ [makeLower name] := by
  have hsame : ∀ n ∈ list, sameName n name = (n == makeLower name) := by
    intro n hn
    unfold sameName
    rw [h n hn, Bool.beq_eq_decide_eq]
  unfold addName
  rw [List.erase_eq_eraseP', eraseP_congr hsame]

theorem Lowered.addName (h : Lowered list) (name : Text) : Lowered (addName list name) := by
  rw [addName_eq h]
  intro n hn
  obtain hn | hn := List.mem_append.mp hn
  · exact h n (List.mem_of_mem_erase hn)
  · rw [List.mem_singleton.mp hn]
    exact makeLower_makeLower name

theorem nodup_addName (h : Lowered list) (hnodup : list.Nodup) (name : Text) :
    (CharList.addName list name).Nodup := by
  rw [addName_eq h]
  refine List.nodup_append.mpr ⟨hnodup.erase _, List.nodup_singleton _, ?_⟩
  rintro n hn m hm rfl
  rw [List.mem_singleton.mp hm] at hn
  exact hnodup.not_mem_erase hn

end Lists

end Slurm.CharList
