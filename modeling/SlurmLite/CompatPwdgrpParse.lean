import SlurmLite.CompatPwdgrp

/-!
# The lines of the passwd and group files

What `parsepwent` and `parsegrent` make of a line, by its colon-separated
fields:

* `parsepwent_iff`: a passwd line is taken as its seven fields say, except
  where a number is written with white space or a sign or does not fit 32 bits,
  or where the last field holds colons of its own;
* `parsegrentAt_members`: the members of a group are the comma split of the
  text behind the third colon, and their pointers stand in the buffer behind
  the line.

`parsegrentAt` cuts the member list in the buffer and builds the pointers the
way the code does; `parsegrentAt_group` connects it to `parsegrent`.
-/

namespace Slurm.PwdGrp

open Base.CLib Base.Buffer Base.Text

/-! ## Fields -/

/-- A text is cut at its first separator or has one field only. -/
theorem splitOn_cases (sep : Char) (line : List Char) :
    (strchr sep line = none ∧ line.splitOn sep = [line]) ∨
      ∃ field rest, strchr sep line = some (field, rest) ∧ sep ∉ field ∧
        line.splitOn sep = field :: rest.splitOn sep := by
  cases h : strchr sep line with
  | none =>
    left
    have hsep := not_mem_of_strchr_none h
    exact ⟨rfl, List.splitOn_eq_singleton hsep⟩
  | some cut =>
    right
    obtain ⟨field, rest⟩ := cut
    have hfield := not_mem_of_strchr h
    refine ⟨field, rest, rfl, hfield, ?_⟩
    rw [eq_of_strchr h]
    rw [List.splitOn_append_cons_self, List.splitOn_eq_singleton hfield]
    rfl

/-- The fields are made of the text's characters. -/
theorem subset_of_mem_splitOn {sep : Char} {line field : List Char}
    (h : field ∈ line.splitOn sep) : field ⊆ line := by
  induction hlen : line.length using Nat.strongRecOn generalizing line with
  | ind n ih =>
    rcases splitOn_cases sep line with ⟨-, hsplit⟩ | ⟨first, rest, hcut, -, hsplit⟩
    · rw [hsplit, List.mem_singleton] at h
      rw [h]
      exact List.Subset.refl line
    · have hline := eq_of_strchr hcut
      rw [hsplit] at h
      rw [hline]
      rcases List.mem_cons.mp h with rfl | h
      · exact List.subset_append_left _ _
      · have hrest : rest.length < n := by
          rw [← hlen, hline, List.length_append, List.length_cons]
          omega
        have hsub := ih rest.length hrest h rfl
        intro c hc
        exact List.mem_append_right _ (List.mem_cons_of_mem _ (hsub hc))

/-- `strtoul` stops at a colon. -/
theorem strtoul_append_colon (field rest : List Char) :
    strtoul (field ++ ':' :: rest) = (strtoul field).map fun r => (r.1, r.2 ++ ':' :: rest) := by
  have hspace : (field ++ ':' :: rest).dropWhile isspace =
      field.dropWhile isspace ++ ':' :: rest := by
    rw [List.dropWhile_append]
    split
    · next h =>
        rw [List.isEmpty_iff.mp h]
        rfl
    · rfl
  have hsign : ∀ s : List Char, optSign (s ++ ':' :: rest) =
      ((optSign s).1, (optSign s).2 ++ ':' :: rest) := by
    intro s
    cases s with
    | nil => rfl
    | cons c s =>
      simp only [List.cons_append, optSign]
      split
      · rfl
      · split <;> rfl
  have htake : ∀ s : List Char, (s ++ ':' :: rest).takeWhile Char.isDigit =
      s.takeWhile Char.isDigit := by
    intro s
    induction s with
    | nil => rfl
    | cons c s ih =>
      simp only [List.cons_append, List.takeWhile_cons, ih]
  have hdrop : ∀ s : List Char, (s ++ ':' :: rest).dropWhile Char.isDigit =
      s.dropWhile Char.isDigit ++ ':' :: rest := by
    intro s
    induction s with
    | nil => rfl
    | cons c s ih =>
      simp only [List.cons_append, List.dropWhile_cons, ih]
      split <;> rfl
  simp only [strtoul, hspace, hsign, htake, hdrop]
  split <;> rfl

/-- The number of a whole field, where `strtoul` reads it to its end. -/
def fieldNumber (field : List Char) : Option Nat :=
  match strtoul field with
  | some (t, []) => some (uint32 t)
  | _ => none

/-- What `strtoul` leaves is the end of what it read. -/
theorem strtoul_suffix {field rest : List Char} {t : Nat} (h : strtoul field = some (t, rest)) :
    rest <:+ field := by
  simp only [strtoul] at h
  split at h
  · cases h
  · have hrest := congrArg Prod.snd (Option.some.inj h)
    simp only at hrest
    have hsign : ∀ s : List Char, (optSign s).2 <:+ s := by
      intro s
      cases s with
      | nil => exact List.suffix_refl _
      | cons c s =>
        rw [optSign]
        split
        · exact List.suffix_cons c s
        · split
          · exact List.suffix_cons c s
          · exact List.suffix_refl _
    rw [← hrest]
    exact ((List.dropWhile_suffix _).trans (hsign _)).trans (List.dropWhile_suffix _)

/-- A number field is the field up to the colon, read to its end. -/
theorem numberField_eq (line : List Char) :
    numberField line = (strchr ':' line).bind fun cut =>
      (fieldNumber cut.1).map fun t => (t, cut.2) := by
  rcases splitOn_cases ':' line with ⟨hcut, -⟩ | ⟨field, rest, hcut, hfield, -⟩
  · -- Without a colon nothing that `strtoul` leaves can begin with one.
    have hcolon := not_mem_of_strchr_none hcut
    rw [hcut, numberField]
    cases hnum : strtoul line with
    | none => rfl
    | some r =>
      obtain ⟨t, _ | ⟨c, left⟩⟩ := r
      · rfl
      · have hmem := (strtoul_suffix hnum).subset List.mem_cons_self
        have hne : c ≠ ':' := by
          intro h
          exact hcolon (h ▸ hmem)
        show (if c = ':' then _ else none) = none
        rw [if_neg hne]
  · rw [hcut, eq_of_strchr hcut, numberField, strtoul_append_colon]
    show _ = (fieldNumber field).map fun t => (t, rest)
    cases hnum : strtoul field with
    | none => simp [fieldNumber, hnum]
    | some r =>
      obtain ⟨t, _ | ⟨c, left⟩⟩ := r
      · simp [fieldNumber, hnum]
      · have hmem := (strtoul_suffix hnum).subset List.mem_cons_self
        have hne : c ≠ ':' := by
          intro h
          exact hfield (h ▸ hmem)
        simp [fieldNumber, hnum, hne]

/-! ## Numbers -/

/-- Digits that denote a value of `uid_t` and `gid_t`. -/
def Plain (field : List Char) : Prop := field ≠ [] ∧ Digits field ∧ value field ≤ 4294967295

instance (field : List Char) : Decidable (Plain field) :=
  inferInstanceAs (Decidable (_ ∧ (∀ c ∈ field, c.isDigit = true) ∧ _))

/-- White space, a sign or none, and digits: what `strtoul` reads to its end. -/
def Numeral (field : List Char) : Prop :=
  ∃ blank sign digits, field = blank ++ sign ++ digits ∧ (∀ c ∈ blank, isspace c = true) ∧
    (sign = [] ∨ sign = ['-'] ∨ sign = ['+']) ∧ digits ≠ [] ∧ Digits digits

theorem optSign_digits {ds : List Char} (hds : Digits ds) : optSign ds = (false, ds) := by
  cases ds with
  | nil => rfl
  | cons c ds =>
    have hc := hds c List.mem_cons_self
    have hminus : c ≠ '-' := by
      intro h
      rw [h] at hc
      exact absurd hc (by decide)
    have hplus : c ≠ '+' := by
      intro h
      rw [h] at hc
      exact absurd hc (by decide)
    rw [optSign, if_neg hminus, if_neg hplus]

/-- Behind the blanks and the sign there are digits, and nothing else. -/
theorem fieldNumber_isSome_digits (field : List Char) :
    (fieldNumber field).isSome ↔
      (optSign (field.dropWhile isspace)).2 ≠ [] ∧
        Digits (optSign (field.dropWhile isspace)).2 := by
  set t := (optSign (field.dropWhile isspace)).2 with ht
  have hsplit := List.takeWhile_append_dropWhile (p := Char.isDigit) (l := t)
  simp only [fieldNumber, strtoul, ← ht]
  by_cases hnil : t.takeWhile Char.isDigit = []
  · rw [if_pos hnil]
    simp only [Option.isSome_none, Bool.false_eq_true, false_iff, not_and]
    intro hne hdigits
    rw [List.takeWhile_eq_self_iff.mpr hdigits] at hnil
    exact hne hnil
  · rw [if_neg hnil]
    cases hrest : t.dropWhile Char.isDigit with
    | nil =>
      have hdigits := List.dropWhile_eq_nil_iff.mp hrest
      have hne : t ≠ [] := by
        intro h
        rw [h] at hnil
        exact hnil rfl
      simpa using ⟨hne, hdigits⟩
    | cons c rest =>
      simp only [Option.isSome_none, Bool.false_eq_true, false_iff, not_and]
      intro _ hdigits
      rw [List.dropWhile_eq_nil_iff.mpr hdigits] at hrest
      cases hrest

theorem optSign_split (s : List Char) :
    ∃ sign, (sign = [] ∨ sign = ['-'] ∨ sign = ['+']) ∧ s = sign ++ (optSign s).2 := by
  cases s with
  | nil => exact ⟨[], Or.inl rfl, rfl⟩
  | cons c s =>
    rw [optSign]
    split
    · next h => exact ⟨['-'], Or.inr (Or.inl rfl), by rw [h]; rfl⟩
    · split
      · next h => exact ⟨['+'], Or.inr (Or.inr rfl), by rw [h]; rfl⟩
      · exact ⟨[], Or.inl rfl, rfl⟩

/-- Exactly the numerals are read as numbers. -/
theorem fieldNumber_isSome_iff (field : List Char) :
    (fieldNumber field).isSome ↔ Numeral field := by
  rw [fieldNumber_isSome_digits]
  constructor
  · rintro ⟨hne, hdigits⟩
    have hblank := List.takeWhile_append_dropWhile (p := isspace) (l := field)
    obtain ⟨sign, hkind, hsplit⟩ := optSign_split (field.dropWhile isspace)
    refine ⟨field.takeWhile isspace, sign, _, ?_, ?_, hkind, hne, hdigits⟩
    · rw [List.append_assoc, ← hsplit, hblank]
    · intro c hc
      exact List.mem_takeWhile_imp hc
  · rintro ⟨blank, sign, ds, rfl, hblank, hkind, hne, hdigits⟩
    have hdrop : ∀ s : List Char, (∀ c ∈ s.head?, isspace c = false) →
        (blank ++ s).dropWhile isspace = s := by
      intro s hs
      rw [List.dropWhile_append_of_pos hblank]
      cases s with
      | nil => rfl
      | cons c s =>
        have hc := hs c rfl
        rw [List.dropWhile_cons_of_neg (by simp [hc])]
    have hhead : ∀ c ∈ ds.head?, isspace c = false := by
      intro c hc
      exact isspace_of_isDigit (hdigits c (List.mem_of_mem_head? hc))
    rw [List.append_assoc]
    rcases hkind with rfl | rfl | rfl
    · rw [List.nil_append, hdrop ds hhead, optSign_digits hdigits]
      exact ⟨hne, hdigits⟩
    · rw [hdrop _ (by simp; decide)]
      exact ⟨hne, hdigits⟩
    · rw [hdrop _ (by simp; decide)]
      exact ⟨hne, hdigits⟩

/-- Digits are read as their value. -/
theorem Plain.fieldNumber_eq {field : List Char} (h : Plain field) :
    fieldNumber field = some (value field) := by
  obtain ⟨hne, hdigits, hlt⟩ := h
  have hmin : min (value field) ulongMax = value field := by
    apply Nat.min_eq_left
    unfold ulongMax
    omega
  rw [fieldNumber, strtoul_digits hne hdigits, hmin]
  show some (uint32 (value field)) = _
  rw [uint32_of_lt (Nat.lt_succ_of_le hlt)]

/-! ## Passwd lines -/

/-- The record of a line of seven fields, of which the third and the fourth are
digits that denote a user and a group. -/
def passwdOf (line : List Char) : Option Passwd :=
  match line.splitOn ':' with
  | [pwName, pwPasswd, uid, gid, pwGecos, pwDir, pwShell] =>
    if Plain uid ∧ Plain gid then
      some ⟨pwName, pwPasswd, value uid, value gid, pwGecos, pwDir, pwShell⟩
    else none
  | _ => none

/-- The fields of a line where `parsepwent` and `passwdOf` agree: too few of
them, or one of the two in the place of a number that is no numeral, or seven
with plain numbers. -/
def PlainLine (fields : List (List Char)) : Prop :=
  fields.length < 7 ∨ (∃ field ∈ (fields.drop 2).take 2, ¬ Numeral field) ∨
    (fields.length = 7 ∧ ∀ field ∈ (fields.drop 2).take 2, Plain field)

/-- What `parsepwent` makes of a line, by its fields: the last one is all that
is left of the line. -/
theorem parsepwent_eq (line : List Char) :
    parsepwent line =
      match line.splitOn ':' with
      | pwName :: pwPasswd :: uid :: gid :: pwGecos :: pwDir :: shell :: more =>
        (fieldNumber uid).bind fun u => (fieldNumber gid).map fun g =>
          ⟨pwName, pwPasswd, u, g, pwGecos, pwDir, [':'].intercalate (shell :: more)⟩
      | _ => none := by
  rcases splitOn_cases ':' line with ⟨h1, s1⟩ | ⟨name, l1, h1, -, s1⟩
  · simp [parsepwent, h1, s1]
  rcases splitOn_cases ':' l1 with ⟨h2, s2⟩ | ⟨passwd, l2, h2, -, s2⟩
  · simp [parsepwent, h1, h2, s1, s2]
  rcases splitOn_cases ':' l2 with ⟨h3, s3⟩ | ⟨uid, l3, h3, -, s3⟩
  · simp [parsepwent, numberField_eq, h1, h2, h3, s1, s2, s3]
  rcases splitOn_cases ':' l3 with ⟨h4, s4⟩ | ⟨gid, l4, h4, -, s4⟩
  · simp [parsepwent, numberField_eq, h1, h2, h3, h4, s1, s2, s3, s4]
  rcases splitOn_cases ':' l4 with ⟨h5, s5⟩ | ⟨gecos, l5, h5, -, s5⟩
  · simp [parsepwent, numberField_eq, h1, h2, h3, h4, h5, s1, s2, s3, s4, s5]
  rcases splitOn_cases ':' l5 with ⟨h6, s6⟩ | ⟨dir, rest, h6, -, s6⟩
  · simp [parsepwent, numberField_eq, h1, h2, h3, h4, h5, h6, s1, s2, s3, s4, s5, s6]
  obtain ⟨shell, more, hrest⟩ := List.exists_cons_of_ne_nil (List.splitOn_ne_nil ':' rest)
  have hshell : [':'].intercalate (shell :: more) = rest := by
    rw [← hrest]
    exact List.intercalate_splitOn ':'
  rw [s1, s2, s3, s4, s5, s6, hrest]
  simp only [parsepwent, numberField_eq, h1, h2, h3, hshell, Option.bind_eq_bind, Option.bind_some]
  cases fieldNumber uid with
  | none => rfl
  | some u =>
    simp only [Option.map_some, Option.bind_some, h4]
    cases fieldNumber gid with
    | none => rfl
    | some g => simp [h5, h6]

theorem plainLine_cons_iff {name passwd uid gid gecos dir shell : List Char}
    {more : List (List Char)} :
    PlainLine (name :: passwd :: uid :: gid :: gecos :: dir :: shell :: more) ↔
      ¬ Numeral uid ∨ ¬ Numeral gid ∨ (more = [] ∧ Plain uid ∧ Plain gid) := by
  simp [PlainLine, or_assoc]

/-- A passwd line is taken as its fields say exactly when it has fewer than
seven, or no numeral in the place of a number, or seven with digits that fit
`uid_t` and `gid_t`. -/
theorem parsepwent_iff (line : List Char) :
    parsepwent line = passwdOf line ↔ PlainLine (line.splitOn ':') := by
  rw [parsepwent_eq, passwdOf]
  generalize line.splitOn ':' = fields
  rcases fields with _ | ⟨name, _ | ⟨passwd, _ | ⟨uid, _ | ⟨gid, _ | ⟨gecos, _ | ⟨dir,
    _ | ⟨shell, more⟩⟩⟩⟩⟩⟩⟩
  case cons.cons.cons.cons.cons.cons.cons =>
    rw [plainLine_cons_iff, ← fieldNumber_isSome_iff, ← fieldNumber_isSome_iff]
    cases huid : fieldNumber uid with
    | none =>
      have hplain : ¬ Plain uid := by
        intro h
        rw [h.fieldNumber_eq] at huid
        cases huid
      cases more <;> simp [huid, hplain]
    | some u =>
      cases hgid : fieldNumber gid with
      | none =>
        have hplain : ¬ Plain gid := by
          intro h
          rw [h.fieldNumber_eq] at hgid
          cases hgid
        cases more <;> simp [huid, hgid, hplain]
      | some g =>
        cases more with
        | cons field more => simp [huid, hgid]
        | nil =>
          by_cases hplain : Plain uid ∧ Plain gid
          · simp [hplain, hplain.1.fieldNumber_eq, hplain.2.fieldNumber_eq, List.intercalate]
          · simp [huid, hgid, hplain]
  all_goals simp [PlainLine]

/-- A user whose number is one too large for 32 bits is taken as the
superuser. -/
theorem not_parsepwent_wrapped :
    parsepwent "u:x:4294967296:0:g:/:/sh".toList =
        some ⟨['u'], ['x'], 0, 0, ['g'], ['/'], "/sh".toList⟩ ∧
      passwdOf "u:x:4294967296:0:g:/:/sh".toList = none := by
  have hfields : "u:x:4294967296:0:g:/:/sh".toList.splitOn ':' =
      [['u'], ['x'], "4294967296".toList, ['0'], ['g'], ['/'], "/sh".toList] := by decide +kernel
  have hvalue : value "4294967296".toList = 4294967296 := by decide +kernel
  have hplain : ¬ Plain "4294967296".toList := by
    intro h
    have hle := h.2.2
    rw [hvalue] at hle
    omega
  constructor
  · decide +kernel
  · rw [passwdOf, hfields]
    exact if_neg fun h => hplain h.1

/-! ## Group lines

The member list is cut where it stands: every comma, the last colon taken for
one of them, becomes a NUL, and the pointers to what follows each go behind the
line. -/

/-- A `struct group` in its buffer: the text from `endptr`, the colon in front
of the members, on, and the table of member pointers at `grMem`. -/
structure GroupAt where
  grName : List Char
  grPasswd : List Char
  grGid : Nat
  endptr : Nat
  cut : List Char
  grMem : Nat
  table : List (Option Nat)
  deriving DecidableEq

/-- The loop that counts the members and ends each with a NUL. -/
def cutMembers : List Char → Option (Nat × List Char)
  | [] => some (0, [])
  | c :: s =>
    if c = ',' then
      match s with
      | [] => none
      | d :: s =>
        if d = ',' || isspace d then none
        else (cutMembers s).map fun r => (r.1 + 1, nul :: d :: r.2)
    else (cutMembers s).map fun r => (r.1, c :: r.2)

/-- The number of members and the text from the colon on: an empty list is left
as it is, else the colon becomes the first comma. -/
def memberList (text : List Char) : Option (Nat × List Char) :=
  if text = [] then some (0, [':']) else cutMembers (',' :: text)

/-- The loop that sets the pointers: to the character behind `p`, and on from
the next NUL. -/
def memberPointers : Nat → Nat → List Char → List Nat
  | 0, _, _ => []
  | i + 1, p, mem =>
    let member := (mem.drop 2).takeWhile (· ≠ nul)
    (p + 1) :: memberPointers i (p + 2 + member.length) (mem.drop (2 + member.length))

/-- `__parsegrent` on the buffer of `buflen` bytes at `lineBuff`. -/
def parsegrentAt (lineBuff buflen : Nat) (line : List Char) : Option GroupAt := do
  let (grName, rest) ← strchr ':' line
  let (grPasswd, rest) ← strchr ':' rest
  let (grGid, text) ← numberField rest
  let endptr := lineBuff + (line.length - text.length - 1)
  let (i, cut) ← memberList text
  let p := if text = [] then endptr else endptr + cut.length
  let members := (p + 8) / 8 * 8
  if members + 8 * (i + 1) > lineBuff + buflen then none
  else
    some ⟨grName, grPasswd, grGid, endptr, cut, members,
      (memberPointers i endptr cut).map some ++ [none]⟩

/-- The strings a table points to, up to its NULL. -/
def GroupAt.members (g : GroupAt) : List (List Char) :=
  ((g.table.takeWhile Option.isSome).filterMap id).map fun p => cstr (g.cut.drop (p - g.endptr))

/-- A member name that is neither empty nor begins with a space. -/
def goodMember (m : List Char) : Bool := m.head?.any fun c => !isspace c

/-- Characters up to a comma are passed over. -/
theorem cutMembers_append {m : List Char} (hm : ',' ∉ m) (rest : List Char) :
    cutMembers (m ++ rest) = (cutMembers rest).map fun r => (r.1, m ++ r.2) := by
  induction m with
  | nil => simp
  | cons c m ih =>
    rw [List.mem_cons, not_or] at hm
    rw [List.cons_append, cutMembers.eq_def]
    simp only [if_neg (Ne.symm hm.1), ih hm.2, Option.map_map]
    rfl

/-- A member behind a comma. -/
theorem cutMembers_member {m : List Char} (hm : ',' ∉ m) (rest : List Char)
    (hrest : ∀ c ∈ rest.head?, c = ',') :
    cutMembers (',' :: (m ++ rest)) =
      if goodMember m then (cutMembers rest).map fun r => (r.1 + 1, nul :: m ++ r.2) else none := by
  cases m with
  | nil =>
    -- The comma is followed by the end of the text or by another comma.
    cases rest with
    | nil => rfl
    | cons c rest =>
      have hc := hrest c rfl
      subst hc
      rfl
  | cons d m =>
    rw [List.mem_cons, not_or] at hm
    show (if d = ',' || isspace d then none else (cutMembers (m ++ rest)).map fun r =>
      (r.1 + 1, nul :: d :: r.2)) = if !isspace d then _ else none
    rw [cutMembers_append hm.2, Option.map_map]
    have hd : (decide (d = ',')) = false := decide_eq_false (Ne.symm hm.1)
    rw [hd, Bool.false_or]
    cases isspace d <;> rfl

/-- The members are counted and cut where the comma split cuts them, or the
list is refused for one of them. -/
theorem cutMembers_eq (text : List Char) :
    cutMembers (',' :: text) =
      if (text.splitOn ',').all goodMember then
        some ((text.splitOn ',').length, (text.splitOn ',').flatMap fun m => nul :: m)
      else none := by
  induction h : text.length using Nat.strongRecOn generalizing text with
  | ind n ih =>
    rcases splitOn_cases ',' text with ⟨hcut, hsplit⟩ | ⟨m, rest, hcut, hm, hsplit⟩
    · have hcomma := not_mem_of_strchr_none hcut
      have hmember := cutMembers_member hcomma [] (by simp)
      rw [List.append_nil] at hmember
      rw [hmember, hsplit]
      simp [cutMembers]
    · have htext := eq_of_strchr hcut
      have hlen : rest.length < n := by
        rw [← h, htext, List.length_append, List.length_cons]
        omega
      have hrec := ih rest.length hlen rest rfl
      rw [hsplit]
      conv_lhs => rw [htext]
      rw [cutMembers_member hm _ (by simp), hrec]
      simp only [List.all_cons, List.length_cons, List.flatMap_cons]
      cases goodMember m with
      | false => rfl
      | true =>
        cases (rest.splitOn ',').all goodMember <;> rfl

/-- The pointers find the members again. -/
theorem memberPointers_read (members : List (List Char)) (before : List Char) (base : Nat)
    (hne : ∀ m ∈ members, m ≠ []) (hnul : ∀ m ∈ members, nul ∉ m) :
    (memberPointers members.length (base + before.length)
        (members.flatMap fun m => nul :: m)).map
      (fun p => cstr ((before ++ members.flatMap fun m => nul :: m).drop (p - base))) = members := by
  induction members generalizing before with
  | nil => rfl
  | cons m members ih =>
    have hm := hnul m List.mem_cons_self
    obtain ⟨d, m, rfl⟩ := List.exists_cons_of_ne_nil (hne m List.mem_cons_self)
    rw [List.mem_cons, not_or] at hm
    set rest := members.flatMap fun m => nul :: m with hrest
    have hcstr : cstr rest = [] := by
      cases members with
      | nil => rfl
      | cons _ _ => simp [hrest, cstr]
    have hword : (m ++ rest).takeWhile (· ≠ nul) = m := by
      have hc := cstr_append rest hm.2
      rw [hcstr, List.append_nil] at hc
      exact hc
    have hmem : (List.flatMap (fun m => nul :: m) ((d :: m) :: members)) =
        nul :: d :: (m ++ rest) := rfl
    rw [hmem, List.length_cons, memberPointers]
    simp only [List.drop_succ_cons, List.drop_zero, hword]
    have htail := ih (before ++ nul :: d :: m) (fun x hx => hne x (List.mem_cons_of_mem _ hx))
      (fun x hx => hnul x (List.mem_cons_of_mem _ hx))
    have hadd : 2 + m.length = m.length + 1 + 1 := by omega
    have hdrop : (nul :: d :: (m ++ rest)).drop (2 + m.length) = rest := by
      rw [hadd, List.drop_succ_cons, List.drop_succ_cons, List.drop_left]
    have hpos : base + (before ++ nul :: d :: m).length = base + before.length + 2 + m.length := by
      simp only [List.length_append, List.length_cons]
      omega
    have hsame : before ++ nul :: d :: m ++ rest = before ++ nul :: d :: (m ++ rest) := by
      simp
    rw [hpos, hsame] at htail
    rw [List.map_cons, hdrop, htail]
    congr 1
    have hoff : base + before.length + 1 - base = before.length + 1 := by omega
    have hfirst : (before ++ nul :: d :: (m ++ rest)).drop (before.length + 1) =
        d :: m ++ rest := by
      rw [← List.drop_drop, List.drop_left]
      rfl
    rw [hoff, hfirst, cstr_append rest (by simp [hm]), hcstr, List.append_nil]

/-- Cutting changes no length. -/
theorem cutMembers_length {s : List Char} {r : Nat × List Char} (h : cutMembers s = some r) :
    r.2.length = s.length := by
  induction hlen : s.length using Nat.strongRecOn generalizing s r with
  | ind n ih =>
    cases s with
    | nil =>
      cases h
      exact hlen
    | cons c s =>
      rw [List.length_cons] at hlen
      rw [cutMembers.eq_def] at h
      simp only at h
      split at h
      · cases s with
        | nil => cases h
        | cons d s =>
          rw [List.length_cons] at hlen
          simp only at h
          split at h
          · cases h
          · obtain ⟨q, hq, rfl⟩ := Option.map_eq_some_iff.mp h
            have hrest := ih s.length (by omega) hq rfl
            simp only [List.length_cons, hrest]
            exact hlen
      · obtain ⟨q, hq, rfl⟩ := Option.map_eq_some_iff.mp h
        have hrest := ih s.length (by omega) hq rfl
        simp only [List.length_cons, hrest]
        exact hlen

@[simp] theorem pointers_read (ps : List Nat) :
    ((ps.map some ++ [none]).takeWhile Option.isSome).filterMap id = ps := by
  rw [List.takeWhile_append_of_pos (by simp)]
  simp [List.filterMap_map]

/-- The names of a member list that is not empty, as they are read from the
buffer. -/
theorem members_cut {text : List Char} (hnul : nul ∉ text) (endptr : Nat)
    {r : Nat × List Char} (h : cutMembers (',' :: text) = some r) :
    (memberPointers r.1 endptr r.2).map (fun p => cstr (r.2.drop (p - endptr))) =
        text.splitOn ',' ∧
      r.1 = (text.splitOn ',').length ∧ ∀ m ∈ text.splitOn ',', goodMember m = true := by
  rw [cutMembers_eq] at h
  by_cases hgood : (text.splitOn ',').all goodMember = true
  · rw [if_pos hgood] at h
    cases h
    rw [List.all_eq_true] at hgood
    have hne : ∀ m ∈ text.splitOn ',', m ≠ [] := by
      intro m hm hnil
      have := hgood m hm
      rw [hnil] at this
      cases this
    have hfree : ∀ m ∈ text.splitOn ',', nul ∉ m := by
      intro m hm hmem
      exact hnul (subset_of_mem_splitOn hm hmem)
    refine ⟨?_, rfl, hgood⟩
    have hread := memberPointers_read (text.splitOn ',') [] endptr hne hfree
    rw [List.length_nil, Nat.add_zero, List.nil_append] at hread
    exact hread
  · rw [if_neg hgood] at h
    cases h

/-- What a line that is taken is made of. -/
theorem parsegrentAt_cases {lineBuff buflen : Nat} {line : List Char} {g : GroupAt}
    (h : parsegrentAt lineBuff buflen line = some g) :
    ∃ number text, line = g.grName ++ ':' :: (g.grPasswd ++ ':' :: (number ++ ':' :: text)) ∧
      ':' ∉ g.grName ∧ ':' ∉ g.grPasswd ∧ ':' ∉ number ∧
      g.endptr = lineBuff + (line.length - text.length - 1) ∧
      ∃ i, memberList text = some (i, g.cut) ∧
        g.grMem = ((if text = [] then g.endptr else g.endptr + g.cut.length) + 8) / 8 * 8 ∧
        g.grMem + 8 * (i + 1) ≤ lineBuff + buflen ∧
        g.table = (memberPointers i g.endptr g.cut).map some ++ [none] := by
  simp only [parsegrentAt, numberField_eq, Option.bind_eq_bind, Option.bind_eq_some_iff,
    Option.map_eq_some_iff, Prod.exists] at h
  obtain ⟨name, l1, h1, passwd, l2, h2, gid, text, ⟨number, l3, h3, t, -, heq⟩, i, cut, hcut, hif⟩ :=
    h
  cases heq
  rw [Option.ite_none_left_eq_some] at hif
  obtain ⟨hroom, heq⟩ := hif
  cases heq
  refine ⟨number, text, ?_, not_mem_of_strchr h1, not_mem_of_strchr h2, not_mem_of_strchr h3,
    rfl, i, hcut, rfl, Nat.le_of_not_lt hroom, rfl⟩
  rw [eq_of_strchr h1, eq_of_strchr h2, eq_of_strchr h3]

/-- The text behind the third colon. -/
def memberText (line : List Char) : List Char := [':'].intercalate ((line.splitOn ':').drop 3)

/-- The names of a member list: none in an empty one. -/
def membersOf (text : List Char) : List (List Char) :=
  if text = [] then [] else text.splitOn ','

theorem memberText_append {name passwd number : List Char} (h1 : ':' ∉ name) (h2 : ':' ∉ passwd)
    (h3 : ':' ∉ number) (text : List Char) :
    memberText (name ++ ':' :: (passwd ++ ':' :: (number ++ ':' :: text))) = text := by
  simp only [memberText, List.splitOn_append_cons_self, List.splitOn_eq_singleton h1,
    List.splitOn_eq_singleton h2, List.splitOn_eq_singleton h3]
  exact List.intercalate_splitOn ':'

/-- A group whose members are those of its line, in a table that ends with
NULL, behind the line and within the buffer. -/
structure Tabled (lineBuff buflen : Nat) (line : List Char) (g : GroupAt) : Prop where
  members : g.members = membersOf (memberText line)
  length : g.table.length = g.members.length + 1
  terminated : g.table.getLast? = some none
  good : ∀ m ∈ g.members, goodMember m = true
  aligned : 8 ∣ g.grMem
  behind : lineBuff + line.length ≤ g.grMem
  within : g.grMem + 8 * g.table.length ≤ lineBuff + buflen

theorem memberPointers_length (i p : Nat) (mem : List Char) :
    (memberPointers i p mem).length = i := by
  induction i generalizing p mem with
  | zero => rfl
  | succ i ih => rw [memberPointers, List.length_cons, ih]

theorem tabled_of_taken {lineBuff buflen : Nat} {line : List Char} (hnul : nul ∉ line)
    {g : GroupAt} (h : parsegrentAt lineBuff buflen line = some g) :
    Tabled lineBuff buflen line g := by
  obtain ⟨number, text, hline, h1, h2, h3, hend, i, hcut, hmem, hroom, htable⟩ :=
    parsegrentAt_cases h
  have htext : memberText line = text := by
    rw [hline]
    exact memberText_append h1 h2 h3 text
  have hsub : nul ∉ text := by
    intro hm
    apply hnul
    rw [hline]
    simp [hm]
  have hlen : text.length + 1 ≤ line.length := by
    rw [hline]
    simp only [List.length_append, List.length_cons]
    omega
  have hcount : g.table.length = i + 1 := by
    rw [htable]
    simp [memberPointers_length]
  have hread : g.members = (memberPointers i g.endptr g.cut).map
      fun p => cstr (g.cut.drop (p - g.endptr)) := by
    rw [GroupAt.members, htable, pointers_read]
  have hmembers : g.members = membersOf text ∧ i = (membersOf text).length ∧
      ∀ m ∈ membersOf text, goodMember m = true := by
    rw [memberList] at hcut
    rw [hread, membersOf]
    by_cases hnil : text = []
    · rw [if_pos hnil] at hcut ⊢
      obtain ⟨rfl, -⟩ := Prod.mk.inj (Option.some.inj hcut)
      simp [memberPointers]
    · rw [if_neg hnil] at hcut ⊢
      exact members_cut hsub g.endptr hcut
  obtain ⟨hnames, hi, hgood⟩ := hmembers
  -- the names are cut within the line, so the table is behind it
  have hbehind : lineBuff + line.length ≤
      (if text = [] then g.endptr else g.endptr + g.cut.length) + 1 := by
    by_cases hnil : text = []
    · rw [if_pos hnil, hend, hnil]
      simp only [List.length_nil]
      omega
    · rw [memberList, if_neg hnil] at hcut
      rw [if_neg hnil]
      have := cutMembers_length hcut
      simp only [List.length_cons] at this
      omega
  constructor
  · rw [htext]
    exact hnames
  · rw [hcount, hnames, hi]
  · rw [htable]
    simp
  · rw [hnames]
    exact hgood
  · rw [hmem]
    exact Nat.dvd_mul_left 8 _
  · omega
  · rw [hcount]
    exact hroom

/-- The group a buffer holds. -/
def GroupAt.toGroup (g : GroupAt) : Group := ⟨g.grName, g.grPasswd, g.grGid, g.members⟩

/-- The names read from the buffer are those of `parsegrent`. -/
theorem memberList_eq {text : List Char} (hnul : nul ∉ text) (endptr : Nat) :
    (memberList text).map (fun r => (r.1, r.2.length, (memberPointers r.1 endptr r.2).map
        fun p => cstr (r.2.drop (p - endptr)))) =
      (parseMembers text).map fun ms => (ms.length, text.length + 1, ms) := by
  by_cases hnil : text = []
  · subst hnil
    rfl
  · rw [memberList, parseMembers, if_neg hnil, if_neg hnil]
    cases hcut : cutMembers (',' :: text) with
    | none =>
      have hbad : ¬ (text.splitOn ',').all goodMember = true := by
        intro hgood
        rw [cutMembers_eq, if_pos hgood] at hcut
        cases hcut
      show none = Option.map _ (if (text.splitOn ',').all goodMember then _ else none)
      rw [if_neg hbad]
      rfl
    | some r =>
      obtain ⟨hread, hcount, hgood⟩ := members_cut hnul endptr hcut
      have hlen := cutMembers_length hcut
      show some _ = Option.map _ (if (text.splitOn ',').all goodMember then _ else none)
      rw [if_pos (List.all_eq_true.mpr hgood)]
      simp only [Option.map_some]
      rw [hread, hcount, hlen, List.length_cons]

/-- What is built in the buffer is the group `parsegrent` returns. -/
theorem parsegrentAt_group {line : List Char} (hnul : nul ∉ line) (lineBuff buflen : Nat) :
    (parsegrentAt lineBuff buflen line).map GroupAt.toGroup = parsegrent lineBuff buflen line := by
  simp only [parsegrentAt, parsegrent, numberField_eq, Option.bind_eq_bind]
  cases h1 : strchr ':' line with
  | none => rfl
  | some cut1 =>
    obtain ⟨name, l1⟩ := cut1
    simp only [Option.bind_some]
    cases h2 : strchr ':' l1 with
    | none => rfl
    | some cut2 =>
      obtain ⟨passwd, l2⟩ := cut2
      simp only [Option.bind_some]
      cases h3 : strchr ':' l2 with
      | none => rfl
      | some cut3 =>
        obtain ⟨number, text⟩ := cut3
        simp only [Option.bind_some]
        cases fieldNumber number with
        | none => rfl
        | some gid =>
          simp only [Option.map_some, Option.bind_some]
          have hline : text.length + 1 ≤ line.length := by
            rw [eq_of_strchr h1, eq_of_strchr h2, eq_of_strchr h3]
            simp only [List.length_append, List.length_cons]
            omega
          have hsub : nul ∉ text := by
            intro hm
            apply hnul
            rw [eq_of_strchr h1, eq_of_strchr h2, eq_of_strchr h3]
            simp [hm]
          have hlist := memberList_eq hsub (lineBuff + (line.length - text.length - 1))
          cases hcut : memberList text with
          | none =>
            rw [hcut] at hlist
            rw [Option.map_eq_none_iff.mp hlist.symm]
            rfl
          | some r =>
            rw [hcut] at hlist
            obtain ⟨ms, hms, heq⟩ := Option.map_eq_some_iff.mp hlist.symm
            obtain ⟨hcount, hpair⟩ := Prod.mk.inj heq
            obtain ⟨hlen, hread⟩ := Prod.mk.inj hpair
            -- Where the loop over the members leaves `p`.
            have hp : (if text = [] then lineBuff + (line.length - text.length - 1)
                  else lineBuff + (line.length - text.length - 1) + r.2.length) =
                lineBuff + (if text = [] then line.length - 1 else line.length) := by
              by_cases hnil : text = []
              · rw [if_pos hnil, if_pos hnil, hnil]
                rfl
              · rw [if_neg hnil, if_neg hnil]
                omega
            rw [hms]
            simp only [Option.bind_some, hp, hcount]
            generalize lineBuff + (if text = [] then line.length - 1
              else line.length) = p
            split
            · rfl
            · simp only [Option.map_some, GroupAt.toGroup, GroupAt.members,
                pointers_read, ← hread]

/-- The members of a group that is taken are the comma split of all that follows
its third colon, their pointers stand behind the line in its buffer, and a line
with an empty member or one that begins with a space is not taken. -/
theorem parsegrentAt_members {line : List Char} (hnul : nul ∉ line) (lineBuff buflen : Nat) :
    (∀ g, parsegrentAt lineBuff buflen line = some g → Tabled lineBuff buflen line g) ∧
      ((∃ m ∈ membersOf (memberText line), m = [] ∨ ∃ c ∈ m.head?, isspace c = true) →
        parsegrentAt lineBuff buflen line = none) := by
  constructor
  · intro g hg
    exact tabled_of_taken hnul hg
  · rintro ⟨m, hm, hbad⟩
    cases hg : parsegrentAt lineBuff buflen line with
    | none => rfl
    | some g =>
      exfalso
      have htabled := tabled_of_taken hnul hg
      rw [← htabled.members] at hm
      have hgood := htabled.good m hm
      cases m with
      | nil => cases hgood
      | cons c m =>
        rcases hbad with hbad | ⟨d, hd, hspace⟩
        · cases hbad
        · cases hd
          simp [goodMember, hspace] at hgood

/-- Three members of a group. -/
theorem parsegrentAt_members_wheel :
    ∃ g, parsegrentAt 4096 1024 "wheel:x:10:root,ada,eve".toList = some g ∧
      Tabled 4096 1024 "wheel:x:10:root,ada,eve".toList g := by
  obtain ⟨g, hg⟩ := Option.isSome_iff_exists.mp
    (show (parsegrentAt 4096 1024 "wheel:x:10:root,ada,eve".toList).isSome = true by
      decide +kernel)
  exact ⟨g, hg, (parsegrentAt_members (by decide) 4096 1024).1 g hg⟩

/-- A fourth colon is part of the last field, and of the member's name. -/
theorem not_fourth_field :
    ∃ g, parsegrentAt 4096 1024 "g:x:1:a:b".toList = some g ∧ g.members = ["a:b".toList] ∧
      ("g:x:1:a:b".toList.splitOn ':')[3]? = some ['a'] ∧
      g.members ≠ ['a'].splitOn ',' := by
  refine ⟨⟨['g'], ['x'], 1, 4101, [nul, 'a', ':', 'b'], 4112, [some 4102, none]⟩, ?_⟩
  decide +kernel

end Slurm.PwdGrp
