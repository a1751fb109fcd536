import SlurmLite.Base.Run
import SlurmLite.Hostlist.Groups

/-!
# The representation invariant

`RepInv` is what the range array should satisfy after every operation: the
slots in use hold ordered ranges, the others are NULL, and `nhosts` is the sum
of the counts. The source breaks it in five ways, each a condition on the state
a step is taken in (`OpOk`):

* a push joins a range that starts at 0 to one that ends at the largest number,
  or the hosts no longer fit an `int`;
* `hostlist_delete_nth` and `hostlist_shift` take the lowest of several hosts
  off a range that ends at the largest number;
* `hostlist_pop_range` and `hostlist_shift_range` remove a group two of whose
  ranges join in the temporary list;
* `hostlist_shift_range` leaves freed slots behind the ranges in use.

Runs that avoid these keep the invariant (`repInv_of_guarded`).
-/

namespace Slurm.Hosts

open Base.CLib Base.Run

/-! ## Runs -/

/-- The operations that change a list. -/
inductive Op where
  | push (hosts : List Char)
  | pushHost (str : List Char)
  | deleteNth (n : Int)
  | pop
  | shift
  | popRange
  | shiftRange
deriving DecidableEq

/-- One operation on a list; `none` is undefined behaviour. -/
def hlStep (hl : Hostlist) : Op → Option Hostlist
  | .push hosts => (hostlistPush hl hosts).map (·.2)
  | .pushHost str => hostlistPushHost hl str
  | .deleteNth n => hostlistDeleteNth hl n
  | .pop => (hostlistPop hl).map (·.2)
  | .shift => (hostlistShift hl).map (·.2)
  | .popRange => (hostlistPopRange hl).map (·.2)
  | .shiftRange => (hostlistShiftRange hl).map (·.2)

/-- The representation invariant of a hostlist. -/
structure RepInv (hl : Hostlist) : Prop where
  live : ∀ i < hl.nranges, ∃ r, hl.slot i = .live r ∧ r.Ordered
  null : ∀ i, hl.nranges ≤ i → i < hl.size → hl.slot i = .null
  count : ∃ rs, hl.ranges = some rs ∧ hl.nhosts = hosts rs

/-- The index of a deletion is below the host count. -/
def IndexOk (hl : Hostlist) : Op → Prop
  | .deleteNth n => 0 ≤ n ∧ n < hl.nhosts
  | _ => True

/-- The ranges of a list, empty when some slot in use holds none. -/
def Hostlist.live (hl : Hostlist) : List HostRange := hl.ranges.getD []

/-- The parser neither reads outside its buffers nor runs forever. -/
def Parsed (str : List Char) : Prop :=
  hostPushes str ≠ .error .undefined ∧ hostPushes str ≠ .error .diverges

/-- Pushing `ss` onto `rs` joins no range that starts at 0 again, and an `int`
can count the hosts. -/
def PushOk (rs ss : List HostRange) : Prop :=
  NoWrap rs ss ∧ (names rs).length + (names ss).length < 2147483648

instance (rs ss : List HostRange) : Decidable (PushOk rs ss) :=
  inferInstanceAs (Decidable (_ ∧ _))

/-- When an operation keeps the invariant, from the state it is applied to. -/
def OpOk (hl : Hostlist) : Op → Prop
  | .push str => Parsed str ∧ ∀ ss, hostPushes str = .ok ss →
      PushOk [] ss ∧ PushOk hl.live (pushRanges [] ss)
  | .pushHost str => PushOk hl.live [hostRange str]
  | .deleteNth n => 0 ≤ n ∧ n < hl.nhosts ∧ ¬ TopCutAt hl.live n.toNat
  | .pop => True
  | .shift => ¬ TopCutAt hl.live 0
  | .popRange => Unjoined (tailGroup hl.live)
  | .shiftRange => Unjoined (headGroup hl.live) ∧
      2 * (headGroup hl.live).length ≤ hl.live.length

/-! ## The invariant over runs -/

/-- The list is the array of some sound ranges. -/
def SoundList (hl : Hostlist) : Prop :=
  ∃ rs free, Sound rs ∧ hl = Hostlist.ofRanges rs free (names rs).length

theorem SoundList.repInv {hl : Hostlist} (h : SoundList hl) : RepInv hl := by
  obtain ⟨rs, free, hs, rfl⟩ := h
  refine ⟨fun i hi => ?_, fun i hi hsize => ?_, rs, ofRanges_ranges rs free _, ?_⟩
  · obtain ⟨as, r, bs, rfl, rfl⟩ : ∃ as r bs, rs = as ++ r :: bs ∧ i = as.length := by
      refine ⟨rs.take i, rs.get ⟨i, hi⟩, rs.drop (i + 1), ?_, ?_⟩
      · simp
      · rw [List.length_take]
        have hlt : i < rs.length := hi
        omega
    exact ⟨r, ofRanges_slot, hs.ordered r (by simp)⟩
  · have hlt : i < rs.length + free := hsize
    have hge : rs.length ≤ i := hi
    simp only [Hostlist.slot, Hostlist.ofRanges, List.getD_eq_getElem?_getD]
    rw [List.getElem?_append_right (by simpa using hge), List.getElem?_replicate]
    rw [if_pos (by simp; omega)]
    rfl
  · rw [ofRanges_nhosts, hs.hosts_eq]

theorem live_ofRanges (rs : List HostRange) (free : Nat) (n : Int) :
    (Hostlist.ofRanges rs free n).live = rs := by
  rw [Hostlist.live, ofRanges_ranges]
  rfl

/-- A sound list and what `Holds` says of a list of pushes. -/
theorem Sound.holds {rs : List HostRange} (h : Sound rs) (free : Nat) :
    Holds (Hostlist.ofRanges rs free (names rs).length) rs := by
  refine ⟨⟨free, ?_⟩, h.ok⟩
  have hf := h.fits
  rw [h.hosts_eq, int32_of_range (by omega) (by omega)]

theorem Holds.soundList {hl : Hostlist} {rs : List HostRange} (h : Holds hl rs)
    (hs : Sound rs) : SoundList hl := by
  obtain ⟨⟨free, rfl⟩, -⟩ := h
  have hf := hs.fits
  refine ⟨rs, free, hs, ?_⟩
  rw [hs.hosts_eq, int32_of_range (by omega) (by omega)]

theorem hostlistCreate_soundList {str : List Char} {hl : Hostlist}
    (h : hostlistCreate str = .ok hl) (hok : ∀ ss, hostPushes str = .ok ss → PushOk [] ss) :
    SoundList hl := by
  obtain ⟨ss, hss, hholds⟩ := Holds.create h
  obtain ⟨hno, hfits⟩ := hok ss hss
  exact hholds.soundList (sound_nil.pushRanges (hostPushes_pushed hss) hno hfits).1

/-- Every operation within its condition keeps a sound list sound. -/
theorem hlStep_soundList (hl : Hostlist) (op : Op) (h : SoundList hl) (hok : OpOk hl op) :
    ∃ hl', hlStep hl op = some hl' ∧ SoundList hl' := by
  obtain ⟨rs, free, hs, rfl⟩ := h
  cases op with
  | push str =>
    obtain ⟨hparsed, hok⟩ := hok
    cases hp : hostPushes str with
    | error e =>
      cases e with
      | invalid =>
        refine ⟨_, ?_, rs, free, hs, rfl⟩
        rw [hlStep, hostlistPush_invalid hp, Option.map_some]
      | undefined => exact absurd hp hparsed.1
      | diverges => exact absurd hp hparsed.2
    | ok ss =>
      obtain ⟨⟨hno1, hf1⟩, hno2, hf2⟩ := hok ss hp
      rw [live_ofRanges] at hno2 hf2
      have hnew := (sound_nil.pushRanges (hostPushes_pushed hp) hno1 hf1).1
      obtain ⟨hl', hpush, hholds⟩ := (hs.holds free).push hp
      refine ⟨hl', by rw [hlStep, hpush, Option.map_some], hholds.soundList ?_⟩
      exact (hs.pushRanges hnew.pushed hno2 hf2).1
  | pushHost str =>
    obtain ⟨hno, hf⟩ := hok
    rw [live_ofRanges] at hno hf
    obtain ⟨hl', hpush, hholds⟩ := (hs.holds free).pushHost str
    have hpushed : ∀ s ∈ [hostRange str], s.Pushed := by
      intro s hmem
      obtain rfl := List.mem_singleton.mp hmem
      exact hostRange_pushed str
    exact ⟨hl', hpush, hholds.soundList (hs.pushRanges hpushed hno hf).1⟩
  | deleteNth n =>
    obtain ⟨h0, hn, hcut⟩ := hok
    rw [live_ofRanges] at hcut
    rw [ofRanges_nhosts] at hn
    obtain ⟨k, rfl⟩ := Int.eq_ofNat_of_zero_le h0
    obtain ⟨rs', free', hdel, hs', -⟩ :=
      hostlistDeleteNth_ofRanges hs free k (by omega) hcut
    exact ⟨_, hdel, rs', free', hs', rfl⟩
  | pop =>
    obtain ⟨host, rs', free', hpop, hs', -⟩ := hostlistPop_ofRanges hs free
    exact ⟨_, by rw [hlStep, hpop, Option.map_some], rs', free', hs', rfl⟩
  | shift =>
    have hcut : ¬ TopCutAt rs 0 := by rwa [OpOk, live_ofRanges] at hok
    obtain ⟨host, rs', free', hshift, hs', -⟩ := hostlistShift_ofRanges hs free hcut
    exact ⟨_, by rw [hlStep, hshift, Option.map_some], rs', free', hs', rfl⟩
  | popRange =>
    have hjoin : Unjoined (tailGroup rs) := by rwa [OpOk, live_ofRanges] at hok
    obtain ⟨buf, free', hpop⟩ := hostlistPopRange_ofRanges hs free hjoin
    refine ⟨_, by rw [hlStep, hpop, Option.map_some], beforeTail rs, free', ?_, rfl⟩
    exact Sound.of_append [] _ (tailGroup rs) (by rwa [List.nil_append,
      beforeTail_append_tailGroup])
  | shiftRange =>
    obtain ⟨hjoin, hmove⟩ := hok
    rw [live_ofRanges] at hjoin hmove
    obtain ⟨buf, free', hshift⟩ := hostlistShiftRange_ofRanges hs free hjoin hmove
    refine ⟨_, by rw [hlStep, hshift, Option.map_some], afterHead rs, free', ?_, rfl⟩
    exact Sound.of_append (headGroup rs) _ [] (by rwa [List.append_nil,
      headGroup_append_afterHead])

/-- In a run whose steps meet their conditions, no step is undefined and every
state satisfies the representation invariant. -/
theorem repInv_of_guarded (str : List Char) (hl : Hostlist) (ops : List Op)
    (hcreate : hostlistCreate str = .ok hl)
    (hpush : ∀ ss, hostPushes str = .ok ss → PushOk [] ss)
    (hops : Guarded hlStep OpOk hl ops) : HoldsThroughout hlStep RepInv hl ops := by
  have hsound := holdsThroughout_of_guarded hlStep_soundList ops hl
    (hostlistCreate_soundList hcreate hpush) hops
  exact hsound.mono fun _ h => h.repInv

/-- A list no range of which ends at the largest number loses no other host. -/
theorem not_topCutAt {rs : List HostRange} (h : ∀ r ∈ rs, r.hi ≠ ulongMax) (n : Nat) :
    ¬ TopCutAt rs n := by
  rintro ⟨as, r, bs, rfl, -, hcut⟩
  exact h r (by simp) hcut.2.2.2

theorem guarded_cons {s t : Hostlist} {op : Op} {ops : List Op} (ht : hlStep s op = some t)
    (hok : OpOk s op) (hrest : Guarded hlStep OpOk t ops) :
    Guarded hlStep OpOk s (op :: ops) := by
  refine ⟨hok, fun s' hs' => ?_⟩
  rw [ht] at hs'
  obtain rfl := Option.some.inj hs'
  exact hrest

theorem repInv_of_guarded_run :
    ∃ hl, hostlistCreate "a[1-3],b".toList = .ok hl ∧
      HoldsThroughout hlStep RepInv hl [.deleteNth 1, .pushHost ['c'], .popRange, .shift] := by
  refine ⟨Hostlist.ofRanges [hostrangeCreate ['a'] 1 3 1, hostrangeCreateSingle ['b']] 14 4,
    rfl, repInv_of_guarded "a[1-3],b".toList _ _ rfl ?_ ?_⟩
  · intro ss hss
    obtain rfl : [hostrangeCreate ['a'] 1 3 1, hostrangeCreateSingle ['b']] = ss :=
      Except.ok.inj hss
    decide
  · have hpop : (hlStep (Hostlist.ofRanges [hostrangeCreate ['a'] 1 1 1,
        hostrangeCreate ['a'] 3 3 1, hostrangeCreateSingle ['b'],
        hostrangeCreateSingle ['c']] 12 4) .popRange) =
        some (Hostlist.ofRanges [hostrangeCreate ['a'] 1 1 1, hostrangeCreate ['a'] 3 3 1,
          hostrangeCreateSingle ['b']] 13 3) := by decide +kernel
    refine guarded_cons (t := Hostlist.ofRanges [hostrangeCreate ['a'] 1 1 1,
      hostrangeCreate ['a'] 3 3 1, hostrangeCreateSingle ['b']] 13 3) (by decide)
      ⟨by decide, by decide, not_topCutAt (by decide) _⟩ ?_
    refine guarded_cons (t := Hostlist.ofRanges [hostrangeCreate ['a'] 1 1 1,
      hostrangeCreate ['a'] 3 3 1, hostrangeCreateSingle ['b'],
      hostrangeCreateSingle ['c']] 12 4) (by decide) (by unfold OpOk; decide) ?_
    refine guarded_cons hpop (by unfold OpOk; decide) ?_
    refine guarded_cons (t := Hostlist.ofRanges [hostrangeCreate ['a'] 3 3 1,
      hostrangeCreateSingle ['b']] 14 2) (by decide) (not_topCutAt (by decide) _) trivial

/-- Deleting a host can leave neighbours that join when they are removed: the
removal then counts one range where it takes two. -/
theorem popRange_breaks_repInv :
    ∃ hl, hostlistCreate "a1,a3,a2".toList = .ok hl ∧
      Guarded hlStep IndexOk hl [.deleteNth 1, .popRange] ∧
      ¬ HoldsThroughout hlStep RepInv hl [.deleteNth 1, .popRange] := by
  have hdel : hlStep (Hostlist.ofRanges [hostrangeCreate ['a'] 1 1 1,
      hostrangeCreate ['a'] 3 3 1, hostrangeCreate ['a'] 2 2 1] 13 3) (.deleteNth 1) =
      some (Hostlist.ofRanges [hostrangeCreate ['a'] 1 1 1,
        hostrangeCreate ['a'] 2 2 1] 14 2) := by decide
  have hpop : (hlStep (Hostlist.ofRanges [hostrangeCreate ['a'] 1 1 1,
      hostrangeCreate ['a'] 2 2 1] 14 2) .popRange).map (fun hl => (hl.nranges, hl.slot 0)) =
      some (1, .null) := by decide +kernel
  refine ⟨_, rfl, ⟨⟨by decide, by decide⟩, fun _ _ => ⟨trivial, fun _ _ => trivial⟩⟩, ?_⟩
  rintro ⟨-, s1, h1, -, s2, h2, hinv⟩
  obtain rfl := Option.some.inj (hdel.symm.trans h1)
  rw [h2] at hpop
  obtain ⟨hn, hslot⟩ := Prod.mk.inj (Option.some.inj hpop)
  obtain ⟨r, hr, -⟩ := hinv.live 0 (by omega)
  rw [hslot] at hr
  cases hr

end Slurm.Hosts
