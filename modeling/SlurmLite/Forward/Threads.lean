import SlurmLite.Base.Gather
import SlurmLite.Hostlist.Invariant
import SlurmLite.Hostlist.RoundTrip
import SlurmLite.Hostlist.Shift

/-!
# The forwarding threads

`_forward_thread` and `_fwd_tree_thread`: each takes hosts off its list until
one is reached, sends it the message with the rest of the list, and adds an
entry for every host to the list its caller waits on.

* **The sublist** (`sentHosts`): a host is sent the text of the rest of the list,
  cut where it does not fit the buffer.
* **Threads**: `forwardThread`, `fwdTreeThread`, over what becomes of each
  contact (`Outcome`), with the exits of the source's loops.
* **A partial answer** (`partialLoop_spec`): the hosts that it does not name are
  marked as failed, by the names that `hostlist_next` prints.
* **One entry for each host** (`delivers_iff`): for which lists this holds under
  every pattern of outcomes, and the waits end when all entries are in.
-/

namespace Slurm.Forward

open Base.Text Base.CLib Base.Buffer Base.Gather Slurm.Hosts

abbrev Host := List Char

/-! ## Entries -/

/-- `ret_data_info_t`, without the data of the answer. -/
structure RetDataInfo where
  type : Nat
  err : Nat
  nodeName : Option Host
deriving DecidableEq

/-- `RESPONSE_FORWARD_FAILED`. -/
def responseForwardFailed : Nat := 9001

/-- `SLURM_COMMUNICATIONS_CONNECTION_ERROR`. -/
def communicationsConnectionError : Nat := 1001

/-- `REQUEST_RECONFIGURE` and `REQUEST_SHUTDOWN`. -/
def requestReconfigure : Nat := 1003
def requestShutdown : Nat := 1005

/-- The entry of `mark_as_failed_forward`. -/
def failed (nodeName : Host) (err : Nat) : RetDataInfo :=
  ⟨responseForwardFailed, err, some nodeName⟩

/-- `mark_as_failed_forward`. -/
def markAsFailedForward (retList : List RetDataInfo) (nodeName : Host) (err : Nat) :
    List RetDataInfo := failed nodeName err :: retList

/-- The entry with the name of the host that was sent to, if it has none. -/
def RetDataInfo.named (name : Host) (info : RetDataInfo) : RetDataInfo :=
  { info with nodeName := some (info.nodeName.getD name) }

/-- What becomes of the contact with a host; `errno` where it is read. -/
inductive Outcome where
  | noAddress
  | noConnection
  | sendFailed (errno : Nat)
  | noAnswer (errno : Nat)
  | answer (retList : List RetDataInfo)

/-- What becomes of the contact with a host that is sent a sublist. -/
abbrev Pattern := Host → List Host → Outcome

/-- The answers `slurm_receive_msgs` returns: its own entry, without a name, in
front, and the entries of other hosts; its error is never one of connecting. -/
structure Answers (retList : List RetDataInfo) (hosts : List Host) : Prop where
  own : ∃ own others, retList = own :: others ∧ own.nodeName = none ∧
    own.err ≠ communicationsConnectionError ∧ others.map (·.nodeName) = hosts.map some

/-- Answers name pairwise distinct hosts of the sublist. -/
def Pattern.Valid (out : Pattern) : Prop :=
  ∀ name rest retList, out name rest = .answer retList →
    ∃ hosts, Answers retList hosts ∧ hosts.Nodup ∧ hosts ⊆ rest

/-- Answers name all hosts of the sublist. -/
def Pattern.Full (out : Pattern) : Prop :=
  ∀ name rest retList, out name rest = .answer retList →
    ∃ hosts, Answers retList hosts ∧ hosts.Nodup ∧ hosts ⊆ rest ∧ rest ⊆ hosts

/-! ## The sublist -/

/-- The hosts a list stands for. -/
def hostsOf (hl : Hostlist) : List Host := names hl.live

/-- The text of a list in `char buf[8196]`; the result of `hostlist_ranged_string` is not looked
at. -/
def nodelist (hl : Hostlist) : List Char :=
  match hostlistRangedString hl 8196 (List.replicate 8196 nul) with
  | none => []
  | some (_, buf) => cstr buf

/-- The hosts that the text sent along stands for. -/
def sentHosts (hl : Hostlist) : List Host :=
  match hostlistCreate (nodelist hl) with
  | .error _ => []
  | .ok hl => hostsOf hl

/-- A host is shifted off a list. -/
def Shifted (hl rest : Hostlist) : Prop := ∃ name, hostlistShift hl = some (some name, rest)

/-- Whatever hosts are shifted off, the text of the rest names the hosts that are left. -/
def Told (hl : Hostlist) : Prop :=
  ∀ rest, Relation.TransGen Shifted hl rest → ∀ host, host ∈ sentHosts rest ↔ host ∈ hostsOf rest

theorem told_of_empty {hl l : Hostlist} (h : hostlistShift hl = some (none, l)) : Told hl := by
  intro rest hrest
  obtain ⟨l', ⟨name, hshift⟩, -⟩ := Relation.TransGen.head'_iff.mp hrest
  rw [h] at hshift
  cases hshift

theorem told_of_shift {hl rest : Hostlist} {name : Host}
    (hshift : hostlistShift hl = some (some name, rest)) (hsent : sentHosts rest = hostsOf rest)
    (h : Told rest) : Told hl := by
  intro l hl'
  obtain ⟨l', ⟨name', hshift'⟩, hrest⟩ := Relation.TransGen.head'_iff.mp hl'
  obtain rfl := (Prod.mk.inj (Option.some.inj (hshift.symm.trans hshift'))).2
  obtain rfl | hrest := Relation.reflTransGen_iff_eq_or_transGen.mp hrest
  · rw [hsent]
    exact fun host => Iff.rfl
  · exact h l hrest

theorem Told.rest {hl rest : Hostlist} {name : Host} (h : Told hl)
    (hshift : hostlistShift hl = some (some name, rest)) :
    (∀ host, host ∈ sentHosts rest ↔ host ∈ hostsOf rest) ∧ Told rest :=
  ⟨h rest (.single ⟨name, hshift⟩), fun l hl => h l (.head ⟨name, hshift⟩ hl)⟩

/-- A text within the limits of the parser that fits the buffer names the hosts of the list. -/
theorem sentHosts_eq {hl : Hostlist} {rs : List HostRange} (hrs : hl.ranges = some rs)
    (hok : ∀ r ∈ rs, r.Ok) (hp : Printable rs) (hfit : (rangedText rs).length < 8196) :
    sentHosts hl = names rs := by
  have hbuf : 8196 ≤ (List.replicate 8196 nul).length := by rw [List.length_replicate]
  obtain ⟨ret, buf, hprint, -, hcase⟩ := hostlistRangedString_spec hrs hbuf
  obtain ⟨hnul, free, hcreate, hnames⟩ := hostlistCreate_rangedText hok hp
  obtain ⟨hbig, -⟩ | ⟨-, -, htext⟩ := hcase
  · omega
  · rw [sentHosts, nodelist, hprint]
    simp only [ cstr_of_prefix hnul htext, hcreate]
    rw [hostsOf, live_ofRanges, hnames]

/-! ## `_forward_thread` -/

/-- The scan of an answer for the host `tmp`, on which an entry without a name
gets the name of the host that answered: whether there was one, whether the
host was found, and the answer. -/
def scanFor (name tmp : Host) : List RetDataInfo → Bool × Bool × List RetDataInfo
  | [] => (false, false, [])
  | info :: infos =>
    if info.nodeName.getD name = tmp then (info.nodeName.isNone, true, info.named name :: infos)
    else
      let r := scanFor name tmp infos
      (info.nodeName.isNone || r.1, r.2.1, info.named name :: r.2.2)

/-- The loop over the hosts of the sublist: `first_node_found`, the answer and
`ret_list`. -/
def partialLoop (name : Host) :
    List Host → Bool → List RetDataInfo → List RetDataInfo →
      Bool × List RetDataInfo × List RetDataInfo
  | [], first, answer, retList => (first, answer, retList)
  | tmp :: tmps, first, answer, retList =>
    let r := scanFor name tmp answer
    partialLoop name tmps (first || r.1) r.2.2
      (if r.2.1 then retList
       else markAsFailedForward retList tmp communicationsConnectionError)

/-- An answer that is not complete: the answer and `ret_list`. -/
def repair (name : Host) (hl : Hostlist) (answer retList : List RetDataInfo) :
    Option (List RetDataInfo × List RetDataInfo) :=
  (walk hl).map fun tmps =>
    let r := partialLoop name tmps false answer retList
    (r.2.1, if r.1 then r.2.2
      else markAsFailedForward r.2.2 name communicationsConnectionError)

/-- The entries of an answer, pushed one by one. -/
def pushAnswer (name : Host) (answer retList : List RetDataInfo) : List RetDataInfo :=
  answer.foldl (fun l info => info.named name :: l) retList

/-- `_forward_thread` from the next host on. -/
def forwardLoop (msgType : Nat) (out : Pattern) :
    Nat → Hostlist → List RetDataInfo → Option (List RetDataInfo)
  | 0, _, _ => none
  | fuel + 1, hl, retList =>
    match hostlistShift hl with
    | none => none
    | some (none, _) => some retList
    | some (some name, hl) =>
      let again (err : Nat) : Option (List RetDataInfo) :=
        let retList := markAsFailedForward retList name err
        if hl.nhosts > 0 then forwardLoop msgType out fuel hl retList else some retList
      match out name (sentHosts hl) with
      | .noAddress => again communicationsConnectionError
      | .noConnection => again communicationsConnectionError
      | .sendFailed errno => again errno
      | outcome =>
        if msgType = requestShutdown ∨ msgType = requestReconfigure then
          -- no answer is waited for
          (drain fuel hl).map fun ns =>
            (name :: ns).foldl (fun l n => ⟨0, 0, some n⟩ :: l) retList
        else
          match outcome with
          | .answer answer =>
            let cnt := (hl.nhosts % 65536).toNat
            if cnt ≠ 0 ∧ answer.length ≤ 1 then again ((answer.head?.map (·.err)).getD 0)
            else if cnt + 1 ≠ answer.length then
              (repair name hl answer retList).map fun r => pushAnswer name r.1 r.2
            else some (pushAnswer name answer retList)
          | .noAnswer errno => again errno
          | _ => none

/-- `_forward_thread`: what it adds to `ret_list`. -/
def forwardThread (msgType : Nat) (out : Pattern) (hl : Hostlist) : Option (List RetDataInfo) :=
  forwardLoop msgType out (hl.nhosts.toNat + 1) hl []

/-! ## `_fwd_tree_thread` -/

/-- `slurm_send_addr_recv_msgs`: the list it returns and whether `errno` is the
connection error afterwards. -/
def sendAddrRecvMsgs (name : Host) : Outcome → List RetDataInfo × Bool
  | .sendFailed errno => ([failed name errno], true)
  | .noAnswer errno => ([failed name errno], true)
  | .answer answer =>
    (answer.map (·.named name), (answer.head?.map (·.err)) = some communicationsConnectionError)
  | _ => ([failed name communicationsConnectionError], true)

/-- `_fwd_tree_thread` from the next host on. -/
def fwdTreeLoop (out : Pattern) :
    Nat → Hostlist → List RetDataInfo → Option (List RetDataInfo)
  | 0, _, _ => none
  | fuel + 1, hl, retList =>
    match hostlistShift hl with
    | none => none
    | some (none, _) => some retList
    | some (some name, hl) =>
      match out name (sentHosts hl) with
      | .noAddress =>
        fwdTreeLoop out fuel hl
          (markAsFailedForward retList name communicationsConnectionError)
      | outcome =>
        let r := sendAddrRecvMsgs name outcome
        if r.2 then fwdTreeLoop out fuel hl (retList ++ r.1) else some (retList ++ r.1)

/-- `_fwd_tree_thread`: what it adds to `ret_list`. -/
def fwdTreeThread (out : Pattern) (hl : Hostlist) : Option (List RetDataInfo) :=
  fwdTreeLoop out (hl.nhosts.toNat + 1) hl []

/-! ## What the threads should do -/

/-- A thread with a list, and what becomes of its contacts. -/
abbrev Thread := Hostlist × Pattern

/-- Every thread of a caller returns and adds one entry for each host of its
list, and the wait for `count` entries ends, in any interleaving of the threads,
when there is one for every host. -/
def AllAnswer (run : Thread → Option (List RetDataInfo)) (count : Int) (threads : List Thread) :
    Prop :=
  ∃ rets, List.Forall₂ (fun t ret => ∃ r, run t = some r ∧ ret = r.map (·.nodeName) ∧
      ret.Perm ((hostsOf t.1).map some)) threads rets ∧
    WaitEnds count ((threads.flatMap fun t => hostsOf t.1).map some) rets

/-- `forward_msg` and `forward_wait`, for every message and every pattern of
outcomes; the count waited for is a `uint16_t`. -/
def ForwardDelivers (hls : List Hostlist) : Prop :=
  ∀ threads : List Thread, threads.map (·.1) = hls → (∀ t ∈ threads, t.2.Valid) → ∀ msgType,
    AllAnswer (fun t => forwardThread msgType t.2 t.1)
      ((hls.flatMap hostsOf).length % 65536 : Nat) threads

/-- `start_msg_tree`, for every pattern of outcomes; the count is an `int`. -/
def TreeDelivers (hls : List Hostlist) : Prop :=
  ∀ threads : List Thread, threads.map (·.1) = hls → (∀ t ∈ threads, t.2.Full) →
    AllAnswer (fun t => fwdTreeThread t.2 t.1) (int32 (hls.flatMap hostsOf).length) threads

/-! ## A partial answer -/

theorem scanFor_others (name tmp : Host) {others : List RetDataInfo} {hosts : List Host}
    (h : others.map (·.nodeName) = hosts.map some) :
    scanFor name tmp others = (false, decide (tmp ∈ hosts), others) := by
  induction others generalizing hosts with
  | nil =>
    obtain rfl : hosts = [] := List.map_eq_nil_iff.mp h.symm
    rfl
  | cons info others ih =>
    obtain ⟨host, hosts, rfl⟩ := List.exists_cons_of_ne_nil
      (fun hnil : hosts = [] => by simp [hnil] at h)
    obtain ⟨hinfo, h⟩ := List.cons.inj h
    simp only at hinfo
    have hnamed : info.named name = info := by
      rw [RetDataInfo.named, hinfo, Option.getD_some, ← hinfo]
    rw [scanFor, hinfo, Option.getD_some, hnamed, ih h]
    by_cases hhost : host = tmp
    · subst hhost
      simp
    · rw [if_neg hhost]
      simp [Ne.symm hhost]

/-- The scan of an answer: the entry in front is that of the host `name`. -/
theorem scanFor_answer (name tmp : Host) {own : RetDataInfo} {others : List RetDataInfo}
    {hosts : List Host} (hown : own.nodeName.getD name = name)
    (h : others.map (·.nodeName) = hosts.map some) :
    scanFor name tmp (own :: others) =
      (own.nodeName.isNone, decide (tmp = name ∨ tmp ∈ hosts), own.named name :: others) := by
  rw [scanFor, hown, scanFor_others name tmp h]
  by_cases htmp : name = tmp
  · subst htmp
    simp
  · rw [if_neg htmp]
    simp [Ne.symm htmp]

/-- Hosts are equal when their letters are. -/
local instance lawfulBEq_host : LawfulBEq (List Char) := inferInstance

/-- The hosts walked that an answer does not name. -/
def missing (name : Host) (hosts tmps : List Host) : List Host :=
  tmps.filter fun tmp => ¬ (tmp = name ∨ tmp ∈ hosts)

theorem missing_cons_found {name tmp : Host} {hosts : List Host} (h : tmp = name ∨ tmp ∈ hosts)
    (tmps : List Host) : missing name hosts (tmp :: tmps) = missing name hosts tmps := by
  rw [missing, List.filter_cons_of_neg, missing]
  simp only [decide_eq_true_eq, not_not]
  exact h

theorem missing_cons {name tmp : Host} {hosts : List Host} (h : ¬ (tmp = name ∨ tmp ∈ hosts))
    (tmps : List Host) : missing name hosts (tmp :: tmps) = tmp :: missing name hosts tmps := by
  rw [missing, List.filter_cons_of_pos, missing]
  simp only [decide_eq_true_eq]
  exact h

theorem partialLoop_named (name : Host) {own : RetDataInfo} {others : List RetDataInfo}
    {hosts : List Host} (hown : own.nodeName = some name)
    (h : others.map (·.nodeName) = hosts.map some) (tmps : List Host) (first : Bool)
    (retList : List RetDataInfo) :
    partialLoop name tmps first (own :: others) retList =
      (first, own :: others,
        ((missing name hosts tmps).map (failed · communicationsConnectionError)).reverse ++
          retList) := by
  have hnamed : own.named name = own := by
    rw [RetDataInfo.named, hown, Option.getD_some, ← hown]
  have hgetD : own.nodeName.getD name = name := by rw [hown, Option.getD_some]
  induction tmps generalizing retList with
  | nil => rfl
  | cons tmp tmps ih =>
    rw [partialLoop, scanFor_answer name tmp hgetD h, hnamed, hown]
    simp only [Option.isNone_some, Bool.or_false]
    rw [ih]
    by_cases hfound : tmp = name ∨ tmp ∈ hosts
    · rw [missing_cons_found hfound]
      simp [hfound]
    · rw [missing_cons hfound]
      simp [hfound, markAsFailedForward]

theorem partialLoop_spec (name : Host) {own : RetDataInfo} {others : List RetDataInfo}
    {hosts : List Host} (hown : own.nodeName = none)
    (h : others.map (·.nodeName) = hosts.map some) {tmps : List Host} (hne : tmps ≠ [])
    (retList : List RetDataInfo) :
    partialLoop name tmps false (own :: others) retList =
      (true, own.named name :: others,
        ((missing name hosts tmps).map (failed · communicationsConnectionError)).reverse ++
          retList) := by
  obtain ⟨tmp, tmps, rfl⟩ := List.exists_cons_of_ne_nil hne
  have hgetD : own.nodeName.getD name = name := by rw [hown, Option.getD_none]
  have hnext : (own.named name).nodeName = some name := by
    rw [RetDataInfo.named, hown, Option.getD_none]
  rw [partialLoop, scanFor_answer name tmp hgetD h, partialLoop_named name hnext h, hown]
  by_cases hfound : tmp = name ∨ tmp ∈ hosts
  · rw [missing_cons_found hfound]
    simp [hfound]
  · rw [missing_cons hfound]
    simp [hfound, markAsFailedForward]

/-- The names of entries. -/
def nodeNames (l : List RetDataInfo) : List (Option Host) := l.map (·.nodeName)

theorem nodeNames_pushAnswer (name : Host) {answer : List RetDataInfo} {hosts : List Host}
    (h : nodeNames (answer.map (·.named name)) = (name :: hosts).map some)
    (retList : List RetDataInfo) :
    (nodeNames (pushAnswer name answer retList)).Perm
      ((name :: hosts).map some ++ nodeNames retList) := by
  have hpush : pushAnswer name answer retList = (answer.map (·.named name)).reverse ++ retList := by
    rw [pushAnswer]
    clear h
    induction answer generalizing retList with
    | nil => rfl
    | cons info answer ih => rw [List.foldl_cons, ih]; simp
  rw [hpush, ← h, nodeNames, nodeNames, nodeNames, List.map_append, List.map_reverse]
  exact List.Perm.append_right _ (List.reverse_perm _)

/-- The names of an answer, the first of them that of the host that answered. -/
theorem nodeNames_named {name : Host} {own : RetDataInfo} {others : List RetDataInfo}
    {hosts : List Host} (hown : own.nodeName.getD name = name)
    (h : others.map (·.nodeName) = hosts.map some) :
    nodeNames ((own :: others).map (·.named name)) = (name :: hosts).map some := by
  have hothers : others.map (fun info => (info.named name).nodeName) = hosts.map some := by
    have hcomp : others.map (fun info => (info.named name).nodeName) =
        (others.map (·.nodeName)).map fun n => some (n.getD name) := by
      rw [List.map_map]
      rfl
    rw [hcomp, h, List.map_map]
    rfl
  rw [nodeNames, List.map_map, List.map_cons, List.map_cons]
  congr 1
  · exact congrArg some hown

/-- An answer that is not complete adds the hosts it names and marks the others,
as they are walked. -/
theorem repair_spec {name : Host} {hl : Hostlist} {answer : List RetDataInfo} {hosts : List Host}
    (ha : Answers answer hosts) {tmps : List Host} (hwalk : walk hl = some tmps) (hne : tmps ≠ [])
    (retList : List RetDataInfo) :
    ∃ r, repair name hl answer retList = some r ∧
      (nodeNames (pushAnswer name r.1 r.2)).Perm
        ((name :: hosts).map some ++
          ((missing name hosts tmps).map some ++ nodeNames retList)) := by
  obtain ⟨own, others, rfl, hown, -, hothers⟩ := ha.own
  have hgetD : (own.named name).nodeName.getD name = name := by
    rw [RetDataInfo.named, hown, Option.getD_none, Option.getD_some]
  rw [repair, hwalk, Option.map_some]
  simp only [partialLoop_spec name hown hothers hne]
  refine ⟨_, rfl, (nodeNames_pushAnswer name (nodeNames_named hgetD hothers) _).trans ?_⟩
  refine List.Perm.append_left _ ?_
  simp only [if_true]
  rw [nodeNames, nodeNames, List.map_append, List.map_reverse, List.map_map]
  exact List.Perm.append_right _ (List.reverse_perm _)

/-! ## Runs of `_forward_thread` -/

theorem hostsOf_ofRanges (rs : List HostRange) (free : Nat) (n : Int) :
    hostsOf (Hostlist.ofRanges rs free n) = names rs := by
  rw [hostsOf, live_ofRanges]

/-- Lists on which a partial answer is repaired: with at most one host behind
the first no answer is partial. -/
def Answerable (ns : List Host) : Prop :=
  ns.length ≤ 2 ∨ ns.Nodup ∧ ∀ host ∈ ns.tail, host.length ≤ maxHostNameLen + 14

theorem Answerable.tail {name : Host} {rest : List Host} (h : Answerable (name :: rest)) :
    Answerable rest := by
  rcases h with h | ⟨h, hshort⟩
  · left
    rw [List.length_cons] at h
    omega
  · exact Or.inr ⟨(List.nodup_cons.mp h).2,
      fun host hhost => hshort host (List.mem_of_mem_tail hhost)⟩

/-- The hosts of a list that are not named and not missing. -/
theorem perm_missing {name : Host} {hosts rest : List Host} (hnodup : (name :: rest).Nodup)
    (hhosts : hosts.Nodup) (hsub : hosts ⊆ rest) :
    (hosts ++ missing name hosts rest).Perm rest := by
  obtain ⟨hname, hrest⟩ := List.nodup_cons.mp hnodup
  refine (List.perm_ext_iff_of_nodup ?_ hrest).mpr fun host => ?_
  · refine List.nodup_append'.mpr ⟨hhosts, hrest.filter _, fun host h1 h2 => ?_⟩
    rw [missing, List.mem_filter, decide_eq_true_eq] at h2
    exact h2.2 (Or.inr h1)
  · rw [List.mem_append, missing, List.mem_filter, decide_eq_true_eq]
    constructor
    · rintro (h | h)
      · exact hsub h
      · exact h.1
    · intro h
      by_cases hh : host ∈ hosts
      · exact Or.inl hh
      · refine Or.inr ⟨h, ?_⟩
        rintro (rfl | hmem)
        · exact hname h
        · exact hh hmem

theorem perm_of_length {hosts rest : List Host} (hhosts : hosts.Nodup) (hsub : hosts ⊆ rest)
    (hlen : hosts.length = rest.length) : hosts.Perm rest :=
  (List.subperm_of_subset hhosts hsub).perm_of_length_le (Nat.le_of_eq hlen.symm)

/-- The entries without an answer. -/
theorem nodeNames_noReply (ns : List Host) (retList : List RetDataInfo) :
    (nodeNames (ns.foldl (fun l n => ⟨0, 0, some n⟩ :: l) retList)).Perm
      (ns.map some ++ nodeNames retList) := by
  induction ns generalizing retList with
  | nil => exact List.Perm.refl _
  | cons n ns ih =>
    refine (ih _).trans ?_
    rw [nodeNames, List.map_cons, List.map_cons, List.cons_append]
    exact List.perm_middle

theorem length_answer {answer : List RetDataInfo} {hosts : List Host} (h : Answers answer hosts) :
    answer.length = hosts.length + 1 := by
  obtain ⟨own, others, rfl, -, -, hothers⟩ := h.own
  have hlen := congrArg List.length hothers
  rw [List.length_map, List.length_map] at hlen
  rw [List.length_cons, hlen]

/-- The thread returns with an entry for each host of its list. -/
theorem forwardLoop_spec {out : Pattern} (hout : out.Valid) (msgType : Nat) {rs : List HostRange}
    (hw : Whole rs) (hs : Sound rs) (ha : Answerable (names rs))
    (hfew : (names rs).length ≤ 65536) {free : Nat}
    (htold : Told (Hostlist.ofRanges rs free (names rs).length)) {fuel : Nat}
    (hfuel : (names rs).length < fuel) (retList : List RetDataInfo) :
    ∃ r, forwardLoop msgType out fuel (Hostlist.ofRanges rs free (names rs).length) retList =
        some r ∧ (nodeNames r).Perm ((names rs).map some ++ nodeNames retList) := by
  induction fuel generalizing rs free retList with
  | zero => omega
  | succ fuel ih =>
    rw [forwardLoop]
    cases hns : names rs with
    | nil =>
      have hshift : hostlistShift (Hostlist.ofRanges rs free 0) =
          some (none, Hostlist.ofRanges rs free 0) := rfl
      rw [List.length_nil, Int.natCast_zero, hshift]
      exact ⟨retList, rfl, List.Perm.refl _⟩
    | cons name rest =>
      obtain ⟨rs', free', hshift, hw', hs', hrest⟩ := hw.hostlistShift hs hns free
      obtain ⟨hsent, htold'⟩ := htold.rest hshift
      rw [hns] at hshift ha hfew hfuel
      rw [List.length_cons] at hfew hfuel
      rw [hostsOf_ofRanges, hrest] at hsent
      rw [hshift, hrest]
      simp only [ofRanges_nhosts]
      -- the host is marked, and the rest is left to the next round
      have hagain : ∀ err, ∃ r, (if (rest.length : Int) > 0 then
          forwardLoop msgType out fuel (Hostlist.ofRanges rs' free' rest.length)
            (markAsFailedForward retList name err)
          else some (markAsFailedForward retList name err)) = some r ∧
          (nodeNames r).Perm ((name :: rest).map some ++ nodeNames retList) := by
        intro err
        have hperm : (rest.map some ++ nodeNames (markAsFailedForward retList name err)).Perm
            ((name :: rest).map some ++ nodeNames retList) := by
          rw [markAsFailedForward, nodeNames, List.map_cons, List.map_cons, List.cons_append]
          exact List.perm_middle
        split
        · obtain ⟨r, hr, hrperm⟩ := ih hw' hs' (by rw [hrest]; exact ha.tail)
            (by rw [hrest]; omega) htold' (by rw [hrest]; omega)
            (markAsFailedForward retList name err)
          rw [hrest] at hr hrperm
          exact ⟨r, hr, hrperm.trans hperm⟩
        · have hnil : rest = [] := List.length_eq_zero_iff.mp (by omega)
          rw [hnil] at hperm ⊢
          exact ⟨_, rfl, hperm⟩
      have hnoReply : ∃ r, ((drain fuel (Hostlist.ofRanges rs' free' rest.length)).map fun ns =>
          (name :: ns).foldl (fun l n => ⟨0, 0, some n⟩ :: l) retList) = some r ∧
          (nodeNames r).Perm ((name :: rest).map some ++ nodeNames retList) := by
        have hdrain := @drain_sound rs' hs' hw'.top free' fuel (by rw [hrest]; omega)
        rw [hw'.map_shiftName hs'.ok, hrest] at hdrain
        rw [hdrain]
        exact ⟨_, rfl, nodeNames_noReply (name :: rest) retList⟩
      cases hoc : out name (sentHosts (Hostlist.ofRanges rs' free' rest.length)) with
      | noAddress => exact hagain _
      | noConnection => exact hagain _
      | sendFailed errno => exact hagain _
      | noAnswer errno =>
        simp only
        split
        · exact hnoReply
        · exact hagain _
      | answer answer =>
        obtain ⟨hosts, hans, hnodup, hincl⟩ := hout _ _ answer hoc
        have hsub : hosts ⊆ rest := fun host hhost => (hsent host).mp (hincl hhost)
        have hlen := length_answer hans
        have hcnt : ((rest.length : Int) % 65536).toNat = rest.length := by omega
        simp only [hcnt]
        split
        · exact hnoReply
        split
        · -- nothing but the nameless entry came back
          exact hagain _
        split
        next hfew' hpart =>
          -- the hosts that the answer leaves out are marked one by one
          have hle := (List.subperm_of_subset hnodup hsub).length_le
          have hmany : ¬ (name :: rest).length ≤ 2 := by
            rw [List.length_cons]
            omega
          obtain ⟨hall, hshort⟩ := ha.resolve_left hmany
          have hwalk := @walk_eq_names _ _ (ofRanges_ranges rs' free' rest.length) hs'.ok
            (by rw [hrest]; exact hshort)
          have hne : names rs' ≠ [] := by
            rw [hrest]
            rintro rfl
            simp at hmany
          obtain ⟨r, hr, hperm⟩ := @repair_spec name _ answer hosts hans _ hwalk hne retList
          rw [hr]
          refine ⟨_, rfl, hperm.trans ?_⟩
          have hmiss := perm_missing hall hnodup hsub
          rw [hrest, ← List.append_assoc, ← List.map_append, List.cons_append]
          exact List.Perm.append_right _ ((hmiss.cons name).map some)
        next hfew' hfull =>
          -- as many entries as hosts, so every host is named
          obtain ⟨own, others, rfl, hown, -, hothers⟩ := hans.own
          have hgetD : own.nodeName.getD name = name := by rw [hown, Option.getD_none]
          have hpush := nodeNames_pushAnswer name (nodeNames_named hgetD hothers) retList
          have hall := perm_of_length hnodup hsub (by omega)
          refine ⟨_, rfl, hpush.trans ?_⟩
          exact List.Perm.append_right _ ((hall.cons name).map some)

/-! ## Lists on which `_forward_thread` fails -/

/-- No host has an address. -/
def nobody : Pattern := fun _ _ => .noAddress

theorem forwardLoop_nobody {msgType fuel : Nat} {hl : Hostlist} {retList r : List RetDataInfo}
    (h : forwardLoop msgType nobody fuel hl retList = some r) :
    ∃ fuel' ns, drain fuel' hl = some ns ∧
      (nodeNames r).Perm (ns.map some ++ nodeNames retList) := by
  induction fuel generalizing hl retList with
  | zero => cases h
  | succ fuel ih =>
    rw [forwardLoop] at h
    cases hshift : hostlistShift hl with
    | none =>
      rw [hshift] at h
      cases h
    | some p =>
      obtain ⟨host, hl'⟩ := p
      rw [hshift] at h
      cases host with
      | none =>
        obtain rfl := Option.some.inj h
        exact ⟨1, [], by rw [drain, hshift], List.Perm.refl _⟩
      | some name =>
        simp only [nobody] at h
        have hmark : ∀ ns : List Host,
            (ns.map some ++ nodeNames (markAsFailedForward retList name
              communicationsConnectionError)).Perm
            ((name :: ns).map some ++ nodeNames retList) := fun ns => List.perm_middle
        split at h
        next =>
          obtain ⟨fuel', ns, hdrain, hperm⟩ := ih h
          refine ⟨fuel' + 1, name :: ns, ?_, hperm.trans (hmark ns)⟩
          rw [drain, hshift]
          simp only
          rw [hdrain]
          rfl
        next hcount =>
          obtain rfl := Option.some.inj h
          refine ⟨2, [name], ?_, hmark []⟩
          have hstop : hostlistShift hl' = some (none, hl') := by
            rw [hostlistShift, if_neg hcount]
          rw [drain, hshift]
          simp only
          rw [drain, hstop]
          rfl

/-- The host that is sent `sent` answers for itself and for `host`. -/
def oneAnswers (sent : List Host) (host : Host) : Pattern := fun _ sublist =>
  if sublist = sent then .answer [⟨0, 0, none⟩, ⟨0, 0, some host⟩] else .noAddress

theorem answers_one (host : Host) : Answers [⟨0, 0, none⟩, ⟨0, 0, some host⟩] [host] :=
  ⟨_, _, rfl, rfl, by decide, rfl⟩

theorem oneAnswers_valid {sent : List Host} {host : Host} (h : host ∈ sent) :
    (oneAnswers sent host).Valid := by
  intro name sublist answer hans
  unfold oneAnswers at hans
  split at hans
  next heq =>
    cases hans
    refine ⟨[host], answers_one host, List.nodup_singleton host, fun x hx => ?_⟩
    rw [List.mem_singleton.mp hx, heq]
    exact h
  next => cases hans

/-- With two hosts or more behind the first, an answer for one of them is
partial. -/
theorem forwardThread_oneAnswers {rs : List HostRange} (hw : Whole rs) (hs : Sound rs)
    {name host : Host} {rest : List Host} (hns : names rs = name :: rest) {free : Nat}
    {left : Hostlist} (hleft : hostlistShift (Hostlist.ofRanges rs free (names rs).length) =
      some (some name, left)) (htwo : 2 ≤ rest.length) (hfew : rest.length < 65536)
    {r : List RetDataInfo}
    (h : forwardThread 0 (oneAnswers (sentHosts left) host)
      (Hostlist.ofRanges rs free (names rs).length) = some r) :
    (nodeNames r).Perm ((name :: host ::
      missing name [host] (rest.map (·.take (maxHostNameLen + 14)))).map some) := by
  obtain ⟨rs', free', hshift, hw', hs', hrest⟩ := hw.hostlistShift hs hns free
  obtain rfl := (Prod.mk.inj (Option.some.inj (hleft.symm.trans hshift))).2
  have hcnt : ((rest.length : Int) % 65536).toNat = rest.length := by omega
  have hlen : rest.length + 1 ≠ 2 := by omega
  have hgo : (repair name (Hostlist.ofRanges rs' free' rest.length)
      [⟨0, 0, none⟩, ⟨0, 0, some host⟩] []).map (fun r => pushAnswer name r.1 r.2) = some r := by
    rw [forwardThread, forwardLoop, hshift, hrest] at h
    simp only [ofRanges_nhosts, oneAnswers, if_true] at h
    rw [if_neg (by decide)] at h
    simpa [hcnt, hlen] using h
  obtain ⟨fixed, hrepair, hfixed⟩ := Option.map_eq_some_iff.mp hgo
  cases hwalk : walk (Hostlist.ofRanges rs' free' rest.length) with
  | none =>
    rw [repair, hwalk] at hrepair
    cases hrepair
  | some tmps =>
    have htmps := walk_eq_take (ofRanges_ranges rs' free' rest.length) hs'.ok hwalk
    rw [hrest] at htmps
    have hne : tmps ≠ [] := by
      rw [htmps, Ne, List.map_eq_nil_iff, ← List.length_eq_zero_iff]
      omega
    obtain ⟨fixed', hrepair', hperm⟩ := repair_spec (answers_one host) hwalk hne []
    rw [hrepair] at hrepair'
    obtain rfl := Option.some.inj hrepair'
    rw [hfixed, htmps] at hperm
    refine hperm.trans (List.Perm.of_eq ?_)
    rw [nodeNames, List.map_nil, List.append_nil]
    rfl

/-- What makes an answer for any one host complete the list. -/
theorem answerable_of_perm {name : Host} {rest : List Host} (htwo : 2 ≤ rest.length)
    (h : ∀ host ∈ rest,
      (host :: missing name [host] (rest.map (·.take (maxHostNameLen + 14)))).Perm rest) :
    Answerable (name :: rest) := by
  right
  have hmiss : ∀ host x, x ∈ missing name [host] (rest.map (·.take (maxHostNameLen + 14))) →
      x.length ≤ maxHostNameLen + 14 ∧ x ≠ name ∧ x ≠ host := by
    intro host x hx
    rw [missing, List.mem_filter, decide_eq_true_eq, not_or, List.mem_singleton] at hx
    obtain ⟨y, -, rfl⟩ := List.mem_map.mp hx.1
    exact ⟨List.length_take_le _ _, hx.2⟩
  -- some host behind the first is not `x`
  have hother : ∀ x : Host, ∃ host ∈ rest, host ≠ x := by
    intro x
    by_contra hall
    simp only [not_exists, not_and, not_not] at hall
    obtain ⟨host, more, rfl⟩ := List.exists_cons_of_ne_nil
      (List.length_pos_iff.mp (by omega : 0 < rest.length))
    have hperm := h host List.mem_cons_self
    have hlen := hperm.length_eq
    rw [List.length_cons, List.length_cons] at hlen
    rw [List.length_cons] at htwo
    obtain ⟨m, hm⟩ := List.exists_mem_of_ne_nil _ (List.length_pos_iff.mp
      (by omega : 0 < (missing name [host]
        ((host :: more).map (·.take (maxHostNameLen + 14)))).length))
    have hmx : m = x := hall m (hperm.mem_iff.mp (List.mem_cons_of_mem _ hm))
    have hhx : host = x := hall host List.mem_cons_self
    exact (hmiss host m hm).2.2 (hmx.trans hhx.symm)
  have hshort : ∀ host ∈ rest, host.length ≤ maxHostNameLen + 14 := by
    intro x hx
    obtain ⟨host, hhost, hne⟩ := hother x
    rcases List.mem_cons.mp ((h host hhost).mem_iff.mpr hx) with rfl | hmem
    · exact absurd rfl hne
    · exact (hmiss host x hmem).1
  have hself : rest.map (·.take (maxHostNameLen + 14)) = rest := by
    have hid : ∀ host ∈ rest, host.take (maxHostNameLen + 14) = id host := fun host hhost =>
      List.take_of_length_le (hshort host hhost)
    rw [List.map_congr_left hid, List.map_id]
  refine ⟨List.nodup_cons.mpr ⟨fun hname => ?_, List.nodup_iff_count_le_one.mpr fun x => ?_⟩,
    hshort⟩
  · obtain ⟨host, hhost, hne⟩ := hother name
    rcases List.mem_cons.mp ((h host hhost).mem_iff.mpr hname) with rfl | hmem
    · exact hne rfl
    · exact (hmiss host name hmem).2.1 rfl
  · by_cases hx : x ∈ rest
    · rw [← (h x hx).count_eq, List.count_cons_self, List.count_eq_zero_of_not_mem]
      exact fun hmem => (hmiss x x hmem).2.2 rfl
    · rw [List.count_eq_zero_of_not_mem hx]
      omega

/-! ## `_fwd_tree_thread` -/

theorem sendAddrRecvMsgs_answer (name : Host) {own : RetDataInfo} (others : List RetDataInfo)
    (h : own.err ≠ communicationsConnectionError) :
    sendAddrRecvMsgs name (.answer (own :: others)) =
      ((own :: others).map (·.named name), false) := by
  rw [sendAddrRecvMsgs, List.head?_cons, Option.map_some, Prod.mk.injEq]
  exact ⟨rfl, decide_eq_false fun heq => h (Option.some.inj heq)⟩

theorem fwdTreeLoop_spec {out : Pattern} (hout : out.Full) {rs : List HostRange} (hw : Whole rs)
    (hs : Sound rs) (hnodup : (names rs).tail.Nodup) {free : Nat}
    (htold : Told (Hostlist.ofRanges rs free (names rs).length)) {fuel : Nat}
    (hfuel : (names rs).length < fuel) (retList : List RetDataInfo) :
    ∃ r, fwdTreeLoop out fuel (Hostlist.ofRanges rs free (names rs).length) retList = some r ∧
      (nodeNames r).Perm ((names rs).map some ++ nodeNames retList) := by
  induction fuel generalizing rs free retList with
  | zero => omega
  | succ fuel ih =>
    rw [fwdTreeLoop]
    cases hns : names rs with
    | nil =>
      have hshift : hostlistShift (Hostlist.ofRanges rs free 0) =
          some (none, Hostlist.ofRanges rs free 0) := rfl
      rw [List.length_nil, Int.natCast_zero, hshift]
      exact ⟨retList, rfl, List.Perm.refl _⟩
    | cons name rest =>
      obtain ⟨rs', free', hshift, hw', hs', hrest⟩ := hw.hostlistShift hs hns free
      obtain ⟨hsent, htold'⟩ := htold.rest hshift
      rw [hns] at hshift hnodup hfuel
      rw [List.length_cons] at hfuel
      rw [List.tail_cons] at hnodup
      rw [hostsOf_ofRanges, hrest] at hsent
      rw [hshift, hrest]
      simp only
      -- one entry for the host, and the rest in the next rounds
      have hnext : ∀ (next : List RetDataInfo),
          (nodeNames next).Perm (some name :: nodeNames retList) →
          ∃ r, fwdTreeLoop out fuel (Hostlist.ofRanges rs' free' rest.length) next = some r ∧
            (nodeNames r).Perm ((name :: rest).map some ++ nodeNames retList) := by
        intro next hone
        obtain ⟨r, hr, hperm⟩ := ih hw' hs'
          (by rw [hrest]; exact hnodup.sublist (List.tail_sublist rest)) htold'
          (by rw [hrest]; omega) next
        rw [hrest] at hr hperm
        refine ⟨r, hr, hperm.trans ((List.Perm.append_left _ hone).trans ?_)⟩
        rw [List.map_cons, List.cons_append]
        exact List.perm_middle
      have happ : ∀ err, (nodeNames (retList ++ [failed name err])).Perm
          (some name :: nodeNames retList) := by
        intro err
        rw [nodeNames, List.map_append]
        exact List.perm_append_comm
      cases hoc : out name (sentHosts (Hostlist.ofRanges rs' free' rest.length)) with
      | noAddress => exact hnext _ (List.Perm.refl _)
      | noConnection => exact hnext _ (happ _)
      | sendFailed errno => exact hnext _ (happ _)
      | noAnswer errno => exact hnext _ (happ _)
      | answer answer =>
        obtain ⟨hosts, hans, hhosts, hsub, hsup⟩ := hout _ _ answer hoc
        obtain ⟨own, others, rfl, hown, herr, hothers⟩ := hans.own
        have hgetD : own.nodeName.getD name = name := by rw [hown, Option.getD_none]
        have hall : hosts.Perm rest :=
          (List.perm_ext_iff_of_nodup hhosts hnodup).mpr fun x =>
            (Iff.intro (@hsub x) (@hsup x)).trans (hsent x)
        simp only [sendAddrRecvMsgs_answer name others herr]
        refine ⟨_, rfl, ?_⟩
        rw [nodeNames, List.map_append]
        refine List.perm_append_comm.trans (List.Perm.append_right _ ?_)
        rw [← nodeNames, nodeNames_named hgetD hothers]
        exact (hall.cons name).map some

theorem fwdTreeLoop_nobody {fuel : Nat} {hl : Hostlist} {retList r : List RetDataInfo}
    (h : fwdTreeLoop nobody fuel hl retList = some r) :
    ∃ fuel' ns, drain fuel' hl = some ns ∧
      (nodeNames r).Perm (ns.map some ++ nodeNames retList) := by
  induction fuel generalizing hl retList with
  | zero => cases h
  | succ fuel ih =>
    rw [fwdTreeLoop] at h
    cases hshift : hostlistShift hl with
    | none =>
      rw [hshift] at h
      cases h
    | some p =>
      obtain ⟨host, hl'⟩ := p
      rw [hshift] at h
      cases host with
      | none =>
        obtain rfl := Option.some.inj h
        exact ⟨1, [], by rw [drain, hshift], List.Perm.refl _⟩
      | some name =>
        obtain ⟨fuel', ns, hdrain, hperm⟩ := ih h
        refine ⟨fuel' + 1, name :: ns, ?_, hperm.trans List.perm_middle⟩
        rw [drain, hshift]
        simp only
        rw [hdrain]
        rfl

/-- Every host answers for all that it was sent. -/
def allAnswer : Pattern := fun _ rest => .answer (⟨0, 0, none⟩ :: rest.dedup.map (⟨0, 0, some ·⟩))

theorem allAnswer_full : allAnswer.Full := by
  intro name rest answer h
  cases h
  refine ⟨rest.dedup, ⟨_, _, rfl, rfl, by decide, ?_⟩, rest.nodup_dedup,
    fun x hx => List.mem_dedup.mp hx, fun x hx => List.mem_dedup.mpr hx⟩
  rw [List.map_map]
  rfl

theorem fwdTreeThread_allAnswer {hl left : Hostlist} {name : Host}
    (hleft : hostlistShift hl = some (some name, left)) {r : List RetDataInfo}
    (h : fwdTreeThread allAnswer hl = some r) :
    nodeNames r = (name :: (sentHosts left).dedup).map some := by
  rw [fwdTreeThread, fwdTreeLoop, hleft] at h
  simp only [allAnswer] at h
  rw [sendAddrRecvMsgs_answer name _ (by decide)] at h
  obtain rfl := Option.some.inj h
  refine nodeNames_named rfl ?_
  rw [List.map_map]
  rfl

/-! ## Callers -/

theorem exists_forall₂ {α β : Type} {R : α → β → Prop} {as : List α} (h : ∀ a ∈ as, ∃ b, R a b) :
    ∃ bs, List.Forall₂ R as bs := by
  induction as with
  | nil => exact ⟨[], .nil⟩
  | cons a as ih =>
    obtain ⟨b, hb⟩ := h a List.mem_cons_self
    obtain ⟨bs, hbs⟩ := ih fun a' ha' => h a' (List.mem_cons_of_mem _ ha')
    exact ⟨b :: bs, .cons hb hbs⟩

/-- Threads that each add an entry for each host of their list answer for all. -/
theorem allAnswer_of_each {run : Thread → Option (List RetDataInfo)} {threads : List Thread}
    (h : ∀ t ∈ threads, ∃ r, run t = some r ∧
      (nodeNames r).Perm ((hostsOf t.1).map some)) :
    AllAnswer run (threads.flatMap fun t => hostsOf t.1).length threads := by
  obtain ⟨rets, hrets⟩ := @exists_forall₂ _ _ (fun t ret => ∃ r, run t = some r ∧
      ret = r.map (·.nodeName) ∧ ret.Perm ((hostsOf t.1).map some)) threads fun t ht => by
    obtain ⟨r, hr, hperm⟩ := h t ht
    exact ⟨_, r, hr, rfl, hperm⟩
  refine ⟨rets, hrets, ?_⟩
  have hall : rets.flatten.Perm ((threads.flatMap fun t => hostsOf t.1).map some) := by
    clear h
    induction hrets with
    | nil => exact List.Perm.refl _
    | cons hone _ ih =>
      obtain ⟨r, -, -, hperm⟩ := hone
      rw [List.flatten_cons, List.flatMap_cons, List.map_append]
      exact hperm.append ih
  have hwait := waitEnds_of_perm hall
  rw [List.length_map] at hwait
  exact hwait

theorem AllAnswer.each {run : Thread → Option (List RetDataInfo)} {count : Int}
    {threads : List Thread} (h : AllAnswer run count threads) {t : Thread} (ht : t ∈ threads) :
    ∃ r, run t = some r ∧ (nodeNames r).Perm ((hostsOf t.1).map some) := by
  obtain ⟨rets, hrets, -⟩ := h
  induction hrets with
  | nil => cases ht
  | cons hone _ ih =>
    rcases List.mem_cons.mp ht with rfl | ht
    · obtain ⟨r, hr, rfl, hperm⟩ := hone
      exact ⟨r, hr, hperm⟩
    · exact ih ht

/-- The count that is waited for is the number of hosts. -/
theorem AllAnswer.count_eq {run : Thread → Option (List RetDataInfo)} {count : Int}
    {threads : List Thread} (h : AllAnswer run count threads)
    (hne : (threads.flatMap fun t => hostsOf t.1) ≠ []) :
    count = (threads.flatMap fun t => hostsOf t.1).length := by
  obtain ⟨rets, hrets, hwait⟩ := h
  have hlen : rets.flatten.length = (threads.flatMap fun t => hostsOf t.1).length := by
    clear hwait hne
    induction hrets with
    | nil => rfl
    | cons hone _ ih =>
      obtain ⟨r, -, -, hperm⟩ := hone
      rw [List.flatten_cons, List.flatMap_cons, List.length_append, List.length_append, ih,
        hperm.length_eq, List.length_map]
  have hcount := length_of_waitEnds hwait fun hnil => by
    rw [hnil] at hlen
    exact hne (List.length_eq_zero_iff.mp hlen.symm)
  rw [hcount, hlen]

/-! ## One entry for each host -/

section

variable {hls : List Hostlist}

theorem flatMap_map_fst {threads : List Thread} (h : threads.map (·.1) = hls) :
    hls.flatMap hostsOf = threads.flatMap fun t => hostsOf t.1 := by
  rw [← h, List.flatMap_map]

/-- The threads of the lists, with one pattern. -/
theorem mem_threads {out : Pattern} {hl : Hostlist} (h : hl ∈ hls) :
    (hl, out) ∈ hls.map fun l => ((l, out) : Thread) := List.mem_map_of_mem h

theorem map_threads_fst (out : Pattern) :
    (hls.map fun l => ((l, out) : Thread)).map (·.1) = hls := by
  rw [List.map_map]
  exact List.map_id hls

theorem forall_threads {out : Pattern} {P : Pattern → Prop} (h : P out) :
    ∀ t ∈ hls.map fun l => ((l, out) : Thread), P t.2 := by
  intro t ht
  obtain ⟨l, -, rfl⟩ := List.mem_map.mp ht
  exact h

theorem perm_of_map_some {as bs : List Host} (h : (as.map some).Perm (bs.map some)) :
    as.Perm bs := by
  have h := h.filterMap id
  rw [List.filterMap_map, List.filterMap_map] at h
  simpa using h

/-- A list that drains to its hosts under the threads' loops is whole. -/
theorem whole_of_drain {hl : Hostlist} {rs : List HostRange} (h : Holds hl rs)
    (ho : ∀ r ∈ rs, r.Ordered) {r : List RetDataInfo}
    (hperm : (nodeNames r).Perm ((names rs).map some))
    (hdrain : ∃ fuel ns, drain fuel hl = some ns ∧
      (nodeNames r).Perm (ns.map some ++ nodeNames [])) :
    Whole rs := by
  obtain ⟨fuel, ns, hns, hall⟩ := hdrain
  have hnil : nodeNames [] = [] := rfl
  rw [hnil, List.append_nil] at hall
  exact (drain_perm_iff h ho).mp ⟨fuel, ns, hns, perm_of_map_some (hall.symm.trans hperm)⟩

theorem hostsOf_of_holds {hl : Hostlist} {rs : List HostRange} (h : Holds hl rs) :
    hostsOf hl = names rs := by
  obtain ⟨⟨free, rfl⟩, -⟩ := h
  exact hostsOf_ofRanges rs free _

/-- The shape of a sound list. -/
theorem shape_of_holds {hl : Hostlist} {rs : List HostRange} (h : Holds hl rs) (hs : Sound rs) :
    ∃ free, hl = Hostlist.ofRanges rs free (names rs).length := by
  obtain ⟨⟨free, rfl⟩, -⟩ := h
  have hf := hs.fits
  rw [hs.hosts_eq, int32_of_range (by omega) (by omega)]
  exact ⟨free, rfl⟩

/-- A list on which `_forward_thread` adds an entry for each host. -/
theorem forwardThread_spec {hl : Hostlist} {rs : List HostRange} (h : Holds hl rs)
    (hw : Whole rs) (hs : Sound rs) (ha : Answerable (names rs)) (hfew : (names rs).length ≤ 65536)
    (htold : Told hl) {out : Pattern} (hout : out.Valid) (msgType : Nat) :
    ∃ r, forwardThread msgType out hl = some r ∧
      (nodeNames r).Perm ((hostsOf hl).map some) := by
  obtain ⟨free, rfl⟩ := shape_of_holds h hs
  obtain ⟨r, hr, hperm⟩ := @forwardLoop_spec out hout msgType rs hw hs ha hfew free htold
    ((names rs).length + 1) (by omega) []
  have hnil : nodeNames [] = [] := rfl
  rw [hnil, List.append_nil] at hperm
  rw [hostsOf_ofRanges]
  exact ⟨r, hr, hperm⟩

theorem fwdTreeThread_spec {hl : Hostlist} {rs : List HostRange} (h : Holds hl rs)
    (hw : Whole rs) (hs : Sound rs) (hnodup : (names rs).tail.Nodup) (htold : Told hl)
    {out : Pattern} (hout : out.Full) :
    ∃ r, fwdTreeThread out hl = some r ∧
      (nodeNames r).Perm ((hostsOf hl).map some) := by
  obtain ⟨free, rfl⟩ := shape_of_holds h hs
  obtain ⟨r, hr, hperm⟩ := @fwdTreeLoop_spec out hout rs hw hs hnodup free htold
    ((names rs).length + 1) (by omega) []
  have hnil : nodeNames [] = [] := rfl
  rw [hnil, List.append_nil] at hperm
  rw [hostsOf_ofRanges]
  exact ⟨r, hr, hperm⟩

/-- A list on which `_forward_thread` adds an entry for each host, whatever
becomes of the contacts. -/
theorem answerable_of_forwardThread {hl : Hostlist} {rs : List HostRange} (h : Holds hl rs)
    (ho : ∀ r ∈ rs, r.Ordered) (hfew : (names rs).length < 65536) (htold : Told hl)
    (hall : ∀ out : Pattern, out.Valid → ∃ r, forwardThread 0 out hl = some r ∧
      (nodeNames r).Perm ((hostsOf hl).map some)) :
    Whole rs ∧ Answerable (names rs) := by
  have hw : Whole rs := by
    obtain ⟨r, hr, hperm⟩ := hall nobody fun _ _ _ hans => by cases hans
    rw [hostsOf_of_holds h] at hperm
    exact whole_of_drain h ho hperm (forwardLoop_nobody hr)
  refine ⟨hw, ?_⟩
  by_cases htwo : (names rs).length ≤ 2
  · exact Or.inl htwo
  · have hs := hw.sound h.ok ho
    obtain ⟨free, rfl⟩ := shape_of_holds h hs
    cases hns : names rs with
    | nil => simp [hns] at htwo
    | cons name rest =>
      rw [hns, List.length_cons] at htwo hfew
      obtain ⟨rs', free', hleft, -, -, hrest⟩ := hw.hostlistShift hs hns free
      have hsent := (htold.rest hleft).1
      rw [hostsOf_ofRanges, hrest] at hsent
      refine answerable_of_perm (by omega) fun host hhost => ?_
      obtain ⟨r, hr, hperm⟩ := hall _ (oneAnswers_valid ((hsent host).mpr hhost))
      have hone := forwardThread_oneAnswers hw hs hns hleft (by omega) (by omega) hr
      rw [hostsOf_ofRanges, hns] at hperm
      exact (List.perm_cons name).mp (perm_of_map_some (hone.symm.trans hperm))

theorem nodup_of_fwdTreeThread {hl : Hostlist} {rs : List HostRange} (h : Holds hl rs)
    (ho : ∀ r ∈ rs, r.Ordered) (htold : Told hl)
    (hall : ∀ out : Pattern, out.Full → ∃ r, fwdTreeThread out hl = some r ∧
      (nodeNames r).Perm ((hostsOf hl).map some)) :
    Whole rs ∧ (names rs).tail.Nodup := by
  have hw : Whole rs := by
    obtain ⟨r, hr, hperm⟩ := hall nobody fun _ _ _ hans => by cases hans
    rw [hostsOf_of_holds h] at hperm
    exact whole_of_drain h ho hperm (fwdTreeLoop_nobody hr)
  refine ⟨hw, ?_⟩
  have hs := hw.sound h.ok ho
  obtain ⟨free, rfl⟩ := shape_of_holds h hs
  cases hns : names rs with
  | nil => exact List.nodup_nil
  | cons name rest =>
    obtain ⟨rs', free', hleft, -, -, -⟩ := hw.hostlistShift hs hns free
    obtain ⟨r, hr, hperm⟩ := hall allAnswer allAnswer_full
    rw [fwdTreeThread_allAnswer hleft hr, hostsOf_ofRanges, hns] at hperm
    have hdedup := (List.perm_cons name).mp (perm_of_map_some hperm)
    exact hdedup.nodup_iff.mp (List.nodup_dedup _)

end

/-- For which lists, of those whose texts fit, every caller gets one entry for each host,
whatever becomes of the contacts. -/
theorem delivers_iff {hls : List Hostlist} (hb : ∀ hl ∈ hls, Built hl)
    (ho : ∀ hl ∈ hls, ∀ r ∈ hl.live, r.Ordered) (htold : ∀ hl ∈ hls, Told hl) :
    (ForwardDelivers hls ↔ (hls.flatMap hostsOf).length < 65536 ∧
      ∀ hl ∈ hls, Whole hl.live ∧ Answerable (hostsOf hl)) ∧
    (TreeDelivers hls ↔ (hls.flatMap hostsOf).length < 2147483648 ∧
      ∀ hl ∈ hls, Whole hl.live ∧ (hostsOf hl).tail.Nodup) := by
  have hholds : ∀ hl ∈ hls, Holds hl hl.live := by
    intro hl hhl
    obtain ⟨rs, hrs⟩ := (hb hl hhl).holds
    obtain ⟨⟨free, rfl⟩, hok⟩ := hrs
    rw [live_ofRanges]
    exact ⟨⟨free, rfl⟩, hok⟩
  -- a thread has no more hosts than all of them
  have hlength : ∀ hl ∈ hls, (hostsOf hl).length ≤ (hls.flatMap hostsOf).length := by
    intro hl hhl
    obtain ⟨as, bs, rfl⟩ := List.append_of_mem hhl
    rw [List.flatMap_append, List.flatMap_cons]
    simp only [List.length_append]
    omega
  constructor
  · constructor
    · intro h
      have hfew : (hls.flatMap hostsOf).length < 65536 := by
        by_cases hnil : hls.flatMap hostsOf = []
        · rw [hnil]
          decide
        · have hall := h _ (map_threads_fst nobody)
            (forall_threads fun _ _ _ hans => by cases hans) 0
          have hflat := flatMap_map_fst (@map_threads_fst hls nobody)
          have hcount := hall.count_eq (by rw [← hflat]; exact hnil)
          rw [← hflat] at hcount
          omega
      refine ⟨hfew, fun hl hhl => ?_⟩
      refine answerable_of_forwardThread (hholds hl hhl) (ho hl hhl)
        (Nat.lt_of_le_of_lt (hlength hl hhl) hfew) (htold hl hhl) fun out hout => ?_
      exact (h _ (map_threads_fst out) (forall_threads hout) 0).each (mem_threads hhl)
    · rintro ⟨hfew, h⟩ threads hthreads hvalid msgType
      have hcount : (hls.flatMap hostsOf).length % 65536 =
          (threads.flatMap fun t => hostsOf t.1).length := by
        rw [Nat.mod_eq_of_lt hfew, flatMap_map_fst hthreads]
      rw [hcount]
      refine allAnswer_of_each fun t ht => ?_
      have hhl : t.1 ∈ hls := by
        rw [← hthreads]
        exact List.mem_map_of_mem ht
      obtain ⟨hw, ha⟩ := h t.1 hhl
      exact forwardThread_spec (hholds _ hhl) hw (hw.sound (hholds _ hhl).ok (ho _ hhl)) ha
        (Nat.le_of_lt (Nat.lt_of_le_of_lt (hlength _ hhl) hfew)) (htold _ hhl) (hvalid t ht)
        msgType
  · constructor
    · intro h
      have hfew : (hls.flatMap hostsOf).length < 2147483648 := by
        by_cases hnil : hls.flatMap hostsOf = []
        · rw [hnil]
          decide
        · have hall := h _ (map_threads_fst nobody)
            (forall_threads fun _ _ _ hans => by cases hans)
          have hflat := flatMap_map_fst (@map_threads_fst hls nobody)
          have hcount := hall.count_eq (by rw [← hflat]; exact hnil)
          rw [← hflat] at hcount
          have := int32_lt (hls.flatMap hostsOf).length
          omega
      refine ⟨hfew, fun hl hhl => ?_⟩
      refine nodup_of_fwdTreeThread (hholds hl hhl) (ho hl hhl) (htold hl hhl) fun out hout => ?_
      exact (h _ (map_threads_fst out) (forall_threads hout)).each (mem_threads hhl)
    · rintro ⟨hfew, h⟩ threads hthreads hfull
      have hcount : int32 (hls.flatMap hostsOf).length =
          (threads.flatMap fun t => hostsOf t.1).length := by
        rw [int32_of_range (by omega) (by omega), flatMap_map_fst hthreads]
      rw [hcount]
      refine allAnswer_of_each fun t ht => ?_
      have hhl : t.1 ∈ hls := by
        rw [← hthreads]
        exact List.mem_map_of_mem ht
      obtain ⟨hw, hnodup⟩ := h t.1 hhl
      exact fwdTreeThread_spec (hholds _ hhl) hw (hw.sound (hholds _ hhl).ok (ho _ hhl)) hnodup
        (htold _ hhl) (hfull t ht)

/-- Three hosts, all reached or not. -/
theorem delivers_three :
    ∃ hl, hostlistCreate "a[1-2],b".toList = .ok hl ∧
      (ForwardDelivers [hl] ↔ ([hl].flatMap hostsOf).length < 65536 ∧
        ∀ l ∈ [hl], Whole l.live ∧ Answerable (hostsOf l)) ∧
      (TreeDelivers [hl] ↔ ([hl].flatMap hostsOf).length < 2147483648 ∧
        ∀ l ∈ [hl], Whole l.live ∧ (hostsOf l).tail.Nodup) := by
  have htold : Told (Hostlist.ofRanges [hostrangeCreate ['a'] 1 2 1, hostrangeCreateSingle ['b']]
      14 3) := by
    refine told_of_shift rfl (by decide +kernel) ?_
    refine told_of_shift rfl (by decide +kernel) ?_
    exact told_of_shift rfl (by decide +kernel) (told_of_empty rfl)
  refine ⟨Hostlist.ofRanges [hostrangeCreate ['a'] 1 2 1, hostrangeCreateSingle ['b']] 14 3,
    by decide, delivers_iff (fun hl hhl => ?_) (fun hl hhl => ?_) fun hl hhl => ?_⟩
  · obtain rfl := List.mem_singleton.mp hhl
    exact .create (by decide : hostlistCreate "a[1-2],b".toList = _)
  · obtain rfl := List.mem_singleton.mp hhl
    rw [live_ofRanges]
    decide
  · obtain rfl := List.mem_singleton.mp hhl
    exact htold

/-- A host whose name `hostlist_next` cuts short is answered for and marked as
failed as well. -/
theorem not_forwardDelivers_long :
    ∃ hl, hostlistCreate ("a,b,".toList ++ List.replicate 79 'x') = .ok hl ∧
      ¬ ForwardDelivers [hl] := by
  refine ⟨Hostlist.ofRanges [hostrangeCreateSingle ['a'], hostrangeCreateSingle ['b'],
    hostrangeCreateSingle (List.replicate 79 'x')] 13 3, by decide +kernel, fun h => ?_⟩
  have hvalid : (oneAnswers [['b'], List.replicate 79 'x'] (List.replicate 79 'x')).Valid :=
    oneAnswers_valid (List.mem_cons_of_mem _ List.mem_cons_self)
  obtain ⟨r, hr, hperm⟩ := (h _ (map_threads_fst _) (forall_threads hvalid) 0).each
    (mem_threads List.mem_cons_self)
  have hfour : (r.map (·.nodeName)).length = 4 := by
    have hlen : ((forwardThread 0 (oneAnswers [['b'], List.replicate 79 'x']
        (List.replicate 79 'x')) (Hostlist.ofRanges [hostrangeCreateSingle ['a'],
        hostrangeCreateSingle ['b'], hostrangeCreateSingle (List.replicate 79 'x')] 13 3)).map
        fun r => (r.map (·.nodeName)).length) = some 4 := by decide +kernel
    rw [hr, Option.map_some] at hlen
    exact Option.some.inj hlen
  have hthree := hperm.length_eq
  rw [nodeNames, hfour] at hthree
  exact absurd hthree (by decide +kernel)

end Slurm.Forward
