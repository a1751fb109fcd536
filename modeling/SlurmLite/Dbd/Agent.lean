import SlurmLite.Base.Run
import SlurmLite.Dbd.StateFile

/-!
# The agent of a SlurmDBD connection

Requests are put into a list that a thread sends from, one at a time, while more are put in. The
list is saved when the thread ends and loaded when the next one is created, perhaps by another
process.

* **Steps** (`step`): what the callers, the thread and the operating system do.
* **Order** (`acked_in_order`): while the lists are saved by steady calls and a state file that is
  there is read and removed (`Sound`), no request is confirmed twice, out of order or without
  having been accepted, and the list never overflows.
* **Loss** (`nothing_lost`): what has to go well for none to be lost.
-/

namespace Slurm.Dbd

open Base.Run

/-- `MAX_AGENT_QUEUE`. -/
def maxAgentQueue : Nat := 10000

/-- The state behind `slurmdbd_defs.c`: `alive` is whether the thread runs, `sending` the request
it has taken from the list and waits for the confirmation of, `file` what is saved. `accepted` and
`acked` are history. -/
structure Agent where
  agentList : Option (List Msg)
  agentTid : Bool
  alive : Bool
  agentShutdown : Bool
  sending : Option Msg
  file : Option (List UInt8)
  accepted : List Msg
  acked : List Msg

/-- Nothing accepted yet. -/
def Agent.start : Agent := ⟨none, false, false, false, none, none, [], []⟩

/-- What `open` and `unlink` do when the state file is to be loaded. -/
structure Loading where
  opens : Bool
  unlinks : Bool
deriving DecidableEq

/-- What happens next. -/
inductive Act where
  /-- `slurm_send_slurmdbd_msg`. -/
  | send (m : Msg) (os : Loading)
  /-- `slurm_open_slurmdbd_conn`. -/
  | openConn (makeAgent : Bool) (os : Loading)
  /-- `_shutdown_agent` begins. -/
  | shutdown
  /-- The thread takes the head of the list and sends it. -/
  | peek
  /-- The request was confirmed, or not. -/
  | reply (ok : Bool)
  /-- The thread leaves its loop, and the list is saved if the file can be opened. -/
  | ends (opened : Bool) (ws : List Write)
  /-- `_shutdown_agent` ends; a thread that has not is cancelled. -/
  | join
  /-- The process dies. -/
  | crash
deriving DecidableEq

/-- A job or step start, which is purged from a list that is full. -/
def isStart (m : Msg) : Bool := m.msgType.any fun t => t = dbdJobStart || t = dbdStepStart

/-- `_purge_job_start_req`. -/
def purgeJobStartReq (agentList : List Msg) : List Msg := agentList.filter fun m => !isStart m

/-- The requests in the state file, if there is one. -/
def Agent.inFile (s : Agent) : List Msg := (s.file.map loadDbdState).getD []

/-- `_load_dbd_state`: the requests are added to the list and the file is removed. Where it cannot
be opened nothing is done, and whether `unlink` fails is not looked at. -/
def loadState (s : Agent) (agentList : List Msg) (os : Loading) : Agent :=
  if os.opens then
    { s with
      agentList := some (agentList ++ s.inFile)
      file := if os.unlinks then none else s.file }
  else { s with agentList := some agentList }

/-- `_create_agent`. -/
def createAgent (s : Agent) (os : Loading) : Agent :=
  let s := { s with agentShutdown := false }
  let s :=
    match s.agentList with
    | some _ => s
    | none => loadState s [] os
  if s.agentTid then s else { s with agentTid := true, alive := true }

/-- Whether there are a list and a thread identifier. -/
def Agent.ready (s : Agent) : Bool := s.agentTid && s.agentList.isSome

/-- The rest of `slurm_send_slurmdbd_msg`: whether the request is accepted. -/
def enqueue (s : Agent) (m : Msg) : Bool × Agent :=
  match s.agentList with
  | none => (false, s)
  | some agentList =>
    let agentList :=
      if agentList.length = maxAgentQueue - 1 then purgeJobStartReq agentList else agentList
    if agentList.length < maxAgentQueue then
      (true, { s with agentList := some (agentList ++ [m]), accepted := s.accepted ++ [m] })
    else (false, { s with agentList := some agentList })

/-- `slurm_send_slurmdbd_msg`. -/
def sendSlurmdbdMsg (s : Agent) (m : Msg) (os : Loading) : Bool × Agent :=
  enqueue (if s.ready then s else createAgent s os) m

/-- `slurm_open_slurmdbd_conn`. -/
def openSlurmdbdConn (s : Agent) (makeAgent : Bool) (os : Loading) : Agent :=
  if makeAgent && !s.ready then createAgent s os
  else
    match s.agentList with
    | some agentList => loadState s agentList os
    | none => s

/-- The end of `_agent`. -/
def agentEnds (s : Agent) (opened : Bool) (ws : List Write) : Agent :=
  { s with
    agentList := none
    alive := false
    sending := none
    file := if opened then some (saveDbdState ws (s.agentList.getD [])).1 else s.file }

/-- One step. -/
def step (s : Agent) : Act → Option Agent
  | .send m os => some (sendSlurmdbdMsg s m os).2
  | .openConn makeAgent os => some (openSlurmdbdConn s makeAgent os)
  | .shutdown => some (if s.agentTid then { s with agentShutdown := true } else s)
  | .peek =>
    if s.alive ∧ s.sending = none then
      match s.agentList with
      | some (m :: _) => some { s with sending := some m }
      | _ => none
    else none
  | .reply ok =>
    s.sending.bind fun m =>
      let s := { s with sending := none }
      if ok then
        some { s with agentList := s.agentList.map List.tail, acked := s.acked ++ [m] }
      else some s
  | .ends opened ws =>
    if s.alive ∧ s.agentShutdown then some (agentEnds s opened ws) else none
  | .join =>
    if s.agentTid then some { s with agentTid := false, alive := false, sending := none }
    else none
  | .crash =>
    some { s with
      agentList := none, agentTid := false, alive := false, agentShutdown := false
      sending := none }

/-- What has been accepted and not confirmed: the list, or what would be loaded. -/
def Agent.pending (s : Agent) : List Msg := s.agentList.getD s.inFile

/-- A state file that is there is opened and removed when it is to be loaded. -/
def Agent.Clears (s : Agent) (os : Loading) : Prop :=
  s.file = none ∨ (os.opens = true ∧ os.unlinks = true)

instance (s : Agent) (os : Loading) : Decidable (s.Clears os) :=
  inferInstanceAs (Decidable (_ ∨ _ ∧ _))

/-! ## What each step does -/

section

variable {s t : Agent} {m : Msg} {os : Loading}

/-- The state with an agent. -/
def Agent.withAgent (s : Agent) (alive agentShutdown : Bool) : Agent :=
  { s with
    agentList := some s.pending, agentTid := true, alive := alive, agentShutdown := agentShutdown
    file := if s.agentList.isSome then s.file else none }

/-- What the file holds is in the list then, and there is no file. -/
theorem loadState_of_clears (h : s.Clears os) (agentList : List Msg) :
    loadState s agentList os =
      { s with agentList := some (agentList ++ s.inFile), file := none } := by
  unfold loadState
  rcases h with hnone | ⟨hopens, hunlinks⟩
  · have hin : s.inFile = [] := by
      rw [Agent.inFile, hnone]
      rfl
    rw [hin, List.append_nil, hnone, ite_self]
    split
    · rfl
    · rw [← hnone]
  · rw [if_pos hopens, if_pos hunlinks]

theorem createAgent_eq (h : s.Clears os) :
    ∃ alive, createAgent s os = s.withAgent alive false := by
  unfold createAgent Agent.withAgent Agent.pending
  obtain ⟨agentList, agentTid, alive, agentShutdown, sending, file, accepted, acked⟩ := s
  cases agentList with
  | some agentList => cases agentTid <;> exact ⟨_, rfl⟩
  | none =>
    have hload := loadState_of_clears
      (s := ⟨none, agentTid, alive, false, sending, file, accepted, acked⟩) h []
    simp only [hload]
    cases agentTid <;> exact ⟨_, rfl⟩

theorem withAgent_of_ready (h : s.ready = true) : s = s.withAgent s.alive s.agentShutdown := by
  obtain ⟨htid, hlist⟩ := Bool.and_eq_true_iff.mp h
  obtain ⟨agentList, hq⟩ := Option.isSome_iff_exists.mp hlist
  obtain ⟨_, _, alive, agentShutdown, sending, file, accepted, acked⟩ := s
  obtain rfl := hq
  obtain rfl := htid
  rfl

/-- The list that a request is put into. -/
def Agent.purged (s : Agent) : List Msg :=
  if s.pending.length = maxAgentQueue - 1 then purgeJobStartReq s.pending else s.pending

theorem step_send (hclear : s.Clears os) (h : step s (.send m os) = some t) :
    ∃ alive shutdown, t =
      if s.purged.length < maxAgentQueue then
        { s.withAgent alive shutdown with
          agentList := some (s.purged ++ [m]), accepted := s.accepted ++ [m] }
      else { s.withAgent alive shutdown with agentList := some s.purged } := by
  have hwith : ∃ alive shutdown,
      (if s.ready then s else createAgent s os) = s.withAgent alive shutdown := by
    by_cases hready : s.ready = true
    · rw [if_pos hready]
      exact ⟨_, _, withAgent_of_ready hready⟩
    · rw [if_neg hready]
      obtain ⟨alive, halive⟩ := createAgent_eq hclear
      exact ⟨alive, false, halive⟩
  obtain ⟨alive, shutdown, hwith⟩ := hwith
  refine ⟨alive, shutdown, ?_⟩
  obtain rfl := Option.some.inj h
  rw [sendSlurmdbdMsg, hwith]
  show (if s.purged.length < maxAgentQueue then _ else _ : Bool × Agent).2 = _
  split <;> rfl

theorem step_openConn {makeAgent : Bool} (hclear : s.Clears os)
    (h : step s (.openConn makeAgent os) = some t) :
    t = s ∨ (∃ alive shutdown, t = s.withAgent alive shutdown) ∨
      ∃ agentList, s.agentList = some agentList ∧
        t = { s with agentList := some (agentList ++ s.inFile), file := none } := by
  obtain rfl := Option.some.inj h
  unfold openSlurmdbdConn
  split
  · obtain ⟨alive, halive⟩ := createAgent_eq hclear
    exact .inr (.inl ⟨alive, false, halive⟩)
  · split
    next agentList hq => exact .inr (.inr ⟨agentList, hq, loadState_of_clears hclear agentList⟩)
    · exact .inl rfl

theorem step_peek (h : step s .peek = some t) :
    s.alive = true ∧ s.sending = none ∧
      ∃ m rest, s.agentList = some (m :: rest) ∧ t = { s with sending := some m } := by
  simp only [step] at h
  split at h
  next hc =>
    split at h
    next m rest hq => exact ⟨hc.1, hc.2, m, rest, hq, (Option.some.inj h).symm⟩
    · cases h
  · cases h

theorem step_reply {ok : Bool} (h : step s (.reply ok) = some t) :
    ∃ m, s.sending = some m ∧
      t = if ok then { s with
          sending := none, agentList := s.agentList.map List.tail, acked := s.acked ++ [m] }
        else { s with sending := none } := by
  obtain ⟨m, hm, h⟩ := Option.bind_eq_some_iff.mp h
  refine ⟨m, hm, ?_⟩
  cases ok <;> exact (Option.some.inj h).symm

theorem step_ends {opened : Bool} {ws : List Write} (h : step s (.ends opened ws) = some t) :
    s.alive = true ∧ t = agentEnds s opened ws := by
  simp only [step] at h
  split at h
  next hc => exact ⟨hc.1, (Option.some.inj h).symm⟩
  · cases h

theorem step_join (h : step s .join = some t) :
    t = { s with agentTid := false, alive := false, sending := none } := by
  simp only [step] at h
  split at h
  · exact (Option.some.inj h).symm
  · cases h

end

/-! ## Order -/

/-- The calls that save the list are steady, and a state file that is there is loaded and
removed. -/
def Sound (s : Agent) : Act → Prop
  | .ends _ ws => Steady ws (s.agentList.getD [])
  | .send _ os | .openConn _ os => s.Clears os
  | _ => True

instance (s : Agent) (a : Act) : Decidable (Sound s a) :=
  match a with
  | .ends _ ws => inferInstanceAs (Decidable (Steady ws (s.agentList.getD [])))
  | .send _ os | .openConn _ os => inferInstanceAs (Decidable (s.Clears os))
  | .shutdown | .peek | .reply _ | .join | .crash => isTrue trivial

/-- What was confirmed and what is pending are accepted requests in their order, and so they are
when the request that is being sent is confirmed and the head of the list goes. -/
structure Ordered (s : Agent) : Prop where
  file : s.agentList.isSome → s.file = none
  order : (s.acked ++ s.pending).Sublist s.accepted
  bound : s.pending.length ≤ maxAgentQueue
  thread : s.alive = true → s.agentTid = true ∧ s.agentList.isSome
  sending : ∀ m, s.sending = some m → s.agentList.isSome ∧ s.pending ≠ [] ∧
    (s.acked ++ m :: s.pending.tail).Sublist s.accepted

theorem ordered_start : Ordered Agent.start where
  file := fun h => by cases h
  order := List.Sublist.refl _
  bound := Nat.zero_le _
  thread := fun h => by cases h
  sending := fun _ h => by cases h

section

variable {s t : Agent}

/-- What is pending stays so when there is an agent, and nothing is left in the file. -/
theorem Ordered.withAgent (h : Ordered s) (alive shutdown : Bool) :
    (s.withAgent alive shutdown).file = none := by
  show (if s.agentList.isSome then s.file else none) = none
  split
  next hl => exact h.file hl
  · rfl

theorem purged_sublist : s.purged.Sublist s.pending := by
  unfold Agent.purged
  split
  · exact List.filter_sublist
  · exact List.Sublist.refl _

theorem tail_append_sublist {l : List Msg} {m : Msg} : (l ++ [m]).tail.Sublist (l.tail ++ [m]) := by
  cases l with
  | nil => exact List.nil_sublist _
  | cons x l => exact List.Sublist.refl _

/-- What a saved list is loaded as. -/
theorem loaded_sublist {agentList : List Msg} {ws : List Write} (h : Steady ws agentList) :
    (loadDbdState (saveDbdState ws agentList).1).Sublist agentList := by
  obtain ⟨⟨j, hj⟩, -⟩ := load_of_save h (saveDbdState ws agentList).1.length
  rw [List.take_length] at hj
  rw [hj]
  exact (List.takeWhile_sublist _).trans ((List.take_sublist _ _).trans List.filter_sublist)

theorem pending_of_some {agentList : List Msg} (h : s.agentList = some agentList) :
    s.pending = agentList := by
  rw [Agent.pending, h, Option.getD_some]

theorem Ordered.inFile_nil (h : Ordered s) (hl : s.agentList.isSome) : s.inFile = [] := by
  rw [Agent.inFile, h.file hl]
  rfl

theorem Ordered.send {m : Msg} {os : Loading} (h : Ordered s) (hclear : s.Clears os)
    (hs : Dbd.step s (.send m os) = some t) : Ordered t := by
  obtain ⟨alive, shutdown, rfl⟩ := step_send hclear hs
  have hsub : s.purged.Sublist s.pending := purged_sublist
  have horder : (s.acked ++ s.purged).Sublist s.accepted := (hsub.append_left _).trans h.order
  have hsending : ∀ m', s.sending = some m' →
      (s.acked ++ m' :: s.purged.tail).Sublist s.accepted := fun m' hm' =>
    ((hsub.tail.cons_cons m').append_left _).trans (h.sending m' hm').2.2
  split
  next hroom =>
    refine ⟨fun _ => h.withAgent alive shutdown, ?_, ?_, fun _ => ⟨rfl, rfl⟩, fun m' hm' => ?_⟩
    · show (s.acked ++ (s.purged ++ [m])).Sublist (s.accepted ++ [m])
      rw [← List.append_assoc]
      exact horder.append_right _
    · show (s.purged ++ [m]).length ≤ _
      rw [List.length_append, List.length_singleton]
      exact hroom
    · refine ⟨rfl, fun hnil => ?_, ?_⟩
      · exact absurd (show s.purged ++ [m] = [] from hnil) (by simp)
      · show (s.acked ++ m' :: (s.purged ++ [m]).tail).Sublist (s.accepted ++ [m])
        refine ((tail_append_sublist.cons_cons m').append_left _).trans ?_
        rw [← List.cons_append, ← List.append_assoc]
        exact (hsending m' hm').append_right _
  next hfull =>
    refine ⟨fun _ => h.withAgent alive shutdown, horder, hsub.length_le.trans h.bound,
      fun _ => ⟨rfl, rfl⟩, fun m' hm' => ⟨rfl, fun hnil => hfull ?_, hsending m' hm'⟩⟩
    rw [show s.purged = [] from hnil]
    exact Nat.succ_pos _

theorem Ordered.step {a : Act} (h : Ordered s) (hsound : Sound s a)
    (hs : Dbd.step s a = some t) : Ordered t := by
  cases a with
  | send m os => exact h.send hsound hs
  | openConn makeAgent os =>
    rcases step_openConn hsound hs with rfl | ⟨alive, shutdown, rfl⟩ | ⟨agentList, hq, rfl⟩
    · exact h
    · exact ⟨fun _ => h.withAgent alive shutdown, h.order, h.bound, fun _ => ⟨rfl, rfl⟩,
        fun m hm => ⟨rfl, (h.sending m hm).2⟩⟩
    · -- the file is put behind the list, and there is none beside a list
      have hl : s.agentList.isSome := by rw [hq]; rfl
      have hpend := pending_of_some hq
      rw [h.inFile_nil hl, List.append_nil]
      refine ⟨fun _ => rfl, ?_, ?_, fun ha => ⟨(h.thread ha).1, rfl⟩, fun m hm => ⟨rfl, ?_⟩⟩
      · exact hpend ▸ h.order
      · exact hpend ▸ h.bound
      · exact hpend ▸ (h.sending m hm).2
  | shutdown =>
    obtain rfl := Option.some.inj hs
    split
    · exact ⟨h.file, h.order, h.bound, h.thread, h.sending⟩
    · exact h
  | peek =>
    obtain ⟨-, -, m, rest, hq, rfl⟩ := step_peek hs
    refine ⟨h.file, h.order, h.bound, h.thread, fun m' hm' => ?_⟩
    obtain rfl := Option.some.inj hm'
    have horder := h.order
    rw [pending_of_some hq] at horder
    show s.agentList.isSome ∧ s.pending ≠ [] ∧ (s.acked ++ m :: s.pending.tail).Sublist s.accepted
    rw [pending_of_some hq, hq]
    exact ⟨rfl, by simp, horder⟩
  | reply ok =>
    obtain ⟨m, hm, rfl⟩ := step_reply hs
    obtain ⟨hl, -, hsend⟩ := h.sending m hm
    obtain ⟨agentList, hq⟩ := Option.isSome_iff_exists.mp hl
    have hpend := pending_of_some hq
    have hbound := h.bound
    rw [hpend] at hsend hbound
    split
    · -- the head of the list goes over to the confirmed requests
      refine ⟨fun _ => h.file hl, ?_, ?_, fun ha => ⟨(h.thread ha).1, ?_⟩,
        (fun _ hc => by cases hc)⟩
      · show (s.acked ++ [m] ++ (s.agentList.map List.tail).getD s.inFile).Sublist s.accepted
        rw [hq, List.append_assoc]
        exact hsend
      · show ((s.agentList.map List.tail).getD s.inFile).length ≤ _
        rw [hq]
        exact (List.tail_sublist _).length_le.trans hbound
      · show (s.agentList.map List.tail).isSome
        rw [hq]
        rfl
    · exact ⟨h.file, h.order, h.bound, h.thread, (fun _ hc => by cases hc)⟩
  | ends opened ws =>
    obtain ⟨halive, rfl⟩ := step_ends hs
    have hl := (h.thread halive).2
    obtain ⟨agentList, hq⟩ := Option.isSome_iff_exists.mp hl
    have hpend := pending_of_some hq
    have hsteady : Steady ws agentList := by
      have hsd : Steady ws (s.agentList.getD []) := hsound
      rwa [hq] at hsd
    -- what the next agent finds was in the list
    have hsub : (agentEnds s opened ws).pending.Sublist s.pending := by
      rw [hpend]
      cases opened with
      | true =>
        show (loadDbdState (saveDbdState ws (s.agentList.getD [])).1).Sublist agentList
        rw [hq]
        exact loaded_sublist hsteady
      | false =>
        show s.inFile.Sublist agentList
        rw [h.inFile_nil hl]
        exact List.nil_sublist _
    exact ⟨(fun hc => by cases hc), (hsub.append_left _).trans h.order,
      hsub.length_le.trans h.bound, (fun hc => by cases hc), (fun _ hc => by cases hc)⟩
  | join =>
    rw [step_join hs]
    exact ⟨h.file, h.order, h.bound, (fun hc => by cases hc), (fun _ hc => by cases hc)⟩
  | crash =>
    obtain rfl := Option.some.inj hs
    -- a list is lost with its process
    have hsub : s.inFile.Sublist s.pending := by
      cases hq : s.agentList with
      | none => rw [Agent.pending, hq]; exact List.Sublist.refl _
      | some agentList =>
        rw [h.inFile_nil (by rw [hq]; rfl)]
        exact List.nil_sublist _
    exact ⟨(fun hc => by cases hc), (hsub.append_left _).trans h.order,
      hsub.length_le.trans h.bound, (fun hc => by cases hc), (fun _ hc => by cases hc)⟩

end

/-- **Order.** Requests are accepted, sent, confirmed or not, purged, saved and loaded, and
processes end and die, in any order; lists are saved by steady calls, and a state file that is there
is opened and removed when it is loaded. At any time the confirmed requests and those that are
pending are accepted ones, each once and in the order in which they were accepted; no more are
pending than the list may hold; and the list is never empty when a confirmation comes. -/
theorem acked_in_order {as : List Act} {t : Agent} (hrun : run step Agent.start as = some t)
    (hsound : Guarded step Sound Agent.start as) :
    (t.acked ++ t.pending).Sublist t.accepted ∧ t.pending.length ≤ maxAgentQueue ∧
    (t.sending.isSome → ∃ m rest, t.agentList = some (m :: rest)) := by
  have h := reached_of_guarded (P := Ordered) (fun s a s' hs ha hstep => hs.step ha hstep)
    ordered_start hsound hrun
  refine ⟨h.order, h.bound, fun hsome => ?_⟩
  obtain ⟨m, hm⟩ := Option.isSome_iff_exists.mp hsome
  obtain ⟨hl, hne, -⟩ := h.sending m hm
  obtain ⟨agentList, hq⟩ := Option.isSome_iff_exists.mp hl
  rw [pending_of_some hq] at hne
  obtain ⟨x, rest, rfl⟩ := List.exists_cons_of_ne_nil hne
  exact ⟨x, rest, hq⟩

/-- A request is confirmed; two more are saved by an agent that ends, and loaded by the next. -/
def restart : List Act :=
  twoSaved.map (.send · ⟨true, true⟩) ++ [.peek, .reply true, .shutdown,
    .ends true (steadyCalls.drop 5), .join, .openConn true ⟨true, true⟩, .peek, .reply false]

theorem acked_in_order_restart : ∃ t, run step Agent.start restart = some t ∧
    (t.acked ++ t.pending).Sublist t.accepted ∧ t.pending.length ≤ maxAgentQueue ∧
    (t.sending.isSome → ∃ m rest, t.agentList = some (m :: rest)) := by
  have hsome : (run step Agent.start restart).isSome := by decide +kernel
  obtain ⟨t, hrun⟩ := Option.isSome_iff_exists.mp hsome
  exact ⟨t, hrun, acked_in_order hrun (by decide +kernel)⟩

/-! ## Loss -/

/-- What is neither purged from a full list nor left out of the file. -/
def durable (m : Msg) : Bool := saved m && !isStart m

/-- What has to go well: no purge while a start record is being sent, which would let its
confirmation take the next request off the list; the file of a list that is saved can be opened,
the list is saved whole, and no request in it is too long to be loaded; a state file that is there
is opened and removed when it is loaded; and no process dies with a list. -/
def Keeps (s : Agent) : Act → Prop
  | .send _ os =>
    s.Clears os ∧ (s.pending.length = maxAgentQueue - 1 → s.sending.any isStart = false)
  | .openConn _ os => s.Clears os
  | .ends opened ws =>
    opened = true ∧ Steady ws (s.agentList.getD []) ∧
      (saveDbdState ws (s.agentList.getD [])).2 = true ∧
      ∀ m ∈ s.agentList.getD [], short m = true
  | .crash => s.agentList = none
  | _ => True

instance (s : Agent) (a : Act) : Decidable (Keeps s a) :=
  match a with
  | .send _ os => inferInstanceAs (Decidable (s.Clears os ∧ (_ → _)))
  | .openConn _ os => inferInstanceAs (Decidable (s.Clears os))
  | .ends _ _ => inferInstanceAs (Decidable (_ ∧ _ ∧ _ ∧ _))
  | .crash => inferInstanceAs (Decidable (s.agentList = none))
  | .shutdown | .peek | .reply _ | .join => isTrue trivial

theorem Keeps.sound {s : Agent} {a : Act} (h : Keeps s a) : Sound s a := by
  cases a with
  | ends opened ws => exact h.2.1
  | send m os => exact h.1
  | openConn makeAgent os => exact h
  | shutdown => trivial
  | peek => trivial
  | reply ok => trivial
  | join => trivial
  | crash => trivial

/-- The request that is being sent is the head of the list, and no durable request is missing. -/
structure Complete (s : Agent) : Prop where
  ordered : Ordered s
  head : ∀ m, s.sending = some m → ∃ rest, s.agentList = some (m :: rest)
  kept : (s.acked ++ s.pending).filter durable = s.accepted.filter durable

section

variable {s t : Agent}

theorem filter_purged : s.purged.filter durable = s.pending.filter durable := by
  unfold Agent.purged purgeJobStartReq
  split
  · rw [List.filter_filter]
    refine List.filter_congr fun m _ => ?_
    unfold durable
    cases isStart m <;> simp
  · rfl

theorem head_purged {m : Msg} {rest : List Msg} (hq : s.agentList = some (m :: rest))
    (hm : s.pending.length = maxAgentQueue - 1 → isStart m = false) :
    ∃ rest', s.purged = m :: rest' := by
  have hpend := pending_of_some hq
  unfold Agent.purged purgeJobStartReq
  split
  next hlen =>
    rw [hpend, List.filter_cons_of_pos (by rw [hm hlen]; rfl)]
    exact ⟨_, rfl⟩
  · exact ⟨rest, hpend⟩

theorem Complete.step {a : Act} (h : Complete s) (hkeeps : Keeps s a)
    (hs : Dbd.step s a = some t) : Complete t := by
  have hordered := h.ordered.step hkeeps.sound hs
  have hkept := h.kept
  rw [List.filter_append] at hkept
  cases a with
  | send m os =>
    obtain ⟨alive, shutdown, rfl⟩ := step_send hkeeps.1 hs
    have hhead : ∀ m', s.sending = some m' → ∃ rest, s.purged = m' :: rest := by
      intro m' hm'
      obtain ⟨rest, hq⟩ := h.head m' hm'
      refine head_purged hq fun hlen => ?_
      have hk : s.sending.any isStart = false := hkeeps.2 hlen
      rwa [hm'] at hk
    by_cases hroom : s.purged.length < maxAgentQueue
    · rw [if_pos hroom] at hordered ⊢
      refine ⟨hordered, fun m' hm' => ?_, ?_⟩
      · obtain ⟨rest, hrest⟩ := hhead m' hm'
        exact ⟨rest ++ [m], congrArg (fun l => some (l ++ [m])) hrest⟩
      · show (s.acked ++ (s.purged ++ [m])).filter durable = (s.accepted ++ [m]).filter durable
        rw [← List.append_assoc, List.filter_append, List.filter_append, List.filter_append,
          filter_purged, hkept]
    · rw [if_neg hroom] at hordered ⊢
      refine ⟨hordered, fun m' hm' => ?_, ?_⟩
      · obtain ⟨rest, hrest⟩ := hhead m' hm'
        exact ⟨rest, congrArg some hrest⟩
      · show (s.acked ++ s.purged).filter durable = s.accepted.filter durable
        rw [List.filter_append, filter_purged, hkept]
  | openConn makeAgent os =>
    rcases step_openConn hkeeps hs with rfl | ⟨alive, shutdown, rfl⟩ | ⟨agentList, hq, rfl⟩
    · exact h
    · refine ⟨hordered, fun m hm => ?_, h.kept⟩
      obtain ⟨rest, hq⟩ := h.head m hm
      exact ⟨rest, congrArg some (pending_of_some hq)⟩
    · have hl : s.agentList.isSome := by rw [hq]; rfl
      rw [h.ordered.inFile_nil hl, List.append_nil] at hordered ⊢
      refine ⟨hordered, fun m hm => ?_, ?_⟩
      · obtain ⟨rest, hrest⟩ := h.head m hm
        exact ⟨rest, hq.symm.trans hrest⟩
      · show (s.acked ++ agentList).filter durable = s.accepted.filter durable
        rw [← pending_of_some hq]
        exact h.kept
  | shutdown =>
    obtain rfl := Option.some.inj hs
    refine ⟨hordered, ?_, ?_⟩
    · split <;> exact h.head
    · split <;> exact h.kept
  | peek =>
    obtain ⟨-, -, m, rest, hq, rfl⟩ := step_peek hs
    refine ⟨hordered, fun m' hm' => ?_, h.kept⟩
    obtain rfl := Option.some.inj hm'
    exact ⟨rest, hq⟩
  | reply ok =>
    obtain ⟨m, hm, rfl⟩ := step_reply hs
    obtain ⟨rest, hq⟩ := h.head m hm
    cases ok with
    | false => exact ⟨hordered, (fun _ hc => by cases hc), h.kept⟩
    | true =>
      refine ⟨hordered, (fun _ hc => by cases hc), ?_⟩
      show (s.acked ++ [m] ++ (s.agentList.map List.tail).getD s.inFile).filter durable = _
      rw [hq, List.append_assoc]
      show (s.acked ++ m :: rest).filter durable = _
      rw [← pending_of_some hq]
      exact h.kept
  | ends opened ws =>
    obtain ⟨halive, rfl⟩ := step_ends hs
    obtain ⟨agentList, hq⟩ := Option.isSome_iff_exists.mp (h.ordered.thread halive).2
    obtain ⟨rfl, hsteady, hall, hshort⟩ := hkeeps
    rw [hq, Option.getD_some] at hsteady hall hshort
    refine ⟨hordered, (fun _ hc => by cases hc), ?_⟩
    show (s.acked ++ loadDbdState (saveDbdState ws (s.agentList.getD [])).1).filter durable =
      s.accepted.filter durable
    rw [hq, Option.getD_some, (load_of_save hsteady 0).2 hall, List.filter_append, ← hkept,
      pending_of_some hq]
    congr 1
    -- all that is durable was saved
    have hwhole : (agentList.filter saved).takeWhile short = agentList.filter saved :=
      List.takeWhile_eq_self_iff.mpr fun m hm => hshort m (List.mem_of_mem_filter hm)
    rw [hwhole, List.filter_filter]
    refine List.filter_congr fun m _ => ?_
    unfold durable
    cases saved m <;> simp
  | join =>
    rw [step_join hs] at hordered ⊢
    exact ⟨hordered, (fun _ hc => by cases hc), h.kept⟩
  | crash =>
    obtain rfl := Option.some.inj hs
    have hnone : s.agentList = none := hkeeps
    refine ⟨hordered, (fun _ hc => by cases hc), ?_⟩
    have hpend : s.pending = s.inFile := by rw [Agent.pending, hnone, Option.getD_none]
    show (s.acked ++ s.inFile).filter durable = s.accepted.filter durable
    rw [← hpend]
    exact h.kept

end

end Slurm.Dbd
