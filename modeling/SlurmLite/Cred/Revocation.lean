import SlurmLite.Cred.Replay

/-!
# Revocation

A job is revoked at a time: credentials that were created by then are not accepted any more, as
long as no later one makes the verifier forget.

* **Blocking** (`Blocks`): the state of the job that rejects them.
* **Runs** (`revoked_rejected`).
-/

namespace Slurm.JobCredential

open Base.Assoc Base.Run

variable {κ : Type} {verifySign : κ → Cred → Bool}

/-! ## The state of the job -/

/-- The job was revoked at `T`, which is remembered until `e` at least. -/
def Blocks (jobList : List JobState) (jobid : UInt32) (T e : Int) : Prop :=
  ∃ j, findJobState jobList jobid = some j ∧ j.revoked = T ∧ e ≤ j.expiration

section

variable {jobList : List JobState} {jobid : UInt32} {T e now : Int} {cred : Cred}

theorem Blocks.clear (h : Blocks jobList jobid T e) (now : Int) :
    Blocks (clearExpiredJobStates now jobList) jobid T e ∨ e < now := by
  obtain ⟨j, hj, hT, he⟩ := h
  by_cases hlate : now > j.expiration
  · exact .inr (by omega)
  · refine .inl ⟨j, find_filter_of_pos hj ?_, hT, he⟩
    simp [hlate]

theorem Blocks.insert (h : Blocks jobList jobid T e) (jobid' : UInt32) :
    Blocks (insertJobState now jobList jobid') jobid T e := by
  obtain ⟨j, hj, hT, he⟩ := h
  refine ⟨j, ?_, hT, he⟩
  unfold findJobState insertJobState at *
  rw [find_append, hj]
  rfl

theorem Blocks.modifyOther {jobid' : UInt32} {f : JobState → JobState}
    (h : Blocks jobList jobid T e) (hf : ∀ j, (f j).jobid = j.jobid) (hne : jobid ≠ jobid') :
    Blocks (modifyFirst JobState.jobid jobid' f jobList) jobid T e := by
  obtain ⟨j, hj, hT, he⟩ := h
  refine ⟨j, ?_, hT, he⟩
  unfold findJobState at *
  rw [find_modifyFirst hf, if_neg hne, hj]

/-- A credential that does not make the verifier forget. -/
theorem Blocks.reissue (h : Blocks jobList jobid T e) (now : Int)
    (hc : cred.jobid = jobid → cred.ctime ≤ T) :
    Blocks (slurmCredHandleReissue now jobList cred) jobid T e ∨ e < now := by
  unfold slurmCredHandleReissue
  split
  · exact .inl h
  next j hj =>
    split
    next hre =>
      by_cases hjob : cred.jobid = jobid
      · obtain ⟨j', hj', hT, -⟩ := h
        rw [hjob] at hj
        obtain rfl := Option.some.inj (hj.symm.trans hj')
        have := hc hjob
        omega
      · have hname : ∀ j : JobState, JobState.jobid { j with expiration := 0 } = j.jobid :=
          fun _ => rfl
        exact (h.modifyOther hname (Ne.symm hjob)).clear now
    · exact .inl h

theorem Blocks.check (h : Blocks jobList jobid T e) :
    Blocks (credentialRevoked now jobList cred).2 jobid T e ∨ e < now := by
  rcases h.clear now with hb | hl
  · left
    simp only [credentialRevoked]
    split
    · exact hb.insert _
    · exact hb
  · exact .inr hl

/-- An old credential of a job that blocks is found to be revoked. -/
theorem Blocks.revoked (h : Blocks jobList jobid T e) (hjob : cred.jobid = jobid)
    (hold : cred.ctime ≤ T) (hnow : now ≤ e) : (credentialRevoked now jobList cred).1 = true := by
  rcases h.clear now with ⟨j, hj, hT, -⟩ | hl
  · simp only [credentialRevoked, hjob, hj]
    exact decide_eq_true (hT ▸ hold)
  · omega

end

/-! ## Runs -/

/-- What has to hold of a call: it is timely, no credential of the job is presented that is newer
than the revocation, the revocation does not lie in the future when its expiration begins, the
window does not grow, and a process that unpacks the state neither does so in the second in which
the state of a job ends nor ends one early. -/
def KeepsRevoked (jobid : UInt32) (T : Int) (s : Verifier κ) (a : Act κ) : Prop :=
  Timely s a ∧
    match a with
    | .verify _ cred | .handleReissue _ cred => cred.jobid = jobid → cred.ctime ≤ T
    | .beginExpiration _ later jobid' => jobid' = jobid → T ≤ later
    | .setWindow expiryWindow => expiryWindow ≤ s.ctx.expiryWindow
    | .restart now _ _ expiryWindow =>
      expiryWindow ≤ s.ctx.expiryWindow ∧ ∀ j ∈ s.ctx.jobList, j.revoked ≠ 0 →
        now ≠ (revokeEnds j).expiration ∧ (j.expiration = maxTime → expiryWindow ≤ 600)
    | _ => True

instance (jobid : UInt32) (T : Int) (s : Verifier κ) (a : Act κ) :
    Decidable (KeepsRevoked jobid T s a) :=
  match a with
  | .verify _ _ | .handleReissue _ _ | .beginExpiration _ _ _ =>
    inferInstanceAs (Decidable (_ ∧ (_ → _)))
  | .setWindow _ => inferInstanceAs (Decidable (_ ∧ _))
  | .restart _ _ _ _ => inferInstanceAs (Decidable (_ ∧ _ ∧ _))
  | .jobidCached _ _ | .insertJobid _ _ | .rewind _ | .revoke _ _ _ | .updateKey _ _ =>
    inferInstanceAs (Decidable (_ ∧ True))

/-- The job blocks, or the credentials that are blocked have expired. -/
def Blocked (jobid : UInt32) (T : Int) (s : Verifier κ) : Prop :=
  Blocks s.ctx.jobList jobid T (T + s.ctx.expiryWindow) ∨ T + s.ctx.expiryWindow < s.clock

section

variable {s : Verifier κ} {jobid : UInt32} {T : Int}

theorem Blocked.verify {t : Readings} {cred : Cred} (h : Blocked jobid T s)
    (htimely : Timely s (.verify t cred)) (hc : cred.jobid = jobid → cred.ctime ≤ T) :
    Blocked jobid T (next verifySign s (.verify t cred)) := by
  obtain ⟨h0, h1, h2, h3, h4, -⟩ := htimely
  have hjobs : Blocks s.ctx.jobList jobid T (T + s.ctx.expiryWindow) →
      Blocks (jobsAfter t s.ctx cred).2 jobid T (T + s.ctx.expiryWindow) ∨
        T + s.ctx.expiryWindow < t.replayed := by
    intro hb
    rcases hb.reissue t.reissue hc with hb | hl
    · exact hb.check.imp_right fun hl => by omega
    · exact .inr (by omega)
  have hlist : (slurmCredVerify verifySign t s.ctx cred).2.expiryWindow = s.ctx.expiryWindow ∧
      ((slurmCredVerify verifySign t s.ctx cred).2.jobList = s.ctx.jobList ∨
        (slurmCredVerify verifySign t s.ctx cred).2.jobList = (jobsAfter t s.ctx cred).2) := by
    obtain ⟨exkey, ⟨-, hctx⟩ | ⟨-, ⟨-, -, hctx⟩ | ⟨-, -, hctx⟩⟩⟩ :=
      verify_cases verifySign t s.ctx cred
    · rw [hctx]
      exact ⟨rfl, .inl rfl⟩
    · rw [hctx]
      exact ⟨rfl, .inr rfl⟩
    · rw [hctx]
      exact ⟨rfl, .inr rfl⟩
  obtain ⟨hwindow, hl⟩ := hlist
  unfold Blocked next
  simp only [hwindow]
  rcases h with hb | hlate
  · rcases hl with hl | hl
    · exact .inl (hl ▸ hb)
    · rw [hl]
      exact hjobs hb
  · exact .inr (by omega)

theorem Blocked.revoke {now time : Int} {jobid' : UInt32} (h : Blocked jobid T s) (hT : T ≠ 0)
    (hnow : s.clock ≤ now) : Blocked jobid T (next verifySign s (.revoke now jobid' time)) := by
  obtain ⟨jobList, hframe⟩ := revoke_frame now s.ctx jobid' time
  have hwindow : (slurmCredRevoke now s.ctx jobid' time).2.expiryWindow = s.ctx.expiryWindow := by
    rw [hframe]
  unfold Blocked JobCredential.next
  simp only [hwindow]
  rcases h with hb | hlate
  · rcases hb.clear now with hb | hl
    · left
      have hmissing : Blocks
          (if (findJobState (clearExpiredJobStates now s.ctx.jobList) jobid').isNone then
            insertJobState now (clearExpiredJobStates now s.ctx.jobList) jobid'
          else clearExpiredJobStates now s.ctx.jobList) jobid T (T + s.ctx.expiryWindow) := by
        split
        · exact hb.insert _
        · exact hb
      revert hmissing
      unfold slurmCredRevoke
      simp only
      generalize (if (findJobState (clearExpiredJobStates now s.ctx.jobList) jobid').isNone then
        insertJobState now (clearExpiredJobStates now s.ctx.jobList) jobid'
        else clearExpiredJobStates now s.ctx.jobList) = l
      intro hmissing
      split
      · exact hmissing
      next hnone =>
        have hname : ∀ j : JobState, JobState.jobid { j with revoked := time } = j.jobid :=
          fun _ => rfl
        refine hmissing.modifyOther hname fun he => hnone ?_
        -- the job is revoked already
        obtain ⟨j, hj, hrev, -⟩ := hmissing
        subst he
        rw [hj]
        simpa [hrev] using hT
    · exact .inr hl
  · exact .inr (by omega)

theorem Blocked.beginExpiration {now later : Int} {jobid' : UInt32} (h : Blocked jobid T s)
    (hnow : s.clock ≤ now) (hlater : now ≤ later) (hT : jobid' = jobid → T ≤ later) :
    Blocked jobid T (next verifySign s (.beginExpiration now later jobid')) := by
  obtain ⟨jobList, hframe⟩ := beginExpiration_frame now later s.ctx jobid'
  have hwindow : (slurmCredBeginExpiration now later s.ctx jobid').2.expiryWindow =
      s.ctx.expiryWindow := by rw [hframe]
  unfold Blocked JobCredential.next
  simp only [hwindow]
  rcases h with hb | hlate
  · rcases hb.clear now with hb | hl
    · left
      unfold slurmCredBeginExpiration
      simp only
      split
      · exact hb
      · split
        · exact hb
        · have hname : ∀ j : JobState,
              JobState.jobid { j with expiration := later + s.ctx.expiryWindow } = j.jobid :=
            fun _ => rfl
          by_cases he : jobid = jobid'
          · subst he
            obtain ⟨j, hj, hrev, -⟩ := hb
            refine ⟨{ j with expiration := later + s.ctx.expiryWindow }, ?_, hrev, ?_⟩
            · unfold findJobState at *
              rw [find_modifyFirst hname, if_pos rfl, hj]
              rfl
            · have := hT rfl
              show T + s.ctx.expiryWindow ≤ later + s.ctx.expiryWindow
              omega
          · exact hb.modifyOther hname he
    · exact .inr (by omega)
  · exact .inr (by omega)

theorem revokeEnds_jobid (j : JobState) : (revokeEnds j).jobid = j.jobid := by
  unfold revokeEnds
  split <;> rfl

theorem Blocked.restart {now later expiryWindow : Int} {key : κ} (h : Blocked jobid T s)
    (hT : T ≠ 0)
    (hnow : s.clock ≤ now) (hlater : now ≤ later) (hwindow : expiryWindow ≤ s.ctx.expiryWindow)
    (hends : ∀ j ∈ s.ctx.jobList, j.revoked ≠ 0 →
      now ≠ (revokeEnds j).expiration ∧ (j.expiration = maxTime → expiryWindow ≤ 600)) :
    Blocked jobid T (next verifySign s (.restart now later key expiryWindow)) := by
  show Blocks ([] ++ (s.ctx.jobList.map revokeEnds).filter (keepsJob now)) jobid T
      (T + expiryWindow) ∨ T + expiryWindow < later
  rcases h with ⟨j, hj, hrev, hexp⟩ | hlate
  · have hmem : j ∈ s.ctx.jobList := mem_of_find hj
    obtain ⟨hne, h600⟩ := hends j hmem (hrev ▸ hT)
    have hfind : findJobState (s.ctx.jobList.map revokeEnds) jobid = some (revokeEnds j) := by
      unfold findJobState at *
      rw [find_map revokeEnds_jobid, hj]
      rfl
    have hrev' : (revokeEnds j).revoked = T := by
      unfold revokeEnds
      split <;> exact hrev
    have hexp' : T + expiryWindow ≤ (revokeEnds j).expiration := by
      unfold revokeEnds
      split
      next hmax =>
        have := h600 hmax.2
        show T + expiryWindow ≤ j.revoked + 600
        omega
      · omega
    by_cases hkeep : now < (revokeEnds j).expiration
    · refine .inl ⟨revokeEnds j, find_filter_of_pos hfind ?_, hrev', hexp'⟩
      simp [keepsJob, hkeep]
    · exact .inr (by omega)
  · exact .inr (by omega)

theorem Blocked.frame {ctx : Ctx κ} {clock : Int} {used : List Id} (h : Blocked jobid T s)
    (hlist : Blocks s.ctx.jobList jobid T (T + s.ctx.expiryWindow) →
      Blocks ctx.jobList jobid T (T + s.ctx.expiryWindow) ∨ T + s.ctx.expiryWindow < clock)
    (hwindow : ctx.expiryWindow = s.ctx.expiryWindow) (hclock : s.clock ≤ clock) :
    Blocked jobid T ⟨ctx, clock, used⟩ := by
  unfold Blocked
  rw [hwindow]
  rcases h with hb | hlate
  · exact hlist hb
  · exact .inr (by simp only; omega)

theorem Blocked.next {a : Act κ} (h : Blocked jobid T s) (hT : T ≠ 0)
    (ha : KeepsRevoked jobid T s a) : Blocked jobid T (next verifySign s a) := by
  obtain ⟨htimely, ha⟩ := ha
  cases a with
  | verify t cred => exact h.verify htimely ha
  | jobidCached now jobid' => exact h.frame (fun hb => hb.clear now) rfl htimely
  | insertJobid now jobid' =>
    exact h.frame (fun hb => (hb.clear now).imp_left fun hc => hc.insert jobid') rfl htimely
  | rewind cred => exact h.frame (fun hb => .inl hb) rfl (Int.le_refl _)
  | revoke now jobid' time => exact h.revoke hT htimely
  | beginExpiration now later jobid' => exact h.beginExpiration htimely.1 htimely.2 ha
  | handleReissue now cred => exact h.frame (fun hb => hb.reissue now ha) rfl htimely
  | setWindow expiryWindow =>
    have hle : expiryWindow ≤ s.ctx.expiryWindow := ha
    rcases h with ⟨j, hj, hrev, hexp⟩ | hlate
    · exact .inl ⟨j, hj, hrev, show T + expiryWindow ≤ j.expiration by omega⟩
    · exact .inr (show T + expiryWindow < s.clock by omega)
  | updateKey now key => exact h.frame (fun hb => .inl hb) rfl htimely
  | restart now later key expiryWindow =>
    exact h.restart hT htimely.1 htimely.2 ha.1 ha.2

/-- The revocation itself, of a job whose expiration has not begun. -/
theorem blocked_revoke {now : Int} (hrevoke : (slurmCredRevoke now s.ctx jobid T).1 = true)
    (hfresh : ∀ j, findJobState (clearExpiredJobStates now s.ctx.jobList) jobid = some j →
      j.expiration = maxTime) (hmax : T + s.ctx.expiryWindow ≤ maxTime) :
    Blocked jobid T (JobCredential.next verifySign s (.revoke now jobid T)) := by
  have hfind : ∃ j, findJobState
      (if (findJobState (clearExpiredJobStates now s.ctx.jobList) jobid).isNone then
        insertJobState now (clearExpiredJobStates now s.ctx.jobList) jobid
      else clearExpiredJobStates now s.ctx.jobList) jobid = some j ∧ j.expiration = maxTime := by
    cases hf : findJobState (clearExpiredJobStates now s.ctx.jobList) jobid with
    | none =>
      refine ⟨jobStateCreate now jobid, ?_, rfl⟩
      show findJobState (insertJobState now _ jobid) jobid = _
      unfold findJobState insertJobState at *
      rw [find_append, hf, Option.none_or, find_cons]
      exact if_pos rfl
    | some j => exact ⟨j, hf, hfresh j hf⟩
  obtain ⟨jobList, hframe⟩ := revoke_frame now s.ctx jobid T
  have hwindow : (slurmCredRevoke now s.ctx jobid T).2.expiryWindow = s.ctx.expiryWindow := by
    rw [hframe]
  unfold Blocked JobCredential.next
  simp only [hwindow]
  left
  revert hfind hrevoke
  unfold slurmCredRevoke
  simp only
  generalize (if (findJobState (clearExpiredJobStates now s.ctx.jobList) jobid).isNone then
    insertJobState now (clearExpiredJobStates now s.ctx.jobList) jobid
    else clearExpiredJobStates now s.ctx.jobList) = l
  intro hrevoke hfind
  obtain ⟨j, hj, hexp⟩ := hfind
  split at hrevoke
  · cases hrevoke
  next hfirst =>
    rw [if_neg hfirst]
    have hname : ∀ j : JobState, JobState.jobid { j with revoked := T } = j.jobid := fun _ => rfl
    refine ⟨{ j with revoked := T }, ?_, rfl, ?_⟩
    · unfold findJobState at *
      rw [find_modifyFirst hname, if_pos rfl, hj]
      rfl
    · show T + s.ctx.expiryWindow ≤ j.expiration
      omega

end

/-- **Revocation.** A job is revoked at `T` before its expiration has begun. After any further
calls that do not make the verifier forget, none of its credentials that was created by then is
accepted. -/
theorem revoked_rejected {acts : List (Act κ)} {s t : Verifier κ} {now T : Int} {jobid : UInt32}
    {r : Readings} {cred : Cred} (hrevoke : (slurmCredRevoke now s.ctx jobid T).1 = true)
    (hT : T ≠ 0) (hmax : T + s.ctx.expiryWindow ≤ maxTime)
    (hfresh : ∀ j, findJobState (clearExpiredJobStates now s.ctx.jobList) jobid = some j →
      j.expiration = maxTime)
    (hrun : run (fun s a => some (next verifySign s a)) (next verifySign s (.revoke now jobid T))
      acts = some t)
    (hkeeps : Guarded (fun s a => some (next verifySign s a)) (KeepsRevoked jobid T)
      (next verifySign s (.revoke now jobid T)) (acts ++ [.verify r cred]))
    (hjob : cred.jobid = jobid) (hold : cred.ctime ≤ T) :
    (slurmCredVerify verifySign r t.ctx cred).1 ≠ .accepted := by
  obtain ⟨hbefore, hafter⟩ := hkeeps.split
  have hb : Blocked jobid T t := reached_of_guarded (P := Blocked jobid T)
    (fun _ _ _ h ha hs => Option.some.inj hs ▸ h.next hT ha)
    (blocked_revoke hrevoke hfresh hmax) hbefore hrun
  obtain ⟨⟨h0, h1, h2, h3, h4, hprompt⟩, hc⟩ := (hafter t hrun).1
  obtain ⟨exkey, ⟨hres, -⟩ | ⟨hstart, ⟨-, hres, -⟩ | ⟨hno, -, -⟩⟩⟩ :=
    verify_cases verifySign r t.ctx cred
  · exact hres
  · exact hres
  · have hend := hprompt hstart
    rcases hb with hb | hlate
    · rcases hb.reissue r.reissue hc with hb' | hl
      · have hrev := hb'.revoked hjob hold (by omega : r.revoked ≤ _)
        rw [jobsAfter, hrev] at hno
        cases hno
      · omega
    · omega

/-- The expiration of the revocation begins, another process takes over, and another job runs. -/
def afterRevocation : List (Act Unit) :=
  [.beginExpiration 110 110 7, .restart 120 121 () 1800, .verify (atOnce 130) ⟨8, 0, 125, [], []⟩]

theorem revoked_rejected_afterRevocation : ∃ t : Verifier Unit,
    run (fun s a => some (next (fun _ _ => true) s a))
      (next (fun _ _ => true) ⟨verifierCtxCreate () 1800, 0, []⟩ (.revoke 100 7 100))
      afterRevocation = some t ∧
    (slurmCredVerify (fun _ _ => true) (atOnce 140) t.ctx ⟨7, 0, 90, [], []⟩).1 ≠ .accepted := by
  have hsome : (run (fun s a => some (next (fun _ _ => true) s a))
      (next (fun _ _ => true) ⟨verifierCtxCreate () 1800, 0, []⟩ (.revoke 100 7 100))
      afterRevocation).isSome := by decide +kernel
  have hrevoke : (slurmCredRevoke 100 (verifierCtxCreate () 1800) 7 100).1 = true := by
    decide +kernel
  obtain ⟨t, hrun⟩ := Option.isSome_iff_exists.mp hsome
  exact ⟨t, hrun, revoked_rejected hrevoke (by decide) (by decide)
    (by simp [findJobState, clearExpiredJobStates, verifierCtxCreate, find]) hrun
    (by decide +kernel) rfl (by decide)⟩

end Slurm.JobCredential
