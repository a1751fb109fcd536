import SlurmLite.Cred.Context

/-!
# No replay, and no way back from a revocation

* **Replay** (`used_nodup`): no credential is accepted twice, unless it was taken back.
* **Revocation** (`revoked_rejected`): a credential that was created no later than its job was
  revoked is not accepted any more.
-/

namespace Slurm.JobCredential

open Base.Assoc Base.Run

variable {κ : Type} {verifySign : κ → Cred → Bool}

/-! ## What a verification does -/

theorem exkeyIsValid_frame (now : Int) (ctx : Ctx κ) :
    ∃ exkey, (exkeyIsValid now ctx).2 = { ctx with exkey := exkey } := by
  unfold exkeyIsValid
  split
  · exact ⟨ctx.exkey, rfl⟩
  · split
    · exact ⟨none, rfl⟩
    · exact ⟨ctx.exkey, rfl⟩

theorem verifySignature_frame (verifySign : κ → Cred → Bool) (now : Int) (ctx : Ctx κ)
    (cred : Cred) :
    ∃ exkey,
      (slurmCredVerifySignature verifySign now ctx cred).2 = { ctx with exkey := exkey } := by
  unfold slurmCredVerifySignature
  split
  · exact ⟨ctx.exkey, rfl⟩
  · exact exkeyIsValid_frame now ctx

/-- The job states after a verification that was in time. -/
def jobsAfter (t : Readings) (ctx : Ctx κ) (cred : Cred) : Bool × List JobState :=
  credentialRevoked t.revoked (slurmCredHandleReissue t.reissue ctx.jobList cred) cred

/-- What a verification does: nothing but to drop an old key, when the signature is not valid or
the credential has expired; else the job states are brought up to date, and the credential states
when it was not revoked. -/
theorem verify_cases (verifySign : κ → Cred → Bool) (t : Readings) (ctx : Ctx κ) (cred : Cred) :
    ∃ exkey,
      ((slurmCredVerify verifySign t ctx cred).1 ≠ .accepted ∧
        (slurmCredVerify verifySign t ctx cred).2 = { ctx with exkey := exkey }) ∨
      (t.start ≤ cred.ctime + ctx.expiryWindow ∧
        (((jobsAfter t ctx cred).1 = true ∧
            (slurmCredVerify verifySign t ctx cred).1 ≠ .accepted ∧
            (slurmCredVerify verifySign t ctx cred).2 =
              { ctx with exkey := exkey, jobList := (jobsAfter t ctx cred).2 }) ∨
          ((jobsAfter t ctx cred).1 = false ∧
            ((slurmCredVerify verifySign t ctx cred).1 = .accepted ↔
              (credentialReplayed t.replayed ctx.expiryWindow ctx.stateList cred).1 = false) ∧
            (slurmCredVerify verifySign t ctx cred).2 =
              { ctx with
                exkey := exkey, jobList := (jobsAfter t ctx cred).2
                stateList :=
                  (credentialReplayed t.replayed ctx.expiryWindow ctx.stateList cred).2 }))) := by
  obtain ⟨exkey, hframe⟩ := verifySignature_frame verifySign t.exkey ctx cred
  refine ⟨exkey, ?_⟩
  unfold slurmCredVerify jobsAfter
  revert hframe
  generalize slurmCredVerifySignature verifySign t.exkey ctx cred = sig
  obtain ⟨valid, ctx'⟩ := sig
  rintro rfl
  cases valid with
  | false => exact .inl ⟨by simp, rfl⟩
  | true =>
    simp only [Bool.not_true, Bool.false_eq_true, if_false]
    by_cases hlate : t.start > cred.ctime + ctx.expiryWindow
    · rw [if_pos hlate]
      exact .inl ⟨by simp, rfl⟩
    · rw [if_neg hlate]
      refine .inr ⟨Int.not_lt.mp hlate, ?_⟩
      generalize credentialRevoked t.revoked
        (slurmCredHandleReissue t.reissue ctx.jobList cred) cred = jobs
      obtain ⟨revoked, jobList⟩ := jobs
      cases revoked with
      | true => exact .inl ⟨rfl, by simp, rfl⟩
      | false =>
        simp only [Bool.false_eq_true, if_false]
        generalize credentialReplayed t.replayed ctx.expiryWindow ctx.stateList cred = creds
        obtain ⟨replayed, stateList⟩ := creds
        refine .inr ⟨trivial, ?_, trivial⟩
        cases replayed <;> simp

theorem revoke_frame (now : Int) (ctx : Ctx κ) (jobid : UInt32) (time : Int) :
    ∃ jobList, (slurmCredRevoke now ctx jobid time).2 = { ctx with jobList := jobList } := by
  simp only [slurmCredRevoke]
  split <;> split <;> exact ⟨_, rfl⟩

theorem beginExpiration_frame (now later : Int) (ctx : Ctx κ) (jobid : UInt32) :
    ∃ jobList,
      (slurmCredBeginExpiration now later ctx jobid).2 = { ctx with jobList := jobList } := by
  simp only [slurmCredBeginExpiration]
  split
  · exact ⟨_, rfl⟩
  · split <;> exact ⟨_, rfl⟩

/-! ## Replay -/

/-- What has to hold of a call: it is timely, the window does not grow, and no state is unpacked
in the second in which it expires. -/
def Sound (s : Verifier κ) (a : Act κ) : Prop :=
  Timely s a ∧
    match a with
    | .setWindow expiryWindow => expiryWindow ≤ s.ctx.expiryWindow
    | .restart _ later _ expiryWindow =>
      expiryWindow ≤ s.ctx.expiryWindow ∧ ∀ c ∈ s.ctx.stateList, later ≠ c.expiration
    | _ => True

instance (s : Verifier κ) (a : Act κ) : Decidable (Sound s a) :=
  match a with
  | .setWindow _ => inferInstanceAs (Decidable (_ ∧ _))
  | .restart _ _ _ _ => inferInstanceAs (Decidable (_ ∧ _ ∧ _))
  | .verify _ _ | .jobidCached _ _ | .insertJobid _ _ | .rewind _ | .revoke _ _ _
  | .beginExpiration _ _ _ | .handleReissue _ _ | .updateKey _ _ =>
    inferInstanceAs (Decidable (_ ∧ True))

/-- A state that keeps a credential from being accepted as long as it is valid. -/
def Remembers (ctx : Ctx κ) (id : Id) (c : CredState) : Prop :=
  c ∈ ctx.stateList ∧ c.id = id ∧ id.2.2 + ctx.expiryWindow ≤ c.expiration

/-- Every accepted credential is remembered, or has expired. -/
structure Inv (s : Verifier κ) : Prop where
  nodup : s.used.Nodup
  known : ∀ id ∈ s.used, (∃ c, Remembers s.ctx id c) ∨ id.2.2 + s.ctx.expiryWindow < s.clock

theorem findCredState_iff {c : CredState} {cred : Cred} :
    findCredState c cred = true ↔ c.id = cred.id := by
  unfold findCredState CredState.id Cred.id
  simp only [Bool.and_eq_true, decide_eq_true_eq, Prod.mk.injEq, and_assoc]

theorem credentialReplayed_spec (t w : Int) (stateList : List CredState) (cred : Cred) :
    ((credentialReplayed t w stateList cred).1 = true ↔
      ∃ c ∈ clearExpiredCredentialStates t stateList, c.id = cred.id) ∧
    (credentialReplayed t w stateList cred).2 =
      clearExpiredCredentialStates t stateList ++
        if (credentialReplayed t w stateList cred).1 then [] else [credStateCreate w cred] := by
  have hany : (clearExpiredCredentialStates t stateList).any (fun s => findCredState s cred) =
      true ↔ ∃ c ∈ clearExpiredCredentialStates t stateList, c.id = cred.id := by
    simp only [List.any_eq_true, findCredState_iff]
  by_cases h : (clearExpiredCredentialStates t stateList).any (fun s => findCredState s cred) = true
  · rw [show credentialReplayed t w stateList cred =
      (true, clearExpiredCredentialStates t stateList) from if_pos h]
    exact ⟨iff_of_true rfl (hany.mp h), by simp⟩
  · rw [show credentialReplayed t w stateList cred = (false,
      clearExpiredCredentialStates t stateList ++ [credStateCreate w cred]) from if_neg h]
    exact ⟨iff_of_false (by simp) fun hc => h (hany.mpr hc), by simp⟩

/-- An accepted credential that is remembered is replayed, while it is valid. -/
theorem replayed_of_remembers {t : Int} {ctx : Ctx κ} {cred : Cred} {c : CredState}
    (h : Remembers ctx cred.id c) (ht : t ≤ cred.ctime + ctx.expiryWindow) :
    (credentialReplayed t ctx.expiryWindow ctx.stateList cred).1 = true := by
  obtain ⟨hmem, hid, hexp⟩ := h
  have hlate : ¬t > c.expiration := by
    have hexp' : cred.ctime + ctx.expiryWindow ≤ c.expiration := hexp
    omega
  have hkept : c ∈ clearExpiredCredentialStates t ctx.stateList :=
    List.mem_filter.mpr ⟨hmem, by simp [hlate]⟩
  exact (credentialReplayed_spec _ _ _ _).1.mpr ⟨c, hkept, hid⟩

/-- What is remembered stays so, or it has expired. -/
theorem remembers_replayed {t w : Int} {ctx ctx' : Ctx κ} {cred : Cred} {id : Id} {c : CredState}
    (h : Remembers ctx id c)
    (hlist : ctx'.stateList = (credentialReplayed t w ctx.stateList cred).2)
    (hwindow : ctx'.expiryWindow = ctx.expiryWindow) :
    Remembers ctx' id c ∨ id.2.2 + ctx'.expiryWindow < t := by
  obtain ⟨hmem, hid, hexp⟩ := h
  by_cases hlate : t > c.expiration
  · right
    rw [hwindow]
    omega
  · left
    have hkept : c ∈ clearExpiredCredentialStates t ctx.stateList :=
      List.mem_filter.mpr ⟨hmem, by simp [hlate]⟩
    refine ⟨?_, hid, hwindow ▸ hexp⟩
    rw [hlist, (credentialReplayed_spec _ _ _ _).2]
    exact List.mem_append_left _ hkept

/-- A credential that is not replayed is remembered from then on. -/
theorem remembers_new {t : Int} {ctx ctx' : Ctx κ} {cred : Cred}
    (h : (credentialReplayed t ctx.expiryWindow ctx.stateList cred).1 = false)
    (hlist : ctx'.stateList =
      (credentialReplayed t ctx.expiryWindow ctx.stateList cred).2)
    (hwindow : ctx'.expiryWindow = ctx.expiryWindow) : ∃ c, Remembers ctx' cred.id c := by
  refine ⟨credStateCreate ctx.expiryWindow cred, ?_, rfl, hwindow ▸ Int.le_refl _⟩
  rw [hlist, (credentialReplayed_spec _ _ _ _).2, h]
  exact List.mem_append_right _ List.mem_cons_self

theorem Inv.frame {s : Verifier κ} {ctx : Ctx κ} {clock : Int} (h : Inv s)
    (hlist : ctx.stateList = s.ctx.stateList) (hwindow : ctx.expiryWindow ≤ s.ctx.expiryWindow)
    (hclock : s.clock ≤ clock) : Inv ⟨ctx, clock, s.used⟩ where
  nodup := h.nodup
  known := by
    intro id hid
    rcases h.known id hid with ⟨c, hmem, hcid, hexp⟩ | hlate
    · refine .inl ⟨c, hlist ▸ hmem, hcid, ?_⟩
      show id.2.2 + ctx.expiryWindow ≤ c.expiration
      omega
    · refine .inr ?_
      show id.2.2 + ctx.expiryWindow < clock
      omega

theorem Inv.verify {s : Verifier κ} {t : Readings} {cred : Cred} (h : Inv s)
    (htimely : Timely s (.verify t cred)) : Inv (next verifySign s (.verify t cred)) := by
  obtain ⟨h0, h1, h2, h3, h4, hprompt⟩ := htimely
  obtain ⟨exkey, ⟨hres, hctx⟩ | ⟨hstart, ⟨-, hres, hctx⟩ | ⟨-, hres, hctx⟩⟩⟩ :=
    verify_cases verifySign t s.ctx cred
  · unfold next
    simp only [hres, if_false, hctx]
    exact h.frame rfl (Int.le_refl _) (by omega)
  · unfold next
    simp only [hres, if_false, hctx]
    exact h.frame rfl (Int.le_refl _) (by omega)
  · have hwindow : (slurmCredVerify verifySign t s.ctx cred).2.expiryWindow =
        s.ctx.expiryWindow := by rw [hctx]
    have hkeep : ∀ id ∈ s.used,
        (∃ c, Remembers (slurmCredVerify verifySign t s.ctx cred).2 id c) ∨
          id.2.2 + s.ctx.expiryWindow < t.replayed := by
      intro id hid
      rcases h.known id hid with ⟨c, hc⟩ | hlate
      · rcases remembers_replayed hc (congrArg Ctx.stateList hctx) hwindow with hc' | hl
        · exact .inl ⟨c, hc'⟩
        · rw [hctx] at hl
          exact .inr hl
      · exact .inr (by omega)
    unfold next
    simp only
    split
    next hacc =>
      have hnew := hres.mp hacc
      refine ⟨List.nodup_cons.mpr ⟨fun hin => ?_, h.nodup⟩, List.forall_mem_cons.mpr ⟨?_, ?_⟩⟩
      · -- accepted before: then it is still remembered, since it has not expired
        rcases h.known _ hin with ⟨c, hc⟩ | hlate
        · have hrep := replayed_of_remembers hc (hprompt hstart)
          rw [hnew] at hrep
          cases hrep
        · have hlate' : cred.ctime + s.ctx.expiryWindow < s.clock := hlate
          omega
      · exact .inl (remembers_new hnew (congrArg Ctx.stateList hctx) hwindow)
      · simp only [hwindow]
        exact hkeep
    · refine ⟨h.nodup, ?_⟩
      simp only [hwindow]
      exact hkeep

theorem Inv.next {s : Verifier κ} {a : Act κ} (h : Inv s) (ha : Sound s a) :
    Inv (next verifySign s a) := by
  obtain ⟨htimely, hsound⟩ := ha
  cases a with
  | verify t cred => exact h.verify htimely
  | jobidCached now jobid => exact h.frame rfl (Int.le_refl _) htimely
  | insertJobid now jobid => exact h.frame rfl (Int.le_refl _) htimely
  | rewind cred =>
    refine ⟨h.nodup.filter _, fun id hid => ?_⟩
    obtain ⟨hin, hne⟩ := List.mem_filter.mp hid
    rcases h.known id hin with ⟨c, hmem, hcid, hexp⟩ | hlate
    · refine .inl ⟨c, List.mem_filter.mpr ⟨hmem, ?_⟩, hcid, hexp⟩
      rw [Bool.not_eq_true', ← Bool.not_eq_true, findCredState_iff, hcid]
      exact of_decide_eq_true hne
    · exact .inr hlate
  | revoke now jobid time =>
    obtain ⟨jobList, hframe⟩ := revoke_frame now s.ctx jobid time
    exact h.frame (by rw [hframe]) (by rw [hframe]) htimely
  | beginExpiration now later jobid =>
    obtain ⟨h1, h2⟩ := htimely
    obtain ⟨jobList, hframe⟩ := beginExpiration_frame now later s.ctx jobid
    exact h.frame (by rw [hframe]) (by rw [hframe]) (h1.trans h2)
  | handleReissue now cred => exact h.frame rfl (Int.le_refl _) htimely
  | setWindow expiryWindow => exact h.frame rfl hsound (Int.le_refl _)
  | updateKey now key => exact h.frame rfl (Int.le_refl _) htimely
  | restart now later key expiryWindow =>
    obtain ⟨hwindow, hsecond⟩ := hsound
    obtain ⟨hclock, hlater⟩ := htimely
    refine ⟨h.nodup, fun id hid => ?_⟩
    show (∃ c, Remembers _ id c) ∨ id.2.2 + expiryWindow < later
    rcases h.known id hid with ⟨c, hmem, hcid, hexp⟩ | hlate
    · by_cases hkeep : later < c.expiration
      · refine .inl ⟨c, ?_, hcid, ?_⟩
        · show c ∈ [] ++ s.ctx.stateList.filter (keepsCred later)
          exact List.mem_filter.mpr ⟨hmem, decide_eq_true hkeep⟩
        · show id.2.2 + expiryWindow ≤ c.expiration
          omega
      · have hne := hsecond c hmem
        exact .inr (by omega)
    · exact .inr (by omega)

/-- **No replay.** In every run of calls whose clock does not run backwards, does not pass the
end of a credential's validity in the middle of a verification and is not at the end of one when
the context is handed to the next process, no credential is accepted that was accepted before and
not taken back. -/
theorem used_nodup {acts : List (Act κ)} {key : κ} {expiryWindow clock : Int} {s : Verifier κ}
    (hrun : run (fun s a => some (next verifySign s a))
      ⟨verifierCtxCreate key expiryWindow, clock, []⟩ acts = some s)
    (hsound : Guarded (fun s a => some (next verifySign s a)) Sound
      ⟨verifierCtxCreate key expiryWindow, clock, []⟩ acts) : s.used.Nodup :=
  (reached_of_guarded (P := Inv)
    (fun _ _ _ h ha hs => Option.some.inj hs ▸ h.next ha)
    ⟨List.nodup_nil, (fun _ h => by cases h)⟩ hsound hrun).nodup

/-- All readings of a verification at one time. -/
def atOnce (now : Int) : Readings := ⟨now, now, now, now, now⟩

/-- A credential that is presented twice, taken back and presented to two processes. -/
def presented : List (Act Unit) :=
  let cred : Cred := ⟨7, 0, 90, [], []⟩
  [.verify (atOnce 100) cred, .verify (atOnce 110) cred, .rewind cred, .verify (atOnce 120) cred,
    .restart 130 131 () 1800, .verify (atOnce 140) cred]

theorem used_nodup_presented : ∃ s : Verifier Unit,
    run (fun s a => some (next (fun _ _ => true) s a)) ⟨verifierCtxCreate () 1800, 0, []⟩
      presented = some s ∧ s.used.Nodup := by
  have hsome : (run (fun s a => some (next (fun _ _ => true) s a))
      ⟨verifierCtxCreate () 1800, 0, []⟩ presented).isSome := by decide +kernel
  obtain ⟨s, hrun⟩ := Option.isSome_iff_exists.mp hsome
  exact ⟨s, hrun, used_nodup hrun (by decide +kernel)⟩

end Slurm.JobCredential
