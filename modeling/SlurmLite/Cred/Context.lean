import SlurmLite.Base.Assoc
import SlurmLite.Base.Run

/-!
# The credential context of a verifier

A verifier accepts the credential of a job step once, while it has not expired and has not been
revoked. What it remembers for this is cleared when it can no longer matter, and is carried over
to the context of the next process.

* **Operations** (`slurmCredVerify`, `slurmCredRevoke`, …): each takes the readings of the clock
  that it makes.
* **Steps** (`next`): any of them, in any order.
-/

namespace Slurm.JobCredential

open Base.Assoc

/-- `MAX_TIME`. -/
def maxTime : Int := 0x7fffffff

/-- A credential: what tells it from others, the other fields that are signed, and the
signature. -/
structure Cred where
  jobid : UInt32
  stepid : UInt32
  ctime : Int
  rest : List UInt8
  signature : List UInt8
deriving DecidableEq

/-- `cred_state_t`. -/
structure CredState where
  jobid : UInt32
  stepid : UInt32
  ctime : Int
  expiration : Int
deriving DecidableEq

/-- `job_state_t`. -/
structure JobState where
  jobid : UInt32
  revoked : Int
  ctime : Int
  expiration : Int
deriving DecidableEq

/-- `struct slurm_cred_context` of a verifier. -/
structure Ctx (κ : Type) where
  key : κ
  jobList : List JobState
  stateList : List CredState
  expiryWindow : Int
  exkey : Option κ
  exkeyExp : Int

/-! ## Job states -/

/-- `_clear_expired_job_states`. -/
def clearExpiredJobStates (now : Int) (jobList : List JobState) : List JobState :=
  jobList.filter fun j => !(decide (j.revoked ≠ 0) && decide (now > j.expiration))

/-- `_find_job_state`. -/
def findJobState (jobList : List JobState) (jobid : UInt32) : Option JobState :=
  find JobState.jobid jobList jobid

/-- `_job_state_create`. -/
def jobStateCreate (now : Int) (jobid : UInt32) : JobState := ⟨jobid, 0, now, maxTime⟩

/-- `_insert_job_state`. -/
def insertJobState (now : Int) (jobList : List JobState) (jobid : UInt32) : List JobState :=
  jobList ++ [jobStateCreate now jobid]

/-- `slurm_cred_handle_reissue`: the state of a job that was revoked before this credential was
created is forgotten. -/
def slurmCredHandleReissue (now : Int) (jobList : List JobState) (cred : Cred) : List JobState :=
  match findJobState jobList cred.jobid with
  | none => jobList
  | some j =>
    if j.revoked ≠ 0 ∧ cred.ctime > j.revoked then
      clearExpiredJobStates now
        (modifyFirst JobState.jobid cred.jobid (fun j => { j with expiration := 0 }) jobList)
    else jobList

/-- `_credential_revoked`. -/
def credentialRevoked (now : Int) (jobList : List JobState) (cred : Cred) :
    Bool × List JobState :=
  let jobList := clearExpiredJobStates now jobList
  match findJobState jobList cred.jobid with
  | none => (false, insertJobState now jobList cred.jobid)
  | some j => (decide (cred.ctime ≤ j.revoked), jobList)

/-! ## Credential states -/

/-- `_clear_expired_credential_states`. -/
def clearExpiredCredentialStates (now : Int) (stateList : List CredState) : List CredState :=
  stateList.filter fun s => !decide (now > s.expiration)

/-- `_find_cred_state`. -/
def findCredState (s : CredState) (cred : Cred) : Bool :=
  decide (s.jobid = cred.jobid) && decide (s.stepid = cred.stepid) && decide (s.ctime = cred.ctime)

/-- `_cred_state_create`. -/
def credStateCreate (expiryWindow : Int) (cred : Cred) : CredState :=
  ⟨cred.jobid, cred.stepid, cred.ctime, cred.ctime + expiryWindow⟩

/-- `_credential_replayed`. -/
def credentialReplayed (now expiryWindow : Int) (stateList : List CredState) (cred : Cred) :
    Bool × List CredState :=
  let stateList := clearExpiredCredentialStates now stateList
  if stateList.any fun s => findCredState s cred then (true, stateList)
  else (false, stateList ++ [credStateCreate expiryWindow cred])

/-! ## Operations -/

section

variable {κ : Type}

/-- `_exkey_is_valid`. -/
def exkeyIsValid (now : Int) (ctx : Ctx κ) : Bool × Ctx κ :=
  match ctx.exkey with
  | none => (false, ctx)
  | some _ => if now > ctx.exkeyExp then (false, { ctx with exkey := none }) else (true, ctx)

/-- `_slurm_cred_verify_signature`, with the plugin's `crypto_verify_sign`. -/
def slurmCredVerifySignature (verifySign : κ → Cred → Bool) (now : Int) (ctx : Ctx κ)
    (cred : Cred) : Bool × Ctx κ :=
  if verifySign ctx.key cred then (true, ctx)
  else
    let (valid, ctx) := exkeyIsValid now ctx
    (valid && ctx.exkey.any fun exkey => verifySign exkey cred, ctx)

/-- How a verification ends. -/
inductive VerifyResult where
  | accepted
  | invalidJobCredential
  | credentialExpired
  | credentialRevoked
  | credentialReplayed
deriving DecidableEq

/-- The readings of the clock that one verification makes, in this order. -/
structure Readings where
  start : Int
  exkey : Int
  reissue : Int
  revoked : Int
  replayed : Int
deriving DecidableEq

/-- `slurm_cred_verify`. -/
def slurmCredVerify (verifySign : κ → Cred → Bool) (t : Readings) (ctx : Ctx κ) (cred : Cred) :
    VerifyResult × Ctx κ :=
  let (valid, ctx) := slurmCredVerifySignature verifySign t.exkey ctx cred
  if !valid then (.invalidJobCredential, ctx)
  else if t.start > cred.ctime + ctx.expiryWindow then (.credentialExpired, ctx)
  else
    let jobList := slurmCredHandleReissue t.reissue ctx.jobList cred
    let (revoked, jobList) := credentialRevoked t.revoked jobList cred
    if revoked then (.credentialRevoked, { ctx with jobList := jobList })
    else
      let (replayed, stateList) :=
        credentialReplayed t.replayed ctx.expiryWindow ctx.stateList cred
      (if replayed then .credentialReplayed else .accepted,
        { ctx with jobList := jobList, stateList := stateList })

/-- `slurm_cred_jobid_cached`. -/
def slurmCredJobidCached (now : Int) (ctx : Ctx κ) (jobid : UInt32) : Bool × Ctx κ :=
  let jobList := clearExpiredJobStates now ctx.jobList
  ((findJobState jobList jobid).isSome, { ctx with jobList := jobList })

/-- `slurm_cred_insert_jobid`. -/
def slurmCredInsertJobid (now : Int) (ctx : Ctx κ) (jobid : UInt32) : Ctx κ :=
  { ctx with jobList := insertJobState now (clearExpiredJobStates now ctx.jobList) jobid }

/-- `slurm_cred_rewind`. -/
def slurmCredRewind (ctx : Ctx κ) (cred : Cred) : Bool × Ctx κ :=
  (ctx.stateList.any fun s => findCredState s cred,
    { ctx with stateList := ctx.stateList.filter fun s => !findCredState s cred })

/-- `slurm_cred_revoke`: whether the job was not revoked yet. -/
def slurmCredRevoke (now : Int) (ctx : Ctx κ) (jobid : UInt32) (time : Int) : Bool × Ctx κ :=
  let jobList := clearExpiredJobStates now ctx.jobList
  let jobList :=
    if (findJobState jobList jobid).isNone then insertJobState now jobList jobid else jobList
  if (findJobState jobList jobid).any fun j => j.revoked ≠ 0 then
    (false, { ctx with jobList := jobList })
  else
    (true, { ctx with
      jobList := modifyFirst JobState.jobid jobid (fun j => { j with revoked := time }) jobList })

/-- `slurm_cred_begin_expiration`, which reads the clock again for the expiration. -/
def slurmCredBeginExpiration (now later : Int) (ctx : Ctx κ) (jobid : UInt32) : Bool × Ctx κ :=
  let jobList := clearExpiredJobStates now ctx.jobList
  match findJobState jobList jobid with
  | none => (false, { ctx with jobList := jobList })
  | some j =>
    if j.expiration < maxTime then (false, { ctx with jobList := jobList })
    else
      (true, { ctx with
        jobList := modifyFirst JobState.jobid jobid
          (fun j => { j with expiration := later + ctx.expiryWindow }) jobList })

/-- `_ctx_update_public_key`, of a key that can be read. -/
def ctxUpdatePublicKey (now : Int) (ctx : Ctx κ) (key : κ) : Ctx κ :=
  { ctx with key := key, exkey := some ctx.key, exkeyExp := now + ctx.expiryWindow + 60 }

/-! ## The next process -/

/-- What `_job_state_unpack_one` does with what it has read. -/
def revokeEnds (j : JobState) : JobState :=
  if j.revoked ≠ 0 ∧ j.expiration = maxTime then { j with expiration := j.revoked + 600 } else j

/-- Whether `_job_state_unpack` keeps a state. -/
def keepsJob (now : Int) (j : JobState) : Bool :=
  decide (j.revoked = 0) || decide (now < j.expiration)

/-- Whether `_cred_state_unpack` keeps a state. -/
def keepsCred (now : Int) (s : CredState) : Bool := decide (now < s.expiration)

/-- `slurm_cred_ctx_unpack` of lists that were packed. Each list is unpacked with its own reading
of the clock. -/
def ctxUnpacked (now later : Int) (ctx : Ctx κ) (jobs : List JobState) (creds : List CredState) :
    Ctx κ :=
  { ctx with
    jobList := ctx.jobList ++ (jobs.map revokeEnds).filter (keepsJob now)
    stateList := ctx.stateList ++ creds.filter (keepsCred later) }

/-- A verifier context with nothing in it. -/
def verifierCtxCreate (key : κ) (expiryWindow : Int) : Ctx κ :=
  ⟨key, [], [], expiryWindow, none, -1⟩

/-! ## Steps -/

/-- What tells credentials apart. -/
abbrev Id : Type := UInt32 × UInt32 × Int

def Cred.id (cred : Cred) : Id := (cred.jobid, cred.stepid, cred.ctime)

def CredState.id (s : CredState) : Id := (s.jobid, s.stepid, s.ctime)

/-- A verifier. `clock` is the last reading, and `used` what was accepted and not taken back. -/
structure Verifier (κ : Type) where
  ctx : Ctx κ
  clock : Int
  used : List Id

/-- What is called. -/
inductive Act (κ : Type) where
  | verify (t : Readings) (cred : Cred)
  | jobidCached (now : Int) (jobid : UInt32)
  | insertJobid (now : Int) (jobid : UInt32)
  | rewind (cred : Cred)
  | revoke (now : Int) (jobid : UInt32) (time : Int)
  | beginExpiration (now later : Int) (jobid : UInt32)
  | handleReissue (now : Int) (cred : Cred)
  | setWindow (expiryWindow : Int)
  | updateKey (now : Int) (key : κ)
  /-- The context is packed, and unpacked into the one of the next process. -/
  | restart (now later : Int) (key : κ) (expiryWindow : Int)

variable (verifySign : κ → Cred → Bool)

/-- One call. -/
def next (s : Verifier κ) : Act κ → Verifier κ
  | .verify t cred =>
    let (result, ctx) := slurmCredVerify verifySign t s.ctx cred
    ⟨ctx, t.replayed, if result = .accepted then cred.id :: s.used else s.used⟩
  | .jobidCached now jobid => ⟨(slurmCredJobidCached now s.ctx jobid).2, now, s.used⟩
  | .insertJobid now jobid => ⟨slurmCredInsertJobid now s.ctx jobid, now, s.used⟩
  | .rewind cred =>
    ⟨(slurmCredRewind s.ctx cred).2, s.clock, s.used.filter fun id => id ≠ cred.id⟩
  | .revoke now jobid time => ⟨(slurmCredRevoke now s.ctx jobid time).2, now, s.used⟩
  | .beginExpiration now later jobid =>
    ⟨(slurmCredBeginExpiration now later s.ctx jobid).2, later, s.used⟩
  | .handleReissue now cred =>
    ⟨{ s.ctx with jobList := slurmCredHandleReissue now s.ctx.jobList cred }, now, s.used⟩
  | .setWindow expiryWindow => ⟨{ s.ctx with expiryWindow := expiryWindow }, s.clock, s.used⟩
  | .updateKey now key => ⟨ctxUpdatePublicKey now s.ctx key, now, s.used⟩
  | .restart now later key expiryWindow =>
    ⟨ctxUnpacked now later (verifierCtxCreate key expiryWindow) s.ctx.jobList s.ctx.stateList,
      later, s.used⟩

/-- The clock does not run backwards, and does not pass the end of a credential's validity while
the credential is verified. -/
def Timely (s : Verifier κ) : Act κ → Prop
  | .verify t cred =>
    s.clock ≤ t.exkey ∧ t.start ≤ t.exkey ∧ t.exkey ≤ t.reissue ∧ t.reissue ≤ t.revoked ∧
      t.revoked ≤ t.replayed ∧
      (t.start ≤ cred.ctime + s.ctx.expiryWindow → t.replayed ≤ cred.ctime + s.ctx.expiryWindow)
  | .jobidCached now _ | .insertJobid now _ | .revoke now _ _ | .handleReissue now _
  | .updateKey now _ => s.clock ≤ now
  | .beginExpiration now later _ | .restart now later _ _ => s.clock ≤ now ∧ now ≤ later
  | .rewind _ | .setWindow _ => True

instance (s : Verifier κ) (a : Act κ) : Decidable (Timely s a) :=
  match a with
  | .verify _ _ => inferInstanceAs (Decidable (_ ∧ _ ∧ _ ∧ _ ∧ _ ∧ (_ → _)))
  | .jobidCached now _ | .insertJobid now _ | .revoke now _ _ | .handleReissue now _
  | .updateKey now _ => inferInstanceAs (Decidable (s.clock ≤ now))
  | .beginExpiration _ _ _ | .restart _ _ _ _ => inferInstanceAs (Decidable (_ ∧ _))
  | .rewind _ | .setWindow _ => isTrue trivial

end

end Slurm.JobCredential
