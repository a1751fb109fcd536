import SlurmLite.Base.Bytes
import SlurmLite.Base.Stream

/-!
# The state file of the agent

Requests that SlurmDBD has not taken are saved when the agent ends, and loaded when the next one
is created.

* **Saving** (`saveDbdState`): the file is the stream of the kept requests, cut off where a write
  failed (`saveDbdState_prefix`), unless a write comes back short and the loop takes it for the
  whole (`Steady`).
* **Loading** (`loadDbdState`, `load_of_save`).
-/

namespace Slurm.Dbd

open Base.Bytes Base.Stream

/-- `DBD_MAGIC`. -/
def dbdMagic : Nat := 0xDEAD3219

/-- `MAX_DBD_MSG_LEN`. -/
def maxDbdMsgLen : Nat := 16384

/-- `DBD_JOB_START`. -/
def dbdJobStart : Nat := 1425

/-- `DBD_REGISTER_CTLD`. -/
def dbdRegisterCtld : Nat := 1434

/-- `DBD_STEP_START`. -/
def dbdStepStart : Nat := 1442

/-- A packed request: the bytes up to the offset of its buffer, which is a `uint32_t`. -/
def Msg : Type := { bytes : List UInt8 // bytes.length < 4294967296 }

instance : DecidableEq Msg :=
  inferInstanceAs (DecidableEq { bytes : List UInt8 // bytes.length < 4294967296 })

/-- The type that a request starts with. -/
def Msg.msgType (m : Msg) : Option Nat :=
  if m.1.length < 2 then none else some (ofBe (m.1.take 2))

/-! ## One record -/

/-- A `uint32_t` as it is in memory (least significant byte first). -/
def native32 (v : Nat) : List UInt8 := (toBe 4 v).reverse

def ofNative (bs : List UInt8) : Nat := ofBe bs.reverse

@[simp] theorem length_native32 (v : Nat) : (native32 v).length = 4 := by
  rw [native32, List.length_reverse, length_toBe]

theorem ofNative_native32 {v : Nat} (h : v < 4294967296) : ofNative (native32 v) = v := by
  rw [ofNative, native32, List.reverse_reverse, ofBe_toBe h]

/-- A whole record: the size, the request and the magic number. -/
def record (m : Msg) : List UInt8 := native32 m.1.length ++ m.1 ++ native32 dbdMagic

/-- `_load_dbd_rec`. -/
def loadDbdRec (file : List UInt8) : Option (Msg × List UInt8) :=
  if (file.take 4).length ≠ 4 then none
  else
    let msgSize := ofNative (file.take 4)
    if hsize : msgSize > maxDbdMsgLen then none
    else
      let msg := (file.drop 4).take msgSize
      if msg.length ≠ msgSize then none
      else
        let magic := (file.drop (4 + msgSize)).take 4
        if magic.length ≠ 4 ∨ ofNative magic ≠ dbdMagic then none
        else
          some (⟨msg, by
            have : msg.length ≤ msgSize := List.length_take_le _ _
            have : maxDbdMsgLen < 4294967296 := by decide
            omega⟩, file.drop (8 + msgSize))

/-- What a record is read as, from its first four bytes on. -/
theorem loadDbdRec_eq {m : Msg} {rest : List UInt8} :
    loadDbdRec (native32 m.1.length ++ rest) =
      if m.1.length > maxDbdMsgLen then none
      else if (rest.take m.1.length).length ≠ m.1.length then none
      else if ((rest.drop m.1.length).take 4).length ≠ 4 ∨
          ofNative ((rest.drop m.1.length).take 4) ≠ dbdMagic then none
      else some (⟨rest.take m.1.length, (List.length_take_le _ _).trans_lt m.2⟩,
        rest.drop (m.1.length + 4)) := by
  have htake : (native32 m.1.length ++ rest).take 4 = native32 m.1.length :=
    List.take_left' (length_native32 _)
  have hdrop : ∀ k, (native32 m.1.length ++ rest).drop (4 + k) = rest.drop k := by
    intro k
    rw [← List.drop_drop, List.drop_left' (length_native32 _)]
  have hdrop4 := hdrop 0
  have hdrop8 : (native32 m.1.length ++ rest).drop (8 + m.1.length) =
      rest.drop (m.1.length + 4) := by
    rw [show 8 + m.1.length = 4 + (m.1.length + 4) by omega, hdrop]
  rw [Nat.add_zero, List.drop_zero] at hdrop4
  unfold loadDbdRec
  simp only [htake, length_native32, ne_eq, not_true_eq_false, if_false, ofNative_native32 m.2,
    hdrop4, hdrop, hdrop8]
  rfl

/-- A whole record is read when it is not too long; one that was cut off is not read. -/
theorem loadDbdRec_record {m : Msg} (rest : List UInt8) (h : m.1.length ≤ maxDbdMsgLen) :
    loadDbdRec (record m ++ rest) = some (m, rest) := by
  have htake : ((m.1 ++ native32 dbdMagic ++ rest).take m.1.length) = m.1 := by
    rw [List.append_assoc, List.take_left' rfl]
  have hdrop : (m.1 ++ native32 dbdMagic ++ rest).drop m.1.length = native32 dbdMagic ++ rest := by
    rw [List.append_assoc, List.drop_left' rfl]
  have hmagic : (native32 dbdMagic ++ rest).take 4 = native32 dbdMagic :=
    List.take_left' (length_native32 _)
  have hend : (m.1 ++ native32 dbdMagic ++ rest).drop (m.1.length + 4) = rest := by
    rw [← List.drop_drop, hdrop, List.drop_left' (length_native32 _)]
  have hnative : ofNative (native32 dbdMagic) = dbdMagic := ofNative_native32 (by decide)
  unfold record
  rw [List.append_assoc, List.append_assoc, ← List.append_assoc m.1, loadDbdRec_eq,
    if_neg (Nat.not_lt.mpr h)]
  simp only [htake, hdrop, hmagic, hend, hnative, length_native32, ne_eq, not_true_eq_false,
    or_self, if_false]
  rfl

theorem loadDbdRec_long {m : Msg} (rest : List UInt8) (h : ¬m.1.length ≤ maxDbdMsgLen) :
    loadDbdRec (record m ++ rest) = none := by
  unfold record
  rw [List.append_assoc, List.append_assoc, loadDbdRec_eq, if_pos (Nat.lt_of_not_le h)]

theorem loadDbdRec_cut {m : Msg} {p : List UInt8} (hp : p <+: record m) (hne : p ≠ record m) :
    loadDbdRec p = none := by
  obtain ⟨t, ht⟩ := hp
  have hlt : p.length < m.1.length + 8 := by
    have hlen := congrArg List.length ht
    have hpos : 0 < t.length := by
      refine List.length_pos_iff.mpr fun h0 => hne ?_
      rw [← ht, h0, List.append_nil]
    simp only [record, List.length_append, length_native32] at hlen
    omega
  by_cases h4 : p.length < 4
  · unfold loadDbdRec
    rw [if_pos]
    rw [List.length_take]
    omega
  · -- the size is whole: the request or the magic number is not
    have hhead : p = native32 m.1.length ++ p.drop 4 := by
      have htake := congrArg (List.take 4) ht
      rw [List.take_append_of_le_length (Nat.not_lt.mp h4), record, List.append_assoc,
        List.take_left' (length_native32 _)] at htake
      rw [← htake, List.take_append_drop]
    rw [hhead, loadDbdRec_eq]
    split
    · rfl
    · rw [← ite_or, if_pos]
      simp only [List.length_take, List.length_drop]
      omega

/-- The records of the state file. -/
def records : Framing Msg UInt8 where
  frame := record
  parse := loadDbdRec
  ok m := m.1.length ≤ maxDbdMsgLen
  frame_ne m h := by
    have := congrArg List.length h
    simp [record] at this
  parse_nil := rfl
  parse_frame _ rest h := loadDbdRec_record rest h
  parse_bad _ rest h := loadDbdRec_long rest h
  parse_cut _ _ hp hne := loadDbdRec_cut hp hne

instance : DecidablePred records.ok := fun m =>
  inferInstanceAs (Decidable (m.1.length ≤ maxDbdMsgLen))

/-- The loop of `_load_dbd_state`. -/
def loadDbdState (file : List UInt8) : List Msg := readAll loadDbdRec file.length file

/-! ## Saving -/

/-- How a `write` ends: it takes up to `n` bytes, or it fails. -/
inductive Write where
  | wrote (n : Nat)
  | eintr
  | failed
deriving DecidableEq

/-- A `write` of `_save_dbd_rec` that has to take everything: what reaches the file, and whether
it was all. -/
def writeWhole (bs : List UInt8) : List Write → List UInt8 × Bool × List Write
  | .wrote n :: ws => (bs.take n, decide (bs.length ≤ n), ws)
  | .eintr :: ws => ([], false, ws)
  | .failed :: ws => ([], false, ws)
  | [] => ([], false, [])

/-- The loop of `_save_dbd_rec` over the request. `wrote` is what the last call has returned, not
what was written so far. -/
def writeMsg : List Write → Int → List UInt8 → List UInt8 × Bool × List Write
  | [], wrote, msg => if wrote < msg.length then ([], false, []) else ([], true, [])
  | w :: ws, wrote, msg =>
    if wrote < msg.length then
      match w with
      | .failed => ([], false, ws)
      | .eintr => writeMsg ws (-1) msg
      | .wrote n =>
        if n = 0 then ([], false, ws)
        else
          let (out, ok, ws) := writeMsg ws (min n msg.length : Nat) (msg.drop n)
          (msg.take n ++ out, ok, ws)
    else ([], true, w :: ws)

/-- `_save_dbd_rec`: what reaches the file, and whether it succeeds. -/
def saveDbdRec (ws : List Write) (m : Msg) : List UInt8 × Bool × List Write :=
  let (size, ok, ws) := writeWhole (native32 m.1.length) ws
  if !ok then (size, false, ws)
  else
    let (msg, ok, ws) := writeMsg ws 0 m.1
    if !ok then (size ++ msg, false, ws)
    else
      let (magic, ok, ws) := writeWhole (native32 dbdMagic) ws
      (size ++ msg ++ magic, ok, ws)

/-- Whether `_save_dbd_state` keeps a request. -/
def saved (m : Msg) : Bool := m.msgType.any (· ≠ dbdRegisterCtld)

/-- The loop of `_save_dbd_state`: the file, and whether every request was saved. -/
def saveDbdState : List Write → List Msg → List UInt8 × Bool
  | _, [] => ([], true)
  | ws, m :: agentList =>
    if saved m then
      let (out, ok, ws) := saveDbdRec ws m
      if ok then
        let (rest, all) := saveDbdState ws agentList
        (out ++ rest, all)
      else (out, false)
    else saveDbdState ws agentList

/-! ## Short writes -/

/-- No call of the loop takes at least half of what is left and not all of it: the loop would
compare what it took with what is left then, and end. -/
def SteadyMsg : List Write → List UInt8 → Prop
  | [], _ => True
  | .failed :: _, _ => True
  | .eintr :: ws, msg => SteadyMsg ws msg
  | .wrote n :: ws, msg =>
    n = 0 ∨ msg.length ≤ n ∨ (2 * n < msg.length ∧ SteadyMsg ws (msg.drop n))

instance decidableSteadyMsg : ∀ ws msg, Decidable (SteadyMsg ws msg)
  | [], _ => isTrue trivial
  | .failed :: _, _ => isTrue trivial
  | .eintr :: ws, msg => decidableSteadyMsg ws msg
  | .wrote n :: ws, msg =>
    have := decidableSteadyMsg ws (msg.drop n)
    inferInstanceAs (Decidable
      (n = 0 ∨ msg.length ≤ n ∨ (2 * n < msg.length ∧ SteadyMsg ws (msg.drop n))))

theorem writeMsg_done {ws : List Write} {wrote : Int} {msg : List UInt8}
    (h : ¬wrote < msg.length) : writeMsg ws wrote msg = ([], true, ws) := by
  cases ws with
  | nil => exact if_neg h
  | cons w ws => exact if_neg h

/-- What the loop writes is a part of the request from its start; where it succeeds, it is the
whole request exactly if the calls are steady. -/
theorem writeMsg_spec {ws : List Write} : ∀ (wrote : Int) (msg : List UInt8), wrote < msg.length →
    (writeMsg ws wrote msg).1 <+: msg ∧
    ((writeMsg ws wrote msg).2.1 = true →
      ((writeMsg ws wrote msg).1 = msg ↔ SteadyMsg ws msg)) := by
  induction ws with
  | nil =>
    intro wrote msg h
    rw [show writeMsg [] wrote msg = ([], false, []) from if_pos h]
    exact ⟨List.nil_prefix, fun hc => by cases hc⟩
  | cons w ws ih =>
    intro wrote msg h
    cases w with
    | failed =>
      rw [show writeMsg (.failed :: ws) wrote msg = ([], false, ws) from if_pos h]
      exact ⟨List.nil_prefix, fun hc => by cases hc⟩
    | eintr =>
      rw [show writeMsg (.eintr :: ws) wrote msg = writeMsg ws (-1) msg from if_pos h]
      exact ih _ _ (by omega)
    | wrote n =>
      rw [show writeMsg (.wrote n :: ws) wrote msg =
        if n = 0 then ([], false, ws)
        else (msg.take n ++ (writeMsg ws (min n msg.length : Nat) (msg.drop n)).1,
          (writeMsg ws (min n msg.length : Nat) (msg.drop n)).2) from if_pos h]
      split
      · exact ⟨List.nil_prefix, fun hc => by cases hc⟩
      next hn =>
        rcases Nat.lt_or_ge n msg.length with hpart | hall
        · rw [Nat.min_eq_left hpart.le]
          have hdrop : (msg.drop n).length = msg.length - n := List.length_drop
          by_cases hgo : 2 * n < msg.length
          · obtain ⟨hpre, hiff⟩ := ih (n : Int) (msg.drop n) (by omega)
            refine ⟨?_, fun hok => ?_⟩
            · have happ := (List.prefix_append_right_inj (msg.take n)).mpr hpre
              rwa [List.take_append_drop] at happ
            · have hsteady : SteadyMsg (.wrote n :: ws) msg ↔ SteadyMsg ws (msg.drop n) := by
                show (n = 0 ∨ msg.length ≤ n ∨ (2 * n < msg.length ∧ _)) ↔ _
                simp only [hn, Nat.not_le.mpr hpart, hgo, false_or, true_and]
              rw [hsteady, ← hiff hok]
              conv_lhs => rhs; rw [← List.take_append_drop n msg]
              exact List.append_right_inj _
          · -- what is left is no more than what this call took: the loop ends
            rw [writeMsg_done (by omega)]
            refine ⟨?_, fun _ => iff_of_false (fun he => ?_) ?_⟩
            · simpa using List.take_prefix n msg
            · have := congrArg List.length he
              simp only [List.append_nil, List.length_take] at this
              omega
            · show ¬(n = 0 ∨ msg.length ≤ n ∨ (2 * n < msg.length ∧ _))
              simp only [hn, Nat.not_le.mpr hpart, hgo, false_or, false_and, not_false_eq_true]
        · rw [writeMsg_done (by rw [List.length_drop]; omega), List.append_nil,
            List.take_of_length_le hall]
          exact ⟨List.prefix_refl _, fun _ => iff_of_true rfl (.inr (.inl hall))⟩

/-- The calls that save the request of a record are steady. -/
def SteadyRec (ws : List Write) (m : Msg) : Prop :=
  (writeWhole (native32 m.1.length) ws).2.1 = true →
    SteadyMsg (writeWhole (native32 m.1.length) ws).2.2 m.1

theorem writeWhole_spec (bs : List UInt8) (ws : List Write) :
    (writeWhole bs ws).1 <+: bs ∧ ((writeWhole bs ws).2.1 = true → (writeWhole bs ws).1 = bs) := by
  unfold writeWhole
  split
  · exact ⟨List.take_prefix _ _, fun h => List.take_of_length_le (of_decide_eq_true h)⟩
  · exact ⟨List.nil_prefix, fun h => by cases h⟩
  · exact ⟨List.nil_prefix, fun h => by cases h⟩
  · exact ⟨List.nil_prefix, fun h => by cases h⟩

theorem steadyMsg_nil (ws : List Write) : SteadyMsg ws [] := by
  induction ws with
  | nil => trivial
  | cons w ws ih =>
    cases w with
    | wrote n => exact .inr (.inl (Nat.zero_le n))
    | eintr => exact ih
    | failed => trivial

theorem writeMsg_zero (ws : List Write) (msg : List UInt8) :
    (writeMsg ws 0 msg).1 <+: msg ∧
    ((writeMsg ws 0 msg).2.1 = true → ((writeMsg ws 0 msg).1 = msg ↔ SteadyMsg ws msg)) := by
  cases msg with
  | cons x msg => exact writeMsg_spec _ _ (by simp)
  | nil =>
    rw [writeMsg_done (by simp)]
    exact ⟨List.prefix_refl _, fun _ => iff_of_true rfl (steadyMsg_nil ws)⟩

/-- What `_save_dbd_rec` leaves in the file. -/
theorem saveDbdRec_spec (ws : List Write) (m : Msg) :
    (SteadyRec ws m → (saveDbdRec ws m).1 <+: record m) ∧
    ((saveDbdRec ws m).2.1 = true → ((saveDbdRec ws m).1 = record m ↔ SteadyRec ws m)) := by
  obtain ⟨hsize, hsizeok⟩ := writeWhole_spec (native32 m.1.length) ws
  unfold SteadyRec saveDbdRec
  revert hsize hsizeok
  generalize writeWhole (native32 m.1.length) ws = r1
  obtain ⟨size, ok1, ws1⟩ := r1
  intro hsize hsizeok
  cases ok1 with
  | false =>
    refine ⟨fun _ => ?_, fun hc => by cases hc⟩
    rw [record, List.append_assoc]
    exact hsize.trans (List.prefix_append _ _)
  | true =>
    obtain rfl := hsizeok rfl
    obtain ⟨hmsg, hmsgok⟩ := writeMsg_zero ws1 m.1
    revert hmsg hmsgok
    simp only [Bool.not_true, Bool.false_eq_true, if_false, true_imp_iff]
    generalize writeMsg ws1 0 m.1 = r2
    obtain ⟨msg, ok2, ws2⟩ := r2
    intro hmsg hmsgok
    cases ok2 with
    | false =>
      refine ⟨fun _ => ?_, fun hc => by cases hc⟩
      rw [record, List.append_assoc]
      exact (List.prefix_append_right_inj _).mpr (hmsg.trans (List.prefix_append _ _))
    | true =>
      obtain ⟨hmagic, hmagicok⟩ := writeWhole_spec (native32 dbdMagic) ws2
      have hiff := hmsgok rfl
      refine ⟨fun hsteady => ?_, fun hok => ?_⟩
      · have heq : msg = m.1 := hiff.mpr hsteady
        subst heq
        exact (List.prefix_append_right_inj _).mpr hmagic
      · have hwhole := hmagicok hok
        simp only [Bool.not_true, Bool.false_eq_true, if_false, hwhole, record]
        rw [List.append_left_inj, List.append_right_inj]
        exact hiff

/-- The calls that save the requests of a list are steady. -/
def Steady : List Write → List Msg → Prop
  | _, [] => True
  | ws, m :: agentList =>
    if saved m then
      SteadyRec ws m ∧ ((saveDbdRec ws m).2.1 = true → Steady (saveDbdRec ws m).2.2 agentList)
    else Steady ws agentList

instance (ws : List Write) (m : Msg) : Decidable (SteadyRec ws m) :=
  inferInstanceAs (Decidable (_ = true → SteadyMsg _ _))

instance decidableSteady : ∀ ws agentList, Decidable (Steady ws agentList)
  | _, [] => isTrue trivial
  | ws, m :: agentList =>
    have := decidableSteady (saveDbdRec ws m).2.2 agentList
    have := decidableSteady ws agentList
    inferInstanceAs (Decidable (if saved m then
      SteadyRec ws m ∧ ((saveDbdRec ws m).2.1 = true → Steady (saveDbdRec ws m).2.2 agentList)
      else Steady ws agentList))

/-- The file is a part of the stream of the kept requests, from its start, and all of it when
every request was saved. -/
theorem saveDbdState_prefix {agentList : List Msg} : ∀ {ws : List Write}, Steady ws agentList →
    (saveDbdState ws agentList).1 <+: flat records (agentList.filter saved) ∧
    ((saveDbdState ws agentList).2 = true →
      (saveDbdState ws agentList).1 = flat records (agentList.filter saved)) := by
  induction agentList with
  | nil => exact fun _ => ⟨List.prefix_refl _, fun _ => rfl⟩
  | cons m agentList ih =>
    intro ws h
    by_cases hm : saved m = true
    · rw [Steady, if_pos hm] at h
      obtain ⟨hrec, hrest⟩ := h
      obtain ⟨hpre, hwhole⟩ := saveDbdRec_spec ws m
      rw [List.filter_cons_of_pos hm, flat_cons]
      simp only [saveDbdState, if_pos hm]
      cases hok : (saveDbdRec ws m).2.1 with
      | false =>
        simp only [Bool.false_eq_true, if_false]
        exact ⟨(hpre hrec).trans (List.prefix_append _ _), fun hc => by cases hc⟩
      | true =>
        simp only [if_true]
        obtain ⟨hp, he⟩ := ih (hrest hok)
        rw [(hwhole hok).mpr hrec]
        exact ⟨(List.prefix_append_right_inj _).mpr hp, fun hall => by rw [he hall]; rfl⟩
    · rw [Steady, if_neg hm] at h
      rw [List.filter_cons_of_neg hm]
      simp only [saveDbdState, if_neg hm]
      exact ih h

/-- Four bytes are what their number is written as. -/
theorem native32_ofNative {bs : List UInt8} (h : bs.length = 4) : native32 (ofNative bs) = bs := by
  match bs, h with
  | [a, b, c, d], _ =>
    have ha := a.toNat_lt
    have hb := b.toNat_lt
    have hc := c.toNat_lt
    have hd := d.toNat_lt
    have hv : ofNative [a, b, c, d] =
        ((d.toNat * 256 + c.toNat) * 256 + b.toNat) * 256 + a.toNat := by
      simp only [ofNative, ofBe, List.reverse_cons, List.reverse_nil, List.nil_append,
        List.cons_append, List.foldl_cons, List.foldl_nil]
      ring
    have hbyte : ∀ (x : UInt8) (v : Nat), v % 256 = x.toNat → UInt8.ofNat v = x := by
      intro x v hx
      rw [← UInt8.toNat_inj, UInt8.toNat_ofNat', hx]
    simp only [native32, toBe, List.reverse_cons, List.reverse_nil, List.nil_append,
      List.cons_append]
    rw [hbyte a _ (by omega), hbyte b _ (by omega), hbyte c _ (by omega), hbyte d _ (by omega)]

/-- What is loaded is what is in the file. -/
theorem loadDbdRec_sound {file rest : List UInt8} {m : Msg} (h : loadDbdRec file = some (m, rest)) :
    file = record m ++ rest ∧ m.1.length ≤ maxDbdMsgLen := by
  unfold loadDbdRec at h
  simp only at h
  split at h
  · cases h
  next hsize =>
    split at h
    · cases h
    next hmax =>
      split at h
      · cases h
      next hmsg =>
        split at h
        · cases h
        next hmagic =>
          obtain ⟨rfl, rfl⟩ := Prod.mk.inj (Option.some.inj h)
          rw [not_or, ne_eq, not_not, ne_eq, not_not] at hmagic
          rw [ne_eq, not_not] at hsize hmsg
          have hn := native32_ofNative hsize
          have hm : native32 dbdMagic = (file.drop (4 + ofNative (file.take 4))).take 4 := by
            rw [← hmagic.2, native32_ofNative hmagic.1]
          refine ⟨?_, ?_⟩
          · show file = native32 ((file.drop 4).take (ofNative (file.take 4))).length ++
              (file.drop 4).take (ofNative (file.take 4)) ++ native32 dbdMagic ++
              file.drop (8 + ofNative (file.take 4))
            rw [hmsg, hn, hm]
            generalize ofNative (file.take 4) = k
            have hend : (file.drop (4 + k)).take 4 ++ file.drop (8 + k) = file.drop (4 + k) := by
              rw [show 8 + k = (4 + k) + 4 by omega, ← List.drop_drop (j := 4 + k),
                List.take_append_drop]
            have hmid : (file.drop 4).take k ++ file.drop (4 + k) = file.drop 4 := by
              rw [← List.drop_drop, List.take_append_drop]
            rw [List.append_assoc, hend, List.append_assoc, hmid, List.take_append_drop]
          · show ((file.drop 4).take (ofNative (file.take 4))).length ≤ _
            rw [hmsg]
            exact Nat.not_lt.mp hmax

/-! ## Loading what was saved -/

/-- A request that is short enough to be loaded. -/
def short (m : Msg) : Bool := decide (m.1.length ≤ maxDbdMsgLen)

/-- A file that was cut off anywhere. -/
theorem loadDbdState_take (ms : List Msg) (k : Nat) :
    ∃ j, loadDbdState ((flat records ms).take k) = (ms.take j).takeWhile short := by
  obtain ⟨j, -, hread, -⟩ := readAll_take records ms k ((flat records ms).take k).length
    (by rw [List.length_take])
  exact ⟨j, hread⟩

theorem loadDbdState_flat (ms : List Msg) :
    loadDbdState (flat records ms) = ms.takeWhile short :=
  readAll_flat records (Nat.le_refl _)

/-- **Restart.** The agent saves its list with steady calls, any of which may fail, and of the
file the first `k` bytes are left. What the next agent loads are the kept requests, in order and
nothing else, up to one that did not get there whole or is too long to be loaded; when every one
was saved and the file is whole, up to the first that is too long. -/
theorem load_of_save {ws : List Write} {agentList : List Msg} (h : Steady ws agentList) (k : Nat) :
    (∃ j, loadDbdState ((saveDbdState ws agentList).1.take k) =
      ((agentList.filter saved).take j).takeWhile short) ∧
    ((saveDbdState ws agentList).2 = true →
      loadDbdState (saveDbdState ws agentList).1 = (agentList.filter saved).takeWhile short) := by
  obtain ⟨hpre, hall⟩ := saveDbdState_prefix h
  refine ⟨?_, fun hok => ?_⟩
  · have htake := List.prefix_iff_eq_take.mp hpre
    rw [htake, List.take_take]
    exact loadDbdState_take _ _
  · rw [hall hok, loadDbdState_flat]

/-- `DBD_JOB_COMPLETE` and `DBD_REGISTER_CTLD` requests. -/
def twoSaved : List Msg := [⟨[5, 144, 7], by decide⟩, ⟨[5, 154], by decide⟩, ⟨[5, 144], by decide⟩]

/-- Calls that take everything, the second in two parts. -/
def steadyCalls : List Write :=
  [.wrote 4, .wrote 1, .eintr, .wrote 9, .wrote 4, .wrote 4, .wrote 2, .wrote 4]

theorem load_of_save_two :
    (∃ j, loadDbdState ((saveDbdState steadyCalls twoSaved).1.take 15) =
      ((twoSaved.filter saved).take j).takeWhile short) ∧
    ((saveDbdState steadyCalls twoSaved).2 = true →
      loadDbdState (saveDbdState steadyCalls twoSaved).1 =
        (twoSaved.filter saved).takeWhile short) :=
  load_of_save (by decide) 15

example : loadDbdState (saveDbdState steadyCalls twoSaved).1 = twoSaved.filter saved := by
  decide +kernel

/-- **Short writes.** A record that is reported as saved is loaded as the request it was of, with
what follows it untouched, exactly if no write took at least half of what was left and not all of
it, and the request is not too long. -/
theorem saved_loads_iff (ws : List Write) (m : Msg) (hok : (saveDbdRec ws m).2.1 = true) :
    (∀ rest, loadDbdRec ((saveDbdRec ws m).1 ++ rest) = some (m, rest)) ↔
      SteadyRec ws m ∧ m.1.length ≤ maxDbdMsgLen := by
  rw [← (saveDbdRec_spec ws m).2 hok]
  constructor
  · intro h
    obtain ⟨heq, hlen⟩ := loadDbdRec_sound (h [])
    rw [List.append_nil, List.append_nil] at heq
    exact ⟨heq, hlen⟩
  · rintro ⟨heq, hlen⟩ rest
    rw [heq]
    exact loadDbdRec_record rest hlen

theorem saved_loads_iff_short :
    (∀ rest, loadDbdRec ((saveDbdRec [.wrote 4, .wrote 2, .wrote 4] ⟨[5, 144, 7], by decide⟩).1 ++
      rest) = some (⟨[5, 144, 7], by decide⟩, rest)) ↔
      SteadyRec [.wrote 4, .wrote 2, .wrote 4] ⟨[5, 144, 7], by decide⟩ ∧
        [5, 144, 7].length ≤ maxDbdMsgLen :=
  saved_loads_iff _ ⟨[5, 144, 7], by decide⟩ (by decide)

end Slurm.Dbd
