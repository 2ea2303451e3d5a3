import SocketManager.Outgoing.Closed

/-! `send_block` after the consumer of its ring is gone. The burst at the start of the call does not
    look at the consumer, so a message whose rest fits into the ring is still taken and reported as
    sent. The loop behind it polls the ring, and `poll_write` on a closed ring is ready at once with
    zero bytes:

        while offset < bytes.len() { offset += poll_write(…).await?; }      // offset += 0

    Its only measure is the number of bytes that remain, so it goes round for ever. A call returns
    exactly when the rest of its message fits and the consumer was dropped before the loop. -/

namespace SocketManager.Outgoing
variable {R : RingBuffer UInt8} {config : ConnConfig} {s t u : State R} {bytes : List UInt8}
  {calls : List Call} {offset : Nat}

/-- The call in progress takes a step, or `block_on` polls its future again. -/
def CallMove (config : ConnConfig) (s t : State R) : Prop :=
  step config s .sender = some t ∨ step config s .repoll = some t

/-- A step of the writer or of its environment. -/
def WriterSide (_ : State R) (a : Act) : Prop := a.ofUser = false

/-- The call takes only finitely many more steps, whatever the writer does between them, and then
    returns; with an error if a part of the message is left. -/
inductive Finishes (config : ConnConfig) (calls : List Call) : State R → Prop where
  | returned {s : State R} {c : Call} (hc : s.calls = calls ++ [c])
      (herr : c.offset < c.op.bytes.length → ∃ kind, c.outcome = .err kind) : Finishes config calls s
  | step {s : State R} (hex : ∃ t, CallMove config s t)
      (hall : ∀ u t, (machine R config).Path WriterSide s u → CallMove config u t →
        Finishes config calls t) : Finishes config calls s

/-- The consumer of the sender's ring is gone. -/
def Dead (s : State R) : Prop := (s.rings s.ringBuf).consHeld = false

/-- The writer changes nothing for a sender whose consumer is gone. -/
theorem dead_writerSide (hi : Inv s) (hc : Dead s) (hp : (machine R config).Path WriterSide s u) :
    Dead u ∧ u.sender = s.sender ∧ u.calls = s.calls ∧ u.room = s.room := by
  have key : Inv u ∧ Dead u ∧ u.sender = s.sender ∧ u.calls = s.calls ∧ u.room = s.room := by
    refine hp.invariant (I := fun u => Inv u ∧ Dead u ∧ u.sender = s.sender ∧ u.calls = s.calls ∧
      u.room = s.room) ⟨hi, hc, rfl, rfl, rfl⟩ ?_
    rintro v a w ha ⟨hv, hcv, hsv, hcalls, hroom⟩ hs
    obtain ⟨hcw, hsw, hcallsw, hroomw⟩ := dead_writerMove hv hcv (step_writer ha hs)
    exact ⟨(hv.step hs).inv, hcw, hsw.trans hsv, hcallsw.trans hcalls, hroomw.trans hroom⟩
  exact key.2

/-! ### A burst that fits -/

theorem finishes_burst (hi : Inv s) (hc : Dead s)
    (hs : s.sender = .burstWrite (.sendBlock bytes) offset false)
    (hfits : bytes.length ≤ offset + s.room) : Finishes config s.calls s := by
  have hlt : offset < bytes.length := by have := hi.pc; simpa [SenderPcOk, hs, Op.bytes] using this
  refine .step ⟨burstWrite s (.sendBlock bytes) offset false, .inl ?_⟩ ?_
  · simp only [step, senderStep, hs]
  · intro u t hp hm
    obtain ⟨-, hsu, hcu, hroom⟩ := dead_writerSide hi hc hp
    rw [hs] at hsu
    rcases hm with hm | hm
    · simp only [step, senderStep, hsu] at hm
      rw [burstWrite_fits (s := u) (.sendBlock bytes) false hlt (by rw [hroom]; exact hfits)] at hm
      obtain rfl := Option.some.inj hm
      refine .returned (c := ⟨.sendBlock bytes, .ok, bytes.length⟩) ?_ ?_
      · exact congrArg (· ++ _) hcu
      · exact fun h => absurd h (Nat.lt_irrefl _)
    · simp only [step, hsu] at hm
      cases hm

/-! ### The loop that never ends -/

/-- The call will go round the loop for ever: its rest does not fit, or it is in the loop. -/
def Stuck (bytes : List UInt8) (s : State R) : Prop :=
  Spinning bytes s.sender s.room ∨ ∃ offset, s.sender = .pollPending bytes offset ∧
    offset < bytes.length

theorem senderMove_of_callMove (hm : CallMove config s t) : SenderMove s t := by
  rcases hm with hm | hm
  · exact step_user rfl hm
  · exact step_user rfl hm

theorem Stuck.callMove (hc : Dead s) (hs : Stuck bytes s) (hm : CallMove config s t) :
    Dead t ∧ t.calls = s.calls ∧ Stuck bytes t := by
  rcases hs with hspin | ⟨offset, hpend, hlt⟩
  · obtain ⟨hct, hcalls, hspin'⟩ := spinning_move hc hspin (senderMove_of_callMove hm)
    exact ⟨hct, hcalls, .inl hspin'⟩
  · rcases hm with hm | hm
    · simp only [step, senderStep, hpend] at hm
      cases hm
    · simp only [step, hpend] at hm
      obtain rfl := Option.some.inj hm
      exact ⟨hc, rfl, .inl (.inr ⟨offset, rfl, hlt⟩)⟩

theorem not_finishes_of_stuck (hf : Finishes config calls s) (hc : Dead s) (hcalls : s.calls = calls)
    (hs : Stuck bytes s) : False := by
  induction hf with
  | returned hret _ =>
    rw [hcalls] at hret
    simp at hret
  | step hex _ ih =>
    obtain ⟨t, hm⟩ := hex
    obtain ⟨hct, hcallst, hst⟩ := hs.callMove hc hm
    exact ih _ t .refl hm hct (hcallst.trans hcalls) hst

/-! ### Exactly when the call returns -/

theorem finishes_burst_iff (hi : Inv s) (hc : Dead s)
    (hs : s.sender = .burstWrite (.sendBlock bytes) offset false) :
    Finishes config s.calls s ↔ bytes.length ≤ offset + s.room := by
  refine ⟨fun hf => ?_, finishes_burst hi hc hs⟩
  by_contra hshort
  exact not_finishes_of_stuck hf hc rfl (.inl (.inl ⟨offset, hs, Nat.lt_of_not_le hshort⟩))

/-- A `send_block` on a ring without consumer returns exactly if the rest of its message fits and it
    has not entered its loop; this for a consumer dropped before the call, during the burst, and while
    the loop runs or sleeps. -/
theorem send_block_finishes_iff (R : RingBuffer UInt8) (config : ConnConfig) (s : State R)
    (bytes : List UInt8) (hr : (machine R config).Reach s)
    (hc : (s.rings s.ringBuf).consHeld = false) :
    (s.sender = .idle → (Finishes config s.calls (startCall s (.sendBlock bytes)) ↔
      bytes.length ≤ (s.rings s.ringBuf).vacant)) ∧
    (∀ offset, s.sender = .burstWrite (.sendBlock bytes) offset false →
      (Finishes config s.calls s ↔ bytes.length ≤ offset + (s.rings s.ringBuf).vacant)) ∧
    ∀ offset, s.sender = .pollWrite bytes offset ∨ s.sender = .pollPending bytes offset →
      ¬ Finishes config s.calls s := by
  have hi := reach_inv hr
  refine ⟨fun hidle => ?_, fun offset hs => finishes_burst_iff hi hc hs, fun offset hs hf => ?_⟩
  · by_cases hnil : bytes = []
    · subst hnil
      refine ⟨fun _ => Nat.zero_le _, fun _ => ?_⟩
      exact .returned (c := ⟨.sendBlock [], .ok, 0⟩) rfl (fun h => absurd h (Nat.lt_irrefl _))
    · have hi' := (hi.startCall (.sendBlock bytes) hidle).inv
      rw [startCall_burst (.inl rfl) hnil] at hi' ⊢
      have hiff : Finishes config s.calls (s.senderAt (.burstWrite (.sendBlock bytes) 0 false)) ↔
          bytes.length ≤ 0 + (s.rings s.ringBuf).vacant := finishes_burst_iff hi' hc rfl
      rw [Nat.zero_add] at hiff
      exact hiff
  · have hlt : offset < bytes.length := by
      have hpc := hi.pc
      rcases hs with hs | hs <;> simpa [SenderPcOk, hs] using hpc
    have hstuck : Stuck bytes s := by
      rcases hs with hs | hs
      · exact .inl (.inr ⟨offset, hs, hlt⟩)
      · exact .inr ⟨offset, hs, hlt⟩
    exact not_finishes_of_stuck hf hc rfl hstuck

/-- After the abort of the writer task the empty ring has room for its whole capacity. -/
theorem reach_abortWriter_room :
    ∃ s : State (RingBuffer.circular UInt8), (machine _ ⟨0, 0, 0⟩).Reach s ∧ s.sender = .idle ∧
      (s.rings s.ringBuf).consHeld = false ∧ (s.rings s.ringBuf).vacant = ringBufferSize := by
  obtain ⟨s, hr, hp⟩ := Machine.reach_of_run
    (m := machine (RingBuffer.circular UInt8) ⟨0, 0, 0⟩) abortWriter
    (fun s => s.sender = .idle ∧ (s.rings s.ringBuf).consHeld = false ∧
      (s.rings s.ringBuf).vacant = ringBufferSize) (by decide +kernel)
  exact ⟨s, hr, of_decide_eq_true hp⟩

theorem send_block_finishes_iff_abortWriter :
    ∃ s : State (RingBuffer.circular UInt8), (machine _ ⟨0, 0, 0⟩).Reach s ∧
      (s.rings s.ringBuf).consHeld = false ∧
      Finishes ⟨0, 0, 0⟩ s.calls (startCall s (.sendBlock [1])) := by
  obtain ⟨s, hr, hs, hc, hv⟩ := reach_abortWriter_room
  refine ⟨s, hr, hc, ((send_block_finishes_iff _ _ s [1] hr hc).1 hs).mpr ?_⟩
  rw [hv]; decide

/-- A message one byte longer than the ring, sent after the abort, never returns. -/
theorem send_block_never_finishes :
    ∃ s : State (RingBuffer.circular UInt8), (machine _ ⟨0, 0, 0⟩).Reach s ∧ s.sender = .idle ∧
      (s.rings s.ringBuf).consHeld = false ∧
      ¬ Finishes ⟨0, 0, 0⟩ s.calls
        (startCall s (.sendBlock (List.replicate (ringBufferSize + 1) 0))) := by
  obtain ⟨s, hr, hs, hc, hv⟩ := reach_abortWriter_room
  have hlen : (List.replicate (ringBufferSize + 1) (0 : UInt8)).length = ringBufferSize + 1 :=
    List.length_replicate
  generalize List.replicate (ringBufferSize + 1) (0 : UInt8) = bytes at hlen ⊢
  refine ⟨s, hr, hs, hc, fun hf => ?_⟩
  have hne : bytes ≠ [] := List.length_pos_iff.mp (by omega)
  rw [startCall_burst (.inl rfl) hne] at hf
  refine not_finishes_of_stuck (s := s.senderAt (.burstWrite (.sendBlock bytes) 0 false)) hf hc rfl
    (.inl (.inl ⟨0, rfl, ?_⟩))
  show 0 + (s.rings s.ringBuf).vacant < bytes.length
  omega

end SocketManager.Outgoing
