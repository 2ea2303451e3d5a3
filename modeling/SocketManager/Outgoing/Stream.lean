import SocketManager.Lib.Pipe
import SocketManager.Outgoing.Invariant

/-! The outgoing side as a FIFO pipe. The sent end of the pipe is what the calls of the sender have
    accepted, the delivered end is what the socket took; every step of the sender and of the writer
    only extends the two ends, and a writer that returns `Ok` has delivered everything. -/

namespace SocketManager.Outgoing
variable {R : RingBuffer UInt8} {config : ConnConfig} {s s' : State R}

/-- The pipe the outgoing side implements. -/
def State.pipe (s : State R) (h : Inv s) : Pipe UInt8 := ⟨s.accepted, s.written, h.core.written⟩

/-- Nothing the socket took is taken back. -/
theorem writerMove_written (hm : WriterMove config s s') : s.written <+: s'.written := by
  cases hm with
  | wrote hw _ _ => exact List.prefix_append _ _
  | @flushed ring k hw _ => cases k <;> exact List.prefix_rfl
  | _ => exact List.prefix_rfl

/-- One step extends the pipe. -/
theorem pipe_step (h : Inv s) {a : Act} (hs : step config s a = some s') :
    ∃ h' : Inv s', s.pipe h ≤ s'.pipe h' := by
  have hn := h.step hs
  refine ⟨hn.inv, Pipe.le_def.mpr ⟨hn.accepted, ?_⟩⟩
  rcases step_cases hs with hm | hm
  · show s.written <+: s'.written
    rw [(senderMove_frame hm).written]
  · exact writerMove_written hm

/-- The outgoing side refines a pipe: along any path the two ends only grow. -/
theorem pipe_path (h : Inv s) {ok : State R → Act → Prop}
    (hp : (machine R config).Path ok s s') : ∃ h' : Inv s', s.pipe h ≤ s'.pipe h' := by
  refine hp.invariant (I := fun t => ∃ ht : Inv t, s.pipe h ≤ t.pipe ht) ⟨h, le_rfl⟩ ?_
  rintro t a u - ⟨ht, hle⟩ hs
  obtain ⟨hu, hle'⟩ := pipe_step ht hs
  exact ⟨hu, hle.trans hle'⟩

/-! ### What a call has accepted -/

/-- The message of the call in progress. -/
def SenderPc.bytes : SenderPc → List UInt8
  | .burstWrite op _ _ | .newRing op _ | .sendRing op _ _ | .setRingBuf op _ => op.bytes
  | .pollWrite bytes _ | .pollPending bytes _ => bytes
  | .checkClosed bytes _ _ | .registerWaker bytes _ => bytes
  | .idle | .dropRingsPrd | .dropped => []

/-- A call in progress has accepted a prefix of its message. -/
theorem SenderPc.accepted_isPrefix (pc : SenderPc) : pc.accepted <+: pc.bytes := by
  cases pc <;> simp [SenderPc.accepted, SenderPc.bytes, List.take_prefix]

/-- The result of a call and its accepted bytes agree with how much of the message was pushed. -/
structure CallOk (c : Call) : Prop where
  offset_le : c.offset ≤ c.op.bytes.length
  accepted : c.accepted = c.op.bytes.take c.offset
  okN : ∀ n, c.outcome = .okN n → n = c.offset

theorem CallOk.ok {op : Op} {offset : Nat} (h : offset = op.bytes.length) :
    CallOk ⟨op, .ok, offset⟩ :=
  ⟨h.le, by simp only [Call.accepted, h, List.take_length], fun _ hn => by cases hn⟩

theorem CallOk.of_okN {op : Op} {offset : Nat} (h : offset ≤ op.bytes.length) :
    CallOk ⟨op, .okN offset, offset⟩ :=
  ⟨h, rfl, fun _ hn => by cases hn; rfl⟩

theorem CallOk.err {op : Op} {kind : ErrorKind} {offset : Nat} (h : offset ≤ op.bytes.length) :
    CallOk ⟨op, .err kind, offset⟩ :=
  ⟨h, rfl, fun _ hn => by cases hn⟩

theorem CallOk.pending {op : Op} : CallOk ⟨op, .pending, 0⟩ :=
  ⟨Nat.zero_le _, by simp [Call.accepted], fun _ hn => by cases hn⟩

/-- The calls are the same, or one more returned. -/
def Returns (s s' : State R) : Prop :=
  s'.calls = s.calls ∨ ∃ c, CallOk c ∧ s'.calls = s.calls ++ [c]

theorem returns_ret {op : Op} {outcome : Outcome} {offset : Nat}
    (hc : CallOk ⟨op, outcome, offset⟩) : Returns s (s.ret op outcome offset) :=
  .inr ⟨_, hc, rfl⟩

theorem returns_startCall (op : Op) : Returns s (startCall s op) := by
  cases op with
  | sendBlock bytes | sendNonblock bytes =>
    simp only [startCall]
    split
    · rename_i hnil
      exact returns_ret (.ok (by simp [Op.bytes, hnil]))
    · exact .inl rfl
  | sendAsync bytes waker =>
    simp only [startCall]
    split
    · exact returns_ret (.of_okN (Nat.zero_le _))
    · exact .inl rfl
  | flush => exact .inl rfl

theorem returns_burstWrite (h : Inv s) {op : Op} {offset : Nat} {registered : Bool}
    (hs : s.sender = .burstWrite op offset registered) :
    Returns s (burstWrite s op offset registered) := by
  have hoff : offset < op.bytes.length := by have := h.pc; simpa [SenderPcOk, hs] using this
  simp only [burstWrite]
  split
  · cases op with
    | sendAsync bytes waker =>
      simp only [burstPending]
      split
      · exact .inr ⟨_, .of_okN hoff.le, rfl⟩
      · split
        · exact .inr ⟨_, .pending, rfl⟩
        · exact .inl rfl
    | _ => exact .inl rfl
  · split
    · rename_i hfin
      cases op with
      | sendAsync bytes waker => exact .inr ⟨_, .of_okN hfin.le, rfl⟩
      | _ => exact .inr ⟨_, .ok hfin, rfl⟩
    · exact .inl rfl

theorem returns_pollWrite (h : Inv s) {bytes : List UInt8} {offset : Nat}
    (hs : s.sender = .pollWrite bytes offset) : Returns s (pollWrite s bytes offset) := by
  have hoff : offset < bytes.length := by have := h.pc; simpa [SenderPcOk, hs] using this
  have hn := (s.rings s.ringBuf).pushCount_le (bytes.drop offset)
  rw [List.length_drop] at hn
  cases hc : (s.rings s.ringBuf).consHeld with
  | false => rw [pollWrite_of_closed hc hoff]; exact .inl rfl
  | true =>
    rcases Nat.eq_zero_or_pos ((s.rings s.ringBuf).pushCount (bytes.drop offset)) with hzero | hpos
    · rw [pollWrite_of_full hc hzero]; exact .inl rfl
    · rw [pollWrite_of_push hc hpos]
      dsimp only
      split
      · exact .inl rfl
      · rename_i hge
        refine .inr ⟨_, .ok ?_, rfl⟩
        show offset + _ = bytes.length
        omega

theorem returns_senderStep (h : Inv s) (hstep : senderStep s = some s') : Returns s s' := by
  have hpc := h.pc
  unfold senderStep at hstep
  cases hs : s.sender <;> simp only [SenderPcOk, hs] at hstep hpc
  case burstWrite op offset registered =>
    obtain rfl := Option.some.inj hstep
    exact returns_burstWrite h hs
  case pollWrite bytes offset =>
    obtain rfl := Option.some.inj hstep
    exact returns_pollWrite h hs
  case sendRing op offset ring =>
    obtain rfl := Option.some.inj hstep
    unfold sendRing
    split
    · exact .inl rfl
    · exact .inr ⟨_, .err hpc.1, rfl⟩
  case setRingBuf op ring =>
    obtain rfl := Option.some.inj hstep
    exact .inr ⟨_, .ok rfl, rfl⟩
  case checkClosed bytes waker registered =>
    split at hstep <;> obtain rfl := Option.some.inj hstep
    · exact returns_ret (.err (Nat.zero_le _))
    · exact .inl rfl
  all_goals first
    | (obtain rfl := Option.some.inj hstep; exact .inl rfl)
    | cases hstep

theorem returns_step (h : Inv s) {a : Act} (hs : step config s a = some s') :
    Returns s s' := by
  rcases step_cases hs with hm | hm
  · cases hm with
    | call op hs => exact returns_startCall op
    | step hs => exact returns_senderStep h hs
    | repoll hs => exact .inl rfl
    | drop hs => exact .inl rfl
  · exact .inl (writerMove_frame h.core hm).calls

theorem reach_callOk (hr : (machine R config).Reach s) : ∀ c ∈ s.calls, CallOk c := by
  refine Machine.Path.invariant_of_reach (I := fun t => ∀ c ∈ t.calls, CallOk c) hr
    (by simp [machine, makeSender]) ?_
  intro t a u hrt _ hcalls hs c hc
  rcases returns_step (reach_inv hrt) hs with heq | ⟨c', hc', heq⟩
  · exact hcalls c (heq ▸ hc)
  · rw [heq, List.mem_append, List.mem_singleton] at hc
    rcases hc with hc | rfl
    · exact hcalls c hc
    · exact hc'

/-! ### The end of the stream -/

/-- A writer that saw the end of the channel saw it because the sender was dropped. -/
theorem finishing_step (h : Inv s) {a : Act} (hs : step config s a = some s')
    (hf : s.writer.finishing = true → s.txHeld = false) :
    s'.writer.finishing = true → s'.txHeld = false := by
  rcases step_cases hs with hm | hm
  · have hfr := senderMove_frame hm
    exact fun hfin => hfr.tx (hf (hfr.writer ▸ hfin))
  · rw [(writerMove_frame h.core hm).txHeld]
    cases hm with
    | finish _ _ htx => exact fun _ => htx
    | shutdownOk hw => exact fun _ => hf (by rw [hw]; rfl)
    | unwindRing hw | unwindQueue hw | unwindWake hw | returned hw =>
      exact fun hfin => hf (by rw [hw]; exact hfin)
    | unwindRx hw => exact hf
    | recv hw => unfold ringReceived; split <;> (intro hfin; cases hfin)
    | @flushed ring k hw =>
      cases k with
      | occupied => simp only [flushed]; split <;> (intro hfin; cases hfin)
      | _ => intro hfin; cases hfin
    | _ => intro hfin; cases hfin

theorem reach_finishing (hr : (machine R config).Reach s) (hf : s.writer.finishing = true) :
    s.txHeld = false := by
  refine Machine.Path.invariant_of_reach (I := fun t => t.writer.finishing = true → t.txHeld = false)
    hr (fun hfin => by cases hfin) ?_ hf
  intro t a u hrt _ ht hs
  exact finishing_step (reach_inv hrt) hs ht

/-- Nothing is lost, duplicated or reordered on the way out: at every moment the socket has taken a
    prefix of the accepted bytes, and all of them if the writer returned `Ok`. -/
theorem written_isPrefix_accepted (R : RingBuffer UInt8) (config : ConnConfig) (s : State R)
    (hr : (machine R config).Reach s) :
    s.written <+: s.calls.flatMap Call.accepted ++ s.sender.accepted ∧
    (∀ c ∈ s.calls, c.accepted <+: c.op.bytes ∧ (c.outcome = .ok → c.accepted = c.op.bytes) ∧
      ∀ n, c.outcome = .okN n → n ≤ c.op.bytes.length ∧ c.accepted = c.op.bytes.take n) ∧
    s.sender.accepted <+: s.sender.bytes ∧
    (s.writer = .returned .ok → s.sender = .dropped ∧ s.written = s.calls.flatMap Call.accepted) := by
  have hi := reach_inv hr
  refine ⟨(s.pipe hi).isPrefix, fun c hc => ?_, s.sender.accepted_isPrefix, fun hret => ?_⟩
  · have hok := reach_callOk hr c hc
    refine ⟨by rw [hok.accepted]; exact List.take_prefix _ _, fun hout => ?_, fun n hn => ?_⟩
    · rw [Call.accepted, hout]
    · obtain rfl := hok.okN n hn
      exact ⟨hok.offset_le, hok.accepted⟩
  · have hfin : s.writer.finishing = true := by rw [hret]; rfl
    have hd := hi.tx (reach_finishing hr hfin)
    refine ⟨hd, ?_⟩
    rw [← (hi.core.finishing hfin).2.2, State.accepted, hd]
    exact List.append_nil _

/-- One message, written in two pieces after the sender was dropped. -/
def sendAndDrop : List Act :=
  [.call (.sendBlock [1, 2, 3]), .sender, .dropSender, .sender, .writer, .writer, .writer, .writer,
    .wrote 2, .writer, .writer, .writer, .wrote 1, .writer, .writer, .writer, .writer, .writer,
    .shutdownOk, .writer, .writer]

theorem written_isPrefix_accepted_sendAndDrop :
    ∃ s : State (RingBuffer.circular UInt8), (machine _ ⟨0, 0, 0⟩).Reach s ∧
      s.writer = .returned .ok ∧ s.sender = .dropped ∧ s.calls.flatMap Call.accepted = [1, 2, 3] ∧
      s.written = s.calls.flatMap Call.accepted := by
  obtain ⟨s, hr, hp⟩ := Machine.reach_of_run
    (m := machine (RingBuffer.circular UInt8) ⟨0, 0, 0⟩) sendAndDrop
    (fun s => s.writer = .returned .ok ∧ s.calls.flatMap Call.accepted = [1, 2, 3])
    (by decide +kernel)
  obtain ⟨hw, hacc⟩ := of_decide_eq_true hp
  obtain ⟨-, -, -, hfin⟩ := written_isPrefix_accepted _ _ s hr
  exact ⟨s, hr, hw, (hfin hw).1, hacc, (hfin hw).2⟩

end SocketManager.Outgoing
