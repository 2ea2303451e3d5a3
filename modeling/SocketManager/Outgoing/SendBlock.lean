import SocketManager.Outgoing.Held
import SocketManager.Outgoing.Tick
import SocketManager.Outgoing.Wakers

/-! "The blocking API for sending bytes." A `send_block` waits for the writer whenever its ring is full,
    so that it returns is a matter of both sides: the call goes to sleep only on a full ring, a full ring
    is more than the writer ever waits for, and a writer that makes room in the ring wakes the call.

        burst_write ─▶ poll_write ─▶ … ─▶ Ok
                        ▲       │ ring full
                        │       ▼
                 wake ──┴── block_on              writer: closed rings first, then the call's own

    Before the writer comes to the ring of the call it has the closed rings ahead of it, which it drains
    without waiting. What is left is counted as a rank: 23 for each byte of the message that is not
    pushed, 22 for each byte that is not written, and the way that call and writer have to go. -/

namespace SocketManager.Outgoing
variable {R : RingBuffer UInt8} {config : ConnConfig} {s s' : State R} {bytes : List UInt8}
  {offset : Nat} {calls : List Call}

/-- The `send_block` in progress: its message, and how much of it was pushed. -/
def SenderPc.sendBlock? : SenderPc → Option (List UInt8 × Nat)
  | .burstWrite (.sendBlock bytes) offset _ | .pollWrite bytes offset | .pollPending bytes offset =>
    some (bytes, offset)
  | _ => none

/-- The writer does not fail, and `block_on` polls again when it was woken. -/
def Undisturbed (s : State R) : Act → Prop
  | .call _ | .dropSender => False
  | .repoll => ¬ Asleep s
  | a => a.healthy = true

namespace State

/-- The bytes that are still to be pushed. -/
def bytesLeft (s : State R) : Nat := (s.sender.sendBlock?.map fun p => p.1.length - p.2).getD 0

/-- The way the call has to go before it pushes or sleeps. -/
def callRank (s : State R) : Nat :=
  match s.sender with
  | .burstWrite _ _ _ => 3
  | .pollWrite _ _ => 2
  | .pollPending _ _ => if (s.rings s.ringBuf).waker = some .blockOn then 0 else 3
  | _ => 0

/-- The way of the writer: to the end of a closed ring, or to its next write to the call's own. -/
def way (s : State R) : Nat :=
  if s.writer.ring? = some s.ringBuf then openWeight (s.rings s.ringBuf).occ.length s.writer
  else 4 * s.writer.weight

def blockRank (s : State R) : Nat :=
  23 * s.bytesLeft + 22 * s.unwritten + 80 * s.queue.length + s.way + s.callRank

end State

/-- A `send_block` of `bytes` that was begun after `calls`, and a writer that has not failed. -/
structure Sending (calls : List Call) (bytes : List UInt8) (s : State R) : Prop where
  inv : Inv s
  wake : WakeInv s
  sound : s.writer.failed = false
  call : ((∃ offset, s.sender.sendBlock? = some (bytes, offset)) ∧ s.calls = calls) ∨
    (s.sender = .idle ∧ s.calls = calls ++ [⟨.sendBlock bytes, .ok, bytes.length⟩])

/-! ### The chain between the call and the writer -/

theorem sendBlock?_cases (hs : s.sender.sendBlock? = some (bytes, offset)) :
    (∃ registered, s.sender = .burstWrite (.sendBlock bytes) offset registered) ∨
    s.sender = .pollWrite bytes offset ∨ s.sender = .pollPending bytes offset := by
  cases hp : s.sender with
  | burstWrite op o registered =>
    rw [hp] at hs
    cases op <;> cases hs
    exact .inl ⟨registered, rfl⟩
  | pollWrite | pollPending =>
    rw [hp] at hs
    cases hs
    simp
  | _ => rw [hp] at hs; cases hs

theorem offset_lt (hi : Inv s) (hs : s.sender.sendBlock? = some (bytes, offset)) :
    offset < bytes.length := by
  have hpc := hi.pc
  rcases sendBlock?_cases hs with ⟨registered, hp⟩ | hp | hp <;> simpa [SenderPcOk, hp, Op.bytes] using hpc

theorem bytesLeft_eq (hs : s.sender.sendBlock? = some (bytes, offset)) :
    s.bytesLeft = bytes.length - offset := by
  simp [State.bytesLeft, hs]

theorem bytesLeft_idle (hs : s.sender = .idle) : s.bytesLeft = 0 := by
  simp [State.bytesLeft, hs, SenderPc.sendBlock?]

theorem Sending.openRings (h : Sending calls bytes s) :
    s.sender.openRings s.ringBuf = [s.ringBuf] := by
  rcases h.call with ⟨⟨offset, hs⟩, -⟩ | ⟨hidle, -⟩
  · rcases sendBlock?_cases hs with ⟨registered, hp⟩ | hp | hp <;> rw [hp] <;> rfl
  · rw [hidle]; rfl

theorem Sending.running (h : Sending calls bytes s) : Running s [s.ringBuf] s.accepted :=
  (running_of_open h.inv h.openRings h.sound).2.2

theorem Sending.ringBuf_live (h : Sending calls bytes s) : s.ringBuf ∈ s.live := by
  obtain ⟨closed, hlive, -⟩ := h.running.chain
  rw [hlive]
  exact List.mem_append_right _ List.mem_cons_self

/-- The writer has come to the ring of the call. -/
theorem Sending.held (h : Sending calls bytes s) (hw : s.writer.ring? = some s.ringBuf) : Held s := by
  refine .of_live h.inv h.openRings h.sound ?_
  obtain ⟨closed, hlive, -⟩ := h.running.chain
  have hnodup := h.running.nodup
  cases closed with
  | nil => exact hlive
  | cons i closed =>
    rw [live_eq_cons hw, List.cons_append, List.cons.injEq] at hlive
    rw [live_eq_cons hw, hlive.2] at hnodup
    exact absurd (List.mem_append_right closed List.mem_cons_self) (List.nodup_cons.mp hnodup).1

/-- Before that its ring is a closed one. -/
theorem Sending.closed (h : Sending calls bytes s) (hw : s.writer.ring? ≠ some s.ringBuf) {i : Nat}
    (hi : s.writer.ring? = some i) : (s.rings i).prodHeld = false := by
  by_contra hp
  have hmem := h.running.mem_tail (i := i) (by rw [live_eq_cons hi]; exact List.mem_cons_self)
    (by simpa using hp)
  rw [List.mem_singleton.mp hmem] at hi
  exact hw hi

/-! ### The steps of the call -/

/-- What a step of the call comes to: it goes on with no less pushed and nearer to its next push or
    sleep, or it returns. -/
inductive Pushes (bytes : List UInt8) (offset : Nat) (s s' : State R) : Prop where
  | on {k : Nat} (hs : s'.sender.sendBlock? = some (bytes, k)) (hcalls : s'.calls = s.calls)
      (hle : offset ≤ k) (hrank : s'.callRank ≤ s.callRank)
      (hlt : k = offset → s'.callRank < s.callRank)
  | returns (hs : s'.sender = .idle)
      (hcalls : s'.calls = s.calls ++ [⟨.sendBlock bytes, .ok, bytes.length⟩])

theorem pushes_burstWrite {registered : Bool}
    (hs : s.sender = .burstWrite (.sendBlock bytes) offset registered) :
    Pushes bytes offset s (burstWrite s (.sendBlock bytes) offset registered) := by
  have hrank : s.callRank = 3 := by rw [State.callRank, hs]
  unfold burstWrite
  dsimp only
  split
  · rename_i hzero
    refine .on (k := offset) rfl rfl le_rfl ?_ fun _ => ?_ <;>
      simp [State.callRank, hs, burstPending]
  · rename_i hpos
    split
    · rename_i hall
      have hall : offset + (s.rings s.ringBuf).pushCount (bytes.drop offset) = bytes.length := hall
      refine .returns rfl ?_
      simp [burstFinished, State.ret, Op.bytes, hall]
    · refine .on (k := offset + _) rfl rfl (Nat.le_add_right _ _) ?_ fun hk => ?_
      · rw [hrank]; exact le_rfl
      · exact absurd (Nat.add_eq_left.mp hk) hpos

theorem pushes_pollWrite (hcons : (s.rings s.ringBuf).consHeld = true)
    (hs : s.sender = .pollWrite bytes offset) (hoff : offset < bytes.length) :
    Pushes bytes offset s (pollWrite s bytes offset) := by
  have hrank : s.callRank = 2 := by rw [State.callRank, hs]
  rcases Nat.eq_zero_or_pos ((s.rings s.ringBuf).pushCount (bytes.drop offset)) with hzero | hpos
  · rw [pollWrite_of_full hcons hzero]
    have hasleep : State.callRank (((s.updRing s.ringBuf (·.push (bytes.drop offset))).senderAt
        (.pollPending bytes offset)).updRing s.ringBuf fun r => { r with waker := some .blockOn }) = 0 := by
      simp [State.callRank]
    refine .on (k := offset) rfl rfl le_rfl ?_ fun _ => ?_ <;> rw [hasleep, hrank] <;> omega
  · rw [pollWrite_of_push hcons hpos]
    have hle := (s.rings s.ringBuf).pushCount_le (bytes.drop offset)
    rw [List.length_drop] at hle
    dsimp only
    split
    · refine .on (k := offset + _) rfl rfl (Nat.le_add_right _ _) ?_ fun hk => ?_
      · rw [hrank]; exact le_rfl
      · omega
    · refine .returns rfl ?_
      have hall : offset + (s.rings s.ringBuf).pushCount (bytes.drop offset) = bytes.length := by omega
      simp [State.ret, hall]

theorem pushes_senderStep (h : Sending calls bytes s) (hs : s.sender.sendBlock? = some (bytes, offset))
    (hst : senderStep s = some s') :
    s'.queue = s.queue ∧ s'.ringBuf = s.ringBuf ∧ Pushes bytes offset s s' := by
  have hcons := h.running.cons _ h.ringBuf_live
  rcases sendBlock?_cases hs with ⟨registered, hp⟩ | hp | hp
  · simp only [senderStep, hp] at hst
    obtain rfl := Option.some.inj hst
    refine ⟨?_, ?_, pushes_burstWrite hp⟩ <;> simp only [burstWrite] <;> split <;> (try split) <;> rfl
  · simp only [senderStep, hp] at hst
    obtain rfl := Option.some.inj hst
    have hoff : offset < bytes.length := by have := h.inv.pc; simpa [SenderPcOk, hp] using this
    refine ⟨?_, ?_, pushes_pollWrite hcons hp hoff⟩ <;> simp only [pollWrite] <;> split <;>
      (try split) <;> rfl
  · simp only [senderStep, hp] at hst
    cases hst

/-- The call is polled again, or takes its next step. -/
theorem Sending.callStep {a : Act} (h : Sending calls bytes s) (ha : Undisturbed s a)
    (hu : a.ofUser = true) (hs : step config s a = some s') :
    s'.queue = s.queue ∧ s'.ringBuf = s.ringBuf ∧
    ∃ offset, s.sender.sendBlock? = some (bytes, offset) ∧ s.calls = calls ∧ Pushes bytes offset s s' := by
  cases a with
  | call | dropSender => exact ha.elim
  | sender =>
    rcases h.call with ⟨⟨offset, hp⟩, hcalls⟩ | ⟨hidle, -⟩
    · obtain ⟨hq, hb, hpush⟩ := pushes_senderStep h hp hs
      exact ⟨hq, hb, offset, hp, hcalls, hpush⟩
    · simp [step, senderStep, hidle] at hs
  | repoll =>
    simp only [step] at hs
    split at hs
    · rename_i bytes' offset hp
      obtain rfl := Option.some.inj hs
      rcases h.call with ⟨⟨k, hk⟩, hcalls⟩ | ⟨hidle, -⟩
      · rw [hp] at hk
        cases hk
        have hawake : (s.rings s.ringBuf).waker ≠ some .blockOn := fun hw => ha ⟨⟨_, _, hp⟩, hw⟩
        refine ⟨rfl, rfl, offset, by rw [hp]; rfl, hcalls, .on (k := offset) rfl rfl le_rfl ?_ fun _ => ?_⟩ <;>
          simp [State.callRank, hp, hawake]
      · rw [hp] at hidle; cases hidle
    · cases hs
  | _ => cases hu

theorem Sending.step {a : Act} (h : Sending calls bytes s) (ha : Undisturbed s a)
    (hs : Outgoing.step config s a = some s') : Sending calls bytes s' := by
  have hinv := (h.inv.step hs).inv
  cases hu : a.ofUser with
  | true =>
    have hm := step_user hu hs
    obtain ⟨-, -, offset, -, hcalls, hpush⟩ := h.callStep ha hu hs
    refine ⟨hinv, wakeInv_senderMove h.inv hm, ?_, ?_⟩
    · rw [(senderMove_frame hm).writer]; exact h.sound
    · cases hpush with
      | on hk hc => exact .inl ⟨⟨_, hk⟩, hc.trans hcalls⟩
      | returns hidle hc => exact .inr ⟨hidle, hcalls ▸ hc⟩
  | false =>
    have hm := step_writer hu hs
    obtain ⟨hsd, hcalls, -⟩ := writerMove_sender hm
    have hh : a.healthy = true := by
      cases a with
      | call | sender | repoll | dropSender => cases hu
      | _ => exact ha
    refine ⟨hinv, wakeInv_writerMove h.wake hm, failed_step hh hs h.sound, ?_⟩
    rw [hsd, hcalls]; exact h.call

/-! ### The rank -/

/-- What is not accepted yet is what is not pushed yet. -/
theorem Sending.accepted_add (h : Sending calls bytes s) :
    s.accepted.length + s.bytesLeft = (calls.flatMap Call.accepted).length + bytes.length := by
  rcases h.call with ⟨⟨offset, hs⟩, hcalls⟩ | ⟨hidle, hcalls⟩
  · have hoff := offset_lt h.inv hs
    have hacc : s.sender.accepted = bytes.take offset := by
      rcases sendBlock?_cases hs with ⟨registered, hp⟩ | hp | hp <;> rw [hp] <;> rfl
    simp only [State.accepted, bytesLeft_eq hs, hcalls, hacc, List.length_append, List.length_take]
    omega
  · rw [bytesLeft_idle hidle, State.accepted, hidle, hcalls]
    simp [Call.accepted, Op.bytes, SenderPc.accepted]

theorem Sending.rank_call {a : Act} (h : Sending calls bytes s) (ha : Undisturbed s a)
    (hu : a.ofUser = true) (hs : Outgoing.step config s a = some s') : s'.blockRank < s.blockRank := by
  have hm := step_user hu hs
  have hf := senderMove_frame hm
  obtain ⟨hq, hb, offset, hp, hcalls, hpush⟩ := h.callStep ha hu hs
  have hacc := h.accepted_add
  have hacc' := (h.step ha hs).accepted_add
  have hwritten := h.inv.core.written.length_le
  have hwritten' := (h.step ha hs).inv.core.written.length_le
  -- pushing shortens the way of the writer, if anything
  have hway : s'.way ≤ s.way := by
    have hocc := (senderMove_grows hm h.inv.ringBuf_lt).occ.length_le
    rw [State.way, State.way, hf.writer, hb]
    split
    · exact openWeight_mono hocc _
    · exact le_rfl
  have hleft : s'.bytesLeft ≤ s.bytesLeft ∧ (s'.bytesLeft = s.bytesLeft → s'.callRank < s.callRank) ∧
      s'.callRank ≤ s.callRank := by
    have hoff := offset_lt h.inv hp
    cases hpush with
    | @on k hk _ hle hrank hlt =>
      have hk' := offset_lt (h.step ha hs).inv hk
      rw [bytesLeft_eq hp, bytesLeft_eq hk]
      exact ⟨by omega, fun heq => hlt (by omega), hrank⟩
    | returns hidle =>
      have hzero : s'.callRank = 0 := by rw [State.callRank, hidle]
      rw [bytesLeft_eq hp, bytesLeft_idle hidle, hzero]
      exact ⟨Nat.zero_le _, fun heq => by omega, Nat.zero_le _⟩
  simp only [State.blockRank, State.unwritten, hf.written, hq] at hwritten' ⊢
  omega

/-- A ring comes into the hand of the writer from the channel. -/
theorem hand_writerMove (hm : WriterMove config s s') :
    s'.writer.ring? = s.writer.ring? ∧ s'.queue = s.queue ∨
    s'.writer.ring? = none ∧ s'.queue.length ≤ s.queue.length ∨
    s.writer = .recv ∧ s'.written = s.written ∧ s.queue.length = s'.queue.length + 1 := by
  cases hm with
  | recv hw hq => exact .inr (.inr ⟨hw, rfl, by rw [hq]; rfl⟩)
  | finish | ringDropped | unwindRing | unwindWake | shutdownOk | shutdownFails | returned =>
    exact .inr (.inl ⟨rfl, le_rfl⟩)
  | unwindQueue hw hrx hq => exact .inr (.inl ⟨rfl, by rw [hq]; exact Nat.le_succ _⟩)
  | @flushed ring k hw =>
    cases k with
    | closed => exact .inr (.inl ⟨rfl, le_rfl⟩)
    | tick => exact .inl ⟨by simp [hw, flushed, WriterPc.ring?], rfl⟩
    | occupied =>
      refine .inl ⟨?_, rfl⟩
      simp only [flushed, State.writerAt_writer, hw]
      split <;> rfl
  | @abort ring hw =>
    refine .inl ⟨?_, rfl⟩
    cases hp : s.writer <;> rw [hp] at hw <;> first | (cases hw; rfl) | cases hw
  | ready hw | readyNoFlush hw | closed hw | measure hw | drain hw | below hw | enough hw | tick hw
  | write hw | wrote hw | advance hw | wake hw | writeFails hw | unwindRx hw =>
    exact .inl ⟨by simp [hw, WriterPc.ring?], rfl⟩

/-- The call is woken by the writer alone. -/
theorem callRank_writerMove (hm : WriterMove config s s') :
    s'.callRank ≤ s.callRank + (if s'.woken = s.woken then 0 else 11) ∧ s'.callRank ≤ s.callRank + 3 := by
  obtain ⟨hsd, -, hb⟩ := writerMove_sender hm
  have heff : RingEffect s s' s.ringBuf := writerMove_effect hm
  rw [State.callRank, State.callRank, hsd, hb]
  split
  · omega
  · omega
  · by_cases hw : (s.rings s.ringBuf).waker = some .blockOn
    · cases heff with
      | kept hring => rw [hring]; omega
      | touched hwaker => rw [hwaker]; omega
      | woken hwoken hnone =>
        have hne : s'.woken ≠ s.woken := by rw [hwoken, hw]; simp
        rw [if_pos hw, if_neg hne]
        split <;> omega
    · rw [if_neg hw]
      split <;> omega
  · omega

theorem Sending.rank_writer {a : Act} (h : Sending calls bytes s) (ha : Undisturbed s a)
    (hu : a.ofUser = false) (hs : Outgoing.step config s a = some s') : s'.blockRank < s.blockRank := by
  have h' := h.step ha hs
  have hm := step_writer hu hs
  have hf := writerMove_frame h.inv.core hm
  have hacc : s'.accepted = s.accepted := by
    rw [State.accepted, State.accepted, hf.calls, hf.sender]
  have hleft : s'.bytesLeft = s.bytesLeft := by rw [State.bytesLeft, State.bytesLeft, hf.sender]
  obtain ⟨hcall, hcall3⟩ := callRank_writerMove hm
  by_cases hhand : s.writer.ring? = some s.ringBuf
  · -- at the ring of the call
    have hlt := openWeight_lt (h.held hhand) h.inv hm
    have hkeep : s'.writer.ring? = some s.ringBuf ∧ s'.queue = s.queue := by
      rcases hand_writerMove hm with ⟨hring, hq⟩ | ⟨hnone, hle⟩ | ⟨hrecv, -⟩
      · exact ⟨hring.trans hhand, hq⟩
      · have hnil : s'.queue = [] := by
          rw [((h.held hhand).ring? hhand).2] at hle
          exact List.length_eq_zero_iff.mp (Nat.le_zero.mp hle)
        have hlive := h'.ringBuf_live
        rw [State.live, hnone, hnil] at hlive
        cases hlive
      · rw [hrecv] at hhand; cases hhand
    have hway : s.way = openWeight (s.rings s.ringBuf).occ.length s.writer := if_pos hhand
    have hway' : s'.way = openWeight (s'.rings s.ringBuf).occ.length s'.writer := by
      rw [State.way, hf.ringBuf, if_pos hkeep.1]
    simp only [State.blockRank, hkeep.2, hleft, hway, hway']
    omega
  · have hlt := writerRank_lt h.inv (fun i hw => h.closed hhand (by rw [hw]; rfl)) hm
    have hrx : s'.rxHeld = s.rxHeld := h'.running.rx.trans h.running.rx.symm
    have hgrow := (pipe_step h.inv hs).2.2.length_le
    have hall := h'.inv.core.written.length_le
    have hway : s.way = 4 * s.writer.weight := if_neg hhand
    simp only [State.writerRank, State.unwritten, hacc, hrx] at hlt hall
    by_cases hhand' : s'.writer.ring? = some s.ringBuf
    · -- it is taken from the channel
      rcases hand_writerMove hm with ⟨hring, -⟩ | ⟨hnone, -⟩ | ⟨hrecv, hw, hq⟩
      · exact absurd (hring.symm.trans hhand') hhand
      · rw [hnone] at hhand'; cases hhand'
      · have hway' : s'.way ≤ 25 := by
          rw [State.way, hf.ringBuf, if_pos hhand']
          exact openWeight_le _ _
        have hweight : s.writer.weight = 6 := by rw [hrecv]; rfl
        simp only [State.blockRank, State.unwritten, hleft, hacc, hw, hway, hweight]
        omega
    · have hway' : s'.way = 4 * s'.writer.weight := by rw [State.way, hf.ringBuf, if_neg hhand']
      simp only [State.blockRank, State.unwritten, hleft, hacc, hway, hway']
      simp only [State.pipe] at hgrow
      omega

/-- Call and writer bring the call nearer to its return. -/
theorem ranked_sendBlock (config : ConnConfig) (calls : List Call) (bytes : List UInt8) :
    (machine R config).Ranked Undisturbed (Sending calls bytes) State.blockRank where
  keeps _ _ _ hI ha hs := hI.step ha hs
  lt _ a _ hI ha hs := by
    cases hu : a.ofUser with
    | true => exact hI.rank_call ha hu hs
    | false => exact hI.rank_writer ha hu hs

theorem State.blockRank_le (s : State R) (hs : s.sender.sendBlock? = some (bytes, offset)) :
    s.blockRank ≤ 23 * (bytes.length - offset) + 22 * (s.accepted.length - s.written.length) +
      80 * s.queue.length + 71 := by
  have hway : s.way ≤ 68 := by
    have hopen := openWeight_le (s.rings s.ringBuf).occ.length s.writer
    have hweight := s.writer.weight_le
    unfold State.way
    split <;> omega
  have hcall : s.callRank ≤ 3 := by
    unfold State.callRank
    repeat' split
    all_goals omega
  simp only [State.blockRank, bytesLeft_eq hs, State.unwritten]
  omega

/-! ### Where a run ends -/

/-- A full ring is written, and a ring that is about to be woken is. -/
theorem Sending.writer_enabled (config : ConnConfig) (h : Sending calls bytes s)
    (hcase : (s.rings s.ringBuf).vacant = 0 ∨ s.writer.wakes = some s.ringBuf) :
    ∃ a : Act, a.healthy = true ∧ a.ofUser = false ∧ Outgoing.step config s a ≠ none := by
  by_cases hhand : s.writer.ring? = some s.ringBuf
  · exact (h.held hhand).enabled config hcase
  · have hrun := (running_of_open h.inv h.openRings h.sound).1
    refine writer_progress config h.inv (fun res hw => ?_) (fun _ i hi => h.closed hhand hi) fun hw hq => ?_
    · rw [hw] at hrun; cases hrun
    · -- the ring of the call is on the channel
      have hlive := h.ringBuf_live
      rw [State.live, hw, hq] at hlive
      cases hlive

/-- A call that has not returned can go on, or the writer can. -/
theorem Sending.of_stuck (h : Sending calls bytes s)
    (hst : ∀ a, Undisturbed s a → Outgoing.step config s a = none) : s.sender = .idle := by
  rcases h.call with ⟨⟨offset, hs⟩, -⟩ | ⟨hidle, -⟩
  · exfalso
    rcases sendBlock?_cases hs with ⟨registered, hp⟩ | hp | hp
    · have hnone := hst .sender rfl
      simp [Outgoing.step, senderStep, hp] at hnone
    · have hnone := hst .sender rfl
      simp [Outgoing.step, senderStep, hp] at hnone
    · by_cases hasleep : Asleep s
      · have hcase : (s.rings s.ringBuf).vacant = 0 ∨ s.writer.wakes = some s.ringBuf := by
          refine (h.wake hasleep).imp_right ?_
          rintro ⟨k, hk⟩
          rw [hk]; rfl
        obtain ⟨a, ha, hu, hstep⟩ := h.writer_enabled config hcase
        refine hstep (hst a ?_)
        cases a with
        | call | sender | repoll | dropSender => cases hu
        | _ => exact ha
      · have hnone := hst .repoll hasleep
        simp [Outgoing.step, hp] at hnone
  · exact hidle

/-- `send_block` returns. Wherever the call is, and whatever is queued ahead of it, as long as the
    writer does not fail: the steps of the call and of the writer are bounded, when the call has
    returned it returned `Ok` with the whole message accepted, and where nothing can go on without a new
    call it has returned. `block_on` polls when it was woken and at no other time, so no wake-up is lost. -/
theorem send_block_completes (R : RingBuffer UInt8) (config : ConnConfig) (s t : State R)
    (bytes : List UInt8) (offset : Nat) (as : List Act) (hr : (machine R config).Reach s)
    (hs : s.sender.sendBlock? = some (bytes, offset)) (hf : s.writer.failed = false)
    (hal : (machine R config).Along Undisturbed s as) (hrun : (machine R config).run s as = some t) :
    as.length ≤ 23 * (bytes.length - offset) + 22 * (s.accepted.length - s.written.length) +
      80 * s.queue.length + 71 ∧
    (t.sender = .idle → t.calls = s.calls ++ [⟨.sendBlock bytes, .ok, bytes.length⟩]) ∧
    ((∀ a, Undisturbed t a → step config t a = none) → t.sender = .idle) := by
  have h : Sending s.calls bytes s := ⟨reach_inv hr, reach_wakeInv hr, hf, .inl ⟨⟨offset, hs⟩, rfl⟩⟩
  obtain ⟨ht, hlen⟩ := (ranked_sendBlock config s.calls bytes).length_le h hal hrun
  refine ⟨?_, fun hidle => ?_, ht.of_stuck⟩
  · have hle := s.blockRank_le hs
    omega
  · rcases ht.call with ⟨⟨k, hk⟩, -⟩ | ⟨-, hcalls⟩
    · rw [hidle] at hk; cases hk
    · exact hcalls

/-- A `send_block` on a full ring goes to sleep in `block_on`. -/
theorem reach_asleep (R : RingBuffer UInt8) (config : ConnConfig) (bytes : List UInt8)
    (hne : bytes ≠ []) :
    ∃ s : State R, (machine R config).Reach s ∧ Full s ∧ Asleep s ∧
      s.sender = .pollPending bytes 0 ∧ s.writer = .recv := by
  obtain ⟨s, hp, hfull, hw, -, -, -, hidle⟩ := path_full R config .blockOn
  let s₁ := s.senderAt (.burstWrite (.sendBlock bytes) 0 false)
  let s₂ := (pushRest s₁ bytes 0).senderAt (.pollWrite bytes 0)
  let s₃ := ((pushRest s₂ bytes 0).senderAt (.pollPending bytes 0)).updRing s.ringBuf
    fun r => { r with waker := some .blockOn }
  have hfull₂ : Full s₂ := (full_pushRest (hfull.senderAt _) hne).senderAt _
  have hfull₃ : Full (pushRest s₂ bytes 0) := full_pushRest hfull₂ hne
  have hcall : (machine R config).step s (.call (.sendBlock bytes)) = some s₁ :=
    (if_pos hidle).trans (congrArg some (startCall_burst (.inl rfl) hne))
  have hburst : (machine R config).step s₁ .sender = some s₂ := by
    have hzero : restCount s₁ bytes 0 = 0 := restCount_of_vacant hfull.vacant
    exact congrArg some (if_pos hzero)
  have hpoll : (machine R config).step s₂ .sender = some s₃ :=
    congrArg some (pollWrite_of_full hfull₂.cons (restCount_of_vacant hfull₂.vacant))
  have hcons : (s₃.rings s₃.ringBuf).consHeld = ((pushRest s₂ bytes 0).rings s₂.ringBuf).consHeld :=
    State.rings_congr Ring.consHeld rfl rfl
  have hvac : (s₃.rings s₃.ringBuf).vacant = ((pushRest s₂ bytes 0).rings s₂.ringBuf).vacant :=
    State.rings_congr Ring.vacant rfl rfl
  have hreach : (machine R config).Reach s := hp.mono fun _ _ _ => trivial
  refine ⟨s₃, ((hreach.tail trivial hcall).tail trivial hburst).tail trivial hpoll,
    ⟨hcons.trans hfull₃.cons, hvac.trans hfull₃.vacant⟩, ⟨⟨bytes, 0, rfl⟩, ?_⟩, rfl, hw⟩
  exact congrArg Ring.waker State.updRing_self

/-- A call that slept and does not sleep was woken. -/
theorem woken_of_slept {t : State R} (hp : (machine R config).Path Undisturbed s t) (h : Asleep s) :
    Asleep t ∨ .blockOn ∈ t.woken.drop s.woken.length := by
  refine (hp.invariant (I := fun u => s.woken.length ≤ u.woken.length ∧
    (Asleep u ∨ .blockOn ∈ u.woken.drop s.woken.length)) ⟨le_rfl, .inl h⟩ ?_).2
  rintro u a v ha ⟨hle, hsleep | hwoke⟩ (hs : Outgoing.step config u a = some v)
  swap
  · have hgrow := woken_isPrefix hs
    exact ⟨hle.trans hgrow.length_le, .inr (mem_drop_of_isPrefix hwoke hgrow)⟩
  obtain ⟨⟨bytes, offset, hpc⟩, hslot⟩ := id hsleep
  cases a with
  | call | dropSender => exact ha.elim
  | repoll => exact absurd hsleep ha
  | sender => simp [Outgoing.step, senderStep, hpc] at hs
  | writer | tick | wrote | writeFails | shutdownOk | shutdownFails | abort =>
    have hm := step_writer rfl hs
    have harmed : Armed (fun _ => True) u .blockOn s.woken.length := ⟨hle, .inr ⟨hslot, .inl trivial⟩⟩
    have hv := harmed.writerMove hm
    refine ⟨hv.le, hv.armed.symm.imp_left fun hstill => ⟨?_, hstill.1⟩⟩
    rw [(writerMove_sender hm).1]
    exact hsleep.1

/-- Three bytes are sent into a full ring: the call sleeps, is woken and returns. -/
theorem send_block_completes_asleep :
    ∃ (s t : State (RingBuffer.circular UInt8)) (as : List Act), (machine _ ⟨1, 0, 1⟩).Reach s ∧
      Full s ∧ Asleep s ∧ s.sender.sendBlock? = some ([1, 2, 3], 0) ∧
      (machine _ ⟨1, 0, 1⟩).run s as = some t ∧ .blockOn ∈ t.woken.drop s.woken.length ∧
      t.calls = s.calls ++ [⟨.sendBlock [1, 2, 3], .ok, 3⟩] := by
  obtain ⟨s, hr, hfull, hasleep, hpc, hw⟩ := reach_asleep (RingBuffer.circular UInt8) ⟨1, 0, 1⟩
    [1, 2, 3] (List.cons_ne_nil _ _)
  have hs : s.sender.sendBlock? = some ([1, 2, 3], 0) := by rw [hpc]; rfl
  have hf : s.writer.failed = false := by rw [hw]; rfl
  obtain ⟨as, t, hal, hrun, hst⟩ := (ranked_sendBlock ⟨1, 0, 1⟩ s.calls [1, 2, 3]).exists_stuck
    ⟨reach_inv hr, reach_wakeInv hr, hf, .inl ⟨⟨0, hs⟩, rfl⟩⟩
  obtain ⟨-, hret, hend⟩ := send_block_completes _ _ s t _ _ as hr hs hf hal hrun
  have hidle := hend hst
  refine ⟨s, t, as, hr, hfull, hasleep, hs, hrun, ?_, hret hidle⟩
  refine (woken_of_slept (Machine.path_of_along hal hrun) hasleep).resolve_left ?_
  rintro ⟨⟨bytes, offset, hp⟩, -⟩
  rw [hidle] at hp; cases hp

end SocketManager.Outgoing
