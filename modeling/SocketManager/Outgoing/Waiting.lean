import SocketManager.Outgoing.Stream

/-! What holds while the writer is suspended. The ring it waits on is open, and every ring of the
    chain but the last is closed, so it waits on the sender's own ring with nothing queued behind.
    That ring holds fewer bytes than the wait asks for, and the wait never asks for more than
    `MIN_MSG_BUFFER_SIZE`, which is below the capacity of any ring: a waiting writer and a sender
    blocked on a full ring exclude each other. What was accepted before a flush sits in rings that
    were closed by it, so a writer that waits has drained them. -/

namespace SocketManager.Outgoing
variable {R : RingBuffer UInt8} {config : ConnConfig} {s s' : State R} {i : Nat}

/-- The writer is suspended in `wait_occupied` on a ring whose condition does not hold. -/
inductive Waiting (s : State R) (i : Nat) : Prop where
  | select {tickFlush : Bool} (hw : s.writer = .select i tickFlush)
      (hr : (s.rings i).ready (waitCount tickFlush) = false)
  | waitOccupied (hw : s.writer = .waitOccupied i) (hr : (s.rings i).ready minMsgBufferSize = false)

/-- The writer is suspended with nothing ready, in `wait_occupied` or on an empty open channel. -/
inductive Suspended (s : State R) : Prop where
  | waiting {i : Nat} (h : Waiting s i)
  | recv (hw : s.writer = .recv) (hq : s.queue = []) (htx : s.txHeld = true)

/-- No call is in progress. -/
def SenderPc.quiet : SenderPc → Bool
  | .idle | .dropRingsPrd | .dropped => true
  | _ => false

/-- No call is in progress other than a `send_block` in `poll_write`. -/
def SenderPc.quietOrBlocked : SenderPc → Bool
  | .pollWrite _ _ | .pollPending _ _ => true
  | pc => pc.quiet

/-! ### The ring waited on -/

theorem waitCount_le (tickFlush : Bool) : waitCount tickFlush ≤ minMsgBufferSize := by
  cases tickFlush <;> decide

theorem Ring.ready_eq_false {r : Ring R} {count : Nat} (h : r.ready count = false) :
    r.occ.length < count ∧ r.prodHeld = true := by
  simp only [Ring.ready, Bool.or_eq_false_iff, decide_eq_false_iff_not, Bool.not_eq_false'] at h
  exact ⟨Nat.lt_of_not_le h.1, h.2⟩

/-- Whatever the mode, the wait is for at most the threshold and on an open ring. -/
theorem Waiting.lt_threshold (h : Waiting s i) :
    s.writer.ring? = some i ∧ s.writer.inFlight = 0 ∧ s.writer.running = true ∧
      (s.rings i).occ.length < minMsgBufferSize ∧ (s.rings i).prodHeld = true := by
  cases h with
  | @select tickFlush hw hr =>
    obtain ⟨hlt, hp⟩ := Ring.ready_eq_false hr
    rw [hw]
    exact ⟨rfl, rfl, rfl, hlt.trans_le (waitCount_le tickFlush), hp⟩
  | waitOccupied hw hr =>
    obtain ⟨hlt, hp⟩ := Ring.ready_eq_false hr
    rw [hw]
    exact ⟨rfl, rfl, rfl, hlt, hp⟩

theorem openRings_of_quietOrBlocked {pc : SenderPc} (h : pc.quietOrBlocked = true) (b : Nat) :
    pc.openRings b = [b] ∨ pc.openRings b = [] := by
  cases pc with
  | idle | pollWrite | pollPending => exact .inl rfl
  | dropRingsPrd | dropped => exact .inr rfl
  | _ => cases h

/-- The chain of a waiting writer is the sender's own ring. -/
theorem Waiting.ringBuf (h : Waiting s i) (hi : Inv s) (hq : s.sender.quietOrBlocked = true) :
    i = s.ringBuf ∧ s.queue = [] := by
  obtain ⟨hring, -, hrun, -, hp⟩ := h.lt_threshold
  have hlive : s.live = i :: s.queue := live_eq_cons hring
  have hr := hi.core.running hrun
  have hmem : i ∈ s.sender.openRings s.ringBuf :=
    hr.mem_tail (by rw [hlive]; exact List.mem_cons_self) hp
  rcases openRings_of_quietOrBlocked hq s.ringBuf with hopen | hopen <;> rw [hopen] at hmem hr
  · have hib : i = s.ringBuf := List.mem_singleton.mp hmem
    obtain ⟨closed, hc, hcl⟩ := hr.chain
    rw [hlive] at hc
    cases closed with
    | nil =>
      rw [List.nil_append, List.cons.injEq] at hc
      exact ⟨hib, hc.2⟩
    | cons c closed =>
      -- the ring would be closed and open at once
      obtain rfl : i = c := (List.cons.inj hc).1
      rw [hcl i List.mem_cons_self] at hp; cases hp
  · cases hmem

/-- The ring of a waiting writer is far from full. -/
theorem Waiting.not_full (h : Waiting s i) (hi : Inv s) :
    (s.rings i).occ.length < R.capacity (s.rings i).rb := by
  obtain ⟨hring, -, hrun, hlt, -⟩ := h.lt_threshold
  have hmem : i ∈ s.live := by rw [live_eq_cons hring]; exact List.mem_cons_self
  have hcap := (hi.core.running hrun).cap i hmem
  have hmin : minMsgBufferSize < ringBufferSize := by decide
  omega

/-- A push into a ring that is not full takes something. -/
theorem Ring.pushCount_pos {r : Ring R} {bytes : List UInt8} (hne : 0 < bytes.length)
    (hlt : r.occ.length < R.capacity r.rb) : 0 < r.pushCount bytes := by
  rw [Ring.pushCount, R.pushSlice_count]
  simp only [Ring.occ] at hlt
  omega

theorem Ring.vacant_pos {r : Ring R} (h : r.occ.length < R.capacity r.rb) : 0 < r.vacant :=
  Nat.sub_pos_of_lt h

/-! ### The waker of a blocked `send_block` -/

/-- A `send_block` sleeps in `block_on` and its waker has not been woken. -/
def Asleep (s : State R) : Prop :=
  (∃ bytes offset, s.sender = .pollPending bytes offset) ∧
    (s.rings s.ringBuf).waker = some .blockOn

/-- A sleeping `send_block` found its ring full; if there is room again the writer is about to wake
    it. -/
def WakeInv (s : State R) : Prop :=
  Asleep s → (s.rings s.ringBuf).vacant = 0 ∨ ∃ k, s.writer = .wake s.ringBuf k

/-- A step that changes neither the content nor the waker of the current ring. -/
theorem WakeInv.frame (h : WakeInv s) (hsd : s'.sender = s.sender) (hb : s'.ringBuf = s.ringBuf)
    (hrb : (s'.rings s.ringBuf).rb = (s.rings s.ringBuf).rb)
    (hwk : (s'.rings s.ringBuf).waker = (s.rings s.ringBuf).waker)
    (hw : ∀ k, s.writer ≠ .wake s.ringBuf k) : WakeInv s' := by
  rintro ⟨hpc, hwaker⟩
  rw [hsd] at hpc
  rw [hb, hwk] at hwaker
  rcases h ⟨hpc, hwaker⟩ with hv | ⟨k, hk⟩
  · left
    rw [hb, Ring.vacant, hrb]; exact hv
  · exact absurd hk (hw k)

/-- A sender that is not asleep needs no wake-up. -/
theorem WakeInv.of_awake (h : ∀ bytes offset, s.sender ≠ .pollPending bytes offset) : WakeInv s := by
  rintro ⟨⟨bytes, offset, hpc⟩, -⟩
  exact absurd hpc (h bytes offset)

theorem pollPending_full {bytes : List UInt8} {offset : Nat} (hoff : offset < bytes.length)
    (h : (s.rings s.ringBuf).pushCount (bytes.drop offset) = 0) :
    (s.rings s.ringBuf).vacant = 0 := by
  have hc := R.pushSlice_count_eq (s.rings s.ringBuf).rb (bytes.drop offset)
  rw [List.length_drop] at hc
  simp only [Ring.pushCount] at h
  simp only [Ring.vacant]
  omega

theorem wakeInv_pollWrite (hi : Inv s) {bytes : List UInt8} {offset : Nat}
    (hs : s.sender = .pollWrite bytes offset) : WakeInv (pollWrite s bytes offset) := by
  have hoff : offset < bytes.length := by have := hi.pc; simpa [SenderPcOk, hs] using this
  cases hc : (s.rings s.ringBuf).consHeld with
  | false =>
    rw [pollWrite_of_closed hc hoff]
    exact .of_awake (by intro b o hpc; cases hpc)
  | true =>
    rcases Nat.eq_zero_or_pos ((s.rings s.ringBuf).pushCount (bytes.drop offset)) with hzero | hpos
    · -- the poll that goes to sleep left the ring as full as it found it
      intro _
      left
      have hfull := pollPending_full hoff hzero
      rw [pollWrite_of_full hc hzero]
      simp only [Ring.vacant, State.updRing_ringBuf, State.senderAt_ringBuf, State.updRing_rings,
        State.senderAt_rings, Function.update_self, Ring.push, R.vacant_pushSlice]
      simp only [Ring.vacant] at hfull
      omega
    · rw [pollWrite_of_push hc hpos]
      dsimp only
      split
      · exact .of_awake (by intro b o hpc; cases hpc)
      · exact .of_awake (by intro b o hpc; cases hpc)

theorem wakeInv_senderMove (hi : Inv s) (hm : SenderMove s s') : WakeInv s' := by
  cases hm with
  | call op hs =>
    refine .of_awake ?_
    intro b o hpc
    cases op <;> simp only [startCall] at hpc <;> (try split at hpc) <;> cases hpc
  | repoll hs => exact .of_awake (by intro b o hpc; cases hpc)
  | drop hs => exact .of_awake (by intro b o hpc; cases hpc)
  | step hs =>
    unfold senderStep at hs
    split at hs
    · cases hs
    · cases hs
    · cases hs
    · rename_i op offset registered hsd
      obtain rfl := Option.some.inj hs
      refine .of_awake ?_
      intro b o hpc
      simp only [burstWrite] at hpc
      split at hpc
      · cases op <;> simp only [burstPending] at hpc <;> (try split at hpc) <;>
          (try split at hpc) <;> cases hpc
      · split at hpc
        · cases op <;> cases hpc
        · cases hpc
    · rename_i hsd
      obtain rfl := Option.some.inj hs
      exact wakeInv_pollWrite hi hsd
    · obtain rfl := Option.some.inj hs
      exact .of_awake (by intro b o hpc; cases hpc)
    · obtain rfl := Option.some.inj hs
      refine .of_awake ?_
      intro b o hpc
      unfold sendRing at hpc
      split at hpc <;> cases hpc
    · obtain rfl := Option.some.inj hs
      exact .of_awake (by intro b o hpc; cases hpc)
    · split at hs <;> obtain rfl := Option.some.inj hs
      · exact .of_awake (by intro b o hpc; cases hpc)
      · exact .of_awake (by intro b o hpc; cases hpc)
    · obtain rfl := Option.some.inj hs
      exact .of_awake (by intro b o hpc; cases hpc)
    · obtain rfl := Option.some.inj hs
      exact .of_awake (by intro b o hpc; cases hpc)

/-- Waking a ring: the current one is no longer asleep, another one does not matter. -/
theorem WakeInv.wakeRing (h : WakeInv s) (j : Nat) (w : WriterPc)
    (hw : j = s.ringBuf ∨ ∀ k, s.writer ≠ .wake s.ringBuf k) :
    WakeInv ((s.wakeRing j).writerAt w) := by
  by_cases hj : s.ringBuf = j
  · rintro ⟨-, hwaker⟩
    have hnone : ((s.wakeRing j).rings s.ringBuf).waker = none := by
      rw [hj, State.wakeRing, State.updRing_self]
    exact absurd (hnone.symm.trans hwaker) (by simp)
  · have hsame : (s.wakeRing j).rings s.ringBuf = s.rings s.ringBuf := State.updRing_of_ne hj
    exact h.frame rfl rfl (congrArg Ring.rb hsame) (congrArg Ring.waker hsame)
      (hw.resolve_left (Ne.symm hj))

/-- Dropping a consumer changes neither content nor wakers. -/
theorem WakeInv.dropCons (h : WakeInv s) (j : Nat) (queue : List Nat) (w : WriterPc)
    (hw : ∀ k, s.writer ≠ .wake s.ringBuf k) :
    WakeInv (({ s with queue }.updRing j fun r => { r with consHeld := false }).writerAt w) := by
  let t : State R := { s with queue }
  have hrb : ((t.updRing j fun r => { r with consHeld := false }).rings s.ringBuf).rb =
      (s.rings s.ringBuf).rb := State.updRing_congr Ring.rb rfl
  have hwk : ((t.updRing j fun r => { r with consHeld := false }).rings s.ringBuf).waker =
      (s.rings s.ringBuf).waker := State.updRing_congr Ring.waker rfl
  exact h.frame rfl rfl hrb hwk hw

theorem wakeInv_writerMove (h : WakeInv s) (hm : WriterMove config s s') : WakeInv s' := by
  have hpc : ∀ {w : WriterPc}, s.writer = w → (∀ k, w ≠ .wake s.ringBuf k) →
      ∀ k, s.writer ≠ .wake s.ringBuf k := by
    intro w hw hne k
    rw [hw]; exact hne k
  cases hm with
  | @wake ring k hw =>
    refine h.wakeRing ring _ ?_
    rcases eq_or_ne ring s.ringBuf with hj | hj
    · exact .inl hj
    · refine .inr (hpc hw ?_)
      intro k' hk
      cases hk; exact hj rfl
  | ringDropped hw => exact h.wakeRing _ _ (.inr (hpc hw (by intro k hk; cases hk)))
  | unwindWake hw => exact h.wakeRing _ _ (.inr (hpc hw (by intro k hk; cases hk)))
  | @advance ring k n hw =>
    -- room appears in the ring exactly when the writer goes on to wake its producer
    rcases eq_or_ne s.ringBuf ring with rfl | hj
    · exact fun _ => .inr ⟨k, rfl⟩
    · have hsame : (s.updRing ring (·.advanceReadIndex n)).rings s.ringBuf = s.rings s.ringBuf :=
        State.updRing_of_ne hj
      exact h.frame rfl rfl (congrArg Ring.rb hsame) (congrArg Ring.waker hsame)
        (hpc hw (by intro k' hk; cases hk))
  | unwindRing hw => exact h.dropCons _ s.queue _ (hpc hw (by intro k hk; cases hk))
  | unwindQueue hw _ _ => exact h.dropCons _ _ _ (hpc hw (by intro k hk; cases hk))
  | @flushed ring k hw _ =>
    have hne := hpc hw (by intro k hk; cases hk)
    cases k with
    | closed => exact h.dropCons ring s.queue _ hne
    | tick => exact h.frame rfl rfl rfl rfl hne
    | occupied => exact h.frame rfl rfl rfl rfl hne
  | abort hw =>
    refine h.frame rfl rfl rfl rfl ?_
    intro k hk
    rw [hk] at hw; cases hw
  | recv hw | finish hw | ready hw | readyNoFlush hw | closed hw | measure hw | drain hw | below hw
  | enough hw | tick hw | write hw | wrote hw | writeFails hw | shutdownOk hw | shutdownFails hw
  | unwindRx hw | returned hw =>
    exact h.frame rfl rfl rfl rfl (hpc hw (by intro k hk; cases hk))

/-- A `send_block` never sleeps through free space. -/
theorem reach_wakeInv (hr : (machine R config).Reach s) : WakeInv s := by
  refine Machine.Path.invariant_of_reach hr ?_ ?_
  · exact .of_awake (by intro b o hpc; cases hpc)
  · intro t a u hrt _ hw hs
    rcases step_cases hs with hm | hm
    · exact wakeInv_senderMove (reach_inv hrt) hm
    · exact wakeInv_writerMove hw hm

/-! ### No deadlock by back pressure -/

/-- The call in progress runs on with the writer standing still. -/
def OnlySender (_ : State R) (a : Act) : Prop := a = .sender

theorem OnlySender.tail {t u : State R} (hp : (machine R config).Path OnlySender s t)
    (hs : senderStep t = some u) : (machine R config).Path OnlySender s u :=
  Machine.Path.tail (a := .sender) hp rfl hs

/-- A push that did not take the whole slice filled the ring. -/
theorem Ring.pushCount_push {r : Ring R} {bytes : List UInt8} (hne : r.pushCount bytes ≠ bytes.length)
    (rest : List UInt8) : (r.push bytes).pushCount rest = 0 := by
  have hc := R.pushSlice_count_eq r.rb bytes
  have hv := R.vacant_pushSlice r.rb bytes
  simp only [Ring.pushCount] at hne
  simp only [Ring.pushCount, Ring.push, R.pushSlice_count_eq (R.pushSlice r.rb bytes).2 rest]
  omega

/-- A `send_async` into an open ring with room returns `Ok(n)` with `n ≥ 1`. -/
theorem sendAsync_of_room {bytes : List UInt8} {waker : Waker} (hne : bytes ≠ [])
    (hc : (s.rings s.ringBuf).consHeld = true)
    (hlt : (s.rings s.ringBuf).occ.length < R.capacity (s.rings s.ringBuf).rb) :
    ∃ t n, (machine R config).Path OnlySender (startCall s (.sendAsync bytes waker)) t ∧
      t.calls = s.calls ++ [⟨.sendAsync bytes waker, .okN n, n⟩] ∧ 1 ≤ n := by
  have hpos := Ring.pushCount_pos (List.length_pos_iff.mpr hne) hlt
  have hcall : startCall s (.sendAsync bytes waker) = s.senderAt (.checkClosed bytes waker false) := by
    simp only [startCall, if_neg hne]
  have hcheck : senderStep (s.senderAt (.checkClosed bytes waker false)) =
      some (s.senderAt (.burstWrite (.sendAsync bytes waker) 0 false)) := by
    simp only [senderStep, State.senderAt_sender, State.senderAt_rings, State.senderAt_ringBuf, hc]
    rfl
  rw [hcall]
  have hp : (machine R config).Path OnlySender (s.senderAt (.checkClosed bytes waker false))
      (burstWrite (s.senderAt (.burstWrite (.sendAsync bytes waker) 0 false))
        (.sendAsync bytes waker) 0 false) :=
    OnlySender.tail (OnlySender.tail .refl hcheck) rfl
  have hn0 : (s.rings s.ringBuf).pushCount bytes ≠ 0 := by omega
  simp only [burstWrite, Op.bytes, List.drop_zero, State.senderAt_rings, State.senderAt_ringBuf,
    if_neg hn0, Nat.zero_add] at hp
  by_cases hfin : (s.rings s.ringBuf).pushCount bytes = bytes.length
  · rw [if_pos hfin] at hp
    exact ⟨_, _, hp, rfl, hpos⟩
  · -- the first round fills the ring, the second one takes nothing
    rw [if_neg hfin] at hp
    refine ⟨_, _, OnlySender.tail hp rfl, ?_, hpos⟩
    simp only [burstWrite, Op.bytes, State.senderAt_rings, State.senderAt_ringBuf,
      State.updRing_rings, State.updRing_ringBuf, Function.update_self, Ring.pushCount_push hfin,
      if_true, burstPending, if_pos hpos]
    rfl

/-- No back-pressure deadlock: the ring of a waiting writer is the sender's current one, nothing is
    queued behind it and it has room. A `send_block` inside `block_on` has been woken and its next
    poll takes bytes; a `send_async` would not be pending. -/
theorem waiting_ring_not_full (R : RingBuffer UInt8) (config : ConnConfig) (s : State R) (i : Nat)
    (hr : (machine R config).Reach s) (hw : Waiting s i) (hq : s.sender.quietOrBlocked = true) :
    i = s.ringBuf ∧ s.queue = [] ∧ (s.rings i).occ.length < R.capacity (s.rings i).rb ∧
    (∀ bytes offset, s.sender = .pollPending bytes offset →
      (s.rings i).waker ≠ some .blockOn ∧ 0 < (s.rings i).pushCount (bytes.drop offset)) ∧
    (s.sender = .idle → ∀ bytes waker, bytes ≠ [] →
      ∃ t n, (machine R config).Path OnlySender (startCall s (.sendAsync bytes waker)) t ∧
        t.calls = s.calls ++ [⟨.sendAsync bytes waker, .okN n, n⟩] ∧ 1 ≤ n) := by
  have hi := reach_inv hr
  obtain ⟨rfl, hqueue⟩ := hw.ringBuf hi hq
  have hlt := hw.not_full hi
  refine ⟨rfl, hqueue, hlt, ?_, ?_⟩
  · intro bytes offset hs
    have hoff : offset < bytes.length := by have := hi.pc; simpa [SenderPcOk, hs] using this
    refine ⟨?_, Ring.pushCount_pos (by rw [List.length_drop]; omega) hlt⟩
    intro hwaker
    rcases reach_wakeInv hr ⟨⟨bytes, offset, hs⟩, hwaker⟩ with hv | ⟨k, hk⟩
    · have := Ring.vacant_pos hlt; omega
    · cases hw with
      | select hw _ => rw [hw] at hk; cases hk
      | waitOccupied hw _ => rw [hw] at hk; cases hk
  · intro hs bytes waker hne
    obtain ⟨hring, -, hrun, -, -⟩ := hw.lt_threshold
    have hmem : s.ringBuf ∈ s.live := by rw [live_eq_cons hring]; exact List.mem_cons_self
    exact sendAsync_of_room hne ((hi.core.running hrun).cons _ hmem) hlt

/-- The writer waits for more than the one byte in the ring, and a `send_async` is not pending. -/
theorem waiting_ring_not_full_oneByte :
    ∃ s : State (RingBuffer.circular UInt8), (machine _ ⟨1, 0, 0⟩).Reach s ∧ Waiting s 0 ∧
      (s.rings 0).occ = [7] ∧ s.queue = [] ∧ (s.rings 0).occ.length < (s.rings 0).rb.cap ∧
      ∃ t n, (machine _ ⟨1, 0, 0⟩).Path OnlySender (startCall s (.sendAsync [8, 9] (.notifier 5))) t ∧
        t.calls = s.calls ++ [⟨.sendAsync [8, 9] (.notifier 5), .okN n, n⟩] ∧ 1 ≤ n := by
  obtain ⟨s, hr, hp⟩ := Machine.reach_of_run
    (m := machine (RingBuffer.circular UInt8) ⟨1, 0, 0⟩) [.call (.sendNonblock [7]), .sender, .writer]
    (fun s => s.writer = .select 0 true ∧ (s.rings 0).ready (waitCount true) = false ∧
      (s.rings 0).occ = [7] ∧ s.sender = .idle) (by decide +kernel)
  obtain ⟨hw, hready, hocc, hs⟩ := of_decide_eq_true hp
  have hwait : Waiting s 0 := .select hw hready
  obtain ⟨-, hq, hlt, -, hasync⟩ := waiting_ring_not_full _ _ s 0 hr hwait (by rw [hs]; rfl)
  exact ⟨s, hr, hwait, hocc, hq, hlt, hasync hs [8, 9] (.notifier 5) (List.cons_ne_nil _ _)⟩

/-! ### Manual flush -/

theorem quietOrBlocked_of_quiet {pc : SenderPc} (h : pc.quiet = true) : pc.quietOrBlocked = true := by
  cases pc <;> first | rfl | cases h

theorem accepted_of_quiet {pc : SenderPc} (h : pc.quiet = true) : pc.accepted = [] := by
  cases pc <;> first | rfl | cases h

/-- What a suspended writer has not written is the content of the sender's ring. -/
theorem Suspended.unwritten (h : Suspended s) (hi : Inv s) (hq : s.sender.quiet = true) :
    ∃ rest, s.accepted = s.written ++ rest ∧ rest.length < minMsgBufferSize ∧
      rest.length ≤ (s.rings s.ringBuf).occ.length := by
  cases h with
  | @waiting i h =>
    obtain ⟨hring, hfly, hrun, hlt, -⟩ := h.lt_threshold
    obtain ⟨rfl, hqueue⟩ := h.ringBuf hi (quietOrBlocked_of_quiet hq)
    refine ⟨(s.rings s.ringBuf).occ, ?_, hlt, le_rfl⟩
    rw [(hi.core.running hrun).stream, State.backlog, live_eq_cons hring, hqueue, hfly]
    simp
  | recv hw hqueue htx =>
    have hlive : s.live = [] := by rw [State.live, hw, hqueue]; rfl
    refine ⟨[], ?_, by decide, Nat.zero_le _⟩
    rw [(hi.core.running (by rw [hw]; rfl)).stream, State.backlog, hlive]
    simp

/-- A manual flush pushes everything out: once the writer is suspended, what was accepted before any
    `flush` that returned `Ok` is written, and fewer than `MIN_MSG_BUFFER_SIZE` bytes are not. -/
theorem suspended_flushed (R : RingBuffer UInt8) (config : ConnConfig) (s : State R)
    (hr : (machine R config).Reach s) (hw : Suspended s) (hq : s.sender.quiet = true) :
    (∀ pre c post, s.calls = pre ++ c :: post → c.op = .flush → c.outcome = .ok →
      pre.flatMap Call.accepted <+: s.written) ∧
    (s.calls.flatMap Call.accepted).length < s.written.length + minMsgBufferSize := by
  have hi := reach_inv hr
  obtain ⟨rest, hacc, hlt, hocc⟩ := hw.unwritten hi hq
  have hcalls : s.accepted = s.calls.flatMap Call.accepted := by
    rw [State.accepted, accepted_of_quiet hq, List.append_nil]
  have hlen : s.accepted.length = s.written.length + rest.length := by
    rw [hacc, List.length_append]
  refine ⟨?_, by rw [← hcalls]; omega⟩
  intro pre c post hsplit hop hout
  have hfl := hi.flush _ ⟨pre, c, post, hsplit, hop, hout, rfl⟩
  -- the bytes are a prefix of the pipe's input, so their number decides
  refine (s.pipe hi).delivered_of_le ?_ ?_
  · show pre.flatMap Call.accepted <+: s.accepted
    rw [hcalls, hsplit, List.flatMap_append]
    exact List.prefix_append _ _
  · show (pre.flatMap Call.accepted).length ≤ s.written.length
    omega

/-- One byte and a flush, in the loop without auto flush. -/
def sendAndFlush : List Act :=
  [.call (.sendNonblock [7]), .sender, .call .flush, .sender, .sender, .sender, .writer, .writer,
    .writer, .writer, .wrote 1, .writer, .writer, .writer, .writer, .writer]

theorem suspended_flushed_sendAndFlush :
    ∃ s : State (RingBuffer.circular UInt8), (machine _ ⟨0, 0, 0⟩).Reach s ∧ Suspended s ∧
      s.calls = [⟨.sendNonblock [7], .ok, 1⟩, ⟨.flush, .ok, 0⟩] ∧ [7] <+: s.written := by
  obtain ⟨s, hr, hp⟩ := Machine.reach_of_run
    (m := machine (RingBuffer.circular UInt8) ⟨0, 0, 0⟩) sendAndFlush
    (fun s => s.writer = .waitOccupied 1 ∧ (s.rings 1).ready minMsgBufferSize = false ∧
      s.sender = .idle ∧ s.calls = [⟨.sendNonblock [7], .ok, 1⟩, ⟨.flush, .ok, 0⟩])
    (by decide +kernel)
  obtain ⟨hw, hready, hs, hcalls⟩ := of_decide_eq_true hp
  have hsus : Suspended s := .waiting (.waitOccupied hw hready)
  obtain ⟨hfl, -⟩ := suspended_flushed _ _ s hr hsus (by rw [hs]; rfl)
  exact ⟨s, hr, hsus, hcalls, hfl [⟨.sendNonblock [7], .ok, 1⟩] ⟨.flush, .ok, 0⟩ [] hcalls rfl rfl⟩

end SocketManager.Outgoing
