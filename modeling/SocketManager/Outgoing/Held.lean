import SocketManager.Outgoing.Async
import SocketManager.Outgoing.Finish

/-! The writer over a ring that the sender holds. It drains the ring, or waits for more, and with every
    step comes nearer to its next write or to its wait. A write pays for the whole way round and for the
    wake-up that follows it; what the sender pushes meanwhile only shortens the way. -/

namespace SocketManager.Outgoing
variable {R : RingBuffer UInt8} {config : ConnConfig}

/-- The writer's way to its next write, over a ring with `n` bytes that the sender holds. -/
def openWeight (n : Nat) : WriterPc → Nat
  | .ringDropped _ => 25
  | .advance _ _ _ => 24
  | .wake _ _ => 23
  | .recv => 13
  | .isClosed _ => if n = 0 then 14 else if n < minMsgBufferSize then 9 else 6
  | .occupiedLen _ => if n = 0 then 13 else if n < minMsgBufferSize then 8 else 5
  | .select _ true => if n = 0 then 12 else 7
  | .select _ false | .waitOccupied _ => 10
  | .asSlices _ _ => if n = 0 then 11 else 4
  | .write _ _ _ => 3
  | .shutdown | .unwind _ _ | .unwindWake _ _ | .returned _ => 0

/-- The one ring, between a sender that holds it and a writer that has not failed. -/
structure Held (tx : State R) : Prop where
  running : tx.writer.running = true
  shutdown : tx.writer ≠ .shutdown
  live : tx.live = [tx.ringBuf]
  prod : (tx.rings tx.ringBuf).prodHeld = true
  cons : (tx.rings tx.ringBuf).consHeld = true
  capacity : ringBufferSize ≤ R.capacity (tx.rings tx.ringBuf).rb
  pc : PcOk tx.rings tx.writer

variable {tx tx' : State R}

/-- A sender that holds its ring keeps the writer running. -/
theorem running_of_open (hi : Inv tx) (hopen : tx.sender.openRings tx.ringBuf = [tx.ringBuf])
    (hf : tx.writer.failed = false) :
    tx.writer.running = true ∧ tx.writer ≠ .shutdown ∧ Running tx [tx.ringBuf] tx.accepted := by
  have hfin : tx.writer.finishing = false := by
    by_contra hne
    have htail := (hi.core.finishing (by simpa using hne)).1
    rw [hopen] at htail; cases htail
  have hrun : tx.writer.running = true := by
    cases hw : tx.writer <;> first
      | rfl
      | (rw [hw] at hfin hf; simp_all [WriterPc.finishing, WriterPc.failed])
  refine ⟨hrun, fun hw => ?_, hopen ▸ hi.core.running hrun⟩
  rw [hw] at hfin; cases hfin

theorem Held.of_live (hi : Inv tx) (hopen : tx.sender.openRings tx.ringBuf = [tx.ringBuf])
    (hf : tx.writer.failed = false) (hlive : tx.live = [tx.ringBuf]) : Held tx := by
  obtain ⟨hrun, hshut, hr⟩ := running_of_open hi hopen hf
  have hmem : tx.ringBuf ∈ tx.live := by rw [hlive]; exact List.mem_cons_self
  exact ⟨hrun, hshut, hlive, hr.tailOpen _ List.mem_cons_self, hr.cons _ hmem, hr.cap _ hmem, hr.pc⟩

theorem Held.ring? (h : Held tx) {i : Nat} (hw : tx.writer.ring? = some i) :
    i = tx.ringBuf ∧ tx.queue = [] := by
  have hlive := h.live
  rw [live_eq_cons hw, List.cons.injEq] at hlive
  exact hlive

/-- A ring that is ready for the writer has that many bytes. -/
theorem Held.ready (h : Held tx) {count : Nat} (hr : (tx.rings tx.ringBuf).ready count = true) :
    count ≤ (tx.rings tx.ringBuf).occ.length := by
  simpa [Ring.ready, h.prod] using hr

section
variable {n i : Nat}

theorem openWeight_ringReceived (config : ConnConfig) (n i : Nat) :
    openWeight n (ringReceived config i) < openWeight n .recv := by
  unfold ringReceived
  split
  · simp only [openWeight]; split <;> omega
  · simp only [openWeight]; omega

theorem openWeight_ready {tickFlush : Bool} (h : waitCount tickFlush ≤ n) :
    openWeight n (.isClosed i) < openWeight n (.select i tickFlush) := by
  have hpos : 0 < minMsgBufferSize := by decide
  cases tickFlush with
  | true =>
    have hmin : minMsgBufferSize ≤ n := h
    rw [openWeight, openWeight, if_neg (by omega), if_neg (by omega), if_neg (by omega)]
    omega
  | false =>
    have hone : 1 ≤ n := h
    rw [openWeight, openWeight, if_neg (by omega)]
    split <;> omega

theorem openWeight_readyNoFlush (h : minMsgBufferSize ≤ n) :
    openWeight n (.isClosed i) < openWeight n (.waitOccupied i) := by
  have hpos : 0 < minMsgBufferSize := by decide
  rw [openWeight, openWeight, if_neg (by omega), if_neg (by omega)]
  omega

theorem openWeight_measure : openWeight n (.occupiedLen i) < openWeight n (.isClosed i) := by
  simp only [openWeight]
  split
  · omega
  · split <;> omega

theorem openWeight_drain {k : FlushFrom} :
    openWeight n (.asSlices i k) < openWeight n (.isClosed i) := by
  simp only [openWeight]
  split
  · omega
  · split <;> omega

theorem openWeight_below (h : n < minMsgBufferSize) :
    openWeight n (.select i true) < openWeight n (.occupiedLen i) := by
  simp only [openWeight, if_pos h]
  split <;> omega

theorem openWeight_enough {k : FlushFrom} (h : minMsgBufferSize ≤ n) :
    openWeight n (.asSlices i k) < openWeight n (.occupiedLen i) := by
  have hpos : 0 < minMsgBufferSize := by decide
  rw [openWeight, openWeight, if_neg (by omega), if_neg (by omega), if_neg (by omega)]
  omega

theorem openWeight_tick {k : FlushFrom} :
    openWeight n (.asSlices i k) < openWeight n (.select i true) := by
  simp only [openWeight]
  split <;> omega

theorem openWeight_flushed {k : FlushFrom} :
    openWeight 0 (.select i false) < openWeight 0 (.asSlices i k) ∧
    openWeight 0 (.waitOccupied i) < openWeight 0 (.asSlices i k) := by simp [openWeight]

theorem openWeight_write {k : FlushFrom} {left : List UInt8} (h : n ≠ 0) :
    openWeight n (.write i k left) < openWeight n (.asSlices i k) := by simp [openWeight, h]

/-- A write is followed by its wake-up, and the writer has still the whole way to go. -/
theorem openWeight_wake {k : FlushFrom} :
    openWeight n (.asSlices i k) + 12 ≤ openWeight n (.wake i k) := by
  simp only [openWeight]
  split <;> omega

/-- What the sender pushes only shortens the way. -/
theorem openWeight_mono {m : Nat} (h : n ≤ m) (w : WriterPc) :
    openWeight m w ≤ openWeight n w := by
  cases w with
  | isClosed | occupiedLen | asSlices =>
    simp only [openWeight]
    repeat' split
    all_goals omega
  | select i tickFlush =>
    cases tickFlush with
    | true =>
      simp only [openWeight]
      repeat' split
      all_goals omega
    | false => exact le_rfl
  | _ => exact le_rfl

/-- Where the writer waits or returns from there is always some way to go. -/
theorem openWeight_pos {r : Option Nat} {w : WriterPc} (h : w.awaits = some r)
    (hne : w ≠ .shutdown) : 0 < openWeight n w := by
  cases w with
  | recv | waitOccupied | write => simp [openWeight]
  | select i tickFlush =>
    cases tickFlush with
    | true => simp only [openWeight]; split <;> omega
    | false => simp [openWeight]
  | shutdown => exact absurd rfl hne
  | _ => cases h

end

theorem openWeight_le (n : Nat) (w : Outgoing.WriterPc) : openWeight n w ≤ 25 := by
  cases w with
  | select i tickFlush =>
    cases tickFlush with
    | true => simp only [openWeight]; split <;> omega
    | false => simp [openWeight]
  | isClosed | occupiedLen | asSlices =>
    simp only [openWeight]
    repeat' split
    all_goals omega
  | _ => simp [openWeight]

/-- Every move of the writer brings it nearer to its next write, and a write pays for the way and for a
    wake-up. -/
theorem openWeight_lt (h : Held tx) (hinv : Inv tx) (hm : WriterMove config tx tx') :
    22 * tx'.unwritten + openWeight (tx'.rings tx.ringBuf).occ.length tx'.writer +
      (if tx'.woken = tx.woken then 0 else 11) <
    22 * tx.unwritten + openWeight (tx.rings tx.ringBuf).occ.length tx.writer := by
  have hf := writerMove_frame hinv.core hm
  have hacc : tx'.accepted = tx.accepted := by
    rw [State.accepted, State.accepted, hf.calls, hf.sender]
  -- a move that only goes on in the code
  have hgoto : ∀ w, openWeight (tx.rings tx.ringBuf).occ.length w <
        openWeight (tx.rings tx.ringBuf).occ.length tx.writer →
      22 * (tx.accepted.length - tx.written.length) + openWeight (tx.rings tx.ringBuf).occ.length w +
        (if tx.woken = tx.woken then 0 else 11) <
      22 * (tx.accepted.length - tx.written.length) +
        openWeight (tx.rings tx.ringBuf).occ.length tx.writer := by
    intro w hw
    rw [if_pos rfl]
    omega
  have hring : ∀ {i}, tx.writer.ring? = some i → i = tx.ringBuf := fun hw => (h.ring? hw).1
  simp only [State.unwritten, hacc]
  cases hm with
  | @recv ring _ hw hq =>
    refine hgoto _ ?_
    rw [hw]; exact openWeight_ringReceived config _ ring
  | finish hw hq =>
    have hlive := h.live
    rw [State.live, hw, hq] at hlive
    cases hlive
  | ready hw hr =>
    obtain rfl := hring (by rw [hw]; rfl)
    refine hgoto _ ?_
    rw [hw]; exact openWeight_ready (h.ready hr)
  | readyNoFlush hw hr =>
    obtain rfl := hring (by rw [hw]; rfl)
    refine hgoto _ ?_
    rw [hw]; exact openWeight_readyNoFlush (h.ready hr)
  | closed hw hp =>
    obtain rfl := hring (by rw [hw]; rfl)
    rw [h.prod] at hp; cases hp
  | measure hw =>
    refine hgoto _ ?_
    rw [hw]; exact openWeight_measure
  | drain hw =>
    refine hgoto _ ?_
    rw [hw]; exact openWeight_drain
  | below hw hlt =>
    obtain rfl := hring (by rw [hw]; rfl)
    refine hgoto _ ?_
    rw [hw]; exact openWeight_below hlt
  | enough hw hge =>
    obtain rfl := hring (by rw [hw]; rfl)
    refine hgoto _ ?_
    rw [hw]; exact openWeight_enough hge
  | tick hw =>
    refine hgoto _ ?_
    rw [hw]; exact openWeight_tick
  | @flushed ring k hw hleft =>
    obtain rfl := hring (by rw [hw]; rfl)
    have hnil : (tx.rings tx.ringBuf).occ.length = 0 :=
      congrArg List.length (R.left_eq_nil _ hleft)
    cases k with
    | closed =>
      have hpc := h.pc
      rw [hw] at hpc
      have hclosed : (tx.rings tx.ringBuf).prodHeld = false := hpc rfl
      rw [h.prod] at hclosed; cases hclosed
    | tick =>
      refine hgoto _ ?_
      rw [hw, hnil]; exact openWeight_flushed.1
    | occupied =>
      refine hgoto _ ?_
      rw [hw, hnil]
      show openWeight 0 (if autoFlush config then .select tx.ringBuf false
        else .waitOccupied tx.ringBuf) < _
      split
      · exact openWeight_flushed.1
      · exact openWeight_flushed.2
  | write hw hleft =>
    obtain rfl := hring (by rw [hw]; rfl)
    have hpos := (R.left_isPrefix (tx.rings tx.ringBuf).rb).length_le
    rw [hleft, List.length_cons] at hpos
    have hne : (tx.rings tx.ringBuf).occ.length ≠ 0 := by
      rw [Ring.occ]; omega
    refine hgoto _ ?_
    rw [hw]; exact openWeight_write hne
  | @wrote ring k left n hw hpos hn =>
    have hmove : WriterMove config tx _ := .wrote hw hpos hn
    have hpre := (hinv.writerMove hmove).inv.core.written.length_le
    rw [hacc] at hpre
    rw [if_pos rfl, hw]
    simp only [List.length_append, List.length_take, Nat.min_eq_left hn, openWeight] at hpre ⊢
    omega
  | @advance ring k n hw =>
    show 22 * (tx.accepted.length - tx.written.length) + openWeight _ (.wake ring k) +
      (if tx.woken = tx.woken then 0 else 11) < _
    rw [if_pos rfl, hw]
    simp only [openWeight]
    omega
  | @wake ring k hw =>
    have hocc : (((tx.wakeRing ring).writerAt (.asSlices ring k)).rings tx.ringBuf).occ =
        (tx.rings tx.ringBuf).occ := State.rings_congr Ring.occ rfl rfl
    rw [hocc, hw]
    have hway := openWeight_wake (n := (tx.rings tx.ringBuf).occ.length) (i := ring) (k := k)
    have hle : (if ((tx.wakeRing ring).writerAt (.asSlices ring k)).woken = tx.woken then 0 else 11) ≤
        11 := by split <;> omega
    simp only [State.writerAt_writer]
    show 22 * (tx.accepted.length - tx.written.length) + _ + _ < _
    omega
  | @ringDropped ring hw =>
    have hle : (if ((tx.wakeRing ring).writerAt .recv).woken = tx.woken then 0 else 11) ≤ 11 := by
      split <;> omega
    rw [hw]
    simp only [State.writerAt_writer, openWeight]
    show 22 * (tx.accepted.length - tx.written.length) + _ + _ < _
    omega
  | writeFails hw =>
    refine hgoto _ ?_
    rw [hw]
    simp [openWeight]
  | abort hw => exact hgoto _ (openWeight_pos hw h.shutdown)
  | shutdownOk hw | shutdownFails hw => exact absurd hw h.shutdown
  | unwindRing hw | unwindRx hw | unwindQueue hw | unwindWake hw | returned hw =>
    have hrun := h.running
    rw [hw] at hrun; cases hrun

/-- A writer that is about to wake a ring, or whose ring is full, can go on. -/
theorem Held.enabled (config : ConnConfig) (h : Held tx)
    (hcase : (tx.rings tx.ringBuf).vacant = 0 ∨ tx.writer.wakes = some tx.ringBuf) :
    ∃ b : Act, b.healthy = true ∧ b.ofUser = false ∧ step config tx b ≠ none := by
  have hready : ∀ count, count ≤ minMsgBufferSize → tx.writer.wakes ≠ some tx.ringBuf →
      (tx.rings tx.ringBuf).ready count = true := by
    intro count hcount hne
    -- a full ring holds more than any wait asks for
    have hvacant := hcase.resolve_right hne
    have hcap := h.capacity
    have hmin : minMsgBufferSize < ringBufferSize := by decide
    rw [Ring.vacant, RingBuffer.vacant] at hvacant
    have hle : count ≤ (tx.rings tx.ringBuf).occ.length := by rw [Ring.occ]; omega
    simp [Ring.ready, hle]
  have hrun := h.running
  cases hw : tx.writer with
  | recv =>
    have hlive := h.live
    rw [State.live, hw] at hlive
    have hqueue : tx.queue = [tx.ringBuf] := hlive
    exact ⟨.writer, rfl, rfl, by simp [Outgoing.step, writerStep, hw, hqueue]⟩
  | select ring tickFlush =>
    obtain ⟨rfl, -⟩ := h.ring? (i := ring) (by rw [hw]; rfl)
    have hr := hready _ (waitCount_le tickFlush) (by rw [hw]; simp [WriterPc.wakes])
    exact ⟨.writer, rfl, rfl, by simp [Outgoing.step, writerStep, hw, hr]⟩
  | waitOccupied ring =>
    obtain ⟨rfl, -⟩ := h.ring? (i := ring) (by rw [hw]; rfl)
    have hr := hready _ le_rfl (by rw [hw]; simp [WriterPc.wakes])
    exact ⟨.writer, rfl, rfl, by simp [Outgoing.step, writerStep, hw, hr]⟩
  | write ring k left =>
    have hpc := h.pc
    rw [hw] at hpc
    have hpos : 1 ≤ left.length := List.length_pos_iff.mpr hpc.1
    exact ⟨.wrote 1, rfl, rfl, by simp [step, hw, hpos]⟩
  | shutdown => exact absurd hw h.shutdown
  | isClosed ring =>
    obtain ⟨rfl, -⟩ := h.ring? (i := ring) (by rw [hw]; rfl)
    refine ⟨.writer, rfl, rfl, ?_⟩
    cases hauto : autoFlush config <;>
      simp [step, writerStep, hw, h.prod, hauto]
  | occupiedLen ring =>
    refine ⟨.writer, rfl, rfl, ?_⟩
    by_cases hlt : (tx.rings ring).occ.length < minMsgBufferSize <;>
      simp [step, writerStep, hw, hlt]
  | asSlices ring k =>
    refine ⟨.writer, rfl, rfl, ?_⟩
    cases hleft : R.left (tx.rings ring).rb <;> simp [step, writerStep, hw, hleft]
  | advance | wake | ringDropped =>
    exact ⟨.writer, rfl, rfl, by simp [Outgoing.step, writerStep, hw]⟩
  | unwind | unwindWake | returned => rw [hw] at hrun; cases hrun

end SocketManager.Outgoing
