import Mathlib.Algebra.BigOperators.Group.Finset.Basic
import Mathlib.Algebra.Order.BigOperators.Group.Finset
import SocketManager.Lib.Rank
import SocketManager.Outgoing.Invariant

/-! Back pressure. How far the sender can be ahead of the socket is decided by the room in its rings.
    `send_block` and `send_async` push to the ring that is there and otherwise wait or give up; only
    `send_nonblock` and `flush` make room, and each call of theirs makes one ring:

        make_sender      send_block, send_async     send_nonblock            flush
        one ring         nothing                    max(ring, message)       one ring

    The room of a state is what its rings hold together. A call brings the room it may make; the steps
    of the call spend it. -/

namespace SocketManager.Outgoing
variable {R : RingBuffer UInt8} {config : ConnConfig} {s s' : State R}

/-- The room that a call may make. -/
def Op.room : Op → Nat
  | .sendNonblock bytes => max ringBufferSize bytes.length
  | .flush => ringBufferSize
  | .sendBlock _ | .sendAsync _ _ => 0

def Act.room : Act → Nat
  | .call op => op.room
  | _ => 0

/-- What the call in progress may still make of it. -/
def SenderPc.room : SenderPc → Nat
  | .burstWrite op _ _ | .newRing op _ => op.room
  | _ => 0

/-- The capacity of all the rings there are. -/
def State.capacity (s : State R) : Nat := ∑ i ∈ Finset.range s.fresh, R.capacity (s.rings i).rb

/-! ### Room -/

theorem capacity_congr (hf : s'.fresh = s.fresh)
    (hc : ∀ i, R.capacity (s'.rings i).rb = R.capacity (s.rings i).rb) : s'.capacity = s.capacity := by
  rw [State.capacity, State.capacity, hf]
  exact Finset.sum_congr rfl fun i _ => hc i

theorem capacity_makeSender : (makeSender : State R).capacity = ringBufferSize :=
  (Finset.sum_range_one _).trans (Ring.capacity_new _)

/-- A step that changes one ring, and not its capacity. -/
theorem capacity_update {i : Nat} {r : Ring R} (hf : s'.fresh = s.fresh)
    (hs : s'.rings = Function.update s.rings i r) (hr : R.capacity r.rb = R.capacity (s.rings i).rb) :
    s'.capacity = s.capacity :=
  capacity_congr hf fun _ => State.rings_congr (fun r => R.capacity r.rb) hs hr

theorem capacity_writerMove (hm : WriterMove config s s') : s'.capacity = s.capacity := by
  cases hm with
  | @flushed ring k =>
    cases k with
    | closed => exact capacity_update rfl rfl rfl
    | tick | occupied => rfl
  | advance hw => exact capacity_update rfl rfl (R.capacity_advance _ _)
  | unwindRing | unwindQueue | wake | ringDropped | unwindWake => exact capacity_update rfl rfl rfl
  | _ => rfl

theorem capacity_allocRing_le (op : Op) (offset : Nat)
    (hop : op = .flush ∨ ∃ bytes, op = .sendNonblock bytes) :
    R.capacity (allocRing op offset : Ring R).rb ≤ op.room := by
  rcases hop with rfl | ⟨bytes, rfl⟩
  · exact (Ring.capacity_new _).le
  · rw [allocRing, Ring.capacity_push, Ring.capacity_new]
    exact max_le_max_left _ (Nat.sub_le _ _)

theorem room_burstWrite (op : Op) (offset : Nat) (registered : Bool) :
    (burstWrite s op offset registered).capacity = s.capacity ∧
    (burstWrite s op offset registered).sender.room ≤ op.room := by
  have hpush : (s.updRing s.ringBuf (·.push (op.bytes.drop offset))).capacity = s.capacity :=
    capacity_update rfl rfl (Ring.capacity_push _ _)
  simp only [burstWrite]
  split
  · cases op <;> simp only [burstPending] <;> (try split) <;> (try split) <;>
      exact ⟨hpush, by first | exact Nat.zero_le _ | exact le_rfl⟩
  · split
    · cases op <;> exact ⟨hpush, Nat.zero_le _⟩
    · exact ⟨hpush, le_rfl⟩

theorem room_pollWrite (bytes : List UInt8) (offset : Nat) :
    (pollWrite s bytes offset).capacity = s.capacity ∧
    (pollWrite s bytes offset).sender.room = 0 := by
  have hcap : R.capacity ((s.rings s.ringBuf).pollWrite (bytes.drop offset)).2.rb =
      R.capacity (s.rings s.ringBuf).rb := by
    unfold Ring.pollWrite
    split
    · rfl
    · split <;> exact Ring.capacity_push _ _
  have hpoll : (s.updRing s.ringBuf fun _ =>
      ((s.rings s.ringBuf).pollWrite (bytes.drop offset)).2).capacity = s.capacity :=
    capacity_update rfl rfl hcap
  simp only [pollWrite]
  split
  · exact ⟨hpoll, rfl⟩
  · split <;> exact ⟨hpoll, rfl⟩

theorem room_startCall (op : Op) :
    (startCall s op).capacity = s.capacity ∧ (startCall s op).sender.room ≤ op.room := by
  cases op with
  | sendBlock bytes | sendNonblock bytes | sendAsync bytes waker =>
    simp only [startCall]
    split <;> exact ⟨rfl, by first | exact Nat.zero_le _ | exact le_rfl⟩
  | flush => exact ⟨rfl, le_rfl⟩

/-- The next step of a call spends what the call has brought. -/
theorem room_senderStep (h : Inv s) (hs : senderStep s = some s') :
    s'.capacity + s'.sender.room ≤ s.capacity + s.sender.room := by
  unfold senderStep at hs
  cases hpc : s.sender with
  | idle | dropped | pollPending => simp only [hpc] at hs; cases hs
  | burstWrite op offset registered =>
    simp only [hpc] at hs
    obtain rfl := Option.some.inj hs
    obtain ⟨hcap, hroom⟩ := room_burstWrite (s := s) op offset registered
    rw [hcap]
    exact Nat.add_le_add_left hroom _
  | pollWrite bytes offset =>
    simp only [hpc] at hs
    obtain rfl := Option.some.inj hs
    obtain ⟨hcap, hroom⟩ := room_pollWrite (s := s) bytes offset
    rw [hcap, hroom]
    exact Nat.add_le_add_left (Nat.zero_le _) _
  | newRing op offset =>
    simp only [hpc] at hs
    obtain rfl := Option.some.inj hs
    have hop := h.pc
    simp only [SenderPcOk, hpc] at hop
    have hold : ∀ i ∈ Finset.range s.fresh, R.capacity (Function.update s.rings s.fresh
        (allocRing op offset) i).rb = R.capacity (s.rings i).rb := by
      intro i hi
      rw [Function.update_of_ne (Finset.mem_range.mp hi).ne]
    have hnew := capacity_allocRing_le (R := R) op offset hop.2
    simp only [State.capacity, State.senderAt, State.updRing, Finset.sum_range_succ,
      Function.update_self, Finset.sum_congr rfl hold, SenderPc.room]
    omega
  | sendRing op offset ring =>
    simp only [hpc, sendRing] at hs
    obtain rfl := Option.some.inj hs
    split
    · exact Nat.add_le_add_left (Nat.zero_le _) _
    · exact Nat.add_le_add (le_of_eq (capacity_update rfl rfl rfl)) (Nat.zero_le _)
  | setRingBuf op ring =>
    simp only [hpc] at hs
    obtain rfl := Option.some.inj hs
    exact Nat.add_le_add (le_of_eq (capacity_update rfl rfl rfl)) (Nat.zero_le _)
  | checkClosed bytes waker registered =>
    simp only [hpc] at hs
    split at hs <;> (obtain rfl := Option.some.inj hs; exact Nat.add_le_add_left (Nat.zero_le _) _)
  | registerWaker bytes waker =>
    simp only [hpc] at hs
    obtain rfl := Option.some.inj hs
    exact Nat.add_le_add (le_of_eq (capacity_update rfl rfl rfl)) (Nat.zero_le _)
  | dropRingsPrd =>
    simp only [hpc] at hs
    obtain rfl := Option.some.inj hs
    exact Nat.add_le_add_left (Nat.zero_le _) _

theorem room_step {a : Act} (h : Inv s) (hs : step config s a = some s') :
    s'.capacity + s'.sender.room ≤ s.capacity + s.sender.room + a.room := by
  cases hu : a.ofUser with
  | false =>
    have hm := step_writer hu hs
    rw [capacity_writerMove hm, (writerMove_frame h.core hm).sender]
    exact Nat.le_add_right _ _
  | true =>
    cases a with
    | call op =>
      simp only [step] at hs
      split at hs
      · obtain rfl := Option.some.inj hs
        obtain ⟨hcap, hroom⟩ := room_startCall (s := s) op
        rw [hcap]
        exact Nat.add_le_add (Nat.le_add_right _ _) hroom
      · cases hs
    | sender => exact room_senderStep h hs
    | repoll =>
      simp only [step] at hs
      split at hs
      · obtain rfl := Option.some.inj hs
        exact Nat.add_le_add (Nat.le_add_right _ _) le_rfl
      · cases hs
    | dropSender =>
      simp only [step] at hs
      split at hs
      · obtain rfl := Option.some.inj hs
        have hcap : ((s.updRing s.ringBuf fun r => { r with prodHeld := false }).senderAt
            .dropRingsPrd).capacity = s.capacity := capacity_update rfl rfl rfl
        rw [hcap]
        exact Nat.add_le_add (Nat.le_add_right _ _) (Nat.zero_le _)
      · cases hs
    | writer | tick | wrote | writeFails | shutdownOk | shutdownFails | abort => cases hu

theorem potential_room (R : RingBuffer UInt8) (config : ConnConfig) : (machine R config).Potential
    (fun _ _ => True) Inv (fun _ => 0) Act.room (fun s => s.capacity + s.sender.room) where
  keeps _ _ _ h _ hs := (h.step hs).inv
  pays _ _ _ h _ hs := room_step h hs

/-! ### The bound -/

/-- The rings of the chain are some of those there are, and each holds no more than its capacity. -/
theorem length_backlog_le (h : Inv s) (hrun : s.writer.running = true) :
    s.backlog.length ≤ s.capacity := by
  have hnodup := (h.core.running hrun).nodup
  have hsub : s.live.toFinset ⊆ Finset.range s.fresh := fun i hi =>
    Finset.mem_range.mpr (h.live_lt i (List.mem_toFinset.mp hi))
  calc s.backlog.length ≤ (s.live.flatMap fun i => (s.rings i).occ).length := by
        rw [State.backlog, List.length_drop]; exact Nat.sub_le _ _
    _ = ∑ i ∈ s.live.toFinset, (s.rings i).occ.length := by
        rw [List.length_flatMap, List.sum_toFinset _ hnodup]
    _ ≤ ∑ i ∈ s.live.toFinset, R.capacity (s.rings i).rb :=
        Finset.sum_le_sum fun i _ => R.occupied_le _
    _ ≤ s.capacity := Finset.sum_le_sum_of_subset hsub

/-- While the writer runs, the sender is ahead of the socket by no more than the ring it was made with
    and the room of its calls: a ring for each `flush`, and for each `send_nonblock` a ring or its
    message, whichever is more. A sender that is used with `send_block` and `send_async` only is never
    ahead by more than one ring. -/
theorem ahead_le_room (R : RingBuffer UInt8) (config : ConnConfig) (as : List Act) (s : State R)
    (hrun : (machine R config).run (machine R config).init as = some s)
    (hw : s.writer.running = true) :
    s.accepted.length ≤ s.written.length + ringBufferSize + Machine.total Act.room as := by
  have h := reach_inv (Machine.path_of_run hrun)
  obtain ⟨-, hle⟩ := (potential_room R config).total_le inv_makeSender (Machine.along_true _ as _) hrun
  have hroom : (makeSender : State R).sender.room = 0 := rfl
  have hback := length_backlog_le h hw
  have hstream := congrArg List.length (h.core.running hw).stream
  rw [List.length_append] at hstream
  simp only [capacity_makeSender, hroom] at hle
  omega

/-- Three bytes of which the socket has taken none, and a `flush` behind them. -/
theorem ahead_le_room_nonblock : ∃ s : State (RingBuffer.circular UInt8),
    (machine _ ⟨0, 0, 0⟩).run makeSender [.call (.sendNonblock [1, 2, 3]), .sender, .call .flush,
      .sender, .sender, .sender, .writer] = some s ∧
    s.accepted = [1, 2, 3] ∧ s.accepted.length ≤ s.written.length + 3 * ringBufferSize := by
  have hrun : ((machine (RingBuffer.circular UInt8) ⟨0, 0, 0⟩).run makeSender
      [.call (.sendNonblock [1, 2, 3]), .sender, .call .flush, .sender, .sender, .sender,
        .writer]).any (fun s : State (RingBuffer.circular UInt8) =>
          decide (s.accepted = [1, 2, 3] ∧ s.writer = .waitOccupied 0)) = true := by decide +kernel
  obtain ⟨s, hs, hp⟩ := (Option.any_eq_true _ _).mp hrun
  obtain ⟨hacc, hw⟩ := of_decide_eq_true hp
  have hle := ahead_le_room _ ⟨0, 0, 0⟩ _ s hs (by rw [hw]; rfl)
  refine ⟨s, hs, hacc, hle.trans ?_⟩
  simp only [Machine.total, Act.room, Op.room]
  rw [max_eq_left (by decide)]
  omega

end SocketManager.Outgoing
