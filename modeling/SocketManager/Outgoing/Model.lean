import SocketManager.Basic
import SocketManager.Lib.RingBuffer

/-! The outgoing direction of one connection: `MsgSender` (msg_sender.rs) on the user's thread and
    the writer task (write.rs) on the runtime, joined by a channel of ring buffers.

    A call of the sender is cut at every point where the writer can see a difference: each
    `push_slice`, each test of `is_closed`, the registration of a waker, the send of a new ring on
    the channel, the replacement of `ring_buf` (which closes the old ring). The writer is cut at
    every await and between the write to the socket, the advance of the read index and the wake of
    the producer. What the environment decides is in the action: the call made, the result of a
    socket write, a tick of the interval, the abort of the task.

        sender                       channel            writer
        ring_buf ──push_slice──▶ ring ◀── ring ◀── … ◀── ring ──flush──▶ socket
                                (open)   (closed)      (closed)

    `async_ringbuf` is the parameter `R`; a ring adds to it which ends are held and the waker slot
    of the producer. The slot of the consumer is left out: the writer's waits are conditions on the
    state, so a wake-up of the writer changes nothing that it would not see by itself.

    Two calls of the library are one step though they are several in it:

        poll_write    test, push, register, test, push
        wake          take the waker out of its slot, call it

    Whatever the writer does inside a `poll_write`, the poll has the outcome of a whole one at its last
    push; at its last test, when that finds the ring closed; right before the consumer is dropped, when
    that falls between the two. A ring drained before the last push takes the bytes, and one drained or
    dropped after it wakes the waker that the poll has left. What the cut would add is a waker of
    `block_on` left behind by a poll that was not pending, and its call finds nobody asleep.

    That a wake is one step is what `send_async_no_lost_wake` (Async) assumes of the slot; the other
    results here need only that a waker taken out of its slot is called. Who owns the notifier between
    the two is followed in Api/MsgSender, where the call returns in a step of its own. -/

namespace SocketManager.Outgoing

/-- What a producer can register: the thread inside `block_on`, or a `Notifier` by its address. -/
inductive Waker where
  | blockOn
  | notifier (this : Nat)
  deriving DecidableEq

variable (R : RingBuffer UInt8)

/-- A ring buffer split into a producer and a consumer. -/
structure Ring where
  rb : R.Rb
  /-- The producer is alive; the consumer's `is_closed` is its negation. -/
  prodHeld : Bool
  /-- The consumer is alive; the producer's `is_closed` is its negation. -/
  consHeld : Bool
  /-- The waker the producer registered. -/
  waker : Option Waker

/-- The calls of a `MsgSender`. -/
inductive Op where
  | sendBlock (bytes : List UInt8)
  | sendNonblock (bytes : List UInt8)
  | sendAsync (bytes : List UInt8) (waker : Waker)
  | flush
  deriving DecidableEq

/-- The message of a call. -/
def Op.bytes : Op → List UInt8
  | .sendBlock bytes => bytes
  | .sendNonblock bytes => bytes
  | .sendAsync bytes _ => bytes
  | .flush => []

/-- The error of `send_nonblock` and `flush` on a closed channel, and of `send_async`. -/
inductive ErrorKind where
  | writeZero
  | other
  deriving DecidableEq

inductive Outcome where
  | ok
  | okN (n : Nat)
  | pending
  | err (kind : ErrorKind)
  deriving DecidableEq

/-- A call that returned; `offset` is how much of its message it had pushed. -/
structure Call where
  op : Op
  outcome : Outcome
  offset : Nat
  deriving DecidableEq

/-- The accepted bytes of a returned call: the whole message of an `Ok`, the first `n` bytes of an
    `Ok(n)`, what was pushed by a call that failed. -/
def Call.accepted (c : Call) : List UInt8 :=
  match c.outcome with
  | .ok => c.op.bytes
  | .okN n => c.op.bytes.take n
  | .pending => []
  | .err _ => c.op.bytes.take c.offset

/-- Where the sender is. -/
inductive SenderPc where
  | idle
  /-- In `burst_write`, about to push; `registered` is the flag of `send_async`. -/
  | burstWrite (op : Op) (offset : Nat) (registered : Bool)
  /-- In the future of `send_block`, about to `poll_write`. -/
  | pollWrite (bytes : List UInt8) (offset : Nat)
  /-- In `block_on`, after a `poll_write` that was pending. -/
  | pollPending (bytes : List UInt8) (offset : Nat)
  /-- About to allocate a ring (`send_nonblock`, `flush`). -/
  | newRing (op : Op) (offset : Nat)
  /-- About to send the new ring on `rings_prd`. -/
  | sendRing (op : Op) (offset : Nat) (ring : Nat)
  /-- About to set the head to the new ring. -/
  | setRingBuf (op : Op) (ring : Nat)
  /-- In the loop of `send_async`, about to test `is_closed`. -/
  | checkClosed (bytes : List UInt8) (waker : Waker) (registered : Bool)
  /-- In the loop of `send_async`, about to register the waker. -/
  | registerWaker (bytes : List UInt8) (waker : Waker)
  /-- The sender is being dropped: `ring_buf` is gone, `rings_prd` is not. -/
  | dropRingsPrd
  | dropped
  deriving DecidableEq

/-- What a `flush` of the writer returns to. -/
inductive FlushFrom where
  | occupied
  | tick
  | closed
  deriving DecidableEq

inductive WriterResult where
  | ok
  | err
  | aborted
  deriving DecidableEq

/-- Where the writer task is; `ring` is its local variable. -/
inductive WriterPc where
  /-- Awaiting `rings.recv()`. -/
  | recv
  /-- In the `select!` of `handle_writer_auto_flush`. -/
  | select (ring : Nat) (tickFlush : Bool)
  /-- Awaiting `wait_occupied` in `handle_writer_no_auto_flush`. -/
  | waitOccupied (ring : Nat)
  /-- `wait_occupied` completed, about to test `is_closed`. -/
  | isClosed (ring : Nat)
  /-- About to read `occupied_len`. -/
  | occupiedLen (ring : Nat)
  /-- At the head of the loop of `flush`. -/
  | asSlices (ring : Nat) (k : FlushFrom)
  /-- Awaiting `write.write(left)`. -/
  | write (ring : Nat) (k : FlushFrom) (left : List UInt8)
  /-- The socket took `count` bytes, about to advance the read index. -/
  | advance (ring : Nat) (k : FlushFrom) (count : Nat)
  /-- Advanced, about to wake the producer. -/
  | wake (ring : Nat) (k : FlushFrom)
  /-- The cleared ring went out of scope, about to wake its producer. -/
  | ringDropped (ring : Nat)
  /-- Awaiting `write.shutdown()`. -/
  | shutdown
  /-- Returning: `ring` (if any), then the receiver and what is queued, are dropped. -/
  | unwind (ring : Option Nat) (res : WriterResult)
  | unwindWake (ring : Nat) (res : WriterResult)
  | returned (res : WriterResult)
  deriving DecidableEq

/-- One connection's outgoing side. -/
structure State where
  /-- Every ring ever created, by its number. -/
  rings : Nat → Ring R
  fresh : Nat
  /-- `MsgSender::ring_buf`. -/
  ringBuf : Nat
  /-- The rings queued on the channel. -/
  queue : List Nat
  /-- The receiver `MsgRcv::rings` is alive. -/
  rxHeld : Bool
  /-- The sender `MsgSender::rings_prd` is alive. -/
  txHeld : Bool
  sender : SenderPc
  /-- The calls that returned, in order. -/
  calls : List Call
  writer : WriterPc
  /-- The bytes the socket accepted. -/
  written : List UInt8
  /-- The wakers taken out of their slots and called, in order. -/
  woken : List Waker

/-- What happens next. -/
inductive Act where
  /-- The user calls the sender. -/
  | call (op : Op)
  /-- The call in progress takes its next step. -/
  | sender
  /-- `block_on` polls the future of `send_block` again. -/
  | repoll
  /-- The user drops the sender. -/
  | dropSender
  /-- The writer takes its next step. -/
  | writer
  /-- The interval ticks. -/
  | tick
  /-- The pending write accepted `n` bytes. -/
  | wrote (n : Nat)
  | writeFails
  | shutdownOk
  | shutdownFails
  /-- The task is aborted at an await; also the drop of a `MsgRcv` that was never handed to one. -/
  | abort
  deriving DecidableEq

variable {R}

/-! ### Rings -/

/-- `AsyncHeapRb::new(capacity).split()`. -/
def Ring.new (capacity : Nat) : Ring R := ⟨R.new capacity, true, true, none⟩

def Ring.occ (r : Ring R) : List UInt8 := R.occupied r.rb

def Ring.vacant (r : Ring R) : Nat := R.vacant r.rb

/-- How many bytes `push_slice` takes. -/
def Ring.pushCount (r : Ring R) (bytes : List UInt8) : Nat := (R.pushSlice r.rb bytes).1

/-- The ring after `push_slice`. -/
def Ring.push (r : Ring R) (bytes : List UInt8) : Ring R :=
  { r with rb := (R.pushSlice r.rb bytes).2 }

def Ring.advanceReadIndex (r : Ring R) (count : Nat) : Ring R :=
  { r with rb := R.advanceReadIndex r.rb count }

/-- `poll_write`: no bytes at once when the consumer is gone, else what fits; on a full ring the
    waker is registered and the poll is pending (`none`). -/
def Ring.pollWrite (r : Ring R) (bytes : List UInt8) : Option Nat × Ring R :=
  if r.consHeld = false then (some 0, r)
  else if 0 < r.pushCount bytes then (some (r.pushCount bytes), r.push bytes)
  else (none, { r.push bytes with waker := some .blockOn })

/-- The condition `wait_occupied(count)` waits for. -/
def Ring.ready (r : Ring R) (count : Nat) : Bool := decide (count ≤ r.occ.length) || !r.prodHeld

namespace State

/-- Change one ring. -/
@[simps]
def updRing (s : State R) (i : Nat) (f : Ring R → Ring R) : State R :=
  { s with rings := Function.update s.rings i (f (s.rings i)) }

/-- The sender goes on at another point of its code. -/
@[simps]
def senderAt (s : State R) (pc : SenderPc) : State R := { s with sender := pc }

/-- The writer goes on at another point of its code. -/
@[simps]
def writerAt (s : State R) (pc : WriterPc) : State R := { s with writer := pc }

/-- Take the registered waker of a ring and call it. -/
def wakeRing (s : State R) (i : Nat) : State R :=
  { s with woken := s.woken ++ (s.rings i).waker.toList }.updRing i fun r => { r with waker := none }

/-- The call in progress returns. -/
@[simps]
def ret (s : State R) (op : Op) (outcome : Outcome) (offset : Nat) : State R :=
  { s with sender := .idle, calls := s.calls ++ [⟨op, outcome, offset⟩] }

end State

/-! ### The sender -/

/-- Enter a call. The empty message returns at once. -/
def startCall (s : State R) (op : Op) : State R :=
  match op with
  | .sendBlock bytes | .sendNonblock bytes =>
    if bytes = [] then s.ret op .ok 0 else s.senderAt (.burstWrite op 0 false)
  | .sendAsync bytes waker =>
    if bytes = [] then s.ret op (.okN 0) 0 else s.senderAt (.checkClosed bytes waker false)
  | .flush => s.senderAt (.newRing op 0)

/-- `BurstWriteState::Finished`: the whole message is in. -/
def burstFinished (s : State R) (op : Op) (offset : Nat) : State R :=
  match op with
  | .sendAsync _ _ => s.ret op (.okN offset) offset
  | _ => s.ret op .ok offset

/-- `BurstWriteState::Pending`: the ring took nothing more. -/
def burstPending (s : State R) (op : Op) (offset : Nat) (registered : Bool) : State R :=
  match op with
  | .sendBlock bytes => s.senderAt (.pollWrite bytes offset)
  | .sendAsync bytes waker =>
    if 0 < offset then s.ret op (.okN offset) offset
    else if registered then s.ret op .pending 0
    else s.senderAt (.registerWaker bytes waker)
  | _ => s.senderAt (.newRing op offset)

/-- One round of the loop of `burst_write`. -/
def burstWrite (s : State R) (op : Op) (offset : Nat) (registered : Bool) : State R :=
  let rest := op.bytes.drop offset
  let n := (s.rings s.ringBuf).pushCount rest
  let s' := s.updRing s.ringBuf (·.push rest)
  if n = 0 then burstPending s' op offset registered
  else if offset + n = op.bytes.length then burstFinished s' op (offset + n)
  else s'.senderAt (.burstWrite op (offset + n) registered)

/-- One round of the loop `while offset < bytes.len()` of `send_block`. -/
def pollWrite (s : State R) (bytes : List UInt8) (offset : Nat) : State R :=
  let p := (s.rings s.ringBuf).pollWrite (bytes.drop offset)
  let s' := s.updRing s.ringBuf fun _ => p.2
  match p.1 with
  | none => s'.senderAt (.pollPending bytes offset)
  | some n =>
    if offset + n < bytes.length then s'.senderAt (.pollWrite bytes (offset + n))
    else s'.ret (.sendBlock bytes) .ok (offset + n)

/-- The ring `send_nonblock` allocates holds the rest of the message, that of `flush` is empty. -/
def allocRing (op : Op) (offset : Nat) : Ring R :=
  match op with
  | .sendNonblock bytes =>
    (Ring.new (max ringBufferSize (bytes.length - offset))).push (bytes.drop offset)
  | _ => Ring.new ringBufferSize

/-- `rings_prd.send(ring)`: on a closed channel the new ring is dropped and the call fails. -/
def sendRing (s : State R) (op : Op) (offset ring : Nat) : State R :=
  if s.rxHeld then { s with queue := s.queue ++ [ring], sender := .setRingBuf op ring }
  else (s.updRing ring fun r => { r with prodHeld := false, consHeld := false }).ret op
    (.err .writeZero) offset

/-- `self.ring_buf = ring_buf`: the old producer is dropped, which closes the old ring. -/
def setRingBuf (s : State R) (op : Op) (ring : Nat) : State R :=
  ({ s with ringBuf := ring }.updRing s.ringBuf fun r => { r with prodHeld := false }).ret op .ok
    op.bytes.length

/-- The next step of the call in progress. -/
def senderStep (s : State R) : Option (State R) :=
  match s.sender with
  | .idle | .dropped | .pollPending _ _ => none
  | .burstWrite op offset registered => some (burstWrite s op offset registered)
  | .pollWrite bytes offset => some (pollWrite s bytes offset)
  | .newRing op offset =>
    some (({ s with fresh := s.fresh + 1 }.updRing s.fresh fun _ => allocRing op offset).senderAt
      (.sendRing op offset s.fresh))
  | .sendRing op offset ring => some (sendRing s op offset ring)
  | .setRingBuf op ring => some (setRingBuf s op ring)
  | .checkClosed bytes waker registered =>
    if (s.rings s.ringBuf).consHeld = false then
      some (s.ret (.sendAsync bytes waker) (.err .other) 0)
    else some (s.senderAt (.burstWrite (.sendAsync bytes waker) 0 registered))
  | .registerWaker bytes waker =>
    some ((s.updRing s.ringBuf fun r => { r with waker := some waker }).senderAt
      (.checkClosed bytes waker true))
  | .dropRingsPrd => some { s with txHeld := false, sender := .dropped }

/-! ### The writer -/

/-- `handle_writer`: a zero interval selects the loop without auto flush. -/
def autoFlush (config : ConnConfig) : Bool := decide (config.writeFlushInterval ≠ 0)

/-- The argument of `wait_occupied` in the `select!`. -/
def waitCount (tickFlush : Bool) : Nat := tickFlush.toNat * minMsgBufferSize + (!tickFlush).toNat

/-- What the loops do first with a ring they received. -/
def ringReceived (config : ConnConfig) (ring : Nat) : WriterPc :=
  if autoFlush config then .select ring true else .waitOccupied ring

/-- What follows a completed `flush`. A cleared closed ring is dropped here. -/
def flushed (config : ConnConfig) (s : State R) (ring : Nat) : FlushFrom → State R
  | .closed =>
    (s.updRing ring fun r => { r with consHeld := false }).writerAt (.ringDropped ring)
  | .tick => s.writerAt (.select ring false)
  | .occupied => s.writerAt (if autoFlush config then .select ring false else .waitOccupied ring)

/-- The next step of the writer that does not depend on the environment. -/
def writerStep (config : ConnConfig) (s : State R) : Option (State R) :=
  match s.writer with
  | .recv =>
    match s.queue with
    | ring :: queue => some { s with queue, writer := ringReceived config ring }
    | [] => if s.txHeld then none else some (s.writerAt .shutdown)
  | .select ring tickFlush =>
    if (s.rings ring).ready (waitCount tickFlush) then some (s.writerAt (.isClosed ring)) else none
  | .waitOccupied ring =>
    if (s.rings ring).ready minMsgBufferSize then some (s.writerAt (.isClosed ring)) else none
  | .isClosed ring =>
    if (s.rings ring).prodHeld = false then some (s.writerAt (.asSlices ring .closed))
    else if autoFlush config then some (s.writerAt (.occupiedLen ring))
    else some (s.writerAt (.asSlices ring .occupied))
  | .occupiedLen ring =>
    if (s.rings ring).occ.length < minMsgBufferSize then some (s.writerAt (.select ring true))
    else some (s.writerAt (.asSlices ring .occupied))
  | .asSlices ring k =>
    match R.left (s.rings ring).rb with
    | [] => some (flushed config s ring k)
    | b :: bs => some (s.writerAt (.write ring k (b :: bs)))
  | .advance ring k count =>
    some ((s.updRing ring (·.advanceReadIndex count)).writerAt (.wake ring k))
  | .wake ring k => some ((s.wakeRing ring).writerAt (.asSlices ring k))
  | .ringDropped ring => some ((s.wakeRing ring).writerAt .recv)
  | .unwind (some ring) res =>
    some ((s.updRing ring fun r => { r with consHeld := false }).writerAt (.unwindWake ring res))
  | .unwind none res =>
    if s.rxHeld then some { s with rxHeld := false }
    else
      match s.queue with
      | ring :: queue =>
        some (({ s with queue }.updRing ring fun r => { r with consHeld := false }).writerAt
          (.unwindWake ring res))
      | [] => some (s.writerAt (.returned res))
  | .unwindWake ring res => some ((s.wakeRing ring).writerAt (.unwind none res))
  | .write _ _ _ | .shutdown | .returned _ => none

/-- The ring in scope at an await of the writer; `none` where the task cannot be dropped. -/
def WriterPc.awaits : WriterPc → Option (Option Nat)
  | .recv => some none
  | .select ring _ => some (some ring)
  | .waitOccupied ring => some (some ring)
  | .write ring _ _ => some (some ring)
  | .shutdown => some none
  | _ => none

/-! ### The system -/

/-- One step of the sender, the writer or their environment. -/
def step (config : ConnConfig) (s : State R) : Act → Option (State R)
  | .call op => if s.sender = .idle then some (startCall s op) else none
  | .sender => senderStep s
  | .repoll =>
    match s.sender with
    | .pollPending bytes offset => some (s.senderAt (.pollWrite bytes offset))
    | _ => none
  | .dropSender =>
    if s.sender = .idle then
      some ((s.updRing s.ringBuf fun r => { r with prodHeld := false }).senderAt .dropRingsPrd)
    else none
  | .writer => writerStep config s
  | .tick =>
    match s.writer with
    | .select ring true => some (s.writerAt (.asSlices ring .tick))
    | _ => none
  | .wrote n =>
    match s.writer with
    | .write ring k left =>
      if 1 ≤ n ∧ n ≤ left.length then
        some { s with written := s.written ++ left.take n, writer := .advance ring k n }
      else none
    | _ => none
  | .writeFails =>
    match s.writer with
    | .write ring _ _ => some (s.writerAt (.unwind (some ring) .err))
    | _ => none
  | .shutdownOk =>
    match s.writer with
    | .shutdown => some (s.writerAt (.unwind none .ok))
    | _ => none
  | .shutdownFails =>
    match s.writer with
    | .shutdown => some (s.writerAt (.unwind none .err))
    | _ => none
  | .abort =>
    match s.writer.awaits with
    | some ring => some (s.writerAt (.unwind ring .aborted))
    | none => none

/-- `make_sender`: one ring, already on the channel. -/
def makeSender : State R where
  rings := fun _ => Ring.new ringBufferSize
  fresh := 1
  ringBuf := 0
  queue := [0]
  rxHeld := true
  txHeld := true
  sender := .idle
  calls := []
  writer := .recv
  written := []
  woken := []

/-- The outgoing side under a configuration. -/
def machine (R : RingBuffer UInt8) (config : ConnConfig) : Machine (State R) Act :=
  ⟨makeSender, step config⟩

end SocketManager.Outgoing
