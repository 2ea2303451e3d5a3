import SocketManager.Outgoing.Model

/-! What one step of the outgoing side can do. `step_cases` lists the moves of the sender and of the
    writer with the guard of each, so that an invariant is checked move by move and nothing below
    unfolds the step function again. -/

namespace SocketManager.Outgoing
variable {R : RingBuffer UInt8} {config : ConnConfig} {s s' : State R}

/-- What the writer and its environment can do, with the guard of each move. -/
inductive WriterMove (config : ConnConfig) (s : State R) : State R → Prop where
  | recv {ring queue} (hw : s.writer = .recv) (hq : s.queue = ring :: queue) :
      WriterMove config s { s with queue, writer := ringReceived config ring }
  | finish (hw : s.writer = .recv) (hq : s.queue = []) (htx : s.txHeld = false) :
      WriterMove config s (s.writerAt .shutdown)
  | ready {ring tickFlush} (hw : s.writer = .select ring tickFlush)
      (hr : (s.rings ring).ready (waitCount tickFlush) = true) :
      WriterMove config s (s.writerAt (.isClosed ring))
  | readyNoFlush {ring} (hw : s.writer = .waitOccupied ring)
      (hr : (s.rings ring).ready minMsgBufferSize = true) :
      WriterMove config s (s.writerAt (.isClosed ring))
  | closed {ring} (hw : s.writer = .isClosed ring) (hp : (s.rings ring).prodHeld = false) :
      WriterMove config s (s.writerAt (.asSlices ring .closed))
  | measure {ring} (hw : s.writer = .isClosed ring) (hp : (s.rings ring).prodHeld = true)
      (hauto : autoFlush config = true) : WriterMove config s (s.writerAt (.occupiedLen ring))
  | drain {ring} (hw : s.writer = .isClosed ring) (hp : (s.rings ring).prodHeld = true)
      (hauto : autoFlush config = false) : WriterMove config s (s.writerAt (.asSlices ring .occupied))
  | below {ring} (hw : s.writer = .occupiedLen ring)
      (hlt : (s.rings ring).occ.length < minMsgBufferSize) :
      WriterMove config s (s.writerAt (.select ring true))
  | enough {ring} (hw : s.writer = .occupiedLen ring)
      (hge : minMsgBufferSize ≤ (s.rings ring).occ.length) :
      WriterMove config s (s.writerAt (.asSlices ring .occupied))
  | tick {ring} (hw : s.writer = .select ring true) :
      WriterMove config s (s.writerAt (.asSlices ring .tick))
  | flushed {ring k} (hw : s.writer = .asSlices ring k) (hleft : R.left (s.rings ring).rb = []) :
      WriterMove config s (flushed config s ring k)
  | write {ring k b bs} (hw : s.writer = .asSlices ring k)
      (hleft : R.left (s.rings ring).rb = b :: bs) :
      WriterMove config s (s.writerAt (.write ring k (b :: bs)))
  | wrote {ring k left n} (hw : s.writer = .write ring k left) (hpos : 1 ≤ n)
      (hn : n ≤ left.length) : WriterMove config s
        { s with written := s.written ++ left.take n, writer := .advance ring k n }
  | advance {ring k n} (hw : s.writer = .advance ring k n) :
      WriterMove config s ((s.updRing ring (·.advanceReadIndex n)).writerAt (.wake ring k))
  | wake {ring k} (hw : s.writer = .wake ring k) :
      WriterMove config s ((s.wakeRing ring).writerAt (.asSlices ring k))
  | ringDropped {ring} (hw : s.writer = .ringDropped ring) :
      WriterMove config s ((s.wakeRing ring).writerAt .recv)
  | writeFails {ring k left} (hw : s.writer = .write ring k left) :
      WriterMove config s (s.writerAt (.unwind (some ring) .err))
  | shutdownOk (hw : s.writer = .shutdown) : WriterMove config s (s.writerAt (.unwind none .ok))
  | shutdownFails (hw : s.writer = .shutdown) : WriterMove config s (s.writerAt (.unwind none .err))
  | abort {ring} (hw : s.writer.awaits = some ring) :
      WriterMove config s (s.writerAt (.unwind ring .aborted))
  | unwindRing {ring res} (hw : s.writer = .unwind (some ring) res) :
      WriterMove config s ((s.updRing ring fun r => { r with consHeld := false }).writerAt
        (.unwindWake ring res))
  | unwindRx {res} (hw : s.writer = .unwind none res) (hrx : s.rxHeld = true) :
      WriterMove config s { s with rxHeld := false }
  | unwindQueue {ring queue res} (hw : s.writer = .unwind none res) (hrx : s.rxHeld = false)
      (hq : s.queue = ring :: queue) :
      WriterMove config s (({ s with queue }.updRing ring fun r => { r with consHeld := false }).writerAt
        (.unwindWake ring res))
  | unwindWake {ring res} (hw : s.writer = .unwindWake ring res) :
      WriterMove config s ((s.wakeRing ring).writerAt (.unwind none res))
  | returned {res} (hw : s.writer = .unwind none res) (hrx : s.rxHeld = false) (hq : s.queue = []) :
      WriterMove config s (s.writerAt (.returned res))

/-- What the sender and its user can do. -/
inductive SenderMove (s : State R) : State R → Prop where
  | call (op : Op) (hs : s.sender = .idle) : SenderMove s (startCall s op)
  | step {t : State R} (hs : senderStep s = some t) : SenderMove s t
  | repoll {bytes offset} (hs : s.sender = .pollPending bytes offset) :
      SenderMove s (s.senderAt (.pollWrite bytes offset))
  | drop (hs : s.sender = .idle) :
      SenderMove s ((s.updRing s.ringBuf fun r => { r with prodHeld := false }).senderAt .dropRingsPrd)

theorem writerStep_cases (hs : writerStep config s = some s') : WriterMove config s s' := by
  unfold writerStep at hs
  split at hs
  · rename_i hw
    split at hs
    · rename_i hq
      obtain rfl := Option.some.inj hs; exact .recv hw hq
    · rename_i hq
      split at hs
      · cases hs
      · rename_i htx
        obtain rfl := Option.some.inj hs; exact .finish hw hq (by simpa using htx)
  · rename_i hw
    split at hs
    · rename_i hr
      obtain rfl := Option.some.inj hs; exact .ready hw hr
    · cases hs
  · rename_i hw
    split at hs
    · rename_i hr
      obtain rfl := Option.some.inj hs; exact .readyNoFlush hw hr
    · cases hs
  · rename_i hw
    split at hs
    · rename_i hp
      obtain rfl := Option.some.inj hs; exact .closed hw hp
    · rename_i hp
      split at hs <;> (rename_i hauto; obtain rfl := Option.some.inj hs)
      · exact .measure hw (by simpa using hp) hauto
      · exact .drain hw (by simpa using hp) (by simpa using hauto)
  · rename_i hw
    split at hs <;> (rename_i hlt; obtain rfl := Option.some.inj hs)
    · exact .below hw hlt
    · exact .enough hw (Nat.le_of_not_lt hlt)
  · rename_i hw
    split at hs <;> (rename_i hleft; obtain rfl := Option.some.inj hs)
    · exact .flushed hw hleft
    · exact .write hw hleft
  · rename_i hw
    obtain rfl := Option.some.inj hs; exact .advance hw
  · rename_i hw
    obtain rfl := Option.some.inj hs; exact .wake hw
  · rename_i hw
    obtain rfl := Option.some.inj hs; exact .ringDropped hw
  · rename_i hw
    obtain rfl := Option.some.inj hs; exact .unwindRing hw
  · rename_i hw
    split at hs
    · rename_i hrx
      obtain rfl := Option.some.inj hs; exact .unwindRx hw hrx
    · rename_i hrx
      split at hs <;> (rename_i hq; obtain rfl := Option.some.inj hs)
      · exact .unwindQueue hw (by simpa using hrx) hq
      · exact .returned hw (by simpa using hrx) hq
  · rename_i hw
    obtain rfl := Option.some.inj hs; exact .unwindWake hw
  all_goals cases hs

/-- The actions of the user's thread. -/
def Act.ofUser : Act → Bool
  | .call _ | .sender | .repoll | .dropSender => true
  | _ => false

/-- A step of the user's thread is a move of the sender. -/
theorem step_user {a : Act} (ha : a.ofUser = true) (hs : step config s a = some s') :
    SenderMove s s' := by
  cases a with
  | call op =>
    simp only [step] at hs
    split at hs
    · rename_i hidle
      obtain rfl := Option.some.inj hs; exact .call op hidle
    · cases hs
  | sender => exact .step hs
  | repoll =>
    simp only [step] at hs
    split at hs
    · rename_i hw
      obtain rfl := Option.some.inj hs; exact .repoll hw
    · cases hs
  | dropSender =>
    simp only [step] at hs
    split at hs
    · rename_i hidle
      obtain rfl := Option.some.inj hs; exact .drop hidle
    · cases hs
  | writer | tick | wrote | writeFails | shutdownOk | shutdownFails | abort => cases ha

/-- Any other step is a move of the writer. -/
theorem step_writer {a : Act} (ha : a.ofUser = false) (hs : step config s a = some s') :
    WriterMove config s s' := by
  cases a with
  | call | sender | repoll | dropSender => cases ha
  | writer => exact writerStep_cases hs
  | tick =>
    simp only [step] at hs
    split at hs
    · rename_i hw
      obtain rfl := Option.some.inj hs; exact .tick hw
    · cases hs
  | wrote n =>
    simp only [step] at hs
    split at hs
    · rename_i hw
      split at hs
      · rename_i hn
        obtain rfl := Option.some.inj hs; exact .wrote hw hn.1 hn.2
      · cases hs
    · cases hs
  | writeFails =>
    simp only [step] at hs
    split at hs
    · rename_i hw
      obtain rfl := Option.some.inj hs; exact .writeFails hw
    · cases hs
  | shutdownOk =>
    simp only [step] at hs
    split at hs
    · rename_i hw
      obtain rfl := Option.some.inj hs; exact .shutdownOk hw
    · cases hs
  | shutdownFails =>
    simp only [step] at hs
    split at hs
    · rename_i hw
      obtain rfl := Option.some.inj hs; exact .shutdownFails hw
    · cases hs
  | abort =>
    simp only [step] at hs
    split at hs
    · rename_i hw
      obtain rfl := Option.some.inj hs; exact .abort hw
    · cases hs

/-- A step of the system is a move of the sender or a move of the writer. -/
theorem step_cases {a : Act} (hs : step config s a = some s') :
    SenderMove s s' ∨ WriterMove config s s' := by
  cases ha : a.ofUser with
  | true => exact .inl (step_user ha hs)
  | false => exact .inr (step_writer ha hs)

/-! ### What the sender leaves alone -/

/-- A move of the sender changes nothing of the writer, and what it dropped stays dropped. -/
structure SenderFrame (s s' : State R) : Prop where
  writer : s'.writer = s.writer
  written : s'.written = s.written
  rxHeld : s'.rxHeld = s.rxHeld
  tx : s.txHeld = false → s'.txHeld = false

theorem burstWrite_frame (op : Op) (offset : Nat) (registered : Bool) :
    SenderFrame s (burstWrite s op offset registered) := by
  simp only [burstWrite]
  split
  · cases op <;> simp only [burstPending] <;> (try split) <;> (try split) <;>
      exact ⟨rfl, rfl, rfl, id⟩
  · split
    · cases op <;> exact ⟨rfl, rfl, rfl, id⟩
    · exact ⟨rfl, rfl, rfl, id⟩

theorem pollWrite_frame (bytes : List UInt8) (offset : Nat) :
    SenderFrame s (pollWrite s bytes offset) := by
  simp only [pollWrite]
  split
  · exact ⟨rfl, rfl, rfl, id⟩
  · split <;> exact ⟨rfl, rfl, rfl, id⟩

theorem senderMove_frame (hm : SenderMove s s') : SenderFrame s s' := by
  cases hm with
  | call op hs =>
    cases op <;> simp only [startCall] <;> (try split) <;> exact ⟨rfl, rfl, rfl, id⟩
  | repoll hs => exact ⟨rfl, rfl, rfl, id⟩
  | drop hs => exact ⟨rfl, rfl, rfl, id⟩
  | step hs =>
    unfold senderStep at hs
    split at hs
    case h_4 => obtain rfl := Option.some.inj hs; exact burstWrite_frame ..
    case h_5 => obtain rfl := Option.some.inj hs; exact pollWrite_frame ..
    case h_7 =>
      obtain rfl := Option.some.inj hs
      unfold sendRing
      split <;> exact ⟨rfl, rfl, rfl, id⟩
    case h_9 => split at hs <;> (obtain rfl := Option.some.inj hs; exact ⟨rfl, rfl, rfl, id⟩)
    all_goals first
      | (obtain rfl := Option.some.inj hs; exact ⟨rfl, rfl, rfl, id⟩)
      | (obtain rfl := Option.some.inj hs; exact ⟨rfl, rfl, rfl, fun _ => rfl⟩)
      | cases hs

end SocketManager.Outgoing
