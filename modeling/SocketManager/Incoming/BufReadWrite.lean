import SocketManager.Basic

/-! `BufReadWrite` (buf_read_write.rs): one buffer with a read and a write offset, filled from a
    reader and flushed to a writer by futures that may be dropped wherever they are pending.

        0        r_offset          w_offset        len
        ├─ taken ───┼─── pending ─────┼──── free ────┤

    A session is the buffer together with the future in progress and its two ends: the stream that
    is still to be read and the slices offered to the writer. `advance` is one step of the future.
    The reader's and the writer's answers are in the event, and the panics of the code (slice
    indexing, assertions) are results of their own. -/

namespace SocketManager.Incoming

/-- The buffer. Its length is kept beside it, as in a `Vec`. -/
structure BufReadWrite where
  buf : List UInt8
  len : Nat
  rOffset : Nat
  wOffset : Nat
  length_buf : buf.length = len

/-- `assert!(write_buffer_size > 0)`, then an empty buffer. -/
def BufReadWrite.new (writeBufferSize : Nat) : Option BufReadWrite :=
  if 0 < writeBufferSize then
    some ⟨List.replicate writeBufferSize 0, writeBufferSize, 0, 0, List.length_replicate⟩
  else none

/-- `&buf[start..end]`, with the bounds checked by the caller. -/
def BufReadWrite.slice (b : BufReadWrite) (start fin : Nat) : List UInt8 := (b.buf.take fin).drop start

/-- A read stored `bytes` at the write offset: `w_offset += n`. -/
def BufReadWrite.fill (b : BufReadWrite) (bytes : List UInt8) : BufReadWrite where
  buf := (b.buf.take b.wOffset ++ bytes ++ b.buf.drop (b.wOffset + bytes.length)).take b.len
  len := b.len
  rOffset := b.rOffset
  wOffset := b.wOffset + bytes.length
  length_buf := by
    have := b.length_buf
    simp only [List.length_take, List.length_append, List.length_drop]; omega

/-- `*this.r_offset = pos`. -/
def BufReadWrite.setROffset (b : BufReadWrite) (pos : Nat) : BufReadWrite := { b with rOffset := pos }

/-- Everything flushed: both offsets go back to 0. -/
def BufReadWrite.reset (b : BufReadWrite) : BufReadWrite := { b with rOffset := 0, wOffset := 0 }

/-- Errors the futures return. -/
inductive IoError where
  | read
  | writeZero
  | other (message : String)
  deriving DecidableEq

/-- A result of `AsyncWrite::poll_write`. -/
inductive PollWrite where
  | ok (n : Nat)
  | err (e : IoError)
  | pending
  deriving DecidableEq

/-- The code's panics. -/
inductive Panic where
  /-- `assert!(write_buffer_size > 0)`. -/
  | bufferSize
  /-- Slice indexing out of bounds. -/
  | sliceIndex
  /-- `assert_eq!(pos, end)`. -/
  | assertEq
  /-- `assert!(cb_result <= len)` in the callback wrapper. -/
  | cbResult
  deriving DecidableEq

/-- Who awaits a `WriteAll`. -/
inductive Caller where
  | fillFlush
  | flush
  deriving DecidableEq

/-- The future in progress. -/
inductive Fut where
  /-- `fill_flush` at its first test. -/
  | fillFlush
  /-- `WriteAll::poll` at the head of its loop. -/
  | writeAll (k : Caller) (pos fin : Nat)
  /-- `WriteAll` after a pending poll. -/
  | parked (k : Caller)
  /-- `fill_flush` awaiting `reader.read`. -/
  | read
  deriving DecidableEq

/-- How a future ended. -/
inductive Done where
  /-- `fill_flush` returned `Ok(n)`. -/
  | filled (n : Nat)
  | flushed
  | failed (e : IoError)
  | panicked (p : Panic)
  deriving DecidableEq

/-- One call of `poll_write`: the slice it was given and how much of it was taken. -/
structure Offer where
  bytes : List UInt8
  taken : Nat
  deriving DecidableEq

/-- The bytes taken by some calls of `poll_write`, in order. -/
def takenBytes (offers : List Offer) : List UInt8 := offers.flatMap fun o => o.bytes.take o.taken

/-- The buffer at work. -/
structure Session where
  rw : BufReadWrite
  /-- The bytes of the stream that were not read yet. -/
  rest : List UInt8
  /-- The reader reported the end of the stream. -/
  eof : Bool
  /-- The calls of `poll_write`. -/
  offers : List Offer
  fut : Option Fut

/-- What can happen to the future in progress. -/
inductive Event where
  /-- It runs on by itself. -/
  | poll
  /-- `poll_write` returned. -/
  | written (res : PollWrite)
  /-- `read` returned `n` bytes. -/
  | readOk (n : Nat)
  | readErr
  deriving DecidableEq

namespace Session

/-- The future goes on. -/
def goOn (s : Session) (f : Fut) : Session × Option Done := ({ s with fut := some f }, none)

/-- The future ends. -/
def finish (s : Session) (d : Done) : Session × Option Done := ({ s with fut := none }, some d)

/-- Enter `WriteAll::poll`: `pos` and `end` are the offsets as they are now. -/
def writeAll (s : Session) (k : Caller) : Session :=
  { s with fut := some (.writeAll k s.rw.rOffset s.rw.wOffset) }

/-- `reader.read(&mut self.buf[self.w_offset..])`, up to the bounds check. -/
def startRead (s : Session) : Session × Option Done :=
  if s.rw.wOffset ≤ s.rw.len then s.goOn .read else s.finish (.panicked .sliceIndex)

/-- `WriteAll` found nothing left: `assert_eq!(pos, end)` and reset the offsets. -/
def flushed (s : Session) (k : Caller) (pos fin : Nat) : Session × Option Done :=
  if pos = fin then
    match k with
    | .fillFlush => startRead { s with rw := s.rw.reset }
    | .flush => finish { s with rw := s.rw.reset } .flushed
  else s.finish (.panicked .assertEq)

/-- The answer of `poll_write` to the slice `buf[pos..end]`. -/
def written (s : Session) (k : Caller) (pos fin : Nat) : PollWrite → Session × Option Done
  | .ok n =>
    let s' : Session := { s with offers := s.offers ++ [⟨s.rw.slice pos fin, n⟩] }
    if n = 0 then finish { s' with rw := s'.rw.setROffset pos } (.failed .writeZero)
    else s'.goOn (.writeAll k (pos + n) fin)
  | .err e =>
    finish { s with offers := s.offers ++ [⟨s.rw.slice pos fin, 0⟩], rw := s.rw.setROffset pos }
      (.failed e)
  | .pending =>
    goOn { s with offers := s.offers ++ [⟨s.rw.slice pos fin, 0⟩], rw := s.rw.setROffset pos }
      (.parked k)

/-- The read of `n` bytes that the reader may give: no more than the slice and the stream hold, and
    none only for an empty slice or at the end of the stream. -/
def canRead (s : Session) (n : Nat) : Bool :=
  decide (n ≤ s.rw.len - s.rw.wOffset ∧ n ≤ s.rest.length ∧
    (n = 0 → s.rw.len = s.rw.wOffset ∨ s.rest = []))

/-- One step of the future in progress. -/
def advance (s : Session) (e : Event) : Option (Session × Option Done) :=
  match s.fut, e with
  | some .fillFlush, .poll =>
    -- buf is full
    if s.rw.wOffset = s.rw.len then some (s.writeAll .fillFlush, none) else some s.startRead
  | some (.writeAll k pos fin), .poll =>
    if pos < fin then if fin ≤ s.rw.len then none else some (s.finish (.panicked .sliceIndex))
    else some (s.flushed k pos fin)
  | some (.writeAll k pos fin), .written res =>
    if pos < fin ∧ fin ≤ s.rw.len then some (s.written k pos fin res) else none
  | some (.parked k), .poll => some (s.writeAll k, none)
  | some .read, .readOk n =>
    if s.canRead n then
      some (finish { s with
        rw := s.rw.fill (s.rest.take n), rest := s.rest.drop n
        eof := s.eof || decide (n = 0 ∧ s.rw.wOffset < s.rw.len) } (.filled n))
    else none
  | some .read, .readErr => some (s.finish (.failed .read))
  | _, _ => none

/-- The future is pending, so that it can be dropped. -/
def pending (s : Session) : Bool :=
  match s.fut with
  | some (.parked _) | some .read => true
  | _ => false

end Session

end SocketManager.Incoming
