import SocketManager.Incoming.BufReadWrite

/-! The incoming direction of one connection: `handle_reader` (read.rs), which drives a
    `BufReadWrite` between the socket and the `on_msg` callback (on_msg.rs).

    With auto flush the `select!` waits for `fill_flush` and for a tick; a tick drops the pending
    `fill_flush` and flushes. Without it the loop is `fill_flush` alone. Both flush once more after
    the end of the stream. -/

namespace SocketManager.Incoming

/-- What a call of `on_msg` gives to the runtime. -/
inductive PollMsg where
  | ok (n : Nat)
  | err (e : String)
  | pending
  deriving DecidableEq

/-- `OnMsgObj::call_inner`: `err` and `cb_result` are what the callback left for a message of `len`
    bytes. `none` is the failure of `assert!(cb_result <= len)`. -/
def callInner (err : Option String) (cbResult : Int) (len : Nat) : Option PollMsg :=
  match err with
  | some e => some (.err e)
  | none =>
    if 0 < cbResult then if cbResult ≤ len then some (.ok cbResult.toNat) else none
    else some .pending

/-- `OnMsgWrite::poll_write`. -/
def PollMsg.pollWrite : PollMsg → PollWrite
  | .ok n => .ok n
  | .err e => .err (.other ("error writing message: " ++ e))
  | .pending => .pending

/-- Where `handle_reader` is. -/
inductive ReaderPc where
  /-- Awaiting `fill_flush`, in the `select!` or in the loop without auto flush. -/
  | fillFlush
  /-- Awaiting the `flush` of a tick. -/
  | tickFlush
  /-- Awaiting the `flush` after the end of the stream. -/
  | lastFlush
  | returnedOk
  | returnedErr (e : IoError)
  | panicked (p : Panic)
  deriving DecidableEq

/-- The future that each point of the reader awaits; none after it has ended. -/
def ReaderPc.awaits : ReaderPc → Option Caller
  | .fillFlush => some .fillFlush
  | .tickFlush | .lastFlush => some .flush
  | _ => none

/-- The reader task. -/
structure Reader where
  session : Session
  hasData : Bool
  pc : ReaderPc

/-- What happens next. -/
inductive Act where
  /-- The future in progress runs on. -/
  | poll
  /-- The callback returns from a call. -/
  | onMsg (err : Option String) (cbResult : Int)
  /-- The socket gives `n` bytes; 0 is the end of the stream. -/
  | readOk (n : Nat)
  | readErr
  /-- The interval ticks. -/
  | tick
  deriving DecidableEq

/-- `config.msg_buffer_size.min(MAX_MSG_BUFFER_SIZE).max(MIN_MSG_BUFFER_SIZE)`. -/
def msgBufSize (config : ConnConfig) : Nat :=
  max (min config.msgBufferSize maxMsgBufferSize) minMsgBufferSize

/-- A zero interval selects the loop without auto flush. -/
def autoFlush (config : ConnConfig) : Bool := decide (config.readMsgFlushInterval ≠ 0)

/-- Call `fill_flush`. -/
def startFill (r : Reader) (hasData : Bool) : Reader :=
  { session := { r.session with fut := some .fillFlush }, hasData, pc := .fillFlush }

/-- Call `flush`; a future in progress is dropped. -/
def startFlush (r : Reader) (pc : ReaderPc) : Reader :=
  { r with session := r.session.writeAll .flush, pc }

/-- What the loops do with the result of the future they await. -/
def awaited (config : ConnConfig) (r : Reader) : Done → Reader
  | .failed e => { r with pc := .returnedErr e }
  | .panicked p => { r with pc := .panicked p }
  | .filled n => if n = 0 then startFlush r .lastFlush else startFill r (autoFlush config)
  | .flushed => if r.pc = .lastFlush then { r with pc := .returnedOk } else startFill r false

/-- The future took a step. -/
def resume (config : ConnConfig) (r : Reader) (p : Session × Option Done) : Reader :=
  match p.2 with
  | none => { r with session := p.1 }
  | some d => awaited config { r with session := p.1 } d

/-- The callback returned. -/
def onMsg (config : ConnConfig) (r : Reader) (err : Option String) (cbResult : Int) : Option Reader :=
  match r.session.fut with
  | some (.writeAll _ pos fin) =>
    if pos < fin ∧ fin ≤ r.session.rw.len then
      let bytes := r.session.rw.slice pos fin
      match callInner err cbResult bytes.length with
      | some res => (r.session.advance (.written res.pollWrite)).map (resume config r)
      | none => some { r with
          session := { r.session with offers := r.session.offers ++ [⟨bytes, 0⟩] }
          pc := .panicked .cbResult }
    else none
  | _ => none

/-- One step of the reader or of its environment; none after the task has ended. -/
def step (config : ConnConfig) (r : Reader) (a : Act) : Option Reader :=
  if r.pc.awaits = none then none
  else
    match a with
    | .poll => (r.session.advance .poll).map (resume config r)
    | .onMsg err cbResult => onMsg config r err cbResult
    | .readOk n => (r.session.advance (.readOk n)).map (resume config r)
    | .readErr => (r.session.advance .readErr).map (resume config r)
    | .tick =>
      if autoFlush config ∧ r.hasData ∧ r.pc = .fillFlush ∧ r.session.pending then
        some (startFlush r .tickFlush)
      else none

/-- `handle_reader` as it enters its loop, over a socket that will deliver `incoming`. -/
def handleReader (config : ConnConfig) (incoming : List UInt8) : Reader :=
  match BufReadWrite.new (msgBufSize config) with
  | some rw => ⟨⟨rw, incoming, false, [], some .fillFlush⟩, false, .fillFlush⟩
  | none => ⟨⟨⟨[], 0, 0, 0, rfl⟩, incoming, false, [], none⟩, false, .panicked .bufferSize⟩

/-- The reader under a configuration, over one stream. -/
def machine (config : ConnConfig) (incoming : List UInt8) : Machine Reader Act :=
  ⟨handleReader config incoming, step config⟩

end SocketManager.Incoming
