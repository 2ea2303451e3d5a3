import SocketManager.Basic

/-! One connection: the task that connects, the connection task (conn_handle.rs), its reader and
    writer tasks, and the calls of the user on the `Conn` handle (conn.rs).

        connecting ─▶ OnConnectError
             │
             ▼            start_connection
        OnConnect ─▶ await config ─▶ spawn, spawn, insert ─▶ join loop ─▶ remove ─┐
             │             │                                                     ▼
             └── error ────┴───────────────────────────────────────────▶ OnConnectionClose

    The tasks are cut at every await and at every access to what they share: the config channel, the
    tasks' abort flags, the registry of stoppers. What the registry does with the stopper of this
    connection is not decided here: `dropStopper` may happen at any time. The calls of the user are
    cut at the exchange of `consumed`, at the take of `inner` and at the removal from the registry;
    any number of them may be in progress.

    A task that was aborted is not polled again, but a poll that is under way runs to its end. -/

namespace SocketManager.Manager

/-! ### Tasks of the runtime -/

/-- What a `JoinHandle` gives: the task's `Ok`, its error, or a `JoinError` (panic, cancellation). -/
inductive JoinResult where
  | ok
  | err
  | joinErr
  deriving DecidableEq

inductive TaskState where
  | notSpawned
  /-- Waiting to be polled. -/
  | idle
  /-- Being polled by a worker. -/
  | polling
  /-- Being polled, inside a call of `on_msg`. -/
  | inMsg
  | finished (res : JoinResult)
  deriving DecidableEq

/-- A spawned task with its abort flag and its `JoinHandle`. -/
structure Task where
  st : TaskState
  /-- `abort` was called on it. -/
  aborted : Bool
  /-- Its `JoinHandle` has given the result. -/
  taken : Bool
  deriving DecidableEq

namespace Task

def unborn : Task := ⟨.notSpawned, false, false⟩

def spawn : Task := ⟨.idle, false, false⟩

/-- `AbortHandle::abort` only requests the cancellation. -/
def abort (t : Task) : Task := { t with aborted := true }

/-- The `JoinHandle` gives the result. -/
def take (t : Task) : Task := { t with taken := true }

end Task

/-- What the runtime does with a task. -/
inductive TaskAct where
  | poll
  /-- `on_msg` is called. -/
  | msg
  | msgReturns
  /-- The poll returns `Pending`. -/
  | pending
  /-- The poll ends the task. -/
  | finish (res : JoinResult)
  /-- The runtime drops a task that was aborted. -/
  | cancel
  deriving DecidableEq

def Task.step (t : Task) : TaskAct → Option Task
  | .poll => if t.st = .idle ∧ t.aborted = false then some { t with st := .polling } else none
  | .msg => if t.st = .polling then some { t with st := .inMsg } else none
  | .msgReturns => if t.st = .inMsg then some { t with st := .polling } else none
  | .pending =>
    if t.st = .polling then
      some { t with st := if t.aborted then .finished .joinErr else .idle }
    else none
  | .finish res => if t.st = .polling then some { t with st := .finished res } else none
  | .cancel =>
    if t.st = .idle ∧ t.aborted = true then some { t with st := .finished .joinErr } else none

/-! ### The connection -/

/-- Where the connecting task and the connection task are. -/
inductive Pc where
  | unborn
  /-- The connecting task sleeps, connects and reads the addresses. -/
  | connecting
  /-- In the callback with `OnConnectError`. -/
  | inConnectError
  /-- The connecting task ended without a connection. -/
  | failed
  /-- `handle_connection` spawned the connection task. -/
  | onConnect
  /-- In the callback with `OnConnect`. -/
  | inOnConnect
  /-- Awaiting `conn_config`. -/
  | awaitConfig
  | spawnWriter
  | spawnReader
  /-- About to insert the stopper. -/
  | insert
  /-- In the loop of `join_reader_writer`. -/
  | join (writerStopped readerStopped : Bool)
  /-- In the callback with `OnRemoteClose`. -/
  | inRemoteClose (writerStopped : Bool)
  /-- About to remove the stopper. -/
  | remove
  /-- About to call the callback with `OnConnectionClose`. -/
  | closing
  /-- In the callback with `OnConnectionClose`. -/
  | inClose
  | done
  /-- A `JoinHandle` was polled after completion. -/
  | panicked
  deriving DecidableEq

/-- A call of the user in progress; `late` when it began after `OnConnect` returned `Ok` and
    `start_connection` succeeded. -/
inductive Call where
  /-- `start_connection` won the exchange. -/
  | startTake
  /-- `close` won the exchange. -/
  | closeTake (late : Bool)
  /-- `close` is about to remove the stopper. -/
  | closeRemove (late : Bool)
  deriving DecidableEq

/-- The history of a connection. -/
inductive Event where
  /-- `OnConnectError` -/
  | connectError
  /-- `OnConnect` -/
  | connect
  /-- The callback with `OnConnect` returned. -/
  | connectReturned (ok : Bool)
  /-- `OnRemoteClose` -/
  | remoteClose
  /-- `OnConnectionClose` -/
  | connectionClose
  /-- `on_msg` was called. -/
  | msg
  | startOk
  | startErr
  | closeCalled
  | closeReturned (late : Bool)
  deriving DecidableEq

/-- The events delivered to `on_conn`. -/
def Event.onConn : Event → Bool
  | .connectError | .connect | .remoteClose | .connectionClose => true
  | _ => false

variable (A : Type)

/-- A connection, from the command or the accepted stream that begins it. -/
structure Conn where
  /-- `(local_addr, peer_addr)`, once connected. -/
  key : Option (A × A)
  pc : Pc
  /-- It began with an accepted stream. -/
  accepted : Bool
  /-- The user holds the `Conn`. -/
  handle : Bool
  consumed : Bool
  /-- `inner`, which holds the setter of the config. -/
  inner : Bool
  /-- The config was sent. -/
  configSent : Bool
  /-- The receiver of the config is alive. -/
  configRx : Bool
  calls : List Call
  /-- A `take().unwrap()` met `None`. -/
  unwrapFailed : Bool
  writer : Task
  reader : Task
  /-- The stopper was dropped: `stop.closed()` completes. -/
  stopDropped : Bool
  log : List Event
  deriving DecidableEq

/-- What can happen to a connection. -/
inductive ConnAct where
  /-- `main` handles `Connect`. -/
  | connect
  /-- The stream is connected and its addresses are read. -/
  | connected (key : A × A)
  | connectFails
  /-- A listener accepts a stream. -/
  | accept (key : A × A)
  /-- The connection task takes its next step. -/
  | task
  /-- The callback in progress returns. -/
  | returns (ok : Bool)
  /-- The branches of the `select!`. -/
  | joinStop
  | joinWriter
  | joinReader
  | reader (a : TaskAct)
  | writer (a : TaskAct)
  /-- The user calls `start_connection`. -/
  | start
  /-- The user calls `close`. -/
  | close
  /-- The `i`-th call in progress takes its next step. -/
  | user (i : Nat)
  /-- The user drops the `Conn`. -/
  | dropHandle
  /-- The registry dropped the stopper. -/
  | dropStopper
  deriving DecidableEq

variable {A}

namespace Conn

def unborn : Conn A where
  key := none
  pc := .unborn
  accepted := false
  handle := false
  consumed := false
  inner := false
  configSent := false
  configRx := false
  calls := []
  unwrapFailed := false
  writer := .unborn
  reader := .unborn
  stopDropped := false
  log := []

@[simps]
def goto (c : Conn A) (pc : Pc) : Conn A := { c with pc }

@[simps]
def event (c : Conn A) (e : Event) : Conn A := { c with log := c.log ++ [e] }

/-- `handle_connection`: the config channel and the task are made. -/
@[simps]
def handleConnection (c : Conn A) (key : A × A) (accepted : Bool) : Conn A :=
  { c with key := some key, accepted, inner := true, configRx := true, pc := .onConnect }

/-- `OnConnect` returned `Ok` and `start_connection` succeeded. -/
def started (c : Conn A) : Bool := decide (.connectReturned true ∈ c.log ∧ .startOk ∈ c.log)

/-- Drop the stopper. -/
@[simps]
def dropStopper (c : Conn A) : Conn A := { c with stopDropped := true }

/-! ### The connection task -/

/-- The next step of the connection task outside the `select!`. -/
def taskStep (c : Conn A) : Option (Conn A) :=
  match c.pc with
  | .onConnect => some ({ c with handle := true, pc := .inOnConnect }.event .connect)
  | .awaitConfig =>
    if c.configSent then some (c.goto .spawnWriter)
    else if c.inner then none
    else some { c with configRx := false, pc := .closing }
  | .spawnWriter => some { c with writer := .spawn, pc := .spawnReader }
  | .spawnReader => some { c with reader := .spawn, pc := .insert }
  | .insert => some (c.goto (.join false false))
  | .remove => some (c.goto .closing)
  | .closing => some ((c.goto .inClose).event .connectionClose)
  | _ => none

/-- The callback in progress returns. -/
def returnsStep (c : Conn A) (ok : Bool) : Option (Conn A) :=
  match c.pc with
  | .inConnectError => some (c.goto .failed)
  | .inOnConnect =>
    if ok then some ((c.goto .awaitConfig).event (.connectReturned true))
    else some ({ c with configRx := false, pc := .closing }.event (.connectReturned false))
  | .inRemoteClose writerStopped =>
    some (c.goto (if writerStopped then .remove else .join writerStopped true))
  | .inClose => some (c.goto .done)
  | _ => none

/-- `stop.closed()`: abort everything. -/
def joinStop (c : Conn A) : Option (Conn A) :=
  match c.pc with
  | .join _ _ =>
    if c.stopDropped then
      some { c with writer := c.writer.abort, reader := c.reader.abort, pc := .remove }
    else none
  | _ => none

/-- `w = &mut writer, if !writer_stopped`. -/
def joinWriter (c : Conn A) : Option (Conn A) :=
  match c.pc with
  | .join false readerStopped =>
    if c.writer.taken then some (c.goto .panicked)
    else
      match c.writer.st with
      | .finished .ok =>
        some { c with
          writer := c.writer.take, pc := if readerStopped then .remove else .join true readerStopped }
      | .finished _ => some { c with writer := c.writer.take, reader := c.reader.abort, pc := .remove }
      | _ => none
  | _ => none

/-- `r = &mut reader, if !reader_stopped`. -/
def joinReader (c : Conn A) : Option (Conn A) :=
  match c.pc with
  | .join writerStopped false =>
    if c.reader.taken then some (c.goto .panicked)
    else
      match c.reader.st with
      | .finished .ok =>
        some ({ c with reader := c.reader.take, pc := .inRemoteClose writerStopped }.event .remoteClose)
      | .finished _ => some { c with reader := c.reader.take, writer := c.writer.abort, pc := .remove }
      | _ => none
  | _ => none

/-! ### The calls of the user -/

/-- `start_connection`, up to its exchange. -/
def start (c : Conn A) : Option (Conn A) :=
  if c.handle then
    if c.consumed then some (c.event .startErr)
    else some { c with consumed := true, calls := c.calls ++ [.startTake] }
  else none

/-- `close`, up to its exchange. -/
def close (c : Conn A) : Option (Conn A) :=
  if c.handle then
    if c.consumed then
      some ({ c with calls := c.calls ++ [Call.closeRemove c.started] }.event .closeCalled)
    else
      some ({ c with consumed := true, calls := c.calls ++ [Call.closeTake c.started] }.event .closeCalled)
  else none

/-- `inner.take().unwrap()`, then the send of the config. -/
def startTake (c : Conn A) (i : Nat) : Conn A :=
  if c.inner then
    if c.configRx then
      { c with inner := false, configSent := true, calls := c.calls.eraseIdx i }.event .startOk
    else { c with inner := false, calls := c.calls.eraseIdx i }.event .startErr
  else { c with unwrapFailed := true, calls := c.calls.eraseIdx i }

/-- `drop(inner.take().unwrap())`. -/
def closeTake (c : Conn A) (i : Nat) (late : Bool) : Conn A :=
  if c.inner then { c with inner := false, calls := c.calls.set i (.closeRemove late) }
  else { c with unwrapFailed := true, calls := c.calls.eraseIdx i }

/-- The next step of a call in progress. -/
def user (c : Conn A) (i : Nat) : Option (Conn A) :=
  match c.calls[i]? with
  | some .startTake => some (c.startTake i)
  | some (.closeTake late) => some (c.closeTake i late)
  | some (.closeRemove late) =>
    some ({ c with calls := c.calls.eraseIdx i }.event (.closeReturned late))
  | none => none

/-! ### All of it -/

/-- The reader runs. -/
def readerStep (c : Conn A) (a : TaskAct) : Option (Conn A) :=
  match a with
  | .msg => (c.reader.step .msg).map fun reader => { c with reader }.event .msg
  | a => (c.reader.step a).map fun reader => { c with reader }

/-- The writer runs; it makes no call of `on_msg`. -/
def writerStep (c : Conn A) (a : TaskAct) : Option (Conn A) :=
  if a = .msg then none else (c.writer.step a).map fun writer => { c with writer }

def step (c : Conn A) : ConnAct A → Option (Conn A)
  | .connect => if c.pc = .unborn then some (c.goto .connecting) else none
  | .connected key => if c.pc = .connecting then some (c.handleConnection key false) else none
  | .connectFails =>
    if c.pc = .connecting then some ((c.goto .inConnectError).event .connectError) else none
  | .accept key => if c.pc = .unborn then some (c.handleConnection key true) else none
  | .task => c.taskStep
  | .returns ok => c.returnsStep ok
  | .joinStop => c.joinStop
  | .joinWriter => c.joinWriter
  | .joinReader => c.joinReader
  | .reader a => c.readerStep a
  | .writer a => c.writerStep a
  | .start => c.start
  | .close => c.close
  | .user i => c.user i
  | .dropHandle =>
    if c.handle ∧ c.calls = [] then some { c with handle := false, inner := false } else none
  | .dropStopper => some c.dropStopper

/-- One connection in an environment that may drop its stopper at any time. -/
def machine (A : Type) : Machine (Conn A) (ConnAct A) := ⟨unborn, step⟩

end Conn

end SocketManager.Manager
