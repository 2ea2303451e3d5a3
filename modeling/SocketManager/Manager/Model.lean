import SocketManager.Manager.Conn

/-! The socket manager (lib.rs): the command loop `main`, the listening tasks, any number of
    connections, and the two registries of `ConnectionState` that join them.

    A registry maps an address (or a pair of addresses) to the receiver of a oneshot channel; the
    receiver is here the number of the task that holds its sender. Removing or replacing an entry
    drops the receiver, which is the stop signal of that task. Each access to a registry is one
    step, and so is each command: the commands reach `main` through a channel, in the order they are
    issued, so any order of commands can be the order in which they are handled.

    The operating system gives a pair of addresses to a new stream only when no open stream has it.

    `cancelled`, `stopAllRan` and `removedOther` are not part of the program: they record what has
    happened, for the statements about it. -/

namespace SocketManager.Manager

/-- Where a listening task is. -/
inductive ListenPc where
  | unborn
  /-- Awaiting `TcpListener::bind`. -/
  | binding
  /-- In the callback with `OnListenError`. -/
  | inListenError
  | failed
  /-- Bound, about to insert its cancel handle. -/
  | insert
  /-- In the `select!` of `accept_connections`. An error of `accept` does not match the pattern of its
      branch and disables the branch for the rest of this `select!`. -/
  | accepting (acceptDisabled : Bool)
  /-- Cancelled; the listener is dropped. -/
  | done
  deriving DecidableEq

variable (A : Type)

/-- A listening task. -/
structure Listening where
  addr : Option A
  pc : ListenPc
  /-- The cancel handle was dropped: `canceled.closed()` completes. -/
  cancelDropped : Bool
  deriving DecidableEq

inductive MainPc where
  | running
  /-- In `stop_all`, the listeners are cleared. -/
  | stopAll
  | returned
  deriving DecidableEq

/-- The whole manager. -/
structure State where
  conns : Nat → Conn A
  /-- How many connections have begun. -/
  fresh : Nat
  listening : Nat → Listening A
  /-- How many listening tasks were spawned. -/
  freshListening : Nat
  connections : A × A → Option Nat
  listeners : A → Option Nat
  main : MainPc
  /-- The last command for an address was a `CancelListen`. -/
  cancelled : A → Bool
  stopAllRan : Bool
  /-- The cleanup of a connection removed the stopper of another one. -/
  removedOther : Bool

/-- What happens next. -/
inductive Act where
  /-- `main` handles a command. -/
  | connect
  | listen (addr : A)
  | cancelListen (addr : A)
  | abort
  /-- The second half of `stop_all`. -/
  | clearConnections
  /-- The connecting task of a connection succeeds. -/
  | connected (i : Nat) (key : A × A)
  | bindOk (t : Nat)
  | bindFails (t : Nat)
  /-- The callback with `OnListenError` returns. -/
  | listenErrorReturned (t : Nat)
  /-- A listening task inserts its cancel handle. -/
  | insertListener (t : Nat)
  /-- `accept` gives a stream with its addresses. -/
  | accept (t : Nat) (key : A × A)
  /-- `accept` gives a stream whose addresses cannot be read. -/
  | acceptNoAddr (t : Nat)
  | acceptFails (t : Nat)
  /-- `canceled.closed()` completes. -/
  | canceled (t : Nat)
  /-- Connection `i` takes a step of its own. -/
  | conn (i : Nat) (a : ConnAct A)
  deriving DecidableEq

variable {A}

/-- The registry access of a step of a connection. -/
inductive RegOp where
  | none
  | insert
  /-- The removal by the connection task. -/
  | cleanup
  /-- The removal by `close`. -/
  | close
  deriving DecidableEq

namespace Conn

def regOp (c : Conn A) : ConnAct A → RegOp
  | .task =>
    match c.pc with
    | .insert => .insert
    | .remove => .cleanup
    | _ => .none
  | .user i =>
    match c.calls[i]? with
    | some (.closeRemove _) => .close
    | _ => .none
  | _ => .none

/-- The stream, or one of its halves, is alive. -/
def socketOpen (c : Conn A) : Bool :=
  match c.pc, c.writer.st, c.reader.st with
  | .unborn, _, _ | .connecting, _, _ | .inConnectError, _, _ | .failed, _, _ => false
  | _, .finished _, .finished _ => false
  | .done, .notSpawned, _ => false
  | _, _, _ => true

end Conn

/-- Steps a connection takes by itself; the others are part of a step of the manager. -/
def ConnAct.own : ConnAct A → Bool
  | .connect | .connected _ | .accept _ | .dropStopper => false
  | _ => true

namespace State
variable [DecidableEq A]

@[simps]
def setConn (s : State A) (i : Nat) (c : Conn A) : State A :=
  { s with conns := Function.update s.conns i c }

@[simps]
def setListening (s : State A) (t : Nat) (l : Listening A) : State A :=
  { s with listening := Function.update s.listening t l }

/-- A connection begins. -/
@[simps]
def addConn (s : State A) (c : Conn A) : State A :=
  { s with conns := Function.update s.conns s.fresh c, fresh := s.fresh + 1 }

/-- No open stream has this pair of addresses. -/
def keyFree (s : State A) (key : A × A) : Bool :=
  (List.range s.fresh).all fun i => !((s.conns i).key == some key && (s.conns i).socketOpen)

/-- Remove an entry of `connections`, dropping the stopper it holds. -/
@[simps]
def remove (s : State A) (key : A × A) : State A where
  conns := fun i => if s.connections key = some i then (s.conns i).dropStopper else s.conns i
  fresh := s.fresh
  listening := s.listening
  freshListening := s.freshListening
  connections := Function.update s.connections key none
  listeners := s.listeners
  main := s.main
  cancelled := s.cancelled
  stopAllRan := s.stopAllRan
  removedOther := s.removedOther

/-- Insert the stopper of connection `i`, dropping the one it replaces. -/
@[simps]
def insert (s : State A) (key : A × A) (i : Nat) : State A :=
  { s.remove key with connections := Function.update s.connections key (some i) }

/-- The cleanup of connection `i`. -/
@[simps]
def cleanup (s : State A) (key : A × A) (i : Nat) : State A :=
  { s.remove key with
    removedOther := s.removedOther || decide (s.connections key ≠ none ∧ s.connections key ≠ some i) }

/-- The access to `connections` that a step of connection `i` makes. -/
def access (s : State A) (i : Nat) (key : Option (A × A)) (op : RegOp) : State A :=
  match op, key with
  | .insert, some key => s.insert key i
  | .cleanup, some key => s.cleanup key i
  | .close, some key => s.remove key
  | _, _ => s

/-- Connection `i` takes a step. -/
def connStep (s : State A) (i : Nat) (a : ConnAct A) : Option (State A) :=
  ((s.conns i).step a).map fun c => (s.setConn i c).access i (s.conns i).key ((s.conns i).regOp a)

/-- Remove an entry of `listeners`, dropping the cancel handle it holds. -/
def removeListener (s : State A) (addr : A) : State A :=
  match s.listeners addr with
  | some t =>
    { s with
      listening := Function.update s.listening t { s.listening t with cancelDropped := true }
      listeners := Function.update s.listeners addr none }
  | none => s

/-- `listeners.insert(addr, cancel)`, then into the accept loop. -/
def insertListener (s : State A) (t : Nat) (addr : A) : State A :=
  let s' := s.removeListener addr
  { s' with
    listening := Function.update s'.listening t { s'.listening t with pc := .accepting false }
    listeners := Function.update s'.listeners addr (some t) }

/-- `listeners.clear()`. -/
def clearListeners (s : State A) : State A :=
  { s with
    listening := fun t =>
      if (s.listening t).addr.bind s.listeners = some t then
        { s.listening t with cancelDropped := true }
      else s.listening t
    listeners := fun _ => none
    main := .stopAll
    stopAllRan := true }

/-- `connections.clear()`. -/
@[simps]
def clearConnections (s : State A) : State A where
  conns := fun i =>
    if (s.conns i).key.bind s.connections = some i then (s.conns i).dropStopper else s.conns i
  fresh := s.fresh
  listening := s.listening
  freshListening := s.freshListening
  connections := fun _ => none
  listeners := s.listeners
  main := .returned
  cancelled := s.cancelled
  stopAllRan := true
  removedOther := s.removedOther

/-- A listening task is at `pc` and goes on to `pc'`. -/
def listenGoto (s : State A) (t : Nat) (pc pc' : ListenPc) : Option (State A) :=
  if (s.listening t).pc = pc then some (s.setListening t { s.listening t with pc := pc' }) else none

/-- `main` handles `Listen`: spawn the listening task. -/
def listen (s : State A) (addr : A) : State A :=
  { s with
    listening := Function.update s.listening s.freshListening ⟨some addr, .binding, false⟩
    freshListening := s.freshListening + 1
    cancelled := Function.update s.cancelled addr false }

/-- `main` handles `CancelListen`. -/
def cancelListen (s : State A) (addr : A) : State A :=
  let s' := s.removeListener addr
  { s' with cancelled := Function.update s'.cancelled addr true }

/-- One step of the manager, of its tasks or of its users. -/
def step (s : State A) : Act A → Option (State A)
  | .connect =>
    if s.main = .running then ((s.conns s.fresh).step .connect).map s.addConn else none
  | .listen addr => if s.main = .running then some (s.listen addr) else none
  | .cancelListen addr => if s.main = .running then some (s.cancelListen addr) else none
  | .abort => if s.main = .running then some s.clearListeners else none
  | .clearConnections => if s.main = .stopAll then some s.clearConnections else none
  | .connected i key =>
    if s.keyFree key then ((s.conns i).step (.connected key)).map (s.setConn i) else none
  | .bindOk t => s.listenGoto t .binding .insert
  | .bindFails t => s.listenGoto t .binding .inListenError
  | .listenErrorReturned t => s.listenGoto t .inListenError .failed
  | .insertListener t =>
    match (s.listening t).pc, (s.listening t).addr with
    | .insert, some addr => some (s.insertListener t addr)
    | _, _ => none
  | .accept t key =>
    if (s.listening t).pc = .accepting false ∧ s.keyFree key then
      ((s.conns s.fresh).step (.accept key)).map s.addConn
    else none
  | .acceptNoAddr t => s.listenGoto t (.accepting false) (.accepting false)
  | .acceptFails t => s.listenGoto t (.accepting false) (.accepting true)
  | .canceled t =>
    match (s.listening t).pc with
    | .accepting _ =>
      if (s.listening t).cancelDropped then
        some (s.setListening t { s.listening t with pc := .done })
      else none
    | _ => none
  | .conn i a => if a.own then s.connStep i a else none

/-- `SocketManager::init`. -/
def init : State A where
  conns := fun _ => Conn.unborn
  fresh := 0
  listening := fun _ => ⟨none, .unborn, false⟩
  freshListening := 0
  connections := fun _ => none
  listeners := fun _ => none
  main := .running
  cancelled := fun _ => false
  stopAllRan := false
  removedOther := false

end State

/-- The manager over addresses `A`. -/
def machine (A : Type) [DecidableEq A] : Machine (State A) (Act A) := ⟨State.init, State.step⟩

end SocketManager.Manager
