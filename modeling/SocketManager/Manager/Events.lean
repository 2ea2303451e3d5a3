import SocketManager.Manager.Protocol
import SocketManager.Manager.Steps

/-! The events of every connection of the manager, and when it is open. -/

namespace SocketManager.Manager
variable {A : Type} {c c' : Conn A}

/-! ### The event protocol -/

theorem Pc.Events.isPrefix {pc : Pc} {events : List Event} (h : pc.Events events) :
    events = [.connectError] ∨ events <+: [.connect, .connectionClose] ∨
      events <+: [.connect, .remoteClose, .connectionClose] := by
  cases pc with
  | inConnectError | failed => exact .inl h
  | unborn | connecting | onConnect =>
    obtain rfl : events = [] := h
    exact .inr (.inl List.nil_prefix)
  | inOnConnect | awaitConfig | spawnWriter | spawnReader | insert =>
    obtain rfl : events = [.connect] := h
    exact .inr (.inl ⟨[.connectionClose], rfl⟩)
  | join ws rs =>
    cases rs with
    | false =>
      obtain rfl : events = [.connect] := h
      exact .inr (.inl ⟨[.connectionClose], rfl⟩)
    | true =>
      obtain rfl : events = [.connect, .remoteClose] := h
      exact .inr (.inr ⟨[.connectionClose], rfl⟩)
  | inRemoteClose ws =>
    obtain rfl : events = [.connect, .remoteClose] := h
    exact .inr (.inr ⟨[.connectionClose], rfl⟩)
  | remove | closing =>
    rcases h with rfl | rfl
    · exact .inr (.inl ⟨[.connectionClose], rfl⟩)
    · exact .inr (.inr ⟨[.connectionClose], rfl⟩)
  | inClose | done =>
    rcases h with rfl | rfl
    · exact .inr (.inl List.prefix_rfl)
    · exact .inr (.inr List.prefix_rfl)
  | panicked => exact h.elim

/-- A connection whose close was announced is at the end of its task. -/
theorem Pc.Events.closed {pc : Pc} {events : List Event} (h : pc.Events events)
    (hc : .connectionClose ∈ events) : pc = .inClose ∨ pc = .done := by
  cases pc with
  | inClose => exact .inl rfl
  | done => exact .inr rfl
  | panicked => exact h.elim
  | remove | closing => rcases h with rfl | rfl <;> simp at hc
  | join ws rs => cases rs <;> (simp only [Pc.Events] at h; simp [h] at hc)
  | _ => simp only [Pc.Events] at h; simp [h] at hc

theorem ConnInv.accepted_events (h : ConnInv c) (ha : c.accepted = true) :
    callbacks c.log ≠ [.connectError] := by
  intro heq
  have he := h.events
  obtain ⟨-, -, hp1, hp2⟩ := h.accepted ha
  cases hp : c.pc with
  | inConnectError => exact hp1 hp
  | failed => exact hp2 hp
  | join ws rs => rw [hp, heq] at he; cases rs <;> simp [Pc.Events] at he
  | _ => rw [hp, heq] at he; simp [Pc.Events] at he

theorem mem_callbacks {log : List Event} {e : Event} (he : e.onConn = true) :
    e ∈ callbacks log ↔ e ∈ log := by
  simp [callbacks, he]

/-- After `OnConnectionClose` both tasks are settled. -/
theorem ConnInv.settled (h : ConnInv c) (hc : .connectionClose ∈ c.log) :
    c.writer.Settled ∧ c.reader.Settled := by
  have ht := h.tasks
  rcases h.events.closed ((mem_callbacks rfl).mpr hc) with hp | hp <;> rw [hp] at ht <;> exact ht

/-- The event protocol of every connection: its events are a prefix of one of the allowed sequences
    and the whole of it once its tasks have completed; `on_msg` is called only after `OnConnect`
    returned `Ok` and `start_connection` succeeded, and not after `OnRemoteClose`, which needs a
    reader that returned `Ok`; no join handle is polled after completion; and when
    `OnConnectionClose` is invoked each task that was spawned has ended or is being aborted. -/
theorem connection_protocol (A : Type) [DecidableEq A] (s : State A) (hr : (machine A).Reach s)
    (i : Nat) :
    (callbacks (s.conns i).log <+: [.connectError] ∧ (s.conns i).accepted = false ∨
      callbacks (s.conns i).log <+: [.connect, .connectionClose] ∨
      callbacks (s.conns i).log <+: [.connect, .remoteClose, .connectionClose]) ∧
    ((s.conns i).pc = .failed ∨ (s.conns i).pc = .done →
      callbacks (s.conns i).log = [.connectError] ∧ (s.conns i).accepted = false ∨
      callbacks (s.conns i).log = [.connect, .connectionClose] ∨
      callbacks (s.conns i).log = [.connect, .remoteClose, .connectionClose]) ∧
    (∀ pre post, (s.conns i).log = pre ++ .msg :: post →
      .connectReturned true ∈ pre ∧ .startOk ∈ pre ∧ .remoteClose ∉ pre) ∧
    (.remoteClose ∈ (s.conns i).log → (s.conns i).reader.st = .finished .ok) ∧
    (s.conns i).pc ≠ .panicked ∧
    (.connectionClose ∈ (s.conns i).log →
      (s.conns i).writer.Settled ∧ (s.conns i).reader.Settled) := by
  have h := reach_connInv (reach_conn hr i)
  have herr : callbacks (s.conns i).log = [.connectError] → (s.conns i).accepted = false := by
    intro heq
    cases ha : (s.conns i).accepted with
    | false => rfl
    | true => exact absurd heq (h.accepted_events ha)
  refine ⟨?_, ?_, h.msg, h.remote, ?_, h.settled⟩
  · rcases h.events.isPrefix with heq | hpre | hpre
    · exact .inl ⟨by rw [heq], herr heq⟩
    · exact .inr (.inl hpre)
    · exact .inr (.inr hpre)
  · have he := h.events
    rintro (hp | hp) <;> rw [hp] at he
    · exact .inl ⟨he, herr he⟩
    · exact .inr he
  · intro hp
    have he := h.events
    rw [hp] at he; exact he

/-- `Connect` is handled, `OnConnect` starts connection `i`, and its task reaches the join loop. -/
def openConn (i : Nat) (key : A × A) : List (Act A) :=
  [.connect, .connected i key, .conn i .task, .conn i .start, .conn i (.user 0),
    .conn i (.returns true), .conn i .task, .conn i .task, .conn i .task, .conn i .task]

/-- The remote closes after one message; then the sender is dropped and the writer ends. -/
theorem connection_protocol_remoteClose : ∃ s : State Nat, (machine Nat).Reach s ∧
    (s.conns 0).pc = .done ∧ .msg ∈ (s.conns 0).log ∧
    callbacks (s.conns 0).log = [.connect, .remoteClose, .connectionClose] ∧
    (s.conns 0).pc ≠ .panicked ∧ (s.conns 0).writer.Settled ∧ (s.conns 0).reader.Settled := by
  obtain ⟨s, hr, hs⟩ := (machine Nat).reach_of_run
    (openConn 0 (1, 2) ++ [.conn 0 (.reader .poll), .conn 0 (.reader .msg),
      .conn 0 (.reader .msgReturns), .conn 0 (.reader (.finish .ok)), .conn 0 .joinReader,
      .conn 0 (.returns true), .conn 0 (.writer .poll), .conn 0 (.writer (.finish .ok)),
      .conn 0 .joinWriter, .conn 0 .task, .conn 0 .task, .conn 0 (.returns true)])
    (fun s => decide ((s.conns 0).pc = .done ∧ .msg ∈ (s.conns 0).log ∧
      callbacks (s.conns 0).log = [.connect, .remoteClose, .connectionClose]))
    (by decide +kernel)
  obtain ⟨hpc, hmsg, hcb⟩ := of_decide_eq_true hs
  obtain ⟨-, -, -, -, hjoin, hsettled⟩ := connection_protocol Nat s hr 0
  have hclose : Event.connectionClose ∈ (s.conns 0).log := (mem_callbacks rfl).mp (by simp [hcb])
  exact ⟨s, hr, hpc, hmsg, hcb, hjoin, hsettled hclose⟩

/-! ### Open connections -/

/-- `OnConnect` was handled, `OnConnectionClose` was not. -/
def IsOpen (c : Conn A) : Prop := .connect ∈ c.log ∧ .connectionClose ∉ c.log

instance : Decidable (IsOpen c) := inferInstanceAs (Decidable (_ ∧ _))

/-- The connection task is between the two events. -/
def Pc.opened : Pc → Bool
  | .unborn | .connecting | .inConnectError | .failed | .onConnect | .inClose | .done => false
  | _ => true

theorem isOpen_iff (h : ConnInv c) : IsOpen c ↔ c.pc.opened = true := by
  have he := h.events
  unfold IsOpen
  rw [← mem_callbacks (e := .connect) rfl, ← mem_callbacks (e := .connectionClose) rfl]
  cases hp : c.pc with
  | join ws rs =>
    rw [hp] at he
    cases rs <;> (simp only [Pc.Events] at he; simp [he, Pc.opened])
  | remove | closing | inClose | done =>
    rw [hp] at he
    rcases he with he | he <;> simp [he, Pc.opened]
  | panicked => rw [hp] at he; exact he.elim
  | _ =>
    rw [hp] at he
    simp only [Pc.Events] at he
    simp [he, Pc.opened]

end SocketManager.Manager
