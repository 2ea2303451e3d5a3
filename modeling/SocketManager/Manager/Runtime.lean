import SocketManager.Manager.Accept

/-! The background thread of `SocketManager::init` (lib.rs) and the runtime it drives. The thread runs
    `main` under `block_on`, then shuts the runtime down, then ends:

        blockOn ── main returns ──▶ shutdown ──▶ stopped
                 └─ or panics ────┘

    What tokio does with the tasks depends on the phase. Under `block_on` every task is polled again
    and again; a poll runs until the task awaits something (`park`) or ends. Once the runtime is
    being shut down no poll begins; a poll that is under way on another worker runs to its next
    await, and there the task is dropped. The current-thread runtime has no other worker: it polls
    one task at a time, between the polls of `main`, and none after `block_on` has returned; and
    from the receipt of `Abort` to its end `main` is in one poll.

    Which poll of the connecting task and the connection task is under way is `polling`; a reader or
    writer task has its own record of that. The steps of the listening tasks and of the users are
    taken as they come: a listening task only begins connections whose task is polled later. What
    the values of a dropped task do when they are dropped is not followed. -/

namespace SocketManager.Manager

/-! ### The model -/

/-- The kind of runtime that `start_runtime` builds. -/
inductive Flavour where
  | currentThread
  | multiThread
  deriving DecidableEq

def maxWorkerThreads : Nat := 256

/-- `start_runtime` -/
def startRuntime (nThreads : Nat) : Flavour :=
  match min nThreads maxWorkerThreads with
  | 0 => .multiThread
  | 1 => .currentThread
  | _ => .multiThread

inductive Phase where
  /-- In `runtime.block_on(main(..))`. -/
  | blockOn
  /-- In `runtime.shutdown_timeout(..)`. -/
  | shutdown
  /-- The thread has ended. -/
  | stopped
  deriving DecidableEq

variable (A : Type)

inductive Command where
  | listen (addr : A)
  | connect (addr : A) (delay : Nat)
  | cancelListen (addr : A)
  | abort
  deriving DecidableEq

structure Runtime where
  manager : State A
  /-- The commands that `main` has not received. -/
  queue : List (Command A)
  /-- The connecting task or the connection task is in the middle of a poll. -/
  polling : Nat → Bool
  phase : Phase
  /-- `main` panicked. -/
  panicked : Bool

/-- What happens next in the background. -/
inductive RuntimeAct where
  /-- `main` receives a command and handles it. -/
  | recv
  /-- The second half of `stop_all`. -/
  | clear
  /-- `main` returns, or panics. -/
  | blockOnEnds (panicked : Bool)
  /-- A poll of the connecting task or the connection task begins. -/
  | poll (i : Nat)
  /-- The poll ends at an await. -/
  | park (i : Nat)
  /-- A task or a user takes a step. -/
  | task (a : Act A)
  /-- The shutdown drops the reader or the writer. -/
  | dropReader (i : Nat)
  | dropWriter (i : Nat)
  /-- `shutdown_timeout` returns and the thread ends. -/
  | stop
  deriving DecidableEq

variable {A}

/-- What `main` does with a command. -/
def Command.act : Command A → Act A
  | .listen addr => .listen addr
  | .connect _ _ => .connect
  | .cancelListen addr => .cancelListen addr
  | .abort => .abort

/-- Where the task may be dropped or polled: at an await, or before its first poll. -/
def Pc.atRest : Pc → Bool
  | .connecting | .onConnect | .awaitConfig | .join _ _ => true
  | _ => false

def Pc.ended : Pc → Bool
  | .failed | .done => true
  | _ => false

namespace Runtime
variable [DecidableEq A]

/-- Nothing that belongs to a connection is being polled. -/
def idle (s : Runtime A) : Bool :=
  (List.range s.manager.fresh).all fun i =>
    !s.polling i && !(s.manager.conns i).reader.busy && !(s.manager.conns i).writer.busy

/-- `main` may be polled. -/
def mainPolls (fl : Flavour) (s : Runtime A) : Bool :=
  decide (s.phase = .blockOn) && (decide (fl = .multiThread) || s.idle)

/-- A poll of a task may begin. `main` does not await anything once it has received `Abort`. -/
def polls (fl : Flavour) (s : Runtime A) : Bool :=
  s.mainPolls fl && (decide (fl = .multiThread) || decide (s.manager.main = .running))

/-- A poll that is under way may go on. -/
def runs (fl : Flavour) (s : Runtime A) : Bool :=
  match fl with
  | .multiThread => decide (s.phase ≠ .stopped)
  | .currentThread => decide (s.phase = .blockOn ∧ s.manager.main = .running)

/-- Who may take a step of the manager that is not a step of `main`. -/
def allows (fl : Flavour) (s : Runtime A) : Act A → Bool
  | .conn i b =>
    match b with
    | .start | .close | .user _ | .dropHandle => true
    | .reader .poll | .writer .poll => s.polls fl
    | .reader _ | .writer _ => s.runs fl
    | _ => s.runs fl && s.polling i
  | .connected i _ => s.runs fl && s.polling i
  | .connect | .listen _ | .cancelListen _ | .abort | .clearConnections => false
  | _ => s.runs fl

/-- Which polls are still under way: `handle_connection` spawns a task that was not polled yet, and a
    task that ended is not being polled. -/
def unpoll (s : Runtime A) (m : State A) : Act A → Nat → Bool
  | .connected i _ => Function.update s.polling i false
  | .accept _ _ => Function.update s.polling s.manager.fresh false
  | .conn i (.returns _) =>
    Function.update s.polling i (s.polling i && !(m.conns i).pc.ended)
  | _ => s.polling

/-- A task of connection `i` is dropped before it ended. -/
def dropTask (s : Runtime A) (i : Nat) (half : TaskAct → ConnAct A) : Option (Runtime A) :=
  if s.phase = .shutdown then
    ((s.manager.step (.conn i (half .poll))).bind fun m =>
      m.step (.conn i (half (.finish .joinErr)))).map fun manager => { s with manager }
  else none

def step (fl : Flavour) (s : Runtime A) : RuntimeAct A → Option (Runtime A)
  | .recv =>
    match s.queue with
    | cmd :: queue =>
      if s.mainPolls fl then
        (s.manager.step cmd.act).map fun manager =>
          { s with
            manager
            queue
            polling := match cmd with
              | .connect _ _ => Function.update s.polling s.manager.fresh false
              | _ => s.polling }
      else none
    | [] => none
  | .clear =>
    if s.mainPolls fl then
      (s.manager.step .clearConnections).map fun manager => { s with manager }
    else none
  | .blockOnEnds panicked =>
    if s.mainPolls fl ∧ (panicked = true ∨ s.manager.main = .returned) then
      some { s with phase := .shutdown, panicked }
    else none
  | .poll i =>
    if s.polls fl ∧ s.polling i = false ∧ (s.manager.conns i).pc.atRest then
      some { s with polling := Function.update s.polling i true }
    else none
  | .park i =>
    if s.runs fl ∧ s.polling i ∧ (s.manager.conns i).pc.atRest ∧
        (s.manager.conns i).pc ≠ .onConnect then
      some { s with polling := Function.update s.polling i false }
    else none
  | .task a =>
    if s.allows fl a then
      (s.manager.step a).map fun manager => { s with manager, polling := s.unpoll manager a }
    else none
  | .dropReader i => s.dropTask i .reader
  | .dropWriter i => s.dropTask i .writer
  | .stop => if s.phase = .shutdown then some { s with phase := .stopped } else none

def init : Runtime A := ⟨State.init, [], fun _ => false, .blockOn, false⟩

/-- The receiver of the commands is alive. -/
def cmdRecv (s : Runtime A) : Bool :=
  decide (s.phase = .blockOn ∧ s.manager.main ≠ .returned)

/-! ### Its steps -/

variable {fl : Flavour} {s s' : Runtime A} {a : RuntimeAct A}

theorem dropTask_path {i : Nat} {half : TaskAct → ConnAct A} (h : s.dropTask i half = some s') :
    s.phase = .shutdown ∧ s'.phase = s.phase ∧ s'.polling = s.polling ∧ ∃ m,
      s.manager.step (.conn i (half .poll)) = some m ∧
      m.step (.conn i (half (.finish .joinErr))) = some s'.manager := by
  unfold dropTask at h
  split at h
  · rename_i hp
    obtain ⟨m', hm', rfl⟩ := Option.map_eq_some_iff.mp h
    obtain ⟨m, hm, hfin⟩ := Option.bind_eq_some_iff.mp hm'
    exact ⟨hp, rfl, rfl, m, hm, hfin⟩
  · cases h

/-- Who is polled when `main` has received a command: not the task that it spawned. -/
def received (s : Runtime A) : Command A → Nat → Bool
  | .connect _ _ => Function.update s.polling s.manager.fresh false
  | _ => s.polling

/-- What a step in the background can do, with its guard. -/
inductive Move (fl : Flavour) (s : Runtime A) : RuntimeAct A → Runtime A → Prop where
  | recv {cmd queue manager} (hq : s.queue = cmd :: queue) (hp : s.mainPolls fl = true)
      (hm : s.manager.step cmd.act = some manager) :
      Move fl s .recv { s with manager, queue, polling := s.received cmd }
  | clear {manager} (hp : s.mainPolls fl = true)
      (hm : s.manager.step .clearConnections = some manager) : Move fl s .clear { s with manager }
  | blockOnEnds {panicked} (hp : s.mainPolls fl = true)
      (hend : panicked = true ∨ s.manager.main = .returned) :
      Move fl s (.blockOnEnds panicked) { s with phase := .shutdown, panicked }
  | poll {i} (hp : s.polls fl = true) (hi : s.polling i = false)
      (hr : (s.manager.conns i).pc.atRest = true) :
      Move fl s (.poll i) { s with polling := Function.update s.polling i true }
  | park {i} (hp : s.runs fl = true) (hi : s.polling i = true)
      (hr : (s.manager.conns i).pc.atRest = true) (hne : (s.manager.conns i).pc ≠ .onConnect) :
      Move fl s (.park i) { s with polling := Function.update s.polling i false }
  | task {a manager} (ha : s.allows fl a = true) (hm : s.manager.step a = some manager) :
      Move fl s (.task a) { s with manager, polling := s.unpoll manager a }
  | dropReader {i s'} (hd : s.dropTask i .reader = some s') : Move fl s (.dropReader i) s'
  | dropWriter {i s'} (hd : s.dropTask i .writer = some s') : Move fl s (.dropWriter i) s'
  | stop (hp : s.phase = .shutdown) : Move fl s .stop { s with phase := .stopped }

theorem step_cases (h : s.step fl a = some s') : s.Move fl a s' := by
  cases a with
  | recv =>
    simp only [step] at h
    split at h
    · rename_i hq
      simp only [Option.ite_none_right_eq_some] at h
      obtain ⟨hp, h⟩ := h
      obtain ⟨m, hm, rfl⟩ := Option.map_eq_some_iff.mp h
      exact .recv hq hp hm
    · cases h
  | clear =>
    simp only [step, Option.ite_none_right_eq_some] at h
    obtain ⟨hp, h⟩ := h
    obtain ⟨m, hm, rfl⟩ := Option.map_eq_some_iff.mp h
    exact .clear hp hm
  | task a =>
    simp only [step, Option.ite_none_right_eq_some] at h
    obtain ⟨ha, h⟩ := h
    obtain ⟨m, hm, rfl⟩ := Option.map_eq_some_iff.mp h
    exact .task ha hm
  | blockOnEnds p =>
    simp only [step, Option.ite_none_right_eq_some] at h
    obtain ⟨⟨hp, hend⟩, h⟩ := h
    obtain rfl := Option.some.inj h; exact .blockOnEnds hp hend
  | poll i =>
    simp only [step, Option.ite_none_right_eq_some] at h
    obtain ⟨⟨hp, hi, hr⟩, h⟩ := h
    obtain rfl := Option.some.inj h; exact .poll hp hi hr
  | park i =>
    simp only [step, Option.ite_none_right_eq_some] at h
    obtain ⟨⟨hp, hi, hr, hne⟩, h⟩ := h
    obtain rfl := Option.some.inj h; exact .park hp hi hr hne
  | stop =>
    simp only [step, Option.ite_none_right_eq_some] at h
    obtain ⟨hp, h⟩ := h
    obtain rfl := Option.some.inj h; exact .stop hp
  | dropReader i => exact .dropReader h
  | dropWriter i => exact .dropWriter h

theorem path_step {m m' : State A} {a : Act A} (h : m.step a = some m') :
    (Manager.machine A).Path (fun _ _ => True) m m' :=
  .single (a := a) trivial h

/-- A step in the background is at most two steps of the manager. -/
theorem step_manager (h : s.step fl a = some s') :
    (Manager.machine A).Path (fun _ _ => True) s.manager s'.manager := by
  cases step_cases h with
  | recv _ _ hm | clear _ hm | task _ hm => exact path_step hm
  | blockOnEnds | poll | park | stop => exact .refl
  | dropReader hd | dropWriter hd =>
    obtain ⟨-, -, -, m, hm, hfin⟩ := dropTask_path hd
    exact (path_step hm).trans (path_step hfin)

omit [DecidableEq A] in
theorem phase_of_mainPolls (h : s.mainPolls fl = true) : s.phase = .blockOn := by
  simp only [mainPolls, Bool.and_eq_true, decide_eq_true_eq] at h
  exact h.1

/-- The phases come in order. -/
theorem step_phase (h : s.step fl a = some s') :
    s'.phase = s.phase ∨
      (∃ p, a = .blockOnEnds p) ∧ s.phase = .blockOn ∧ s'.phase = .shutdown ∨
      a = .stop ∧ s.phase = .shutdown ∧ s'.phase = .stopped := by
  cases step_cases h with
  | recv | clear | task | poll | park => exact .inl rfl
  | blockOnEnds hp => exact .inr (.inl ⟨⟨_, rfl⟩, phase_of_mainPolls hp, rfl⟩)
  | stop hp => exact .inr (.inr ⟨rfl, hp, rfl⟩)
  | dropReader hd | dropWriter hd => exact .inl (dropTask_path hd).2.1

theorem step_stopped (h : s.step fl a = some s') (hp : s.phase = .stopped) : s'.phase = .stopped := by
  rcases step_phase h with heq | ⟨-, hb, -⟩ | ⟨-, hb, -⟩
  · rw [heq]; exact hp
  · rw [hp] at hb; cases hb
  · rw [hp] at hb; cases hb

end Runtime

end SocketManager.Manager
