import SocketManager.Lib.Log
import SocketManager.Manager.ConnSteps

/-! The event protocol of one connection, in any environment. The events delivered to `on_conn` are
    determined by where the connection task is, up to one choice (whether the remote closed first);
    the join handles and abort flags are what the guards of the `select!` say they are. -/

namespace SocketManager.Manager
variable {A : Type} {c c' : Conn A} {b : ConnAct A}

/-! ### Tasks -/

namespace Task

/-- The task was never spawned, or it has ended, or its abort was requested. -/
def Settled (t : Task) : Prop :=
  t.st = .notSpawned ∨ (∃ res, t.st = .finished res) ∨ t.aborted = true

/-- The task is in the middle of a poll. -/
def busy (t : Task) : Bool := decide (t.st = .polling ∨ t.st = .inMsg)

theorem settled_unborn : unborn.Settled := .inl rfl

theorem settled_abort (t : Task) : t.abort.Settled := .inr (.inr rfl)

theorem settled_finished {t : Task} {res : JoinResult} (h : t.st = .finished res) : t.Settled :=
  .inr (.inl ⟨res, h⟩)

end Task

/-- A task that runs was spawned and has not ended; running touches neither its abort flag nor its
    handle. -/
structure TaskRuns (t t' : Task) : Prop where
  spawned : t.st ≠ .notSpawned
  running : ∀ res, t.st ≠ .finished res
  spawned' : t'.st ≠ .notSpawned
  aborted : t'.aborted = t.aborted
  taken : t'.taken = t.taken

theorem TaskMove.runs {t t' : Task} (h : TaskMove t t') : TaskRuns t t' := by
  cases h <;> (constructor <;> simp_all)

theorem Task.runs_msg {t : Task} (h : t.st = .polling) : TaskRuns t { t with st := .inMsg } := by
  constructor <;> simp_all

/-- A settled task stays settled. -/
theorem TaskRuns.settled {t t' : Task} (h : TaskRuns t t') (hs : t.Settled) : t'.Settled := by
  rcases hs with hs | ⟨res, hs⟩ | hs
  · exact absurd hs h.spawned
  · exact absurd hs (h.running res)
  · exact .inr (.inr (h.aborted.trans hs))

/-! ### The invariant -/

/-- The events of a history that were delivered to `on_conn`. -/
def callbacks (log : List Event) : List Event := log.filter Event.onConn

/-- The events delivered at each point of the connection task. -/
def Pc.Events (events : List Event) : Pc → Prop
  | .unborn | .connecting | .onConnect => events = []
  | .inConnectError | .failed => events = [.connectError]
  | .inOnConnect | .awaitConfig | .spawnWriter | .spawnReader | .insert => events = [.connect]
  | .join _ false => events = [.connect]
  | .join _ true | .inRemoteClose _ => events = [.connect, .remoteClose]
  | .remove | .closing => events = [.connect] ∨ events = [.connect, .remoteClose]
  | .inClose | .done =>
    events = [.connect, .connectionClose] ∨ events = [.connect, .remoteClose, .connectionClose]
  | .panicked => False

/-- The two tasks at each point of the connection task. -/
def Pc.Tasks (writer reader : Task) : Pc → Prop
  | .spawnReader => writer.taken = false ∧ writer.st ≠ .notSpawned ∧ reader = .unborn
  | .insert =>
    writer.taken = false ∧ reader.taken = false ∧ writer.st ≠ .notSpawned ∧ reader.st ≠ .notSpawned
  | .join ws rs =>
    writer.taken = ws ∧ reader.taken = rs ∧ writer.st ≠ .notSpawned ∧ reader.st ≠ .notSpawned ∧
      (ws = true → writer.st = .finished .ok) ∧ (rs = true → reader.st = .finished .ok)
  | .inRemoteClose ws =>
    writer.taken = ws ∧ reader.taken = true ∧ writer.st ≠ .notSpawned ∧ reader.st ≠ .notSpawned ∧
      (ws = true → writer.st = .finished .ok) ∧ reader.st = .finished .ok
  | .remove | .closing | .inClose | .done => writer.Settled ∧ reader.Settled
  | .panicked => False
  | _ => writer = .unborn ∧ reader = .unborn

/-- The callback with `OnConnect` has returned `Ok`, and the task goes on with it. -/
def Pc.returnedOk : Pc → Bool
  | .awaitConfig | .spawnWriter | .spawnReader | .insert | .join _ _ | .inRemoteClose _ => true
  | _ => false

/-- The config has arrived, and the task goes on with it. -/
def Pc.configured : Pc → Bool
  | .spawnWriter | .spawnReader | .insert | .join _ _ | .inRemoteClose _ => true
  | _ => false

/-- The invariant of one connection. -/
structure ConnInv (c : Conn A) : Prop where
  events : c.pc.Events (callbacks c.log)
  tasks : c.pc.Tasks c.writer c.reader
  accepted : c.accepted = true →
    c.pc ≠ .unborn ∧ c.pc ≠ .connecting ∧ c.pc ≠ .inConnectError ∧ c.pc ≠ .failed
  returned : c.pc.returnedOk = true → .connectReturned true ∈ c.log
  sent : c.configSent = true → .startOk ∈ c.log
  configured : c.pc.configured = true → .startOk ∈ c.log
  reader : c.reader.st ≠ .notSpawned → .connectReturned true ∈ c.log ∧ .startOk ∈ c.log
  remote : .remoteClose ∈ c.log → c.reader.st = .finished .ok
  msg : ∀ pre post, c.log = pre ++ .msg :: post →
    .connectReturned true ∈ pre ∧ .startOk ∈ pre ∧ .remoteClose ∉ pre

/-! ### Every move keeps it -/

theorem callbacks_concat (log : List Event) (e : Event) :
    callbacks (log ++ [e]) = callbacks log ++ if e.onConn then [e] else [] := by
  simp only [callbacks, List.filter_append, List.filter_cons, List.filter_nil]

theorem Conn.UserStep.frame (h : c.UserStep b c') :
    c'.pc = c.pc ∧ callbacks c'.log = callbacks c.log ∧ c'.writer = c.writer ∧
      c'.reader = c.reader ∧ c'.accepted = c.accepted := by
  cases h <;> simp [callbacks_concat, Event.onConn]

theorem mem_of_mem_concat {log : List Event} {e x : Event} (he : e ≠ x) (h : x ∈ log ++ [e]) :
    x ∈ log := by
  rcases List.mem_append.mp h with h | h
  · exact h
  · exact absurd (List.mem_singleton.mp h).symm he

/-- A move logs nothing, or an event that is no message, or the message of a reader being polled. -/
theorem Conn.Move.log_cases (h : c.Move b c') :
    c'.log = c.log ∨ ∃ e, c'.log = c.log ++ [e] ∧ (e = .msg → c.reader.st = .polling) := by
  cases h with
  | task h => cases h <;> first | exact .inl rfl | exact .inr ⟨_, rfl, by simp⟩
  | user h => cases h <;> first | exact .inl rfl | exact .inr ⟨_, rfl, by simp⟩
  | msg hs => exact .inr ⟨_, rfl, fun _ => hs⟩
  | reader _ => exact .inl rfl
  | writer _ => exact .inl rfl

theorem Conn.Move.log_isPrefix (h : c.Move b c') : c.log <+: c'.log := by
  rcases h.log_cases with hlog | ⟨e, hlog, -⟩
  · rw [hlog]
  · rw [hlog]; exact List.prefix_append _ _

/-- Rule for what holds before every message: it carries over a move if it holds of the log of a
    reader being polled. -/
theorem Conn.Move.forall_msg {P : List Event → Prop} (h : c.Move b c')
    (hold : ∀ pre post, c.log = pre ++ .msg :: post → P pre)
    (hmsg : c.reader.st = .polling → P c.log) :
    ∀ pre post, c'.log = pre ++ .msg :: post → P pre := by
  intro pre post heq
  rcases h.log_cases with hlog | ⟨e, hlog, he⟩
  · exact hold pre post (hlog ▸ heq)
  · rw [hlog] at heq
    rcases Log.concat_split heq with ⟨rfl, rfl⟩ | ⟨post', hsplit⟩
    · exact hmsg (he rfl)
    · exact hold pre post' hsplit

/-- A task that runs keeps what is known of the two tasks. -/
theorem Pc.Tasks.runs {pc : Pc} {w r w' r' : Task} (h : pc.Tasks w r) (hw : w' = w ∨ TaskRuns w w')
    (hr : r' = r ∨ TaskRuns r r') : pc.Tasks w' r' := by
  have key : ∀ {t t' : Task}, (t' = t ∨ TaskRuns t t') →
      (t = .unborn → t' = .unborn) ∧ (t.st ≠ .notSpawned → t'.st ≠ .notSpawned) ∧
      t'.taken = t.taken ∧ (∀ res, t.st = .finished res → t'.st = .finished res) ∧
      (t.Settled → t'.Settled) := by
    rintro t t' (rfl | h)
    · exact ⟨id, id, rfl, fun _ => id, id⟩
    · exact ⟨fun ht => absurd (by rw [ht]; rfl) h.spawned, fun _ => h.spawned', h.taken,
        fun res ht => absurd ht (h.running res), h.settled⟩
  obtain ⟨wu, ws, wt, wf, wS⟩ := key hw
  obtain ⟨ru, rs, rt, rf, rS⟩ := key hr
  cases pc <;> simp only [Pc.Tasks] at h ⊢
  case spawnReader => exact ⟨wt.trans h.1, ws h.2.1, ru h.2.2⟩
  case insert => exact ⟨wt.trans h.1, rt.trans h.2.1, ws h.2.2.1, rs h.2.2.2⟩
  case join =>
    exact ⟨wt.trans h.1, rt.trans h.2.1, ws h.2.2.1, rs h.2.2.2.1, fun hs => wf _ (h.2.2.2.2.1 hs),
      fun hs => rf _ (h.2.2.2.2.2 hs)⟩
  case inRemoteClose =>
    exact ⟨wt.trans h.1, rt.trans h.2.1, ws h.2.2.1, rs h.2.2.2.1, fun hs => wf _ (h.2.2.2.2.1 hs),
      rf _ h.2.2.2.2.2⟩
  case remove | closing | inClose | done => exact ⟨wS h.1, rS h.2⟩
  all_goals exact ⟨wu h.1, ru h.2⟩

theorem ConnInv.events_move (h : ConnInv c) (hm : c.Move b c') : c'.pc.Events (callbacks c'.log) := by
  have he := h.events
  have ht := h.tasks
  have hcb := callbacks_concat c.log
  cases hm with
  | task hm =>
    cases hm with
    | connect hp | connected key hp | accept key hp | configured hp | spawnWriter hp | spawnReader hp
    | insert hp | remove hp | errorReturned hp | remoteReturned hp | closeReturned hp | writerOk hp =>
      rw [hp] at he; exact he
    | connectFails hp | onConnect hp | connectOk hp | readerOk hp =>
      rw [hp] at he
      simp only [Pc.Events] at he
      refine (hcb _).trans ?_
      rw [he]; rfl
    | unconfigured hp | readerErr hp => rw [hp] at he; exact .inl he
    | remoteReturnedLast hp | writerOkLast hp => rw [hp] at he; exact .inr he
    | connectErr hp =>
      rw [hp] at he
      simp only [Pc.Events] at he
      refine .inl ((hcb _).trans ?_)
      rw [he]; rfl
    | @joinStop ws rs hp | @writerErr rs res hp =>
      rw [hp] at he
      cases rs with
      | false => exact .inl he
      | true => exact .inr he
    | closing hp =>
      rw [hp] at he
      rcases he with he | he
      · refine .inl ((hcb _).trans ?_)
        rw [he]; rfl
      · refine .inr ((hcb _).trans ?_)
        rw [he]; rfl
    | writerPolledAgain hp hagain | readerPolledAgain hp hagain =>
      -- the guards of the `select!` mirror which handles have given their result
      simp only [hp, Pc.Tasks] at ht
      simp [hagain] at ht
  | user hm =>
    obtain ⟨hpc, hcb, -⟩ := hm.frame
    rw [hpc, hcb]; exact he
  | msg _ =>
    show c.pc.Events (callbacks (c.log ++ [.msg]))
    rw [hcb]; simpa [Event.onConn] using he
  | reader _ => exact he
  | writer _ => exact he

theorem ConnInv.tasks_move (h : ConnInv c) (hm : c.Move b c') : c'.pc.Tasks c'.writer c'.reader := by
  have ht := h.tasks
  cases hm with
  | task hm =>
    cases hm with
    | connect hp | connected key hp | accept key hp | connectFails hp | onConnect hp | configured hp
    | connectOk hp | errorReturned hp | remove hp | closing hp | closeReturned hp =>
      rw [hp] at ht; exact ht
    | unconfigured hp | connectErr hp =>
      rw [hp] at ht
      obtain ⟨hw, hr⟩ := ht
      exact ⟨hw ▸ Task.settled_unborn, hr ▸ Task.settled_unborn⟩
    | spawnWriter hp => rw [hp] at ht; exact ⟨rfl, by simp [Task.spawn], ht.2⟩
    | spawnReader hp => rw [hp] at ht; exact ⟨ht.1, rfl, ht.2.1, by simp [Task.spawn]⟩
    | insert hp =>
      rw [hp] at ht
      exact ⟨ht.1, ht.2.1, ht.2.2.1, ht.2.2.2, by simp, by simp⟩
    | remoteReturned hp =>
      rw [hp] at ht
      exact ⟨ht.1, ht.2.1, ht.2.2.1, ht.2.2.2.1, by simp, fun _ => ht.2.2.2.2.2⟩
    | remoteReturnedLast hp =>
      rw [hp] at ht
      exact ⟨Task.settled_finished (ht.2.2.2.2.1 rfl), Task.settled_finished ht.2.2.2.2.2⟩
    | joinStop hp => exact ⟨Task.settled_abort _, Task.settled_abort _⟩
    | writerOk hp _ hw =>
      rw [hp] at ht
      exact ⟨rfl, ht.2.1, ht.2.2.1, ht.2.2.2.1, fun _ => hw, by simp⟩
    | writerOkLast hp _ hw =>
      rw [hp] at ht
      exact ⟨Task.settled_finished (t := c.writer.take) hw, Task.settled_finished (ht.2.2.2.2.2 rfl)⟩
    | writerErr hp _ hw => exact ⟨Task.settled_finished (t := c.writer.take) hw, Task.settled_abort _⟩
    | readerOk hp _ hr =>
      rw [hp] at ht
      exact ⟨ht.1, rfl, ht.2.2.1, ht.2.2.2.1, ht.2.2.2.2.1, hr⟩
    | readerErr hp _ hr => exact ⟨Task.settled_abort _, Task.settled_finished (t := c.reader.take) hr⟩
    | writerPolledAgain hp hagain | readerPolledAgain hp hagain =>
      simp only [hp, Pc.Tasks] at ht
      simp [hagain] at ht
  | user hm =>
    obtain ⟨hpc, -, hw, hr, -⟩ := hm.frame
    rw [hpc, hw, hr]; exact ht
  | msg hs => exact ht.runs (.inl rfl) (.inr (Task.runs_msg hs))
  | reader hm => exact ht.runs (.inl rfl) (.inr hm.runs)
  | writer hm => exact ht.runs (.inr hm.runs) (.inl rfl)

theorem ConnInv.accepted_move (h : ConnInv c) (hm : c.Move b c') (ha : c'.accepted = true) :
    c'.pc ≠ .unborn ∧ c'.pc ≠ .connecting ∧ c'.pc ≠ .inConnectError ∧ c'.pc ≠ .failed := by
  cases hm with
  | task hm =>
    cases hm with
    | connect hp => exact absurd hp (h.accepted ha).1
    | connectFails hp => exact absurd hp (h.accepted ha).2.1
    | errorReturned hp => exact absurd hp (h.accepted ha).2.2.1
    | _ => simp
  | user hm =>
    obtain ⟨hpc, -, -, -, hacc⟩ := hm.frame
    rw [hpc]; exact h.accepted (hacc ▸ ha)
  | msg _ | reader _ | writer _ => exact h.accepted ha

/-- What the connection task has behind it. -/
theorem ConnInv.history_move (h : ConnInv c) (hm : c.Move b c') :
    (c'.pc.returnedOk = true → .connectReturned true ∈ c'.log) ∧
    (c'.configSent = true → .startOk ∈ c'.log) ∧ (c'.pc.configured = true → .startOk ∈ c'.log) := by
  have hmem : ∀ {e : Event}, e ∈ c.log → e ∈ c'.log := fun he => hm.log_isPrefix.subset he
  have hret := h.returned
  have hsent := h.sent
  have hconf := h.configured
  cases hm with
  | task hm =>
    cases hm with
    | connectOk hp =>
      refine ⟨fun _ => List.mem_append_right _ List.mem_cons_self, fun hs => hmem (hsent hs), ?_⟩
      intro hc; cases hc
    | configured hp hc =>
      rw [hp] at hret
      exact ⟨fun _ => hret rfl, hsent, fun _ => hsent hc⟩
    | spawnWriter hp | spawnReader hp | insert hp | remoteReturned hp | writerOk hp =>
      rw [hp] at hret hconf
      exact ⟨fun _ => hret rfl, hsent, fun _ => hconf rfl⟩
    | readerOk hp =>
      rw [hp] at hret hconf
      exact ⟨fun _ => hmem (hret rfl), fun hs => hmem (hsent hs), fun _ => hmem (hconf rfl)⟩
    | _ => exact ⟨(fun hc => by cases hc), fun hs => hmem (hsent hs), (fun hc => by cases hc)⟩
  | user hm =>
    obtain ⟨hpc, -⟩ := hm.frame
    rw [hpc]
    refine ⟨fun hc => hmem (hret hc), ?_, fun hc => hmem (hconf hc)⟩
    intro hs
    cases hm with
    | startOk _ _ => exact List.mem_append_right _ List.mem_cons_self
    | _ => exact hmem (hsent hs)
  | msg _ => exact ⟨fun hc => hmem (hret hc), fun hs => hmem (hsent hs), fun hc => hmem (hconf hc)⟩
  | reader _ | writer _ => exact ⟨hret, hsent, hconf⟩

theorem ConnInv.reader_move (h : ConnInv c) (hm : c.Move b c') (hs : c'.reader.st ≠ .notSpawned) :
    .connectReturned true ∈ c'.log ∧ .startOk ∈ c'.log := by
  have hmem : ∀ {e : Event}, e ∈ c.log → e ∈ c'.log := fun he => hm.log_isPrefix.subset he
  have hold : c.reader.st ≠ .notSpawned → .connectReturned true ∈ c'.log ∧ .startOk ∈ c'.log :=
    fun hs => ⟨hmem (h.reader hs).1, hmem (h.reader hs).2⟩
  cases hm with
  | task hm =>
    cases hm with
    | spawnReader hp => exact ⟨h.returned (by rw [hp]; rfl), h.configured (by rw [hp]; rfl)⟩
    | _ => exact hold hs
  | user hm =>
    obtain ⟨-, -, -, hr, -⟩ := hm.frame
    exact hold (hr ▸ hs)
  | msg hp => exact hold (by rw [hp]; simp)
  | reader hm => exact hold hm.runs.spawned
  | writer hm => exact hold hs

theorem ConnInv.remote_move (h : ConnInv c) (hm : c.Move b c') (hr : .remoteClose ∈ c'.log) :
    c'.reader.st = .finished .ok := by
  have hold := h.remote
  cases hm with
  | task hm =>
    cases hm with
    | readerOk hp _ hfin => exact hfin
    | connectFails hp | onConnect hp | connectOk hp | connectErr hp | closing hp =>
      exact hold (mem_of_mem_concat (by simp) hr)
    | spawnReader hp =>
      have ht := h.tasks
      rw [hp] at ht
      have hst := hold hr
      rw [ht.2.2] at hst; cases hst
    | _ => exact hold hr
  | user hm =>
    obtain ⟨-, hcb, -, hrd, -⟩ := hm.frame
    have hmem : Event.remoteClose ∈ callbacks c'.log := List.mem_filter.mpr ⟨hr, rfl⟩
    rw [hcb] at hmem
    rw [hrd]; exact hold (List.mem_filter.mp hmem).1
  | msg hp =>
    have := hold (mem_of_mem_concat (by simp) hr)
    rw [hp] at this; cases this
  | reader hm => exact absurd (hold hr) (hm.runs.running _)
  | writer hm => exact hold hr

theorem ConnInv.msg_move (h : ConnInv c) (hm : c.Move b c') :
    ∀ pre post, c'.log = pre ++ .msg :: post →
      .connectReturned true ∈ pre ∧ .startOk ∈ pre ∧ .remoteClose ∉ pre := by
  refine hm.forall_msg h.msg fun hp => ?_
  obtain ⟨hret, hstart⟩ := h.reader (by rw [hp]; simp)
  refine ⟨hret, hstart, fun hrem => ?_⟩
  have := h.remote hrem
  rw [hp] at this; cases this

theorem ConnInv.move (h : ConnInv c) (hm : c.Move b c') : ConnInv c' :=
  ⟨h.events_move hm, h.tasks_move hm, h.accepted_move hm, (h.history_move hm).1,
    (h.history_move hm).2.1, (h.history_move hm).2.2, h.reader_move hm, h.remote_move hm,
    h.msg_move hm⟩

theorem connInv_unborn : ConnInv (Conn.unborn : Conn A) := by
  constructor <;> simp [Conn.unborn, callbacks, Pc.Events, Pc.Tasks, Pc.returnedOk, Pc.configured,
    Task.unborn]

/-- The invariant holds whatever the environment does with the stopper. -/
theorem reach_connInv (hr : (Conn.machine A).Reach c) : ConnInv c :=
  hr.invariant connInv_unborn fun _ _ _ h hs => h.move (Conn.step_cases hs)

end SocketManager.Manager
