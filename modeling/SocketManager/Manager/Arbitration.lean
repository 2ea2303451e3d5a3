import Mathlib.Data.List.Perm.Basic
import SocketManager.Manager.Handle
import SocketManager.Manager.LateClose

/-! Who decides about a connection. `start_connection`, `close`, a callback that fails and a `Conn` that
    is dropped all compete for the config channel:

        exchange of `consumed`     one winner among the calls of `start_connection` and `close`
        take of `inner`            by the winner only; it sends the config, or drops the sender
        config receiver            dropped with the failing callback, or given the config

    So the config is sent at most once, nobody takes twice, and the connection task goes on to spawn
    its reader and writer exactly when the callback returned `Ok` and a `start_connection` did. -/

namespace SocketManager.Manager
variable {A : Type} {c c' : Conn A} {b : ConnAct A}

/-! ### The take of `inner` -/

/-- What is left of the calls without one of them. -/
theorem countP_eraseIdx {calls : List Call} {i : Nat} {call : Call} (h : calls[i]? = some call) :
    calls.countP Call.takes =
      (calls.eraseIdx i).countP Call.takes + if call.takes then 1 else 0 := by
  obtain ⟨hi, rfl⟩ := List.getElem?_eq_some_iff.mp h
  rw [← (List.getElem_cons_eraseIdx_perm hi).countP_eq, List.countP_cons]

theorem countP_set {calls : List Call} {i : Nat} {call : Call} (h : calls[i]? = some call)
    (call' : Call) :
    (calls.set i call').countP Call.takes =
      (calls.eraseIdx i).countP Call.takes + if call'.takes then 1 else 0 := by
  obtain ⟨hi, -⟩ := List.getElem?_eq_some_iff.mp h
  rw [(List.set_perm_cons_eraseIdx hi call').countP_eq, List.countP_cons]

/-- At most one call is about to take `inner`, and it will find it. -/
structure TakeInv (c : Conn A) : Prop where
  one : c.calls.countP Call.takes ≤ 1
  inner : 0 < c.calls.countP Call.takes → c.inner = true
  unwrap : c.unwrapFailed = false

theorem HandleInv.none_takes (h : HandleInv c) (hc : c.consumed = false) :
    c.calls.countP Call.takes = 0 := by
  rw [List.countP_eq_zero]
  intro call hmem
  simp [(h.free hc).2 call hmem]

theorem TakeInv.user (h : TakeInv c) (hh : HandleInv c) (hm : c.UserStep b c') : TakeInv c' := by
  have hone := h.one
  cases hm with
  | start hu hc | close hu hc =>
    -- the winner of the exchange is the only one to take
    have hnone := hh.none_takes hc
    refine ⟨?_, fun _ => (hh.free hc).1 hu, h.unwrap⟩
    simp [List.countP_append, hnone, Call.takes]
  | startRefused | dropStopper => exact ⟨h.one, h.inner, h.unwrap⟩
  | closeConsumed hu hc =>
    have hsame : (c.calls ++ [Call.closeRemove c.started]).countP Call.takes =
        c.calls.countP Call.takes := by simp [List.countP_append, Call.takes]
    exact ⟨hsame.trans_le h.one, fun hp => h.inner (hsame ▸ hp), h.unwrap⟩
  | startOk hc | startErr hc =>
    have hrest := countP_eraseIdx hc
    simp only [Call.takes, if_true] at hrest
    refine ⟨by simp only [Conn.event_calls]; omega, fun hp => ?_, h.unwrap⟩
    simp only [Conn.event_calls] at hp
    omega
  | @closeTake i late hc =>
    have hrest := countP_eraseIdx hc
    have hset := countP_set hc (.closeRemove late)
    simp only [Call.takes, if_true] at hrest
    simp [Call.takes] at hset
    refine ⟨by simp only; omega, fun hp => ?_, h.unwrap⟩
    simp only at hp
    omega
  | @unwrapFails i call hc hi hn =>
    have hrest := countP_eraseIdx hc
    have htakes : call.takes = true := by
      cases call with
      | startTake | closeTake => rfl
      | closeRemove late => exact absurd rfl (hn late)
    rw [htakes, if_pos rfl] at hrest
    have hinner := h.inner (by omega)
    rw [hi] at hinner; cases hinner
  | closeReturned hc =>
    have hrest := countP_eraseIdx hc
    simp [Call.takes] at hrest
    exact ⟨hrest ▸ h.one, fun hp => h.inner (hrest ▸ hp), h.unwrap⟩
  | dropHandle hu hc => exact ⟨h.one, fun hp => by simp [hc] at hp, h.unwrap⟩

theorem TakeInv.move (h : TakeInv c) (hh : HandleInv c) (hm : c.Move b c') : TakeInv c' := by
  cases hm with
  | task hm =>
    cases hm with
    | connected | accept => exact ⟨h.one, fun _ => rfl, h.unwrap⟩
    | _ => exact ⟨h.one, h.inner, h.unwrap⟩
  | user hm => exact h.user hh hm
  | msg _ | reader _ | writer _ => exact ⟨h.one, h.inner, h.unwrap⟩

theorem reach_takeInv (hr : (Conn.machine A).Reach c) : TakeInv c := by
  refine Machine.Path.invariant_of_reach (I := TakeInv) hr
    ⟨Nat.zero_le _, (fun h => by cases h), rfl⟩ ?_
  exact fun _ _ _ hr _ h hs => h.move (reach_handleInv hr) (Conn.step_cases hs)

/-! ### The send of the config -/

/-- A move logs no `Ok` of `start_connection`, or is that of a call that takes `inner`. -/
theorem Conn.Move.startOk_cases (h : c.Move b c') :
    c'.log.count .startOk = c.log.count .startOk ∨
      c.inner = true ∧ c'.inner = false ∧ c'.log = c.log ++ [.startOk] ∧ c'.consumed = c.consumed ∧
        ∃ i : Nat, c.calls[i]? = some Call.startTake := by
  cases h with
  | task h => cases h <;> simp [List.count_append]
  | user h =>
    cases h with
    | startOk hc hi => exact .inr ⟨hi, rfl, rfl, rfl, _, hc⟩
    | _ => simp [List.count_append]
  | msg _ => simp [List.count_append]
  | reader _ | writer _ => exact .inl rfl

/-- `inner` is made with the connection. -/
theorem Conn.Move.inner (h : c.Move b c') (hi : c'.inner = true) :
    c.inner = true ∨ c.pc.beforeConnect = true := by
  cases h with
  | task h =>
    cases h with
    | connected key hp | accept key hp => exact .inr (by rw [hp]; rfl)
    | _ => exact .inl hi
  | user h =>
    cases h with
    | startOk | startErr | closeTake | dropHandle => cases hi
    | _ => exact .inl hi
  | msg _ | reader _ | writer _ => exact .inl hi

/-- The config is sent at most once, by the winner of the exchange. -/
structure SentInv (c : Conn A) : Prop where
  once : c.log.count .startOk ≤ 1
  sent : 0 < c.log.count .startOk → c.consumed = true ∧ c.inner = false

theorem SentInv.move (h : SentInv c) (hh : HandleInv c) (hm : c.Move b c') : SentInv c' := by
  rcases hm.startOk_cases with hsame | ⟨hi, hi', hlog, hcons, i, hcall⟩
  · refine ⟨hsame.trans_le h.once, fun hpos => ?_⟩
    obtain ⟨hc, hi⟩ := h.sent (hsame ▸ hpos)
    refine ⟨hm.consumed hc, ?_⟩
    by_contra hi'
    rcases hm.inner (by simpa using hi') with hold | hp
    · rw [hi] at hold; cases hold
    · rw [(hh.before hp).2.1] at hc; cases hc
  · have hzero : c.log.count .startOk = 0 := by
      by_contra hne
      have := (h.sent (by omega)).2
      rw [hi] at this; cases this
    have hcount : c'.log.count .startOk = 1 := by rw [hlog, List.count_append, hzero]; rfl
    exact ⟨hcount.le, fun _ => ⟨hcons.trans (hh.consumed_of_takes hcall rfl), hi'⟩⟩

theorem reach_sentInv (hr : (Conn.machine A).Reach c) : SentInv c := by
  refine Machine.Path.invariant_of_reach (I := SentInv) hr
    ⟨Nat.zero_le _, fun h => absurd h (Nat.lt_irrefl 0)⟩ ?_
  exact fun _ _ _ hr _ h hs => h.move (reach_handleInv hr) (Conn.step_cases hs)

/-! ### The end of the connection task -/

/-- Both tasks were spawned. -/
def Conn.Spawned (c : Conn A) : Prop := c.writer.st ≠ .notSpawned ∧ c.reader.st ≠ .notSpawned

/-- Neither task was spawned, and the connection cannot have been started: the callback did not return
    `Ok`, or the sender of the config is gone and the config was not sent. -/
structure Conn.Unstarted (c : Conn A) : Prop where
  writer : c.writer = .unborn
  reader : c.reader = .unborn
  why : .connectReturned true ∉ c.log ∨ c.inner = false ∧ c.configSent = false

/-- How the connection task came to its end. -/
structure EndInv (c : Conn A) : Prop where
  remove : c.pc = .remove → c.Spawned
  ended : c.pc.pastCleanup = true → c.Spawned ∨ c.Unstarted

/-- The join loop is left with both tasks spawned. -/
theorem ConnInv.spawned (h : ConnInv c) (hp : c.pc.joining = true) : c.Spawned := by
  have ht := h.tasks
  cases hpc : c.pc with
  | join ws rs => rw [hpc] at ht; exact ⟨ht.2.2.1, ht.2.2.2.1⟩
  | inRemoteClose ws => rw [hpc] at ht; exact ⟨ht.2.2.1, ht.2.2.2.1⟩
  | _ => rw [hpc] at hp; cases hp

theorem EndInv.task (h : EndInv c) (hi : ConnInv c) (hs : StartInv c) (hm : c.TaskStep b c') :
    EndInv c' := by
  have ht := hi.tasks
  cases hm with
  | remoteReturnedLast hp | joinStop hp | writerOkLast hp | writerErr hp | readerErr hp =>
    exact ⟨fun _ => hi.spawned (by rw [hp]; rfl), fun he => by cases he⟩
  | remove hp => exact ⟨(fun h => by cases h), fun _ => .inl (h.remove hp)⟩
  | unconfigured hp hc hinner =>
    rw [hp] at ht
    exact ⟨(fun h => by cases h), fun _ => .inr ⟨ht.1, ht.2, .inr ⟨hinner, hc⟩⟩⟩
  | connectErr hp =>
    rw [hp] at ht
    refine ⟨(fun h => by cases h), fun _ => .inr ⟨ht.1, ht.2, .inl fun hmem => ?_⟩⟩
    have hret := hs.returned (mem_of_mem_concat (by simp) hmem)
    rw [hp] at hret; simp [Pc.returnedOk, Pc.pastInsert] at hret
  | closing hp =>
    refine ⟨(fun h => by cases h), fun _ => ?_⟩
    rcases h.ended (by rw [hp]; rfl) with hsp | hun
    · exact .inl hsp
    · refine .inr ⟨hun.writer, hun.reader, hun.why.imp_left fun hno hmem => ?_⟩
      exact hno (mem_of_mem_concat (by simp) hmem)
  | closeReturned hp =>
    refine ⟨(fun h => by cases h), fun _ => (h.ended (by rw [hp]; rfl)).imp_right ?_⟩
    exact fun hun => ⟨hun.writer, hun.reader, hun.why⟩
  | _ => exact ⟨(fun h => by cases h), fun he => by cases he⟩

theorem Conn.Unstarted.user (h : c.Unstarted) (hm : c.UserStep b c') : c'.Unstarted := by
  obtain ⟨-, -, hw, hr, -⟩ := hm.frame
  refine ⟨hw.trans h.writer, hr.trans h.reader, ?_⟩
  rcases h.why with hno | ⟨hi, hc⟩
  · left
    intro hmem
    cases hm with
    | startRefused | close | closeConsumed | startOk | startErr | closeReturned =>
      exact hno (mem_of_mem_concat (by simp) hmem)
    | _ => exact hno hmem
  · right
    cases hm with
    | startOk _ hinner => rw [hi] at hinner; cases hinner
    | startErr | closeTake | dropHandle => exact ⟨rfl, hc⟩
    | _ => exact ⟨hi, hc⟩

/-- A task that runs was spawned, so the connection was started. -/
theorem EndInv.runs (h : EndInv c) (hpc : c'.pc = c.pc)
    (hruns : c'.writer = c.writer ∧ TaskRuns c.reader c'.reader ∨
      TaskRuns c.writer c'.writer ∧ c'.reader = c.reader) : EndInv c' := by
  have hsp : c.Spawned → c'.Spawned := by
    rintro ⟨hw, hr⟩
    rcases hruns with ⟨heq, hrun⟩ | ⟨hrun, heq⟩
    · exact ⟨heq ▸ hw, hrun.spawned'⟩
    · exact ⟨hrun.spawned', heq ▸ hr⟩
  refine ⟨fun hp => hsp (h.remove (hpc ▸ hp)), fun he => ?_⟩
  rcases h.ended (hpc ▸ he) with hold | hun
  · exact .inl (hsp hold)
  · rcases hruns with ⟨-, hrun⟩ | ⟨hrun, -⟩
    · exact absurd (by rw [hun.reader]; rfl) hrun.spawned
    · exact absurd (by rw [hun.writer]; rfl) hrun.spawned

theorem EndInv.move (h : EndInv c) (hi : ConnInv c) (hs : StartInv c) (hm : c.Move b c') :
    EndInv c' := by
  cases hm with
  | task hm => exact h.task hi hs hm
  | user hm =>
    obtain ⟨hpc, -, hw, hr, -⟩ := hm.frame
    have hsp : c.Spawned → c'.Spawned := by
      unfold Conn.Spawned
      rw [hw, hr]; exact id
    refine ⟨fun hp => hsp (h.remove (hpc ▸ hp)), fun he => ?_⟩
    exact (h.ended (hpc ▸ he)).imp hsp fun hun => hun.user hm
  | msg hp => exact h.runs rfl (.inl ⟨rfl, Task.runs_msg hp⟩)
  | reader hm => exact h.runs rfl (.inl ⟨rfl, hm.runs⟩)
  | writer hm => exact h.runs rfl (.inr ⟨hm.runs, rfl⟩)

theorem reach_endInv (hr : (Conn.machine A).Reach c) : EndInv c := by
  refine Machine.Path.invariant_of_reach (I := EndInv) hr
    ⟨(fun h => by cases h), fun h => by cases h⟩ ?_
  exact fun _ _ _ hr _ h hs => h.move (reach_connInv hr) (reach_startInv hr) (Conn.step_cases hs)

/-- At its end the connection task has spawned both tasks, or the connection was not started. -/
theorem EndInv.started (h : EndInv c) (hi : ConnInv c) (hs : StartInv c)
    (he : c.pc.pastCleanup = true) :
    c.Spawned ∧ (.connectReturned true ∈ c.log ∧ .startOk ∈ c.log) ∨
      (c.writer.st = .notSpawned ∧ c.reader.st = .notSpawned) ∧
        ¬ (.connectReturned true ∈ c.log ∧ .startOk ∈ c.log) := by
  rcases h.ended he with hsp | hun
  · exact .inl ⟨hsp, hi.reader hsp.2⟩
  · refine .inr ⟨⟨by rw [hun.writer]; rfl, by rw [hun.reader]; rfl⟩, ?_⟩
    rintro ⟨hret, hok⟩
    rcases hun.why with hno | ⟨-, hc⟩
    · exact hno hret
    · rw [hs.sent hok] at hc; cases hc

/-- Without a start there was no message. -/
theorem ConnInv.no_msg (h : ConnInv c)
    (hno : ¬ (.connectReturned true ∈ c.log ∧ .startOk ∈ c.log)) : .msg ∉ c.log := by
  intro hmem
  obtain ⟨pre, post, heq⟩ := List.append_of_mem hmem
  obtain ⟨hret, hok, -⟩ := h.msg pre post heq
  rw [heq] at hno
  exact hno ⟨List.mem_append_left _ hret, List.mem_append_left _ hok⟩

/-! ### In the manager -/

section
variable [DecidableEq A] {s s' : State A} {i : Nat}

theorem conn_step_of_no_access (hop : (s.conns i).regOp b = .none)
    (hs : s.step (.conn i b) = some s') : (s.conns i).step b = some (s'.conns i) := by
  obtain ⟨c, hc, rfl⟩ := step_conn_of_no_access hop hs
  simpa [State.setConn] using hc

/-- Each call of the two wins the exchange or finds it won. -/
theorem consumed_of_call (hb : b = .start ∨ b = .close) (hs : s.step (.conn i b) = some s') :
    (s'.conns i).consumed = true := by
  rcases hb with rfl | rfl
  · have hc := Conn.start_cases (conn_step_of_no_access rfl hs)
    generalize s'.conns i = c' at hc
    cases hc with
    | start => rfl
    | startRefused _ hc => exact hc
  · have hc := Conn.close_cases (conn_step_of_no_access rfl hs)
    generalize s'.conns i = c' at hc
    cases hc with
    | close => rfl
    | closeConsumed _ hc => exact hc

/-- `start_connection` on a consumed `Conn` is refused. -/
theorem start_of_consumed (hc : (s.conns i).consumed = true)
    (hs : s.step (.conn i .start) = some s') : s'.conns i = (s.conns i).event .startErr := by
  have hm := Conn.start_cases (conn_step_of_no_access rfl hs)
  generalize s'.conns i = c' at hm
  cases hm with
  | start _ hf => rw [hc] at hf; cases hf
  | startRefused => rfl

theorem consumed_path {ok : State A → Act A → Prop} (hp : (machine A).Path ok s s')
    (hc : (s.conns i).consumed = true) : (s'.conns i).consumed = true := by
  refine (path_conn_any hp i).invariant (I := fun c => c.consumed = true) hc ?_
  exact fun _ _ _ _ hc hs => (Conn.step_cases hs).consumed hc

end

/-- One winner. Whatever the calls of `start_connection` and `close` on a `Conn` and the steps of its
    connection task: no `take().unwrap()` meets `None`; at most one `start_connection` returns `Ok`;
    one that is called after any of the two was called is refused; and a connection task that has
    completed spawned its reader and writer if and only if the callback with `OnConnect` returned `Ok`
    and a `start_connection` did. Otherwise it spawned neither and ended with `OnConnectionClose`, no
    entry in the registry and no call of `on_msg`. -/
theorem start_close_arbitration (A : Type) [DecidableEq A] (s : State A) (hr : (machine A).Reach s)
    (i : Nat) :
    (s.conns i).unwrapFailed = false ∧
    (s.conns i).log.count .startOk ≤ 1 ∧
    (∀ b s₁ s₂ s₃, (b = .start ∨ b = .close) → s.step (.conn i b) = some s₁ →
      (machine A).Path (fun _ _ => True) s₁ s₂ → s₂.step (.conn i .start) = some s₃ →
      s₃.conns i = (s₂.conns i).event .startErr) ∧
    ((s.conns i).pc = .done →
      ((s.conns i).writer.st ≠ .notSpawned ∧ (s.conns i).reader.st ≠ .notSpawned ↔
        .connectReturned true ∈ (s.conns i).log ∧ .startOk ∈ (s.conns i).log) ∧
      (¬ (.connectReturned true ∈ (s.conns i).log ∧ .startOk ∈ (s.conns i).log) →
        (s.conns i).writer.st = .notSpawned ∧ (s.conns i).reader.st = .notSpawned ∧
        .connectionClose ∈ (s.conns i).log ∧ (∀ key, s.connections key ≠ some i) ∧
        .msg ∉ (s.conns i).log)) := by
  have hrc := reach_conn hr i
  have hi := reach_connInv hrc
  refine ⟨(reach_takeInv hrc).unwrap, (reach_sentInv hrc).once, ?_, ?_⟩
  · intro b s₁ s₂ s₃ hb hs₁ hp hs₃
    exact start_of_consumed (consumed_path hp (consumed_of_call hb hs₁)) hs₃
  · intro hdone
    have he : (s.conns i).pc.pastCleanup = true := by rw [hdone]; rfl
    rcases (reach_endInv hrc).started hi (reach_startInv hrc) he with ⟨hsp, hst⟩ | ⟨hun, hno⟩
    · exact ⟨iff_of_true hsp hst, fun hno => absurd hst hno⟩
    · refine ⟨iff_of_false (fun hsp => hsp.1 hun.1) hno, fun _ => ⟨hun.1, hun.2, ?_, ?_, ?_⟩⟩
      · have hev := hi.events
        rw [hdone] at hev
        refine (mem_callbacks rfl).mp ?_
        rcases hev with hev | hev <;> simp [hev]
      · exact (pastCleanup_unlisted hr i he).2
      · exact hi.no_msg hno

/-- The callback starts the connection, closes it, starts it again and then fails. -/
theorem start_close_arbitration_failing : ∃ s : State Nat, (machine Nat).Reach s ∧
    (s.conns 0).pc = .done ∧ .startOk ∈ (s.conns 0).log ∧ (s.conns 0).unwrapFailed = false ∧
    (s.conns 0).log.count .startOk ≤ 1 ∧ (s.conns 0).reader.st = .notSpawned ∧
    .connectionClose ∈ (s.conns 0).log := by
  obtain ⟨s, hr, hs⟩ := (machine Nat).reach_of_run
    [.connect, .connected 0 (1, 2), .conn 0 .task, .conn 0 .start, .conn 0 (.user 0), .conn 0 .close,
      .conn 0 .start, .conn 0 (.user 0), .conn 0 (.returns false), .conn 0 .task,
      .conn 0 (.returns true)]
    (fun s => decide ((s.conns 0).pc = .done ∧ .startOk ∈ (s.conns 0).log ∧
      .connectReturned true ∉ (s.conns 0).log))
    (by decide +kernel)
  obtain ⟨hdone, hok, hret⟩ := of_decide_eq_true hs
  obtain ⟨hunwrap, hcount, -, hend⟩ := start_close_arbitration Nat s hr 0
  obtain ⟨-, hread, hclose, -⟩ := (hend hdone).2 fun h => hret h.1
  exact ⟨s, hr, hdone, hok, hunwrap, hcount, hread, hclose⟩

end SocketManager.Manager
